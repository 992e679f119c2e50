import Mathlib.Data.Fintype.Fin
import Mathlib.Data.List.Perm.Basic
import Mathlib.Tactic.FinCases
import SimpleOs.Library.LinkedList
import SimpleOs.Threads.Scheduler

/-!
# What a refill does

A refill loads a prefix of each priority queue into the running queue, and the
lengths of the queues alone decide how long each prefix is. The last node loaded
keeps its link, so the running queue runs on into what is left of that node's
queue. This file proves that description of `createRunningQueue` for queues of
any length.
-/

namespace SimpleOs.Threads

open LinkedList

variable {s s' : Queues}

/-! ## The counting loops -/

/-- Pointer `p` starts a `NULL`-terminated list of the nodes `l`. -/
def Queues.IsList (s : Queues) (p : Option Addr) (l : List Addr) : Prop :=
  Segment s.link p l none

/-- The link of the first node of a list points to the rest. -/
theorem Queues.IsList.link_eq {p : Option Addr} {a : Addr} {l : List Addr}
    (h : s.IsList p (a :: l)) : s.link a = some l.head? ∧ s.IsList l.head? l := by
  obtain ⟨_, next, hnext, hl⟩ := h
  have hhead := Segment.eq_head? hl
  subst hhead
  exact ⟨hnext, hl⟩

/-- One thread of priority 2 is counted first, if there is one. -/
theorem countOne_eq {l : List Addr} (h : s.IsList (s.priority_head 2) l) :
    countOne s = some ⟨100 * min 1 l.length, min 1 l.length, (l.drop 1).head?⟩ := by
  unfold countOne
  cases l with
  | nil =>
    have hnull : s.priority_head 2 = none := h
    simp [hnull]
  | cons a l =>
    rw [h.1]
    simp [h.link_eq.1]

/-- Counting up to two threads of priority 1. -/
theorem countTwo_eq {fuel : ℕ} {l : List Addr} {count p : ℕ} {c : Cursor}
    (h : s.IsList l.head? l) (hp : p < 2) (hc : countTwo s fuel ⟨count, p, l.head?⟩ = some c) :
    c = ⟨count + 50 * min (2 - p) l.length, p + min (2 - p) l.length,
      (l.drop (2 - p)).head?⟩ := by
  induction fuel generalizing l count p with
  | zero => exact absurd hc (by simp [countTwo])
  | succ fuel ih =>
    cases l with
    | nil => simpa [countTwo] using hc.symm
    | cons a l =>
      obtain ⟨hlink, hl⟩ := h.link_eq
      simp only [countTwo, List.head?_cons, hlink, Option.bind_some] at hc
      split at hc
      · have : p = 1 := by omega
        subst this
        simpa using hc.symm
      · have : p = 0 := by omega
        subst this
        have := ih hl (by omega) hc
        rw [this]
        have hmin : min 2 (l.length + 1) = min 1 l.length + 1 := by omega
        simp only [Nat.zero_add, List.length_cons, Nat.sub_zero, List.drop_succ_cons, hmin]
        congr 1
        · omega
        · omega

/-- Counting the threads of priority 0 that fit. -/
theorem countRest_eq {fuel : ℕ} {l : List Addr} {count p : ℕ} {c : Cursor}
    (h : s.IsList l.head? l) (hc : countRest s fuel ⟨count, p, l.head?⟩ = some c) :
    c.count = count + 25 * min l.length ((refillMax - count + 24) / 25) ∧
      c.p = p + min l.length ((refillMax - count + 24) / 25) := by
  induction fuel generalizing l count p with
  | zero => exact absurd hc (by simp [countRest])
  | succ fuel ih =>
    cases l with
    | nil =>
      have := Option.some.inj (hc : some _ = some c)
      simp [← this]
    | cons a l =>
      obtain ⟨hlink, hl⟩ := h.link_eq
      simp only [countRest, List.head?_cons, hlink, Option.bind_some] at hc
      unfold refillMax at *
      split at hc
      · obtain ⟨hcount, hp⟩ := ih hl hc
        rw [hcount, hp, List.length_cons]
        omega
      · rw [← Option.some.inj hc]
        simp only [List.length_cons]
        omega

/-- Filling up counts as many threads as fit, in both versions. -/
theorem fillUp_eq {v : Version} {fuel quantum : ℕ} {l : List Addr} {count p : ℕ} {c : Cursor}
    (h : s.IsList l.head? l) (hquantum : quantum = 50 ∨ quantum = 100)
    (hc : fillUp v s quantum fuel ⟨count, p, l.head?⟩ = some c) :
    c.count = count + quantum * min l.length ((refillMax - count) / quantum) ∧
      c.p = p + min l.length ((refillMax - count) / quantum) := by
  induction fuel generalizing l count p with
  | zero => exact absurd hc (by simp [fillUp])
  | succ fuel ih =>
    cases l with
    | nil =>
      have := Option.some.inj (hc : some _ = some c)
      simp [← this]
    | cons a l =>
      obtain ⟨hlink, hl⟩ := h.link_eq
      simp only [fillUp, List.head?_cons, hlink, Option.bind_some] at hc
      unfold refillMax at *
      split at hc
      · split at hc
        · obtain ⟨hcount, hp⟩ := ih hl hc
          rw [hcount, hp, List.length_cons]
          rcases hquantum with rfl | rfl <;> omega
        · cases v with
          | Pthreads =>
            obtain ⟨hcount, hp⟩ := ih (l := a :: l) h hc
            exact ⟨hcount, hp⟩
          | Memory_Manager =>
            obtain ⟨hcount, hp⟩ := ih hl hc
            rw [hcount, hp, List.length_cons]
            rcases hquantum with rfl | rfl <;> omega
      · rw [← Option.some.inj hc]
        simp only [List.length_cons]
        rcases hquantum with rfl | rfl <;> omega

/-- How many threads of each priority a refill loads from queues of the given
lengths: one of priority 2, up to two of priority 1, as many of priority 0 as
fit, and then more of priority 1 and of priority 2 if there is room left. -/
def quota (length : Fin 3 → ℕ) : Fin 3 → ℕ :=
  let p2 := min 1 (length 2)
  let p1 := min 2 (length 1)
  let room := refillMax - 100 * p2 - 50 * p1
  let p0 := min (length 0) (room / 25)
  let room := room - 25 * p0
  let more1 := min (length 1 - p1) (room / 50)
  let room := room - 50 * more1
  let more2 := min (length 2 - p2) (room / 100)
  ![p0, p1 + more1, p2 + more2]

theorem quota_zero (length : Fin 3 → ℕ) : quota length 0 = min (length 0)
    ((refillMax - 100 * min 1 (length 2) - 50 * min 2 (length 1)) / 25) := rfl

theorem quota_one (length : Fin 3 → ℕ) : quota length 1 = min 2 (length 1) +
    min (length 1 - min 2 (length 1)) ((refillMax - 100 * min 1 (length 2) -
      50 * min 2 (length 1) - 25 * quota length 0) / 50) := rfl

theorem quota_two (length : Fin 3 → ℕ) : quota length 2 = min 1 (length 2) +
    min (length 2 - min 1 (length 2)) ((refillMax - 100 * min 1 (length 2) -
      50 * min 2 (length 1) - 25 * quota length 0 -
      50 * (quota length 1 - min 2 (length 1))) / 100) := by
  rw [quota_one, Nat.add_sub_cancel_left]
  rfl

/-- The largest number of threads that fit in the room. -/
theorem share_spec (n r : ℕ) {w : ℕ} (hw : 0 < w) :
    min n (r / w) ≤ n ∧ w * min n (r / w) ≤ r ∧
      (min n (r / w) < n → r < w * min n (r / w) + w) := by
  refine ⟨min_le_left _ _, ?_, fun hlt => ?_⟩
  · calc w * min n (r / w) ≤ w * (r / w) := Nat.mul_le_mul_left w (min_le_right _ _)
      _ ≤ r := Nat.mul_div_le r w
  · rw [min_eq_right (by omega), ← Nat.mul_succ]
    exact Nat.lt_mul_div_succ r hw

/-- The numbers are within the room and leave none of it that the next thread could use. -/
structure IsQuota (length n : Fin 3 → ℕ) : Prop where
  /-- There are so many threads. -/
  le : ∀ c, n c ≤ length c
  /-- Their slices fit into the room of a running queue. -/
  fits : 25 * n 0 + 50 * n 1 + 100 * n 2 ≤ refillMax
  /-- Two threads of priority 1 come first. -/
  first_one : min 2 (length 1) ≤ n 1
  /-- One thread of priority 2 comes first. -/
  first_two : min 1 (length 2) ≤ n 2
  /-- Another thread of priority 0 does not fit behind these. -/
  full_zero : n 0 < length 0 →
    refillMax < 25 * (n 0 + 1) + 50 * min 2 (length 1) + 100 * min 1 (length 2)
  /-- Then another thread of priority 1 does not fit. -/
  full_one : n 1 < length 1 →
    refillMax < 25 * n 0 + 50 * (n 1 + 1) + 100 * min 1 (length 2)
  /-- Then another thread of priority 2 does not fit. -/
  full_two : n 2 < length 2 → refillMax < 25 * n 0 + 50 * n 1 + 100 * (n 2 + 1)

/-- The numbers that the refill computes are within the room and leave none unused. -/
theorem isQuota_quota (length : Fin 3 → ℕ) : IsQuota length (quota length) := by
  have h0 := quota_zero length
  have h1 := quota_one length
  have h2 := quota_two length
  rw [h1, Nat.add_sub_cancel_left] at h2
  have hfirst1 : min 2 (length 1) ≤ 2 ∧ min 2 (length 1) ≤ length 1 :=
    ⟨min_le_left _ _, min_le_right _ _⟩
  have hfirst2 : min 1 (length 2) ≤ 1 ∧ min 1 (length 2) ≤ length 2 :=
    ⟨min_le_left _ _, min_le_right _ _⟩
  have hmax : refillMax = 300 := rfl
  -- What is taken out of the room that the shares before leave.
  obtain ⟨hle0, hroom0, hfull0⟩ := share_spec (length 0)
    (refillMax - 100 * min 1 (length 2) - 50 * min 2 (length 1)) (w := 25) (by decide)
  rw [← h0] at hle0 hroom0 hfull0
  clear h0
  obtain ⟨hle1, hroom1, hfull1⟩ := share_spec (length 1 - min 2 (length 1))
    (refillMax - 100 * min 1 (length 2) - 50 * min 2 (length 1) - 25 * quota length 0)
    (w := 50) (by decide)
  generalize min (length 1 - min 2 (length 1)) _ = more1 at *
  obtain ⟨hle2, hroom2, hfull2⟩ := share_spec (length 2 - min 1 (length 2))
    (refillMax - 100 * min 1 (length 2) - 50 * min 2 (length 1) - 25 * quota length 0 -
      50 * more1) (w := 100) (by decide)
  generalize min (length 2 - min 1 (length 2)) _ = more2 at *
  generalize hone : min 2 (length 1) = first1 at *
  generalize htwo : min 1 (length 2) = first2 at *
  constructor
  · intro c
    fin_cases c
    · exact hle0
    · change quota length 1 ≤ length 1
      omega
    · change quota length 2 ≤ length 2
      omega
  · omega
  · rw [hone, h1]
    exact Nat.le_add_right _ _
  · rw [htwo, h2]
    exact Nat.le_add_right _ _
  · rw [hone, htwo]
    omega
  · rw [htwo]
    omega
  · omega

/-- A refill loads no more threads than there are. -/
theorem quota_le (length : Fin 3 → ℕ) (c : Fin 3) : quota length c ≤ length c :=
  (isQuota_quota length).le c

/-- No nonempty queue is passed over. -/
theorem quota_eq_zero (length : Fin 3 → ℕ) (c : Fin 3) : quota length c = 0 ↔ length c = 0 := by
  have hquota := isQuota_quota length
  have hle := hquota.le c
  refine ⟨fun h => ?_, fun h => by omega⟩
  fin_cases c
  · have hfull := hquota.full_zero
    change quota length 0 = 0 at h
    change length 0 = 0
    unfold refillMax at hfull
    omega
  · have hfirst := hquota.first_one
    change quota length 1 = 0 at h
    change length 1 = 0
    omega
  · have hfirst := hquota.first_two
    change quota length 2 = 0 at h
    change length 2 = 0
    omega

/-- The condition on the queue lengths under which a refill leaves nothing of the
queue it loads from last: everything fits, or that queue is short. -/
def RefillExhausts (length : Fin 3 → ℕ) : Prop :=
  25 * length 0 + 50 * length 1 + 100 * length 2 ≤ refillMax ∨ length 2 = 1 ∨
    (length 2 = 0 ∧ (length 1 = 1 ∨ length 1 = 2))

/-- The queue loaded from last is the nonempty one of lowest priority. -/
theorem refillExhausts_iff (length : Fin 3 → ℕ) :
    RefillExhausts length ↔
      if 0 < length 2 then quota length 2 = length 2
      else if 0 < length 1 then quota length 1 = length 1
      else quota length 0 = length 0 := by
  obtain ⟨hle, hfits, _, _, hfull0, hfull1, hfull2⟩ := isQuota_quota length
  have hle0 := hle 0
  have hle1 := hle 1
  have hle2 := hle 2
  unfold RefillExhausts refillMax at *
  split
  · omega
  · split
    · omega
    · omega

/-- The numbers of a refill are its quota. -/
theorem tally_eq {v : Version} {fuel : ℕ} {q : Fin 3 → List Addr} {p : Fin 3 → ℕ}
    (h : ∀ c, s.IsList (s.priority_head c) (q c)) (hp : tally v fuel s = some p) :
    p = quota fun c => (q c).length := by
  have hleft1 : (q 1).length - min 2 (q 1).length = (q 1).length - 2 := by omega
  have hleft2 : (q 2).length - min 1 (q 2).length = (q 2).length - 1 := by omega
  have hhead (c : Fin 3) : s.priority_head c = (q c).head? := Segment.eq_head? (h c)
  have hlist (c : Fin 3) : s.IsList (q c).head? (q c) := by
    rw [← hhead]
    exact h c
  simp only [tally, countOne_eq (h 2), Option.bind_eq_bind, Option.bind_some, hhead] at hp
  obtain ⟨c1, hc1, hp⟩ := Option.bind_eq_some_iff.mp hp
  obtain ⟨c0, hc0, hp⟩ := Option.bind_eq_some_iff.mp hp
  have hc1' := countTwo_eq (hlist 1) (by omega) hc1
  have hc0' := countRest_eq (hlist 0) hc0
  subst hc1'
  simp only [Nat.zero_add, Nat.sub_zero] at hc0' hp
  obtain ⟨hcount0, hp0⟩ := hc0'
  -- The total is a multiple of 25, so rounding up and down agree.
  have hround : (refillMax - (100 * min 1 (q 2).length + 50 * min 2 (q 1).length) + 24) / 25 =
      (refillMax - 100 * min 1 (q 2).length - 50 * min 2 (q 1).length) / 25 := by
    unfold refillMax
    omega
  rw [hround] at hcount0 hp0
  simp only [quota, hleft1, hleft2]
  rw [← hp0]
  have hroom0 : refillMax - c0.count =
      refillMax - 100 * min 1 (q 2).length - 50 * min 2 (q 1).length - 25 * c0.p := by
    rw [hcount0, ← hp0]
    omega
  split at hp
  · -- There is room left, so the loops that fill up run.
    obtain ⟨c1, hc1, hp⟩ := Option.bind_eq_some_iff.mp hp
    obtain ⟨c2, hc2, hp⟩ := Option.bind_eq_some_iff.mp hp
    obtain ⟨hcount1, hp1⟩ := fillUp_eq (Segment.drop (hlist 1) 2) (Or.inl rfl) hc1
    obtain ⟨_, hp2⟩ := fillUp_eq (Segment.drop (hlist 2) 1) (Or.inr rfl) hc2
    simp only [List.length_drop] at hcount1 hp1 hp2
    rw [hroom0] at hcount1 hp1
    rw [hcount1, ← Nat.sub_sub, hroom0] at hp2
    rw [← Option.some.inj hp, hp1, hp2]
  · have hfull :
        refillMax - 100 * min 1 (q 2).length - 50 * min 2 (q 1).length - 25 * c0.p = 0 := by
      omega
    rw [← Option.some.inj hp, hfull]
    simp

/-! ## The loading loops -/

/-- What a node says about its thread. -/
def Node.thread (n : Node) : Node := { n with next := none }

/-- The two states differ in links, heads and tails only. -/
structure Relinked (s s' : Queues) : Prop where
  /-- The same nodes are allocated, for the same threads. -/
  threads : ∀ a, (s'.node a).map Node.thread = (s.node a).map Node.thread
  /-- The flag is the same. -/
  flag : s'.empty_running_queue = s.empty_running_queue
  /-- The thread ids given out are the same. -/
  count : s'.thread_count1 = s.thread_count1
  /-- The queues have or have not been allocated. -/
  created : s'.priority_Queue = s.priority_Queue

theorem Relinked.refl (s : Queues) : Relinked s s := ⟨fun _ => rfl, rfl, rfl, rfl⟩

theorem Relinked.trans {s₁ s₂ s₃ : Queues} (h : Relinked s₁ s₂) (h' : Relinked s₂ s₃) :
    Relinked s₁ s₃ where
  threads a := (h'.threads a).trans (h.threads a)
  flag := h'.flag.trans h.flag
  count := h'.count.trans h.count
  created := h'.created.trans h.created

/-- A node was allocated before, for the same thread. -/
theorem Relinked.node {a : Addr} {n : Node} (h : Relinked s s') (hn : s'.node a = some n) :
    ∃ m, s.node a = some m ∧ n.thread = m.thread := by
  have := h.threads a
  rw [hn] at this
  obtain ⟨m, hm, hthread⟩ := Option.map_eq_some_iff.mp this.symm
  exact ⟨m, hm, hthread.symm⟩

/-- A store succeeds at an allocated node. -/
theorem Queues.store_eq {a : Addr} {n : Node} (h : s.node a = some n) (f : Node → Node) :
    s.store a f = some { s with node := Function.update s.node a (some (f n)) } := by
  simp [Queues.store, h]

/-- The links after a node has changed. -/
theorem Queues.link_update (s : Queues) (a : Addr) (n : Option Node) :
    Queues.link { s with node := Function.update s.node a n } =
      Function.update s.link a (n.map (·.next)) := by
  funext b
  by_cases hb : b = a
  · subst hb
    simp [Queues.link]
  · simp [Queues.link, hb]

/-- A node that has a link is allocated. -/
theorem Queues.node_of_link {a : Addr} {next : Option Addr} (h : s.link a = some next) :
    ∃ n, s.node a = some n ∧ n.next = next := by
  simpa [Queues.link] using h

/-- All nodes of a running queue and three priority queues. -/
def allNodes (r : List Addr) (q : Fin 3 → List Addr) : List Addr := r ++ q 0 ++ q 1 ++ q 2

/-- Moving the head of a priority queue to the end of the running queue keeps the
nodes together. -/
theorem allNodes_move {r : List Addr} {q : Fin 3 → List Addr} {c : Fin 3} {a : Addr}
    {l : List Addr} (h : q c = a :: l) :
    (allNodes (r ++ [a]) (Function.update q c l)).Perm (allNodes r q) := by
  rw [List.perm_iff_count]
  intro b
  unfold allNodes
  fin_cases c
  all_goals
    simp only [Fin.zero_eta, Fin.mk_one, Fin.reduceFinMk] at h
    simp [Function.update, h, List.count_cons] <;> omega

/-- A node of the running queue is in no priority queue. -/
theorem allNodes_disjoint {r : List Addr} {q : Fin 3 → List Addr} (h : (allNodes r q).Nodup)
    {a : Addr} (ha : a ∈ r) (c : Fin 3) : a ∉ q c := by
  simp only [allNodes, List.nodup_append, List.mem_append] at h
  fin_cases c <;> grind

/-- The running queue has no node twice. -/
theorem allNodes_nodup {r : List Addr} {q : Fin 3 → List Addr} (h : (allNodes r q).Nodup) :
    r.Nodup := by
  simp only [allNodes, List.nodup_append] at h
  exact h.1.1.1

/-- A state while the running queue is being loaded: it consists of the nodes `r`
and runs on to `x`, and the priority queues still hold `q`. -/
structure Loading (s : Queues) (r : List Addr) (q : Fin 3 → List Addr) (x : Option Addr) :
    Prop where
  /-- The nodes loaded so far. -/
  running : Segment s.link s.running_queue_head r x
  /-- The tail of the running queue. -/
  last : r ≠ [] → s.running_queue_tail = r.getLast?
  /-- The nodes that have not been loaded are still in their queues. -/
  list : ∀ c, s.IsList (s.priority_head c) (q c)
  /-- No node is in two places. -/
  nodup : (allNodes r q).Nodup

/-- Linking the head of a queue to the end of the running queue. -/
theorem Loading.linkRunning {r : List Addr} {q : Fin 3 → List Addr} {x : Option Addr}
    {c : Fin 3} {a : Addr} {l : List Addr} (h : Loading s r q x) (hx : r = [] → x = none)
    (hq : q c = a :: l) :
    ∃ s', linkRunning s (some a) = some s' ∧
      Segment s'.link s'.running_queue_head (r ++ [a]) l.head? ∧
      s'.running_queue_tail = some a ∧ (∀ b ∉ r, s'.link b = s.link b) ∧
      s'.priority_head = s.priority_head ∧ s'.priority_tail = s.priority_tail ∧
      Relinked s s' := by
  have hlink : s.link a = some l.head? := by
    have := h.list c
    rw [hq] at this
    exact this.link_eq.1
  rcases List.eq_nil_or_concat' r with rfl | ⟨r, b, rfl⟩
  · have hhead : s.running_queue_head = none := h.running.trans (hx rfl)
    refine ⟨{ s with running_queue_head := some a, running_queue_tail := some a }, ?_, ?_, rfl,
      fun _ _ => rfl, rfl, rfl, ⟨fun _ => rfl, rfl, rfl, rfl⟩⟩
    · simp [SimpleOs.Threads.linkRunning, hhead]
    · exact ⟨rfl, l.head?, hlink, rfl⟩
  · -- The last node loaded gets a new link.
    obtain ⟨_, hb⟩ := segment_concat.mp h.running
    obtain ⟨n, hn, _⟩ := Queues.node_of_link hb
    have hbr : b ∉ r := fun hmem => by
      have := allNodes_nodup h.nodup
      rw [List.nodup_append] at this
      exact this.2.2 b hmem b (by simp) rfl
    have hab : a ≠ b := by
      rintro rfl
      exact allNodes_disjoint h.nodup (a := a) (by simp) c (by simp [hq])
    have htail : s.running_queue_tail = some b := by simpa using h.last (by simp)
    obtain ⟨d, hhead⟩ : ∃ d, s.running_queue_head = some d := by
      rw [h.running.head? (by simp)]
      cases r <;> simp
    have hlinks := s.link_update b (some { n with next := some a })
    refine ⟨{ s with
      node := Function.update s.node b (some { n with next := some a })
      running_queue_tail := some a }, ?_, ?_, rfl, ?_, rfl, rfl, ?_⟩
    · simp only [SimpleOs.Threads.linkRunning, hhead, htail, Option.bind_some,
        Queues.store_eq hn, Option.map_some]
    · refine Segment.append (q := some a) ?_ ⟨rfl, l.head?, ?_, rfl⟩
      · change Segment (Queues.link { s with node := _ }) _ _ _
        rw [hlinks]
        exact h.running.set_last hbr
      · change Queues.link { s with node := _ } a = _
        rw [hlinks, Function.update_of_ne hab, hlink]
    · intro b' hb'
      change Queues.link { s with node := _ } b' = _
      rw [hlinks, Function.update_of_ne]
      rintro rfl
      exact hb' (by simp)
    · refine ⟨fun b' => ?_, rfl, rfl, rfl⟩
      by_cases hb' : b' = b
      · subst hb'
        simp [hn, Node.thread]
      · simp [hb']

/-- One iteration of a loading loop appends the head of the priority queue to the running queue. -/
theorem Loading.loadOne {r : List Addr} {q : Fin 3 → List Addr} {x : Option Addr}
    {c : Fin 3} {a : Addr} {l : List Addr} (h : Loading s r q x) (hx : r = [] → x = none)
    (hq : q c = a :: l) :
    ∃ s', loadOne s c = some s' ∧ Loading s' (r ++ [a]) (Function.update q c l) l.head? ∧
      s'.priority_tail =
        (if l = [] then Function.update s.priority_tail c none else s.priority_tail) ∧
      Relinked s s' := by
  obtain ⟨s₁, hlinked, hrunning, htail, hframe, hheads, htails, hrel⟩ := h.linkRunning hx hq
  have hlist := h.list c
  rw [hq] at hlist
  have har : a ∉ r := fun hmem => allNodes_disjoint h.nodup hmem c (by simp [hq])
  have hlink : s₁.link a = some l.head? := (hframe a har).trans hlist.link_eq.1
  have hhead : s₁.priority_head c = some a := (congrFun hheads c).trans hlist.1
  have hnull : l.head? = none ↔ l = [] := List.head?_eq_none_iff
  set s₂ : Queues :=
    { s₁ with priority_head := Function.update s₁.priority_head c l.head? } with hs₂
  set s' : Queues := if l = [] then
    { s₂ with priority_tail := Function.update s₂.priority_tail c none } else s₂ with hs'
  have hsame : s'.link = s₁.link ∧ s'.running_queue_head = s₁.running_queue_head ∧
      s'.running_queue_tail = s₁.running_queue_tail ∧
      s'.priority_head = Function.update s₁.priority_head c l.head? ∧ Relinked s₁ s' := by
    rw [hs']
    split <;> exact ⟨rfl, rfl, rfl, rfl, ⟨fun _ => rfl, rfl, rfl, rfl⟩⟩
  obtain ⟨hlink', hhead', htail', hheads', hrel'⟩ := hsame
  refine ⟨s', ?_, ⟨?_, ?_, ?_, ?_⟩, ?_, hrel.trans hrel'⟩
  · simp only [SimpleOs.Threads.loadOne, hlist.1, hlinked, hhead, hlink, Option.bind_eq_bind,
      Option.bind_some, hnull]
    rw [hs']
    split <;> rfl
  · rw [hlink', hhead']
    exact hrunning
  · intro _
    rw [htail', htail]
    simp
  · intro d
    unfold Queues.IsList
    rw [hlink', hheads']
    by_cases hd : d = c
    · subst hd
      rw [Function.update_self, Function.update_self]
      refine (hlist.link_eq.2).congr fun b hb => hframe b fun hmem => ?_
      exact allNodes_disjoint h.nodup hmem d (by simp [hq, hb])
    · rw [Function.update_of_ne hd, Function.update_of_ne hd, hheads]
      exact (h.list d).congr fun b hb => hframe b fun hmem => allNodes_disjoint h.nodup hmem d hb
  · exact (allNodes_move hq).nodup_iff.mpr h.nodup
  · rw [hs']
    split
    · rw [hs₂, htails]
    · exact htails

/-- A loading loop moves a prefix of its queue to the running queue. -/
theorem Loading.load {r : List Addr} {q : Fin 3 → List Addr} {x : Option Addr} {c : Fin 3}
    {n : ℕ} (h : Loading s r q x) (hx : r = [] → x = none) (hn : n ≤ (q c).length) :
    ∃ s', load c n s = some s' ∧
      Loading s' (r ++ (q c).take n) (Function.update q c ((q c).drop n))
        (if n = 0 then x else ((q c).drop n).head?) ∧
      s'.priority_tail = (if 0 < n ∧ n = (q c).length then
        Function.update s.priority_tail c none else s.priority_tail) ∧
      Relinked s s' := by
  induction n generalizing s r q x with
  | zero => exact ⟨s, rfl, by simpa using h, by simp, Relinked.refl s⟩
  | succ n ih =>
    obtain ⟨a, l, hq⟩ : ∃ a l, q c = a :: l := by
      cases hq : q c with
      | nil => simp [hq] at hn
      | cons a l => exact ⟨a, l, rfl⟩
    obtain ⟨s₁, hone, hloading, htail, hrel⟩ := h.loadOne hx hq
    have hqc : Function.update q c l c = l := Function.update_self _ _ _
    rw [hq, List.length_cons] at hn
    obtain ⟨s', hload, hloading', htail', hrel'⟩ := ih hloading (by simp) (by rw [hqc]; omega)
    refine ⟨s', ?_, ?_, ?_, hrel.trans hrel'⟩
    · simp [SimpleOs.Threads.load, hone, hload]
    · simp only [hqc, Function.update_idem, List.append_assoc, List.singleton_append] at hloading'
      simp only [hq, List.take_succ_cons, List.drop_succ_cons]
      by_cases hn0 : n = 0
      · subst hn0
        simpa using hloading'
      · simpa [hn0] using hloading'
    · rw [htail', htail, hqc, hq, List.length_cons]
      by_cases hl : l = []
      · subst hl
        obtain rfl : n = 0 := by simpa using hn
        simp
      · have hpos : 0 < l.length := List.length_pos_iff.mpr hl
        have hiff : (0 < n ∧ n = l.length) ↔ 0 < n + 1 ∧ n + 1 = l.length + 1 := by omega
        simp only [hl, if_false, hiff]

/-! ## The refill -/

/-- The pointer at which a refilled running queue ends: the head of what is left of
the last queue that was loaded from. -/
def leftover (q : Fin 3 → List Addr) : Option Addr :=
  let n := quota fun c => (q c).length
  let c : Fin 3 := if q 2 ≠ [] then 2 else if q 1 ≠ [] then 1 else 0
  ((q c).drop (n c)).head?

/-- A refilled running queue ends at null exactly when the lengths are right. -/
theorem leftover_eq_none (q : Fin 3 → List Addr) :
    leftover q = none ↔ RefillExhausts fun c => (q c).length := by
  rw [refillExhausts_iff]
  simp only [leftover, List.head?_eq_none_iff, List.drop_eq_nil_iff, List.length_pos_iff]
  have hle := quota_le fun c => (q c).length
  have h0 := hle 0
  have h1 := hle 1
  have h2 := hle 2
  split
  · omega
  · split
    · omega
    · omega

/-- The three loading loops, when they load what the quota says. -/
theorem load_quota {q : Fin 3 → List Addr} (h : Loading s [] q none) :
    let n := quota fun c => (q c).length
    ∃ s', ((load 0 (n 0) s).bind fun s => (load 1 (n 1) s).bind (load 2 (n 2))) = some s' ∧
      Loading s' ((q 0).take (n 0) ++ (q 1).take (n 1) ++ (q 2).take (n 2))
        (fun c => (q c).drop (n c)) (leftover q) ∧
      (∀ c, s'.priority_tail c = if 0 < n c ∧ n c = (q c).length then none
        else s.priority_tail c) ∧
      Relinked s s' := by
  intro n
  have hle (c : Fin 3) : n c ≤ (q c).length := quota_le _ c
  have hzero (c : Fin 3) : n c = 0 ↔ q c = [] := by
    rw [quota_eq_zero, List.length_eq_zero_iff]
  have htake {c : Fin 3} (hc : (q c).take (n c) = []) : n c = 0 := by
    rcases List.take_eq_nil_iff.mp hc with hc | hc
    · exact hc
    · exact (hzero c).mpr hc
  -- The three loops, one after the other.
  obtain ⟨s₁, hload₁, hloading₁, htail₁, hrel₁⟩ := h.load (fun _ => rfl) (hle 0)
  rw [List.nil_append] at hloading₁
  obtain ⟨s₂, hload₂, hloading₂, htail₂, hrel₂⟩ := hloading₁.load (c := 1) (n := n 1)
    (fun hr => if_pos (htake hr)) (by simpa using hle 1)
  obtain ⟨s₃, hload₃, hloading₃, htail₃, hrel₃⟩ := hloading₂.load (c := 2) (n := n 2) (by
    intro hr
    obtain ⟨hr0, hr1⟩ := List.append_eq_nil_iff.mp hr
    have h1 : n 1 = 0 := htake (by simpa using hr1)
    rw [if_pos h1, if_pos (htake hr0)]) (by simpa using hle 2)
  refine ⟨s₃, ?_, ?_, ?_, (hrel₁.trans hrel₂).trans hrel₃⟩
  · rw [hload₁, Option.bind_some, hload₂, Option.bind_some, hload₃]
  · convert hloading₃ using 1
    · simp
    · funext c
      fin_cases c <;> simp [Function.update]
    · simp only [hzero, leftover]
      by_cases hq2 : q 2 = []
      · by_cases hq1 : q 1 = []
        · by_cases hq0 : q 0 = []
          · simp [hq2, hq1, hq0]
          · simp [hq2, hq1, hq0, n]
        · simp [hq2, hq1, n]
      · simp [hq2, n]
  · intro c
    rw [htail₃, htail₂, htail₁]
    simp only [ite_apply, Function.update_apply]
    fin_cases c <;> simp

/-- A refill sets the flag, counts, and loads. -/
theorem createRunningQueue_eq_some {v : Version} {fuel : ℕ} :
    let s₀ := { s with empty_running_queue := decide (∀ c, s.priority_head c = none) }
    createRunningQueue v fuel s = some s' ↔ ∃ p, tally v fuel s₀ = some p ∧
      ((load 0 (p 0) s₀).bind fun s => (load 1 (p 1) s).bind (load 2 (p 2))) = some s' := by
  have hflag : decide (s.priority_head 0 = none ∧ s.priority_head 1 = none ∧
      s.priority_head 2 = none) = decide (∀ c, s.priority_head c = none) := by
    simp [Fin.forall_fin_succ]
  simp only [createRunningQueue, hflag, Option.bind_eq_bind]
  exact Option.bind_eq_some_iff

/-- What a refill does to an empty running queue and priority queues of any
lengths: it loads a prefix of each, and the running queue runs on into what is
left of the last one. -/
theorem createRunningQueue_spec {v : Version} {fuel : ℕ} {q : Fin 3 → List Addr}
    (hempty : s.running_queue_head = none)
    (hlist : ∀ c, s.IsList (s.priority_head c) (q c)) (hnodup : (allNodes [] q).Nodup)
    (h : createRunningQueue v fuel s = some s') :
    let n := quota fun c => (q c).length
    Loading s' ((q 0).take (n 0) ++ (q 1).take (n 1) ++ (q 2).take (n 2))
        (fun c => (q c).drop (n c)) (leftover q) ∧
      (∀ c, s'.priority_tail c = if 0 < n c ∧ n c = (q c).length then none
        else s.priority_tail c) ∧
      s'.empty_running_queue = decide (∀ c, q c = []) ∧
      Relinked { s with empty_running_queue := s'.empty_running_queue } s' := by
  intro n
  obtain ⟨p, hp, hload⟩ := createRunningQueue_eq_some.mp h
  have hloading : Loading { s with
      empty_running_queue := decide (∀ c, s.priority_head c = none) } [] q none :=
    ⟨hempty, fun h => absurd rfl h, hlist, hnodup⟩
  obtain rfl : p = n := tally_eq hloading.list hp
  obtain ⟨s'', hload', hloading', htail, hrel⟩ := load_quota hloading
  obtain rfl := Option.some.inj (hload'.symm.trans hload)
  have hhead (c : Fin 3) : s.priority_head c = none ↔ q c = [] := by
    rw [Segment.eq_head? (hlist c), List.head?_eq_none_iff]
  refine ⟨hloading', htail, ?_, ?_⟩
  · rw [hrel.flag]
    simp only [hhead]
  · exact ⟨hrel.threads, rfl, hrel.count, hrel.created⟩

end SimpleOs.Threads
