import SimpleOs.Threads.Calls
import SimpleOs.Threads.Refill

/-!
# Disjoint queues

The running queue and the three priority queues should be disjoint lists. This
file states that, and follows a thread that is appended to a priority queue or
taken off the processor.
-/

namespace SimpleOs.Threads

open LinkedList

variable {s s' : Queues} {r : List Addr} {q : Fin 3 → List Addr}

/-- The running queue is the list `r`, the priority queues are the lists `q`, and
no node occurs twice. -/
structure Queued (s : Queues) (r : List Addr) (q : Fin 3 → List Addr) : Prop where
  /-- The links from the head of the running queue lead through `r` to `NULL`. -/
  running : s.IsList s.running_queue_head r
  /-- The links from the head of each priority queue lead through its list to `NULL`. -/
  list : ∀ c, s.IsList (s.priority_head c) (q c)
  /-- No node occurs twice, in one list or in two. -/
  nodup : (allNodes r q).Nodup

/-- Every priority queue's tail is its last node, or `NULL` when it is empty. -/
def Tails (s : Queues) (q : Fin 3 → List Addr) : Prop :=
  ∀ c, s.priority_tail c = (q c).getLast?

/-- Before a refill, the tail of a queue of one node may be unset. -/
def LooseTails (s : Queues) (q : Fin 3 → List Addr) : Prop :=
  ∀ c, s.priority_tail c = (q c).getLast? ∨ (q c).length = 1

/-! ## Appending a node to a priority queue -/

/-- Node `ptr` has been appended to priority queue `c`, which held the nodes `l`. -/
structure Appended (s s' : Queues) (c : Fin 3) (ptr : Addr) (l : List Addr) : Prop where
  /-- The head of the queue is the new node if the queue was empty, and no other head changes. -/
  head : s'.priority_head =
    Function.update s.priority_head c (if l = [] then some ptr else s.priority_head c)
  /-- The tail of the queue is the new node, and no other tail changes. -/
  tail : s'.priority_tail = Function.update s.priority_tail c (some ptr)
  /-- The new last node ends the list. -/
  null : s'.link ptr = some none
  /-- The old last node points to the new one. -/
  last : ∀ a, l.getLast? = some a → s'.link a = some (some ptr)
  /-- No other link than these two changes. -/
  frame : ∀ a, a ≠ ptr → l.getLast? ≠ some a → s'.link a = s.link a
  /-- The head of the running queue stays. -/
  running : s'.running_queue_head = s.running_queue_head
  /-- Nothing but links, heads and tails changes. -/
  relinked : Relinked s s'

/-- The nodes after `ptr` has been appended to queue `c`. -/
theorem allNodes_append (r : List Addr) (q : Fin 3 → List Addr) (c : Fin 3) (ptr : Addr) :
    (allNodes r (Function.update q c (q c ++ [ptr]))).Perm (ptr :: allNodes r q) := by
  rw [List.perm_iff_count]
  intro b
  unfold allNodes
  fin_cases c <;> simp [Function.update, List.count_cons] <;> omega

/-- The nodes of a priority queue are distinct. -/
theorem allNodes_nodup_queue (h : (allNodes r q).Nodup) (c : Fin 3) : (q c).Nodup := by
  simp only [allNodes, List.nodup_append] at h
  fin_cases c
  · exact h.1.1.2.1
  · exact h.1.2.1
  · exact h.2.1

/-- A node of one priority queue is in no other one. -/
theorem allNodes_disjoint_queue (h : (allNodes r q).Nodup) {c d : Fin 3} (hcd : c ≠ d) {a : Addr}
    (ha : a ∈ q c) : a ∉ q d := by
  simp only [allNodes, List.nodup_append, List.mem_append] at h
  fin_cases c <;> fin_cases d <;> grind

/-- A node is in the running queue or in a priority queue. -/
theorem mem_allNodes {a : Addr} : a ∈ allNodes r q ↔ a ∈ r ∨ ∃ c, a ∈ q c := by
  simp [allNodes, Fin.exists_fin_succ]

/-- After an append the lists are as before, with one node more in queue `c`. -/
theorem Appended.queued {c : Fin 3} {ptr : Addr} (h : Appended s s' c ptr (q c))
    (hq : Queued s r q) (hptr : ptr ∉ allNodes r q) :
    Queued s' r (Function.update q c (q c ++ [ptr])) := by
  have hlast {a : Addr} (ha : (q c).getLast? = some a) : a ∈ q c := List.mem_of_getLast? ha
  refine ⟨?_, fun d => ?_, (allNodes_append r q c ptr).nodup_iff.mpr (List.nodup_cons.mpr
    ⟨hptr, hq.nodup⟩)⟩
  · unfold Queues.IsList
    rw [h.running]
    refine hq.running.congr fun a ha => h.frame a ?_ fun hl => ?_
    · rintro rfl
      exact hptr (mem_allNodes.mpr (Or.inl ha))
    · exact allNodes_disjoint hq.nodup ha c (hlast hl)
  · unfold Queues.IsList
    rw [h.head]
    by_cases hd : d = c
    · subst hd
      rw [Function.update_self, Function.update_self]
      refine (hq.list d).snoc (allNodes_nodup_queue hq.nodup d) h.null h.last fun a ha hl => ?_
      refine h.frame a ?_ hl
      rintro rfl
      exact hptr (mem_allNodes.mpr (Or.inr ⟨d, ha⟩))
    · rw [Function.update_of_ne hd, Function.update_of_ne hd]
      refine (hq.list d).congr fun a ha => h.frame a ?_ fun hl => ?_
      · rintro rfl
        exact hptr (mem_allNodes.mpr (Or.inr ⟨d, ha⟩))
      · exact allNodes_disjoint_queue hq.nodup hd ha (hlast hl)

/-- After an append the tails are right. -/
theorem Appended.tails {c : Fin 3} {ptr : Addr} (h : Appended s s' c ptr (q c))
    (ht : Tails s q) : Tails s' (Function.update q c (q c ++ [ptr])) := by
  intro d
  rw [h.tail]
  by_cases hd : d = c
  · subst hd
    simp
  · rw [Function.update_of_ne hd, Function.update_of_ne hd]
    exact ht d

/-- The scheduler appends a node to a queue whose tail is its last node. -/
theorem requeue_appended {c : Fin 3} {ptr : Addr} {n : Node} {l : List Addr}
    (hlist : s.IsList (s.priority_head c) l) (htail : s.priority_tail c = l.getLast?)
    (hptr : ptr ∉ l) (hn : s.node ptr = some n) :
    ∃ s', requeue s c ptr = some s' ∧ Appended s s' c ptr l := by
  rcases List.eq_nil_or_concat' l with rfl | ⟨l, t, rfl⟩
  · have hnull : s.priority_tail c = none := htail
    have hrun : requeue s c ptr = some
        { s with
          node := Function.update s.node ptr (some { n with next := none })
          priority_head := Function.update s.priority_head c (some ptr)
          priority_tail := Function.update s.priority_tail c (some ptr) } := by
      simp [requeue, hnull, Queues.store, hn]
    refine ⟨_, hrun, ?_⟩
    · constructor
      · simp
      · rfl
      · simp [Queues.link]
      · exact fun a ha => absurd ha (by simp)
      · intro a ha _
        simp [Queues.link, ha]
      · rfl
      · refine ⟨fun a => ?_, rfl, rfl, rfl⟩
        by_cases ha : a = ptr
        · subst ha
          simp [hn, Node.thread]
        · simp [ha]
  · have hsome : s.priority_tail c = some t := by simpa using htail
    obtain ⟨_, ht⟩ := segment_concat.mp hlist
    obtain ⟨m, hm, _⟩ := Queues.node_of_link ht
    have hne : ptr ≠ t := by
      rintro rfl
      exact hptr (by simp)
    have hn' : Function.update s.node t (some { m with next := some ptr }) ptr = some n := by
      rw [Function.update_of_ne hne, hn]
    have hrun : requeue s c ptr = some
        { s with
          node := Function.update (Function.update s.node t (some { m with next := some ptr }))
            ptr (some { n with next := none })
          priority_tail := Function.update s.priority_tail c (some ptr) } := by
      simp [requeue, hsome, Queues.store, hm, hn']
    refine ⟨_, hrun, ?_⟩
    · constructor
      · simp
      · rfl
      · simp [Queues.link]
      · intro a ha
        obtain rfl : t = a := by simpa using ha
        simp [Queues.link, hne.symm]
      · intro a ha hl
        have hat : a ≠ t := by
          rintro rfl
          exact hl (by simp)
        simp [Queues.link, ha, hat]
      · rfl
      · refine ⟨fun a => ?_, rfl, rfl, rfl⟩
        by_cases ha : a = ptr
        · subst ha
          simp [hn, Node.thread]
        · by_cases hat : a = t
          · subst hat
            simp [ha, hm, Node.thread]
          · simp [ha, hat]

/-- The append of `my_pthread_create`, for a node whose `next` is `NULL`. -/
theorem enqueueNew_appended {ptr : Addr} {l : List Addr}
    (hlist : s.IsList (s.priority_head 0) l) (htail : s.priority_tail 0 = l.getLast?)
    (hptr : ptr ∉ l) (hn : s.link ptr = some none) :
    ∃ s', enqueueNew s ptr = some s' ∧ Appended s s' 0 ptr l := by
  rcases List.eq_nil_or_concat' l with rfl | ⟨l, t, rfl⟩
  · have hnull : s.priority_head 0 = none := hlist
    have hrun : enqueueNew s ptr = some
        { s with
          priority_head := Function.update s.priority_head 0 (some ptr)
          priority_tail := Function.update s.priority_tail 0 (some ptr) } := by
      simp [enqueueNew, hnull]
    refine ⟨_, hrun, ?_⟩
    · constructor
      · simp
      · rfl
      · exact hn
      · exact fun a ha => absurd ha (by simp)
      · exact fun _ _ _ => rfl
      · rfl
      · exact ⟨fun _ => rfl, rfl, rfl, rfl⟩
  · have hsome : s.priority_tail 0 = some t := by simpa using htail
    obtain ⟨a, hhead⟩ : ∃ a, s.priority_head 0 = some a := by
      rw [Segment.head? hlist (by simp)]
      cases l <;> simp
    obtain ⟨_, ht⟩ := segment_concat.mp hlist
    obtain ⟨m, hm, _⟩ := Queues.node_of_link ht
    have hne : ptr ≠ t := by
      rintro rfl
      exact hptr (by simp)
    have hrun : enqueueNew s ptr = some
        { s with
          node := Function.update s.node t (some { m with next := some ptr })
          priority_tail := Function.update s.priority_tail 0 (some ptr) } := by
      simp [enqueueNew, hhead, hsome, Queues.store, hm]
    refine ⟨_, hrun, ?_⟩
    · constructor
      · simp
      · rfl
      · simpa [Queues.link, hne] using hn
      · intro b hb
        obtain rfl : t = b := by simpa using hb
        simp [Queues.link]
      · intro b _ hl
        have hbt : b ≠ t := by
          rintro rfl
          exact hl (by simp)
        simp [Queues.link, hbt]
      · rfl
      · refine ⟨fun b => ?_, rfl, rfl, rfl⟩
        by_cases hbt : b = t
        · subst hbt
          simp [hm, Node.thread]
        · simp [hbt]

/-! ## The running thread leaves the processor -/

/-- The lists do not depend on what else the nodes say. -/
theorem Queued.of_link (h : Queued s r q) (hlink : ∀ a ∈ allNodes r q, s'.link a = s.link a)
    (hrunning : s'.running_queue_head = s.running_queue_head)
    (hhead : s'.priority_head = s.priority_head) : Queued s' r q := by
  refine ⟨?_, fun c => ?_, h.nodup⟩
  · unfold Queues.IsList
    rw [hrunning]
    exact h.running.congr fun a ha => hlink a (mem_allNodes.mpr (Or.inl ha))
  · unfold Queues.IsList
    rw [hhead]
    exact (h.list c).congr fun a ha => hlink a (mem_allNodes.mpr (Or.inr ⟨c, ha⟩))

/-- The nodes of the lists are allocated. -/
theorem Queued.allocated (h : Queued s r q) {a : Addr} (ha : a ∈ allNodes r q) :
    ∃ n, s.node a = some n := by
  have hsome : (s.link a).isSome := by
    rcases mem_allNodes.mp ha with ha | ⟨c, ha⟩
    · exact h.running.isSome ha
    · exact (h.list c).isSome ha
  obtain ⟨next, hnext⟩ := Option.isSome_iff_exists.mp hsome
  obtain ⟨n, hn, _⟩ := Queues.node_of_link hnext
  exact ⟨n, hn⟩

@[simp] theorem charge_status (n : Node) : (charge n).1.status = n.status := by
  unfold charge
  dsimp only
  split <;> rfl

@[simp] theorem charge_next (n : Node) : (charge n).1.next = n.next := by
  unfold charge
  dsimp only
  split <;> rfl

@[simp] theorem charge_thread_id (n : Node) : (charge n).1.thread_id = n.thread_id := by
  unfold charge
  dsimp only
  split <;> rfl

@[simp] theorem demote_status (n : Node) (ran aging : Bool) :
    (demote n ran aging).status = .THREAD_READY := by
  unfold demote
  dsimp only
  split <;> rfl

@[simp] theorem demote_thread_id (n : Node) (ran aging : Bool) :
    (demote n ran aging).thread_id = n.thread_id := by
  unfold demote
  dsimp only
  split <;> rfl

/-- The original thread is registered once, at an address that is not in use. -/
theorem registerOriginal_eq_some {newNode : Addr} (h : registerOriginal s newNode = some s') :
    s.node newNode = none ∧
      s' = { s with
        node := Function.update s.node newNode (some ⟨.THREAD_READY, 0, 0, 1, s.priority_head 0⟩)
        priority_head := Function.update s.priority_head 0 (some newNode) } := by
  unfold registerOriginal at h
  split at h
  · rename_i hfresh
    exact ⟨hfresh.2, (Option.some.inj h).symm⟩
  · exact absurd h (by simp)

/-- The ways in which the running thread leaves the processor. -/
theorem descheduleHead_cases {ptr : Addr} {ran : Bool} (h : descheduleHead s ptr ran = some s') :
    ∃ n, s.node ptr = some n ∧
      (n.status = .THREAD_EXITED ∧
          s' = { s with
            running_queue_head := n.next
            node := Function.update s.node ptr none } ∨
        n.status ≠ .THREAD_EXITED ∧ ∃ m, m = demote (charge n).1 ran (charge n).2 ∧
          requeue { s with
              running_queue_head := n.next
              node := Function.update s.node ptr (some m) } (queueOf m.priority) ptr =
            some s') := by
  simp only [descheduleHead, Option.bind_eq_bind] at h
  obtain ⟨n, hn, h⟩ := Option.bind_eq_some_iff.mp h
  simp only [charge_status, charge_next] at h
  refine ⟨n, hn, ?_⟩
  split at h
  · rename_i hstatus
    exact Or.inl ⟨hstatus, (Option.some.inj h).symm⟩
  · rename_i hstatus
    exact Or.inr ⟨hstatus, _, rfl, h⟩

/-- The head of the running queue is run. -/
theorem dispatch_eq_some (h : dispatch s = some s') :
    ∃ ptr n, s.running_queue_head = some ptr ∧ s.node ptr = some n ∧
      s' = { s with
        node := Function.update s.node ptr (some { n with status := .THREAD_RUNNING }) } := by
  unfold dispatch at h
  split at h
  · exact absurd h (by simp)
  · obtain ⟨ptr, hptr, hstore⟩ := Option.bind_eq_some_iff.mp h
    obtain ⟨n, hn, rfl⟩ := Option.map_eq_some_iff.mp hstore
    exact ⟨ptr, n, hptr, hn, rfl⟩

/-- The queues when the scheduler is called. Only the thread that is exiting has
the status of an exited thread. -/
structure Entry (s : Queues) (r : List Addr) (q : Fin 3 → List Addr) (exiting : Bool) : Prop where
  /-- The running queue is `r`, and the priority queues are `q`. -/
  queued : Queued s r q
  /-- Every tail is the last node of its queue. -/
  tails : Tails s q
  /-- The head of the running queue has exited exactly if this call is its exit, and no other node
  has. -/
  status : ∀ a n, s.node a = some n →
    (n.status = .THREAD_EXITED ↔ exiting = true ∧ s.running_queue_head = some a)

/-- The live threads after a scheduler call: the first one registers the original
thread, and an exiting thread is freed. -/
def liveAfter (s : Queues) (newNode : Addr) (exiting : Bool) (live : List Addr) : List Addr :=
  match s.running_queue_head with
  | none => newNode :: live
  | some ptr => if exiting then live.erase ptr else live

/-- The scheduler up to the test whether the running queue has to be refilled. -/
def beforeRefill (newNode : Addr) (ranWholeTimeSlice : Bool) (s : Queues) : Option Queues :=
  match s.running_queue_head with
  | none => registerOriginal s newNode
  | some ptr => descheduleHead s ptr ranWholeTimeSlice

/-- The scheduler refills the running queue exactly when it is empty. -/
theorem scheduler_eq (v : Version) (fuel : ℕ) (newNode : Addr) (ran : Bool) (s : Queues) :
    scheduler v fuel newNode ran s =
      (beforeRefill newNode ran s).bind fun s =>
        (if s.running_queue_head = none then createRunningQueue v fuel s else some s).bind
          dispatch := by
  unfold scheduler beforeRefill
  cases hhead : s.running_queue_head with
  | none =>
    cases hreg : registerOriginal s newNode with
    | none => rfl
    | some s₁ =>
      have hempty : s₁.running_queue_head = none := by
        obtain ⟨_, rfl⟩ := registerOriginal_eq_some hreg
        exact hhead
      simp [hempty]
  | some ptr =>
    cases hrun : descheduleHead s ptr ran with
    | none => simp [hrun]
    | some s₁ =>
      simp only [hrun, Option.bind_eq_bind, Option.bind_some]
      split <;> rfl

/-- Registering the original thread puts its node in front of priority queue 0. -/
theorem registerOriginal_spec {newNode : Addr} {exiting : Bool} (h : Entry s [] q exiting)
    (hreg : registerOriginal s newNode = some s') :
    Queued s' [] (Function.update q 0 (newNode :: q 0)) ∧
      LooseTails s' (Function.update q 0 (newNode :: q 0)) ∧
      ∀ a n, s'.node a = some n → n.status ≠ .THREAD_EXITED := by
  have hrunning : s.running_queue_head = none := h.queued.running
  obtain ⟨hfresh, rfl⟩ := registerOriginal_eq_some hreg
  have hnew : newNode ∉ allNodes [] q := by
    intro hmem
    obtain ⟨n, hn⟩ := h.queued.allocated hmem
    exact absurd (hfresh.symm.trans hn) (by simp)
  have hlink (a : Addr) (ha : a ∈ allNodes [] q) :
      (Function.update s.node newNode (some ⟨.THREAD_READY, 0, 0, 1, s.priority_head 0⟩) a).map
        (·.next) = s.link a := by
    rw [Function.update_of_ne]
    · rfl
    · rintro rfl
      exact hnew ha
  refine ⟨⟨hrunning, fun c => ?_, ?_⟩, fun c => ?_, fun a n hn => ?_⟩
  · by_cases hc : c = 0
    · subst hc
      have hlist := h.queued.list 0
      refine ⟨by simp, s.priority_head 0, by simp [Queues.link], ?_⟩
      exact hlist.congr fun a ha => hlink a (mem_allNodes.mpr (Or.inr ⟨0, ha⟩))
    · simp only [Function.update_of_ne hc]
      exact (h.queued.list c).congr fun a ha => hlink a (mem_allNodes.mpr (Or.inr ⟨c, ha⟩))
  · have hperm : (allNodes [] (Function.update q 0 (newNode :: q 0))).Perm
        (newNode :: allNodes [] q) := by
      simp [allNodes, Function.update]
    exact hperm.nodup_iff.mpr (List.nodup_cons.mpr ⟨hnew, h.queued.nodup⟩)
  · by_cases hc : c = 0
    · subst hc
      rw [Function.update_self]
      cases hq : q 0 with
      | nil => exact Or.inr rfl
      | cons a l =>
        left
        have := h.tails 0
        rw [hq] at this
        rw [List.getLast?_cons_cons]
        exact this
    · rw [Function.update_of_ne hc]
      exact Or.inl (h.tails c)
  · by_cases ha : a = newNode
    · subst ha
      simp only [Function.update_self, Option.some.injEq] at hn
      rw [← hn]
      simp
    · simp only [Function.update_of_ne ha] at hn
      rw [ne_eq, h.status a n hn, hrunning]
      simp

/-- The nodes after the running thread has moved to priority queue `c`. -/
theorem allNodes_requeue (ptr : Addr) (r : List Addr) (q : Fin 3 → List Addr) (c : Fin 3) :
    (allNodes r (Function.update q c (q c ++ [ptr]))).Perm (allNodes (ptr :: r) q) :=
  (allNodes_append r q c ptr).trans (by simp [allNodes])

/-- Taking the running thread off the processor frees its node if it has exited,
and otherwise appends it to a priority queue. -/
theorem descheduleHead_spec {ptr : Addr} {ran exiting : Bool} (h : Entry s (ptr :: r) q exiting)
    (hrun : descheduleHead s ptr ran = some s') :
    ∃ q', Queued s' r q' ∧ Tails s' q' ∧
      (allNodes r q').Perm
        (if exiting then (allNodes (ptr :: r) q).erase ptr else allNodes (ptr :: r) q) ∧
      ∀ a n, s'.node a = some n → n.status ≠ .THREAD_EXITED := by
  have hhead : s.running_queue_head = some ptr := h.queued.running.1
  obtain ⟨n, hn⟩ := h.queued.allocated (a := ptr) (by simp [allNodes])
  have hrest := h.queued.running.link_eq
  have hnext : n.next = r.head? := by
    have := hrest.1
    simpa [Queues.link, hn] using this
  have hother (a : Addr) (m : Node) (ha : a ≠ ptr) (hm : s.node a = some m) :
      m.status ≠ .THREAD_EXITED := by
    rw [ne_eq, h.status a m hm, hhead]
    simp [ha.symm]
  have hexited : n.status = .THREAD_EXITED ↔ exiting = true := by
    rw [h.status ptr n hn, hhead]
    simp
  have hptr : ptr ∉ allNodes r q := by
    have := h.queued.nodup
    simp only [allNodes, List.cons_append, List.nodup_cons] at this
    exact this.1
  have hnodup : (allNodes r q).Nodup := by
    have := h.queued.nodup
    simp only [allNodes, List.cons_append, List.nodup_cons] at this
    exact this.2
  -- With the head taken off, the lists do not mention `ptr` any more.
  have hrest' (m : Option Node) : Queued
      { s with running_queue_head := n.next, node := Function.update s.node ptr m } r q := by
    have hpopped : Queued { s with running_queue_head := n.next } r q :=
      ⟨by rw [hnext]; exact hrest.2, h.queued.list, hnodup⟩
    refine hpopped.of_link (fun a ha => ?_) rfl rfl
    have hne : a ≠ ptr := by
      rintro rfl
      exact hptr ha
    simp [Queues.link, hne]
  obtain ⟨k, hk, hcases⟩ := descheduleHead_cases hrun
  obtain rfl := Option.some.inj (hn.symm.trans hk)
  rcases hcases with ⟨hstatus, rfl⟩ | ⟨hstatus, m, hm, hrun⟩
  · refine ⟨q, hrest' none, h.tails, ?_, fun a m hm => ?_⟩
    · rw [if_pos (hexited.mp hstatus)]
      simp [allNodes]
    · have ha : a ≠ ptr := by
        rintro rfl
        simp at hm
      exact hother a m ha (by simpa [ha] using hm)
  · have hqueue : ptr ∉ q (queueOf m.priority) :=
      fun hmem => hptr (mem_allNodes.mpr (Or.inr ⟨_, hmem⟩))
    obtain ⟨_, hdone, happended⟩ := requeue_appended (n := m)
      ((hrest' (some m)).list (queueOf m.priority)) (h.tails _) hqueue (by simp)
    obtain rfl := Option.some.inj (hdone.symm.trans hrun)
    refine ⟨_, happended.queued (hrest' (some m)) hptr, happended.tails h.tails, ?_,
      fun a k hk => ?_⟩
    · rw [if_neg (by rw [← hexited]; exact hstatus)]
      exact allNodes_requeue ptr r q _
    · obtain ⟨k', hk', hthread⟩ := happended.relinked.node hk
      have hsame : k.thread.status = k'.thread.status := congrArg Node.status hthread
      change k.thread.status ≠ _
      rw [hsame]
      change k'.status ≠ _
      by_cases ha : a = ptr
      · subst ha
        obtain rfl : m = k' := by simpa using hk'
        simp [hm]
      · exact hother a k' ha (by simpa [ha] using hk')

end SimpleOs.Threads
