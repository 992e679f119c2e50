import SimpleOs.Threads.Refill

/-!
# The refill policy

A refill has 300 milliseconds to give away. In the `Memory_Manager` version it
always ends, gives every class its minimum share, and leaves no room that a
waiting thread could use. The `Pthreads` version does not move past a thread
whose quantum does not fit. This file says for which queue lengths it ends, and
that it then agrees with the other version.
-/

namespace SimpleOs.Threads

open LinkedList

variable {s s' : Queues} {v : Version} {fuel : ℕ}

/-- The time slice of a class, in milliseconds. -/
def quantum : Fin 3 → ℕ := ![25, 50, 100]

/-! ## When the counting loops end -/

/-- The loop that counts up to two threads ends. -/
theorem countTwo_isSome {l : List Addr} {count p : ℕ} (h : s.IsList l.head? l)
    (hfuel : l.length < fuel) : (countTwo s fuel ⟨count, p, l.head?⟩).isSome := by
  induction fuel generalizing l count p with
  | zero => exact absurd hfuel (by simp)
  | succ fuel ih =>
    cases l with
    | nil => rfl
    | cons a l =>
      obtain ⟨hlink, hl⟩ := h.link_eq
      simp only [countTwo, List.head?_cons, hlink, Option.bind_some]
      split
      · rfl
      · apply ih hl
        simpa using hfuel

/-- The loop that counts threads of priority 0 ends. -/
theorem countRest_isSome {l : List Addr} {count p : ℕ} (h : s.IsList l.head? l)
    (hfuel : l.length < fuel) : (countRest s fuel ⟨count, p, l.head?⟩).isSome := by
  induction fuel generalizing l count p with
  | zero => exact absurd hfuel (by simp)
  | succ fuel ih =>
    cases l with
    | nil => rfl
    | cons a l =>
      obtain ⟨hlink, hl⟩ := h.link_eq
      simp only [countRest, List.head?_cons, hlink, Option.bind_some]
      split
      · apply ih hl
        simpa using hfuel
      · rfl

/-- The condition under which a loop that fills up `room` milliseconds from
`length` threads ends. In the `Pthreads` version the threads must fit or use up
the room exactly. -/
def FillUpEnds (v : Version) (quantum room length : ℕ) : Prop :=
  v = .Pthreads → quantum * length ≤ room ∨ room % quantum = 0

/-- A loop that fills up ends under the condition. -/
theorem fillUp_isSome {k : ℕ} {l : List Addr} {count p : ℕ} (h : s.IsList l.head? l)
    (hfuel : l.length < fuel) (hends : FillUpEnds v k (refillMax - count) l.length) :
    (fillUp v s k fuel ⟨count, p, l.head?⟩).isSome := by
  induction fuel generalizing l count p with
  | zero => exact absurd hfuel (by simp)
  | succ fuel ih =>
    cases l with
    | nil => rfl
    | cons a l =>
      obtain ⟨hlink, hl⟩ := h.link_eq
      have hfuel' : l.length < fuel := by simpa using hfuel
      simp only [fillUp, List.head?_cons, hlink, Option.bind_some]
      split
      · rename_i hroom
        split
        · rename_i hfits
          apply ih hl hfuel'
          intro hv
          rcases hends hv with hall | hmod
          · rw [List.length_cons, Nat.mul_succ] at hall
            left
            omega
          · right
            rw [← Nat.sub_sub, ← Nat.mod_eq_sub_mod (by omega)]
            exact hmod
        · rename_i hfits
          cases v with
          | Pthreads =>
            -- The thread at the cursor does not fit, which the condition excludes.
            rcases hends rfl with hall | hmod
            · rw [List.length_cons, Nat.mul_succ] at hall
              omega
            · rw [Nat.mod_eq_of_lt (by omega)] at hmod
              omega
          | Memory_Manager =>
            apply ih hl hfuel'
            intro hv
            cases hv
      · rfl

/-- At a thread that does not fit, the `Pthreads` loop stays for ever. -/
theorem fillUp_stuck {k : ℕ} {c : Cursor} {a : Addr} (hc : c.temp = some a)
    (hroom : c.count < refillMax) (hfits : refillMax < c.count + k) :
    fillUp .Pthreads s k fuel c = none := by
  induction fuel with
  | zero => rfl
  | succ fuel ih =>
    simp only [fillUp, hc, if_pos hroom, if_neg (Nat.not_le.mpr hfits)]
    exact ih

/-- A loop that fills up ends only under the condition. -/
theorem fillUpEnds_of_eq_some {k : ℕ} {l : List Addr} {count p : ℕ} {c : Cursor}
    (h : s.IsList l.head? l) (hc : fillUp v s k fuel ⟨count, p, l.head?⟩ = some c) :
    FillUpEnds v k (refillMax - count) l.length := by
  rintro rfl
  induction fuel generalizing l count p with
  | zero => exact absurd hc (by simp [fillUp])
  | succ fuel ih =>
    cases l with
    | nil =>
      left
      simp
    | cons a l =>
      obtain ⟨hlink, hl⟩ := h.link_eq
      by_cases hroom : count < refillMax
      · by_cases hfits : count + k ≤ refillMax
        · simp only [fillUp, List.head?_cons, hlink, Option.bind_some, if_pos hroom,
            if_pos hfits] at hc
          rcases ih hl hc with hall | hmod
          · left
            rw [List.length_cons, Nat.mul_succ]
            omega
          · right
            rw [Nat.mod_eq_sub_mod (by omega), Nat.sub_sub]
            exact hmod
        · rw [fillUp_stuck rfl hroom (Nat.not_le.mp hfits)] at hc
          cases hc
      · right
        rw [Nat.sub_eq_zero_of_le (Nat.not_lt.mp hroom), Nat.zero_mod]

/-- The room left in the running queue when the minimum shares of classes 2 and 1
and all threads of class 0 that fit are counted. -/
def sharesRoom (length : Fin 3 → ℕ) : ℕ :=
  refillMax - (100 * min 1 (length 2) + 50 * min 2 (length 1) + 25 * length 0)

/-- The condition on the queue lengths under which a refill ends. -/
def RefillEnds (v : Version) (length : Fin 3 → ℕ) : Prop :=
  let room := sharesRoom length
  let more := length 1 - 2
  FillUpEnds v 50 room more ∧
    FillUpEnds v 100 (room - 50 * min more (room / 50)) (length 2 - 1)

/-- In the `Memory_Manager` version there is no condition. -/
theorem refillEnds_memoryManager (length : Fin 3 → ℕ) : RefillEnds .Memory_Manager length := by
  constructor
  · rintro ⟨⟩
  · rintro ⟨⟩

/-- What the first three counting loops leave for the others. -/
theorem tally_shares {q : Fin 3 → List Addr} {c2 c1 c0 : Cursor}
    (h : ∀ c, s.IsList (s.priority_head c) (q c)) (hc2 : countOne s = some c2)
    (hc1 : countTwo s fuel ⟨c2.count, 0, s.priority_head 1⟩ = some c1)
    (hc0 : countRest s fuel ⟨c1.count, 0, s.priority_head 0⟩ = some c0) :
    refillMax - c0.count = sharesRoom (fun c => (q c).length) ∧
      c2.temp = ((q 2).drop 1).head? ∧ c1.temp = ((q 1).drop 2).head? := by
  have hhead (c : Fin 3) : s.priority_head c = (q c).head? := Segment.eq_head? (h c)
  have hlist (c : Fin 3) : s.IsList (q c).head? (q c) := by
    rw [← hhead]
    exact h c
  obtain rfl := Option.some.inj ((countOne_eq (h 2)).symm.trans hc2)
  rw [hhead] at hc1 hc0
  obtain rfl := countTwo_eq (hlist 1) (by omega) hc1
  obtain ⟨hcount, _⟩ := countRest_eq (hlist 0) hc0
  refine ⟨?_, rfl, rfl⟩
  rw [hcount]
  simp only [sharesRoom, refillMax]
  omega

/-- A refill whose lengths meet the condition ends its counting. -/
theorem tally_isSome {q : Fin 3 → List Addr} (h : ∀ c, s.IsList (s.priority_head c) (q c))
    (hfuel : ∀ c, (q c).length < fuel) (hends : RefillEnds v fun c => (q c).length) :
    (tally v fuel s).isSome := by
  have hlist (c : Fin 3) : s.IsList (q c).head? (q c) := by
    rw [← Segment.eq_head? (h c)]
    exact h c
  have hc2 := countOne_eq (h 2)
  obtain ⟨c1, hc1⟩ : ∃ c1, countTwo s fuel ⟨100 * min 1 (q 2).length, 0, s.priority_head 1⟩ =
      some c1 := by
    rw [Segment.eq_head? (h 1)]
    exact Option.isSome_iff_exists.mp (countTwo_isSome (hlist 1) (hfuel 1))
  obtain ⟨c0, hc0⟩ : ∃ c0, countRest s fuel ⟨c1.count, 0, s.priority_head 0⟩ = some c0 := by
    rw [Segment.eq_head? (h 0)]
    exact Option.isSome_iff_exists.mp (countRest_isSome (hlist 0) (hfuel 0))
  obtain ⟨hroom, _, htemp1⟩ := tally_shares h hc2 hc1 hc0
  simp only [tally, hc2, hc1, hc0, Option.bind_eq_bind, Option.bind_some]
  split
  · obtain ⟨hends1, hends2⟩ := hends
    have hlist1 : s.IsList ((q 1).drop 2).head? ((q 1).drop 2) := Segment.drop (h 1) 2
    have hlist2 : s.IsList ((q 2).drop 1).head? ((q 2).drop 1) := Segment.drop (h 2) 1
    have hsome1 : (fillUp v s 50 fuel ⟨c0.count, c1.p, ((q 1).drop 2).head?⟩).isSome := by
      apply fillUp_isSome hlist1
      · simpa using (Nat.sub_le _ 2).trans_lt (hfuel 1)
      · simpa [hroom] using hends1
    obtain ⟨c1', hc1'⟩ := Option.isSome_iff_exists.mp hsome1
    obtain ⟨hcount1, _⟩ := fillUp_eq hlist1 (Or.inl rfl) hc1'
    rw [htemp1, hc1', Option.bind_some]
    have hroom' : refillMax - c1'.count = refillMax - c0.count -
        50 * min ((q 1).length - 2) ((refillMax - c0.count) / 50) := by
      rw [hcount1, List.length_drop, Nat.sub_sub]
    have hsome2 : (fillUp v s 100 fuel ⟨c1'.count, min 1 (q 2).length,
        ((q 2).drop 1).head?⟩).isSome := by
      apply fillUp_isSome hlist2
      · simpa using (Nat.sub_le _ 1).trans_lt (hfuel 2)
      · simpa [hroom', hroom] using hends2
    obtain ⟨c2', hc2'⟩ := Option.isSome_iff_exists.mp hsome2
    rw [hc2']
    rfl
  · rfl

/-- A refill that ends its counting has lengths that meet the condition. -/
theorem refillEnds_of_tally {q : Fin 3 → List Addr} {p : Fin 3 → ℕ}
    (h : ∀ c, s.IsList (s.priority_head c) (q c)) (hp : tally v fuel s = some p) :
    RefillEnds v fun c => (q c).length := by
  simp only [tally, Option.bind_eq_bind] at hp
  obtain ⟨c2, hc2, hp⟩ := Option.bind_eq_some_iff.mp hp
  obtain ⟨c1, hc1, hp⟩ := Option.bind_eq_some_iff.mp hp
  obtain ⟨c0, hc0, hp⟩ := Option.bind_eq_some_iff.mp hp
  obtain ⟨hroom, htemp2, htemp1⟩ := tally_shares h hc2 hc1 hc0
  have hlist (c : Fin 3) (n : ℕ) : s.IsList ((q c).drop n).head? ((q c).drop n) :=
    Segment.drop (h c) n
  split at hp
  · obtain ⟨c1', hc1', hp⟩ := Option.bind_eq_some_iff.mp hp
    obtain ⟨c2', hc2', _⟩ := Option.bind_eq_some_iff.mp hp
    rw [htemp1] at hc1'
    rw [htemp2] at hc2'
    have hends1 := fillUpEnds_of_eq_some (hlist 1 2) hc1'
    have hends2 := fillUpEnds_of_eq_some (hlist 2 1) hc2'
    rw [(fillUp_eq (hlist 1 2) (Or.inl rfl) hc1').1, ← Nat.sub_sub] at hends2
    simp only [hroom, List.length_drop] at hends1 hends2
    exact ⟨hends1, hends2⟩
  · -- There is no room left, so the other loops do not run.
    have hzero : sharesRoom (fun c => (q c).length) = 0 := by omega
    refine ⟨fun _ => Or.inr ?_, fun _ => Or.inr ?_⟩
    · rw [hzero]
    · rw [hzero, Nat.zero_sub]

/-- A refill whose lengths meet the condition ends. How often a loop may run plays
no part once it is more often than any queue is long. -/
theorem createRunningQueue_ends {q : Fin 3 → List Addr} (hempty : s.running_queue_head = none)
    (hlist : ∀ c, s.IsList (s.priority_head c) (q c)) (hnodup : (allNodes [] q).Nodup)
    (hends : RefillEnds v fun c => (q c).length) :
    ∃ s', ∀ fuel, (∀ c, (q c).length < fuel) → createRunningQueue v fuel s = some s' := by
  have hloading : Loading { s with
      empty_running_queue := decide (∀ c, s.priority_head c = none) } [] q none :=
    ⟨hempty, fun h => absurd rfl h, hlist, hnodup⟩
  obtain ⟨s', hload, _⟩ := load_quota hloading
  refine ⟨s', fun fuel hfuel => ?_⟩
  obtain ⟨p, hp⟩ := Option.isSome_iff_exists.mp (tally_isSome hloading.list hfuel hends)
  apply createRunningQueue_eq_some.mpr
  refine ⟨p, hp, ?_⟩
  rw [tally_eq hloading.list hp]
  exact hload

/-- A number of iterations that is enough for every counting loop. -/
theorem length_lt_total (q : Fin 3 → List Addr) (c : Fin 3) :
    (q c).length < (allNodes [] q).length + 1 := by
  simp only [allNodes, List.nil_append, List.length_append]
  fin_cases c
  · change (q 0).length < _
    omega
  · change (q 1).length < _
    omega
  · change (q 2).length < _
    omega

/-! ## The two versions -/

/-- A loop that fills up and ends in the `Pthreads` version never meets a thread
that does not fit, so it does the same in the other version. -/
theorem fillUp_memoryManager {k : ℕ} {c c' : Cursor} (h : fillUp .Pthreads s k fuel c = some c') :
    fillUp .Memory_Manager s k fuel c = some c' := by
  induction fuel generalizing c with
  | zero => exact h
  | succ fuel ih =>
    cases ha : c.temp with
    | none => simpa [fillUp, ha] using h
    | some a =>
      by_cases hroom : c.count < refillMax
      · by_cases hfits : c.count + k ≤ refillMax
        · simp only [fillUp, ha, if_pos hroom, if_pos hfits] at h ⊢
          obtain ⟨next, hnext, h⟩ := Option.bind_eq_some_iff.mp h
          rw [hnext]
          exact ih h
        · rw [fillUp_stuck ha hroom (Nat.not_le.mp hfits)] at h
          cases h
      · simpa only [fillUp, ha, if_neg hroom] using h

/-- Counting that ends in the `Pthreads` version gives the same numbers in the other. -/
theorem tally_memoryManager {p : Fin 3 → ℕ} (h : tally .Pthreads fuel s = some p) :
    tally .Memory_Manager fuel s = some p := by
  simp only [tally, Option.bind_eq_bind] at h ⊢
  obtain ⟨c2, hc2, h⟩ := Option.bind_eq_some_iff.mp h
  obtain ⟨c1, hc1, h⟩ := Option.bind_eq_some_iff.mp h
  obtain ⟨c0, hc0, h⟩ := Option.bind_eq_some_iff.mp h
  rw [hc2, Option.bind_some, hc1, Option.bind_some, hc0, Option.bind_some]
  split at h
  · rename_i hroom
    obtain ⟨c1', hc1', h⟩ := Option.bind_eq_some_iff.mp h
    obtain ⟨c2', hc2', h⟩ := Option.bind_eq_some_iff.mp h
    rw [if_pos hroom, fillUp_memoryManager hc1', Option.bind_some, fillUp_memoryManager hc2']
    exact h
  · rename_i hroom
    rw [if_neg hroom]
    exact h

/-- Where the `Pthreads` refill ends, the `Memory_Manager` refill ends in the same
state. -/
theorem createRunningQueue_memoryManager (h : createRunningQueue .Pthreads fuel s = some s') :
    createRunningQueue .Memory_Manager fuel s = some s' := by
  obtain ⟨p, hp, hload⟩ := createRunningQueue_eq_some.mp h
  exact createRunningQueue_eq_some.mpr ⟨p, tally_memoryManager hp, hload⟩

/-- Five waiting threads of class 1 and one of class 2. -/
def fiveAndOne : Queues :=
  { Queues.zero with
    node := fun a =>
      if 1 ≤ a ∧ a ≤ 4 then some ⟨.THREAD_READY, 1, 0, a, some (a + 1)⟩
      else if a = 5 then some ⟨.THREAD_READY, 1, 0, 5, none⟩
      else if a = 6 then some ⟨.THREAD_READY, 2, 0, 6, none⟩
      else none
    priority_head := ![none, some 1, some 6]
    priority_tail := ![none, some 5, some 6]
    priority_Queue := true }

theorem fiveAndOne_isList (c : Fin 3) :
    fiveAndOne.IsList (fiveAndOne.priority_head c)
      ((![[], [1, 2, 3, 4, 5], [6]] : Fin 3 → _) c) := by
  fin_cases c
  · exact rfl
  · exact ⟨rfl, some 2, rfl, rfl, some 3, rfl, rfl, some 4, rfl, rfl, some 5, rfl, rfl, none, rfl,
      rfl⟩
  · exact ⟨rfl, none, rfl, rfl⟩

/-- With five threads of class 1 and one of class 2, the shares leave 100 milliseconds, and the
loop that fills up takes two more threads of class 1. Both versions leave the last one. -/
theorem createRunningQueue_memoryManager_fiveAndOne :
    ∃ s', createRunningQueue .Memory_Manager 10 fiveAndOne = some s' ∧
      s'.running_queue_head = some 1 ∧ s'.running_queue_tail = some 6 ∧
      (s'.node 4).bind Node.next = some 6 ∧ s'.priority_head = ![none, some 5, none] :=
  ⟨_, createRunningQueue_memoryManager rfl, rfl, rfl, rfl, by decide⟩

/-! ## The policy -/

/-- The milliseconds that the given numbers of threads use. -/
def used (n : Fin 3 → ℕ) : ℕ := 25 * n 0 + 50 * n 1 + 100 * n 2

/-- The quota stays within the budget. -/
theorem used_quota_le (length : Fin 3 → ℕ) : used (quota length) ≤ refillMax :=
  (isQuota_quota length).fits

/-- The quota gives every class its share: four, two and one threads if there are. -/
theorem share_le_quota (length : Fin 3 → ℕ) :
    min 4 (length 0) ≤ quota length 0 ∧ min 2 (length 1) ≤ quota length 1 ∧
      min 1 (length 2) ≤ quota length 2 := by
  have hquota := isQuota_quota length
  refine ⟨?_, hquota.first_one, hquota.first_two⟩
  have hle := hquota.le 0
  have hfull := hquota.full_zero
  unfold refillMax at hfull
  omega

/-- The quota leaves no room that a waiting thread could use. -/
theorem quota_maximal (length : Fin 3 → ℕ) (c : Fin 3) (h : quota length c < length c) :
    refillMax < used (quota length) + quantum c := by
  have hquota := isQuota_quota length
  have hone := hquota.first_one
  have htwo := hquota.first_two
  unfold used
  fin_cases c
  · have hfull := hquota.full_zero h
    change refillMax < _ + 25
    omega
  · have hfull := hquota.full_one h
    change refillMax < _ + 50
    omega
  · have hfull := hquota.full_two h
    change refillMax < _ + 100
    omega

/-- The refill policy of the `Memory_Manager` version, for priority queues of any
lengths. The refill ends. It moves the first `n c` threads of each class `c`, in
the order of the classes, keeps within the budget, gives every class its share,
and leaves no room that a waiting thread could use. -/
theorem refill_policy {q : Fin 3 → List Addr} (hempty : s.running_queue_head = none)
    (hlist : ∀ c, s.IsList (s.priority_head c) (q c)) (hnodup : (allNodes [] q).Nodup) :
    ∃ s' n x, (∃ enough, ∀ fuel, enough ≤ fuel →
        createRunningQueue .Memory_Manager fuel s = some s') ∧
      (∀ c, n c ≤ (q c).length) ∧
      Loading s' ((q 0).take (n 0) ++ (q 1).take (n 1) ++ (q 2).take (n 2))
        (fun c => (q c).drop (n c)) x ∧
      used n ≤ refillMax ∧
      (min 4 (q 0).length ≤ n 0 ∧ min 2 (q 1).length ≤ n 1 ∧ min 1 (q 2).length ≤ n 2) ∧
      ∀ c, n c < (q c).length → refillMax < used n + quantum c := by
  obtain ⟨s', hends⟩ :=
    createRunningQueue_ends hempty hlist hnodup (refillEnds_memoryManager _)
  obtain ⟨hloading, _⟩ :=
    createRunningQueue_spec hempty hlist hnodup (hends _ (length_lt_total q))
  refine ⟨s', quota fun c => (q c).length, leftover q,
    ⟨(allNodes [] q).length + 1, fun fuel h => ?_⟩, quota_le _, hloading, used_quota_le _,
    share_le_quota fun c => (q c).length, quota_maximal _⟩
  apply hends
  intro c
  exact (length_lt_total q c).trans_le h

/-- One waiting thread of class 0 and three of class 2. -/
def oneAndThree : Queues :=
  { Queues.zero with
    node := fun a =>
      if a = 1 then some ⟨.THREAD_READY, 0, 0, 1, none⟩
      else if a = 2 ∨ a = 3 then some ⟨.THREAD_READY, 2, 0, a, some (a + 1)⟩
      else if a = 4 then some ⟨.THREAD_READY, 2, 0, 4, none⟩
      else none
    priority_head := ![some 1, none, some 2]
    priority_tail := ![some 1, none, some 4]
    priority_Queue := true }

theorem oneAndThree_isList (c : Fin 3) :
    oneAndThree.IsList (oneAndThree.priority_head c) ((![[1], [], [2, 3, 4]] : Fin 3 → _) c) := by
  fin_cases c
  · exact ⟨rfl, none, rfl, rfl⟩
  · exact rfl
  · exact ⟨rfl, some 3, rfl, rfl, some 4, rfl, rfl, none, rfl, rfl⟩

/-- The policy at one thread of class 0 and three of class 2. -/
theorem refill_policy_oneAndThree : ∃ s' n, (∃ enough, ∀ fuel, enough ≤ fuel →
      createRunningQueue .Memory_Manager fuel oneAndThree = some s') ∧
    used n ≤ refillMax ∧ 1 ≤ n 0 ∧ (n 2 < 3 → refillMax < used n + 100) := by
  obtain ⟨s', n, x, hends, _, _, hused, hshare, hmax⟩ :=
    refill_policy (s := oneAndThree) rfl oneAndThree_isList (by decide)
  exact ⟨s', n, hends, hused, hshare.1, hmax 2⟩

/-- When the `Pthreads` version of a refill ends, for priority queues of any
lengths. -/
theorem pthreads_refill_ends_iff {q : Fin 3 → List Addr} (hempty : s.running_queue_head = none)
    (hlist : ∀ c, s.IsList (s.priority_head c) (q c)) (hnodup : (allNodes [] q).Nodup) :
    (∃ fuel s', createRunningQueue .Pthreads fuel s = some s') ↔
      RefillEnds .Pthreads fun c => (q c).length := by
  constructor
  · rintro ⟨fuel, s', h⟩
    obtain ⟨p, hp, _⟩ := createRunningQueue_eq_some.mp h
    exact refillEnds_of_tally (s := { s with
      empty_running_queue := decide (∀ c, s.priority_head c = none) }) hlist hp
  · intro hends
    obtain ⟨s', h⟩ := createRunningQueue_ends hempty hlist hnodup hends
    exact ⟨_, s', h _ (length_lt_total q)⟩

/-- The condition fails, and the refill does not end, with one thread of class 0
and three of class 2: after 225 milliseconds the third does not fit. -/
theorem pthreads_refill_stuck : ¬ ∀ (s : Queues) (q : Fin 3 → List Addr),
    s.running_queue_head = none → (∀ c, s.IsList (s.priority_head c) (q c)) →
    (allNodes [] q).Nodup → (∃ c, q c ≠ []) →
    ∃ fuel s', createRunningQueue .Pthreads fuel s = some s' := by
  intro h
  obtain ⟨fuel, s', hs'⟩ := h oneAndThree ![[1], [], [2, 3, 4]] rfl oneAndThree_isList
    (by decide) ⟨0, by decide⟩
  obtain ⟨p, hp, _⟩ := createRunningQueue_eq_some.mp hs'
  obtain ⟨_, hends⟩ := refillEnds_of_tally (q := ![[1], [], [2, 3, 4]]) oneAndThree_isList hp
  exact absurd (hends rfl) (by decide)

/-- With five threads of class 1 and one of class 2 the loop that fills up is entered, takes two
threads, and ends because they use up the room. -/
theorem pthreads_refill_ends_iff_fiveAndOne :
    ∃ fuel s', createRunningQueue .Pthreads fuel fiveAndOne = some s' := by
  apply (pthreads_refill_ends_iff rfl fiveAndOne_isList (by decide)).mpr
  exact ⟨fun _ => Or.inr (by decide), fun _ => Or.inl (by decide)⟩

end SimpleOs.Threads
