import SimpleOs.Threads.Joiners

/-!
# The scan for the target

A scan that is not interrupted looks at every node of the four queues. So if it
does not find its target, and the queues hold all live threads, then the target
has begun to exit. A scan that is interrupted may miss a node that moves behind it.
-/

namespace SimpleOs.Threads

open LinkedList

variable {s s' : Library} {begun handed : List ℕ} {j j' : Join}

/-! ## Where a call stands -/

/-- Some queue, but not all of the queues, may have been looked at. -/
def JoinPc.midScan : JoinPc → Bool
  | .scanStart k => k ≠ 0
  | .scan _ _ => true
  | .scanNext _ _ => true
  | _ => false

/-- The call has not come to free its block. -/
def JoinPc.early : JoinPc → Bool
  | .unlink _ _ => false
  | .unlinkStore _ => false
  | .unlinkFree => false
  | .unlinkNext _ => false
  | .retvalStart => false
  | .retval _ _ => false
  | .retvalTake _ _ => false
  | .retvalUnlink _ _ => false
  | .retvalFree _ => false
  | .retvalNext _ => false
  | .return_ => false
  | _ => true

/-- The call is in the loop that takes its block out of the list of joiners. -/
def JoinPc.inLoop : JoinPc → Bool
  | .unlink _ _ => true
  | .unlinkStore _ => true
  | .unlinkFree => true
  | .unlinkNext _ => true
  | _ => false

/-- The call no longer waits for its target. -/
def JoinPc.past : JoinPc → Bool
  | .unlinkStart => true
  | .unlinkHead => true
  | .unlinkHeadFree => true
  | pc => !pc.early

/-- The call is looking for its target. -/
def Join.Scanning (j : Join) : Prop := j.foundT = false ∧ j.pc.midScan = true

/-- The call holds no stale pointer that matters: it is not in the middle of looking
for a live target, and not in the loop over the joiners after it has freed its block. -/
def Join.Parked (begun : List ℕ) (j : Join) : Prop :=
  ¬ (j.Scanning ∧ j.known = true ∧ j.thread ∉ begun) ∧ ¬ (j.pc.inLoop = true ∧ j.freed = true)

/-! ## What a scan has seen -/

/-- The lists in the order of the scans. -/
def scanList (r : List Addr) (q : Fin 3 → List Addr) : Fin 4 → List Addr := ![q 0, q 1, q 2, r]

/-- A scan starts at the head of its list. -/
theorem Queued.scan {s : Queues} {r : List Addr} {q : Fin 3 → List Addr} (hq : Queued s r q)
    (k : Fin 4) : s.IsList (scanHead s k) (scanList r q k) := by
  fin_cases k
  · exact hq.list 0
  · exact hq.list 1
  · exact hq.list 2
  · exact hq.running

/-- Every node of the queues is on one of the four lists that are scanned. -/
theorem mem_scanList {r : List Addr} {q : Fin 3 → List Addr} {a : Addr} (h : a ∈ allNodes r q) :
    ∃ k, a ∈ scanList r q k := by
  rcases mem_allNodes.mp h with hr | ⟨c, hc⟩
  · exact ⟨3, hr⟩
  · fin_cases c
    · exact ⟨0, hc⟩
    · exact ⟨1, hc⟩
    · exact ⟨2, hc⟩

/-- No node of the list is thread `t`'s. -/
def Absent (s : Queues) (t : ℕ) (l : List Addr) : Prop := ∀ a ∈ l, s.idAt a ≠ some t

/-- The target is on no list before list `k`, nor on list `k` before `rest`. -/
def SeenUpTo (s : Queues) (t : ℕ) (k : Fin 4) (rest : Option Addr) : Prop :=
  ∀ r q, Queued s r q → (∀ i < k, Absent s t (scanList r q i)) ∧
    ∃ pre post, scanList r q k = pre ++ post ∧ post.head? = rest ∧ Absent s t pre

/-- At the head of a list the target must have been on none of the lists before. -/
theorem seenUpTo_head {s : Queues} {t : ℕ} {k : Fin 4}
    (h : ∀ r q, Queued s r q → ∀ i < k, Absent s t (scanList r q i)) :
    SeenUpTo s t k (scanHead s k) := by
  intro r q hq
  refine ⟨h r q hq, [], scanList r q k, rfl, (hq.scan k).eq_head?.symm, ?_⟩
  exact fun a ha => absurd ha (by simp)

/-- Before the first list nothing has to have been seen. -/
theorem seenUpTo_start (s : Queues) (t : ℕ) : SeenUpTo s t 0 (scanHead s 0) :=
  seenUpTo_head fun _ _ _ i hi => absurd hi (by simp)

/-- A scan that goes past another thread's node has seen that node too. -/
theorem SeenUpTo.next {s : Queues} {t : ℕ} {k : Fin 4} {a : Addr} {garbage : Option Addr}
    (h : SeenUpTo s t k (some a)) (ha : s.idAt a ≠ some t) :
    SeenUpTo s t k (s.nextOf a garbage) := by
  intro r q hq
  obtain ⟨hbefore, pre, post, hlist, hhead, habsent⟩ := h r q hq
  obtain ⟨post, rfl⟩ : ∃ l, post = a :: l := by
    cases post with
    | nil => exact absurd hhead (by simp)
    | cons b l => exact ⟨l, by rw [Option.some.inj hhead]⟩
  have hscan := hq.scan k
  rw [hlist] at hscan
  obtain ⟨_, _, _, next, hnext, hpost⟩ := segment_append.mp hscan
  refine ⟨hbefore, pre ++ [a], post, by simp [hlist], ?_, fun b hb => ?_⟩
  · obtain ⟨n, hn, rfl⟩ := Option.map_eq_some_iff.mp hnext
    simp only [Queues.nextOf, hn]
    exact hpost.eq_head?.symm
  · rcases List.mem_append.mp hb with hb | hb
    · exact habsent b hb
    · rw [List.mem_singleton.mp hb]
      exact ha

/-- A list of which nothing is left. -/
theorem SeenUpTo.absent {s : Queues} {t : ℕ} {k : Fin 4} {r : List Addr} {q : Fin 3 → List Addr}
    (h : SeenUpTo s t k none) (hq : Queued s r q) : ∀ i ≤ k, Absent s t (scanList r q i) := by
  obtain ⟨hbefore, pre, post, hlist, hhead, habsent⟩ := h r q hq
  obtain rfl := List.head?_eq_none_iff.mp hhead
  intro i hi
  rcases lt_or_eq_of_le hi with hlt | rfl
  · exact hbefore i hlt
  · rw [hlist, List.append_nil]
    exact habsent

/-- At the end of a list the next one begins. -/
theorem SeenUpTo.finish {s : Queues} {t : ℕ} {k : Fin 4} (h : SeenUpTo s t k none) (hk : k ≠ 3) :
    SeenUpTo s t (k + 1) (scanHead s (k + 1)) := by
  refine seenUpTo_head fun r q hq i hi => h.absent hq i ?_
  fin_cases k <;> fin_cases i <;> simp_all

/-- At the end of the last list the target is on no list. -/
theorem SeenUpTo.all {s : Queues} {t : ℕ} {r : List Addr} {q : Fin 3 → List Addr}
    (h : SeenUpTo s t 3 none) (hq : Queued s r q) : Absent s t (allNodes r q) := by
  intro a ha
  obtain ⟨k, hk⟩ := mem_scanList ha
  exact h.absent hq k (Fin.le_last k) a hk

/-- What a call that is looking for its target has seen. -/
def Join.Seen (s : Queues) (j : Join) : Prop :=
  match j.pc with
  | .scanStart k => SeenUpTo s j.thread k (scanHead s k)
  | .scan k temp => SeenUpTo s j.thread k temp
  | .scanNext k a => SeenUpTo s j.thread k (some a) ∧ s.idAt a ≠ some j.thread
  | _ => True

/-- Every created thread that has not begun to exit is in a queue. -/
def Complete (s : Library) (begun handed : List ℕ) : Prop :=
  ∃ r q, Queued s.queues r q ∧
    ∀ t ∈ handed, t ∉ begun → ∃ a ∈ allNodes r q, s.queues.idAt a = some t

/-- What is known of a call. -/
structure Join.Guarded (s : Library) (begun handed : List ℕ) (j : Join) : Prop where
  /-- A known target was created. -/
  known : j.known = true → j.thread ∈ handed
  /-- The block is there until the call frees it. -/
  early : j.pc.early = true → j.freed = false
  /-- The block waits for the target. -/
  own : j.freed = false →
    ∃ b, s.join_block j.block = some b ∧ b.thread_waiting_for = j.thread
  /-- A call does not stop waiting early. -/
  past : j.pc.past = true → j.known = true → j.thread ∈ begun
  /-- The scan has seen what it should have seen. -/
  seen : j.Scanning → j.known = true → j.thread ∉ begun → j.Seen s.queues
  /-- The freed block has not been handed out again. -/
  gone : j.pc.inLoop = true → j.freed = true → s.join_block j.block = none

/-- The call after a step, for the same target and with the same block. -/
structure Join.Succ (j j' : Join) : Prop where
  /-- The target of the call is the same. -/
  thread : j'.thread = j.thread
  /-- Whether the target is known. -/
  known : j'.known = j.known
  /-- The block of the call is the same. -/
  block : j'.block = j.block
  /-- A freed block stays freed. -/
  freed : j'.freed = false → j.freed = false

/-- A step that neither scans nor frees. -/
theorem Join.Guarded.next (h : j.Guarded s begun handed) (hsucc : j.Succ j')
    (hfreed : j'.freed = j.freed) (hblocks : SameBlocks s s' none)
    (hearly : j'.pc.early = true → j.pc.early = true)
    (hpast : j'.pc.past = true → j.known = true → j.pc.past = true ∨ j.thread ∈ begun)
    (hmid : j'.pc.midScan = false)
    (hloop : j'.pc.inLoop = true → j.freed = true → j.pc.inLoop = true) :
    j'.Guarded s' begun handed := by
  refine ⟨fun hk => ?_, fun he => ?_, fun hf => ?_, fun hp hk => ?_, fun hscan => ?_,
    fun hl hf => ?_⟩
  · rw [hsucc.thread]
    exact h.known (hsucc.known ▸ hk)
  · rw [hfreed]
    exact h.early (hearly he)
  · obtain ⟨b, hb, hthread⟩ := h.own (hfreed ▸ hf)
    obtain ⟨b', hb', hsame⟩ := hblocks.after hb (by simp)
    rw [hsucc.thread, hsucc.block]
    exact ⟨b', hb', hsame.trans hthread⟩
  · rw [hsucc.known] at hk
    rw [hsucc.thread]
    rcases hpast hp hk with hp | hbegun
    · exact h.past hp hk
    · exact hbegun
  · exact absurd hscan.2 (by simp [hmid])
  · rw [hfreed] at hf
    rw [hsucc.block]
    exact hblocks.unallocated (h.gone (hloop hl hf) hf)

/-- The step that frees the block keeps the call guarded. -/
theorem Join.Guarded.free (h : j.Guarded s begun handed) (hsucc : j.Succ j')
    (hfreed : j'.freed = true) (hblocks : SameBlocks s s' (some j.block))
    (hearly : j'.pc.early = false) (hpast : j.pc.past = true) (hmid : j'.pc.midScan = false) :
    j'.Guarded s' begun handed := by
  refine ⟨fun hk => ?_, fun he => ?_, fun hf => ?_, fun _ hk => ?_, fun hscan => ?_,
    fun _ _ => ?_⟩
  · rw [hsucc.thread]
    exact h.known (hsucc.known ▸ hk)
  · exact absurd he (by simp [hearly])
  · exact absurd hf (by simp [hfreed])
  · rw [hsucc.thread]
    exact h.past hpast (hsucc.known ▸ hk)
  · exact absurd hscan.2 (by simp [hmid])
  · rw [hsucc.block]
    exact hblocks.freed

/-- A step of the scan past a node keeps the call guarded. -/
theorem Join.Guarded.scan (h : j.Guarded s begun handed) (hsucc : j.Succ j')
    (hfreed : j'.freed = j.freed) (hearly : j.pc.early = true)
    (hpast : j'.pc.past = true → j.known = true → j.thread ∈ begun)
    (hseen : j'.Scanning → j.known = true → j.thread ∉ begun → j'.Seen s.queues)
    (hloop : j'.pc.inLoop = false) : j'.Guarded s begun handed := by
  refine ⟨fun hk => ?_, fun _ => ?_, fun hf => ?_, fun hp hk => ?_, fun hscan hk hb => ?_,
    fun hl _ => ?_⟩
  · rw [hsucc.thread]
    exact h.known (hsucc.known ▸ hk)
  · rw [hfreed]
    exact h.early hearly
  · rw [hsucc.thread, hsucc.block]
    exact h.own (hfreed ▸ hf)
  · rw [hsucc.thread]
    exact hpast hp (hsucc.known ▸ hk)
  · exact hseen hscan (hsucc.known ▸ hk) (hsucc.thread ▸ hb)
  · exact absurd hl (by simp [hloop])

/-- A known target that is on no list has begun to exit. -/
theorem Complete.hasBegun (h : Complete s begun handed) {t : ℕ} (ht : t ∈ handed)
    (hseen : SeenUpTo s.queues t 3 none) : t ∈ begun := by
  by_contra hlive
  obtain ⟨r, q, hq, hall⟩ := h
  obtain ⟨a, ha, hid⟩ := hall t ht hlive
  exact hseen.all hq a ha hid

/-- The call at its next step is the same call. -/
theorem Join.succ_goto (j : Join) (pc : JoinPc) : j.Succ (j.goto pc) := ⟨rfl, rfl, rfl, id⟩

/-- A call that reaches the end of a scan stays guarded. -/
theorem Join.Guarded.afterScan {k : Fin 4} {temp : Option Addr} (h : j.Guarded s begun handed)
    (hcomplete : Complete s begun handed) (hpc : j.pc = .scan k temp)
    (hend : j.foundT = false → temp = none) :
    (j.goto (j.afterScan k)).Guarded s begun handed := by
  have hearly : j.pc.early = true := by rw [hpc]; rfl
  have hmid : j.pc.midScan = true := by rw [hpc]; rfl
  have hseen (hfound : j.foundT = false) (hk : j.known = true) (hb : j.thread ∉ begun) :
      SeenUpTo s.queues j.thread k none := by
    have hseen := h.seen ⟨hfound, hmid⟩ hk hb
    simp only [Join.Seen, hpc, hend hfound] at hseen
    exact hseen
  refine h.scan (j.succ_goto _) rfl hearly ?_ ?_ ?_ <;> unfold Join.afterScan <;> split
  · intro hpast
    simp [JoinPc.past, JoinPc.early] at hpast
  · rename_i hlast
    have hk3 : k = 3 := by simpa using hlast
    intro hpast hk
    by_contra hb
    split at hpast
    · simp [JoinPc.past, JoinPc.early] at hpast
    · rename_i hfound
      subst hk3
      exact hb (hcomplete.hasBegun (h.known hk) (hseen (by simpa using hfound) hk hb))
  · rename_i hnotLast
    intro hscan hk hb
    exact (hseen hscan.1 hk hb).finish hnotLast
  · intro hscan
    split at hscan <;> exact absurd hscan.2 (by simp [JoinPc.midScan])
  · rfl
  · split <;> rfl

/-- The steps that look for the target. -/
theorem Join.Guarded.step_scan {garbage : Option Addr} {next : Option Join}
    (hpc : (∃ k, j.pc = .scanStart k) ∨ (∃ k temp, j.pc = .scan k temp) ∨
      ∃ k a, j.pc = .scanNext k a)
    (h : j.Guarded s begun handed) (hcomplete : Complete s begun handed)
    (hstep : j.step s garbage = some (s', next)) :
    ∃ j', next = some j' ∧ j.Succ j' ∧ j'.Guarded s' begun handed := by
  rcases hpc with ⟨k, hpc⟩ | ⟨k, temp, hpc⟩ | ⟨k, a, hpc⟩
  · simp only [Join.step, hpc] at hstep
    obtain ⟨rfl, rfl⟩ := Prod.mk.inj (Option.some.inj hstep)
    refine ⟨_, rfl, j.succ_goto _, h.scan (j.succ_goto _) rfl (by rw [hpc]; rfl) ?_ ?_ rfl⟩
    · intro hpast
      simp [JoinPc.past, JoinPc.early] at hpast
    · intro hscan hk hb
      change SeenUpTo s.queues j.thread k (scanHead s.queues k)
      by_cases hzero : k = 0
      · subst hzero
        exact seenUpTo_start _ _
      · have hseen := h.seen ⟨hscan.1, by simp [hpc, JoinPc.midScan, hzero]⟩ hk hb
        simp only [Join.Seen, hpc] at hseen
        exact hseen
  · obtain ⟨rfl, ⟨hend, rfl⟩ | ⟨a, n, rfl, hfound, hn, rfl⟩⟩ := Join.scan_cases hpc hstep
    · exact ⟨_, rfl, j.succ_goto _, h.afterScan hcomplete hpc hend⟩
    · refine ⟨_, rfl, ⟨rfl, rfl, rfl, id⟩, h.scan ⟨rfl, rfl, rfl, id⟩ rfl (by rw [hpc]; rfl)
        (fun hpast => ?_) (fun hscan hk hb => ?_) rfl⟩
      · simp [JoinPc.past, JoinPc.early] at hpast
      · have hseen := h.seen ⟨hfound, by rw [hpc]; rfl⟩ hk hb
        simp only [Join.Seen, hpc] at hseen
        refine ⟨hseen, fun hid => ?_⟩
        have hne : j.thread ≠ n.thread_id := by simpa using hscan.1
        simp only [Queues.idAt, hn, Option.map_some, Option.some.injEq] at hid
        exact hne hid.symm
  · simp only [Join.step, hpc] at hstep
    obtain ⟨rfl, rfl⟩ := Prod.mk.inj (Option.some.inj hstep)
    refine ⟨_, rfl, j.succ_goto _, h.scan (j.succ_goto _) rfl (by rw [hpc]; rfl) ?_ ?_ rfl⟩
    · intro hpast
      simp [JoinPc.past, JoinPc.early] at hpast
    · intro hscan hk hb
      have hseen := h.seen ⟨hscan.1, by rw [hpc]; rfl⟩ hk hb
      simp only [Join.Seen, hpc] at hseen
      exact hseen.1.next hseen.2

/-- The steps before the scan, and the first one of the wait. -/
theorem Join.Guarded.step_enter {garbage : Option Addr} {next : Option Join}
    (hpc : j.pc = .insertTest ∨ j.pc = .insertFirst ∨ j.pc = .insertFirstNext ∨
      j.pc = .insertNext ∨ j.pc = .insertHead ∨ j.pc = .waitTest)
    (hdone : ∀ b blk, s.join_block b = some blk → blk.done = true → blk.thread_waiting_for ∈ begun)
    (h : j.Guarded s begun handed) (hstep : j.step s garbage = some (s', next)) :
    ∃ j', next = some j' ∧ j.Succ j' ∧ j'.Guarded s' begun handed := by
  obtain ⟨_, hsame⟩ := Join.step_same hstep
  rcases hpc with hpc | hpc | hpc | hpc | hpc | hpc <;>
    simp only [Join.step, hpc] at hstep <;> simp only [Join.freedNow, hpc] at hsame
  · obtain ⟨rfl, rfl⟩ := Prod.mk.inj (Option.some.inj hstep)
    refine ⟨_, rfl, j.succ_goto _, h.next (j.succ_goto _) rfl hsame ?_ ?_ ?_ ?_⟩
    · exact fun _ => by rw [hpc]; rfl
    all_goals simp only [Join.goto_pc]; split <;> simp [JoinPc.past, JoinPc.early, JoinPc.midScan,
      JoinPc.inLoop]
  · obtain ⟨rfl, rfl⟩ := Prod.mk.inj (Option.some.inj hstep)
    refine ⟨_, rfl, j.succ_goto _, h.next (j.succ_goto _) rfl hsame ?_ ?_ rfl ?_⟩ <;>
      simp [hpc, JoinPc.past, JoinPc.early, JoinPc.inLoop]
  · obtain ⟨s₁, _, heq⟩ := Option.map_eq_some_iff.mp hstep
    obtain ⟨rfl, rfl⟩ := Prod.mk.inj heq
    refine ⟨_, rfl, j.succ_goto _, h.next (j.succ_goto _) rfl hsame ?_ ?_ rfl ?_⟩ <;>
      simp [hpc, JoinPc.past, JoinPc.early, JoinPc.inLoop]
  · obtain ⟨s₁, _, heq⟩ := Option.map_eq_some_iff.mp hstep
    obtain ⟨rfl, rfl⟩ := Prod.mk.inj heq
    refine ⟨_, rfl, j.succ_goto _, h.next (j.succ_goto _) rfl hsame ?_ ?_ rfl ?_⟩ <;>
      simp [hpc, JoinPc.past, JoinPc.early, JoinPc.inLoop]
  · obtain ⟨rfl, rfl⟩ := Prod.mk.inj (Option.some.inj hstep)
    refine ⟨_, rfl, j.succ_goto _, h.next (j.succ_goto _) rfl hsame ?_ ?_ rfl ?_⟩ <;>
      simp [hpc, JoinPc.past, JoinPc.early, JoinPc.inLoop]
  · obtain ⟨b, hb, heq⟩ := Option.map_eq_some_iff.mp hstep
    obtain ⟨rfl, rfl⟩ := Prod.mk.inj heq
    refine ⟨_, rfl, j.succ_goto _, h.next (j.succ_goto _) rfl hsame ?_ ?_ ?_ ?_⟩
    · exact fun _ => by rw [hpc]; rfl
    · intro hpast _
      split at hpast
      · rename_i hset
        obtain ⟨b', hb', hthread⟩ := h.own (h.early (by rw [hpc]; rfl))
        obtain rfl := Option.some.inj (hb.symm.trans hb')
        exact Or.inr (hthread ▸ hdone _ b hb hset)
      · simp [JoinPc.past, JoinPc.early] at hpast
    all_goals simp only [Join.goto_pc]; split <;> simp [JoinPc.midScan, JoinPc.inLoop]

/-- The steps that take the block out of the list of joiners. -/
theorem Join.Guarded.step_leave {garbage : Option Addr} {next : Option Join}
    (hpc : j.pc = .unlinkStart ∨ j.pc = .unlinkHead ∨ j.pc = .unlinkHeadFree ∨
      (∃ prev ptr, j.pc = .unlink prev ptr) ∨ (∃ prev, j.pc = .unlinkStore prev) ∨
      j.pc = .unlinkFree ∨ ∃ a, j.pc = .unlinkNext a)
    (h : j.Guarded s begun handed) (hstep : j.step s garbage = some (s', next)) :
    ∃ j', next = some j' ∧ j.Succ j' ∧ j'.Guarded s' begun handed := by
  obtain ⟨_, hsame⟩ := Join.step_same hstep
  rcases hpc with hpc | hpc | hpc | ⟨prev, ptr, hpc⟩ | ⟨prev, hpc⟩ | hpc | ⟨a, hpc⟩ <;>
    simp only [Join.step, hpc] at hstep <;> simp only [Join.freedNow, hpc] at hsame <;>
    have hpast : j.pc.past = true := by rw [hpc]; rfl
  · obtain ⟨rfl, rfl⟩ := Prod.mk.inj (Option.some.inj hstep)
    have hearly : j.pc.early = true := by rw [hpc]; rfl
    refine ⟨_, rfl, j.succ_goto _, h.next (j.succ_goto _) rfl hsame (fun _ => hearly)
      (fun _ _ => Or.inl hpast) ?_ fun _ hf => absurd hf (by simp [h.early hearly])⟩
    simp only [Join.goto_pc]
    split <;> rfl
  · obtain ⟨rfl, rfl⟩ := Prod.mk.inj (Option.some.inj hstep)
    refine ⟨_, rfl, j.succ_goto _, h.next (j.succ_goto _) rfl hsame ?_ (fun _ _ => Or.inl hpast)
      rfl ?_⟩ <;> simp [hpc, JoinPc.early, JoinPc.inLoop]
  · obtain ⟨s₁, _, heq⟩ := Option.map_eq_some_iff.mp hstep
    obtain ⟨rfl, rfl⟩ := Prod.mk.inj heq
    have hsucc : j.Succ { j with freed := true, pc := .retvalStart } :=
      ⟨rfl, rfl, rfl, fun hf => absurd hf (by simp)⟩
    exact ⟨_, rfl, hsucc, h.free hsucc rfl hsame rfl hpast rfl⟩
  · cases ptr with
    | none =>
      obtain ⟨rfl, rfl⟩ := Prod.mk.inj (Option.some.inj hstep)
      refine ⟨_, rfl, j.succ_goto _, h.next (j.succ_goto _) rfl hsame ?_
        (fun _ _ => Or.inl hpast) rfl ?_⟩ <;> simp [JoinPc.early, JoinPc.inLoop]
    | some a =>
      obtain ⟨rfl, rfl⟩ := Prod.mk.inj (Option.some.inj hstep)
      refine ⟨_, rfl, j.succ_goto _, h.next (j.succ_goto _) rfl hsame ?_
        (fun _ _ => Or.inl hpast) ?_ fun _ _ => by rw [hpc]; rfl⟩ <;>
        simp only [Join.goto_pc] <;> split <;> simp [JoinPc.early, JoinPc.midScan]
  · obtain ⟨p, _, hstep⟩ := Option.bind_eq_some_iff.mp hstep
    obtain ⟨s₁, _, heq⟩ := Option.map_eq_some_iff.mp hstep
    obtain ⟨rfl, rfl⟩ := Prod.mk.inj heq
    refine ⟨_, rfl, j.succ_goto _, h.next (j.succ_goto _) rfl hsame ?_ (fun _ _ => Or.inl hpast)
      rfl fun _ _ => by rw [hpc]; rfl⟩
    simp [JoinPc.early]
  · obtain ⟨s₁, _, heq⟩ := Option.map_eq_some_iff.mp hstep
    obtain ⟨rfl, rfl⟩ := Prod.mk.inj heq
    have hsucc : j.Succ { j with freed := true, pc := .unlinkNext j.block } :=
      ⟨rfl, rfl, rfl, fun hf => absurd hf (by simp)⟩
    exact ⟨_, rfl, hsucc, h.free hsucc rfl hsame rfl hpast rfl⟩
  · obtain ⟨rfl, rfl⟩ := Prod.mk.inj (Option.some.inj hstep)
    refine ⟨_, rfl, j.succ_goto _, h.next (j.succ_goto _) rfl hsame ?_ (fun _ _ => Or.inl hpast)
      rfl fun _ _ => by rw [hpc]; rfl⟩
    simp [JoinPc.early]

/-- The steps that look for a return value. -/
theorem Join.Guarded.step_retval {garbage : Option Addr} {next : Option Join}
    (hpc : j.pc = .retvalStart ∨ (∃ prev ptr, j.pc = .retval prev ptr) ∨
      (∃ prev a, j.pc = .retvalTake prev a) ∨ (∃ prev a, j.pc = .retvalUnlink prev a) ∨
      (∃ a, j.pc = .retvalFree a) ∨ (∃ a, j.pc = .retvalNext a))
    (h : j.Guarded s begun handed) (hstep : j.step s garbage = some (s', next)) :
    ∃ j', next = some j' ∧ j.Succ j' ∧ j'.Guarded s' begun handed := by
  obtain ⟨_, hsame⟩ := Join.step_same hstep
  have hnext {i : Join} (hsucc : j.Succ i) (hfreed : i.freed = j.freed)
      (hblocks : SameBlocks s s' none) (hpast : j.pc.past = true) (hearly : i.pc.early = false)
      (hmid : i.pc.midScan = false) (hloop : i.pc.inLoop = false) :
      i.Guarded s' begun handed :=
    h.next hsucc hfreed hblocks (fun he => absurd he (by simp [hearly])) (fun _ _ => Or.inl hpast)
      hmid fun hl => absurd hl (by simp [hloop])
  rcases hpc with hpc | ⟨prev, ptr, hpc⟩ | ⟨prev, a, hpc⟩ | ⟨prev, a, hpc⟩ | ⟨a, hpc⟩ | ⟨a, hpc⟩ <;>
    simp only [Join.step, hpc] at hstep <;> simp only [Join.freedNow, hpc] at hsame <;>
    have hpast : j.pc.past = true := by rw [hpc]; rfl
  · obtain ⟨rfl, rfl⟩ := Prod.mk.inj (Option.some.inj hstep)
    refine ⟨_, rfl, j.succ_goto _, ?_⟩
    split <;> exact hnext (j.succ_goto _) rfl hsame hpast rfl rfl rfl
  · cases ptr with
    | none =>
      obtain ⟨rfl, rfl⟩ := Prod.mk.inj (Option.some.inj hstep)
      exact ⟨_, rfl, j.succ_goto _, hnext (j.succ_goto _) rfl hsame hpast rfl rfl rfl⟩
    | some a =>
      obtain ⟨b, _, heq⟩ := Option.map_eq_some_iff.mp hstep
      obtain ⟨rfl, rfl⟩ := Prod.mk.inj heq
      refine ⟨_, rfl, j.succ_goto _, ?_⟩
      split <;> exact hnext (j.succ_goto _) rfl hsame hpast rfl rfl rfl
  · obtain ⟨b, _, heq⟩ := Option.map_eq_some_iff.mp hstep
    obtain ⟨rfl, rfl⟩ := Prod.mk.inj heq
    exact ⟨_, rfl, ⟨rfl, rfl, rfl, id⟩, hnext ⟨rfl, rfl, rfl, id⟩ rfl hsame hpast rfl rfl rfl⟩
  · obtain ⟨b, _, hstep⟩ := Option.bind_eq_some_iff.mp hstep
    cases prev with
    | none =>
      obtain ⟨rfl, rfl⟩ := Prod.mk.inj (Option.some.inj hstep)
      exact ⟨_, rfl, j.succ_goto _, hnext (j.succ_goto _) rfl hsame hpast rfl rfl rfl⟩
    | some p =>
      obtain ⟨s₁, _, heq⟩ := Option.map_eq_some_iff.mp hstep
      obtain ⟨rfl, rfl⟩ := Prod.mk.inj heq
      exact ⟨_, rfl, j.succ_goto _, hnext (j.succ_goto _) rfl hsame hpast rfl rfl rfl⟩
  · obtain ⟨b, _, heq⟩ := Option.map_eq_some_iff.mp hstep
    obtain ⟨rfl, rfl⟩ := Prod.mk.inj heq
    exact ⟨_, rfl, j.succ_goto _, hnext (j.succ_goto _) rfl hsame hpast rfl rfl rfl⟩
  · obtain ⟨b, _, heq⟩ := Option.map_eq_some_iff.mp hstep
    obtain ⟨rfl, rfl⟩ := Prod.mk.inj heq
    exact ⟨_, rfl, j.succ_goto _, hnext (j.succ_goto _) rfl hsame hpast rfl rfl rfl⟩

/-- Every step of a call keeps what is known of it, until it returns. -/
theorem Join.Guarded.step {garbage : Option Addr} {next : Option Join}
    (h : j.Guarded s begun handed) (hcomplete : Complete s begun handed)
    (hdone : ∀ b blk, s.join_block b = some blk → blk.done = true → blk.thread_waiting_for ∈ begun)
    (hstep : j.step s garbage = some (s', next)) :
    (next = none ∧ (j.known = true → j.thread ∈ begun)) ∨
      ∃ j', next = some j' ∧ j.Succ j' ∧ j'.Guarded s' begun handed := by
  cases hpc : j.pc with
  | insertTest => exact Or.inr (h.step_enter (by simp [hpc]) hdone hstep)
  | insertFirst => exact Or.inr (h.step_enter (by simp [hpc]) hdone hstep)
  | insertFirstNext => exact Or.inr (h.step_enter (by simp [hpc]) hdone hstep)
  | insertNext => exact Or.inr (h.step_enter (by simp [hpc]) hdone hstep)
  | insertHead => exact Or.inr (h.step_enter (by simp [hpc]) hdone hstep)
  | scanStart k => exact Or.inr (h.step_scan (by simp [hpc]) hcomplete hstep)
  | scan k temp => exact Or.inr (h.step_scan (by simp [hpc]) hcomplete hstep)
  | scanNext k a => exact Or.inr (h.step_scan (by simp [hpc]) hcomplete hstep)
  | waitTest => exact Or.inr (h.step_enter (by simp [hpc]) hdone hstep)
  | waitYield => exact absurd hstep (by simp [Join.step, hpc])
  | unlinkStart => exact Or.inr (h.step_leave (by simp [hpc]) hstep)
  | unlinkHead => exact Or.inr (h.step_leave (by simp [hpc]) hstep)
  | unlinkHeadFree => exact Or.inr (h.step_leave (by simp [hpc]) hstep)
  | unlink prev ptr => exact Or.inr (h.step_leave (by simp [hpc]) hstep)
  | unlinkStore prev => exact Or.inr (h.step_leave (by simp [hpc]) hstep)
  | unlinkFree => exact Or.inr (h.step_leave (by simp [hpc]) hstep)
  | unlinkNext a => exact Or.inr (h.step_leave (by simp [hpc]) hstep)
  | retvalStart => exact Or.inr (h.step_retval (by simp [hpc]) hstep)
  | retval prev ptr => exact Or.inr (h.step_retval (by simp [hpc]) hstep)
  | retvalTake prev a => exact Or.inr (h.step_retval (by simp [hpc]) hstep)
  | retvalUnlink prev a => exact Or.inr (h.step_retval (by simp [hpc]) hstep)
  | retvalFree a => exact Or.inr (h.step_retval (by simp [hpc]) hstep)
  | retvalNext a => exact Or.inr (h.step_retval (by simp [hpc]) hstep)
  | return_ =>
    simp only [Join.step, hpc, Option.some.injEq, Prod.mk.injEq] at hstep
    exact Or.inl ⟨hstep.2.symm, h.past (by rw [hpc]; rfl)⟩

end SimpleOs.Threads
