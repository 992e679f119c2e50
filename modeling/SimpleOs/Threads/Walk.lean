import SimpleOs.Threads.Returns

/-!
# A joiner on its way to the return value

Each step of `my_pthread_join` keeps what is known of the call: a search for a target
that is in a queue finds it, and the walk along the list of return values passes only
values of other threads.
-/

namespace SimpleOs.Threads

open LinkedList

variable {s s' : Library} {d : Delivery} {j j' : Join} {l : List Addr} {live : Bool}

/-! ## The steps before the walk -/

/-- A step that neither searches nor frees nor walks. -/
theorem Join.Sound.goto (h : j.Sound d s l live) (pc : JoinPc) (hblocks : SameBlocks s s' none)
    (hearly : pc.early = true → j.pc.early = true)
    (hpast : live = true → pc.past = true → j.pc.past = true ∨ d.Woke j.thread)
    (hmid : pc.midScan = false) (hwalk : pc.walking = false) (hfinished : pc.finished = false) :
    (j.goto pc).Sound d s' l live := by
  refine ⟨fun he => h.early (hearly he), fun hf => ?_, fun hl hp => ?_, fun _ hscan => ?_,
    Join.walk_of_not_walking hwalk, fun _ hf => absurd hf (by simp [hfinished])⟩
  · obtain ⟨b, hb, hthread⟩ := h.own hf
    obtain ⟨b', hb', hsame⟩ := hblocks.after hb (by simp)
    exact ⟨b', hb', hsame.trans hthread⟩
  · exact (hpast hl hp).elim (h.past hl) id
  · exact absurd hscan.2 (by simp [hmid])

/-- The step that frees the block keeps the call sound. -/
theorem Join.Sound.free (h : j.Sound d s l live) (pc : JoinPc) (hearly : pc.early = false)
    (hpast : j.pc.past = true) (hmid : pc.midScan = false) (hwalk : pc.walking = false)
    (hfinished : pc.finished = false) :
    Join.Sound d s' l live { j with freed := true, pc := pc } := by
  refine ⟨fun he => absurd he (by simp [hearly]), fun hf => absurd hf (by simp),
    fun hl _ => h.past hl hpast, fun _ hscan => absurd hscan.2 (by simp [hmid]),
    Join.walk_of_not_walking hwalk, fun _ hf => absurd hf (by simp [hfinished])⟩

/-- The call after a step, with the list of return values as it was. -/
structure Join.Onward (s s' : Library) (j j' : Join) : Prop extends j.Succ j' where
  /-- Whether the value is asked for. -/
  value_ptr : j'.value_ptr = j.value_ptr
  /-- Nothing has been taken out of the list. -/
  taken : j'.pc.taken = none
  /-- The blocks of return values are the same. -/
  retval_block : s'.retval_block = s.retval_block
  /-- The list of return values. -/
  retval_LL : s'.retval_LL = s.retval_LL

/-- The steps that take nothing out of the list of return values. -/
theorem Join.step_onward {garbage : Option Addr} {next : Option Join}
    (hpc : ∀ prev1 ptr1, j.pc ≠ .retvalUnlink prev1 ptr1) (hfinished : j.pc.finished = false)
    (hstep : j.step s garbage = some (s', next)) : ∃ j', next = some j' ∧ j.Onward s s' j' := by
  have hgoto (pc : JoinPc) (htaken : pc.taken = none) : j.Onward s s (j.goto pc) :=
    ⟨j.succ_goto pc, rfl, htaken, rfl, rfl⟩
  have hkeep {i : Join} (hi : j.Onward s s i) (heq : some (s, some i) = some (s', next)) :
      ∃ j', next = some j' ∧ j.Onward s s' j' := by
    obtain ⟨rfl, rfl⟩ := Prod.mk.inj (Option.some.inj heq)
    exact ⟨i, rfl, hi⟩
  have hmap {A : Type} {x : Option A} {f : A → Join} (hf : ∀ a, j.Onward s s (f a))
      (heq : x.map (fun a => (s, some (f a))) = some (s', next)) :
      ∃ j', next = some j' ∧ j.Onward s s' j' := by
    obtain ⟨a, _, heq⟩ := Option.map_eq_some_iff.mp heq
    exact hkeep (hf a) (congrArg some heq)
  have hset {a : Addr} {link : Option Addr} {pc : JoinPc} (htaken : pc.taken = none)
      (heq : (s.setJoinNext a link).map (fun s => (s, some (j.goto pc))) = some (s', next)) :
      ∃ j', next = some j' ∧ j.Onward s s' j' := by
    obtain ⟨s₁, hs₁, heq⟩ := Option.map_eq_some_iff.mp heq
    obtain ⟨rfl, rfl⟩ := Prod.mk.inj heq
    obtain ⟨b, _, rfl⟩ := Option.map_eq_some_iff.mp hs₁
    exact ⟨_, rfl, j.succ_goto pc, rfl, htaken, rfl, rfl⟩
  have hfree {pc : JoinPc} (htaken : pc.taken = none)
      (heq : (s.freeJoin j.block).map (fun s => (s, some { j with freed := true, pc := pc })) =
        some (s', next)) : ∃ j', next = some j' ∧ j.Onward s s' j' := by
    obtain ⟨s₁, hs₁, heq⟩ := Option.map_eq_some_iff.mp heq
    obtain ⟨rfl, rfl⟩ := Prod.mk.inj heq
    obtain ⟨b, _, rfl⟩ := Option.map_eq_some_iff.mp hs₁
    exact ⟨_, rfl, ⟨rfl, rfl, rfl, fun hf => absurd hf (by simp)⟩, rfl, htaken, rfl, rfl⟩
  cases hpc' : j.pc <;> simp only [Join.step, hpc'] at hstep
  case insertTest => exact hkeep (hgoto _ (by split <;> rfl)) hstep
  case insertFirst =>
    obtain ⟨rfl, rfl⟩ := Prod.mk.inj (Option.some.inj hstep)
    exact ⟨_, rfl, j.succ_goto _, rfl, rfl, rfl, rfl⟩
  case insertFirstNext => exact hset rfl hstep
  case insertNext => exact hset rfl hstep
  case insertHead =>
    obtain ⟨rfl, rfl⟩ := Prod.mk.inj (Option.some.inj hstep)
    exact ⟨_, rfl, j.succ_goto _, rfl, rfl, rfl, rfl⟩
  case scanStart k => exact hkeep (hgoto _ rfl) hstep
  case scan k temp =>
    have hafter : (j.afterScan k).taken = none := by
      unfold Join.afterScan
      split
      · rfl
      · split <;> rfl
    cases temp with
    | none => exact hkeep (hgoto _ hafter) (by simpa using hstep)
    | some a =>
      cases hfound : j.foundT with
      | true => exact hkeep (hgoto _ hafter) (by simpa [hfound] using hstep)
      | false =>
        simp only [hfound] at hstep
        refine hmap (fun n => ?_) hstep
        exact ⟨⟨rfl, rfl, rfl, id⟩, rfl, rfl, rfl, rfl⟩
  case scanNext k a => exact hkeep (hgoto _ rfl) hstep
  case waitTest => exact hmap (fun b => hgoto _ (by split <;> rfl)) hstep
  case waitYield => exact absurd hstep (by simp)
  case unlinkStart => exact hkeep (hgoto _ (by split <;> rfl)) hstep
  case unlinkHead =>
    obtain ⟨rfl, rfl⟩ := Prod.mk.inj (Option.some.inj hstep)
    exact ⟨_, rfl, j.succ_goto _, rfl, rfl, rfl, rfl⟩
  case unlinkHeadFree => exact hfree rfl hstep
  case unlink prev ptr =>
    cases ptr with
    | none => exact hkeep (hgoto _ rfl) hstep
    | some a => exact hkeep (hgoto _ (by split <;> rfl)) hstep
  case unlinkStore prev =>
    obtain ⟨p, _, hstep⟩ := Option.bind_eq_some_iff.mp hstep
    exact hset rfl hstep
  case unlinkFree => exact hfree rfl hstep
  case unlinkNext a => exact hkeep (hgoto _ rfl) hstep
  case retvalStart => exact hkeep (hgoto _ (by split <;> rfl)) hstep
  case retval prev ptr =>
    cases ptr with
    | none => exact hkeep (hgoto _ rfl) hstep
    | some a => exact hmap (fun b => hgoto _ (by split <;> rfl)) hstep
  case retvalTake prev a =>
    refine hmap (fun b => ?_) hstep
    exact ⟨⟨rfl, rfl, rfl, id⟩, rfl, rfl, rfl, rfl⟩
  case retvalUnlink prev a => exact absurd hpc' (hpc prev a)
  case retvalFree a => exact absurd hfinished (by simp [hpc', JoinPc.finished])
  case retvalNext a => exact hmap (fun b => hgoto _ rfl) hstep
  case return_ => exact absurd hfinished (by simp [hpc', JoinPc.finished])

/-- The steps before the search, and the first one of the wait. -/
theorem Join.Sound.step_enter {garbage : Option Addr}
    (hpc : j.pc = .insertTest ∨ j.pc = .insertFirst ∨ j.pc = .insertFirstNext ∨
      j.pc = .insertNext ∨ j.pc = .insertHead ∨ j.pc = .waitTest)
    (hdone : ∀ b blk, s.join_block b = some blk → blk.done = true → d.Woke blk.thread_waiting_for)
    (h : j.Sound d s l live) (hstep : j.step s garbage = some (s', some j')) :
    j'.Sound d s' l live := by
  obtain ⟨_, hsame⟩ := Join.step_same hstep
  rcases hpc with hpc | hpc | hpc | hpc | hpc | hpc <;>
    simp only [Join.step, hpc] at hstep <;> simp only [Join.freedNow, hpc] at hsame
  · obtain ⟨rfl, hj⟩ := Prod.mk.inj (Option.some.inj hstep)
    rw [← Option.some.inj hj]
    apply h.goto _ hsame
    · exact fun _ => by rw [hpc]; rfl
    all_goals split <;> simp [JoinPc.past, JoinPc.early, JoinPc.midScan, JoinPc.walking,
      JoinPc.finished]
  · obtain ⟨rfl, hj⟩ := Prod.mk.inj (Option.some.inj hstep)
    rw [← Option.some.inj hj]
    apply h.goto _ hsame <;> simp [hpc, JoinPc.past, JoinPc.early, JoinPc.midScan, JoinPc.walking,
      JoinPc.finished]
  · obtain ⟨s₁, _, heq⟩ := Option.map_eq_some_iff.mp hstep
    obtain ⟨rfl, hj⟩ := Prod.mk.inj heq
    rw [← Option.some.inj hj]
    apply h.goto _ hsame <;> simp [hpc, JoinPc.past, JoinPc.early, JoinPc.midScan, JoinPc.walking,
      JoinPc.finished]
  · obtain ⟨s₁, _, heq⟩ := Option.map_eq_some_iff.mp hstep
    obtain ⟨rfl, hj⟩ := Prod.mk.inj heq
    rw [← Option.some.inj hj]
    apply h.goto _ hsame <;> simp [hpc, JoinPc.past, JoinPc.early, JoinPc.midScan, JoinPc.walking,
      JoinPc.finished]
  · obtain ⟨rfl, hj⟩ := Prod.mk.inj (Option.some.inj hstep)
    rw [← Option.some.inj hj]
    apply h.goto _ hsame <;> simp [hpc, JoinPc.past, JoinPc.early, JoinPc.midScan, JoinPc.walking,
      JoinPc.finished]
  · obtain ⟨b, hb, heq⟩ := Option.map_eq_some_iff.mp hstep
    obtain ⟨rfl, hj⟩ := Prod.mk.inj heq
    rw [← Option.some.inj hj]
    apply h.goto _ hsame
    · exact fun _ => by rw [hpc]; rfl
    · intro _ hpast
      split at hpast
      · rename_i hset
        obtain ⟨b', hb', hthread⟩ := h.own (h.early (by rw [hpc]; rfl))
        obtain rfl := Option.some.inj (hb.symm.trans hb')
        exact Or.inr (hthread ▸ hdone _ b hb hset)
      · simp [JoinPc.past, JoinPc.early] at hpast
    all_goals split <;> simp [JoinPc.midScan, JoinPc.walking, JoinPc.finished]

/-- A step of the search for the target keeps the call sound. -/
theorem Join.Sound.scan (h : j.Sound d s l live) (hsucc : j.Succ j')
    (hfreed : j'.freed = j.freed) (hearly : j.pc.early = true)
    (hpast : live = true → j'.pc.past = true → d.Woke j.thread)
    (hfinds : live = true → j'.Scanning → d.Woke j.thread ∨ j'.Finds s.queues)
    (hwalk : j'.pc.walking = false) (hfinished : j'.pc.finished = false) :
    j'.Sound d s l live := by
  refine ⟨fun _ => hfreed.trans (h.early hearly), fun hf => ?_, fun hl hp => ?_, fun hl hscan => ?_,
    Join.walk_of_not_walking hwalk, fun _ hf => absurd hf (by simp [hfinished])⟩
  · rw [hsucc.thread, hsucc.block]
    exact h.own (hfreed ▸ hf)
  · rw [hsucc.thread]
    exact hpast hl hp
  · rw [hsucc.thread]
    exact hfinds hl hscan

/-- The end of the search of a queue. -/
theorem Join.Sound.afterScan {k : Fin 4} {temp : Option Addr} (h : j.Sound d s l live)
    (hpc : j.pc = .scan k temp) (hend : j.foundT = false → temp = none) :
    (j.goto (j.afterScan k)).Sound d s l live := by
  have hearly : j.pc.early = true := by rw [hpc]; rfl
  have hmid : j.pc.midScan = true := by rw [hpc]; rfl
  have hleft (hl : live = true) (hfound : j.foundT = false) :
      d.Woke j.thread ∨ ∃ i, k < i ∧ s.queues.Ahead j.thread (scanHead s.queues i) := by
    have hfinds := h.finds hl ⟨hfound, hmid⟩
    simp only [Join.Finds, hpc, hend hfound, Queues.not_ahead_none, false_or] at hfinds
    exact hfinds
  refine h.scan (j.succ_goto _) rfl hearly ?_ ?_ ?_ ?_ <;> unfold Join.afterScan <;> split
  · intro _ hpast
    simp [JoinPc.past, JoinPc.early] at hpast
  · rename_i hlast
    obtain rfl : k = 3 := by simpa using hlast
    intro hl hpast
    split at hpast
    · simp [JoinPc.past, JoinPc.early] at hpast
    · rename_i hfound
      rcases hleft hl (by simpa using hfound) with hwoke | ⟨i, hi, _⟩
      · exact hwoke
      · exact absurd hi (not_lt.mpr (Fin.le_last i))
  · rename_i hnotLast
    intro hl hscan
    refine (hleft hl hscan.1).imp_right fun hlater => ?_
    obtain ⟨i, hi, hahead⟩ := hlater
    refine ⟨i, ?_, hahead⟩
    revert hi hnotLast
    fin_cases k <;> fin_cases i <;> simp
  · intro _ hscan
    split at hscan <;> exact absurd hscan.2 (by simp [JoinPc.midScan])
  · rfl
  · split <;> rfl
  · rfl
  · split <;> rfl

/-- The steps that look for the target. A search that starts at the first queue finds
the target there, or the target has exited. -/
theorem Join.Sound.step_scan {garbage : Option Addr}
    (hpc : (∃ k, j.pc = .scanStart k) ∨ (∃ k temp, j.pc = .scan k temp) ∨
      ∃ k a, j.pc = .scanNext k a)
    (h : j.Sound d s l live)
    (hstart : live = true → j.pc = .scanStart 0 → d.Woke j.thread ∨ s.queues.InQueues j.thread)
    (hstep : j.step s garbage = some (s', some j')) : j'.Sound d s' l live := by
  rcases hpc with ⟨k, hpc⟩ | ⟨k, temp, hpc⟩ | ⟨k, a, hpc⟩
  · simp only [Join.step, hpc] at hstep
    obtain ⟨rfl, hj⟩ := Prod.mk.inj (Option.some.inj hstep)
    rw [← Option.some.inj hj]
    refine h.scan (j.succ_goto _) rfl (by rw [hpc]; rfl) ?_ ?_ rfl rfl
    · intro _ hpast
      simp [JoinPc.past, JoinPc.early] at hpast
    · intro hl hscan
      have hahead : d.Woke j.thread ∨
          ∃ i, k ≤ i ∧ s.queues.Ahead j.thread (scanHead s.queues i) := by
        by_cases hzero : k = 0
        · subst hzero
          refine (hstart hl hpc).imp_right fun hqueue => ?_
          obtain ⟨i, hi⟩ := hqueue
          exact ⟨i, Fin.zero_le i, hi⟩
        · have hfinds := h.finds hl ⟨hscan.1, by simp [hpc, JoinPc.midScan, hzero]⟩
          simp only [Join.Finds, hpc] at hfinds
          exact hfinds
      refine hahead.imp_right fun hlater => ?_
      obtain ⟨i, hi, hahead⟩ := hlater
      rcases eq_or_lt_of_le hi with rfl | hlt
      · exact Or.inl hahead
      · exact Or.inr ⟨i, hlt, hahead⟩
  · obtain ⟨rfl, ⟨hend, hj⟩ | ⟨a, n, rfl, hfound, hn, hj⟩⟩ := Join.scan_cases hpc hstep
    · rw [Option.some.inj hj]
      exact h.afterScan hpc hend
    · rw [Option.some.inj hj]
      refine h.scan ⟨rfl, rfl, rfl, id⟩ rfl (by rw [hpc]; rfl) ?_ ?_ rfl rfl
      · intro _ hpast
        simp [JoinPc.past, JoinPc.early] at hpast
      · intro hl hscan
        have hne : j.thread ≠ n.thread_id := by simpa using hscan.1
        have hfinds := h.finds hl ⟨hfound, by rw [hpc]; rfl⟩
        simp only [Join.Finds, hpc] at hfinds
        refine hfinds.imp_right fun hfinds => hfinds.imp_left fun hahead _ => ?_
        simp only [Queues.nextOf, hn]
        exact hahead.next hn hne
  · simp only [Join.step, hpc] at hstep
    obtain ⟨rfl, hj⟩ := Prod.mk.inj (Option.some.inj hstep)
    rw [← Option.some.inj hj]
    refine h.scan (j.succ_goto _) rfl (by rw [hpc]; rfl) ?_ ?_ rfl rfl
    · intro _ hpast
      simp [JoinPc.past, JoinPc.early] at hpast
    · intro hl hscan
      have hfinds := h.finds hl ⟨hscan.1, by rw [hpc]; rfl⟩
      simp only [Join.Finds, hpc] at hfinds
      exact hfinds.imp_right fun hfinds => hfinds.imp_left fun hahead => hahead garbage

/-- The steps that take the block out of the list of joiners. -/
theorem Join.Sound.step_leave {garbage : Option Addr}
    (hpc : j.pc = .unlinkStart ∨ j.pc = .unlinkHead ∨ j.pc = .unlinkHeadFree ∨
      (∃ prev ptr, j.pc = .unlink prev ptr) ∨ (∃ prev, j.pc = .unlinkStore prev) ∨
      j.pc = .unlinkFree ∨ ∃ a, j.pc = .unlinkNext a)
    (h : j.Sound d s l live) (hstep : j.step s garbage = some (s', some j')) :
    j'.Sound d s' l live := by
  obtain ⟨_, hsame⟩ := Join.step_same hstep
  rcases hpc with hpc | hpc | hpc | ⟨prev, ptr, hpc⟩ | ⟨prev, hpc⟩ | hpc | ⟨a, hpc⟩ <;>
    simp only [Join.step, hpc] at hstep <;> simp only [Join.freedNow, hpc] at hsame <;>
    have hpast : j.pc.past = true := by rw [hpc]; rfl
  · obtain ⟨rfl, hj⟩ := Prod.mk.inj (Option.some.inj hstep)
    rw [← Option.some.inj hj]
    apply h.goto _ hsame (fun _ => by rw [hpc]; rfl) (fun _ _ => Or.inl hpast) <;> split <;> rfl
  · obtain ⟨rfl, hj⟩ := Prod.mk.inj (Option.some.inj hstep)
    rw [← Option.some.inj hj]
    exact h.goto _ hsame (fun _ => by rw [hpc]; rfl) (fun _ _ => Or.inl hpast) rfl rfl rfl
  · obtain ⟨s₁, _, heq⟩ := Option.map_eq_some_iff.mp hstep
    obtain ⟨rfl, hj⟩ := Prod.mk.inj heq
    rw [← Option.some.inj hj]
    exact h.free _ rfl hpast rfl rfl rfl
  · cases ptr with
    | none =>
      obtain ⟨rfl, hj⟩ := Prod.mk.inj (Option.some.inj hstep)
      rw [← Option.some.inj hj]
      exact h.goto _ hsame (fun he => absurd he (by simp [JoinPc.early]))
        (fun _ _ => Or.inl hpast) rfl rfl rfl
    | some a =>
      obtain ⟨rfl, hj⟩ := Prod.mk.inj (Option.some.inj hstep)
      rw [← Option.some.inj hj]
      apply h.goto _ hsame _ (fun _ _ => Or.inl hpast) <;> split <;>
        simp [JoinPc.early, JoinPc.midScan, JoinPc.walking, JoinPc.finished]
  · obtain ⟨p, _, hstep⟩ := Option.bind_eq_some_iff.mp hstep
    obtain ⟨s₁, _, heq⟩ := Option.map_eq_some_iff.mp hstep
    obtain ⟨rfl, hj⟩ := Prod.mk.inj heq
    rw [← Option.some.inj hj]
    exact h.goto _ hsame (fun he => absurd he (by simp [JoinPc.early]))
      (fun _ _ => Or.inl hpast) rfl rfl rfl
  · obtain ⟨s₁, _, heq⟩ := Option.map_eq_some_iff.mp hstep
    obtain ⟨rfl, hj⟩ := Prod.mk.inj heq
    rw [← Option.some.inj hj]
    exact h.free _ rfl hpast rfl rfl rfl
  · obtain ⟨rfl, hj⟩ := Prod.mk.inj (Option.some.inj hstep)
    rw [← Option.some.inj hj]
    exact h.goto _ hsame (fun he => absurd he (by simp [JoinPc.early]))
      (fun _ _ => Or.inl hpast) rfl rfl rfl

/-! ## The walk -/

/-- A thread whose value is not on a list has no block on it. -/
theorem Library.not_listed_append {t : ℕ} {a : Addr} {b : RetvalBlock} (h : ¬ s.Listed l t)
    (hb : s.retval_block a = some b) (hne : b.thread_id ≠ t) : ¬ s.Listed (l ++ [a]) t := by
  rintro ⟨x, hx, c, hc, ht⟩
  rcases List.mem_append.mp hx with hx | hx
  · exact h ⟨x, hx, c, hc, ht⟩
  · obtain rfl := List.mem_singleton.mp hx
    obtain rfl := Option.some.inj (hb.symm.trans hc)
    exact hne ht

/-- A step of the walk, past the wait. -/
theorem Join.Sound.walking (h : j.Sound d s l live) (hpast : j.pc.past = true) (hsucc : j.Succ j')
    (hfreed : j'.freed = j.freed) (hearly : j'.pc.early = false) (hmid : j'.pc.midScan = false)
    (hwalk : j'.Walk s l)
    (hright : live = true → j'.pc.finished = true → d.Right j'.thread j'.value_ptr j'.result) :
    j'.Sound d s l live := by
  refine ⟨fun he => absurd he (by simp [hearly]), fun hf => ?_, fun hl _ => ?_,
    fun _ hscan => absurd hscan.2 (by simp [hmid]), hwalk, hright⟩
  · rw [hsucc.thread, hsucc.block]
    exact h.own (hfreed ▸ hf)
  · rw [hsucc.thread]
    exact h.past hl hpast

/-- The steps of the walk. A walk that comes to the end has missed nothing. -/
theorem Join.Sound.step_walk {garbage : Option Addr}
    (hpc : j.pc = .retvalStart ∨ (∃ prev1 ptr1, j.pc = .retval prev1 ptr1) ∨
      (∃ prev1 a, j.pc = .retvalTake prev1 a) ∨ ∃ a, j.pc = .retvalNext a)
    (h : j.Sound d s l live) (hlist : s.Returns l)
    (hend : live = true → j.value_ptr = true → ¬ s.Listed l j.thread →
      d.joins.count j.thread ≤ 1 → ∀ v, (j.thread, v) ∈ d.exits → v = 0)
    (hstep : j.step s garbage = some (s', some j')) : j'.Sound d s' l live := by
  have hkeep {pc : JoinPc} {x : Option ℕ} (heq : (s, some { j with result := x, pc := pc }) =
      (s', some j')) : s = s' ∧ j' = { j with result := x, pc := pc } :=
    ⟨(Prod.mk.inj heq).1, (Option.some.inj (Prod.mk.inj heq).2).symm⟩
  have hsucc (x : Option ℕ) (pc : JoinPc) : j.Succ { j with result := x, pc := pc } :=
    ⟨rfl, rfl, rfl, id⟩
  rcases hpc with hpc | ⟨prev, ptr, hpc⟩ | ⟨prev, a, hpc⟩ | ⟨a, hpc⟩ <;>
    simp only [Join.step, hpc] at hstep <;>
    have hpast : j.pc.past = true := by rw [hpc]; rfl
  · obtain ⟨rfl, rfl⟩ := hkeep (Option.some.inj hstep)
    refine h.walking hpast (hsucc _ _) rfl ?_ ?_ ?_ fun hl hf => ?_
    · split <;> rfl
    · split <;> rfl
    · unfold Join.Walk
      cases hvalue : j.value_ptr with
      | true =>
        refine ⟨rfl, [], l, rfl, rfl, hlist, ?_⟩
        rintro ⟨x, hx, _⟩
        exact absurd hx (by simp)
      | false => trivial
    · cases hvalue : j.value_ptr with
      | true => simp [hvalue, JoinPc.finished] at hf
      | false => exact ⟨h.past hl hpast, fun hv => absurd hv (by simp)⟩
  · have hwalk := h.walk
    simp only [Join.Walk, hpc] at hwalk
    obtain ⟨hvalue, l₁, l₂, rfl, hprev, hl₂, hnot⟩ := hwalk
    cases ptr with
    | none =>
      obtain ⟨rfl, rfl⟩ := hkeep (Option.some.inj hstep)
      refine h.walking hpast (hsucc _ _) rfl rfl rfl trivial fun hl _ => ?_
      refine ⟨h.past hl hpast, fun _ hcount v hv hne => ?_⟩
      have hempty : l₂ = [] := by
        cases l₂ with
        | nil => rfl
        | cons x l₂ => exact absurd hl₂.1 (by simp)
      rw [hempty, List.append_nil] at hend
      exact absurd (hend hl hvalue hnot hcount v hv) hne
    | some a =>
      obtain ⟨b, hb, heq⟩ := Option.map_eq_some_iff.mp hstep
      obtain ⟨rfl, rfl⟩ := hkeep heq
      obtain ⟨l₂, rfl⟩ : ∃ l, l₂ = a :: l := by
        cases l₂ with
        | nil => exact absurd hl₂ (by simp)
        | cons x l₂ =>
          obtain rfl := Option.some.inj hl₂.1
          exact ⟨l₂, rfl⟩
      refine h.walking hpast (hsucc _ _) rfl ?_ ?_ ?_ fun _ hf => ?_
      · split <;> rfl
      · split <;> rfl
      · unfold Join.Walk
        by_cases hid : b.thread_id = j.thread
        · simp only [hid, if_true]
          exact ⟨hvalue, l₁, l₂, rfl, hprev, b, hb, hid⟩
        · simp only [hid, if_false]
          exact ⟨hvalue, l₁, l₂, rfl, Library.not_listed_append hnot hb hid⟩
      · split at hf <;> exact absurd hf (by simp [JoinPc.finished])
  · have hwalk := h.walk
    simp only [Join.Walk, hpc] at hwalk
    obtain ⟨hvalue, l₁, l₂, rfl, hprev, b, hb, hid⟩ := hwalk
    obtain ⟨b', hb', heq⟩ := Option.map_eq_some_iff.mp hstep
    obtain ⟨rfl, rfl⟩ := hkeep heq
    obtain rfl := Option.some.inj (hb.symm.trans hb')
    refine h.walking hpast (hsucc _ _) rfl rfl rfl ?_
      fun _ hf => absurd hf (by simp [JoinPc.finished])
    exact ⟨hvalue, l₁, l₂, rfl, hprev, b, hb, hid, rfl⟩
  · have hwalk := h.walk
    simp only [Join.Walk, hpc] at hwalk
    obtain ⟨hvalue, l₁, l₂, rfl, hnot⟩ := hwalk
    obtain ⟨b, hb, heq⟩ := Option.map_eq_some_iff.mp hstep
    obtain ⟨rfl, rfl⟩ := hkeep heq
    refine h.walking hpast (hsucc _ _) rfl rfl rfl ?_
      fun _ hf => absurd hf (by simp [JoinPc.finished])
    obtain ⟨_, _, _, next, hnext, hl₂⟩ := segment_append.mp hlist
    simp only [Library.retvalLink, hb, Option.map_some, Option.some.injEq] at hnext
    exact ⟨hvalue, l₁ ++ [a], l₂, by simp, by simp, hnext ▸ hl₂, hnot⟩

/-- The step that takes a return value out of the list. -/
theorem Join.Sound.step_unlink {garbage : Option Addr} {next : Option Join} {prev1 : Option Addr}
    {a : Addr} (h : j.Sound d s l live) (hpc : j.pc = .retvalUnlink prev1 a) (hlist : s.Returns l)
    (hlisted : ∀ x ∈ l, ∀ b, s.retval_block x = some b → b.entry ∈ d.exits)
    (honce : ∀ t v w, (t, v) ∈ d.exits → (t, w) ∈ d.exits → v = w)
    (hstep : j.step s garbage = some (s', next)) :
    next = some (j.goto (.retvalFree a)) ∧ j.value_ptr = true ∧
      (∃ b, s.retval_block a = some b ∧ b.thread_id = j.thread) ∧
      ∃ l₁ l₂, l = l₁ ++ a :: l₂ ∧ s'.Returns (l₁ ++ l₂) ∧
        (j.goto (.retvalFree a)).Sound d s' (l₁ ++ l₂) live ∧
        (∀ x, (s'.retval_block x).map RetvalBlock.entry =
          (s.retval_block x).map RetvalBlock.entry) ∧
        ∀ x, x ∉ l → s'.retval_block x = s.retval_block x := by
  obtain ⟨_, hsame⟩ := Join.step_same hstep
  have hpast : j.pc.past = true := by rw [hpc]; rfl
  have hwalk := h.walk
  simp only [Join.Walk, hpc] at hwalk
  simp only [Join.freedNow, hpc] at hsame
  simp only [Join.step, hpc] at hstep
  obtain ⟨hvalue, l₁, l₂, rfl, hprev, b, hb, hid, hresult⟩ := hwalk
  obtain ⟨b', hb', hstep⟩ := Option.bind_eq_some_iff.mp hstep
  obtain rfl := Option.some.inj (hb.symm.trans hb')
  have hlink : s.retvalLink a = some b.next := by simp [Library.retvalLink, hb]
  have hsound : (j.goto (.retvalFree a)).Sound d s' (l₁ ++ l₂) live := by
    refine ⟨fun he => absurd he (by simp [JoinPc.early]), fun hf => ?_, fun hl _ => h.past hl hpast,
      fun _ hscan => absurd hscan.2 (by simp [JoinPc.midScan]), trivial, fun hl _ => ?_⟩
    · obtain ⟨blk, hblk, hthread⟩ := h.own hf
      obtain ⟨blk', hblk', hkept⟩ := hsame.after hblk (by simp)
      exact ⟨blk', hblk', hkept.trans hthread⟩
    · refine ⟨h.past hl hpast, fun _ _ v hv _ => ?_⟩
      have hentry := hlisted a (by simp) b hb
      rw [RetvalBlock.entry, hid] at hentry
      rw [← honce _ _ _ hentry hv]
      exact hresult
  refine ⟨?_, hvalue, ⟨b, hb, hid⟩, l₁, l₂, rfl, ?_, hsound, ?_⟩
  · cases prev1 with
    | none => exact (Prod.mk.inj (Option.some.inj hstep)).2.symm
    | some p =>
      obtain ⟨s₁, _, heq⟩ := Option.map_eq_some_iff.mp hstep
      exact (Prod.mk.inj heq).2.symm
  · rcases List.eq_nil_or_concat' l₁ with rfl | ⟨l₀, p, rfl⟩
    · obtain rfl : prev1 = none := hprev
      obtain ⟨rfl, _⟩ := Prod.mk.inj (Option.some.inj hstep)
      obtain ⟨_, next, hnext, hl₂⟩ := hlist
      obtain rfl := Option.some.inj (hlink.symm.trans hnext)
      exact hl₂
    · obtain rfl : prev1 = some p := by simpa using hprev
      obtain ⟨s₁, hset, heq⟩ := Option.map_eq_some_iff.mp hstep
      obtain ⟨rfl, _⟩ := Prod.mk.inj heq
      obtain ⟨hlinks, hhead, _⟩ := setRetvalNext_link hset
      unfold Library.Returns at hlist ⊢
      rw [hlinks, hhead]
      simp only [List.append_assoc, List.singleton_append] at hlist ⊢
      exact hlist.skip hlink
  · cases prev1 with
    | none =>
      obtain ⟨rfl, _⟩ := Prod.mk.inj (Option.some.inj hstep)
      exact ⟨fun _ => rfl, fun _ _ => rfl⟩
    | some p =>
      obtain ⟨s₁, hset, heq⟩ := Option.map_eq_some_iff.mp hstep
      obtain ⟨rfl, _⟩ := Prod.mk.inj heq
      obtain ⟨_, _, hentry, hother⟩ := setRetvalNext_link hset
      refine ⟨hentry, fun x hx => hother x ?_⟩
      rintro rfl
      have hmem : x ∈ l₁ := List.mem_of_getLast? hprev.symm
      exact hx (List.mem_append_left _ hmem)

/-- The step that frees a return value. -/
theorem Join.Sound.step_finish {garbage : Option Addr} {next : Option Join} {a : Addr}
    (h : j.Sound d s l live) (hpc : j.pc = .retvalFree a)
    (hstep : j.step s garbage = some (s', next)) :
    next = some (j.goto .return_) ∧ (j.goto .return_).Sound d s' l live ∧
      s'.retval_LL = s.retval_LL ∧ s'.retval_block = Function.update s.retval_block a none := by
  simp only [Join.step, hpc] at hstep
  obtain ⟨b, _, heq⟩ := Option.map_eq_some_iff.mp hstep
  obtain ⟨rfl, rfl⟩ := Prod.mk.inj heq
  refine ⟨rfl, ⟨fun he => absurd he (by simp [JoinPc.early]), h.own, fun hl _ => ?_,
    fun _ hscan => absurd hscan.2 (by simp [JoinPc.midScan]), trivial, fun hl _ => ?_⟩, rfl, rfl⟩
  · exact h.past hl (by rw [hpc]; rfl)
  · exact h.right hl (by rw [hpc]; rfl)

end SimpleOs.Threads
