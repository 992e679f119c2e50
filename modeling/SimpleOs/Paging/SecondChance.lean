import SimpleOs.Paging.Eviction
import Mathlib.Algebra.Ring.Parity

/-!
# The turn of the clock hand

The positions of the clock hand are numbered from where it stands, and position
`i` shows frame `(hand + i) % 1600`. `evictPage` passes over a position of the
running thread unless it has just passed over the position before. The victim is
the first tested position whose frame is clear or has been tested before.
-/

namespace SimpleOs.Paging

variable {Page : Type*}

/-- The frame at position `i` from the clock hand. -/
def State.frameAt (s : State Page) (i : ℕ) : ℕ := (s.free_list_position + i) % frameCount

/-- The frame at position `i` belongs to the running thread. -/
def State.OwnAt (s : State Page) (i : ℕ) : Prop :=
  (s.table.frames (s.frameAt i)).threadid = s.currThread

instance (s : State Page) : DecidablePred s.OwnAt := fun _ => Nat.decEq _ _

/-- The number of positions of the running thread directly before position `i`. -/
def State.ownBefore (s : State Page) : ℕ → ℕ
  | 0 => 0
  | i + 1 => if s.OwnAt i then s.ownBefore i + 1 else 0

/-- Position `i` is tested. Of neighbouring positions of the running thread the
sweep passes over the first, tests the second, and so on. -/
def State.TestedAt (s : State Page) (i : ℕ) : Prop := s.OwnAt i → Odd (s.ownBefore i)

/-- The frame at position `i` is clear when the hand gets there. -/
def State.ClearAt (s : State Page) (i : ℕ) : Prop :=
  s.bits (s.frameAt i) = false ∨ ∃ j < i, s.TestedAt j ∧ s.frameAt j = s.frameAt i

/-- Every clear position of the running thread that is tested comes after a
clear position of another thread. Two turns of the hand are enough. -/
def State.Spares (s : State Page) : Prop :=
  ∀ i < 2 * frameCount, s.OwnAt i → s.TestedAt i → s.ClearAt i → ∃ j < i, ¬s.OwnAt j ∧ s.ClearAt j

/-- The position of test number `k`. -/
def State.testPosition (s : State Page) : ℕ → ℕ
  | 0 => if s.OwnAt 0 then 1 else 0
  | k + 1 => if s.OwnAt (s.testPosition k + 1) then s.testPosition k + 2 else s.testPosition k + 1

section Positions

variable {s : State Page}

/-- The hand moves to the frame at the next position. -/
theorem State.nextPosition_frameAt (s : State Page) (i : ℕ) :
    s.table.nextPosition (s.frameAt i) = s.frameAt (i + 1) := by
  simp only [Table.nextPosition_eq, frameAt, frameCount]
  split <;> omega

/-- Positions of one turn show different frames. -/
theorem State.frameAt_ne {i j : ℕ} (hij : i < j) (hj : j < frameCount) :
    s.frameAt i ≠ s.frameAt j := by
  simp only [frameAt, frameCount] at *
  omega

/-- Every frame is shown in the first turn. -/
theorem State.exists_frameAt (hhand : s.free_list_position < frameCount) {f : ℕ}
    (hf : f < frameCount) : ∃ i < frameCount, s.frameAt i = f := by
  refine ⟨(f + frameCount - s.free_list_position) % frameCount, Nat.mod_lt _ (by decide), ?_⟩
  simp only [frameAt, frameCount] at *
  omega

/-- The frame tested with the hand at position `i`. -/
theorem State.tested_frameAt (s : State Page) (i : ℕ) :
    s.tested (s.frameAt i) = s.frameAt (if s.OwnAt i then i + 1 else i) := by
  by_cases hown : s.OwnAt i
  · rw [if_pos hown, ← nextPosition_frameAt]
    exact if_pos hown
  · rw [if_neg hown]
    exact if_neg hown

theorem State.testedAt_zero : s.TestedAt 0 ↔ ¬s.OwnAt 0 := by
  simp [TestedAt, ownBefore]

/-- A position is passed over if it belongs to the running thread and the
position before it was tested. -/
theorem State.testedAt_succ (i : ℕ) :
    s.TestedAt (i + 1) ↔ (s.OwnAt (i + 1) → ¬s.TestedAt i) := by
  unfold TestedAt
  refine imp_congr_right fun _ => ?_
  by_cases hown : s.OwnAt i
  · simp [ownBefore, hown, Nat.odd_add_one]
  · simp [ownBefore, hown]

/-- The tests are made at tested positions. -/
theorem State.testedAt_testPosition (s : State Page) (k : ℕ) : s.TestedAt (s.testPosition k) := by
  induction k with
  | zero =>
    by_cases hown : s.OwnAt 0
    · rw [testPosition, if_pos hown, testedAt_succ, testedAt_zero]
      exact fun _ h => h hown
    · rwa [testPosition, if_neg hown, testedAt_zero]
  | succ k ih =>
    by_cases hown : s.OwnAt (s.testPosition k + 1)
    · rw [testPosition, if_pos hown, testedAt_succ, testedAt_succ]
      exact fun _ h => h hown ih
    · rw [testPosition, if_neg hown, testedAt_succ]
      exact fun h => (hown h).elim

/-- Every tested position is the position of a test. -/
theorem State.exists_testPosition {i : ℕ} (h : s.TestedAt i) : ∃ k, s.testPosition k = i := by
  induction i using Nat.strong_induction_on with
  | _ i ih =>
    rcases i with _ | i
    · exact ⟨0, if_neg (testedAt_zero.mp h)⟩
    by_cases hi : s.TestedAt i
    · obtain ⟨k, hk⟩ := ih i (by omega) hi
      have hown : ¬s.OwnAt (i + 1) := fun hown => (testedAt_succ i).mp h hown hi
      exact ⟨k + 1, by rw [testPosition, hk, if_neg hown]⟩
    -- Position `i` was passed over, so the position before it was tested.
    rcases i with _ | i
    · have hown : s.OwnAt 0 := not_not.mp fun hown => hi (testedAt_zero.mpr hown)
      exact ⟨0, if_pos hown⟩
    · rw [testedAt_succ, Classical.not_imp, not_not] at hi
      obtain ⟨k, hk⟩ := ih i (by omega) hi.2
      exact ⟨k + 1, by rw [testPosition, hk, if_pos hi.1]⟩

/-- Each test is at a later position than the one before. -/
theorem State.testPosition_strictMono (s : State Page) : StrictMono s.testPosition := by
  apply strictMono_nat_of_lt_succ
  intro k
  rw [testPosition]
  split <;> omega

/-- Test number `k` is made at the frame of its position. -/
theorem State.iterate_testedAfter (hhand : s.free_list_position < frameCount) (k : ℕ) :
    s.testedAfter^[k] s.skipOwn = s.frameAt (s.testPosition k) := by
  induction k with
  | zero =>
    have hzero : s.frameAt 0 = s.free_list_position := Nat.mod_eq_of_lt hhand
    have := s.tested_frameAt 0
    rwa [hzero] at this
  | succ k ih =>
    rw [Function.iterate_succ_apply', ih, testedAfter, nextPosition_frameAt, tested_frameAt,
      testPosition]

end Positions

/-- The sweep stops at position `i`: the first tested position that is clear. -/
structure State.StopsAt (s : State Page) (i : ℕ) : Prop where
  /-- The hand does not pass over the position. -/
  tested : s.TestedAt i
  /-- The reference bit of its frame is clear when the hand comes there. -/
  clear : s.ClearAt i
  /-- No position tested before it is clear. -/
  first : ∀ j < i, s.TestedAt j → ¬s.ClearAt j

/-- The victim stands at the stop of the sweep. -/
theorem State.IsVictim.exists_stopsAt {s : State Page} {e : ℕ}
    (hhand : s.free_list_position < frameCount) (h : s.IsVictim e) :
    ∃ i, s.StopsAt i ∧ e = s.frameAt i := by
  obtain ⟨k, hstop, rfl⟩ := h
  have hmono := s.testPosition_strictMono
  refine ⟨s.testPosition k, ⟨s.testedAt_testPosition k, ?_, ?_⟩, s.iterate_testedAfter hhand k⟩
  · rcases hstop.clear with hbit | ⟨j, hj, heq⟩
    · rw [iterate_testedAfter hhand] at hbit
      exact Or.inl hbit
    · rw [iterate_testedAfter hhand, iterate_testedAfter hhand] at heq
      exact Or.inr ⟨s.testPosition j, hmono hj, s.testedAt_testPosition j, heq⟩
  · intro i hi htested hclear
    obtain ⟨l, rfl⟩ := exists_testPosition htested
    have hl : l < k := hmono.lt_iff_lt.mp hi
    rcases hclear with hbit | ⟨j, hj, htested, heq⟩
    · have hset := hstop.set l hl
      rw [iterate_testedAfter hhand, hbit] at hset
      exact Bool.false_ne_true hset
    · obtain ⟨m, rfl⟩ := exists_testPosition htested
      apply hstop.ne l hl m (hmono.lt_iff_lt.mp hj)
      rw [iterate_testedAfter hhand, iterate_testedAfter hhand, heq]

/-- With a frame of another thread the sweep stops within two turns. -/
theorem State.StopsAt.lt {s : State Page} {i f : ℕ} (h : s.StopsAt i)
    (hhand : s.free_list_position < frameCount) (hf : f < frameCount)
    (hother : (s.table.frames f).threadid ≠ s.currThread) : i < 2 * frameCount := by
  obtain ⟨j, hj, rfl⟩ := exists_frameAt hhand hf
  have hagain : s.frameAt (j + frameCount) = s.frameAt j := by
    rw [frameAt, ← Nat.add_assoc, Nat.add_mod_right, frameAt]
  -- One turn after its test the frame is clear at the latest.
  have htested : s.TestedAt (j + frameCount) := by
    intro hown
    rw [OwnAt, hagain] at hown
    exact (hother hown).elim
  have hclear : s.ClearAt (j + frameCount) :=
    Or.inr ⟨j, by simp [frameCount], fun hown => (hother hown).elim, hagain.symm⟩
  have hle : i ≤ j + frameCount := by
    by_contra hlt
    exact h.first _ (by omega) htested hclear
  omega

/-- The result of `evictPage`: it ends with a frame below 1600, it changes only
the clock hand and the reference bits, which it only clears, and the victim's
bit is clear afterwards. If some frame of another thread was clear, the victim
was clear. -/
theorem evictPage_secondChance (s : State Page) (hhand : s.free_list_position < frameCount) :
    ∃ e < frameCount, ∃ bit, evictPage s = some (e, s.afterSweep e bit) ∧
      (∀ n, bit n = true → s.bits n = true) ∧ bit e = false ∧
      ((∃ f < frameCount, (s.table.frames f).threadid ≠ s.currThread ∧ s.bits f = false) →
        s.bits e = false) := by
  obtain ⟨e, he, s', hevict⟩ := evictPage_isSome s hhand
  obtain ⟨hvictim, bit, rfl, hbits, hclear⟩ := evictPage_eq_some hevict
  refine ⟨e, he, bit, hevict, hbits, hclear, ?_⟩
  rintro ⟨f, hf, hother, hfclear⟩
  obtain ⟨i, hstop, rfl⟩ := hvictim.exists_stopsAt hhand
  obtain ⟨j, hj, rfl⟩ := State.exists_frameAt hhand hf
  have hi : i ≤ j := by
    by_contra hlt
    exact hstop.first j (by omega) (fun hown => (hother hown).elim) (Or.inl hfclear)
  -- In the first turn no frame is met twice.
  rcases hstop.clear with hbit | ⟨l, hl, _, heq⟩
  · exact hbit
  · exact (State.frameAt_ne hl (by omega) heq).elim

/-- Thread 1 is running and has the frame under the clock hand. The next two frames belong to
thread 2, which has accessed the first of them. -/
def accessedNext : State ℕ :=
  { buildKernalSpace (fun _ => 0) ⟨fun _ => 0, 436⟩ (fun _ => 0) with
    table :=
      { frames := fun m => ⟨if m = 0 then 1 else if m < 3 then 2 else 0, m, -1, decide (m = 1)⟩
        slots := fun k => ⟨0, k, -1, false⟩
        frame_offset := fun _ => rfl
        slot_offset := free_offset } }

/-- The sweep passes over the frame of the running thread, gives the accessed frame a second
chance and returns the frame behind it, whose bit was clear. -/
theorem evictPage_secondChance_accessedNext :
    ∃ bit, evictPage accessedNext = some (2, accessedNext.afterSweep 2 bit) ∧
      accessedNext.bits 1 = true ∧ bit 1 = false ∧ accessedNext.bits 2 = false := by
  obtain ⟨e, he, bit, hevict, _, hclear, hchance⟩ :=
    evictPage_secondChance accessedNext (by decide)
  have hrun : (evictPage accessedNext).map
      (fun r => (r.1, (r.2.table.frames 1).reference_bit)) = some (2, false) := rfl
  rw [hevict, Option.map_some, Option.some.injEq, Prod.mk.injEq] at hrun
  obtain ⟨rfl, hbit⟩ := hrun
  exact ⟨bit, hevict, rfl, hbit, hchance ⟨2, by decide, by decide, rfl⟩⟩

/-- Thread 1 is running and holds the first `n` frames, the others are free and
every bit is clear. -/
def holdsFrames (n : ℕ) : State ℕ :=
  { buildKernalSpace (fun _ => 0) ⟨fun _ => 0, 436⟩ (fun _ => 0) with
    table :=
      { frames := fun m => ⟨if m < n then 1 else 0, m, -1, false⟩
        slots := fun k => ⟨0, k, -1, false⟩
        frame_offset := fun _ => rfl
        slot_offset := free_offset } }

/-- While another thread holds a frame, the victim belongs to another thread
exactly if no clear position of the running thread is tested before it. -/
theorem evictPage_spares_iff (s : State Page) (hhand : s.free_list_position < frameCount)
    (hother : ∃ f < frameCount, (s.table.frames f).threadid ≠ s.currThread) :
    (∃ e s', evictPage s = some (e, s') ∧ (s.table.frames e).threadid ≠ s.currThread) ↔
      s.Spares := by
  obtain ⟨f, hf, hother⟩ := hother
  obtain ⟨e, _, s', hevict⟩ := evictPage_isSome s hhand
  obtain ⟨i, hstop, he⟩ := (evictPage_eq_some hevict).1.exists_stopsAt hhand
  have hlt : i < 2 * frameCount := hstop.lt hhand hf hother
  have hown : (s.table.frames e).threadid ≠ s.currThread ↔ ¬s.OwnAt i := by
    rw [he, State.OwnAt]
  constructor
  · rintro ⟨e', s'', hevict', hne⟩
    obtain ⟨rfl, _⟩ := Prod.mk.inj (Option.some.inj (hevict.symm.trans hevict'))
    intro j _ hj htested hclear
    refine ⟨i, ?_, hown.mp hne, hstop.clear⟩
    -- The stop is the first tested position that is clear, and it is not `j`.
    rcases Nat.lt_trichotomy i j with hij | rfl | hij
    · exact hij
    · exact (hown.mp hne hj).elim
    · exact (hstop.first j hij htested hclear).elim
  · intro hspares
    refine ⟨e, s', hevict, hown.mpr fun hi => ?_⟩
    obtain ⟨j, hj, hne, hclear⟩ := hspares i hlt hi hstop.tested hstop.clear
    exact hstop.first j hj (fun h => (hne h).elim) hclear

/-- With one frame of its own under the clock hand the running thread is spared. -/
theorem evictPage_spares_holdsFrames : (holdsFrames 1).Spares :=
  (evictPage_spares_iff (holdsFrames 1) (by decide) ⟨1, by decide, by decide⟩).mp
    ⟨1, (holdsFrames 1).afterSweep 1 (holdsFrames 1).bits, rfl, by decide⟩

/-- With two frames of its own under the clock hand the running thread loses the
second one, although all the other frames are free. -/
theorem evictPage_takes_own :
    (holdsFrames 2).free_list_position < frameCount ∧
      ((holdsFrames 2).table.frames 2).threadid ≠ (holdsFrames 2).currThread ∧
      ∃ s', evictPage (holdsFrames 2) = some (1, s') ∧
        ((holdsFrames 2).table.frames 1).threadid = (holdsFrames 2).currThread :=
  ⟨by decide, by decide, (holdsFrames 2).afterSweep 1 (holdsFrames 2).bits, rfl, rfl⟩

end SimpleOs.Paging
