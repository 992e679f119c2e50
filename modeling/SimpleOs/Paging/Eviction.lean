import SimpleOs.Library.Sweep
import SimpleOs.Paging.Fault

/-!
# The choice of a victim

`evictPage` is a second-chance sweep of the frames, except that it passes over
at most one frame of the running thread before each test. Ownership does not
change during the sweep, so the positions it tests are fixed in advance, and
the victim is described by the table before the call.
-/

namespace SimpleOs.Paging

variable {Page : Type*}

/-- The table with other reference bits on the frame nodes. -/
def Table.setBits (t : Table) (bit : ℕ → Bool) : Table where
  frames n := { t.frames n with reference_bit := bit n }
  slots := t.slots
  frame_offset n := t.frame_offset n
  slot_offset := t.slot_offset

@[simp] theorem Table.setBits_frames (t : Table) (bit : ℕ → Bool) (n : ℕ) :
    (t.setBits bit).frames n = { t.frames n with reference_bit := bit n } := rfl

@[simp] theorem Table.setBits_slots (t : Table) (bit : ℕ → Bool) :
    (t.setBits bit).slots = t.slots := rfl

@[ext] theorem Table.ext {t t' : Table} (hframes : ∀ n, t.frames n = t'.frames n)
    (hslots : ∀ k, t.slots k = t'.slots k) : t = t' := by
  cases t
  cases t'
  simp only [Table.mk.injEq]
  exact ⟨funext hframes, funext hslots⟩

/-- The clock hand goes round the 1600 frames. -/
@[simp] theorem Table.nextPosition_eq (t : Table) (n : ℕ) :
    t.nextPosition n = if n = 1599 then 0 else n + 1 := by
  simp [Table.nextPosition]

/-- The frame that is tested when the hand stands at `n`. -/
def State.tested (s : State Page) (n : ℕ) : ℕ :=
  if (s.table.frames n).threadid = s.currThread then s.table.nextPosition n else n

/-- The frame that is tested after frame `n`. -/
def State.testedAfter (s : State Page) (n : ℕ) : ℕ := s.tested (s.table.nextPosition n)

/-- The reference bits of the frames. -/
def State.bits (s : State Page) (n : ℕ) : Bool := (s.table.frames n).reference_bit

/-- Frame `e` is the victim of the second-chance sweep: of the frames tested
from the clock hand on, the first that is clear or that is met again. -/
def State.IsVictim (s : State Page) (e : ℕ) : Prop :=
  ∃ k, Sweep.StopsAt s.testedAfter s.bits s.skipOwn k ∧ e = s.testedAfter^[k] s.skipOwn

/-- The sweep ends at one victim only. -/
theorem State.IsVictim.unique {s : State Page} {e e' : ℕ} (h : s.IsVictim e)
    (h' : s.IsVictim e') : e = e' := by
  obtain ⟨k, hk, rfl⟩ := h
  obtain ⟨k', hk', rfl⟩ := h'
  rw [hk.unique hk']

/-- The state after a sweep that left the given bits and stopped at `e`. -/
def State.afterSweep (s : State Page) (e : ℕ) (bit : ℕ → Bool) : State Page :=
  { s with table := s.table.setBits bit, free_list_position := s.table.nextPosition e }

/-- The loop of `evictPage` is a second-chance sweep over the tested frames. -/
theorem evictLoop_eq_sweep (fuel : ℕ) (s : State Page) :
    evictLoop fuel s =
      (Sweep.sweep s.testedAfter fuel s.bits s.skipOwn).map
        fun (e, bit) => (e, s.afterSweep e bit) := by
  induction fuel generalizing s with
  | zero => rfl
  | succ fuel ih =>
    rw [evictLoop, Sweep.sweep]
    by_cases hbit : s.bits s.skipOwn = true
    · have hbit' : (s.table.frames s.skipOwn).reference_bit = true := hbit
      simp only [hbit, hbit', if_true]
      rw [ih]
      -- Clearing a bit changes neither the owners nor the running thread.
      have htested (n : ℕ) : State.testedAfter
          { s with
            table := s.table.setFrame s.skipOwn fun node => { node with reference_bit := false }
            free_list_position := s.table.nextPosition s.skipOwn } n = s.testedAfter n := by
        simp only [State.testedAfter, State.tested, Table.nextPosition_eq, Table.setFrame_frames]
        grind
      have hbits : State.bits
          { s with
            table := s.table.setFrame s.skipOwn fun node => { node with reference_bit := false }
            free_list_position := s.table.nextPosition s.skipOwn } =
          Function.update s.bits s.skipOwn false := by
        funext n
        simp only [State.bits, Table.setFrame_frames, Function.update_apply]
        split <;> rfl
      have hskip : State.skipOwn
          { s with
            table := s.table.setFrame s.skipOwn fun node => { node with reference_bit := false }
            free_list_position := s.table.nextPosition s.skipOwn } =
          s.testedAfter s.skipOwn := by
        rw [← htested]
        simp only [State.skipOwn, State.testedAfter, State.tested, Table.nextPosition_eq]
      rw [hbits, hskip, funext htested]
      refine congrArg (fun f => Option.map f _) (funext fun r => ?_)
      simp only [State.afterSweep, Table.nextPosition_eq, Prod.mk.injEq, true_and]
      congr 1
      ext n <;> simp [Table.setFrame_frames]
      all_goals split <;> simp_all
    · have hbit' : ¬(s.table.frames s.skipOwn).reference_bit = true := hbit
      simp only [if_neg hbit, if_neg hbit', Option.map_some, Table.frame_offset]
      congr 2

/-- The effect of `evictPage`: it returns the victim, moves the clock hand and
clears reference bits, the victim's included. -/
theorem evictPage_eq_some {s s' : State Page} {e : ℕ} (h : evictPage s = some (e, s')) :
    s.IsVictim e ∧ ∃ bit, s' = s.afterSweep e bit ∧ (∀ n, bit n = true → s.bits n = true) ∧
      bit e = false := by
  rw [evictPage, evictLoop_eq_sweep, Option.map_eq_some_iff] at h
  obtain ⟨⟨y, bit⟩, hsweep, heq⟩ := h
  obtain ⟨rfl, rfl⟩ := Prod.mk.inj heq
  obtain ⟨k, hstop, rfl, hbit⟩ := Sweep.sweep_eq_some hsweep
  refine ⟨⟨k, hstop, rfl⟩, bit, rfl, fun n hn => ((hbit n).mp hn).1, ?_⟩
  rw [← Bool.not_eq_true, hbit, not_and]
  intro hset hne
  rcases hstop.clear with hclear | ⟨j, hj, heq⟩
  · exact Bool.false_ne_true (hclear.symm.trans hset)
  · exact hne j hj heq.symm

/-- The frame after a frame is a frame. -/
theorem Table.nextPosition_lt (t : Table) {n : ℕ} (hn : n < frameCount) :
    t.nextPosition n < frameCount := by
  simp only [Table.nextPosition_eq, frameCount] at *
  split <;> omega

/-- The frame tested for a hand position is a frame. -/
theorem State.tested_lt (s : State Page) {n : ℕ} (hn : n < frameCount) :
    s.tested n < frameCount := by
  unfold State.tested
  split
  · exact s.table.nextPosition_lt hn
  · exact hn

/-- `evictPage` ends with a frame as its victim, whatever the bits and owners. -/
theorem evictPage_isSome (s : State Page) (hhand : s.free_list_position < frameCount) :
    ∃ e < frameCount, ∃ s', evictPage s = some (e, s') := by
  have hcard : ((Finset.range frameCount).filter fun n => s.bits n = true).card <
      frameCount + 1 := by
    have := Finset.card_filter_le (Finset.range frameCount) fun n => s.bits n = true
    rw [Finset.card_range] at this
    omega
  have hnext : ∀ n ∈ Finset.range frameCount, s.testedAfter n ∈ Finset.range frameCount := by
    intro n hn
    rw [Finset.mem_range] at hn ⊢
    exact s.tested_lt (s.table.nextPosition_lt hn)
  have hfirst : s.skipOwn ∈ Finset.range frameCount :=
    Finset.mem_range.mpr (s.tested_lt hhand)
  obtain ⟨e, he, bit, hsweep⟩ := Sweep.sweep_isSome hnext hfirst hcard
  refine ⟨e, Finset.mem_range.mp he, s.afterSweep e bit, ?_⟩
  rw [evictPage, evictLoop_eq_sweep, hsweep]
  rfl

end SimpleOs.Paging
