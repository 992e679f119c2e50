import Mathlib.Data.Finset.Card
import Mathlib.Logic.Function.Iterate

/-!
# Second-chance sweeps

A sweep follows a successor function, clears every set bit it meets, and stops
at the first clear one. The stop is described here by the bits before the
sweep: it is the first position that was clear or that the sweep meets again.
Positions may have any type and the successor function need not be injective.
-/

namespace Sweep

variable {α : Type*}

/-- The sweep from `x` stops at its test number `k`. -/
structure StopsAt (next : α → α) (bit : α → Bool) (x : α) (k : ℕ) : Prop where
  /-- The position was clear, or its bit has been cleared on the way. -/
  clear : bit (next^[k] x) = false ∨ ∃ j < k, next^[j] x = next^[k] x
  /-- The earlier positions were set. -/
  set : ∀ j < k, bit (next^[j] x) = true
  /-- The earlier positions are different. -/
  ne : ∀ j < k, ∀ i < j, next^[i] x ≠ next^[j] x

/-- Two stops of the same sweep are the same. -/
theorem StopsAt.unique {next : α → α} {bit : α → Bool} {x : α} {k l : ℕ}
    (hk : StopsAt next bit x k) (hl : StopsAt next bit x l) : k = l := by
  have hle {k l : ℕ} (hk : StopsAt next bit x k) (hl : StopsAt next bit x l) : l ≤ k := by
    by_contra hlt
    rcases hk.clear with hclear | ⟨j, hj, heq⟩
    · simp [hl.set k (by omega)] at hclear
    · exact hl.ne k (by omega) j hj heq
  exact Nat.le_antisymm (hle hl hk) (hle hk hl)

variable [DecidableEq α]

/-- A sweep of at most `fuel` tests, with the position of the stop and the bits
it leaves. -/
def sweep (next : α → α) : ℕ → (α → Bool) → α → Option (α × (α → Bool))
  | 0, _, _ => none
  | fuel + 1, bit, x =>
    if bit x then sweep next fuel (Function.update bit x false) (next x) else some (x, bit)

/-- A set first position moves the stop of the remaining sweep by one. -/
theorem StopsAt.cons {next : α → α} {bit : α → Bool} {x : α} {k : ℕ} (hx : bit x = true)
    (h : StopsAt next (Function.update bit x false) (next x) k) : StopsAt next bit x (k + 1) := by
  have hset (j : ℕ) (hj : j < k) : next^[j] (next x) ≠ x ∧ bit (next^[j] (next x)) = true := by
    have hj := h.set j hj
    by_cases heq : next^[j] (next x) = x
    · simp [heq] at hj
    · exact ⟨heq, by simpa [heq] using hj⟩
  constructor
  · rcases h.clear with hclear | ⟨j, hj, heq⟩
    · by_cases heq : next^[k] (next x) = x
      · exact Or.inr ⟨0, by omega, heq.symm⟩
      · exact Or.inl (by simpa [heq] using hclear)
    · exact Or.inr ⟨j + 1, by omega, heq⟩
  · rintro (_ | j) hj
    · exact hx
    · exact (hset j (by omega)).2
  · rintro (_ | j) hj (_ | i) hi
    · omega
    · omega
    · exact (hset j (by omega)).1.symm
    · exact h.ne j (by omega) i (by omega)

/-- A sweep that ends has stopped at its stop and has cleared what it met. -/
theorem sweep_eq_some {next : α → α} {fuel : ℕ} {bit bit' : α → Bool} {x y : α}
    (h : sweep next fuel bit x = some (y, bit')) :
    ∃ k, StopsAt next bit x k ∧ y = next^[k] x ∧
      ∀ z, bit' z = true ↔ bit z = true ∧ ∀ j < k, z ≠ next^[j] x := by
  induction fuel generalizing bit x with
  | zero => simp [sweep] at h
  | succ fuel ih =>
    by_cases hx : bit x = true
    · simp only [sweep, if_pos hx] at h
      obtain ⟨k, hstop, hy, hbit⟩ := ih h
      refine ⟨k + 1, hstop.cons hx, hy, fun z => ?_⟩
      rw [hbit z]
      by_cases hz : z = x
      · subst hz
        simp only [Function.update_self, Bool.false_eq_true, false_and, false_iff, not_and]
        exact fun _ hall => hall 0 (by omega) rfl
      · rw [Function.update_of_ne hz]
        refine and_congr_right fun _ => ⟨fun hall => ?_, fun hall j hj => hall (j + 1) (by omega)⟩
        rintro (_ | j) hj
        · exact hz
        · exact hall j (by omega)
    · simp only [sweep, if_neg hx, Option.some.injEq, Prod.mk.injEq] at h
      obtain ⟨rfl, rfl⟩ := h
      refine ⟨0, ⟨Or.inl (by simpa using hx), ?_, ?_⟩, rfl, ?_⟩ <;> simp

/-- A sweep inside a finite set ends: every test that does not stop it clears
one of the bits set there. -/
theorem sweep_isSome {next : α → α} {S : Finset α} (hnext : ∀ x ∈ S, next x ∈ S) {fuel : ℕ}
    {bit : α → Bool} {x : α} (hx : x ∈ S) (hfuel : (S.filter fun z => bit z = true).card < fuel) :
    ∃ y ∈ S, ∃ bit', sweep next fuel bit x = some (y, bit') := by
  induction fuel generalizing bit x with
  | zero => omega
  | succ fuel ih =>
    by_cases hbit : bit x = true
    · have hsub : (S.filter fun z => Function.update bit x false z = true) ⊂
          S.filter fun z => bit z = true := by
        refine Finset.ssubset_iff_subset_ne.mpr ⟨fun z hz => ?_, fun heq => ?_⟩
        · simp only [Finset.mem_filter, Function.update_apply] at hz ⊢
          by_cases hzx : z = x
          · simp [hzx] at hz
          · exact ⟨hz.1, by simpa [hzx] using hz.2⟩
        · have hmem : x ∈ S.filter fun z => bit z = true := Finset.mem_filter.mpr ⟨hx, hbit⟩
          rw [← heq] at hmem
          simp at hmem
      have hcard := (Finset.card_lt_card hsub).trans_le (Nat.lt_succ_iff.mp hfuel)
      obtain ⟨y, hy, bit', h⟩ := ih (hnext x hx) hcard
      exact ⟨y, hy, bit', by simpa only [sweep, if_pos hbit] using h⟩
    · exact ⟨x, hx, bit, by simp only [sweep, if_neg hbit]⟩

end Sweep
