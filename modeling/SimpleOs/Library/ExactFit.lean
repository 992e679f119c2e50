import Mathlib.Data.List.Pairwise
import Mathlib.Data.List.Sort

/-!
# Exact fit

An allocator that gives a request the first hole of exactly its size, and else the place
behind everything, needs to know no more than which extents are in use. Each extent has a
header of `H` cells before it, and so has each hole.
-/

namespace ExactFit

/-- The extents in the order of their addresses. -/
def byAddress (live : List (ℕ × ℕ)) : List (ℕ × ℕ) := live.mergeSort fun x y => x.1 ≤ y.1

/-- The holes before and between the extents, from `s` on. -/
def holes (H : ℕ) : ℕ → List (ℕ × ℕ) → List (ℕ × ℕ)
  | _, [] => []
  | s, (p, k) :: live =>
    (if s + H < p then [(s + H, p - H - (s + H))] else []) ++ holes H (p + k) live

/-- The end of the last extent. -/
def endOf : ℕ → List (ℕ × ℕ) → ℕ
  | s, [] => s
  | _, (p, k) :: live => endOf (p + k) live

/-- Where a request of `size` cells goes: to the first hole of this size, or behind the
last extent. -/
def place (H s : ℕ) (live : List (ℕ × ℕ)) (size : ℕ) : ℕ :=
  (((holes H s live).find? fun x => x.2 = size).map Prod.fst).getD (endOf s live + H)

variable {H s p k size : ℕ} {live sorted : List (ℕ × ℕ)}

/-! ## Addresses -/

/-- The order by addresses is the only one. -/
theorem byAddress_eq (hsorted : sorted.Pairwise fun x y => x.1 < y.1)
    (hperm : live.Perm sorted) : byAddress live = sorted := by
  have hperm' : (byAddress live).Perm sorted := (List.mergeSort_perm _ _).trans hperm
  have hpairwise : (byAddress live).Pairwise fun x y => x.1 ≤ y.1 := by
    refine (List.pairwise_mergeSort ?_ ?_ live).imp fun {x y} hxy => of_decide_eq_true hxy
    · intro x y z hxy hyz
      simp only [decide_eq_true_eq] at hxy hyz ⊢
      omega
    · intro x y
      simp only [Bool.or_eq_true, decide_eq_true_eq]
      omega
  refine hperm'.eq_of_pairwise ?_ hpairwise (hsorted.imp fun {x y} hxy => hxy.le)
  intro x y hx hy hxy hyx
  by_contra hne
  -- two extents of the sorted list with one address are the same
  have hsymm : Std.Symm fun x y : ℕ × ℕ => x.1 ≠ y.1 := ⟨fun _ _ h => h.symm⟩
  have hdistinct : sorted.Pairwise fun x y => x.1 ≠ y.1 := hsorted.imp fun hxy => hxy.ne
  exact hdistinct.forall (hperm'.subset hx) hy hne (by omega)

/-! ## Holes -/

/-- There are not more holes than extents. -/
theorem length_holes_le : (holes H s live).length ≤ live.length := by
  induction live generalizing s with
  | nil => exact le_rfl
  | cons x live ih =>
    have hrest := ih (s := x.1 + x.2)
    simp only [holes, List.length_append, List.length_cons]
    split
    · rw [List.length_singleton]
      omega
    · rw [List.length_nil]
      omega

/-- With no block in use the place is behind the header at the start of the region. -/
theorem place_nil : place H s [] size = s + H := rfl

/-- A block goes into the hole before the first one if it has just that size, else further on. -/
theorem place_cons : place H s ((p, k) :: live) size =
    if s + H < p ∧ p - H - (s + H) = size then s + H else place H (p + k) live size := by
  unfold place
  simp only [holes, endOf]
  by_cases hlt : s + H < p
  · rw [if_pos hlt, List.singleton_append, List.find?_cons]
    by_cases hsize : p - H - (s + H) = size
    · simp [hlt, hsize]
    · simp [hsize]
  · rw [if_neg hlt, List.nil_append, if_neg fun h => hlt h.1]

end ExactFit
