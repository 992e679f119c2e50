import Mathlib.Data.Set.Insert
import Mathlib.Logic.Function.Basic

/-!
# Stores of objects

Objects have names, sizes and cells of their own. One flat memory shows them all when
its live extents, named by their addresses, hold the cells of the objects. It can
follow the store as long as the extents have no cell in common and what is done to one
of them leaves the cells of the others alone.
-/

namespace ObjectStore

variable {α : Type*}

/-- The objects that there are, by name, with numbered cells. -/
structure Objects (α : Type*) where
  /-- The sizes of the objects that there are. -/
  size : ℕ → Option ℕ
  /-- The cells of each object. -/
  cell : ℕ → ℕ → α

/-- A new object, with any contents. -/
structure Objects.Allocates (o : Objects α) (p k : ℕ) (o' : Objects α) : Prop where
  /-- No object had the name before. -/
  fresh : o.size p = none
  /-- The new object has size `k`, and the others keep theirs. -/
  size : o'.size = Function.update o.size p (some k)
  /-- The other objects are as before. -/
  cell : ∀ q ≠ p, o'.cell q = o.cell q

/-- An object is taken away, and nothing else changes. -/
structure Objects.Frees (o : Objects α) (p : ℕ) (o' : Objects α) : Prop where
  /-- There is such an object. -/
  there : ∃ k, o.size p = some k
  /-- It is gone, and the others keep their sizes. -/
  size : o'.size = Function.update o.size p none
  /-- The cells are as before. -/
  cell : o'.cell = o.cell

/-- A cell of one object is written. -/
structure Objects.Writes (o : Objects α) (p i : ℕ) (v : α) (o' : Objects α) : Prop where
  /-- It is a cell of the object. -/
  there : ∃ k, o.size p = some k ∧ i < k
  /-- The sizes are as before. -/
  size : o'.size = o.size
  /-- No other cell changes, in this object or another. -/
  cell : o'.cell = Function.update o.cell p (Function.update (o.cell p) i v)

/-- The live extents hold the objects. -/
structure Shows (m : ℕ → α) (live : Set (ℕ × ℕ)) (o : Objects α) : Prop where
  /-- There is an extent for each object. -/
  size : ∀ p k, (p, k) ∈ live ↔ o.size p = some k
  /-- The extent holds the cells of the object, from its first one on. -/
  cell : ∀ x ∈ live, ∀ i < x.2, m (x.1 + i) = o.cell x.1 i

/-- Extents have different addresses and no cell in common. -/
structure Separate (live : Set (ℕ × ℕ)) : Prop where
  /-- An address names one extent only. -/
  named : ∀ x ∈ live, ∀ y ∈ live, x.1 = y.1 → x = y
  /-- Two extents have no cell in common. -/
  apart : ∀ x ∈ live, ∀ y ∈ live, x ≠ y → ∀ i < x.2, ∀ j < y.2, x.1 + i ≠ y.1 + j

/-- The cells of the extents are as before. -/
def Keeps (m m' : ℕ → α) (live : Set (ℕ × ℕ)) : Prop :=
  ∀ x ∈ live, ∀ i < x.2, m' (x.1 + i) = m (x.1 + i)

variable {m m' : ℕ → α} {live : Set (ℕ × ℕ)} {o : Objects α} {p k i : ℕ} {v : α}

/-- Whatever memory holds, separate extents show a store of objects. -/
theorem Separate.exists_shows (h : Separate live) (m : ℕ → α) : ∃ o, Shows m live o := by
  classical
  refine ⟨⟨fun p => if h : ∃ k, (p, k) ∈ live then some h.choose else none,
    fun p i => m (p + i)⟩, fun p k => ?_, fun _ _ _ _ => rfl⟩
  dsimp only
  constructor
  · intro hp
    have hex : ∃ k, (p, k) ∈ live := ⟨k, hp⟩
    have hsame := h.named _ hex.choose_spec _ hp rfl
    rw [dif_pos hex, (Prod.mk.inj hsame).2]
  · intro hsome
    by_cases hex : ∃ k, (p, k) ∈ live
    · rw [dif_pos hex] at hsome
      rw [← Option.some.inj hsome]
      exact hex.choose_spec
    · rw [dif_neg hex] at hsome
      exact absurd hsome (by simp)

/-- An extent at a new address is a new object. -/
theorem Shows.allocate (h : Shows m live o) (hnew : ∀ k, (p, k) ∉ live)
    (hkeeps : Keeps m m' live) :
    ∃ o', o.Allocates p k o' ∧ Shows m' (insert (p, k) live) o' := by
  have hfresh : o.size p = none := by
    rw [Option.eq_none_iff_forall_not_mem]
    exact fun k hk => hnew k ((h.size p k).mpr hk)
  refine ⟨⟨Function.update o.size p (some k), Function.update o.cell p fun i => m' (p + i)⟩,
    ⟨hfresh, rfl, fun q hq => Function.update_of_ne hq _ _⟩, ?_, ?_⟩
  · intro q j
    dsimp only
    rw [Set.mem_insert_iff, Function.update_apply]
    by_cases hq : q = p
    · subst hq
      rw [if_pos rfl, or_iff_left (hnew j), Option.some.injEq]
      constructor
      · exact fun heq => (Prod.mk.inj heq).2.symm
      · exact fun heq => by rw [heq]
    · rw [if_neg hq, ← h.size q j, or_iff_right fun heq => hq (Prod.mk.inj heq).1]
  · intro x hx i hi
    dsimp only
    rcases Set.mem_insert_iff.mp hx with rfl | hx
    · rw [Function.update_self]
    · have hne : x.1 ≠ p := fun heq => hnew x.2 (heq ▸ hx)
      rw [Function.update_of_ne hne, hkeeps x hx i hi]
      exact h.cell x hx i hi

/-- An extent that is taken away is an object less. -/
theorem Shows.free (h : Shows m live o) (hp : (p, k) ∈ live)
    (hkeeps : Keeps m m' (live \ {(p, k)})) :
    ∃ o', o.Frees p o' ∧ Shows m' (live \ {(p, k)}) o' := by
  have hsize := (h.size p k).mp hp
  refine ⟨⟨Function.update o.size p none, o.cell⟩, ⟨⟨k, hsize⟩, rfl, rfl⟩, ?_, ?_⟩
  · intro q j
    dsimp only
    rw [Set.mem_sdiff, Set.mem_singleton_iff, Function.update_apply, h.size q j]
    by_cases hq : q = p
    · subst hq
      rw [if_pos rfl, hsize]
      constructor
      · rintro ⟨heq, hne⟩
        exact absurd (by rw [Option.some.inj heq]) hne
      · exact fun hnone => absurd hnone (by simp)
    · rw [if_neg hq]
      exact and_iff_left fun heq => hq (Prod.mk.inj heq).1
  · intro x hx i hi
    rw [hkeeps x hx i hi]
    exact h.cell x hx.1 i hi

/-- A write in an extent is a write to its object. -/
theorem Shows.write (h : Shows m live o) (hlive : Separate live) (hp : (p, k) ∈ live)
    (hi : i < k) : ∃ o', o.Writes p i v o' ∧ Shows (Function.update m (p + i) v) live o' := by
  have hsize := (h.size p k).mp hp
  refine ⟨⟨o.size, Function.update o.cell p (Function.update (o.cell p) i v)⟩,
    ⟨⟨k, hsize, hi⟩, rfl, rfl⟩, h.size, ?_⟩
  intro x hx j hj
  dsimp only
  by_cases hsame : x = (p, k)
  · subst hsame
    simp only [Function.update_self, Function.update_apply, Nat.add_left_cancel_iff]
    split
    · rfl
    · exact h.cell _ hx j hj
  · have hname : x.1 ≠ p := fun heq => hsame (hlive.named x hx _ hp heq)
    rw [Function.update_of_ne hname, Function.update_of_ne (hlive.apart x hx _ hp hsame j hj i hi)]
    exact h.cell x hx j hj

end ObjectStore
