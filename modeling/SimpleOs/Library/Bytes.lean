import Mathlib.Logic.Function.Basic
import Mathlib.Tactic.Ring

/-!
# Numbers in byte memory

A memory gives a byte at every address. Numbers of a fixed width are stored in it
with the least significant byte first. Records are laid out as fields at fixed
offsets from a base address.
-/

namespace Bytes

/-- A byte at every address. -/
abbrev Memory := ℕ → UInt8

/-- The number in the `width` bytes from `a` on. -/
def load (m : Memory) (a : ℕ) : ℕ → ℕ
  | 0 => 0
  | width + 1 => (m a).toNat + 256 * load m (a + 1) width

/-- Store a number in the `width` bytes from `a` on. -/
def store (m : Memory) (a : ℕ) : ℕ → ℕ → Memory
  | 0, _ => m
  | width + 1, v => store (Function.update m a (UInt8.ofNat v)) (a + 1) width (v / 256)

variable {m m' : Memory} {a b c width width' v : ℕ}

/-- A number fits in its bytes. -/
theorem load_lt : load m a width < 256 ^ width := by
  induction width generalizing a with
  | zero => simp [load]
  | succ width ih =>
    have hbyte := (m a).toNat_lt
    have hrest := @ih (a + 1)
    simp only [load, Nat.pow_succ]
    omega

/-- A load depends on its bytes only. -/
theorem load_congr (h : ∀ c, a ≤ c → c < a + width → m' c = m c) :
    load m' a width = load m a width := by
  induction width generalizing a with
  | zero => rfl
  | succ width ih =>
    have hrest : load m' (a + 1) width = load m (a + 1) width :=
      ih fun c hc hlt => h c (by omega) (by omega)
    simp only [load, h a le_rfl (by omega), hrest]

/-- A load reads the same number from the same bytes elsewhere. -/
theorem load_eq_of_eq (h : ∀ c < width, m' (b + c) = m (a + c)) :
    load m' b width = load m a width := by
  induction width generalizing a b with
  | zero => rfl
  | succ width ih =>
    have hrest : load m' (b + 1) width = load m (a + 1) width := by
      refine ih fun c hc => ?_
      rw [Nat.add_assoc, Nat.add_assoc, Nat.add_comm 1 c]
      exact h (c + 1) (by omega)
    simp only [load, hrest]
    rw [← Nat.add_zero b, h 0 (by omega), Nat.add_zero]

/-- Zero bytes are the number 0. -/
theorem load_zero (h : ∀ c, a ≤ c → c < a + width → m c = 0) : load m a width = 0 := by
  induction width generalizing a with
  | zero => rfl
  | succ width ih =>
    have hrest : load m (a + 1) width = 0 := ih fun c hc hlt => h c (by omega) (by omega)
    rw [load, h a le_rfl (by omega), hrest]
    rfl

/-- The same number is read from the same bytes only. -/
theorem eq_of_load_eq (h : load m' a width = load m a width) (hc : a ≤ c) (hlt : c < a + width) :
    m' c = m c := by
  induction width generalizing a with
  | zero => omega
  | succ width ih =>
    have hfirst := (m a).toNat_lt
    have hfirst' := (m' a).toNat_lt
    simp only [load] at h
    by_cases heq : c = a
    · rw [heq]
      exact UInt8.toNat_inj.mp (by omega)
    · have hrest : load m' (a + 1) width = load m (a + 1) width := by omega
      exact ih hrest (by omega) (by omega)

/-- A store changes its own bytes only. -/
theorem store_apply (h : c < a ∨ a + width ≤ c) : store m a width v c = m c := by
  induction width generalizing m a v with
  | zero => rfl
  | succ width ih =>
    have hne : c ≠ a := by omega
    rw [store, ih (by omega), Function.update_of_ne hne]

/-- A load reads what was stored. -/
theorem load_store : load (store m a width v) a width = v % 256 ^ width := by
  induction width generalizing m a v with
  | zero => simp [load, Nat.mod_one]
  | succ width ih =>
    have hfirst : store (Function.update m a (UInt8.ofNat v)) (a + 1) width (v / 256) a =
        UInt8.ofNat v := by
      rw [store_apply (by omega), Function.update_self]
    have hpow : 256 ^ (width + 1) = 256 * 256 ^ width := by ring
    rw [load, store, ih, hfirst, UInt8.toNat_ofNat', hpow, Nat.mod_mul]

/-- A load of other bytes is not affected. -/
theorem load_store_of_disjoint (h : b + width' ≤ a ∨ a + width ≤ b) :
    load (store m a width v) b width' = load m b width' :=
  load_congr fun c hc hlt => store_apply (by omega)

/-- A store of what is there already changes nothing. -/
theorem store_of_load (h : load m a width = v % 256 ^ width) : store m a width v = m := by
  funext c
  by_cases hc : a ≤ c ∧ c < a + width
  · exact eq_of_load_eq (load_store.trans h.symm) hc.1 hc.2
  · exact store_apply (by omega)

/-! ## Blocks -/

/-- The memory as seen from `a` on. -/
def view (m : Memory) (a : ℕ) : Memory := fun c => m (a + c)

/-- The `width` bytes from `a` on are replaced by those at the beginning of `src`. -/
def splice (m : Memory) (a width : ℕ) (src : Memory) : Memory := fun c =>
  if a ≤ c ∧ c < a + width then src (c - a) else m c

/-- A load in a view is a load at the address that it is a view from. -/
theorem load_view : load (view m a) b width = load m (a + b) width := by
  induction width generalizing b with
  | zero => rfl
  | succ width ih => simp only [load, view, ih, Nat.add_assoc]

/-- Within the range that is replaced, the byte is that of the source. -/
theorem splice_inside {src : Memory} (h : c < width) : splice m a width src (a + c) = src c := by
  rw [splice, if_pos (by omega), Nat.add_sub_cancel_left]

/-- Outside of the range that is replaced, the byte is the old one. -/
theorem splice_outside {src : Memory} (h : c < a ∨ a + width ≤ c) :
    splice m a width src c = m c := if_neg (by omega)

/-- Bytes that are replaced by their own values, but for one. -/
theorem splice_update {src : Memory} {k : ℕ} {x : UInt8} (hsrc : ∀ c < width, src c = m (a + c))
    (hk : k < width) :
    splice m a width (Function.update src k x) = Function.update m (a + k) x := by
  funext c
  by_cases hc : a ≤ c ∧ c < a + width
  · obtain ⟨d, rfl⟩ := Nat.exists_eq_add_of_le hc.1
    rw [splice_inside (by omega), Function.update_apply, Function.update_apply, hsrc d (by omega)]
    simp only [Nat.add_right_inj]
  · rw [splice_outside (by omega), Function.update_of_ne (by omega)]

/-- A load within the range that is replaced gives what the source holds there. -/
theorem load_splice_inside {src : Memory} (h : b + width' ≤ width) :
    load (splice m a width src) (a + b) width' = load src b width' := by
  induction width' generalizing b with
  | zero => rfl
  | succ width' ih =>
    rw [load, load, splice_inside (by omega), Nat.add_assoc, ih (by omega)]

/-- A load of bytes that are not replaced. -/
theorem load_splice_outside {src : Memory} (h : b + width' ≤ a ∨ a + width ≤ b) :
    load (splice m a width src) b width' = load m b width' :=
  load_congr fun c hc hlt => splice_outside (by omega)

/-! ## Records -/

/-- A field of a record. -/
structure Field where
  /-- The offset of the field from the start of its record. -/
  offset : ℕ
  /-- The length of the field in bytes. -/
  width : ℕ
  deriving DecidableEq

/-- Two fields have no byte in common. -/
def Field.Disjoint (f g : Field) : Prop :=
  f.offset + f.width ≤ g.offset ∨ g.offset + g.width ≤ f.offset

instance (f g : Field) : Decidable (f.Disjoint g) :=
  inferInstanceAs (Decidable (_ ∨ _))

/-- Read a field of the record at `a`. -/
def get (m : Memory) (a : ℕ) (f : Field) : ℕ := load m (a + f.offset) f.width

/-- Write a field of the record at `a`. -/
def set (m : Memory) (a : ℕ) (f : Field) (v : ℕ) : Memory := store m (a + f.offset) f.width v

variable {f g : Field}

/-- A field read after it was written. -/
@[simp] theorem get_set_self : get (set m a f v) a f = v % 256 ^ f.width := load_store

/-- Setting a field leaves the other fields of the record that have no byte in common with it. -/
theorem get_set_of_disjoint (h : f.Disjoint g) : get (set m a f v) a g = get m a g := by
  refine load_store_of_disjoint ?_
  unfold Field.Disjoint at h
  omega

/-- Setting a field of one record leaves the fields of another record that is apart. -/
theorem get_set_of_apart {size : ℕ} (h : a + size ≤ b ∨ b + size ≤ a)
    (hf : f.offset + f.width ≤ size) (hg : g.offset + g.width ≤ size) :
    get (set m a f v) b g = get m b g :=
  load_store_of_disjoint (by omega)

/-- A write to a field changes its bytes only. -/
theorem set_apply (h : c < a + f.offset ∨ a + f.offset + f.width ≤ c) :
    set m a f v c = m c := store_apply h

/-- A write of what is there already changes nothing. -/
theorem set_of_get (h : get m a f = v % 256 ^ f.width) : set m a f v = m := store_of_load h

/-- A field fits in its bytes. -/
theorem get_lt : get m a f < 256 ^ f.width := load_lt

/-- A store in a copy of some bytes is a store in the bytes. -/
theorem store_copy {src : Memory} {size : ℕ} (hsrc : ∀ c < size, src c = m (a + c))
    (hc : c < size) :
    store src b width v c = store m (a + b) width v (a + c) := by
  induction width generalizing src m b v with
  | zero => exact hsrc c hc
  | succ width ih =>
    rw [store, store, Nat.add_assoc]
    refine ih fun d hd => ?_
    simp only [Function.update_apply, hsrc d hd, Nat.add_right_inj]

/-- Bytes that are replaced by a copy in which a field was written. -/
theorem splice_set {src : Memory} {size : ℕ} (hsrc : ∀ c < size, src c = m (a + c))
    (hf : b + f.offset + f.width ≤ size) : splice m a size (set src b f v) = set m (a + b) f v := by
  funext c
  by_cases hc : a ≤ c ∧ c < a + size
  · obtain ⟨d, rfl⟩ := Nat.exists_eq_add_of_le hc.1
    rw [splice_inside (by omega), set, set, Nat.add_assoc]
    exact store_copy hsrc (by omega)
  · rw [splice_outside (by omega), set_apply (by omega)]

end Bytes
