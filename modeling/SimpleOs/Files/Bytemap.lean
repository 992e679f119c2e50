import Mathlib.Logic.Function.Iterate
import SimpleOs.Files.Device

/-!
# The byte maps

A byte map has one byte for each inode or data block, which is 1 if it is in use.
A free entry is looked for from a random position on, in a cycle that leaves out entry 0.
-/

namespace SimpleOs.Files

open Bytes

/-! ## The code -/

/-- The two byte maps on the disk, that of the inodes and that of the data blocks. -/
inductive MapType where
  /-- The map of the inodes, type 0. -/
  | inode
  /-- The map of the data blocks, type 1. -/
  | data
  deriving DecidableEq

/-- The first block of a byte map. -/
def MapType.offset : MapType → ℕ
  | .inode => 0
  | .data => 10

/-- The block in which an entry of a byte map is. The product is an `int`. -/
def findBlockForBitmap (bitmapNumb : ℕ) : Option ℕ :=
  countBlocks (fun block_in => toInt (BLOCK_SIZE * block_in) > toInt bitmapNumb) (2 ^ 32) 1

/-- The position after another one. -/
def nextPosition (byteMapPosition : ℕ) : ℕ :=
  if byteMapPosition = 4999 then 1 else byteMapPosition + 1

/-- A block of a map, which is not read again if it is the last one that was. -/
def keepBlock (type : MapType) (kept : Option (ℕ × Memory)) (block_in : ℕ) (s : Sfs) :
    Option Memory × Sfs :=
  match kept with
  | some (currBlock, temp) =>
    if block_in ≠ currBlock then blockRead (type.offset + block_in) s else (some temp, s)
  | none => blockRead (type.offset + block_in) s

/-- The search for a free entry. The last block that was read is kept. The result is
`none` if a read fails. -/
def findFree (type : MapType) : ℕ → ℕ → Option (ℕ × Memory) → Sfs →
    Option (Option (ℕ × ℕ × Memory) × Sfs)
  | 0, _, _, _ => none
  | fuel + 1, byteMapPosition, kept, s => do
    let block_in ← findBlockForBitmap byteMapPosition
    match keepBlock type kept block_in s with
    | (none, s) => return (none, s)
    | (some temp, s) =>
      if temp (byteMapPosition % BLOCK_SIZE) = 1 then
        findFree type fuel (nextPosition byteMapPosition) (some (block_in, temp)) s
      else return (some (byteMapPosition, block_in, temp), s)

/-- `getFreeBitMapEntry`, with the value of `rand()`. The result is `none` for `-1`. In
10000 steps the search sees all entries and reads a block again, so one that goes on when
there are no more errors to come does not end. -/
def getFreeBitMapEntry (type : MapType) (rand : ℕ) (s : Sfs) : Option (Option ℕ × Sfs) := do
  match ← findFree type (10000 * (s.errors.length + 1)) (rand % 5000) none s with
  | (none, s) => return (none, s)
  | (some (byteMapPosition, currBlock, temp), s) =>
    let temp := Function.update temp (byteMapPosition % BLOCK_SIZE) 1
    match blockWrite (type.offset + currBlock) temp s with
    | (false, s) => return (none, s)
    | (true, s) => return (some byteMapPosition, s)

/-! ## The entry that is found -/

/-- Where an entry of a byte map is on the disk. -/
def MapType.entry (type : MapType) (n : ℕ) : ℕ := BLOCK_SIZE * type.offset + n

/-- Entry `m` is the first one that is not 1, in the order of the search from `r` on. -/
def FirstFree (disk : Memory) (type : MapType) (r m : ℕ) : Prop :=
  ∃ k, m = nextPosition^[k] r ∧ disk (type.entry m) ≠ 1 ∧
    ∀ j < k, disk (type.entry (nextPosition^[j] r)) = 1

variable {type : MapType} {disk : Memory} {s s' : Sfs} {fuel r m m' n rand : ℕ}

/-- The search has one free entry that it comes to first. -/
theorem FirstFree.unique (h : FirstFree disk type r m) (h' : FirstFree disk type r m') :
    m = m' := by
  obtain ⟨k, rfl, hfree, hbefore⟩ := h
  obtain ⟨k', rfl, hfree', hbefore'⟩ := h'
  rcases lt_trichotomy k k' with hlt | rfl | hlt
  · exact absurd (hbefore' k hlt) hfree
  · rfl
  · exact absurd (hbefore k' hlt) hfree'

/-- The search goes on behind an entry that is in use. -/
theorem FirstFree.next (hr : disk (type.entry r) = 1)
    (h : FirstFree disk type (nextPosition r) m) : FirstFree disk type r m := by
  obtain ⟨k, rfl, hfree, hbefore⟩ := h
  refine ⟨k + 1, rfl, hfree, ?_⟩
  rintro (_ | j) hj
  · exact hr
  · exact hbefore j (by omega)

/-- The position after one in the map is in the map. -/
theorem nextPosition_lt (hn : n < 5000) : nextPosition n < 5000 := by
  unfold nextPosition
  split <;> omega

/-- Entries outside the map do not matter. -/
theorem FirstFree.congr {disk' : Memory} (hr : r < 5000)
    (hsame : ∀ n < 5000, disk' (type.entry n) = disk (type.entry n))
    (h : FirstFree disk' type r m) : FirstFree disk type r m := by
  obtain ⟨k, rfl, hfree, hbefore⟩ := h
  have hlt (j : ℕ) : nextPosition^[j] r < 5000 := by
    induction j with
    | zero => exact hr
    | succ j ih =>
      rw [Function.iterate_succ_apply']
      exact nextPosition_lt ih
  refine ⟨k, rfl, hsame _ (hlt k) ▸ hfree, fun j hj => ?_⟩
  rw [← hsame _ (hlt j)]
  exact hbefore j hj

/-- The block of a map that the loop finds. For a negative number it is the first one. -/
def mapBlock (n : ℕ) : ℕ := if n < 2 ^ 31 then n / BLOCK_SIZE else 0

/-- The loop ends, except for the numbers in the last block that an `int` can count. -/
theorem findBlockForBitmap_eq (hn : n < 2 ^ 32) :
    findBlockForBitmap n =
      if n < 2 ^ 31 - 512 ∨ 2 ^ 31 ≤ n then some (mapBlock n) else none := by
  have hint (k : ℕ) : toInt k =
      if k % 2 ^ 32 < 2 ^ 31 then ((k % 2 ^ 32 : ℕ) : ℤ) else ((k % 2 ^ 32 : ℕ) : ℤ) - 2 ^ 32 := rfl
  unfold findBlockForBitmap mapBlock BLOCK_SIZE
  split
  · refine countBlocks_eq (n := (if n < 2 ^ 31 then n / 512 else 0) + 1) (by omega)
      (by split <;> omega) (fun k hk hlt => ?_) ?_
    · rw [hint, hint]
      simp only [gt_iff_lt, decide_eq_false_iff_not, not_lt]
      split at hlt <;> split <;> split <;> omega
    · rw [hint, hint]
      simp only [gt_iff_lt, decide_eq_true_eq]
      split <;> split <;> split <;> omega
  · refine countBlocks_none fun k => ?_
    rw [hint, hint]
    simp only [gt_iff_lt, decide_eq_false_iff_not, not_lt]
    split <;> split <;> omega

/-- The search for the block of an entry gives the quotient by the block size. -/
theorem findBlockForBitmap_entry (hn : n < 5000) :
    findBlockForBitmap n = some (n / BLOCK_SIZE) := by
  rw [findBlockForBitmap_eq (by omega), if_pos (by omega), mapBlock, if_pos (by omega)]

/-- The byte of an entry is at its remainder in the block of its quotient. -/
theorem MapType.entry_eq : BLOCK_SIZE * (type.offset + n / BLOCK_SIZE) + n % BLOCK_SIZE =
    type.entry n := by
  unfold MapType.entry BLOCK_SIZE
  omega

/-- The position of a block of a map. -/
theorem MapType.blockOffset_eq (hn : n < 5000) :
    blockOffset (type.offset + n / BLOCK_SIZE) = BLOCK_SIZE * (type.offset + n / BLOCK_SIZE) := by
  unfold blockOffset
  refine Nat.mod_eq_of_lt ?_
  cases type <;> simp only [MapType.offset, BLOCK_SIZE] <;> omega

/-- The bytes of a block of a map. -/
def HoldsBlock (disk : Memory) (type : MapType) (block_in : ℕ) (temp : Memory) : Prop :=
  ∀ c < BLOCK_SIZE, temp c = disk (BLOCK_SIZE * (type.offset + block_in) + c)

/-- The block of an entry is there. -/
theorem keepBlock_spec {kept : Option (ℕ × Memory)} (hs : s.errors = []) (hn : n < 5000)
    (hkept : ∀ x ∈ kept, HoldsBlock s.disk type x.1 x.2) :
    ∃ temp, HoldsBlock s.disk type (n / BLOCK_SIZE) temp ∧
      keepBlock type kept (n / BLOCK_SIZE) s = (some temp, s) := by
  have hblock := blockRead_eq (n := type.offset + n / BLOCK_SIZE) hs (by
    rw [type.blockOffset_eq hn]
    cases type <;> simp only [MapType.offset, BLOCK_SIZE] <;> omega)
  rw [type.blockOffset_eq hn] at hblock
  have hholds : HoldsBlock s.disk type (n / BLOCK_SIZE)
      (view s.disk (BLOCK_SIZE * (type.offset + n / BLOCK_SIZE))) := fun _ _ => rfl
  cases kept with
  | none => exact ⟨_, hholds, hblock⟩
  | some x =>
    obtain ⟨currBlock, temp⟩ := x
    by_cases heq : n / BLOCK_SIZE = currBlock
    · exact ⟨temp, heq ▸ hkept _ rfl, if_neg (not_not.mpr heq)⟩
    · exact ⟨_, hholds, (if_pos heq).trans hblock⟩

/-- The search finds the first free entry. The loop keeps the block that it read last. -/
theorem findFree_spec {kept : Option (ℕ × Memory)} {found : Option (ℕ × ℕ × Memory)}
    (hs : s.errors = []) (hn : n < 5000)
    (hkept : ∀ x ∈ kept, HoldsBlock s.disk type x.1 x.2)
    (hrun : findFree type fuel n kept s = some (found, s')) :
    s' = s ∧ ∃ m temp, found = some (m, m / BLOCK_SIZE, temp) ∧ m < 5000 ∧
      FirstFree s.disk type n m ∧ HoldsBlock s.disk type (m / BLOCK_SIZE) temp := by
  induction fuel generalizing n kept with
  | zero => exact absurd hrun (by simp [findFree])
  | succ fuel ih =>
    obtain ⟨temp, htemp, hread⟩ := keepBlock_spec hs hn hkept
    have hbyte : temp (n % BLOCK_SIZE) = s.disk (type.entry n) := by
      rw [htemp _ (Nat.mod_lt _ (by decide)), MapType.entry_eq]
    simp only [findFree, findBlockForBitmap_entry hn, Option.bind_eq_bind,
      Option.bind_some, hread, hbyte] at hrun
    split at hrun
    · rename_i hused
      obtain ⟨rfl, m, temp', hfound, hm, hfirst, hholds⟩ :=
        ih (nextPosition_lt hn) (by simpa using htemp) hrun
      exact ⟨rfl, m, temp', hfound, hm, hfirst.next hused, hholds⟩
    · rename_i hfree
      obtain ⟨rfl, rfl⟩ := Prod.mk.inj (Option.some.inj hrun)
      exact ⟨rfl, n, temp, rfl, hn, ⟨0, rfl, hfree, by simp⟩, htemp⟩

/-- `getFreeBitMapEntry` returns the first free entry and sets it to 1. -/
theorem getFreeBitMapEntry_spec {found : Option ℕ}
    (hrun : getFreeBitMapEntry type rand s = some (found, s')) (hs : s.errors = []) :
    ∃ m, found = some m ∧ m < 5000 ∧ FirstFree s.disk type (rand % 5000) m ∧
      s' = { s with disk := Function.update s.disk (type.entry m) 1 } := by
  obtain ⟨⟨entry, s₁⟩, hfind, hwrite⟩ := Option.bind_eq_some_iff.mp hrun
  obtain ⟨rfl, m, temp, rfl, hm, hfirst, htemp⟩ :=
    findFree_spec hs (Nat.mod_lt _ (by decide)) (by simp) hfind
  have hbound : blockOffset (type.offset + m / BLOCK_SIZE) < 2 ^ 31 := by
    rw [type.blockOffset_eq hm]
    cases type <;> simp only [MapType.offset, BLOCK_SIZE] <;> omega
  simp only [blockWrite_eq hs hbound, type.blockOffset_eq hm] at hwrite
  obtain ⟨rfl, rfl⟩ := Prod.mk.inj (Option.some.inj hwrite)
  refine ⟨m, rfl, hm, hfirst, congrArg (fun disk => { s₁ with disk := disk }) ?_⟩
  rw [splice_update htemp (Nat.mod_lt _ (by decide)), MapType.entry_eq]

end SimpleOs.Files
