import Mathlib.Data.Int.Notation
import SimpleOs.Library.Bytes

/-!
# The disk of the file system

The disk is a sequence of blocks of 512 bytes: the byte maps of the inodes and of the
data blocks, the inodes, four to a block, and the data blocks. The numbers of inodes and
blocks are of type `int`; they are given here by their 32 bits.
-/

namespace SimpleOs.Files

open Bytes

/-! ## Integers -/

/-- The value `-1` of an unsigned number of four bytes, which marks an entry that is not used. -/
def minusOne : ℕ := 2 ^ 32 - 1

/-- An `int` as a `size_t`. -/
def toSize (n : ℕ) : ℕ := if n % 2 ^ 32 < 2 ^ 31 then n % 2 ^ 32 else n % 2 ^ 32 + (2 ^ 64 - 2 ^ 32)

/-- The value of an `int`. -/
def toInt (n : ℕ) : ℤ := if n % 2 ^ 32 < 2 ^ 31 then (n % 2 ^ 32 : ℕ) else (n % 2 ^ 32 : ℕ) - 2 ^ 32

/-! ## The state -/

/-- The size of a block. -/
def BLOCK_SIZE : ℕ := 512

/-- The disk and the counters of the file system. -/
structure Sfs where
  /-- The bytes of the disk. A block that was never written reads as zero. -/
  disk : Memory
  /-- Whether the next calls of `block_read` and `block_write` fail. Those behind the
  list succeed. -/
  errors : List Bool
  /-- The inodes that have been allocated since `sfs_init`. -/
  numOccupiedInodeBytemap : ℕ
  /-- The data blocks that have been allocated since `sfs_init`. -/
  numOccupiedDataBlocksBytemap : ℕ

/-- What the C code reads without having written it. -/
structure Unspecified where
  /-- The bytes of memory that `malloc` returns. -/
  fresh : Memory
  /-- The bytes around a string. -/
  around : ℤ → UInt8
  /-- The value of a function that ends without a `return`. -/
  result : ℤ
  /-- Whether `free` returns for a pointer into the middle of a memory. -/
  freeReturns : Bool

/-- The position of a block in the file. -/
def blockOffset (block_num : ℕ) : ℕ := BLOCK_SIZE * block_num % 2 ^ 32

/-- A call of `pread` or `pwrite` fails, also if the position is negative. -/
def Sfs.Fails (s : Sfs) (block_num : ℕ) : Prop :=
  s.errors.head? = some true ∨ 2 ^ 31 ≤ blockOffset block_num

instance (s : Sfs) (block_num : ℕ) : Decidable (s.Fails block_num) :=
  inferInstanceAs (Decidable (_ ∨ _))

/-- `block_read`: the block, unless the call fails. -/
def blockRead (block_num : ℕ) (s : Sfs) : Option Memory × Sfs :=
  (if s.Fails block_num then none else some (view s.disk (blockOffset block_num)),
    { s with errors := s.errors.tail })

/-- `block_write`: whether the call succeeds. -/
def blockWrite (block_num : ℕ) (buf : Memory) (s : Sfs) : Bool × Sfs :=
  if s.Fails block_num then (false, { s with errors := s.errors.tail })
  else
    (true,
      { s with
        disk := splice s.disk (blockOffset block_num) BLOCK_SIZE buf
        errors := s.errors.tail })

/-! ## Inodes -/

namespace Inode

/-- The field `int mode` of an inode, its permissions. -/
def mode : Field := ⟨0, 4⟩

/-- The field `char state` of an inode, which tells a file from a directory. -/
def state : Field := ⟨4, 1⟩

/-- Where the field `char name[15]` of an inode begins. -/
def name : ℕ := 5

/-- The field `unsigned int uid` of an inode, its own number. -/
def uid : Field := ⟨20, 4⟩

/-- The field `short links_count` of an inode. -/
def links_count : Field := ⟨28, 2⟩

/-- The field `char flag` of an inode, which says whether it is open. -/
def flag : Field := ⟨30, 1⟩

/-- The field `time_t time` of an inode. -/
def time : Field := ⟨32, 8⟩

/-- The field `time_t ctime` of an inode. -/
def ctime : Field := ⟨40, 8⟩

/-- The field `time_t mtime` of an inode. -/
def mtime : Field := ⟨48, 8⟩

/-- Element `i` of the field `int block_ptr[10]` of an inode. -/
def block_ptr (i : ℕ) : Field := ⟨64 + 4 * i, 4⟩

/-- `indirection_block* block_ptr_indirect[2]`. The element with index 2 is the field
behind it. -/
def block_ptr_indirect (i : ℕ) : Field := ⟨104 + 8 * i, 8⟩

/-- The field `double_indirection_block* block_ptr_double_indirect` of an inode. -/
def block_ptr_double_indirect : Field := ⟨120, 8⟩

/-- The number of bytes of an inode, `sizeof(inode)`. -/
def size : ℕ := 128

/-- The character for a directory. -/
def dir : ℕ := 'd'.toNat

/-- The character for a file. -/
def file : ℕ := 'f'.toNat

/-- The character for an open file or directory. -/
def opened : ℕ := 'o'.toNat

end Inode

/-- The loops `while (1)` that count blocks until enough are found. The counter is an
`int`, so a loop that has not ended after 2^32 steps does not end. -/
def countBlocks (enough : ℕ → Bool) : ℕ → ℕ → Option ℕ
  | 0, _ => none
  | fuel + 1, block_num =>
    if enough block_num then some (block_num - 1) else countBlocks enough fuel (block_num + 1)

/-- The block in which an inode is. The product is compared as a `size_t`. -/
def getBlockNumbfromInodeNumb (inumb : ℕ) : Option ℕ :=
  countBlocks (fun block_num =>
    toSize (BLOCK_SIZE * block_num) > Inode.size * toSize inumb % 2 ^ 64) (2 ^ 32) 1

/-- The position of an inode in its block. -/
def offsetInBlock (inumb : ℕ) : ℕ := Inode.size * inumb % BLOCK_SIZE

/-- The memory of 1024 bytes with the block of an inode. If the block ends with the
inode, it is read a second time into the second half. An error ends the process. -/
def getBlockByInodeNumb (u : Unspecified) (inumb : ℕ) (s : Sfs) : Option (Memory × Sfs) := do
  let block_num ← getBlockNumbfromInodeNumb inumb
  let (TEMP, s) := blockRead (20 + block_num) s
  let TEMP := splice u.fresh 0 BLOCK_SIZE (← TEMP)
  if offsetInBlock (inumb + 1) < offsetInBlock inumb then
    let (second, s) := blockRead (20 + block_num) s
    return (splice TEMP BLOCK_SIZE BLOCK_SIZE (← second), s)
  else return (TEMP, s)

/-! ## Calls without errors -/

variable {u : Unspecified} {s : Sfs} {disk : Memory} {n c : ℕ}

/-- The position of a block in the file does not overflow for the blocks that there are. -/
theorem blockOffset_eq (hn : n < 2 ^ 22) : blockOffset n = BLOCK_SIZE * n :=
  Nat.mod_eq_of_lt (by unfold BLOCK_SIZE; omega)

/-- Without errors calls succeed, if the position is not negative. -/
theorem Sfs.fails_iff (hs : s.errors = []) : s.Fails n ↔ 2 ^ 31 ≤ blockOffset n := by
  simp [Sfs.Fails, hs]

/-- Without errors there are none left. -/
theorem Sfs.tail_errors (hs : s.errors = []) : { s with errors := s.errors.tail } = s := by
  rw [hs, List.tail_nil, ← hs]

/-- Without errors a block is read. -/
theorem blockRead_eq (hs : s.errors = []) (hn : blockOffset n < 2 ^ 31) :
    blockRead n s = (some (view s.disk (blockOffset n)), s) := by
  rw [blockRead, if_neg (by rw [s.fails_iff hs]; omega), Sfs.tail_errors hs]

/-- Without errors a block is written. -/
theorem blockWrite_eq {buf : Memory} (hs : s.errors = []) (hn : blockOffset n < 2 ^ 31) :
    blockWrite n buf s =
      (true, { s with disk := splice s.disk (blockOffset n) BLOCK_SIZE buf }) := by
  rw [blockWrite, if_neg (by rw [s.fails_iff hs]; omega), hs, List.tail_nil, ← hs]

/-- A block that was written is at a position that fits an `int`, and nothing else has changed. -/
theorem blockWrite_true {s' : Sfs} {buf : Memory} (h : blockWrite n buf s = (true, s')) :
    blockOffset n < 2 ^ 31 ∧
      s' = { s with
        disk := splice s.disk (blockOffset n) BLOCK_SIZE buf
        errors := s.errors.tail } := by
  unfold blockWrite at h
  split at h
  · exact absurd h (by simp)
  · rename_i hok
    unfold Sfs.Fails at hok
    rw [not_or] at hok
    exact ⟨Nat.lt_of_not_le hok.2, (Prod.mk.inj h).2.symm⟩

/-- The loops that count blocks stop at the first number that is enough. -/
theorem countBlocks_eq {enough : ℕ → Bool} {fuel start : ℕ} (hle : start ≤ n)
    (hfuel : n < start + fuel) (hbefore : ∀ k, start ≤ k → k < n → enough k = false)
    (hn : enough n = true) : countBlocks enough fuel start = some (n - 1) := by
  induction fuel generalizing start with
  | zero => omega
  | succ fuel ih =>
    rw [countBlocks]
    by_cases heq : start = n
    · rw [heq, if_pos hn]
    · rw [if_neg (by simp [hbefore start le_rfl (by omega)])]
      exact ih (by omega) (by omega) fun k hk => hbefore k (by omega)

/-- The loops that count blocks do not end if no number is enough. -/
theorem countBlocks_none {enough : ℕ → Bool} {fuel start : ℕ} (h : ∀ k, enough k = false) :
    countBlocks enough fuel start = none := by
  induction fuel generalizing start with
  | zero => rfl
  | succ fuel ih =>
    rw [countBlocks, if_neg (by simp [h start])]
    exact ih

/-- The number of the block of an inode, as the loop counts it. Negative numbers come
from products that overflow. -/
def inodeBlockNumb (n : ℕ) : ℕ :=
  if n < 2 ^ 24 then n / 4
  else if n < 2 ^ 32 - 2 ^ 24 then 2 ^ 22 - 1
  else 2 ^ 23 - (2 ^ 32 - n + 3) / 4

/-- The loop that looks for the block of an inode ends, except for the numbers -1 to -4. -/
theorem getBlockNumbfromInodeNumb_eq (hn : n < 2 ^ 32) :
    getBlockNumbfromInodeNumb n =
      if n < 2 ^ 32 - 4 then some (inodeBlockNumb n) else none := by
  have hsize (k : ℕ) : toSize k =
      if k % 2 ^ 32 < 2 ^ 31 then k % 2 ^ 32 else k % 2 ^ 32 + (2 ^ 64 - 2 ^ 32) := rfl
  unfold getBlockNumbfromInodeNumb BLOCK_SIZE Inode.size
  split
  · rename_i hlt
    have hnumb : n < 2 ^ 24 ∧ inodeBlockNumb n = n / 4 ∨
        2 ^ 24 ≤ n ∧ n < 2 ^ 32 - 2 ^ 24 ∧ inodeBlockNumb n = 2 ^ 22 - 1 ∨
        2 ^ 32 - 2 ^ 24 ≤ n ∧ inodeBlockNumb n = 2 ^ 23 - (2 ^ 32 - n + 3) / 4 := by
      unfold inodeBlockNumb
      split_ifs <;> omega
    generalize inodeBlockNumb n = numb at *
    refine countBlocks_eq (n := numb + 1) (by omega) (by omega) (fun k hk hlt' => ?_) ?_
    · rw [hsize, hsize]
      simp only [gt_iff_lt, decide_eq_false_iff_not, not_lt]
      split <;> split <;> omega
    · rw [hsize, hsize]
      simp only [gt_iff_lt, decide_eq_true_eq]
      split <;> split <;> omega
  · refine countBlocks_none fun k => ?_
    rw [hsize, hsize]
    simp only [gt_iff_lt, decide_eq_false_iff_not, not_lt]
    split <;> split <;> omega

/-! ## The places of inodes -/

/-- The inodes that end with their block. -/
theorem offsetInBlock_succ_lt_iff : offsetInBlock (n + 1) < offsetInBlock n ↔ n % 4 = 3 := by
  unfold offsetInBlock Inode.size BLOCK_SIZE
  omega

/-- The block of an inode can be read. Blocks 0 to 19 are those of the inodes -80
to -5. -/
def Readable (n : ℕ) : Prop := n < 2 ^ 24 - 80 ∨ 2 ^ 32 - 80 ≤ n ∧ n < 2 ^ 32 - 4

instance (n : ℕ) : Decidable (Readable n) := inferInstanceAs (Decidable (_ ∨ _))

/-- Inode -1 is not one that can be read. -/
theorem Readable.ne_minusOne (hn : Readable n) : n ≠ minusOne := by
  rintro rfl
  exact absurd hn (by decide)

/-- The inodes of the maps can be read. -/
theorem readable_of_lt (hn : n < 5000) : Readable n := Or.inl (by omega)

/-- Where the block of an inode begins. -/
def inodeBlock (n : ℕ) : ℕ :=
  if n < 2 ^ 31 then BLOCK_SIZE * (20 + n / 4) else BLOCK_SIZE * (20 - (2 ^ 32 - n + 3) / 4)

/-- The position on the disk at which an inode begins. -/
def inodeAt (n : ℕ) : ℕ := inodeBlock n + offsetInBlock n

/-- The position of the block that is read for an inode. -/
theorem blockOffset_inode (hn : n < 2 ^ 32 - 4) :
    (Readable n ∧ blockOffset (20 + inodeBlockNumb n) = inodeBlock n ∧
      blockOffset (20 + inodeBlockNumb n) < 2 ^ 31) ∨
      ¬ Readable n ∧ 2 ^ 31 ≤ blockOffset (20 + inodeBlockNumb n) := by
  have hnumb : n < 2 ^ 24 ∧ inodeBlockNumb n = n / 4 ∨
      2 ^ 24 ≤ n ∧ n < 2 ^ 32 - 2 ^ 24 ∧ inodeBlockNumb n = 2 ^ 22 - 1 ∨
      2 ^ 32 - 2 ^ 24 ≤ n ∧ inodeBlockNumb n = 2 ^ 23 - (2 ^ 32 - n + 3) / 4 := by
    unfold inodeBlockNumb
    split_ifs <;> omega
  unfold Readable blockOffset inodeBlock BLOCK_SIZE
  generalize inodeBlockNumb n = numb at *
  split <;> omega

/-- The memory with the block of an inode. -/
def inodeBuffer (u : Unspecified) (disk : Memory) (n : ℕ) : Memory :=
  let first := splice u.fresh 0 BLOCK_SIZE (view disk (inodeBlock n))
  if n % 4 = 3 then splice first BLOCK_SIZE BLOCK_SIZE (view disk (inodeBlock n)) else first

/-- The block of an inode is read if it can be. -/
theorem getBlockByInodeNumb_eq (hs : s.errors = []) (hn : n < 2 ^ 32) :
    getBlockByInodeNumb u n s = if Readable n then some (inodeBuffer u s.disk n, s) else none := by
  rw [getBlockByInodeNumb, getBlockNumbfromInodeNumb_eq hn]
  split
  · rename_i hlt
    simp only [Option.bind_eq_bind, Option.bind_some, offsetInBlock_succ_lt_iff]
    rcases blockOffset_inode hlt with ⟨hread, hoffset, hbound⟩ | ⟨hnot, hbound⟩
    · have hblock : blockRead (20 + inodeBlockNumb n) s =
          (some (view s.disk (inodeBlock n)), s) := by
        rw [blockRead_eq hs hbound, hoffset]
      rw [if_pos hread]
      simp only [hblock, Option.bind_some, inodeBuffer]
      split <;> rfl
    · rw [if_neg hnot, blockRead, if_pos ((s.fails_iff hs).mpr hbound)]
      rfl
  · rename_i hlt
    rw [if_neg (by unfold Readable; omega)]
    rfl

/-- The block of an inode, if it was read. -/
theorem getBlockByInodeNumb_spec {s' : Sfs} {TEMP : Memory}
    (hrun : getBlockByInodeNumb u n s = some (TEMP, s')) (hs : s.errors = []) (hn : n < 2 ^ 32) :
    Readable n ∧ TEMP = inodeBuffer u s.disk n ∧ s' = s := by
  rw [getBlockByInodeNumb_eq hs hn] at hrun
  split at hrun
  · rename_i hread
    obtain ⟨rfl, rfl⟩ := Prod.mk.inj (Option.some.inj hrun)
    exact ⟨hread, rfl, rfl⟩
  · exact absurd hrun (by simp)

/-- The block of an inode that can be read is written to its place. -/
theorem blockWrite_inode {numb : ℕ} {buf : Memory} (hnumb : getBlockNumbfromInodeNumb n = some numb)
    (hread : Readable n) (hs : s.errors = []) :
    blockWrite (20 + numb) buf s =
      (true, { s with disk := splice s.disk (inodeBlock n) BLOCK_SIZE buf }) := by
  have hlt : n < 2 ^ 32 - 4 := by
    unfold Readable at hread
    omega
  rw [getBlockNumbfromInodeNumb_eq (by omega), if_pos hlt] at hnumb
  obtain rfl := Option.some.inj hnumb
  rcases blockOffset_inode hlt with ⟨_, hoffset, hbound⟩ | ⟨hnot, _⟩
  · rw [blockWrite_eq hs hbound, hoffset]
  · exact absurd hread hnot

/-- The memory that is read begins with the block of the inode. -/
theorem inodeBuffer_apply (hc : c < BLOCK_SIZE) :
    inodeBuffer u disk n c = disk (inodeBlock n + c) := by
  have hfirst : splice u.fresh 0 BLOCK_SIZE (view disk (inodeBlock n)) c =
      disk (inodeBlock n + c) := by
    conv_lhs => rw [← Nat.zero_add c]
    exact splice_inside hc
  unfold inodeBuffer
  split
  · rw [splice_outside (Or.inl hc)]
    exact hfirst
  · exact hfirst

/-- The record of an inode ends within its block. -/
theorem offsetInBlock_le : offsetInBlock n + Inode.size ≤ BLOCK_SIZE := by
  unfold offsetInBlock Inode.size BLOCK_SIZE
  omega

/-- Inodes with numbers that are not negative lie side by side behind the maps. -/
theorem inodeAt_eq (hn : n < 2 ^ 31) : inodeAt n = 20 * BLOCK_SIZE + Inode.size * n := by
  unfold inodeAt inodeBlock offsetInBlock Inode.size BLOCK_SIZE
  rw [if_pos hn]
  omega

/-- A field of an inode, in the memory with its block. -/
theorem get_inodeBuffer {f : Field} (hf : f.offset + f.width ≤ Inode.size) :
    get (inodeBuffer u disk n) (offsetInBlock n) f = get disk (inodeAt n) f := by
  have hle := offsetInBlock_le (n := n)
  have hview : get (view disk (inodeBlock n)) (offsetInBlock n) f = get disk (inodeAt n) f := by
    rw [inodeAt, Bytes.get, Bytes.get, load_view, Nat.add_assoc]
  rw [← hview]
  exact load_congr fun c hc hlt => inodeBuffer_apply (by omega)

end SimpleOs.Files
