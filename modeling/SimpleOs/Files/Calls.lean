import SimpleOs.Files.Bytemap
import SimpleOs.Files.Path

/-!
# The calls of the file system

`sfs_init`, `sfs_create`, `sfs_unlink`, `sfs_opendir` and `sfs_releasedir`. A call has no
result if the process ends, if it does not return, or if it follows a pointer that was
read from the disk.
-/

namespace SimpleOs.Files

open Bytes Inode

/-! ## Mounting -/

/-- The bits of `mode` for the owner. -/
def S_IRUSR : ℕ := 0o400

@[inherit_doc S_IRUSR] def S_IWUSR : ℕ := 0o200

@[inherit_doc S_IRUSR] def S_IXUSR : ℕ := 0o100

/-- Set all entries of an inode to -1, and three of the four pointers behind them. The
last one is written as `block_ptr_indirect[2]`. -/
def clearPointers (m : Memory) (a : ℕ) : Memory :=
  let m := (List.range 10).foldl (fun m i => set m a (block_ptr i) minusOne) m
  let m := set m a (block_ptr_indirect 1) 0
  let m := set m a (block_ptr_indirect 2) 0
  set m a block_ptr_double_indirect 0

/-- The inode of the root, in the bytes of `TEMP_INODE_BLOCK`. -/
def rootInode (m : Memory) (now : ℕ) : Memory :=
  let m := set m 0 mode (S_IRUSR ||| S_IWUSR ||| S_IXUSR)
  let m := set m 0 state dir
  let m := set m 0 uid 0
  let m := set m 0 links_count 1
  let m := set m 0 flag 0
  let m := set m 0 ctime now
  let m := set m 0 time now
  let m := set m 0 mtime now
  clearPointers m 0

/-- `sfs_init`, with the bytes of its two arrays and the time. An error ends the
process. -/
def sfsInit (TEMP_INODE_BLOCK TEMP_BITMAP_BLOCK : Memory) (now : ℕ) (s : Sfs) : Option Sfs := do
  let s := { s with numOccupiedInodeBytemap := 0, numOccupiedDataBlocksBytemap := 0 }
  match blockWrite 0 (Function.update TEMP_BITMAP_BLOCK 0 1) s with
  | (false, _) => none
  | (true, s) =>
    match blockWrite 20 (rootInode TEMP_INODE_BLOCK now) s with
    | (false, _) => none
    | (true, s) => return s

/-! ## Creating a file -/

/-- The last entry of a directory that is -1. -/
def openChildSpace (dir : Memory) (a : ℕ) : Option ℕ :=
  (List.range 10).foldl (fun found i =>
    if get dir a (block_ptr i) = minusOne then some i else found) none

/-- `strcpy`: the characters of a string and a zero are written from an address on. -/
def strcpy (m : Memory) (a : ℕ) (s : List UInt8) : Memory :=
  splice m a (s.length + 1) fun c => s.getD c 0

/-- The inode of a new file at `a`, before it has a data block. -/
def newInode (m : Memory) (a : ℕ) (newFile : List UInt8) (fileMode new_inumb now : ℕ) : Memory :=
  let m := set m a mode fileMode
  let m := set m a state file
  let m := strcpy m (a + name) newFile
  let m := set m a uid new_inumb
  let m := set m a links_count 1
  let m := set m a flag opened
  let m := set m a ctime now
  let m := set m a time now
  let m := set m a mtime now
  clearPointers m a

/-- `sfs_create`, with the two values of `rand()` and the time. A name that does not fit
in the memory of 1024 bytes is written behind it, with no defined result. -/
def sfsCreate (u : Unspecified) (path : List UInt8) (fileMode : ℕ) (rand : ℕ × ℕ) (now : ℕ)
    (s : Sfs) : Option (ℤ × Sfs) := do
  if s.numOccupiedInodeBytemap = 5000 then return (-1, s)
  let i ← lastSlash path path.length
  let newFile := substring u path (i + 1) (path.length - 1)
  let originalPath := substring u path 0 i
  let (dir_inumb, s) ← getInodeNumbFromPath u originalPath s
  let offset_in_block := offsetInBlock dir_inumb
  let (dir_block, s) ← getBlockByInodeNumb u dir_inumb s
  match openChildSpace dir_block offset_in_block with
  | none => return (-1, s)
  | some open_child_space =>
    let (new_inumb, s) ← getFreeBitMapEntry .inode rand.1 s
    let s := { s with numOccupiedInodeBytemap := s.numOccupiedInodeBytemap + 1 }
    match new_inumb with
    | none => return (-1, s)
    | some new_inumb =>
      let (temp, s) ← getBlockByInodeNumb u new_inumb s
      guard (offset_in_block + name + newFile.length + 1 ≤ 2 * BLOCK_SIZE)
      let temp := newInode temp offset_in_block newFile fileMode new_inumb now
      let (datablock_numb, s) ← getFreeBitMapEntry .data rand.2 s
      let s := { s with numOccupiedDataBlocksBytemap := s.numOccupiedDataBlocksBytemap + 1 }
      match datablock_numb with
      | none => return (-1, s)
      | some datablock_numb =>
        let temp := set temp offset_in_block (block_ptr 0) datablock_numb
        let dir_block := set dir_block offset_in_block (block_ptr open_child_space) new_inumb
        let dir_block_numb ← getBlockNumbfromInodeNumb dir_inumb
        match blockWrite (20 + dir_block_numb) dir_block s with
        | (false, s) => return (-1, s)
        | (true, s) =>
          let new_inode_block_numb ← getBlockNumbfromInodeNumb new_inumb
          match blockWrite (20 + new_inode_block_numb) temp s with
          | (false, s) => return (-1, s)
          | (true, s) => return (0, s)

/-! ## Removing a file -/

/-- `getBitmapBlock`. The result is `none` for `NULL`. -/
def getBitmapBlock (bitmapNumb : ℕ) (type : MapType) (s : Sfs) : Option (Option Memory × Sfs) := do
  let block_in ← findBlockForBitmap bitmapNumb
  return blockRead (type.offset + block_in) s

/-- `clearDataBlock`. The byte that is cleared and the blocks that are written are given
by the number of the block of the map. A map block that could not be read is `NULL`. -/
def clearDataBlock (u : Unspecified) (data_block_num : ℕ) (s : Sfs) : Option (ℤ × Sfs) := do
  let block_num ← findBlockForBitmap data_block_num
  let offset_in_block := block_num % BLOCK_SIZE
  let (block, s) ← getBitmapBlock data_block_num .data s
  let block := Function.update (← block) offset_in_block 0
  match blockWrite block_num block s with
  | (false, s) => return (-1, s)
  | (true, s) =>
    match blockWrite block_num (fun _ => 0) s with
    | (false, s) => return (-1, s)
    | (true, s) => return (u.result, s)

/-- The loop over the data blocks of a file. An error ends the process. The second
component tells whether there was an entry -1. -/
def clearDataBlocks (u : Unspecified) (inode1 : Memory) (a : ℕ) :
    List ℕ → Sfs → Bool → Option (Sfs × Bool)
  | [], s, done => some (s, done)
  | i :: is, s, done => do
    if get inode1 a (block_ptr i) = minusOne then clearDataBlocks u inode1 a is s true
    else
      let (result, s) ← clearDataBlock u (get inode1 a (block_ptr i)) s
      guard (result ≠ -1)
      clearDataBlocks u inode1 a is s done

/-- `sfs_unlink`. If the file is not among the entries of the directory, or has no entry
-1, pointers that were read from the disk are followed. -/
def sfsUnlink (u : Unspecified) (path : List UInt8) (s : Sfs) : Option (ℤ × Sfs) := do
  let i ← lastSlash path path.length
  let dirPath := substring u path 0 i
  let (inumb, s) ← getInodeNumbFromPath u path s
  let (dir_inumb, s) ← getInodeNumbFromPath u dirPath s
  let offset_in_block1 := offsetInBlock inumb
  let (inode_block, s) ← getBlockByInodeNumb u inumb s
  let inode_block_numb ← getBlockNumbfromInodeNumb inumb
  let offset_in_block := offsetInBlock dir_inumb
  let (dir_block, s) ← getBlockByInodeNumb u dir_inumb s
  let dir_block_numb ← getBlockNumbfromInodeNumb dir_inumb
  let entry ← (List.range 10).find? fun i =>
    get dir_block offset_in_block (block_ptr i) = inumb
  let dir_block := set dir_block offset_in_block (block_ptr entry) minusOne
  match blockWrite (20 + dir_block_numb) dir_block s with
  | (false, s) => return (-1, s)
  | (true, s) =>
    let (bitmap_block, s) ← getBitmapBlock inumb .inode s
    match bitmap_block with
    | none => return (-1, s)
    | some bitmap_block =>
      -- A negative number gives a byte before the block.
      guard (inumb < 2 ^ 31)
      let bitmap_block := Function.update bitmap_block (inumb % BLOCK_SIZE) 0
      let block_in ← findBlockForBitmap inumb
      match blockWrite block_in bitmap_block s with
      | (false, s) => return (-1, s)
      | (true, s) =>
        let (s, done) ← clearDataBlocks u inode_block offset_in_block1 (List.range 10) s false
        guard done
        let inode_block := splice inode_block offset_in_block1 Inode.size fun _ => 0
        match blockWrite (20 + inode_block_numb) inode_block s with
        | (false, s) => return (-1, s)
        | (true, s) =>
          -- The pointer that is freed is that of the inode, not that of the block.
          guard (offset_in_block1 = 0 ∨ u.freeReturns)
          return (0, s)

/-! ## Opening and closing a directory -/

/-- The permissions of a directory that can be opened. -/
def readable (fileMode : ℕ) : Prop :=
  fileMode &&& (S_IRUSR ||| S_IXUSR) = S_IRUSR ||| S_IXUSR

instance (fileMode : ℕ) : Decidable (readable fileMode) :=
  inferInstanceAs (Decidable (_ = _))

/-- `sfs_opendir`. The block is written back also if the flag was not set. -/
def sfsOpendir (u : Unspecified) (path : List UInt8) (s : Sfs) : Option (ℤ × Sfs) := do
  let (correct_inumb, s) ← getInodeNumbFromPath u path s
  let offset_in_block := offsetInBlock correct_inumb
  let (temp, s) ← getBlockByInodeNumb u correct_inumb s
  let good := get temp offset_in_block state = dir ∧ readable (get temp offset_in_block mode)
  let temp := if good then set temp offset_in_block flag opened else temp
  let block_num ← getBlockNumbfromInodeNumb correct_inumb
  match blockWrite (20 + block_num) temp s with
  | (false, _) => none
  | (true, s) => return (if good then 0 else -1, s)

/-- `sfs_releasedir`: the flag of the inode at the end of the path is cleared and its block is
written back. -/
def sfsReleasedir (u : Unspecified) (path : List UInt8) (s : Sfs) : Option (ℤ × Sfs) := do
  let (correct_inumb, s) ← getInodeNumbFromPath u path s
  let offset_in_block := offsetInBlock correct_inumb
  let (temp, s) ← getBlockByInodeNumb u correct_inumb s
  let temp := set temp offset_in_block flag 0
  let block_num ← getBlockNumbfromInodeNumb correct_inumb
  match blockWrite (20 + block_num) temp s with
  | (false, _) => none
  | (true, s) => return (0, s)

end SimpleOs.Files
