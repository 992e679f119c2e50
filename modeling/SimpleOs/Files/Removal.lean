import SimpleOs.Files.Creation

/-!
# What removing a file does to the disk

The entry of the directory, the byte of the inode map and the inode are cleared. For
each data block a block of the disk is cleared whose number is that of the block of the
map, counted from the beginning of the disk. The block of the inode is written back last,
as it was read at the beginning.
-/

namespace SimpleOs.Files

open Bytes Inode

variable {u : Unspecified} {s s' : Sfs} {disk : Memory} {path : List UInt8}
  {n d j b c i : ℕ} {r : ℤ}

/-! ## The data blocks -/

/-- The data blocks that an inode lists. -/
def dataBlocks (disk : Memory) (n : ℕ) : List ℕ :=
  ((List.range 10).map (entry disk n)).filter (· ≠ minusOne)

/-- The byte at `c` is in a block of the disk that is cleared for one of the data blocks. -/
def Wiped (blocks : List ℕ) (c : ℕ) : Prop := ∃ b ∈ blocks, c / BLOCK_SIZE = mapBlock b

instance (blocks : List ℕ) (c : ℕ) : Decidable (Wiped blocks c) :=
  inferInstanceAs (Decidable (∃ _ ∈ blocks, _))

/-- The disk after the blocks were cleared. -/
def wipe (disk : Memory) (blocks : List ℕ) : Memory := fun c =>
  if Wiped blocks c then 0 else disk c

/-- Clearing one block and then others is clearing them all. -/
theorem wipe_cons {blocks : List ℕ} :
    wipe (splice disk (BLOCK_SIZE * mapBlock b) BLOCK_SIZE fun _ => 0) blocks =
      wipe disk (b :: blocks) := by
  funext c
  have hcons : Wiped (b :: blocks) c ↔ c / BLOCK_SIZE = mapBlock b ∨ Wiped blocks c := by
    simp [Wiped]
  have hblock : BLOCK_SIZE * mapBlock b ≤ c ∧ c < BLOCK_SIZE * mapBlock b + BLOCK_SIZE ↔
      c / BLOCK_SIZE = mapBlock b := by
    unfold BLOCK_SIZE
    omega
  simp only [wipe, hcons, splice, hblock]
  by_cases hrest : Wiped blocks c <;> by_cases hfirst : c / BLOCK_SIZE = mapBlock b <;>
    simp [hrest, hfirst]

/-- A block of a map is read. -/
theorem getBitmapBlock_spec {type : MapType} {block : Option Memory}
    (hrun : getBitmapBlock n type s = some (block, s')) (hs : s.errors = []) (hn : n < 2 ^ 32)
    (hblock : type.offset + mapBlock n < 2 ^ 22) :
    block = some (view s.disk (BLOCK_SIZE * (type.offset + mapBlock n))) ∧ s' = s := by
  have hoffset := blockOffset_eq hblock
  unfold getBitmapBlock at hrun
  rw [findBlockForBitmap_eq hn] at hrun
  split at hrun
  · simp only [Option.bind_eq_bind, Option.bind_some, pure] at hrun
    rw [blockRead_eq hs (by rw [hoffset]; unfold BLOCK_SIZE; omega), hoffset] at hrun
    obtain ⟨rfl, rfl⟩ := Prod.mk.inj (Option.some.inj hrun)
    exact ⟨rfl, rfl⟩
  · exact absurd hrun (by simp)

/-- A block that is cleared for a data block. The map block that was changed is written
to the same place before. -/
theorem clearDataBlock_spec {result : ℤ} (hrun : clearDataBlock u b s = some (result, s'))
    (hs : s.errors = []) (hb : b < 2 ^ 32) :
    result = u.result ∧
      s' = { s with disk := splice s.disk (BLOCK_SIZE * mapBlock b) BLOCK_SIZE fun _ => 0 } := by
  unfold clearDataBlock getBitmapBlock at hrun
  rw [findBlockForBitmap_eq hb] at hrun
  split at hrun
  case isFalse => exact absurd hrun (by simp)
  have hblock : mapBlock b < 2 ^ 22 := by
    unfold mapBlock BLOCK_SIZE
    split <;> omega
  have hoffset : blockOffset (mapBlock b) = BLOCK_SIZE * mapBlock b := blockOffset_eq hblock
  have hbound : blockOffset (mapBlock b) < 2 ^ 31 := by
    rw [hoffset]
    unfold BLOCK_SIZE
    omega
  simp only [Option.bind_eq_bind, Option.bind_some, pure] at hrun
  obtain ⟨block, hread, hrun⟩ := Option.bind_eq_some_iff.mp hrun
  have hsame (k : ℕ) : (blockRead k s).2 = s := Sfs.tail_errors hs
  rw [hsame, blockWrite_eq hs hbound] at hrun
  simp only at hrun
  rw [blockWrite_eq ?_ hbound, hoffset] at hrun
  swap
  · exact hs
  obtain ⟨rfl, rfl⟩ := Prod.mk.inj (Option.some.inj hrun)
  refine ⟨rfl, congrArg (fun disk => { s with disk := disk }) ?_⟩
  funext c
  simp only [splice]
  split <;> rfl

/-- The loop over the data blocks of an inode. -/
theorem clearDataBlocks_spec {inode1 : Memory} {a : ℕ} {is : List ℕ} {done done' : Bool}
    (hrun : clearDataBlocks u inode1 a is s done = some (s', done')) (hs : s.errors = [])
    (hentry : ∀ i ∈ is, get inode1 a (block_ptr i) = entry disk n i) :
    s' = { s with disk := wipe s.disk ((is.map (entry disk n)).filter (· ≠ minusOne)) } ∧
      (done' = true → done = true ∨ ∃ i ∈ is, entry disk n i = minusOne) := by
  induction is generalizing s done with
  | nil =>
    obtain ⟨rfl, rfl⟩ := Prod.mk.inj (Option.some.inj hrun)
    have hwipe : wipe s.disk [] = s.disk := by
      funext c
      simp [wipe, Wiped]
    exact ⟨by simp [hwipe], Or.inl⟩
  | cons i is ih =>
    have hrest := fun i hi => hentry i (List.mem_cons_of_mem _ hi)
    rw [clearDataBlocks, hentry i List.mem_cons_self] at hrun
    split at hrun
    · rename_i hnone
      obtain ⟨rfl, _⟩ := ih hrun hs hrest
      refine ⟨by simp [hnone], fun _ => Or.inr ⟨i, List.mem_cons_self, hnone⟩⟩
    · rename_i hsome
      obtain ⟨⟨result, s₁⟩, hclear, hrun⟩ := Option.bind_eq_some_iff.mp hrun
      obtain ⟨rfl, rfl⟩ := clearDataBlock_spec hclear hs block_ptr_lt
      obtain ⟨_, _, hrun⟩ := Option.bind_eq_some_iff.mp hrun
      obtain ⟨rfl, hdone⟩ := ih hrun hs hrest
      refine ⟨?_, fun hd => ?_⟩
      · simp only [wipe_cons, List.map_cons]
        rw [List.filter_cons_of_pos (by simpa using hsome)]
      · rcases hdone hd with hd | ⟨k, hk, hnone⟩
        · exact Or.inl hd
        · exact Or.inr ⟨k, List.mem_cons_of_mem _ hk, hnone⟩

/-! ## The call -/

/-- The disk after the entry of the directory and the byte of the map were cleared. -/
def unlinkedDisk (u : Unspecified) (disk : Memory) (d j n : ℕ) : Memory :=
  Function.update (splice disk (inodeBlock d) BLOCK_SIZE
    (set (inodeBuffer u disk d) (offsetInBlock d) (block_ptr j) minusOne)) n 0

/-- The disk after a file was removed. -/
def removedDisk (u : Unspecified) (disk : Memory) (d j n : ℕ) : Memory :=
  splice (wipe (unlinkedDisk u disk d j n) (dataBlocks disk n)) (inodeBlock n) BLOCK_SIZE
    (splice (inodeBuffer u disk n) (offsetInBlock n) Inode.size fun _ => 0)

/-- What a call of `sfs_unlink` that succeeds has found: the file, its directory, and its
first entry there. -/
structure Unlinks (u : Unspecified) (path : List UInt8) (disk : Memory) (d j n : ℕ) : Prop where
  /-- The whole path leads to the file that is removed. -/
  file : lookup disk (strtok path) 0 = some n
  /-- The directory is given by the path before the last `/`. -/
  directory : ∃ i, lastSlash path path.length = some i ∧
    lookup disk (strtok (substring u path 0 i)) 0 = some d
  /-- The number of the file. -/
  readable : Readable n ∧ n < 2 ^ 31
  /-- The number of the directory. -/
  lt : Readable d ∧ d < 2 ^ 32
  /-- The entry of the directory is the first one with the number of the file. -/
  found : j < 10 ∧ entry disk d j = n ∧ ∀ i < j, entry disk d i ≠ n
  /-- Not all entries of the file are in use. -/
  short : ∃ i < 10, entry disk n i = minusOne

/-- The block of the map is written back with the byte of the file cleared. -/
theorem splice_clear {m : Memory} (hn : n < 2 ^ 31) :
    splice m (BLOCK_SIZE * mapBlock n) BLOCK_SIZE
      (Function.update (view m (BLOCK_SIZE * (MapType.inode.offset + mapBlock n)))
        (n % BLOCK_SIZE) 0) = Function.update m n 0 := by
  have hview : ∀ c < BLOCK_SIZE, view m (BLOCK_SIZE * (n / BLOCK_SIZE)) c =
      m (BLOCK_SIZE * (n / BLOCK_SIZE) + c) := fun _ _ => rfl
  rw [mapBlock, if_pos hn, MapType.offset, Nat.zero_add,
    splice_update hview (Nat.mod_lt _ (by decide)), Nat.div_add_mod]

/-- The way in which a call without errors ends. -/
theorem sfsUnlink_cases (hs : s.errors = []) (hrun : sfsUnlink u path s = some (r, s')) :
    r = 0 ∧ ∃ d j n, Unlinks u path s.disk d j n ∧
      s' = { s with disk := removedDisk u s.disk d j n } := by
  unfold sfsUnlink at hrun
  obtain ⟨i, hslash, hrun⟩ := Option.bind_eq_some_iff.mp hrun
  obtain ⟨⟨n, s₁⟩, hpath, hrun⟩ := Option.bind_eq_some_iff.mp hrun
  obtain ⟨hfile, hn, hsame⟩ := getInodeNumbFromPath_spec hpath hs
  obtain rfl := hsame.symm
  obtain ⟨⟨d, s₂⟩, hpath', hrun⟩ := Option.bind_eq_some_iff.mp hrun
  obtain ⟨hdir, hd, hsame⟩ := getInodeNumbFromPath_spec hpath' hs
  obtain rfl := hsame.symm
  obtain ⟨⟨inode_block, s₃⟩, hread, hrun⟩ := Option.bind_eq_some_iff.mp hrun
  obtain ⟨hreadable, rfl, hsame⟩ := getBlockByInodeNumb_spec hread hs hn
  obtain rfl := hsame.symm
  obtain ⟨numb, hnumb, hrun⟩ := Option.bind_eq_some_iff.mp hrun
  obtain ⟨⟨dir_block, s₄⟩, hread', hrun⟩ := Option.bind_eq_some_iff.mp hrun
  obtain ⟨hreadable', rfl, hsame⟩ := getBlockByInodeNumb_spec hread' hs hd
  obtain rfl := hsame.symm
  obtain ⟨numb', hnumb', hrun⟩ := Option.bind_eq_some_iff.mp hrun
  obtain ⟨j, hfind, hrun⟩ := Option.bind_eq_some_iff.mp hrun
  dsimp only at hrun
  rw [blockWrite_inode hnumb' hreadable' hs] at hrun
  obtain ⟨⟨bitmap_block, s₅⟩, hbitmap, hrun⟩ := Option.bind_eq_some_iff.mp hrun
  have hblock : mapBlock n < 2 ^ 22 := by
    unfold mapBlock BLOCK_SIZE
    split <;> omega
  obtain ⟨rfl, hsame⟩ := getBitmapBlock_spec hbitmap hs hn (by simpa [MapType.offset] using hblock)
  obtain rfl := hsame.symm
  obtain ⟨_, hguard, hrun⟩ := Option.bind_eq_some_iff.mp hrun
  have hpos := (Option.guard_eq_some' _).mp hguard
  obtain ⟨block_in, hblock_in, hrun⟩ := Option.bind_eq_some_iff.mp hrun
  have hn24 : n < 2 ^ 24 := by
    unfold Readable at hreadable
    omega
  rw [findBlockForBitmap_eq hn, if_pos (by omega)] at hblock_in
  obtain rfl := Option.some.inj hblock_in
  have hoffset := blockOffset_eq hblock
  rw [blockWrite_eq ?_ (by rw [hoffset]; unfold BLOCK_SIZE; omega), hoffset] at hrun
  swap
  · exact hs
  obtain ⟨⟨s₆, done⟩, hclear, hrun⟩ := Option.bind_eq_some_iff.mp hrun
  have hentries : ∀ i ∈ List.range 10,
      get (inodeBuffer u s.disk n) (offsetInBlock n) (block_ptr i) = entry s.disk n i := by
    intro i hi
    have hlt := List.mem_range.mp hi
    exact get_inodeBuffer (by simp only [block_ptr, Inode.size]; omega)
  obtain ⟨rfl, hdone⟩ := clearDataBlocks_spec hclear hs hentries
  obtain ⟨_, hguard', hrun⟩ := Option.bind_eq_some_iff.mp hrun
  dsimp only at hrun
  rw [blockWrite_inode hnumb hreadable] at hrun
  swap
  · exact hs
  obtain ⟨_, _, hrun⟩ := Option.bind_eq_some_iff.mp hrun
  obtain ⟨rfl, rfl⟩ := Prod.mk.inj (Option.some.inj hrun)
  refine ⟨rfl, d, j, n, ⟨hfile, ⟨i, hslash, hdir⟩, ⟨hreadable, hpos⟩, ⟨hreadable', hd⟩, ?_, ?_⟩, ?_⟩
  · obtain ⟨hj, hmem, hbefore⟩ := List.find?_range_eq_some.mp hfind
    have hlt := List.mem_range.mp hmem
    have hentry (i : ℕ) (hi : i < 10) : get (inodeBuffer u s.disk d) (offsetInBlock d)
        (block_ptr i) = entry s.disk d i :=
      get_inodeBuffer (by simp only [block_ptr, Inode.size]; omega)
    refine ⟨hlt, ?_, fun i hi => ?_⟩
    · rw [← hentry j hlt]
      exact of_decide_eq_true hj
    · rw [← hentry i (by omega)]
      simpa using hbefore i hi
  · obtain ⟨k, hk, hnone⟩ := (hdone ((Option.guard_eq_some' _).mp hguard')).resolve_left (by simp)
    exact ⟨k, List.mem_range.mp hk, hnone⟩
  · simp only [splice_clear hpos]
    rfl

/-! ## The bytes afterwards -/

/-- The entry and the byte of the map. -/
theorem unlinkedDisk_eq (hj : j < 10) :
    unlinkedDisk u disk d j n =
      Function.update (set disk (inodeAt d) (block_ptr j) minusOne) n 0 := by
  have hle := offsetInBlock_le (n := d)
  rw [unlinkedDisk, splice_set (fun c hc => inodeBuffer_apply hc), inodeAt]
  unfold Inode.size at hle
  simp only [block_ptr]
  omega

/-- In its own block only the record of the file is cleared. -/
theorem removedDisk_inside (hc : c < BLOCK_SIZE) :
    removedDisk u disk d j n (inodeBlock n + c) =
      if offsetInBlock n ≤ c ∧ c < offsetInBlock n + Inode.size then 0
      else disk (inodeBlock n + c) := by
  rw [removedDisk, splice_inside hc, splice, inodeBuffer_apply hc]

/-- Outside of the block of the file's inode, map blocks are wiped and the rest is as after the
first two writes. -/
theorem removedDisk_outside (hc : c < inodeBlock n ∨ inodeBlock n + BLOCK_SIZE ≤ c) :
    removedDisk u disk d j n c =
      if Wiped (dataBlocks disk n) c then 0 else unlinkedDisk u disk d j n c := by
  rw [removedDisk, splice_outside hc, wipe]

/-- The inode of the file is cleared. -/
theorem removedDisk_file (hc : inodeAt n ≤ c) (hlt : c < inodeAt n + Inode.size) :
    removedDisk u disk d j n c = 0 := by
  have hle := offsetInBlock_le (n := n)
  unfold inodeAt at hc hlt
  obtain ⟨k, rfl⟩ := Nat.exists_eq_add_of_le (show inodeBlock n ≤ c by omega)
  rw [removedDisk_inside (by omega), if_pos (by omega)]

/-- The other inodes of the block are as before. -/
theorem removedDisk_neighbour {q : ℕ} (hblock : inodeBlock q = inodeBlock n)
    (hne : offsetInBlock q ≠ offsetInBlock n) :
    SameInode disk (removedDisk u disk d j n) q := by
  intro c hc hlt
  have hle := offsetInBlock_le (n := q)
  unfold inodeAt at hc hlt
  rw [hblock] at hc hlt
  obtain ⟨k, rfl⟩ := Nat.exists_eq_add_of_le (show inodeBlock n ≤ c by omega)
  rw [removedDisk_inside (by omega), if_neg]
  unfold offsetInBlock Inode.size BLOCK_SIZE at *
  omega

/-- The bytes of an inode are in its block. -/
theorem mem_inodeBlock {q : ℕ} (hc : inodeAt q ≤ c) (hlt : c < inodeAt q + Inode.size) :
    inodeBlock q ≤ c ∧ c < inodeBlock q + BLOCK_SIZE ∧
      c / BLOCK_SIZE = inodeBlock q / BLOCK_SIZE := by
  have hle := offsetInBlock_le (n := q)
  obtain ⟨x, hx⟩ := inodeBlock_dvd q
  unfold inodeAt at hc hlt
  rw [hx] at hc hlt ⊢
  unfold BLOCK_SIZE at *
  omega

/-- An inode of another block that is wiped. -/
theorem removedDisk_wiped {q : ℕ} (hblock : inodeBlock q ≠ inodeBlock n)
    (hwiped : Wiped (dataBlocks disk n) (inodeBlock q)) (hc : inodeAt q ≤ c)
    (hlt : c < inodeAt q + Inode.size) : removedDisk u disk d j n c = 0 := by
  have hapart := inodeBlock_apart hblock
  obtain ⟨hlow, hhigh, hdiv⟩ := mem_inodeBlock hc hlt
  rw [removedDisk_outside (by omega), if_pos]
  rwa [Wiped, hdiv]

/-- An inode of another block that is not wiped. -/
theorem removedDisk_far {q : ℕ} (hblock : inodeBlock q ≠ inodeBlock n)
    (hwiped : ¬ Wiped (dataBlocks disk n) (inodeBlock q)) :
    SameInode (unlinkedDisk u disk d j n) (removedDisk u disk d j n) q := by
  intro c hc hlt
  have hapart := inodeBlock_apart hblock
  obtain ⟨hlow, hhigh, hdiv⟩ := mem_inodeBlock hc hlt
  rw [removedDisk_outside (by omega), if_neg]
  rwa [Wiped, hdiv]

end SimpleOs.Files
