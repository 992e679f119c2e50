import SimpleOs.Files.Directories

/-!
# Mounting

`sfs_init` writes the first block of the inode map and the block of the root, both from
arrays of which it sets only some bytes. The other 18 blocks of the maps, and with them
their entries, stay as they were.
-/

namespace SimpleOs.Files

open Bytes Inode

variable {s s' : Sfs} {disk TEMP_INODE_BLOCK TEMP_BITMAP_BLOCK : Memory} {now c : ℕ} {f : Field}

/-- The disk after `sfs_init`, which writes the first block of the inode map and that of the root.
-/
def mountDisk (disk TEMP_INODE_BLOCK TEMP_BITMAP_BLOCK : Memory) (now : ℕ) : Memory :=
  splice (splice disk 0 BLOCK_SIZE (Function.update TEMP_BITMAP_BLOCK 0 1)) (inodeBlock 0)
    BLOCK_SIZE (rootInode TEMP_INODE_BLOCK now)

/-- What a call of `sfs_init` that returns has done. -/
theorem sfsInit_eq_some (h : sfsInit TEMP_INODE_BLOCK TEMP_BITMAP_BLOCK now s = some s') :
    s' =
      { disk := mountDisk s.disk TEMP_INODE_BLOCK TEMP_BITMAP_BLOCK now
        errors := s.errors.tail.tail
        numOccupiedInodeBytemap := 0
        numOccupiedDataBlocksBytemap := 0 } := by
  simp only [sfsInit] at h
  split at h
  · exact absurd h (by simp)
  rename_i s₁ hmap
  obtain ⟨_, rfl⟩ := blockWrite_true hmap
  split at h
  · exact absurd h (by simp)
  rename_i s₂ hroot
  obtain ⟨_, rfl⟩ := blockWrite_true hroot
  exact (Option.some.inj h).symm

theorem sfsInit_disk (h : sfsInit TEMP_INODE_BLOCK TEMP_BITMAP_BLOCK now s = some s') :
    s'.disk = mountDisk s.disk TEMP_INODE_BLOCK TEMP_BITMAP_BLOCK now :=
  congrArg Sfs.disk (sfsInit_eq_some h)

/-- Without errors `sfs_init` returns, whatever is on the disk and in the arrays. -/
theorem sfsInit_isSome (hs : s.errors = []) :
    ∃ s', sfsInit TEMP_INODE_BLOCK TEMP_BITMAP_BLOCK now s = some s' := by
  simp only [sfsInit]
  rw [blockWrite_eq ?_ (by decide)]
  swap
  · exact hs
  simp only
  rw [blockWrite_eq ?_ (by decide)]
  swap
  · exact hs
  exact ⟨_, rfl⟩

/-- The fields of the root of a new file system. -/
theorem rootInode_fields {m : Memory} :
    get (rootInode m now) 0 state = dir ∧
      ∀ i < 10, get (rootInode m now) 0 (block_ptr i) = minusOne := by
  constructor
  · refine (get_clearPointers (by decide)).trans ?_
    simp (disch := decide) only [get_set_of_disjoint, get_set_self]
    decide
  · exact fun i hi => clearPointers_entry hi

/-- The first block of the inode map is that of the array. -/
theorem mountDisk_first (hc : c < BLOCK_SIZE) :
    mountDisk disk TEMP_INODE_BLOCK TEMP_BITMAP_BLOCK now c =
      if c = 0 then 1 else TEMP_BITMAP_BLOCK c := by
  have hroot : c < inodeBlock 0 := by
    rw [inodeBlock_eq (by decide)]
    unfold BLOCK_SIZE at *
    omega
  rw [mountDisk, splice_outside (Or.inl hroot), splice, if_pos (by omega), Nat.sub_zero,
    Function.update_apply]

/-- The root is in use, and has no entries. -/
theorem mountDisk_root :
    mountDisk disk TEMP_INODE_BLOCK TEMP_BITMAP_BLOCK now (MapType.inode.entry 0) = 1 ∧
      IsDirectory (mountDisk disk TEMP_INODE_BLOCK TEMP_BITMAP_BLOCK now) 0 ∧
      ∀ i < 10, entry (mountDisk disk TEMP_INODE_BLOCK TEMP_BITMAP_BLOCK now) 0 i = minusOne := by
  have hfield (f : Field) (hf : f.offset + f.width ≤ BLOCK_SIZE) :
      get (mountDisk disk TEMP_INODE_BLOCK TEMP_BITMAP_BLOCK now) (inodeAt 0) f =
        get (rootInode TEMP_INODE_BLOCK now) 0 f := by
    rw [Bytes.get, Bytes.get, Nat.zero_add]
    exact load_splice_inside hf
  obtain ⟨hstate, hentries⟩ := @rootInode_fields now TEMP_INODE_BLOCK
  refine ⟨?_, ?_, ?_⟩
  · exact mountDisk_first (by decide)
  · exact (hfield _ (by decide)).trans hstate
  · intro i hi
    rw [← hentries i hi]
    apply hfield
    simp only [block_ptr, BLOCK_SIZE]
    omega

/-- The other blocks before the inodes are as before. -/
theorem mountDisk_maps (hc : BLOCK_SIZE ≤ c) (hlt : c < inodeBlock 0) :
    mountDisk disk TEMP_INODE_BLOCK TEMP_BITMAP_BLOCK now c = disk c := by
  rw [mountDisk, splice_outside (Or.inl hlt), splice_outside (Or.inr (by omega))]

/-- An empty file system: of both maps only the entry of the root is 1, and the root is a
directory without entries. -/
structure EmptyFileSystem (disk : Memory) : Prop where
  /-- The inode of the root is in use. -/
  root : disk (MapType.inode.entry 0) = 1
  /-- The other inodes are free. -/
  inodes : ∀ n, 1 ≤ n → n < 5000 → disk (MapType.inode.entry n) ≠ 1
  /-- The data blocks are free. -/
  blocks : ∀ n < 5000, disk (MapType.data.entry n) ≠ 1
  /-- The root is a directory. -/
  directory : IsDirectory disk 0
  /-- The root has no entries. -/
  empty : ∀ i < 10, entry disk 0 i = minusOne

/-- After `sfs_init` the file system is empty exactly if the array for the map had no 1
behind its first byte, and the disk had none in the rest of the inode map and in the data
map. -/
theorem mounted_empty_iff (TEMP_INODE_BLOCK TEMP_BITMAP_BLOCK : Memory) (now : ℕ) (s s' : Sfs)
    (h : sfsInit TEMP_INODE_BLOCK TEMP_BITMAP_BLOCK now s = some s') :
    EmptyFileSystem s'.disk ↔
      (∀ c, 1 ≤ c → c < BLOCK_SIZE → TEMP_BITMAP_BLOCK c ≠ 1) ∧
        (∀ n, BLOCK_SIZE ≤ n → n < 5000 → s.disk (MapType.inode.entry n) ≠ 1) ∧
        ∀ n < 5000, s.disk (MapType.data.entry n) ≠ 1 := by
  rw [sfsInit_disk h]
  have hinode (n : ℕ) : MapType.inode.entry n = n := by
    simp only [MapType.entry, MapType.offset, Nat.mul_zero, Nat.zero_add]
  have hrest (n : ℕ) (hn : BLOCK_SIZE ≤ n) (hlt : n < 5000) :
      mountDisk s.disk TEMP_INODE_BLOCK TEMP_BITMAP_BLOCK now n = s.disk n := by
    apply mountDisk_maps hn
    rw [inodeBlock_eq (by decide)]
    unfold BLOCK_SIZE
    omega
  have hdata (n : ℕ) (hn : n < 5000) :
      mountDisk s.disk TEMP_INODE_BLOCK TEMP_BITMAP_BLOCK now (MapType.data.entry n) =
        s.disk (MapType.data.entry n) := by
    apply mountDisk_maps
    · simp only [MapType.entry, MapType.offset, BLOCK_SIZE]
      omega
    · rw [inodeBlock_eq (by decide)]
      simp only [MapType.entry, MapType.offset, BLOCK_SIZE]
      omega
  obtain ⟨hroot, hdirectory, hempty⟩ :=
    @mountDisk_root s.disk TEMP_INODE_BLOCK TEMP_BITMAP_BLOCK now
  constructor
  · intro hsystem
    refine ⟨?_, ?_, ?_⟩
    · intro c hc hlt
      have hfree := hsystem.inodes c hc (by unfold BLOCK_SIZE at hlt; omega)
      rw [hinode, mountDisk_first hlt, if_neg (by omega)] at hfree
      exact hfree
    · intro n hn hlt
      have hfree := hsystem.inodes n (by unfold BLOCK_SIZE at hn; omega) hlt
      rw [hinode, hrest n hn hlt] at hfree
      rwa [hinode]
    · intro n hn
      have hfree := hsystem.blocks n hn
      rwa [hdata n hn] at hfree
  · rintro ⟨hfirst, hinodes, hblocks⟩
    constructor
    · exact hroot
    · intro n hn hlt
      rw [hinode]
      by_cases hblock : n < BLOCK_SIZE
      · rw [mountDisk_first hblock, if_neg (by omega)]
        exact hfirst n hn hblock
      · rw [hrest n (by omega) hlt, ← hinode n]
        exact hinodes n (by omega) hlt
    · intro n hn
      rw [hdata n hn]
      exact hblocks n hn
    · exact hdirectory
    · exact hempty

/-- What an earlier use may leave: a first block of ones, other map bytes that are neither 0 nor
1, and inodes that are not cleared. -/
def leftover : Memory := fun c =>
  if c < BLOCK_SIZE then 1 else if c < 20 * BLOCK_SIZE then 2 else 255

/-- Behind the first block, the map bytes that are left are 2. -/
theorem leftover_map (hc : BLOCK_SIZE ≤ c) (hlt : c < 20 * BLOCK_SIZE) : leftover c ≠ 1 := by
  rw [leftover, if_neg (by omega), if_pos hlt]
  decide

/-- A disk that was in use, and arrays that are not zero-filled, give an empty file system. -/
theorem mounted_empty_leftover : ∃ s',
    sfsInit (fun _ => 7) (fun c => if c = 0 then 1 else 2) 5 ⟨leftover, [], 40, 30⟩ = some s' ∧
      EmptyFileSystem s'.disk := by
  obtain ⟨s', hinit⟩ := @sfsInit_isSome ⟨leftover, [], 40, 30⟩ (fun _ => 7)
    (fun c => if c = 0 then 1 else 2) 5 rfl
  refine ⟨s', hinit, (mounted_empty_iff _ _ 5 _ s' hinit).mpr ⟨?_, ?_, ?_⟩⟩
  · intro c hc _
    rw [if_neg (by omega)]
    decide
  · intro n hn hlt
    apply leftover_map <;> simp only [MapType.entry, MapType.offset, BLOCK_SIZE] at hn ⊢ <;> omega
  · intro n hn
    apply leftover_map <;> simp only [MapType.entry, MapType.offset, BLOCK_SIZE] <;> omega

/-- On a disk on which data block 7 is in use it stays so, with zero-filled arrays. -/
theorem mounted_not_empty : ∃ s',
    sfsInit (fun _ => 0) (fun _ => 0) 0
        ⟨Function.update (fun _ => 0) (MapType.data.entry 7) 1, [], 0, 0⟩ = some s' ∧
      s'.disk (MapType.data.entry 7) = 1 ∧ ¬EmptyFileSystem s'.disk := by
  obtain ⟨s', hinit⟩ := @sfsInit_isSome
    ⟨Function.update (fun _ => 0) (MapType.data.entry 7) 1, [], 0, 0⟩
    (fun _ => 0) (fun _ => 0) 0 rfl
  have hused : s'.disk (MapType.data.entry 7) = 1 := by
    have hlow : BLOCK_SIZE ≤ MapType.data.entry 7 := by decide
    rw [sfsInit_disk hinit, mountDisk_maps hlow (by decide)]
    simp
  exact ⟨s', hinit, hused, fun hsystem => hsystem.blocks 7 (by decide) hused⟩

end SimpleOs.Files
