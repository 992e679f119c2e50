import SimpleOs.Files.Directories

/-!
# What removing a file frees

The byte of a data block in its map and the data block itself should be cleared. What is
cleared instead is the block of the disk whose number is that of the block of the map.
-/

namespace SimpleOs.Files

open Bytes Inode

variable {u : Unspecified} {s s' : Sfs} {disk disk' : Memory} {path : List UInt8}
  {d j n c b i : ℕ}

/-! ## Paths with one name -/

/-- The last `/` of a path with one name is the first character. -/
theorem lastSlash_cons {str : List UInt8} (hstr : slash ∉ str) {k : ℕ} (hk : k ≤ str.length) :
    lastSlash (slash :: str) (k + 1) = some 0 := by
  have hlast : lastSlash ([] ++ slash :: str) (0 + 1 + k) = some 0 := lastSlash_append hstr hk
  rwa [Nat.zero_add, Nat.add_comm] at hlast

/-- The directory of a path with one name is the root. -/
theorem Unlinks.root {str : List UInt8} (hstr : slash ∉ str)
    (h : Unlinks u (slash :: str) disk d j n) : d = 0 := by
  obtain ⟨i, hi, hd⟩ := h.directory
  rw [List.length_cons, lastSlash_cons hstr le_rfl] at hi
  obtain rfl := Option.some.inj hi
  have hroot : strtok (substring u (slash :: str) 0 0) = [] := rfl
  rw [hroot] at hd
  exact (Option.some.inj hd).symm

/-! ## The bytes that are freed -/

/-- The two maps, and the data blocks. -/
def MapsOrData (c : ℕ) : Prop :=
  c < 20 * BLOCK_SIZE ∨ 2784 * BLOCK_SIZE ≤ c ∧ c < 7784 * BLOCK_SIZE

/-- The bytes that belong to inode `n`: its byte in the map, and for each of its data blocks
the byte in the map and the data block. -/
def Owned (disk : Memory) (n c : ℕ) : Prop :=
  c = MapType.inode.entry n ∨
    ∃ b ∈ dataBlocks disk n, c = MapType.data.entry b ∨ c / BLOCK_SIZE = 2784 + b

/-- Exactly the bytes that belong to inode `n` are cleared, as far as the maps and the data
blocks go. -/
def FreesOwned (disk disk' : Memory) (n : ℕ) : Prop :=
  (∀ c, Owned disk n c → disk' c = 0) ∧ ∀ c, MapsOrData c → ¬ Owned disk n c → disk' c = disk c

/-- The byte at `c` is in the block of inode `n`. -/
def InBlock (n c : ℕ) : Prop := inodeBlock n ≤ c ∧ c < inodeBlock n + BLOCK_SIZE

instance (n c : ℕ) : Decidable (InBlock n c) := inferInstanceAs (Decidable (_ ∧ _))

/-- The bytes that are cleared: the inode, and outside of its block the byte of the map and
the blocks that are wiped. -/
def Cleared (disk : Memory) (n c : ℕ) : Prop :=
  inodeAt n ≤ c ∧ c < inodeAt n + Inode.size ∨
    ¬ InBlock n c ∧ (c = n ∨ Wiped (dataBlocks disk n) c)

/-- The bytes of entry `j` of the root, which is set to -1, unless the root is in the block
of inode `n`. -/
def Marked (j n c : ℕ) : Prop :=
  ¬ InBlock n c ∧ inodeAt 0 + (64 + 4 * j) ≤ c ∧ c < inodeAt 0 + (64 + 4 * j) + 4

instance (j n c : ℕ) : Decidable (Marked j n c) := inferInstanceAs (Decidable (_ ∧ _))

/-- The bytes that belong to the inode are cleared or were zero, and those that are cleared
belong to it or were zero. -/
def ClearsOwned (disk : Memory) (j n : ℕ) : Prop :=
  (∀ c, Owned disk n c → Cleared disk n c ∨ disk c = 0 ∧ ¬ Marked j n c) ∧
    ∀ c, MapsOrData c → Cleared disk n c → Owned disk n c ∨ disk c = 0

/-- A byte that is cleared is 0 on the new disk. -/
theorem removedDisk_cleared (hj : j < 10) (hc : Cleared disk n c) :
    removedDisk u disk d j n c = 0 := by
  rcases hc with ⟨hc, hlt⟩ | ⟨hout, hc⟩
  · exact removedDisk_file hc hlt
  · rw [removedDisk_outside (by unfold InBlock at hout; omega)]
    split
    · rfl
    · rename_i hwiped
      obtain rfl := hc.resolve_right hwiped
      rw [unlinkedDisk_eq hj, Function.update_self]

/-- A byte that is not cleared is as before, unless it is one of the entry that is set to -1. -/
theorem removedDisk_kept (hj : j < 10) (hc : ¬ Cleared disk n c) :
    removedDisk u disk 0 j n c = if Marked j n c then 255 else disk c := by
  by_cases hin : InBlock n c
  · have hrecord : ¬ (inodeAt n ≤ c ∧ c < inodeAt n + Inode.size) := fun h => hc (Or.inl h)
    rw [if_neg fun h => h.1 hin]
    obtain ⟨k, rfl⟩ := Nat.exists_eq_add_of_le hin.1
    have hlt := hin.2
    rw [removedDisk_inside (by omega), if_neg]
    unfold inodeAt at hrecord
    omega
  · have hne : c ≠ n := fun h => hc (Or.inr ⟨hin, Or.inl h⟩)
    have hwiped : ¬ Wiped (dataBlocks disk n) c := fun h => hc (Or.inr ⟨hin, Or.inr h⟩)
    rw [removedDisk_outside (by unfold InBlock at hin; omega), if_neg hwiped]
    split
    · rename_i hmarked
      obtain ⟨_, hlow, hhigh⟩ := hmarked
      obtain ⟨k, rfl⟩ := Nat.exists_eq_add_of_le hlow
      rw [unlinkedDisk_cleared hj (by omega), if_neg hne]
    · rename_i hmarked
      have hout : ¬ (inodeAt 0 + (64 + 4 * j) ≤ c ∧ c < inodeAt 0 + (64 + 4 * j) + 4) :=
        fun h => hmarked ⟨hin, h⟩
      rw [unlinkedDisk_apply hj (by omega), Function.update_of_ne hne]

/-- The entries of the root are neither in the maps nor in the data blocks. -/
theorem MapsOrData.not_marked (hj : j < 10) (hc : MapsOrData c) : ¬ Marked j n c := by
  rintro ⟨_, hlow, hhigh⟩
  have hroot : inodeAt 0 = 20 * BLOCK_SIZE := by decide
  unfold MapsOrData at hc
  rw [hroot] at hlow hhigh
  unfold BLOCK_SIZE at *
  omega

/-- The effect of the call is right exactly if the bytes that belong to the inode are those
that are cleared, as far as they were not zero. -/
theorem freesOwned_removedDisk_iff (hj : j < 10) :
    FreesOwned disk (removedDisk u disk 0 j n) n ↔ ClearsOwned disk j n := by
  constructor
  · rintro ⟨hfreed, hsame⟩
    constructor
    · intro c hc
      by_cases hcleared : Cleared disk n c
      · exact Or.inl hcleared
      · have hzero := hfreed c hc
        rw [removedDisk_kept hj hcleared] at hzero
        split at hzero
        · exact absurd hzero (by decide)
        · rename_i hmarked
          exact Or.inr ⟨hzero, hmarked⟩
    · intro c harea hcleared
      by_cases hc : Owned disk n c
      · exact Or.inl hc
      · right
        rw [← hsame c harea hc]
        exact removedDisk_cleared hj hcleared
  · rintro ⟨howned, hcleared⟩
    constructor
    · intro c hc
      rcases howned c hc with hclear | ⟨hzero, hmarked⟩
      · exact removedDisk_cleared hj hclear
      · by_cases hclear : Cleared disk n c
        · exact removedDisk_cleared hj hclear
        · rw [removedDisk_kept hj hclear, if_neg hmarked, hzero]
    · intro c harea hc
      by_cases hclear : Cleared disk n c
      · rw [removedDisk_cleared hj hclear, (hcleared c harea hclear).resolve_left hc]
      · rw [removedDisk_kept hj hclear, if_neg (harea.not_marked hj)]

/-- For each data block `b` of inode `n`, its byte in the map and the data block are zero
already, and so is disk block `b / 512`, except for the byte of the inode in its map. -/
def ZeroAlready (disk : Memory) (n : ℕ) : Prop :=
  ∀ b ∈ dataBlocks disk n, disk (MapType.data.entry b) = 0 ∧
    (∀ c, c / BLOCK_SIZE = 2784 + b → disk c = 0) ∧
    ∀ c, c / BLOCK_SIZE = b / BLOCK_SIZE → c ≠ n → disk c = 0

/-- For the numbers that the maps give, a data block is cleared only if there is nothing to
clear. -/
theorem clearsOwned_iff (hn : n < 5000) (hb : ∀ b ∈ dataBlocks disk n, b < 5000) (hj : j < 10) :
    ClearsOwned disk j n ↔ ZeroAlready disk n := by
  have hat : inodeAt n = 20 * BLOCK_SIZE + Inode.size * n := inodeAt_eq (by omega)
  have hmap (b : ℕ) (hmem : b ∈ dataBlocks disk n) : mapBlock b = b / BLOCK_SIZE :=
    if_pos (by have := hb b hmem; omega)
  have hentry : MapType.inode.entry n = n := by simp [MapType.entry, MapType.offset]
  have hentry' (b : ℕ) : MapType.data.entry b = 10 * BLOCK_SIZE + b := by
    simp [MapType.entry, MapType.offset, Nat.mul_comm]
  -- what is cleared in the maps and in the data blocks
  have hcleared (c : ℕ) (hc : MapsOrData c) :
      Cleared disk n c ↔ c = n ∨ ∃ b ∈ dataBlocks disk n, c / BLOCK_SIZE = b / BLOCK_SIZE := by
    have hout : ¬ InBlock n c ∧ ¬ (inodeAt n ≤ c ∧ c < inodeAt n + Inode.size) := by
      have hblock : inodeBlock n = BLOCK_SIZE * (20 + n / 4) := inodeBlock_eq (by omega)
      unfold InBlock
      rw [hat, hblock]
      unfold MapsOrData BLOCK_SIZE at hc
      unfold BLOCK_SIZE Inode.size
      omega
    unfold Cleared
    rw [or_iff_right hout.2, and_iff_right hout.1]
    refine or_congr Iff.rfl (exists_congr fun b => and_congr_right fun hmem => ?_)
    rw [hmap b hmem]
  have howned (c : ℕ) : Owned disk n c ↔ c = n ∨
      ∃ b ∈ dataBlocks disk n, c = 10 * BLOCK_SIZE + b ∨ c / BLOCK_SIZE = 2784 + b := by
    unfold Owned
    rw [hentry]
    simp only [hentry']
  constructor
  · rintro ⟨hfirst, hsecond⟩ b hmem
    have hlt := hb b hmem
    -- a byte of a data block is not cleared
    have hzero (c : ℕ) (harea : MapsOrData c)
        (hc : c = 10 * BLOCK_SIZE + b ∨ c / BLOCK_SIZE = 2784 + b) : disk c = 0 := by
      rcases hfirst c ((howned c).mpr (Or.inr ⟨b, hmem, hc⟩)) with hclear | ⟨hzero, _⟩
      · rcases (hcleared c harea).mp hclear with rfl | ⟨b', hmem', hsame⟩
        · unfold BLOCK_SIZE at hc
          omega
        · have hlt' := hb b' hmem'
          unfold BLOCK_SIZE at hc hsame
          omega
      · exact hzero
    refine ⟨?_, fun c hc => ?_, fun c hc hne => ?_⟩
    · rw [hentry']
      exact hzero _ (by unfold MapsOrData BLOCK_SIZE; omega) (Or.inl rfl)
    · exact hzero c (by unfold MapsOrData; unfold BLOCK_SIZE at *; omega) (Or.inr hc)
    · have harea : MapsOrData c := by
        unfold MapsOrData
        unfold BLOCK_SIZE at *
        omega
      refine (hsecond c harea ((hcleared c harea).mpr (Or.inr ⟨b, hmem, hc⟩))).resolve_left ?_
      intro hown
      rcases (howned c).mp hown with heq | ⟨b', hmem', hsame⟩
      · exact hne heq
      · unfold BLOCK_SIZE at *
        omega
  · intro h
    constructor
    · intro c hown
      rcases (howned c).mp hown with heq | ⟨b, hmem, hc⟩
      · refine Or.inl ((hcleared c ?_).mpr (Or.inl heq))
        unfold MapsOrData BLOCK_SIZE
        omega
      · obtain ⟨hmapByte, hdata, _⟩ := h b hmem
        have hlt := hb b hmem
        right
        constructor
        · rcases hc with rfl | hc
          · rwa [hentry'] at hmapByte
          · exact hdata c hc
        · apply MapsOrData.not_marked hj
          unfold MapsOrData
          unfold BLOCK_SIZE at *
          omega
    · intro c harea hclear
      rcases (hcleared c harea).mp hclear with heq | ⟨b, hmem, hc⟩
      · exact Or.inl ((howned c).mpr (Or.inl heq))
      · by_cases hne : c = n
        · exact Or.inl ((howned c).mpr (Or.inl hne))
        · exact Or.inr ((h b hmem).2.2 c hc hne)

/-- When a file in the root is removed, exactly the bytes that belong to it are cleared if and
only if there was nothing to clear: the bytes of its data blocks in the map and the data
blocks were zero, and so were the other bytes of the blocks of the inode map that are cleared
instead. With numbers that are not in the maps, the blocks that are cleared may lie anywhere;
then the bytes that belong to the file and those in these blocks must be the same, or zero. -/
theorem unlink_frees_own_iff (u : Unspecified) (str : List UInt8) (hstr : slash ∉ str)
    (s s' : Sfs) (hrun : sfsUnlink u (slash :: str) s = some (0, s')) (d j n : ℕ)
    (hunlinks : Unlinks u (slash :: str) s.disk d j n) :
    ((n < 5000 ∧ ∀ b ∈ dataBlocks s.disk n, b < 5000) →
      (FreesOwned s.disk s'.disk n ↔ ZeroAlready s.disk n)) ∧
    (FreesOwned s.disk s'.disk n ↔ ClearsOwned s.disk j n) := by
  obtain ⟨hj, _⟩ := hunlinks.found
  have hfrees : FreesOwned s.disk s'.disk n ↔ ClearsOwned s.disk j n := by
    rw [hunlinks.disk_eq hrun, hunlinks.root hstr]
    exact freesOwned_removedDisk_iff hj
  exact ⟨fun ⟨hn, hb⟩ => hfrees.trans (clearsOwned_iff hn hb hj), hfrees⟩

/-! ## Runs on given inputs -/

/-- The root with the file `a`, whose data block 600 is not marked in the map. -/
def unmarkedDisk : Memory := Function.update (fileDisk 4 600) 5720 0

/-- Behind the first block of the inode map, and before and behind the two inodes, nothing is
marked but the data block. -/
theorem fileDisk_apply {b c : ℕ} (hc : BLOCK_SIZE ≤ c)
    (hout : c < 20 * BLOCK_SIZE ∨ 22 * BLOCK_SIZE ≤ c) (hne : c ≠ 5120 + b) :
    fileDisk 4 b c = 0 := by
  have hat : inodeAt 4 = 20 * BLOCK_SIZE + 512 := inodeAt_eq (by decide)
  have hroot : inodeAt 0 = 20 * BLOCK_SIZE := inodeAt_eq (by decide)
  have hname (m : Memory) : strcpy m (inodeAt 4 + name) (chars "a") c = m c := by
    have hlength : (chars "a").length = 1 := by decide +kernel
    apply splice_outside
    rw [hat, hlength]
    unfold name
    unfold BLOCK_SIZE at hout ⊢
    omega
  have hset {m : Memory} {a v : ℕ} (ha : a = inodeAt 0 ∨ a = inodeAt 4) :
      set m a (block_ptr 0) v c = m c := by
    apply set_apply
    simp only [block_ptr]
    rcases ha with rfl | rfl
    · rw [hroot]
      unfold BLOCK_SIZE at hout ⊢
      omega
    · rw [hat]
      unfold BLOCK_SIZE at hout ⊢
      omega
  unfold BLOCK_SIZE at hc hout
  unfold fileDisk
  rw [hset (.inr rfl), newInode_apply (by rw [hat]; unfold BLOCK_SIZE Inode.size; omega), hname,
    Function.update_of_ne hne, Function.update_of_ne (by omega), hset (.inl rfl), mountedDisk,
    splice_outside (by unfold BLOCK_SIZE; omega), Function.update_of_ne (by omega)]

/-- Inodes 512 to 1023 and data block 600 are not in use. -/
theorem unmarkedDisk_zero : ZeroAlready unmarkedDisk 4 := by
  have hblocks : dataBlocks unmarkedDisk 4 = [600] := by decide +kernel
  have hzero (c : ℕ) (hc : c / BLOCK_SIZE = 1 ∨ c / BLOCK_SIZE = 3384) : unmarkedDisk c = 0 := by
    have hbounds : BLOCK_SIZE ≤ c ∧ (c < 2 * BLOCK_SIZE ∨ 3384 * BLOCK_SIZE ≤ c) := by
      unfold BLOCK_SIZE at hc ⊢
      omega
    unfold BLOCK_SIZE at hbounds
    rw [unmarkedDisk, Function.update_of_ne (by omega)]
    exact fileDisk_apply (by unfold BLOCK_SIZE; omega) (by unfold BLOCK_SIZE; omega) (by omega)
  intro b hb
  rw [hblocks, List.mem_singleton] at hb
  subst hb
  exact ⟨by decide +kernel, fun c hc => hzero c (.inr hc), fun c hc _ => hzero c (.inl hc)⟩

/-- Removing this file clears nothing but its byte in the inode map. -/
theorem unlink_frees_own_unmarked :
    ∃ s', sfsUnlink sampleUnspecified (slash :: chars "a") ⟨unmarkedDisk, [], 0, 0⟩ =
      some (0, s') ∧ dataBlocks unmarkedDisk 4 = [600] ∧ FreesOwned unmarkedDisk s'.disk 4 := by
  have hrun : (sfsUnlink sampleUnspecified (slash :: chars "a")
      ⟨unmarkedDisk, [], 0, 0⟩).map Prod.fst = some 0 := by
    decide +kernel
  obtain ⟨⟨r, s'⟩, hs', rfl⟩ := Option.map_eq_some_iff.mp hrun
  have hunlinks : Unlinks sampleUnspecified (slash :: chars "a") unmarkedDisk 0 0 4 := by
    constructor
    · decide +kernel
    · exact ⟨0, by decide +kernel, by decide +kernel⟩
    · decide
    · decide
    · exact ⟨by decide, by decide +kernel, by simp⟩
    · exact ⟨1, by decide, by decide +kernel⟩
  have hblocks : dataBlocks unmarkedDisk 4 = [600] := by decide +kernel
  refine ⟨s', hs', hblocks, ((unlink_frees_own_iff _ _ ?_ _ _ hs' _ _ _ hunlinks).1 ?_).mpr
    unmarkedDisk_zero⟩
  · decide +kernel
  · exact ⟨by decide, by simp [hblocks]⟩

/-- The byte of the data block in its map is still 1, and the byte of the root in the inode
map is 0. -/
theorem data_block_not_freed :
    lookup (fileDisk 4 7) (strtok (slash :: chars "a")) 0 = some 4 ∧
      get (fileDisk 4 7) (inodeAt 4) state = file ∧
      (∃ i < 10, entry (fileDisk 4 7) 4 i = minusOne) ∧
      ∃ s', sfsUnlink sampleUnspecified (slash :: chars "a") ⟨fileDisk 4 7, [], 0, 0⟩ =
        some (0, s') ∧ ¬ FreesOwned (fileDisk 4 7) s'.disk 4 := by
  have hrun : (sfsUnlink sampleUnspecified (slash :: chars "a") ⟨fileDisk 4 7, [], 0, 0⟩).map
      (fun r => (r.1, r.2.disk 5127)) = some (0, 1) := by
    decide +kernel
  obtain ⟨⟨r, s'⟩, hs', heq⟩ := Option.map_eq_some_iff.mp hrun
  obtain ⟨rfl, hbyte⟩ := Prod.mk.inj heq
  refine ⟨by decide +kernel, by decide +kernel, ⟨1, by decide, by decide +kernel⟩, s', hs', ?_⟩
  rintro ⟨hfreed, _⟩
  have hzero := hfreed 5127 (Or.inr ⟨7, by decide +kernel, Or.inl (by decide)⟩)
  rw [hbyte] at hzero
  exact absurd hzero (by decide)

end SimpleOs.Files
