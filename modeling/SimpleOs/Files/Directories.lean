import SimpleOs.Files.Records

/-!
# The entries of directories

Creating and removing a file read the block of the directory and the block of the inode
before they write either. If both are the same block, the second write undoes the first.
-/

namespace SimpleOs.Files

open Bytes Inode

variable {u : Unspecified} {s s' : Sfs} {disk disk' : Memory} {path newFile : List UInt8}
  {fileMode now d o m b n c i j q N : ℕ} {rand : ℕ × ℕ}

/-! ## Places of inodes -/

/-- Two inodes are in one block exactly if their numbers have the same quotient by four. -/
theorem inodeBlock_eq_iff (hm : m < 2 ^ 31) (hd : d < 2 ^ 32) :
    inodeBlock d = inodeBlock m ↔ d < 2 ^ 31 ∧ d / 4 = m / 4 := by
  unfold inodeBlock BLOCK_SIZE
  rw [if_pos hm]
  split <;> omega

/-- Two inodes have no byte in common. -/
theorem inodeAt_apart (hq : q < 2 ^ 31) (hd : d < 2 ^ 32) (hne : q ≠ d) :
    inodeAt q + Inode.size ≤ inodeAt d ∨ inodeAt d + Inode.size ≤ inodeAt q := by
  rw [inodeAt_eq hq]
  by_cases hpos : d < 2 ^ 31
  · rw [inodeAt_eq hpos]
    unfold Inode.size BLOCK_SIZE
    omega
  · right
    unfold inodeAt inodeBlock offsetInBlock Inode.size BLOCK_SIZE
    rw [if_neg hpos]
    omega

/-! ## Creating a file -/

/-- An entry of the directory that was -1 is now the new inode. -/
def RecordsChild (disk disk' : Memory) (d m : ℕ) : Prop :=
  ∃ i < 10, entry disk d i = minusOne ∧ entry disk' d i = m

/-- After a file was created the directory has it as an entry exactly if the two inodes are
in different blocks. Otherwise the directory is a file now, and its first entry is the data
block, which may have the same number. -/
theorem recordsChild_iff (hcreates : Creates u path rand disk newFile d o m b) :
    RecordsChild disk (createdDisk u disk newFile fileMode now d o m b) d m ↔
      inodeBlock d ≠ inodeBlock m ∨ b = m ∧ entry disk d 0 = minusOne := by
  have hm := hcreates.inode_lt
  have hb := hcreates.block_lt
  obtain ⟨ho, hfree, _⟩ := openChildSpace_spec hcreates.space
  by_cases hblock : inodeBlock d = inodeBlock m
  · obtain ⟨hd, hdiv⟩ := (inodeBlock_eq_iff (by omega) hcreates.lt).mp hblock
    have hw : writtenInode d m = d := by
      unfold writtenInode
      omega
    have hwritten : get (createdDisk u disk newFile fileMode now d o m b)
        (inodeAt (writtenInode d m)) state = file ∧ _ := createdDisk_written hm hb
    rw [hw] at hwritten
    obtain ⟨_, _, hfirst, hrest⟩ := hwritten
    rw [or_iff_right (not_not.mpr hblock)]
    constructor
    · rintro ⟨i, hi, hnone, hchild⟩
      cases i with
      | zero => exact ⟨hfirst.symm.trans hchild, hnone⟩
      | succ i =>
        rw [hrest (i + 1) (by omega) hi] at hchild
        unfold minusOne at hchild
        omega
    · rintro ⟨rfl, hnone⟩
      exact ⟨0, by decide, hnone, hfirst⟩
  · obtain ⟨hchild, _⟩ := createdDisk_directory (u := u) (m := m) (b := b) (o := o) hm ho hblock
    refine iff_of_true ⟨o, ho, ?_, hchild⟩ (Or.inl hblock)
    rw [← hfree]
    exact (get_inodeBuffer (by simp only [block_ptr, Inode.size]; omega)).symm

/-! ## Removing a file -/

/-- The disk after the entry was cleared, outside of the entry and of the byte of the map. -/
theorem unlinkedDisk_apply (hj : j < 10)
    (hc : c < inodeAt d + (64 + 4 * j) ∨ inodeAt d + (64 + 4 * j) + 4 ≤ c) :
    unlinkedDisk u disk d j n c = Function.update disk n 0 c := by
  rw [unlinkedDisk_eq hj, Function.update_apply, Function.update_apply, set_apply]
  simp only [block_ptr]
  omega

/-- Each of the four bytes that store -1 is 255. -/
theorem store_minusOne {m : Memory} {a k : ℕ} (hk : k < 4) :
    store m a 4 minusOne (a + k) = 255 := by
  have hdigits : minusOne = 255 + 256 * (255 + 256 * (255 + 256 * 255)) := by decide
  obtain rfl | rfl | rfl | rfl : k = 0 ∨ k = 1 ∨ k = 2 ∨ k = 3 := by omega
  all_goals
    rw [hdigits]
    simp [store, Function.update_apply]

/-- The bytes of the entry that was cleared. -/
theorem unlinkedDisk_cleared {k : ℕ} (hj : j < 10) (hk : k < 4) :
    unlinkedDisk u disk d j n (inodeAt d + (64 + 4 * j) + k) =
      if inodeAt d + (64 + 4 * j) + k = n then 0 else 255 := by
  rw [unlinkedDisk_eq hj, Function.update_apply]
  split
  · rfl
  · exact store_minusOne hk

/-- The entry that was cleared, from its bytes. -/
theorem unlinkedDisk_digits (hj : j < 10) {p : ℕ} (hp : inodeAt d + (64 + 4 * j) = p) :
    entry (unlinkedDisk u disk d j n) d j =
      (if p = n then 0 else 255) + 256 * ((if p + 1 = n then 0 else 255) +
        256 * ((if p + 2 = n then 0 else 255) + 256 * (if p + 3 = n then 0 else 255))) := by
  have hbyte (k : ℕ) (hk : k < 4) :
      (unlinkedDisk u disk d j n (p + k)).toNat = if p + k = n then 0 else 255 := by
    rw [← hp, unlinkedDisk_cleared hj hk]
    split <;> rfl
  have hentry : entry (unlinkedDisk u disk d j n) d j = load (unlinkedDisk u disk d j n) p 4 := by
    rw [← hp]
    rfl
  rw [hentry]
  simp only [load, Nat.mul_zero, Nat.add_zero]
  rw [hbyte 1 (by decide), Nat.add_assoc p 1 1, hbyte 2 (by decide), Nat.add_assoc p (1 + 1) 1,
    hbyte 3 (by decide), ← Nat.add_zero p, hbyte 0 (by decide)]

/-- The entry that was cleared is -1, unless the byte of the map is in it. -/
theorem unlinkedDisk_entry (hj : j < 10) :
    entry (unlinkedDisk u disk d j n) d j = minusOne ↔
      ¬ (inodeAt d + (64 + 4 * j) ≤ n ∧ n < inodeAt d + (64 + 4 * j) + 4) := by
  generalize hp : inodeAt d + (64 + 4 * j) = p
  rw [unlinkedDisk_digits hj hp, minusOne]
  split_ifs <;> omega

/-- The entry that was cleared is not the number of an inode that can be read. -/
theorem unlinkedDisk_entry_ne (hj : j < 10) (hn : n < 2 ^ 24 - 80) :
    entry (unlinkedDisk u disk d j n) d j ≠ n := by
  rw [unlinkedDisk_digits hj rfl]
  split_ifs <;> omega

/-- The other entries, of the directory and of other inodes. -/
theorem unlinkedDisk_entry_other (hj : j < 10)
    (h : q = d ∧ i ≠ j ∨ q < 2 ^ 31 ∧ d < 2 ^ 32 ∧ q ≠ d ∧ i < 10) :
    entry (unlinkedDisk u disk d j n) q i = entry (Function.update disk n 0) q i := by
  refine load_congr fun c hc hlt => unlinkedDisk_apply hj ?_
  simp only [block_ptr] at hc hlt
  rcases h with ⟨rfl, hne⟩ | ⟨hq, hd, hne, hi⟩
  · omega
  · have hapart := inodeAt_apart hq hd hne
    unfold Inode.size at hapart
    omega

/-- The inodes of the directory and the file are in different blocks. If the block of the
directory is cleared, the file has not number 0. Otherwise the byte of the map, which is in
the directory for some numbers only, does not make another entry the file's. -/
def Forgets (disk : Memory) (d j n : ℕ) : Prop :=
  inodeBlock d ≠ inodeBlock n ∧ (Wiped (dataBlocks disk n) (inodeBlock d) → n ≠ 0) ∧
    (¬ Wiped (dataBlocks disk n) (inodeBlock d) →
      ∀ i < 10, i ≠ j → entry (Function.update disk n 0) d i ≠ n)

/-- After a file was removed no entry of the directory is its number exactly in this case. -/
theorem forgets_iff (hunlinks : Unlinks u path disk d j n) (hne : d ≠ n) :
    (∀ i < 10, entry (removedDisk u disk d j n) d i ≠ n) ↔ Forgets disk d j n := by
  obtain ⟨hj, hfound, _⟩ := hunlinks.found
  obtain ⟨hreadable, hn⟩ := hunlinks.readable
  obtain ⟨_, hd⟩ := hunlinks.lt
  unfold Forgets
  by_cases hblock : inodeBlock d = inodeBlock n
  · -- the entry is written back with the block of the file
    refine iff_of_false (fun h => h j hj ?_) fun h => h.1 hblock
    obtain ⟨hpos, hdiv⟩ := (inodeBlock_eq_iff hn hd).mp hblock
    have hoffset : offsetInBlock d ≠ offsetInBlock n := by
      unfold offsetInBlock Inode.size BLOCK_SIZE
      omega
    rw [(removedDisk_neighbour hblock hoffset).entry hj, hfound]
  · rw [and_iff_right hblock]
    by_cases hwiped : Wiped (dataBlocks disk n) (inodeBlock d)
    · have hzero (i : ℕ) (hi : i < 10) : entry (removedDisk u disk d j n) d i = 0 := by
        refine load_zero fun c hc hlt => removedDisk_wiped hblock hwiped ?_ ?_
        · omega
        · simp only [block_ptr, Inode.size] at hlt ⊢
          omega
      constructor
      · intro h
        refine ⟨fun _ hn => h 0 (by decide) ?_, fun hnot => absurd hwiped hnot⟩
        rw [hzero 0 (by decide), hn]
      · rintro ⟨hne, _⟩ i hi
        rw [hzero i hi]
        exact (hne hwiped).symm
    · have hsame : SameInode (unlinkedDisk u disk d j n) (removedDisk u disk d j n) d :=
        removedDisk_far hblock hwiped
      have hother (i : ℕ) (hij : i ≠ j) : entry (unlinkedDisk u disk d j n) d i =
          entry (Function.update disk n 0) d i :=
        unlinkedDisk_entry_other hj (Or.inl ⟨rfl, hij⟩)
      constructor
      · intro h
        refine ⟨fun h => absurd h hwiped, fun _ i hi hij => ?_⟩
        rw [← hother i hij, ← hsame.entry hi]
        exact h i hi
      · rintro ⟨_, h⟩ i hi
        rw [hsame.entry hi]
        by_cases hij : i = j
        · rw [hij]
          unfold Readable at hreadable
          exact unlinkedDisk_entry_ne hj (by omega)
        · rw [hother i hij]
          exact h hwiped i hi hij

/-- A call finds one directory, one entry and one file. -/
theorem Unlinks.unique {d' j' n' : ℕ} (h : Unlinks u path disk d j n)
    (h' : Unlinks u path disk d' j' n') : d = d' ∧ j = j' ∧ n = n' := by
  obtain ⟨i, hi, hd⟩ := h.directory
  obtain ⟨i', hi', hd'⟩ := h'.directory
  obtain rfl := Option.some.inj (hi.symm.trans hi')
  obtain rfl := Option.some.inj (hd.symm.trans hd')
  obtain rfl := Option.some.inj (h.file.symm.trans h'.file)
  obtain ⟨_, hfound, hbefore⟩ := h.found
  obtain ⟨_, hfound', hbefore'⟩ := h'.found
  refine ⟨rfl, ?_, rfl⟩
  rcases lt_trichotomy j j' with hlt | heq | hlt
  · exact absurd hfound (hbefore' j hlt)
  · exact heq
  · exact absurd hfound' (hbefore j' hlt)

/-- The disk after a call that found these. -/
theorem Unlinks.disk_eq (hunlinks : Unlinks u path s.disk d j n)
    (hrun : sfsUnlink u path s = some (0, s')) : s'.disk = removedDisk u s.disk d j n := by
  obtain ⟨d', j', n', hunlinks', hdisk⟩ := sfsUnlink_spec hrun
  obtain ⟨rfl, rfl, rfl⟩ := hunlinks.unique hunlinks'
  exact hdisk

/-- The update of the directory is on the disk exactly if the other inode is in a block of
its own. -/
theorem parent_update_kept_iff (u : Unspecified) (path : List UInt8) (s s' : Sfs) (d : ℕ) :
    (∀ fileMode rand now newFile o m b, sfsCreate u path fileMode rand now s = some (0, s') →
      Creates u path rand s.disk newFile d o m b →
      (RecordsChild s.disk s'.disk d m ↔
        inodeBlock d ≠ inodeBlock m ∨ b = m ∧ entry s.disk d 0 = minusOne)) ∧
    ∀ j n, sfsUnlink u path s = some (0, s') → Unlinks u path s.disk d j n → d ≠ n →
      ((∀ i < 10, entry s'.disk d i ≠ n) ↔ Forgets s.disk d j n) := by
  constructor
  · intro fileMode rand now newFile o m b hrun hcreates
    rw [hcreates.disk_eq hrun]
    exact recordsChild_iff hcreates
  · intro j n hrun hunlinks hne
    rw [hunlinks.disk_eq hrun]
    exact forgets_iff hunlinks hne

/-- The root with one entry, a file `a` with inode `n` and data block `b`. -/
def fileDisk (n b : ℕ) : Memory :=
  let m := set mountedDisk (inodeAt 0) (block_ptr 0) n
  let m := Function.update (Function.update m n 1) (5120 + b) 1
  set (newInode m (inodeAt n) (chars "a") 0 n 0) (inodeAt n) (block_ptr 0) b

/-- What a removal of `/a` on this disk finds: the root, its first entry and inode 4. -/
theorem fileDisk_unlinks :
    Unlinks sampleUnspecified (chars "/a") (fileDisk 4 7) 0 0 4 := by
  constructor
  · decide +kernel
  · exact ⟨0, by decide +kernel, by decide +kernel⟩
  · decide
  · decide
  · exact ⟨by decide, by decide +kernel, by simp⟩
  · exact ⟨1, by decide, by decide +kernel⟩

/-- The file is removed by a call that succeeds. -/
theorem fileDisk_unlink : ∃ s', sfsUnlink sampleUnspecified (chars "/a")
    ⟨fileDisk 4 7, [], 0, 0⟩ = some (0, s') := by
  have hrun : (sfsUnlink sampleUnspecified (chars "/a") ⟨fileDisk 4 7, [], 0, 0⟩).map Prod.fst =
      some 0 := by
    decide +kernel
  obtain ⟨⟨r, s'⟩, hs', rfl⟩ := Option.map_eq_some_iff.mp hrun
  exact ⟨s', hs'⟩

/-- The theorem for inode 4, created and removed. -/
theorem parent_update_kept_four :
    (∃ s', sfsCreate sampleUnspecified (chars "/ab") 0 (4, 7) 0 mounted = some (0, s') ∧
      RecordsChild mounted.disk s'.disk 0 4) ∧
    ∃ s', sfsUnlink sampleUnspecified (chars "/a") ⟨fileDisk 4 7, [], 0, 0⟩ = some (0, s') ∧
      ∀ i < 10, entry s'.disk 0 i ≠ 4 := by
  constructor
  · have hrun : (sfsCreate sampleUnspecified (chars "/ab") 0 (4, 7) 0 mounted).map Prod.fst =
        some 0 := by
      decide +kernel
    obtain ⟨⟨r, s'⟩, hs', rfl⟩ := Option.map_eq_some_iff.mp hrun
    have hcreates := mounted_creates (m := 4) (b := 7) (by decide) (by decide)
      (by decide +kernel) (by decide +kernel)
    obtain ⟨hcreate, _⟩ := parent_update_kept_iff sampleUnspecified (chars "/ab") mounted s' 0
    exact ⟨s', hs', (hcreate _ _ _ _ _ _ _ hs' hcreates).mpr (Or.inl (by decide))⟩
  · obtain ⟨s', hs'⟩ := fileDisk_unlink
    obtain ⟨_, hunlink⟩ := parent_update_kept_iff sampleUnspecified (chars "/a")
      ⟨fileDisk 4 7, [], 0, 0⟩ s' 0
    refine ⟨s', hs', (hunlink 0 4 hs' fileDisk_unlinks (by decide)).mpr ⟨by decide, ?_, ?_⟩⟩
    · exact fun _ => by decide
    · exact fun _ => by decide +kernel

/-- Inode 1 is in the block of the root, which is a file afterwards. -/
theorem root_overwritten :
    ∃ s', sfsCreate sampleUnspecified (chars "/ab") 0 (1, 7) 0 mounted = some (0, s') ∧
      Creates sampleUnspecified (chars "/ab") (1, 7) mounted.disk (chars "/a") 0 9 1 7 ∧
      ¬ RecordsChild mounted.disk s'.disk 0 1 := by
  have hrun : (sfsCreate sampleUnspecified (chars "/ab") 0 (1, 7) 0 mounted).map
      (fun r => (r.1, (List.range 10).all fun i => entry r.2.disk 0 i ≠ 1)) = some (0, true) := by
    decide +kernel
  obtain ⟨⟨r, s'⟩, hs', heq⟩ := Option.map_eq_some_iff.mp hrun
  obtain ⟨rfl, hnone⟩ := Prod.mk.inj heq
  refine ⟨s', hs', mounted_creates (by decide) (by decide) (by decide +kernel)
    (by decide +kernel), ?_⟩
  rintro ⟨i, hi, _, hchild⟩
  have hne := List.all_eq_true.mp hnone i (List.mem_range.mpr hi)
  exact of_decide_eq_true hne hchild

/-! ## The shape of directories -/

/-- The entries that are not -1 are the first ones. -/
def Packed (disk : Memory) (n : ℕ) : Prop :=
  ∀ j < 10, entry disk n j ≠ minusOne → ∀ i < j, entry disk n i ≠ minusOne

instance (disk : Memory) (n : ℕ) : Decidable (Packed disk n) :=
  inferInstanceAs (Decidable (∀ _ < 10, _ → ∀ _ < _, _))

/-- An inode is that of a directory. -/
def IsDirectory (disk : Memory) (n : ℕ) : Prop := get disk (inodeAt n) state = dir

instance (disk : Memory) (n : ℕ) : Decidable (IsDirectory disk n) :=
  inferInstanceAs (Decidable (_ = _))

/-- So it is in all directories among the first `N` inodes. -/
def DirectoriesPacked (disk : Memory) (N : ℕ) : Prop :=
  ∀ n < N, IsDirectory disk n → Packed disk n

instance (disk : Memory) (N : ℕ) : Decidable (DirectoriesPacked disk N) :=
  inferInstanceAs (Decidable (∀ _ < _, _ → _))

/-- The same bytes are a directory of the same shape. -/
theorem SameInode.directory (h : SameInode disk disk' n) :
    (IsDirectory disk' n ↔ IsDirectory disk n) ∧ (Packed disk' n ↔ Packed disk n) := by
  constructor
  · unfold IsDirectory
    rw [h.get (by decide)]
  · unfold Packed
    constructor
    · intro hp j hj hne i hi
      rw [← h.entry (by omega)]
      exact hp j hj (by rwa [h.entry hj]) i hi
    · intro hp j hj hne i hi
      rw [h.entry (by omega)]
      exact hp j hj (by rwa [h.entry hj] at hne) i hi

/-- What the name leaves of the inodes in the block that it reaches are no directories with
a hole. If the directory is in another block, all its entries before the new one are in
use. -/
def FillsLast (disk : Memory) (newFile : List UInt8) (d o m N : ℕ) : Prop :=
  (∀ n < N, n / 4 = m / 4 → n ≠ writtenInode d m → IsDirectory (laidName disk newFile d m) n →
    Packed (laidName disk newFile d m) n) ∧
    (d < N → d / 4 ≠ m / 4 → IsDirectory disk d → ∀ i < o, entry disk d i ≠ minusOne)

/-- After a file was created the directories have no holes exactly in this case. -/
theorem createdDisk_packed_iff (hcreates : Creates u path rand disk newFile d o m b)
    (hN : N ≤ 2 ^ 31) (hpacked : DirectoriesPacked disk N) :
    DirectoriesPacked (createdDisk u disk newFile fileMode now d o m b) N ↔
      FillsLast disk newFile d o m N := by
  have hm := hcreates.inode_lt
  have hb := hcreates.block_lt
  obtain ⟨ho, _⟩ := openChildSpace_spec hcreates.space
  have hnear {n : ℕ} (hn : n / 4 = m / 4) (hw : n ≠ writtenInode d m) :
      SameInode (laidName disk newFile d m) (createdDisk u disk newFile fileMode now d o m b) n :=
    createdDisk_neighbour hm hn hw
  have hdirectory (hlt : d < N) (hblock : d / 4 ≠ m / 4) :
      entry (createdDisk u disk newFile fileMode now d o m b) d o = m ∧
        (∀ i < 10, i ≠ o →
          entry (createdDisk u disk newFile fileMode now d o m b) d i = entry disk d i) ∧
        get (createdDisk u disk newFile fileMode now d o m b) (inodeAt d) state =
          get disk (inodeAt d) state :=
    createdDisk_directory hm ho fun h => hblock ((inodeBlock_eq_iff (by omega) (by omega)).mp h).2
  have hwritten : get (createdDisk u disk newFile fileMode now d o m b)
      (inodeAt (writtenInode d m)) state = file ∧ _ := createdDisk_written hm hb
  have hfar {n : ℕ} (hn : n < N) (hnm : n / 4 ≠ m / 4) (hnd : n ≠ d) :
      SameInode disk (createdDisk u disk newFile fileMode now d o m b) n :=
    createdDisk_far hm hb hcreates.lt (by omega) hnm hnd ho
  have hnone : m ≠ minusOne := by
    unfold minusOne
    omega
  generalize createdDisk u disk newFile fileMode now d o m b = disk' at *
  constructor
  · intro hpacked'
    constructor
    · intro n hn hnm hw hdir
      obtain ⟨hsame, hshape⟩ := (hnear hnm hw).directory
      exact hshape.mp (hpacked' n hn (hsame.mpr hdir))
    · intro hlt hblock hdir i hi
      obtain ⟨hchild, hothers, hstate⟩ := hdirectory hlt hblock
      have hshape := hpacked' d hlt (hstate.trans hdir) o ho (by rwa [hchild]) i hi
      rwa [hothers i (by omega) (by omega)] at hshape
  · rintro ⟨hname, hbefore⟩ n hn hdir
    by_cases hnm : n / 4 = m / 4
    · by_cases hw : n = writtenInode d m
      · rw [hw] at hdir
        exact absurd (hwritten.1.symm.trans hdir) (by decide)
      · obtain ⟨hsame, hshape⟩ := (hnear hnm hw).directory
        exact hshape.mpr (hname n hn hnm hw (hsame.mp hdir))
    · by_cases hnd : n = d
      · subst hnd
        obtain ⟨hchild, hothers, hstate⟩ := hdirectory hn hnm
        have hdir' : IsDirectory disk n := hstate.symm.trans hdir
        intro j hj hne i hi
        by_cases hio : i = o
        · rwa [hio, hchild]
        · rw [hothers i (by omega) hio]
          by_cases hjo : j = o
          · exact hbefore hn hnm hdir' i (by omega)
          · rw [hothers j hj hjo] at hne
            exact hpacked n hn hdir' j hj hne i hi
      · obtain ⟨hsame, hshape⟩ := (hfar hn hnm hnd).directory
        exact hshape.mpr (hpacked n hn (hsame.mp hdir))

/-- Entry `i` of inode `q` is in use after entry `j` of `d` and byte `n` of the disk were
cleared. An entry with a byte that is cleared is not -1. -/
def UsedAfter (disk : Memory) (d j n q i : ℕ) : Prop :=
  entry disk q i ≠ minusOne ∧ ¬ (q = d ∧ i = j) ∨
    inodeAt q + (64 + 4 * i) ≤ n ∧ n < inodeAt q + (64 + 4 * i) + 4

/-- Which entries of an inode are in use after the first two writes of `sfs_unlink`. -/
theorem unlinkedDisk_used (hq : q < 2 ^ 31) (hd : d < 2 ^ 32) (hi : i < 10) (hj : j < 10) :
    entry (unlinkedDisk u disk d j n) q i ≠ minusOne ↔ UsedAfter disk d j n q i := by
  unfold UsedAfter
  by_cases hentry : q = d ∧ i = j
  · obtain ⟨rfl, rfl⟩ := hentry
    rw [ne_eq, unlinkedDisk_entry hj]
    simp
  · have hother : entry (unlinkedDisk u disk d j n) q i = entry (Function.update disk n 0) q i := by
      apply unlinkedDisk_entry_other hj
      by_cases hqd : q = d
      · exact Or.inl ⟨hqd, fun hij => hentry ⟨hqd, hij⟩⟩
      · exact Or.inr ⟨hq, hd, hqd, hi⟩
    rw [hother, and_iff_left hentry]
    by_cases hin : inodeAt q + (64 + 4 * i) ≤ n ∧ n < inodeAt q + (64 + 4 * i) + 4
    · refine iff_of_true (fun heq => ?_) (Or.inr hin)
      have hall : load (fun _ => 255) (inodeAt q + (64 + 4 * i)) 4 = minusOne := by
        simp only [load]
        decide
      have hbyte := eq_of_load_eq (heq.trans hall.symm) hin.1 hin.2
      rw [Function.update_self] at hbyte
      exact absurd hbyte (by decide)
    · have hsame : entry (Function.update disk n 0) q i = entry disk q i := by
        refine load_congr fun c hc hlt => Function.update_of_ne ?_ _ _
        simp only [block_ptr] at hc hlt
        omega
      rw [hsame, or_iff_left hin]

/-- The first two writes of `sfs_unlink` leave a directory one, unless the byte that is cleared is
its state. -/
theorem unlinkedDisk_directory (hq : q < 2 ^ 31) (hd : d < 2 ^ 32) (hj : j < 10) :
    IsDirectory (unlinkedDisk u disk d j n) q ↔
      IsDirectory disk q ∧ n ≠ inodeAt q + state.offset := by
  have hstate (m : Memory) : get m (inodeAt q) state = (m (inodeAt q + state.offset)).toNat := rfl
  have hbyte : unlinkedDisk u disk d j n (inodeAt q + state.offset) =
      Function.update disk n 0 (inodeAt q + state.offset) := by
    apply unlinkedDisk_apply hj
    simp only [state]
    by_cases hqd : q = d
    · rw [hqd]
      omega
    · have hapart := inodeAt_apart hq hd hqd
      unfold Inode.size at hapart
      omega
  unfold IsDirectory
  rw [hstate, hstate, hbyte, Function.update_apply]
  split
  · rename_i heq
    refine iff_of_false (by decide) fun h => h.2 heq.symm
  · rename_i hne
    rw [and_iff_left (Ne.symm hne)]

/-- In every directory whose block is neither cleared nor written back as it was, the entries
in use afterwards are the first ones. -/
def ClearsLast (disk : Memory) (d j n N : ℕ) : Prop :=
  ∀ q < N, inodeBlock q ≠ inodeBlock n → ¬ Wiped (dataBlocks disk n) (inodeBlock q) →
    IsDirectory disk q → n ≠ inodeAt q + state.offset →
    ∀ i < 10, UsedAfter disk d j n q i → ∀ k < i, UsedAfter disk d j n q k

/-- After a file was removed the directories have no holes exactly in this case. -/
theorem removedDisk_packed_iff (hunlinks : Unlinks u path disk d j n) (hN : N ≤ 2 ^ 31)
    (hpacked : DirectoriesPacked disk N) :
    DirectoriesPacked (removedDisk u disk d j n) N ↔ ClearsLast disk d j n N := by
  obtain ⟨hj, _⟩ := hunlinks.found
  obtain ⟨_, hn⟩ := hunlinks.readable
  obtain ⟨_, hd⟩ := hunlinks.lt
  -- a block that is neither cleared nor written back
  have hfar {q : ℕ} (hq : q < N) (hblock : inodeBlock q ≠ inodeBlock n)
      (hwiped : ¬ Wiped (dataBlocks disk n) (inodeBlock q)) :
      (IsDirectory (removedDisk u disk d j n) q ↔
        IsDirectory disk q ∧ n ≠ inodeAt q + state.offset) ∧
      (Packed (removedDisk u disk d j n) q ↔
        ∀ i < 10, UsedAfter disk d j n q i → ∀ k < i, UsedAfter disk d j n q k) := by
    obtain ⟨hsame, hshape⟩ := (removedDisk_far (u := u) (d := d) (j := j) hblock hwiped).directory
    rw [hsame, hshape, unlinkedDisk_directory (by omega) hd hj]
    refine ⟨Iff.rfl, forall_congr' fun i => forall_congr' fun hi => ?_⟩
    rw [unlinkedDisk_used (by omega) hd hi hj]
    refine imp_congr Iff.rfl (forall_congr' fun k => forall_congr' fun hk => ?_)
    exact unlinkedDisk_used (by omega) hd (by omega) hj
  constructor
  · intro hpacked' q hq hblock hwiped hdir hne
    obtain ⟨hsame, hshape⟩ := hfar hq hblock hwiped
    exact hshape.mp (hpacked' q hq (hsame.mpr ⟨hdir, hne⟩))
  · intro hclears q hq hdir
    by_cases hblock : inodeBlock q = inodeBlock n
    · by_cases hqn : q = n
      · have hzero : get (removedDisk u disk d j n) (inodeAt n) state = 0 := by
          refine load_zero fun c hc hlt => removedDisk_file (by omega) ?_
          simp only [state, Inode.size] at hlt ⊢
          omega
        rw [hqn, IsDirectory, hzero] at hdir
        exact absurd hdir (by decide)
      · have hoffset : offsetInBlock q ≠ offsetInBlock n := by
          have hdiv := ((inodeBlock_eq_iff hn (by omega)).mp hblock).2
          unfold offsetInBlock Inode.size BLOCK_SIZE
          omega
        have hkept : SameInode disk (removedDisk u disk d j n) q :=
          removedDisk_neighbour hblock hoffset
        obtain ⟨hsame, hshape⟩ := hkept.directory
        exact hshape.mpr (hpacked q hq (hsame.mp hdir))
    · by_cases hwiped : Wiped (dataBlocks disk n) (inodeBlock q)
      · have hzero : get (removedDisk u disk d j n) (inodeAt q) state = 0 := by
          refine load_zero fun c hc hlt => removedDisk_wiped hblock hwiped (by omega) ?_
          simp only [state, Inode.size] at hlt ⊢
          omega
        rw [IsDirectory, hzero] at hdir
        exact absurd hdir (by decide)
      · obtain ⟨hsame, hshape⟩ := hfar hq hblock hwiped
        obtain ⟨hdir, hne⟩ := hsame.mp hdir
        exact hshape.mpr (hclears q hq hblock hwiped hdir hne)

/-- If the directory is written back and stays on the disk, all its entries behind the one that
is cleared are -1. -/
def RemovesLast (disk : Memory) (d j n N : ℕ) : Prop :=
  d < N → inodeBlock d ≠ inodeBlock n → ¬ Wiped (dataBlocks disk n) (inodeBlock d) →
    IsDirectory disk d → ∀ i < 10, j < i → entry disk d i = minusOne

/-- For the numbers in the map, the byte of the map is in no directory: what matters is that
the entry that is cleared is the last one in use. -/
theorem clearsLast_iff (hn : n < 20 * BLOCK_SIZE) (hN : N ≤ 2 ^ 31) (hj : j < 10)
    (hpacked : DirectoriesPacked disk N) :
    ClearsLast disk d j n N ↔ RemovesLast disk d j n N := by
  have hbehind {q : ℕ} (hq : q < N) : 20 * BLOCK_SIZE ≤ inodeAt q := by
    rw [inodeAt_eq (by omega)]
    omega
  have hused {q : ℕ} (hq : q < N) (i : ℕ) :
      UsedAfter disk d j n q i ↔ entry disk q i ≠ minusOne ∧ ¬ (q = d ∧ i = j) := by
    have hlt := hbehind hq
    exact or_iff_left fun h => by omega
  constructor
  · intro h hlt hblock hwiped hdir i hi hji
    by_contra hne
    have hlast := h d hlt hblock hwiped hdir (by have := hbehind hlt; omega) i hi
      ((hused hlt i).mpr ⟨hne, fun hij => by omega⟩) j hji
    exact ((hused hlt j).mp hlast).2 ⟨rfl, rfl⟩
  · intro h q hq hblock hwiped hdir _ i hi huse k hk
    obtain ⟨hne, hother⟩ := (hused hq i).mp huse
    refine (hused hq k).mpr ⟨hpacked q hq hdir i hi hne k hk, ?_⟩
    rintro ⟨rfl, rfl⟩
    exact hne (h hq hblock hwiped hdir i hi hk)

/-- No directory entry becomes invisible exactly if a new entry is put behind entries that
are all in use, and an entry that is removed is the last one. Removing an inode whose number
is beyond the maps clears a byte that may itself be part of a directory; then the entries that
are in use afterwards must be the first ones. -/
theorem directories_stay_packed_iff (u : Unspecified) (path : List UInt8) (s s' : Sfs) (N : ℕ)
    (hN : N ≤ 2 ^ 31) (hpacked : DirectoriesPacked s.disk N) :
    (∀ fileMode rand now newFile d o m b,
      sfsCreate u path fileMode rand now s = some (0, s') →
      Creates u path rand s.disk newFile d o m b →
      (DirectoriesPacked s'.disk N ↔ FillsLast s.disk newFile d o m N)) ∧
    ∀ d j n, sfsUnlink u path s = some (0, s') → Unlinks u path s.disk d j n →
      (n < 20 * BLOCK_SIZE → (DirectoriesPacked s'.disk N ↔ RemovesLast s.disk d j n N)) ∧
      (DirectoriesPacked s'.disk N ↔ ClearsLast s.disk d j n N) := by
  constructor
  · intro fileMode rand now newFile d o m b hrun hcreates
    rw [hcreates.disk_eq hrun]
    exact createdDisk_packed_iff hcreates hN hpacked
  · intro d j n hrun hunlinks
    obtain ⟨hj, _⟩ := hunlinks.found
    rw [hunlinks.disk_eq hrun]
    have hclears := removedDisk_packed_iff hunlinks hN hpacked
    exact ⟨fun hn => hclears.trans (clearsLast_iff hn hN hj hpacked), hclears⟩

/-! ## Runs on given inputs -/

/-- The root with nine entries. -/
def nineDisk : Memory :=
  (List.range 9).foldl (fun m i => set m (inodeAt 0) (block_ptr i) 8) mountedDisk

/-- The theorem for a tenth entry, and for the only entry. -/
theorem directories_stay_packed_last :
    (∃ s', sfsCreate sampleUnspecified (chars "/ab") 0 (4, 7) 0 ⟨nineDisk, [], 0, 0⟩ =
      some (0, s') ∧ DirectoriesPacked s'.disk 8) ∧
    ∃ s', sfsUnlink sampleUnspecified (chars "/a") ⟨fileDisk 4 7, [], 0, 0⟩ = some (0, s') ∧
      DirectoriesPacked s'.disk 8 := by
  constructor
  · have hrun : (sfsCreate sampleUnspecified (chars "/ab") 0 (4, 7) 0
        ⟨nineDisk, [], 0, 0⟩).map Prod.fst = some 0 := by
      decide +kernel
    obtain ⟨⟨r, s'⟩, hs', rfl⟩ := Option.map_eq_some_iff.mp hrun
    have hcreates : Creates sampleUnspecified (chars "/ab") (4, 7) nineDisk (chars "/a") 0 9 4 7 :=
      sample_creates (by decide +kernel) (by decide) (by decide) (by decide +kernel)
        (by decide +kernel)
    obtain ⟨hcreate, _⟩ := directories_stay_packed_iff sampleUnspecified (chars "/ab")
      ⟨nineDisk, [], 0, 0⟩ s' 8 (by decide) (by decide +kernel)
    refine ⟨s', hs', (hcreate _ _ _ _ _ _ _ _ hs' hcreates).mpr ⟨?_, ?_⟩⟩
    · decide +kernel
    · exact fun _ _ _ => by decide +kernel
  · obtain ⟨s', hs'⟩ := fileDisk_unlink
    have hpacked : DirectoriesPacked (fileDisk 4 7) 8 := by decide +kernel
    obtain ⟨_, hunlink⟩ := directories_stay_packed_iff sampleUnspecified (chars "/a")
      ⟨fileDisk 4 7, [], 0, 0⟩ s' 8 (by decide) hpacked
    refine ⟨s', hs', ((hunlink 0 0 4 hs' fileDisk_unlinks).1 (by decide)).mpr ?_⟩
    exact fun _ _ _ _ => by decide +kernel

/-- The first entry of the root is its last one. -/
theorem directory_with_hole :
    DirectoriesPacked mounted.disk 8 ∧
    ∃ s', sfsCreate sampleUnspecified (chars "/ab") 0 (4, 7) 0 mounted = some (0, s') ∧
      ¬ DirectoriesPacked s'.disk 8 := by
  have hrun : (sfsCreate sampleUnspecified (chars "/ab") 0 (4, 7) 0 mounted).map (fun r =>
      (r.1, decide (DirectoriesPacked r.2.disk 8))) = some (0, false) := by
    decide +kernel
  obtain ⟨⟨r, s'⟩, hs', heq⟩ := Option.map_eq_some_iff.mp hrun
  obtain ⟨rfl, hshape⟩ := Prod.mk.inj heq
  exact ⟨by decide +kernel, s', hs', of_decide_eq_false hshape⟩

end SimpleOs.Files
