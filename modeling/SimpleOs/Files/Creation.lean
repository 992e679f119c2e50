import Mathlib.Data.List.Induction
import SimpleOs.Files.Calls

/-!
# What creating a file does to the disk

Four blocks are written: those of the two maps, that of the directory, and that of the
new inode, in which the inode is at the position of the directory's.
-/

namespace SimpleOs.Files

open Bytes Inode

variable {u : Unspecified} {s s' : Sfs} {disk : Memory} {path newFile : List UInt8}
  {fileMode now d o m b n c : ℕ} {rand : ℕ × ℕ} {r : ℤ}

/-! ## The fields of a new inode -/

variable {m₀ : Memory} {a i : ℕ} {f : Field} {is : List ℕ}

/-- Two entries have no byte in common. -/
theorem block_ptr_disjoint {i j : ℕ} (h : i ≠ j) : (block_ptr i).Disjoint (block_ptr j) := by
  simp only [Field.Disjoint, block_ptr]
  omega

/-- Setting entries changes no other byte. -/
theorem setEntries_apply (h : ∀ i ∈ is, c < a + (64 + 4 * i) ∨ a + (64 + 4 * i) + 4 ≤ c) :
    is.foldl (fun m i => set m a (block_ptr i) minusOne) m₀ c = m₀ c := by
  induction is generalizing m₀ with
  | nil => rfl
  | cons i is ih =>
    rw [List.foldl_cons, ih fun j hj => h j (List.mem_cons_of_mem _ hj)]
    exact set_apply (h i List.mem_cons_self)

/-- An entry that is among those set to -1 is -1. -/
theorem setEntries_entry (hi : i ∈ is) :
    get (is.foldl (fun m i => set m a (block_ptr i) minusOne) m₀) a (block_ptr i) = minusOne := by
  induction is using List.reverseRecOn with
  | nil => exact absurd hi (by simp)
  | append_singleton is j ih =>
    rw [List.foldl_append, List.foldl_cons, List.foldl_nil]
    by_cases hij : i = j
    · rw [hij, get_set_self]
      rfl
    · rw [get_set_of_disjoint (block_ptr_disjoint (Ne.symm hij))]
      exact ih (by simpa [hij] using hi)

/-- The pointers end where the inode ends. -/
theorem clearPointers_apply (h : c < a + 64 ∨ a + Inode.size ≤ c) :
    clearPointers m₀ a c = m₀ c := by
  unfold Inode.size at h
  have hset {m : Memory} {f : Field} {v : ℕ} (h₁ : 64 ≤ f.offset) (h₂ : f.offset + f.width ≤ 128) :
      set m a f v c = m c := set_apply (by omega)
  refine (hset (by decide) (by decide)).trans ((hset (by decide) (by decide)).trans
    ((hset (by decide) (by decide)).trans (setEntries_apply fun i hi => ?_)))
  have := List.mem_range.mp hi
  omega

/-- After the pointers are cleared, all ten entries of the inode are -1. -/
theorem clearPointers_entry (hi : i < 10) :
    get (clearPointers m₀ a) a (block_ptr i) = minusOne := by
  have hd {g : Field} (hg : 104 ≤ g.offset) : g.Disjoint (block_ptr i) := by
    simp only [Field.Disjoint, block_ptr]
    omega
  refine (get_set_of_disjoint (hd (by decide))).trans ((get_set_of_disjoint (hd (by decide))).trans
    ((get_set_of_disjoint (hd (by decide))).trans (setEntries_entry (List.mem_range.mpr hi))))

/-- The fields before the entries are not pointers. -/
theorem get_clearPointers (hf : f.offset + f.width ≤ 64) :
    get (clearPointers m₀ a) a f = get m₀ a f :=
  load_congr fun _ _ hlt => clearPointers_apply (by omega)

/-- A string that is copied changes bytes from its place on. -/
theorem strcpy_apply (h : c < a) {str : List UInt8} : strcpy m₀ a str c = m₀ c :=
  splice_outside (Or.inl h)

/-- The state of a new inode is that of a file. -/
theorem newInode_state : get (newInode m₀ a newFile fileMode m now) a state = file := by
  have hname {k : Memory} : get (strcpy k (a + name) newFile) a state = get k a state :=
    load_congr fun c _ hlt => strcpy_apply (by simp only [state, name] at hlt ⊢; omega)
  refine (get_clearPointers (by decide)).trans ((get_set_of_disjoint (by decide)).trans
    ((get_set_of_disjoint (by decide)).trans ((get_set_of_disjoint (by decide)).trans
      ((get_set_of_disjoint (by decide)).trans ((get_set_of_disjoint (by decide)).trans
        ((get_set_of_disjoint (by decide)).trans (hname.trans get_set_self)))))))

/-- A new inode has its own number as `uid`. -/
theorem newInode_uid (hm : m < 2 ^ 32) :
    get (newInode m₀ a newFile fileMode m now) a uid = m := by
  refine (get_clearPointers (by decide)).trans ((get_set_of_disjoint (by decide)).trans
    ((get_set_of_disjoint (by decide)).trans ((get_set_of_disjoint (by decide)).trans
      ((get_set_of_disjoint (by decide)).trans ((get_set_of_disjoint (by decide)).trans
        (get_set_self.trans (Nat.mod_eq_of_lt hm)))))))

/-- Outside of its inode, only the name is written. -/
theorem newInode_apply (h : c < a ∨ a + Inode.size ≤ c) :
    newInode m₀ a newFile fileMode m now c = strcpy m₀ (a + name) newFile c := by
  unfold Inode.size at h
  have hset {k : Memory} {f : Field} {v : ℕ} (hf : f.offset + f.width ≤ 128) :
      set k a f v c = k c := set_apply (by omega)
  have hname {k k' : Memory} (hk : k' c = k c) :
      strcpy k' (a + name) newFile c = strcpy k (a + name) newFile c := by
    simp only [strcpy, splice, hk]
  exact (clearPointers_apply (by unfold Inode.size; omega)).trans ((hset (by decide)).trans
    ((hset (by decide)).trans ((hset (by decide)).trans ((hset (by decide)).trans
      ((hset (by decide)).trans ((hset (by decide)).trans
        (hname ((hset (by decide)).trans (hset (by decide))))))))))

/-! ## The free entry -/

/-- The entry that is taken is -1, and no entry behind it is. -/
theorem openChildSpace_spec {dir : Memory} (h : openChildSpace dir a = some o) :
    o < 10 ∧ get dir a (block_ptr o) = minusOne ∧
      ∀ i, o < i → i < 10 → get dir a (block_ptr i) ≠ minusOne := by
  unfold openChildSpace at h
  generalize 10 = n at h ⊢
  induction n with
  | zero => exact absurd h (by simp)
  | succ n ih =>
    rw [List.range_succ, List.foldl_append, List.foldl_cons, List.foldl_nil] at h
    split at h
    · rename_i hfree
      obtain rfl := Option.some.inj h
      exact ⟨by omega, hfree, fun i hi hlt => by omega⟩
    · rename_i hused
      obtain ⟨ho, hfree, hbehind⟩ := ih h
      refine ⟨by omega, hfree, fun i hi hlt => ?_⟩
      by_cases hin : i = n
      · rwa [hin]
      · exact hbehind i hi (by omega)

/-! ## The call -/

/-- The disk after the two maps were changed. -/
def claimedDisk (disk : Memory) (m b : ℕ) : Memory :=
  Function.update (Function.update disk (MapType.inode.entry m) 1) (MapType.data.entry b) 1

/-- The block of the directory, with the new entry. -/
def directoryBlock (u : Unspecified) (disk : Memory) (d o m : ℕ) : Memory :=
  set (inodeBuffer u disk d) (offsetInBlock d) (block_ptr o) m

/-- The block of the new inode. -/
def newBlock (u : Unspecified) (disk : Memory) (newFile : List UInt8)
    (fileMode now d m b : ℕ) : Memory :=
  set (newInode (inodeBuffer u (Function.update disk (MapType.inode.entry m) 1) m)
    (offsetInBlock d) newFile fileMode m now) (offsetInBlock d) (block_ptr 0) b

/-- The disk after a file was created. -/
def createdDisk (u : Unspecified) (disk : Memory) (newFile : List UInt8)
    (fileMode now d o m b : ℕ) : Memory :=
  splice (splice (claimedDisk disk m b) (inodeBlock d) BLOCK_SIZE (directoryBlock u disk d o m))
    (inodeBlock m) BLOCK_SIZE (newBlock u disk newFile fileMode now d m b)

/-- The inode of the block of `m` that is written: the one at the position of `d`. -/
def writtenInode (d m : ℕ) : ℕ := 4 * (m / 4) + d % 4

/-- The disk with the name laid over the block of `m`, from the name of the inode that is
written on. -/
def laidName (disk : Memory) (newFile : List UInt8) (d m : ℕ) : Memory :=
  splice disk (inodeBlock m) BLOCK_SIZE
    (strcpy (view disk (inodeBlock m)) (offsetInBlock d + name) newFile)

/-- Two disks have the same bytes in inode `n`. -/
def SameInode (disk disk' : Memory) (n : ℕ) : Prop :=
  ∀ c, inodeAt n ≤ c → c < inodeAt n + Inode.size → disk' c = disk c

/-- What a call of `sfs_create` that succeeds has found: the directory, its last free
entry, and the first free entries of the maps. -/
structure Creates (u : Unspecified) (path : List UInt8) (rand : ℕ × ℕ) (disk : Memory)
    (newFile : List UInt8) (d o m b : ℕ) : Prop where
  /-- The path is split at its last `/`. -/
  split : ∃ i, lastSlash path path.length = some i ∧
    newFile = substring u path (i + 1) (path.length - 1) ∧
    lookup disk (strtok (substring u path 0 i)) 0 = some d
  /-- The directory can be read. -/
  readable : Readable d
  /-- The number of the directory. -/
  lt : d < 2 ^ 32
  /-- The free entry of the directory. -/
  space : openChildSpace (inodeBuffer u disk d) (offsetInBlock d) = some o
  /-- The number of the inode. -/
  inode_lt : m < 5000
  /-- The inode is the first free one from the random position on. -/
  inode : FirstFree disk .inode (rand.1 % 5000) m
  /-- The number of the data block. -/
  block_lt : b < 5000
  /-- The data block is free. -/
  block : FirstFree disk .data (rand.2 % 5000) b
  /-- The name fits in the memory. -/
  fits : offsetInBlock d + name + newFile.length + 1 ≤ 2 * BLOCK_SIZE

/-- The ways in which a call without errors ends. -/
theorem sfsCreate_cases (hs : s.errors = [])
    (hrun : sfsCreate u path fileMode rand now s = some (r, s')) :
    (r = -1 ∧ s' = s) ∨ ∃ newFile d o m b, r = 0 ∧ Creates u path rand s.disk newFile d o m b ∧
      s' =
        { disk := createdDisk u s.disk newFile fileMode now d o m b
          errors := s.errors
          numOccupiedInodeBytemap := s.numOccupiedInodeBytemap + 1
          numOccupiedDataBlocksBytemap := s.numOccupiedDataBlocksBytemap + 1 } := by
  unfold sfsCreate at hrun
  split at hrun
  · obtain ⟨rfl, rfl⟩ := Prod.mk.inj (Option.some.inj hrun)
    exact Or.inl ⟨rfl, rfl⟩
  obtain ⟨i, hslash, hrun⟩ := Option.bind_eq_some_iff.mp hrun
  obtain ⟨⟨d, s₁⟩, hdir, hrun⟩ := Option.bind_eq_some_iff.mp hrun
  obtain ⟨hlookup, hd, hsame⟩ := getInodeNumbFromPath_spec hdir hs
  obtain rfl := hsame.symm
  obtain ⟨⟨dir_block, s₁⟩, hread, hrun⟩ := Option.bind_eq_some_iff.mp hrun
  obtain ⟨hreadable, rfl, hsame⟩ := getBlockByInodeNumb_spec hread hs hd
  obtain rfl := hsame.symm
  dsimp only at hrun
  cases hspace : openChildSpace (inodeBuffer u s.disk d) (offsetInBlock d) with
  | none =>
    rw [hspace] at hrun
    obtain ⟨rfl, rfl⟩ := Prod.mk.inj (Option.some.inj hrun)
    exact Or.inl ⟨rfl, rfl⟩
  | some o =>
    rw [hspace] at hrun
    obtain ⟨⟨found, s₃⟩, hinode, hrun⟩ := Option.bind_eq_some_iff.mp hrun
    obtain ⟨m, rfl, hm, hfree, rfl⟩ := getFreeBitMapEntry_spec hinode hs
    obtain ⟨⟨temp, s₄⟩, hread, hrun⟩ := Option.bind_eq_some_iff.mp hrun
    obtain ⟨hreadable', rfl, rfl⟩ := getBlockByInodeNumb_spec hread hs (by omega)
    obtain ⟨_, hfits, hrun⟩ := Option.bind_eq_some_iff.mp hrun
    obtain ⟨⟨found, s₅⟩, hblock, hrun⟩ := Option.bind_eq_some_iff.mp hrun
    obtain ⟨b, rfl, hb, hfree', rfl⟩ := getFreeBitMapEntry_spec hblock hs
    dsimp only at hrun hfree'
    obtain ⟨dirNumb, hdirNumb, hrun⟩ := Option.bind_eq_some_iff.mp hrun
    rw [blockWrite_inode hdirNumb hreadable] at hrun
    swap
    · exact hs
    obtain ⟨inodeNumb, hinodeNumb, hrun⟩ := Option.bind_eq_some_iff.mp hrun
    rw [blockWrite_inode hinodeNumb hreadable'] at hrun
    swap
    · exact hs
    obtain ⟨rfl, rfl⟩ := Prod.mk.inj (Option.some.inj hrun)
    refine Or.inr ⟨_, d, o, m, b, rfl, ⟨⟨i, hslash, rfl, hlookup⟩, hreadable, hd, hspace, hm, hfree,
      hb, hfree'.congr (Nat.mod_lt _ (by decide)) fun n hn => ?_, ?_⟩, rfl⟩
    · refine Function.update_of_ne ?_ _ _
      simp only [MapType.entry, MapType.offset, BLOCK_SIZE]
      omega
    · by_contra hlong
      simp [hlong] at hfits

/-! ## The inodes afterwards -/

/-- The same bytes give the same fields. -/
theorem SameInode.get {disk' : Memory} (h : SameInode disk disk' n)
    (hf : f.offset + f.width ≤ Inode.size) :
    Bytes.get disk' (inodeAt n) f = Bytes.get disk (inodeAt n) f :=
  load_congr fun c _ _ => h c (by omega) (by omega)

/-- The same bytes give the same entries. -/
theorem SameInode.entry {disk' : Memory} (h : SameInode disk disk' n) (hi : i < 10) :
    entry disk' n i = entry disk n i :=
  h.get (by simp only [block_ptr, Inode.size]; omega)

/-- The block of an inode is the one that holds four records with it. -/
theorem inodeBlock_eq (hn : n < 2 ^ 31) : inodeBlock n = BLOCK_SIZE * (20 + n / 4) := if_pos hn

/-- The block of an inode is a block of the disk. -/
theorem inodeBlock_dvd (n : ℕ) : BLOCK_SIZE ∣ inodeBlock n := by
  unfold inodeBlock
  split <;> exact Nat.dvd_mul_right _ _

/-- Two blocks have no byte in common. -/
theorem inodeBlock_apart (h : inodeBlock d ≠ inodeBlock m) :
    inodeBlock d + BLOCK_SIZE ≤ inodeBlock m ∨ inodeBlock m + BLOCK_SIZE ≤ inodeBlock d := by
  obtain ⟨x, hx⟩ := inodeBlock_dvd d
  obtain ⟨y, hy⟩ := inodeBlock_dvd m
  rw [hx, hy] at h ⊢
  unfold BLOCK_SIZE at *
  omega

/-- The blocks of the inodes begin behind the maps. -/
theorem claimedDisk_apply (hm : m < 5000) (hb : b < 5000) (hc : 20 * BLOCK_SIZE ≤ c) :
    claimedDisk disk m b c = disk c := by
  unfold BLOCK_SIZE at hc
  rw [claimedDisk, Function.update_of_ne, Function.update_of_ne]
  all_goals
    simp only [MapType.entry, MapType.offset, BLOCK_SIZE]
    omega

/-- Where the inode that is written is. -/
theorem inodeAt_written (hm : m < 5000) :
    inodeAt (writtenInode d m) = inodeBlock m + offsetInBlock d := by
  rw [inodeAt_eq (by unfold writtenInode; omega), inodeBlock_eq (by omega)]
  unfold writtenInode offsetInBlock Inode.size BLOCK_SIZE
  omega

/-- Within the block of the new inode the new disk has the new block. -/
theorem createdDisk_inside (hc : c < BLOCK_SIZE) :
    createdDisk u disk newFile fileMode now d o m b (inodeBlock m + c) =
      newBlock u disk newFile fileMode now d m b c := splice_inside hc

/-- The block of the new inode is written behind the maps. -/
theorem inodeBuffer_claimed (hm : m < 5000) (hc : c < BLOCK_SIZE) :
    inodeBuffer u (Function.update disk (MapType.inode.entry m) 1) m c =
      view disk (inodeBlock m) c := by
  rw [inodeBuffer_apply hc, Function.update_of_ne, view]
  rw [inodeBlock_eq (by omega)]
  simp only [MapType.entry, MapType.offset, BLOCK_SIZE]
  omega

/-- The fields of the inode that is written. -/
theorem createdDisk_written (hm : m < 5000) (hb : b < 5000) :
    get (createdDisk u disk newFile fileMode now d o m b) (inodeAt (writtenInode d m)) state =
        file ∧
      get (createdDisk u disk newFile fileMode now d o m b) (inodeAt (writtenInode d m)) uid = m ∧
      entry (createdDisk u disk newFile fileMode now d o m b) (writtenInode d m) 0 = b ∧
      ∀ i, 1 ≤ i → i < 10 →
        entry (createdDisk u disk newFile fileMode now d o m b) (writtenInode d m) i =
          minusOne := by
  have hle := offsetInBlock_le (n := d)
  have hfield (f : Field) (hf : f.offset + f.width ≤ Inode.size) :
      get (createdDisk u disk newFile fileMode now d o m b) (inodeAt (writtenInode d m)) f =
        get (newBlock u disk newFile fileMode now d m b) (offsetInBlock d) f := by
    rw [inodeAt_written hm, Bytes.get, Nat.add_assoc]
    exact load_splice_inside (by omega)
  refine ⟨(hfield _ (by decide)).trans ?_, (hfield _ (by decide)).trans ?_,
    (hfield _ (by decide)).trans ?_, fun i hi hlt => (hfield _ ?_).trans ?_⟩
  · exact (get_set_of_disjoint (by decide)).trans newInode_state
  · exact (get_set_of_disjoint (by decide)).trans (newInode_uid (by omega))
  · refine get_set_self.trans (Nat.mod_eq_of_lt ?_)
    simp only [block_ptr]
    omega
  · simp only [block_ptr, Inode.size]
    omega
  · exact (get_set_of_disjoint (block_ptr_disjoint (by omega))).trans (clearPointers_entry hlt)

/-- A byte of an inode in the block that it shares with inode `m`. -/
theorem byte_in_block {c : ℕ} (hm : m < 5000) (hn : n / 4 = m / 4) (hc : inodeAt n ≤ c)
    (hlt : c < inodeAt n + Inode.size) :
    ∃ k < BLOCK_SIZE, c = inodeBlock m + k ∧ offsetInBlock n ≤ k ∧
      k < offsetInBlock n + Inode.size := by
  have hblock := inodeBlock_eq (n := m) (by omega)
  rw [inodeAt_eq (by omega)] at hc hlt
  have hle : inodeBlock m ≤ c := by
    rw [hblock]
    unfold BLOCK_SIZE Inode.size at *
    omega
  obtain ⟨k, rfl⟩ := Nat.exists_eq_add_of_le hle
  rw [hblock] at hc hlt
  refine ⟨k, ?_, rfl, ?_, ?_⟩ <;> unfold offsetInBlock BLOCK_SIZE Inode.size at * <;> omega

/-- The other inodes of the block of the new inode. -/
theorem createdDisk_neighbour (hm : m < 5000) (hn : n / 4 = m / 4) (hne : n ≠ writtenInode d m) :
    SameInode (laidName disk newFile d m) (createdDisk u disk newFile fileMode now d o m b) n := by
  intro c hc hlt
  obtain ⟨k, hk, rfl, hlow, hhigh⟩ := byte_in_block hm hn hc hlt
  have houtside : k < offsetInBlock d ∨ offsetInBlock d + Inode.size ≤ k := by
    unfold writtenInode offsetInBlock BLOCK_SIZE Inode.size at *
    omega
  rw [createdDisk_inside hk, laidName, splice_inside hk, newBlock]
  rw [set_apply (by unfold Inode.size at houtside; simp only [block_ptr]; omega),
    newInode_apply houtside]
  simp only [strcpy, splice, inodeBuffer_claimed hm hk]

/-- An inode of another block that is not the directory. -/
theorem createdDisk_far (hm : m < 5000) (hb : b < 5000) (hd : d < 2 ^ 32) (hn : n < 2 ^ 31)
    (hnm : n / 4 ≠ m / 4) (hnd : n ≠ d) (ho : o < 10) :
    SameInode disk (createdDisk u disk newFile fileMode now d o m b) n := by
  intro c hc hlt
  have hblock := inodeBlock_eq (n := m) (by omega)
  rw [inodeAt_eq hn] at hc hlt
  have hout : c < inodeBlock m ∨ inodeBlock m + BLOCK_SIZE ≤ c := by
    rw [hblock]
    unfold BLOCK_SIZE Inode.size at *
    omega
  rw [createdDisk, splice_outside hout]
  by_cases hdir : inodeBlock d ≤ c ∧ c < inodeBlock d + BLOCK_SIZE
  · obtain ⟨k, rfl⟩ := Nat.exists_eq_add_of_le hdir.1
    rw [splice_inside (by omega), directoryBlock, set_apply, inodeBuffer_apply (by omega)]
    have hd : d < 2 ^ 31 := by
      by_contra hneg
      unfold inodeBlock at hdir hc
      rw [if_neg hneg] at hdir hc
      unfold BLOCK_SIZE Inode.size at *
      omega
    rw [inodeBlock_eq hd] at hc hlt
    simp only [block_ptr]
    unfold offsetInBlock BLOCK_SIZE Inode.size at *
    omega
  · rw [splice_outside (by omega), claimedDisk_apply hm hb (by omega)]

/-- The directory, if the new inode is in another block. -/
theorem createdDisk_directory (hm : m < 5000) (ho : o < 10)
    (hblocks : inodeBlock d ≠ inodeBlock m) :
    entry (createdDisk u disk newFile fileMode now d o m b) d o = m ∧
      (∀ i < 10, i ≠ o →
        entry (createdDisk u disk newFile fileMode now d o m b) d i = entry disk d i) ∧
      get (createdDisk u disk newFile fileMode now d o m b) (inodeAt d) state =
        get disk (inodeAt d) state := by
  have hle := offsetInBlock_le (n := d)
  have hout := inodeBlock_apart hblocks
  have hfield (f : Field) (hf : f.offset + f.width ≤ Inode.size) :
      get (createdDisk u disk newFile fileMode now d o m b) (inodeAt d) f =
        get (directoryBlock u disk d o m) (offsetInBlock d) f := by
    rw [Bytes.get, createdDisk, load_splice_outside (by unfold inodeAt; omega), inodeAt,
      Nat.add_assoc]
    exact load_splice_inside (by omega)
  have hentry (i : ℕ) (hi : i < 10) : (block_ptr i).offset + (block_ptr i).width ≤ Inode.size := by
    simp only [block_ptr, Inode.size]
    omega
  refine ⟨(hfield _ (hentry o ho)).trans ?_, fun i hi hne => (hfield _ (hentry i hi)).trans ?_,
    (hfield _ (by decide)).trans ?_⟩
  · refine get_set_self.trans (Nat.mod_eq_of_lt ?_)
    simp only [block_ptr]
    omega
  · exact (get_set_of_disjoint (block_ptr_disjoint (Ne.symm hne))).trans
      (get_inodeBuffer (hentry i hi))
  · refine (get_set_of_disjoint ?_).trans (get_inodeBuffer (by decide))
    simp only [Field.Disjoint, block_ptr, state]
    omega

end SimpleOs.Files
