import SimpleOs.Files.Errors

/-!
# The inodes that creating a file changes

The new inode is written at the position that the directory has in its own block. It
is the inode that was allocated only if both are at the same position. The name is not
cut off, and may reach into the inodes behind.
-/

namespace SimpleOs.Files

open Bytes Inode

variable {u : Unspecified} {s s' : Sfs} {disk disk' : Memory} {path newFile : List UInt8}
  {fileMode now d o m b n c k : ℕ} {rand : ℕ × ℕ}

/-! ## What a call finds -/

/-- A call finds one directory, one entry and one of each map. -/
theorem Creates.unique {newFile' : List UInt8} {d' o' m' b' : ℕ}
    (h : Creates u path rand disk newFile d o m b)
    (h' : Creates u path rand disk newFile' d' o' m' b') :
    newFile = newFile' ∧ d = d' ∧ o = o' ∧ m = m' ∧ b = b' := by
  obtain ⟨i, hi, rfl, hd⟩ := h.split
  obtain ⟨i', hi', rfl, hd'⟩ := h'.split
  obtain rfl := Option.some.inj (hi.symm.trans hi')
  obtain rfl := Option.some.inj (hd.symm.trans hd')
  obtain rfl := Option.some.inj (h.space.symm.trans h'.space)
  exact ⟨rfl, rfl, rfl, h.inode.unique h'.inode, h.block.unique h'.block⟩

/-- The disk after a call that found these. -/
theorem Creates.disk_eq (hcreates : Creates u path rand s.disk newFile d o m b)
    (hrun : sfsCreate u path fileMode rand now s = some (0, s')) :
    s'.disk = createdDisk u s.disk newFile fileMode now d o m b := by
  obtain ⟨newFile', d', o', m', b', hcreates', hdisk⟩ := sfsCreate_spec hrun
  obtain ⟨rfl, rfl, rfl, rfl, rfl⟩ := hcreates.unique hcreates'
  exact hdisk

/-! ## The fields that are written -/

/-- The fields of a new file and their values. -/
def newFields (fileMode m now b : ℕ) : List (Field × ℕ) :=
  [(mode, fileMode), (state, file), (uid, m), (links_count, 1), (flag, opened), (time, now),
    (ctime, now), (mtime, now), (block_ptr 0, b), (block_ptr 1, minusOne),
    (block_ptr 2, minusOne), (block_ptr 3, minusOne), (block_ptr 4, minusOne),
    (block_ptr 5, minusOne), (block_ptr 6, minusOne), (block_ptr 7, minusOne),
    (block_ptr 8, minusOne), (block_ptr 9, minusOne), (block_ptr_indirect 1, 0),
    (block_ptr_double_indirect, 0)]

/-- The byte with number `k` of an inode is in one of the fields. -/
def InField (fields : List (Field × ℕ)) (k : ℕ) : Prop :=
  ∃ x ∈ fields, x.1.offset ≤ k ∧ k < x.1.offset + x.1.width

/-- Inode `n` is what is written for the new file: the fields, and the name where no field
is written over it. -/
structure IsNewFile (disk : Memory) (n : ℕ) (newFile : List UInt8) (fileMode m now b : ℕ) :
    Prop where
  /-- The fields of the new file have the values that `sfs_create` gives them. -/
  fields : ∀ x ∈ newFields fileMode m now b, get disk (inodeAt n) x.1 = x.2 % 256 ^ x.1.width
  /-- The name of the new file is there, as far as no field is written over it. -/
  named : ∀ k ≤ newFile.length, name + k < Inode.size →
    ¬ InField (newFields fileMode m now b) (name + k) →
    disk (inodeAt n + (name + k)) = newFile.getD k 0

/-- The fields are within the inode, and the first character of the name is in none. -/
theorem newFields_bounds : ∀ f ∈ (newFields fileMode m now b).map Prod.fst,
    f.offset + f.width ≤ Inode.size ∧ (f.offset + f.width ≤ name ∨ name < f.offset) := by
  simp only [newFields, List.map_cons, List.map_nil]
  decide

/-- The fields are within the inode. -/
theorem newFields_size (x : Field × ℕ) (hx : x ∈ newFields fileMode m now b) :
    x.1.offset + x.1.width ≤ Inode.size :=
  (newFields_bounds x.1 (List.mem_map_of_mem hx)).1

/-- The fields in the block of the new inode. -/
theorem newBlock_fields {x : Field × ℕ} (hx : x ∈ newFields fileMode m now b) :
    get (newBlock u disk newFile fileMode now d m b) (offsetInBlock d) x.1 =
      x.2 % 256 ^ x.1.width := by
  have hname {k : Memory} {a : ℕ} {f : Field} (hf : f.offset + f.width ≤ name) :
      get (strcpy k (a + name) newFile) a f = get k a f :=
    load_congr fun c _ hlt => strcpy_apply (by omega)
  have hrange : List.range 10 = [0, 1, 2, 3, 4, 5, 6, 7, 8, 9] := by decide
  unfold newBlock newInode clearPointers
  rw [hrange]
  simp only [List.foldl_cons, List.foldl_nil]
  simp only [newFields, List.mem_cons, List.not_mem_nil, or_false] at hx
  rcases hx with rfl | rfl | rfl | rfl | rfl | rfl | rfl | rfl | rfl | rfl | rfl | rfl | rfl | rfl |
    rfl | rfl | rfl | rfl | rfl | rfl
  all_goals simp (disch := decide) only [get_set_of_disjoint, get_set_self, hname]

/-- The bytes in no field, in the block of the new inode. -/
theorem newBlock_apply (hk : ¬ InField (newFields fileMode m now b) k) :
    newBlock u disk newFile fileMode now d m b (offsetInBlock d + k) =
      strcpy (inodeBuffer u (Function.update disk (MapType.inode.entry m) 1) m)
        (offsetInBlock d + name) newFile (offsetInBlock d + k) := by
  have hset {M : Memory} {f : Field} {v : ℕ}
      (hf : f ∈ (newFields fileMode m now b).map Prod.fst) :
      set M (offsetInBlock d) f v (offsetInBlock d + k) = M (offsetInBlock d + k) := by
    obtain ⟨x, hx, rfl⟩ := List.mem_map.mp hf
    apply set_apply
    by_contra hin
    exact hk ⟨x, hx, by omega, by omega⟩
  have hname {M M' : Memory} (hM : M' (offsetInBlock d + k) = M (offsetInBlock d + k)) :
      strcpy M' (offsetInBlock d + name) newFile (offsetInBlock d + k) =
        strcpy M (offsetInBlock d + name) newFile (offsetInBlock d + k) := by
    simp only [strcpy, splice, hM]
  have hrange : List.range 10 = [0, 1, 2, 3, 4, 5, 6, 7, 8, 9] := by decide
  have hindirect : block_ptr_indirect 2 = block_ptr_double_indirect := rfl
  unfold newBlock newInode clearPointers
  rw [hrange, hindirect]
  simp only [List.foldl_cons, List.foldl_nil]
  simp (disch := simp [newFields]) only [hset]
  apply hname
  simp (disch := simp [newFields]) only [hset]

/-- The bytes of the inode that is written. -/
theorem createdDisk_written_apply (hm : m < 5000) (hk : k < Inode.size) :
    createdDisk u disk newFile fileMode now d o m b (inodeAt (writtenInode d m) + k) =
      newBlock u disk newFile fileMode now d m b (offsetInBlock d + k) := by
  have hle := offsetInBlock_le (n := d)
  rw [inodeAt_written hm, Nat.add_assoc]
  exact createdDisk_inside (by omega)

/-- The inode that is written is that of the new file. -/
theorem createdDisk_fields (hm : m < 5000) {x : Field × ℕ}
    (hx : x ∈ newFields fileMode m now b) :
    get (createdDisk u disk newFile fileMode now d o m b) (inodeAt (writtenInode d m)) x.1 =
      x.2 % 256 ^ x.1.width := by
  have hsize := newFields_size x hx
  rw [← newBlock_fields (u := u) (d := d) hx, Bytes.get]
  refine load_eq_of_eq fun c hc => ?_
  rw [Nat.add_assoc, createdDisk_written_apply hm (by omega), ← Nat.add_assoc]

/-- The inode that is written does not change exactly if it was that of the new file
before. -/
theorem sameInode_written_iff (hm : m < 5000) :
    SameInode disk (createdDisk u disk newFile fileMode now d o m b) (writtenInode d m) ↔
      IsNewFile disk (writtenInode d m) newFile fileMode m now b := by
  have hle := offsetInBlock_le (n := d)
  have hold (k : ℕ) (hk : k < Inode.size) :
      inodeBuffer u (Function.update disk (MapType.inode.entry m) 1) m (offsetInBlock d + k) =
        disk (inodeAt (writtenInode d m) + k) := by
    rw [inodeBuffer_claimed hm (by omega), view, inodeAt_written hm, Nat.add_assoc]
  constructor
  · intro hsame
    constructor
    · intro x hx
      rw [← hsame.get (newFields_size x hx)]
      exact createdDisk_fields hm hx
    · intro k hk hsize hno
      rw [← hsame _ (by omega) (by omega), createdDisk_written_apply hm hsize, newBlock_apply hno,
        ← Nat.add_assoc]
      exact splice_inside (by omega)
  · intro hnew c hc hlt
    obtain ⟨k, rfl⟩ := Nat.exists_eq_add_of_le hc
    have hk : k < Inode.size := by omega
    by_cases hfield : InField (newFields fileMode m now b) k
    · obtain ⟨x, hx, hlow, hhigh⟩ := hfield
      have hsame : get (createdDisk u disk newFile fileMode now d o m b)
          (inodeAt (writtenInode d m)) x.1 = get disk (inodeAt (writtenInode d m)) x.1 :=
        (createdDisk_fields hm hx).trans (hnew.fields x hx).symm
      exact eq_of_load_eq hsame (by omega) (by omega)
    · rw [createdDisk_written_apply hm hk, newBlock_apply hfield]
      by_cases hname : name ≤ k ∧ k < name + (newFile.length + 1)
      · obtain ⟨i, rfl⟩ := Nat.exists_eq_add_of_le hname.1
        rw [hnew.named i (by omega) hk hfield, strcpy, ← Nat.add_assoc]
        exact splice_inside (by omega)
      · rw [strcpy, splice_outside (by omega), hold k hk]

/-! ## The inodes that change -/

/-- Inode `m` is that of a file with one data block `b`. -/
structure AllocatedInode (disk : Memory) (m b : ℕ) : Prop where
  /-- The inode is marked as that of a file. -/
  state : get disk (inodeAt m) state = file
  /-- It has its own number. -/
  uid : get disk (inodeAt m) uid = m
  /-- The first entry is the data block. -/
  first : entry disk m 0 = b
  /-- The other entries are not in use. -/
  rest : ∀ i, 1 ≤ i → i < 10 → entry disk m i = minusOne

/-- Inode `m` is allocated, and no other inode but that of the directory changes. -/
def CreatesOnly (disk disk' : Memory) (d m b : ℕ) : Prop :=
  AllocatedInode disk' m b ∧ ∀ n < 2 ^ 31, n ≠ m → n ≠ d → SameInode disk disk' n

/-- The name does not change the inodes in the block that it reaches, and the new inode is
at the same position in its block as the directory in its own. If it is not, what the name
leaves of inode `m` is already that of a file with data block `b`, and the inode that is
written is that of the directory or does not change. -/
def CreatesInPlace (disk : Memory) (newFile : List UInt8) (fileMode now d m b : ℕ) : Prop :=
  (∀ n, n / 4 = m / 4 → n ≠ m → n ≠ d → n ≠ writtenInode d m →
    SameInode disk (laidName disk newFile d m) n) ∧
    (m % 4 = d % 4 ∨ AllocatedInode (laidName disk newFile d m) m b ∧
      (writtenInode d m = d ∨ IsNewFile disk (writtenInode d m) newFile fileMode m now b))

theorem SameInode.symm (h : SameInode disk disk' n) : SameInode disk' disk n :=
  fun c hc hlt => (h c hc hlt).symm

theorem SameInode.trans {disk'' : Memory} (h : SameInode disk disk' n)
    (h' : SameInode disk' disk'' n) : SameInode disk disk'' n :=
  fun c hc hlt => (h' c hc hlt).trans (h c hc hlt)

/-- The same bytes are those of the same inode. -/
theorem AllocatedInode.congr (h : AllocatedInode disk m b) (hsame : SameInode disk disk' m) :
    AllocatedInode disk' m b := by
  constructor
  · rw [hsame.get (by decide)]
    exact h.state
  · rw [hsame.get (by decide)]
    exact h.uid
  · rw [hsame.entry (by decide)]
    exact h.first
  · intro i hi hlt
    rw [hsame.entry hlt]
    exact h.rest i hi hlt

/-- Where the new inode is written if it is at the same position as the directory. -/
theorem writtenInode_eq_iff : writtenInode d m = m ↔ m % 4 = d % 4 := by
  unfold writtenInode
  omega

/-- A name that fits in the inode does not reach into another one. -/
theorem laidName_same (hm : m < 5000) (hfit : name + newFile.length + 1 ≤ Inode.size)
    (hn : n / 4 = m / 4) (hw : n ≠ writtenInode d m) :
    SameInode disk (laidName disk newFile d m) n := by
  intro c hc hlt
  obtain ⟨k, hk, rfl, hlow, hhigh⟩ := byte_in_block hm hn hc hlt
  rw [laidName, splice_inside hk, strcpy, splice_outside, view]
  unfold writtenInode offsetInBlock BLOCK_SIZE Inode.size name at *
  omega

/-- A short name and the same position are enough. -/
theorem createsInPlace_of_short (hm : m < 5000)
    (hfit : name + newFile.length + 1 ≤ Inode.size) (hpos : m % 4 = d % 4) :
    CreatesInPlace disk newFile fileMode now d m b :=
  ⟨fun _ hn _ _ hw => laidName_same hm hfit hn hw, Or.inl hpos⟩

/-- After a file was created the inodes are as they should be exactly if the new inode is
written in its place. -/
theorem createdDisk_only_iff (hcreates : Creates u path rand disk newFile d o m b) :
    CreatesOnly disk (createdDisk u disk newFile fileMode now d o m b) d m b ↔
      CreatesInPlace disk newFile fileMode now d m b := by
  have hm := hcreates.inode_lt
  have hb := hcreates.block_lt
  obtain ⟨ho, _⟩ := openChildSpace_spec hcreates.space
  have hblock : writtenInode d m / 4 = m / 4 := by
    unfold writtenInode
    omega
  have hnear {n : ℕ} (hn : n / 4 = m / 4) (hw : n ≠ writtenInode d m) :
      SameInode (laidName disk newFile d m) (createdDisk u disk newFile fileMode now d o m b) n :=
    createdDisk_neighbour hm hn hw
  constructor
  · rintro ⟨halloc, hothers⟩
    constructor
    · intro n hn hnm hnd hw
      exact (hothers n (by omega) hnm hnd).trans (hnear hn hw).symm
    · by_cases hpos : m % 4 = d % 4
      · exact Or.inl hpos
      · have hw : writtenInode d m ≠ m := fun heq => hpos (writtenInode_eq_iff.mp heq)
        right
        constructor
        · exact halloc.congr (hnear rfl (Ne.symm hw)).symm
        · by_cases hwd : writtenInode d m = d
          · exact Or.inl hwd
          · exact Or.inr ((sameInode_written_iff hm).mp (hothers _ (by omega) hw hwd))
  · rintro ⟨hname, hpos⟩
    constructor
    · by_cases hw : writtenInode d m = m
      · have hwritten : get (createdDisk u disk newFile fileMode now d o m b)
            (inodeAt (writtenInode d m)) state = file ∧ _ := createdDisk_written hm hb
        rw [hw] at hwritten
        obtain ⟨hstate, huid, hfirst, hrest⟩ := hwritten
        exact ⟨hstate, huid, hfirst, hrest⟩
      · obtain ⟨halloc, _⟩ := hpos.resolve_left fun h => hw (writtenInode_eq_iff.mpr h)
        exact halloc.congr (hnear rfl (Ne.symm hw))
    · intro n hn hnm hnd
      by_cases hnear' : n / 4 = m / 4
      · by_cases hw : n = writtenInode d m
        · subst hw
          obtain ⟨_, hsame⟩ := hpos.resolve_left fun h => hnm (writtenInode_eq_iff.mpr h)
          exact (sameInode_written_iff hm).mpr (hsame.resolve_left hnd)
        · exact (hname n hnear' hnm hnd hw).trans (hnear hnear' hw)
      · exact createdDisk_far hm hb hcreates.lt hn hnear' hnd ho

/-- `sfs_create` writes only the inode that it allocated, and the directory, exactly if the
new inode is at the position in its block that the directory has in its own, and the name
leaves the other inodes of the block alone. -/
theorem create_writes_own_inode_iff (u : Unspecified) (path : List UInt8) (fileMode : ℕ)
    (rand : ℕ × ℕ) (now : ℕ) (s s' : Sfs)
    (hrun : sfsCreate u path fileMode rand now s = some (0, s')) (newFile : List UInt8)
    (d o m b : ℕ) (hcreates : Creates u path rand s.disk newFile d o m b) :
    CreatesOnly s.disk s'.disk d m b ↔ CreatesInPlace s.disk newFile fileMode now d m b := by
  rw [hcreates.disk_eq hrun]
  exact createdDisk_only_iff hcreates

/-! ## Runs on given inputs -/

/-- What is read without having been written is zero, and calls return. -/
def sampleUnspecified : Unspecified where
  fresh := fun _ => 0
  around := fun _ => 0
  result := 0
  freeReturns := true

/-- A zero-filled disk after `sfs_init`. -/
def mountedDisk : Memory :=
  splice (Function.update (fun _ => 0) 0 1) (20 * BLOCK_SIZE) BLOCK_SIZE (rootInode (fun _ => 0) 0)

/-- The file system after `sfs_init`. -/
def mounted : Sfs := ⟨mountedDisk, [], 0, 0⟩

/-- The characters of a string. -/
def chars (str : String) : List UInt8 := str.toUTF8.toList

/-- The path before the last `/` of `/ab` leads to the root. -/
theorem sample_root : lookup disk (strtok (substring sampleUnspecified (chars "/ab") 0 0)) 0 =
    some 0 := by
  have hroot : strtok (substring sampleUnspecified (chars "/ab") 0 0) = [] := by decide +kernel
  rw [hroot]
  rfl

/-- What a call finds for `/ab`: the root, and free entries where the search begins. -/
theorem sample_creates (hspace : openChildSpace (inodeBuffer sampleUnspecified disk 0)
    (offsetInBlock 0) = some o) (hm : m < 5000) (hb : b < 5000) (hfree : disk m ≠ 1)
    (hfree' : disk (5120 + b) ≠ 1) :
    Creates sampleUnspecified (chars "/ab") (m, b) disk (chars "/a") 0 o m b := by
  constructor
  · exact ⟨0, by decide +kernel, by decide +kernel, sample_root⟩
  · decide
  · decide
  · exact hspace
  · exact hm
  · refine ⟨0, (Nat.mod_eq_of_lt hm).symm, ?_, by simp⟩
    simpa [MapType.entry, MapType.offset] using hfree
  · exact hb
  · refine ⟨0, (Nat.mod_eq_of_lt hb).symm, ?_, by simp⟩
    simpa [MapType.entry, MapType.offset, BLOCK_SIZE] using hfree'
  · decide +kernel

/-- The root of a new file system has no entries. -/
theorem mounted_creates (hm : m < 5000) (hb : b < 5000) (hfree : mountedDisk m ≠ 1)
    (hfree' : mountedDisk (5120 + b) ≠ 1) :
    Creates sampleUnspecified (chars "/ab") (m, b) mountedDisk (chars "/a") 0 9 m b :=
  sample_creates (by decide +kernel) hm hb hfree hfree'

/-- The theorem for inode 4, which has the position of the root. -/
theorem create_writes_own_inode_four :
    ∃ s', sfsCreate sampleUnspecified (chars "/ab") 0 (4, 7) 0 mounted = some (0, s') ∧
      CreatesOnly mounted.disk s'.disk 0 4 7 := by
  have hrun : (sfsCreate sampleUnspecified (chars "/ab") 0 (4, 7) 0 mounted).map Prod.fst =
      some 0 := by
    decide +kernel
  obtain ⟨⟨r, s'⟩, hs', rfl⟩ := Option.map_eq_some_iff.mp hrun
  have hcreates := mounted_creates (m := 4) (b := 7) (by decide) (by decide) (by decide +kernel)
    (by decide +kernel)
  refine ⟨s', hs', (create_writes_own_inode_iff _ _ _ _ _ _ _ hs' _ _ _ _ _ hcreates).mpr ?_⟩
  exact createsInPlace_of_short (by decide) (by decide +kernel) (by decide)

/-- Inode 5 is allocated, and inode 4 is written. -/
theorem create_writes_other_inode :
    ∃ s', sfsCreate sampleUnspecified (chars "/ab") 0 (5, 7) 0 mounted = some (0, s') ∧
      Creates sampleUnspecified (chars "/ab") (5, 7) mounted.disk (chars "/a") 0 9 5 7 ∧
      ¬ CreatesOnly mounted.disk s'.disk 0 5 7 := by
  have hrun : (sfsCreate sampleUnspecified (chars "/ab") 0 (5, 7) 0 mounted).map (fun r =>
      (r.1, get r.2.disk (inodeAt 5) state)) = some (0, 0) := by
    decide +kernel
  obtain ⟨⟨r, s'⟩, hs', heq⟩ := Option.map_eq_some_iff.mp hrun
  obtain ⟨rfl, hstate⟩ := Prod.mk.inj heq
  refine ⟨s', hs', mounted_creates (by decide) (by decide) (by decide +kernel)
    (by decide +kernel), fun honly => ?_⟩
  rw [honly.1.state] at hstate
  exact absurd hstate (by decide)

end SimpleOs.Files
