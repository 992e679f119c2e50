import SimpleOs.Files.Mounting
import SimpleOs.Files.Opening
import SimpleOs.Files.Freeing
import SimpleOs.Library.Runs

/-!
# Consistency of the file system

Files are created in the root of a new file system. As long as every inode that is
allocated is the first one of its block, where the root has its own position, the entries
of the root, the inodes and the two maps agree.
-/

namespace SimpleOs.Files

open Bytes Inode

variable {u : Unspecified} {s s' : Sfs} {disk disk' : Memory} {path str newFile : List UInt8}
  {fileMode now d o m b n c i j k : ℕ} {rand : ℕ × ℕ} {r : ℤ}

/-! ## Runs -/

/-- A name of a file: not empty, and without a `/`. -/
def IsName (str : List UInt8) : Prop := str ≠ [] ∧ slash ∉ str ∧ 0 ∉ str

/-- No entry of the root has the name. -/
def NotInRoot (disk : Memory) (str : List UInt8) : Prop :=
  ∀ i < 10, entry disk 0 i ≠ minusOne → cString (nameOf disk (inodeAt (entry disk 0 i))) ≠ str

/-- A path is that of a file. -/
def ResolvesToFile (disk : Memory) (path : List UInt8) : Prop :=
  ∃ n, lookup disk (strtok path) 0 = some n ∧ n ≠ minusOne ∧ get disk (inodeAt n) state = file

/-- The calls of a run, which create and remove files in the root, and open and release it. -/
inductive SfsEvent where
  /-- `sfs_create` for a name in the root, with the values of `rand()` and the time. -/
  | create (str : List UInt8) (fileMode : ℕ) (rand : ℕ × ℕ) (now : ℕ)
  /-- A call of `sfs_unlink` for a path. -/
  | unlink (path : List UInt8)
  /-- A call of `sfs_opendir` for the root. -/
  | opendir
  /-- A call of `sfs_releasedir` for the root. -/
  | releasedir

/-- One call that returns. A file is created under a name that the root does not have, and a path
that is removed is that of a file. -/
def SfsStep (s : Sfs) (e : SfsEvent) (s' : Sfs) : Prop :=
  match e with
  | .create str fileMode rand now => IsName str ∧ NotInRoot s.disk str ∧
      ∃ u r, sfsCreate u (slash :: str) fileMode rand now s = some (r, s')
  | .unlink path => ResolvesToFile s.disk path ∧ ∃ u r, sfsUnlink u path s = some (r, s')
  | .opendir => ∃ u r, sfsOpendir u [slash] s = some (r, s')
  | .releasedir => ∃ u r, sfsReleasedir u [slash] s = some (r, s')

/-- A zero-filled disk on which `sfs_init` ran. There are no errors. -/
def SfsStart (s : Sfs) : Prop :=
  ∃ now, sfsInit (fun _ => 0) (fun _ => 0) now ⟨fun _ => 0, [], 0, 0⟩ = some s

/-- The condition on a call: if a file is created, and the root has a free entry, the inode
that is allocated is the first one of its block. -/
def FirstOfBlock (s : Sfs) : SfsEvent → Prop
  | .create _ _ rand _ => (∃ i < 10, entry s.disk 0 i = minusOne) →
      ∀ m, FirstFree s.disk .inode (rand.1 % 5000) m → m % 4 = 0
  | _ => True

/-- The states reached by calls that meet `ok`. -/
def SfsReach (ok : Sfs → SfsEvent → Prop) : Sfs → Prop := Runs.Reach SfsStart SfsStep ok

/-- The root, the inodes of its files and the maps agree. -/
structure Consistent (disk : Memory) : Prop where
  /-- The root is a directory. -/
  root : IsDirectory disk 0 ∧ disk (MapType.inode.entry 0) = 1
  /-- Every number is there once. -/
  once : ∀ i < 10, ∀ j < 10, entry disk 0 i ≠ minusOne → entry disk 0 i = entry disk 0 j → i = j
  /-- Every inode is that of a file, with its number, and in use. -/
  file : ∀ i < 10, entry disk 0 i ≠ minusOne →
    disk (MapType.inode.entry (entry disk 0 i)) = 1 ∧
      get disk (inodeAt (entry disk 0 i)) state = file ∧
      get disk (inodeAt (entry disk 0 i)) uid = entry disk 0 i
  /-- Every data block is in use. -/
  block : ∀ i < 10, entry disk 0 i ≠ minusOne → ∀ k < 10,
    entry disk (entry disk 0 i) k ≠ minusOne →
    disk (MapType.data.entry (entry disk (entry disk 0 i) k)) = 1
  /-- Every data block belongs to one file. -/
  owner : ∀ i < 10, ∀ j < 10, entry disk 0 i ≠ minusOne → entry disk 0 j ≠ minusOne →
    ∀ k < 10, ∀ l < 10, entry disk (entry disk 0 i) k ≠ minusOne →
    entry disk (entry disk 0 i) k = entry disk (entry disk 0 j) l → i = j

/-! ## The invariant -/

/-- A file in the root: an inode at the beginning of a block, with one data block, and a name
that begins with `/`. -/
structure Child (disk : Memory) (m b : ℕ) : Prop where
  /-- The number of the inode. -/
  lt : m < 5000
  /-- The inode is the first one of its block. -/
  first : m % 4 = 0
  /-- The inode is in use. -/
  inode : disk (MapType.inode.entry m) = 1
  /-- The fields of the inode. -/
  allocated : AllocatedInode disk m b
  /-- The number of the data block. -/
  block_lt : b < 5000
  /-- The data block is in use. -/
  block : disk (MapType.data.entry b) = 1
  /-- The first character of the name. -/
  named : disk (inodeAt m + name) = slash

/-- The entries of the root are files. -/
structure FileSystem (disk : Memory) : Prop where
  /-- The root is a directory. -/
  root : IsDirectory disk 0
  /-- The root is in use. -/
  rootMap : disk (MapType.inode.entry 0) = 1
  /-- Every entry of the root that is in use is that of a file with one data block. -/
  children : ∀ i < 10, entry disk 0 i ≠ minusOne → ∃ b, Child disk (entry disk 0 i) b
  /-- Every number is there once. -/
  once : ∀ i < 10, ∀ j < 10, entry disk 0 i ≠ minusOne → entry disk 0 i = entry disk 0 j → i = j
  /-- Every data block belongs to one file. -/
  owner : ∀ i < 10, ∀ j < 10, entry disk 0 i ≠ minusOne → entry disk 0 j ≠ minusOne →
    entry disk (entry disk 0 i) 0 = entry disk (entry disk 0 j) 0 → i = j

/-- The only entry of an allocated inode that is not -1 is the first one, its data block. -/
theorem AllocatedInode.entry_eq (h : AllocatedInode disk m b) (hk : k < 10)
    (hne : entry disk m k ≠ minusOne) : k = 0 ∧ entry disk m k = b := by
  by_cases hzero : k = 0
  · exact ⟨hzero, by rw [hzero, h.first]⟩
  · exact absurd (h.rest k (by omega) hk) hne

/-- The invariant says that the file system is consistent. -/
theorem FileSystem.consistent (h : FileSystem disk) : Consistent disk := by
  constructor
  · exact ⟨h.root, h.rootMap⟩
  · exact h.once
  · intro i hi hne
    obtain ⟨b, hchild⟩ := h.children i hi hne
    exact ⟨hchild.inode, hchild.allocated.state, hchild.allocated.uid⟩
  · intro i hi hne k hk hblock
    obtain ⟨b, hchild⟩ := h.children i hi hne
    obtain ⟨_, hb⟩ := hchild.allocated.entry_eq hk hblock
    rw [hb]
    exact hchild.block
  · intro i hi j hj hne hne' k hk l hl hblock hsame
    obtain ⟨b, hchild⟩ := h.children i hi hne
    obtain ⟨b', hchild'⟩ := h.children j hj hne'
    obtain ⟨rfl, _⟩ := hchild.allocated.entry_eq hk hblock
    obtain ⟨rfl, _⟩ := hchild'.allocated.entry_eq hl (hsame ▸ hblock)
    exact h.owner i hi j hj hne hne' hsame

/-- A file stays one of the root if its inode has the same bytes and no map entry is freed. -/
theorem Child.congr (h : Child disk m b)
    (hmaps : ∀ c < 20 * BLOCK_SIZE, disk c = 1 → disk' c = 1) (hsame : SameInode disk disk' m) :
    Child disk' m b := by
  have hm := h.lt
  have hb := h.block_lt
  constructor
  · exact hm
  · exact h.first
  · exact hmaps _ (by simp only [MapType.entry, MapType.offset, BLOCK_SIZE]; omega) h.inode
  · exact h.allocated.congr hsame
  · exact hb
  · exact hmaps _ (by simp only [MapType.entry, MapType.offset, BLOCK_SIZE]; omega) h.block
  · rw [hsame _ (by omega) (by unfold name Inode.size; omega)]
    exact h.named

/-- A change of other fields of the root. -/
theorem FileSystem.congr (h : FileSystem disk)
    (hmaps : ∀ c < 20 * BLOCK_SIZE, disk' c = disk c)
    (hstate : get disk' (inodeAt 0) state = get disk (inodeAt 0) state)
    (hentry : ∀ i < 10, entry disk' 0 i = entry disk 0 i)
    (hsame : ∀ n < 5000, n ≠ 0 → SameInode disk disk' n) : FileSystem disk' := by
  have hchild (i : ℕ) (hi : i < 10) (hne : entry disk 0 i ≠ minusOne) :
      SameInode disk disk' (entry disk 0 i) := by
    obtain ⟨b, hchild⟩ := h.children i hi hne
    apply hsame _ hchild.lt
    intro hzero
    have hfile := hchild.allocated.state
    rw [hzero, h.root] at hfile
    exact absurd hfile (by decide)
  constructor
  · exact hstate.trans h.root
  · rw [hmaps _ (by decide)]
    exact h.rootMap
  · intro i hi hne
    rw [hentry i hi] at hne ⊢
    obtain ⟨b, hb⟩ := h.children i hi hne
    exact ⟨b, hb.congr (fun c hc hone => (hmaps c hc).trans hone) (hchild i hi hne)⟩
  · intro i hi j hj hne heq
    rw [hentry i hi] at hne heq
    rw [hentry j hj] at heq
    exact h.once i hi j hj hne heq
  · intro i hi j hj hne hne' heq
    rw [hentry i hi] at hne heq
    rw [hentry j hj] at hne' heq
    rw [(hchild i hi hne).entry (by decide), (hchild j hj hne').entry (by decide)] at heq
    exact h.owner i hi j hj hne hne' heq

/-! ## Mounting -/

/-- A new file system has a root without entries. -/
theorem sfsInit_spec (hs : SfsStart s) :
    s.errors = [] ∧ FileSystem s.disk ∧ ∀ i < 10, entry s.disk 0 i = minusOne := by
  obtain ⟨now, hinit⟩ := hs
  obtain rfl := sfsInit_eq_some hinit
  obtain ⟨hroot, hdirectory, hempty⟩ := @mountDisk_root (fun _ => 0) (fun _ => 0) (fun _ => 0) now
  refine ⟨rfl, ?_, hempty⟩
  constructor
  · exact hdirectory
  · exact hroot
  · exact fun i hi hne => absurd (hempty i hi) hne
  · exact fun i hi _ _ hne => absurd (hempty i hi) hne
  · exact fun i hi _ _ hne => absurd (hempty i hi) hne

/-! ## Opening and closing the root -/

/-- A change of the flag of the root. -/
theorem FileSystem.setFlag (h : FileSystem disk) {v : ℕ} :
    FileSystem (set disk (inodeAt 0) flag v) := by
  have hroot : inodeAt 0 = 20 * BLOCK_SIZE := by decide
  have hentry (i : ℕ) (hi : i < 10) :
      entry (set disk (inodeAt 0) flag v) 0 i = entry disk 0 i := by
    apply get_set_of_disjoint
    simp only [Field.Disjoint, flag, block_ptr]
    omega
  apply h.congr
  · exact fun c hc => set_apply (by rw [hroot]; simp only [flag]; omega)
  · exact get_set_of_disjoint (by decide)
  · exact hentry
  · intro n hn hne c hc hlt
    have hapart := inodeAt_apart (q := n) (d := 0) (by omega) (by decide) hne
    refine set_apply ?_
    unfold Inode.size at *
    simp only [flag]
    omega

/-- `sfs_opendir` changes the flag of the root at most. -/
theorem sfsOpendir_spec (hs : s.errors = []) (h : FileSystem s.disk)
    (hrun : sfsOpendir u [slash] s = some (r, s')) : s'.errors = [] ∧ FileSystem s'.disk := by
  rw [sfsOpendir_eq hs (show Readable 0 by decide) rfl] at hrun
  split at hrun
  · obtain ⟨_, rfl⟩ := Prod.mk.inj (Option.some.inj hrun)
    exact ⟨hs, h.setFlag⟩
  · obtain ⟨_, rfl⟩ := Prod.mk.inj (Option.some.inj hrun)
    exact ⟨hs, h⟩

/-- `sfs_releasedir` changes the flag of the root. -/
theorem sfsReleasedir_spec (hs : s.errors = []) (h : FileSystem s.disk)
    (hrun : sfsReleasedir u [slash] s = some (r, s')) : s'.errors = [] ∧ FileSystem s'.disk := by
  rw [sfsReleasedir_eq hs (show Readable 0 by decide) rfl] at hrun
  obtain ⟨_, rfl⟩ := Prod.mk.inj (Option.some.inj hrun)
  exact ⟨hs, h.setFlag⟩

/-! ## Creating a file -/

/-- The directory of a path with one name is the root. -/
theorem Creates.root (hstr : slash ∉ str)
    (h : Creates u (slash :: str) rand disk newFile d o m b) : d = 0 := by
  obtain ⟨i, hi, _, hd⟩ := h.split
  rw [List.length_cons, lastSlash_cons hstr le_rfl] at hi
  obtain rfl := Option.some.inj hi
  have hroot : strtok (substring u (slash :: str) 0 0) = [] := rfl
  rw [hroot] at hd
  exact (Option.some.inj hd).symm

/-- The name that is stored begins with the `/` of the path. -/
theorem Creates.named (hname : IsName str)
    (h : Creates u (slash :: str) rand disk newFile d o m b) :
    ∃ rest, newFile = slash :: rest := by
  obtain ⟨hne, hstr, hzero⟩ := hname
  obtain ⟨i, hi, hnew, _⟩ := h.split
  rw [List.length_cons, lastSlash_cons hstr le_rfl] at hi
  obtain rfl := Option.some.inj hi
  have hpath : 0 ∉ slash :: str := by
    intro hmem
    rcases List.mem_cons.mp hmem with hslash | hmem
    · exact absurd hslash (by decide)
    · exact hzero hmem
  cases str with
  | nil => exact absurd rfl hne
  | cons x str =>
    rw [substring_succ hpath (Nat.zero_le _), List.drop_zero, List.length_cons, List.length_cons,
      Nat.add_sub_cancel, List.take_succ_cons] at hnew
    exact ⟨_, hnew⟩

/-- The first character of the name is in no field. -/
theorem not_inField_name : ¬ InField (newFields fileMode m now b) name := by
  rintro ⟨x, hx, hlow, hhigh⟩
  have hbounds := (newFields_bounds x.1 (List.mem_map_of_mem hx)).2
  omega

/-- The first character of the name in the inode that is written. -/
theorem createdDisk_named {rest : List UInt8} (hm : m < 5000) :
    createdDisk u disk (slash :: rest) fileMode now d o m b (inodeAt (writtenInode d m) + name) =
      slash := by
  rw [createdDisk_written_apply hm (by decide), newBlock_apply not_inField_name]
  exact splice_inside (Nat.succ_pos _)

/-- The maps, if the directory is not in their blocks. -/
theorem createdDisk_maps (hm : m < 5000) (hd : d < 2 ^ 31) (hc : c < 20 * BLOCK_SIZE) :
    createdDisk u disk newFile fileMode now d o m b c = claimedDisk disk m b c := by
  have hdir := inodeBlock_eq hd
  have hnew := inodeBlock_eq (n := m) (by omega)
  unfold BLOCK_SIZE at *
  rw [createdDisk, splice_outside (by omega), splice_outside (by omega)]

/-- A new child of the root, if the inodes and blocks of the others are kept and not its own. -/
theorem FileSystem.add_child {disk' : Memory} (h : FileSystem disk)
    (hstate : get disk' (inodeAt 0) state = get disk (inodeAt 0) state)
    (hkeep : ∀ c < 20 * BLOCK_SIZE, disk c = 1 → disk' c = 1) (hnew : Child disk' m b)
    (hchild : entry disk' 0 o = m)
    (hothers : ∀ i < 10, i ≠ o → entry disk' 0 i = entry disk 0 i)
    (hold : ∀ i < 10, entry disk 0 i ≠ minusOne → ∃ b', Child disk (entry disk 0 i) b' ∧
      Child disk' (entry disk 0 i) b' ∧ entry disk 0 i ≠ m ∧ b' ≠ b) : FileSystem disk' := by
  constructor
  · exact hstate.trans h.root
  · exact hkeep _ (by decide) h.rootMap
  · intro i hi hne
    by_cases hio : i = o
    · rw [hio, hchild]
      exact ⟨b, hnew⟩
    · rw [hothers i hi hio] at hne ⊢
      obtain ⟨b', _, hb', _⟩ := hold i hi hne
      exact ⟨b', hb'⟩
  · intro i hi j hj hne heq
    by_cases hio : i = o <;> by_cases hjo : j = o
    · rw [hio, hjo]
    · rw [hio, hchild, hothers j hj hjo] at heq
      rw [hio, hchild, heq] at hne
      obtain ⟨_, _, _, hother, _⟩ := hold j hj hne
      exact absurd heq.symm hother
    · rw [hothers i hi hio] at hne heq
      rw [hjo, hchild] at heq
      obtain ⟨_, _, _, hother, _⟩ := hold i hi hne
      exact absurd heq hother
    · rw [hothers i hi hio] at hne heq
      rw [hothers j hj hjo] at heq
      exact h.once i hi j hj hne heq
  · intro i hi j hj hne hne' heq
    by_cases hio : i = o <;> by_cases hjo : j = o
    · rw [hio, hjo]
    · rw [hothers j hj hjo] at hne' heq
      obtain ⟨b', _, hb', _, hblock⟩ := hold j hj hne'
      rw [hio, hchild, hnew.allocated.first, hb'.allocated.first] at heq
      exact absurd heq.symm hblock
    · rw [hothers i hi hio] at hne heq
      obtain ⟨b', _, hb', _, hblock⟩ := hold i hi hne
      rw [hjo, hchild, hnew.allocated.first, hb'.allocated.first] at heq
      exact absurd heq hblock
    · rw [hothers i hi hio] at hne heq
      rw [hothers j hj hjo] at hne' heq
      obtain ⟨b', hb', hkept, _⟩ := hold i hi hne
      obtain ⟨b'', hb'', hkept', _⟩ := hold j hj hne'
      rw [hkept.allocated.first, hkept'.allocated.first] at heq
      apply h.owner i hi j hj hne hne'
      rw [hb'.allocated.first, hb''.allocated.first, heq]

/-- A file that is created at the beginning of a block is another entry of the root. -/
theorem FileSystem.create (h : FileSystem disk) (hname : IsName str)
    (hcreates : Creates u (slash :: str) rand disk newFile d o m b) (hfirst : m % 4 = 0) :
    FileSystem (createdDisk u disk newFile fileMode now d o m b) := by
  obtain rfl := hcreates.root hname.2.1
  obtain ⟨rest, rfl⟩ := hcreates.named hname
  have hm := hcreates.inode_lt
  have hb := hcreates.block_lt
  obtain ⟨ho, _⟩ := openChildSpace_spec hcreates.space
  obtain ⟨_, _, hfree, _⟩ := hcreates.inode
  obtain ⟨_, _, hfree', _⟩ := hcreates.block
  -- the new inode is not the root, and its block is another one
  have hpos : 4 ≤ m := by
    by_contra hlt
    obtain rfl : m = 0 := by omega
    exact hfree h.rootMap
  have hblocks : inodeBlock 0 ≠ inodeBlock m := fun heq => by
    have hdiv := ((inodeBlock_eq_iff (by omega) (by decide)).mp heq).2
    omega
  have hwritten : writtenInode 0 m = m := writtenInode_eq_iff.mpr hfirst
  have halloc : AllocatedInode (createdDisk u disk (slash :: rest) fileMode now 0 o m b) m b := by
    have hfields : get (createdDisk u disk (slash :: rest) fileMode now 0 o m b)
        (inodeAt (writtenInode 0 m)) state = file ∧ _ := createdDisk_written hm hb
    rw [hwritten] at hfields
    obtain ⟨hstate, huid, hentry, hrest⟩ := hfields
    exact ⟨hstate, huid, hentry, hrest⟩
  have hnamed : createdDisk u disk (slash :: rest) fileMode now 0 o m b (inodeAt m + name) =
      slash := by
    have hbyte : createdDisk u disk (slash :: rest) fileMode now 0 o m b
        (inodeAt (writtenInode 0 m) + name) = slash := createdDisk_named hm
    rwa [hwritten] at hbyte
  obtain ⟨hchild, hothers, hstate⟩ : entry (createdDisk u disk (slash :: rest) fileMode now 0 o m b)
      0 o = m ∧ _ := createdDisk_directory hm ho hblocks
  have hfar (n : ℕ) (hn : n < 2 ^ 31) (hnm : n / 4 ≠ m / 4) (hne : n ≠ 0) :
      SameInode disk (createdDisk u disk (slash :: rest) fileMode now 0 o m b) n :=
    createdDisk_far hm hb (by decide) hn hnm hne ho
  have hmaps (c : ℕ) (hc : c < 20 * BLOCK_SIZE) :
      createdDisk u disk (slash :: rest) fileMode now 0 o m b c = claimedDisk disk m b c :=
    createdDisk_maps hm (by decide) hc
  generalize createdDisk u disk (slash :: rest) fileMode now 0 o m b = disk' at *
  have hkeep (c : ℕ) (hc : c < 20 * BLOCK_SIZE) (hone : disk c = 1) : disk' c = 1 := by
    rw [hmaps c hc, claimedDisk, Function.update_apply, Function.update_apply, hone]
    split
    · rfl
    · split <;> rfl
  have hnew : Child disk' m b := by
    constructor
    · exact hm
    · exact hfirst
    · rw [hmaps _ (by simp only [MapType.entry, MapType.offset, BLOCK_SIZE]; omega), claimedDisk,
        Function.update_of_ne, Function.update_self]
      simp only [MapType.entry, MapType.offset, BLOCK_SIZE]
      omega
    · exact halloc
    · exact hb
    · rw [hmaps _ (by simp only [MapType.entry, MapType.offset, BLOCK_SIZE]; omega), claimedDisk,
        Function.update_self]
    · exact hnamed
  -- the files that were there before
  have hold (i : ℕ) (hi : i < 10) (hne : entry disk 0 i ≠ minusOne) :
      ∃ b', Child disk (entry disk 0 i) b' ∧ Child disk' (entry disk 0 i) b' ∧
        entry disk 0 i ≠ m ∧ b' ≠ b := by
    obtain ⟨b', hchild⟩ := h.children i hi hne
    have hother : entry disk 0 i ≠ m := fun heq => hfree (heq ▸ hchild.inode)
    have hroot : entry disk 0 i ≠ 0 := fun hzero => by
      have hfile := hchild.allocated.state
      rw [hzero, h.root] at hfile
      exact absurd hfile (by decide)
    have hlt := hchild.lt
    have hdiv := hchild.first
    exact ⟨b', hchild, hchild.congr hkeep (hfar _ (by omega) (by omega) hroot), hother,
      fun heq => hfree' (heq ▸ hchild.block)⟩
  exact h.add_child hstate hkeep hnew hchild hothers hold

/-! ## Removing a file -/

/-- The tokens of a path are not empty and have no `/`. -/
theorem tokens_spec {token : List UInt8} (htoken : slash ∉ token) :
    ∀ t ∈ tokens token path, t ≠ [] ∧ slash ∉ t := by
  have hone {token : List UInt8} (htoken : slash ∉ token) :
      ∀ t ∈ (if token = [] then [] else [token]), t ≠ [] ∧ slash ∉ t := by
    intro t ht
    split at ht
    · exact absurd ht (by simp)
    · rename_i hne
      rw [List.mem_singleton.mp ht]
      exact ⟨hne, htoken⟩
  induction path generalizing token with
  | nil =>
    rw [tokens]
    exact hone htoken
  | cons c path ih =>
    rw [tokens]
    split
    · intro t ht
      rcases List.mem_append.mp ht with ht | ht
      · exact hone htoken t ht
      · exact ih (by simp) t ht
    · rename_i hc
      exact ih (by simp [htoken, Ne.symm hc])

/-- No file of the root is found: the names that are stored begin with `/`. -/
theorem FileSystem.childOf_eq (h : FileSystem disk) {token : List UInt8} (hne : token ≠ [])
    (htoken : slash ∉ token) {is : List ℕ} (his : ∀ i ∈ is, i < 10) :
    childOf disk 0 token is = some none := by
  induction is with
  | nil => rfl
  | cons i is ih =>
    rw [childOf]
    split
    · rfl
    · rename_i hentry
      obtain ⟨b, hchild⟩ := h.children i (his i List.mem_cons_self) hentry
      have hreadable : Readable (entry disk 0 i) := by
        have hlt := hchild.lt
        unfold Readable
        omega
      have hname : nameOf disk (inodeAt (entry disk 0 i)) = slash ::
          (List.range 14).map fun k => disk (inodeAt (entry disk 0 i) + name + (k + 1)) := by
        rw [nameOf, List.range_succ_eq_map, List.map_cons, List.map_map, Nat.add_zero,
          hchild.named]
        rfl
      obtain ⟨c, rest, rfl⟩ := List.exists_cons_of_ne_nil hne
      have hother : slash ≠ c := fun heq => htoken (by simp [heq])
      rw [if_pos hreadable, hname, strcmp, if_neg hother]
      exact ih fun i hi => his i (List.mem_cons_of_mem _ hi)

/-- A path is that of the root, or it is not found. -/
theorem FileSystem.not_resolves (h : FileSystem disk) : ¬ ResolvesToFile disk path := by
  rintro ⟨n, hlookup, hne, hstate⟩
  have htokens := @tokens_spec path [] (by simp)
  change lookup disk (tokens [] path) 0 = some n at hlookup
  cases hpath : tokens [] path with
  | nil =>
    rw [hpath] at hlookup
    obtain rfl : 0 = n := Option.some.inj hlookup
    rw [h.root] at hstate
    exact absurd hstate (by decide)
  | cons token rest =>
    rw [hpath] at hlookup htokens
    obtain ⟨hnil, hslash⟩ := htokens token List.mem_cons_self
    rw [lookup, if_pos (by decide), h.childOf_eq hnil hslash (by simp)] at hlookup
    exact hne (Option.some.inj hlookup).symm

/-! ## Every run -/

/-- A call that meets the condition keeps the file system well-formed, without errors. -/
theorem FileSystem.step {e : SfsEvent} (hs : s.errors = []) (h : FileSystem s.disk)
    (hok : FirstOfBlock s e) (hstep : SfsStep s e s') :
    s'.errors = [] ∧ FileSystem s'.disk := by
  cases e with
  | create str fileMode rand now =>
    obtain ⟨hname, _, u, r, hrun⟩ := hstep
    rcases sfsCreate_cases hs hrun with ⟨_, rfl⟩ | ⟨newFile, d, o, m, b, _, hcreates, rfl⟩
    · exact ⟨hs, h⟩
    · obtain rfl := hcreates.root hname.2.1
      obtain ⟨ho, hspace, _⟩ := openChildSpace_spec hcreates.space
      have hfree : entry s.disk 0 o = minusOne := by
        rw [← hspace]
        exact (get_inodeBuffer (by simp only [block_ptr, Inode.size]; omega)).symm
      exact ⟨hs, h.create hname hcreates (hok ⟨o, ho, hfree⟩ m hcreates.inode)⟩
  | unlink path => exact absurd hstep.1 h.not_resolves
  | opendir =>
    obtain ⟨u, r, hrun⟩ := hstep
    exact sfsOpendir_spec hs h hrun
  | releasedir =>
    obtain ⟨u, r, hrun⟩ := hstep
    exact sfsReleasedir_spec hs h hrun

/-- Every state that such a run reaches is a well-formed file system without errors. -/
theorem sfsReach_fileSystem (h : SfsReach FirstOfBlock s) :
    s.errors = [] ∧ FileSystem s.disk := by
  apply Runs.Reach.invariant (P := fun s => s.errors = [] ∧ FileSystem s.disk) ?_ ?_ h
  · intro s hs
    obtain ⟨herrors, hfs, _⟩ := sfsInit_spec hs
    exact ⟨herrors, hfs⟩
  · exact fun s e s' ⟨hs, h⟩ hok hstep => h.step hs hok hstep

/-- In every run in which the inodes that are allocated are the first ones of their blocks,
the file system is consistent. -/
theorem file_system_consistent (s : Sfs) (h : SfsReach FirstOfBlock s) : Consistent s.disk :=
  (sfsReach_fileSystem h).2.consistent

/-! ## Runs on given inputs -/

/-- The state that a first creation of the file `ab` leaves is reached. -/
theorem reach_create {ok : Sfs → SfsEvent → Prop} (hs : SfsStart s)
    (hok : ok s (.create (chars "ab") 0 rand 0))
    (hrun : sfsCreate sampleUnspecified (slash :: chars "ab") 0 rand 0 s = some (r, s')) :
    SfsReach ok s' := by
  obtain ⟨_, _, hnone⟩ := sfsInit_spec hs
  refine .step (.start hs) hok ⟨?_, fun i hi hne => absurd (hnone i hi) hne, _, _, hrun⟩
  exact ⟨by decide +kernel, by decide +kernel, by decide +kernel⟩

/-- The theorem for a file with inode 4. -/
theorem file_system_consistent_four :
    ∃ s, SfsReach FirstOfBlock s ∧ entry s.disk 0 9 = 4 ∧ Consistent s.disk := by
  have hrun : ((sfsInit (fun _ => 0) (fun _ => 0) 0 ⟨fun _ => 0, [], 0, 0⟩).bind fun s =>
      (sfsCreate sampleUnspecified (slash :: chars "ab") 0 (4, 7) 0 s).map fun r =>
        (s.disk 4, entry r.2.disk 0 9)) = some (0, 4) := by
    decide +kernel
  obtain ⟨s, hinit, hrun⟩ := Option.bind_eq_some_iff.mp hrun
  obtain ⟨⟨r, s'⟩, hcreate, heq⟩ := Option.map_eq_some_iff.mp hrun
  obtain ⟨hfree, hentry⟩ := Prod.mk.inj heq
  have hreach : SfsReach FirstOfBlock s' := by
    refine reach_create ⟨0, hinit⟩ (fun _ m hm => ?_) hcreate
    have hfour : FirstFree s.disk .inode (4 % 5000) 4 := by
      refine ⟨0, rfl, fun hone => ?_, by simp⟩
      exact absurd (hfree.symm.trans hone) (by decide)
    rw [hm.unique hfour]
  exact ⟨s', hreach, hentry, file_system_consistent s' hreach⟩

/-- Inode 5 is allocated for the first file, but inode 4 is written. -/
theorem first_file_inconsistent :
    ∃ s, SfsReach (fun _ _ => True) s ∧ ¬ Consistent s.disk := by
  have hrun : ((sfsInit (fun _ => 0) (fun _ => 0) 0 ⟨fun _ => 0, [], 0, 0⟩).bind fun s =>
      (sfsCreate sampleUnspecified (slash :: chars "ab") 0 (5, 7) 0 s).map fun r =>
        (entry r.2.disk 0 9, get r.2.disk (inodeAt 5) state)) = some (5, 0) := by
    decide +kernel
  obtain ⟨s, hinit, hrun⟩ := Option.bind_eq_some_iff.mp hrun
  obtain ⟨⟨r, s'⟩, hcreate, heq⟩ := Option.map_eq_some_iff.mp hrun
  obtain ⟨hentry, hstate⟩ := Prod.mk.inj heq
  dsimp only at hentry hstate
  refine ⟨s', reach_create ⟨0, hinit⟩ trivial hcreate, fun hconsistent => ?_⟩
  obtain ⟨_, hfile, _⟩ := hconsistent.file 9 (by decide) (by rw [hentry]; decide)
  rw [hentry, hstate] at hfile
  exact absurd hfile (by decide)

end SimpleOs.Files
