import SimpleOs.Files.Attributes
import SimpleOs.Files.Consistency

/-!
# Files that are never found

The name that `sfs_create` stores begins with the `/` in front of it, or is empty, and a
token of a path is not empty and begins with another character. So after any requests to
a new file system the root is the only inode that a path leads to.
-/

namespace SimpleOs.Files

open Bytes Inode Runs

variable {β : Type} {u : Unspecified} {s s' : Sfs} {disk disk' : Memory}
  {path newFile : List UInt8} {ts : List (List UInt8)} {is : List ℕ}
  {filler : β → List UInt8 → ℕ → Bool × β} {buf buf' : β} {statbuf : Stat}
  {fileMode now d o m b n i j offset : ℕ} {rand : ℕ × ℕ} {r : ℤ}

/-! ## The invariant -/

/-- The name of an inode is empty or begins with `/`. -/
def NoName (disk : Memory) (n : ℕ) : Prop :=
  disk (inodeAt n + name) = slash ∨ disk (inodeAt n + name) = 0

/-- No inode has a name, and the entries of the root are numbers of inodes. -/
structure Nameless (disk : Memory) : Prop where
  /-- The names of the inodes. -/
  names : ∀ n < 5000, NoName disk n
  /-- The entries of the root. -/
  entries : ∀ i < 10, entry disk 0 i = minusOne ∨ entry disk 0 i < 5000

/-- The inode stays without a name if its first character is the same. -/
theorem NoName.congr (h : NoName disk n)
    (hsame : disk' (inodeAt n + name) = disk (inodeAt n + name)) : NoName disk' n := by
  unfold NoName
  rwa [hsame]

/-- No entry of the root has the name. -/
theorem Nameless.childOf_eq (h : Nameless disk) {token : List UInt8} (htoken : IsName token)
    (his : ∀ i ∈ is, i < 10) : childOf disk 0 token is = some none := by
  induction is with
  | nil => rfl
  | cons i is ih =>
    rw [childOf]
    split
    · rfl
    · rename_i hsome
      have hlt := (h.entries i (his i List.mem_cons_self)).resolve_left hsome
      rw [if_pos (by unfold Readable; omega), strcmp_first htoken (h.names _ hlt)]
      exact ih fun i hi => his i (List.mem_cons_of_mem _ hi)

/-- A path with a name leads nowhere. -/
theorem Nameless.lookup_eq (h : Nameless disk) (hts : ∀ t ∈ ts, IsName t) (hne : ts ≠ []) :
    lookup disk ts 0 = some minusOne := by
  cases ts with
  | nil => exact absurd rfl hne
  | cons token ts =>
    rw [lookup, if_pos (by decide),
      h.childOf_eq (hts token List.mem_cons_self) fun i hi => List.mem_range.mp hi]
    rfl

/-- A path that leads to an inode is that of the root. -/
theorem Nameless.root (h : Nameless disk) (hts : ∀ t ∈ ts, IsName t)
    (hlookup : lookup disk ts 0 = some n) (hn : Readable n) : n = 0 := by
  by_cases hne : ts = []
  · rw [hne] at hlookup
    exact (Option.some.inj hlookup).symm
  · rw [h.lookup_eq hts hne] at hlookup
    exact absurd (Option.some.inj hlookup).symm hn.ne_minusOne

/-! ## Creating a file -/

/-- The loop over the path stops at a `/`. -/
theorem lastSlash_spec {k : ℕ} (h : lastSlash path k = some i) :
    path[i]? = some slash := by
  induction k with
  | zero => exact absurd h (by simp [lastSlash])
  | succ k ih =>
    rw [lastSlash] at h
    split at h
    · rename_i hslash
      rwa [← Option.some.inj h]
    · exact ih h

/-- The name that is stored begins with the `/` in front of it, or is empty. -/
theorem Creates.first (hpath : 0 ∉ path) (h : Creates u path rand disk newFile d o m b) :
    newFile.getD 0 0 = slash ∨ newFile.getD 0 0 = 0 := by
  obtain ⟨i, hi, rfl, _⟩ := h.split
  have hslash := lastSlash_spec hi
  obtain ⟨hlt, hchar⟩ := List.getElem?_eq_some_iff.mp hslash
  rw [substring_succ hpath (Nat.le_of_lt hlt), List.drop_eq_getElem_cons hlt]
  cases path.length - 1 with
  | zero => exact Or.inr rfl
  | succ k =>
    rw [List.take_succ_cons, hchar]
    exact Or.inl rfl

/-- The name that is stored is not longer than the end of the path from its last `/`. -/
theorem Creates.length_le (hpath : 0 ∉ path) (h : Creates u path rand disk newFile d o m b)
    (hi : lastSlash path path.length = some i) : newFile.length ≤ path.length - i := by
  obtain ⟨i', hi', rfl, _⟩ := h.split
  obtain rfl := Option.some.inj (hi.symm.trans hi')
  obtain ⟨hlt, _⟩ := List.getElem?_eq_some_iff.mp (lastSlash_spec hi)
  rw [substring_succ hpath (Nat.le_of_lt hlt)]
  exact (List.length_take_le' _ _).trans_eq List.length_drop

/-- A file is created in the root. -/
theorem Creates.inRoot (h : Creates u path rand disk newFile d o m b) (hdisk : Nameless disk) :
    d = 0 := by
  obtain ⟨i, _, _, hd⟩ := h.split
  exact hdisk.root (strtok_tokens zero_not_mem_cString) hd h.readable

/-- The first character of the name in the inode that is written. -/
theorem createdDisk_first (hm : m < 5000) :
    createdDisk u disk newFile fileMode now d o m b (inodeAt (writtenInode d m) + name) =
      newFile.getD 0 0 := by
  rw [createdDisk_written_apply hm (by decide), newBlock_apply not_inField_name]
  exact splice_inside (Nat.succ_pos _)

/-- The names in other blocks are kept, also that of the directory. -/
theorem createdDisk_name (hm : m < 5000) (hb : b < 5000) (ho : o < 10) (hd : d < 5000)
    (hn : n < 5000) (hnm : n / 4 ≠ m / 4) :
    createdDisk u disk newFile fileMode now d o m b (inodeAt n + name) =
      disk (inodeAt n + name) := by
  by_cases hnd : n = d
  · subst hnd
    have hle := offsetInBlock_le (n := n)
    have hblock : inodeBlock n ≠ inodeBlock m := fun heq =>
      hnm ((inodeBlock_eq_iff (by omega) (by omega)).mp heq).2
    have hapart := inodeBlock_apart hblock
    have hname : offsetInBlock n + name < BLOCK_SIZE := by
      unfold Inode.size name at *
      omega
    rw [inodeAt, Nat.add_assoc, createdDisk, splice_outside (by omega), splice_inside hname,
      directoryBlock, set_apply, inodeBuffer_apply hname]
    simp only [block_ptr, name]
    omega
  · exact createdDisk_far hm hb (by omega) (by omega) hnm hnd ho _ (by omega)
      (by simp only [name, Inode.size]; omega)

/-- A file is created without a name that can be found. -/
theorem Nameless.create (h : Nameless disk) (hpath : 0 ∉ path)
    (hfits : ∀ i, lastSlash path path.length = some i → path.length ≤ i + 122)
    (hcreates : Creates u path rand disk newFile d o m b) :
    Nameless (createdDisk u disk newFile fileMode now d o m b) := by
  have hm := hcreates.inode_lt
  have hb := hcreates.block_lt
  obtain ⟨i, hi, _⟩ := hcreates.split
  have hend := hfits i hi
  have hlength := hcreates.length_le hpath hi
  obtain ⟨ho, _⟩ := openChildSpace_spec hcreates.space
  obtain rfl := hcreates.inRoot h
  have hfirst : NoName (createdDisk u disk newFile fileMode now 0 o m b) (writtenInode 0 m) := by
    unfold NoName
    rw [createdDisk_first hm]
    exact hcreates.first hpath
  constructor
  · intro n hn
    by_cases hnear : n / 4 = m / 4
    · by_cases hw : n = writtenInode 0 m
      · rw [hw]
        exact hfirst
      · have hfit : name + newFile.length + 1 ≤ Inode.size := by
          simp only [name, Inode.size]
          omega
        have hsame : SameInode disk (createdDisk u disk newFile fileMode now 0 o m b) n :=
          (laidName_same hm hfit hnear hw).trans (createdDisk_neighbour hm hnear hw)
        exact (h.names n hn).congr
          (hsame _ (by omega) (by simp only [name, Inode.size]; omega))
    · exact (h.names n hn).congr (createdDisk_name hm hb ho (by decide) hn hnear)
  · intro i hi
    by_cases hblock : inodeBlock 0 = inodeBlock m
    · -- The root is the inode that is written: its first entry is the data block.
      have hroot : writtenInode 0 m = 0 := by
        have hdiv := ((inodeBlock_eq_iff (by omega) (by decide)).mp hblock).2
        unfold writtenInode
        omega
      have hwritten : get (createdDisk u disk newFile fileMode now 0 o m b)
          (inodeAt (writtenInode 0 m)) state = file ∧ _ := createdDisk_written hm hb
      rw [hroot] at hwritten
      obtain ⟨_, _, hentry, hrest⟩ := hwritten
      by_cases hzero : i = 0
      · right
        rw [hzero, hentry]
        exact hb
      · exact Or.inl (hrest i (by omega) hi)
    · obtain ⟨hentry, hothers, _⟩ : entry (createdDisk u disk newFile fileMode now 0 o m b)
          0 o = m ∧ _ := createdDisk_directory hm ho hblock
      by_cases hio : i = o
      · right
        rw [hio, hentry]
        exact hm
      · rw [hothers i hi hio]
        exact h.entries i hi

/-! ## Removing a file -/

/-- Only the root can be removed. -/
theorem Unlinks.inRoot (h : Unlinks u path disk d j n) (hpath : 0 ∉ path)
    (hdisk : Nameless disk) : n = 0 ∧ d = 0 := by
  obtain ⟨i, _, hd⟩ := h.directory
  exact ⟨hdisk.root (strtok_tokens hpath) h.file h.readable.1,
    hdisk.root (strtok_tokens zero_not_mem_cString) hd h.lt.1⟩

/-- The inode of the root is cleared, and no other name changes but to an empty one. -/
theorem Nameless.unlink (h : Nameless disk) (hpath : 0 ∉ path)
    (hunlinks : Unlinks u path disk d j n) : Nameless (removedDisk u disk d j n) := by
  obtain ⟨hj, _⟩ := hunlinks.found
  obtain ⟨rfl, rfl⟩ := hunlinks.inRoot hpath h
  have hroot : inodeAt 0 = 20 * BLOCK_SIZE := by decide
  constructor
  · intro n hn
    have hin : inodeAt n ≤ inodeAt n + name ∧ inodeAt n + name < inodeAt n + Inode.size := by
      simp only [name, Inode.size]
      omega
    by_cases hzero : n = 0
    · right
      rw [hzero] at hin ⊢
      exact removedDisk_file hin.1 hin.2
    by_cases hblock : inodeBlock n = inodeBlock 0
    · have hne : offsetInBlock n ≠ offsetInBlock 0 := by
        have hdiv := ((inodeBlock_eq_iff (by decide) (by omega)).mp hblock).2
        unfold offsetInBlock Inode.size BLOCK_SIZE
        omega
      exact (h.names n hn).congr (removedDisk_neighbour hblock hne _ hin.1 hin.2)
    by_cases hwiped : Wiped (dataBlocks disk 0) (inodeBlock n)
    · exact Or.inr (removedDisk_wiped hblock hwiped hin.1 hin.2)
    · have hkept : unlinkedDisk u disk 0 j 0 (inodeAt n + name) = disk (inodeAt n + name) := by
        have hat : inodeAt n = 20 * BLOCK_SIZE + Inode.size * n := inodeAt_eq (by omega)
        simp only [BLOCK_SIZE, Inode.size] at hat hroot
        rw [unlinkedDisk_apply hj (by omega), Function.update_of_ne (by omega)]
      exact ((h.names n hn).congr hkept).congr
        (removedDisk_far hblock hwiped _ hin.1 hin.2)
  · intro i hi
    right
    have hzero : entry (removedDisk u disk 0 j 0) 0 i = 0 := by
      refine load_zero fun c hc hlt => removedDisk_file (by omega) ?_
      simp only [block_ptr, Inode.size] at *
      omega
    rw [hzero]
    decide

/-! ## Writing flags -/

/-- A flag that is written changes no name. -/
theorem Nameless.flags (h : Nameless disk) (hsame : SameButFlags disk disk') :
    Nameless disk' := by
  constructor
  · intro n hn
    apply (h.names n hn).congr
    apply hsame
    intro q heq
    have hapart := @flag_apart q n ⟨name, 1⟩ (by decide) (by decide)
    simp only [flag] at hapart heq
    omega
  · intro i hi
    rw [hsame.entry hi]
    exact h.entries i hi

/-! ## Mounting -/

/-- The bytes of the array that are no field of the root stay zero. -/
theorem rootInode_name {c : ℕ} (hc : c = name ∨ Inode.size ≤ c) :
    rootInode (fun _ => 0) now c = 0 := by
  simp only [name, Inode.size] at hc
  have hset {m : Memory} {f : Field} {v : ℕ} (hf : f.offset + f.width ≤ 5 ∨ 6 ≤ f.offset)
      (hsize : f.offset + f.width ≤ 128) : set m 0 f v c = m c := set_apply (by omega)
  rw [rootInode, clearPointers_apply (by unfold Inode.size; omega)]
  simp (disch := decide) only [hset]

/-- A new file system has no names and no entries. -/
theorem nameless_mounted (hs : SfsStart s) : s.errors = [] ∧ Nameless s.disk := by
  obtain ⟨herrors, _, hempty⟩ := sfsInit_spec hs
  refine ⟨herrors, ⟨fun n hn => Or.inr ?_, fun i hi => Or.inl (hempty i hi)⟩⟩
  obtain ⟨now, hinit⟩ := hs
  have hat : inodeAt n = 20 * BLOCK_SIZE + Inode.size * n := inodeAt_eq (by omega)
  have hroot : inodeBlock 0 = 20 * BLOCK_SIZE := by decide
  rw [sfsInit_disk hinit, mountDisk, hroot, hat, Nat.add_assoc]
  by_cases hin : Inode.size * n + name < BLOCK_SIZE
  · rw [splice_inside hin]
    apply rootInode_name
    simp only [Inode.size]
    omega
  · rw [splice_outside (by omega), splice_outside (by unfold BLOCK_SIZE; omega)]

/-! ## Every run -/

/-- The condition on a request: there is no zero in the path, and if a file is created,
its name has at most 121 characters and does not reach into the next inode. -/
def Fits (_ : Sfs) : List UInt8 × Request → Prop
  | (path, .operation (.create _ _ _)) =>
    0 ∉ path ∧ ∀ i, lastSlash path path.length = some i → path.length ≤ i + 122
  | (path, _) => 0 ∉ path

/-- A request that fits leaves the inodes without names and the entries of the root numbers of
inodes. -/
theorem Nameless.step {e : List UInt8 × Request} (hs : s.errors = []) (h : Nameless s.disk)
    (hfits : Fits s e) (hstep : RequestStep s e s') : s'.errors = [] ∧ Nameless s'.disk := by
  by_cases hneutral : e.2.Neutral
  · have hflags := hstep.flags hneutral
    exact ⟨hflags.calm hs, h.flags hflags.disk⟩
  · obtain ⟨path, request⟩ := e
    obtain ⟨u, r, hrun⟩ := hstep
    cases request with
    | operation op =>
      cases op with
      | create fileMode rand now =>
        rcases sfsCreate_cases hs hrun with ⟨_, rfl⟩ | ⟨newFile, d, o, m, b, _, hcreates, rfl⟩
        · exact ⟨hs, h⟩
        · exact ⟨hs, h.create hfits.1 hfits.2 hcreates⟩
      | unlink =>
        obtain ⟨_, d, j, n, hunlinks, rfl⟩ := sfsUnlink_cases hs hrun
        exact ⟨hs, h.unlink hfits hunlinks⟩
      | opendir | readdir _ _ | releasedir => exact absurd trivial hneutral
    | getattr _ | openFile | release | read _ _ | write _ _ | mkdir _ | rmdir =>
      exact absurd trivial hneutral

/-- In every state that such a run reaches, no inode has a name. -/
theorem reach_nameless (h : Reach SfsStart RequestStep Fits s) :
    s.errors = [] ∧ Nameless s.disk := by
  apply h.invariant (P := fun s => s.errors = [] ∧ Nameless s.disk)
  · exact fun s hs => nameless_mounted hs
  · exact fun s e s' hs hfits hstep => hs.2.step hs.1 hfits hstep

/-- In every run from a new file system, with paths without zeros and files with names of
at most 121 characters, no path with a name leads to an inode. `sfs_getattr` returns -1 for
it, and an operation that needs it returns only if it does before it looks the path up. -/
theorem files_never_found (s : Sfs) (h : Reach SfsStart RequestStep Fits s) (u : Unspecified)
    (path : List UInt8) (hpath : 0 ∉ path) (hname : strtok path ≠ []) :
    getInodeNumbFromPath u path s = some (minusOne, s) ∧
      (∀ statbuf, sfsGetattr u path statbuf s = some (-1, statbuf, s)) ∧
      ∀ (op : Operation) (full : List UInt8), op.lookupPath u full = some path →
        op.call u full s = if op.ReturnsEarly s then some (-1, s) else none := by
  obtain ⟨hs, hdisk⟩ := reach_nameless h
  have hlookup := hdisk.lookup_eq (strtok_tokens hpath) hname
  have hfound : getInodeNumbFromPath u path s = some (minusOne, s) := by
    rw [getInodeNumbFromPath_eq hs, hlookup]
    rfl
  refine ⟨hfound, fun statbuf => ?_, fun op full hneeded => ?_⟩
  · rw [sfsGetattr_eq hs, attributes, hlookup, Option.bind_some, if_pos rfl]
    rfl
  · exact Operation.call_unresolved ⟨path, s, hneeded, hfound⟩

/-- The theorem for `/ab`, after that file was created on a new file system. -/
theorem files_never_found_created : ∃ s, Reach SfsStart RequestStep Fits s ∧
    entry s.disk 0 9 = 4 ∧
    getInodeNumbFromPath sampleUnspecified (chars "/ab") s = some (minusOne, s) := by
  have hrun : ((sfsInit (fun _ => 0) (fun _ => 0) 0 ⟨fun _ => 0, [], 0, 0⟩).bind fun s =>
      (sfsCreate sampleUnspecified (chars "/ab") 0 (4, 7) 0 s).map fun r =>
        entry r.2.disk 0 9) = some 4 := by
    decide +kernel
  obtain ⟨s, hinit, hrun⟩ := Option.bind_eq_some_iff.mp hrun
  obtain ⟨⟨r, s'⟩, hcreate, hentry⟩ := Option.map_eq_some_iff.mp hrun
  have hreach : Reach SfsStart RequestStep Fits s' := by
    refine .step (e := (chars "/ab", .operation (.create 0 (4, 7) 0))) (.start ⟨0, hinit⟩) ?_
      ⟨sampleUnspecified, r, hcreate⟩
    refine ⟨by decide +kernel, fun i _ => ?_⟩
    have hlength : (chars "/ab").length = 3 := by decide +kernel
    omega
  refine ⟨s', hreach, hentry, ?_⟩
  exact (files_never_found s' hreach _ _ (by decide +kernel) (by decide +kernel)).1

end SimpleOs.Files
