import SimpleOs.Files.Directories

/-!
# Opening and releasing a directory

Both calls read the block of an inode, change the flag of that inode, and write the block
back. The flag is in no field that a lookup reads, of whatever inode.
-/

namespace SimpleOs.Files

open Bytes Inode

variable {u : Unspecified} {s : Sfs} {disk disk' : Memory} {path token : List UInt8}
  {ts : List (List UInt8)} {is : List ℕ} {n q v c : ℕ} {f : Field}

/-! ## Blocks that are written back -/

/-- The block of an inode in which a field was written. -/
theorem write_field (hsize : f.offset + f.width ≤ Inode.size) :
    splice disk (inodeBlock n) BLOCK_SIZE (set (inodeBuffer u disk n) (offsetInBlock n) f v) =
      set disk (inodeAt n) f v := by
  have hle := offsetInBlock_le (n := n)
  rw [splice_set (fun c hc => inodeBuffer_apply hc) (by omega), inodeAt]

/-- The block of an inode that is written back as it was read. -/
theorem write_back :
    splice disk (inodeBlock n) BLOCK_SIZE (inodeBuffer u disk n) = disk := by
  funext c
  by_cases hc : inodeBlock n ≤ c ∧ c < inodeBlock n + BLOCK_SIZE
  · obtain ⟨k, rfl⟩ := Nat.exists_eq_add_of_le hc.1
    rw [splice_inside (by omega), inodeBuffer_apply (by omega)]
  · exact splice_outside (by omega)

/-! ## Flags and lookups -/

/-- Inodes begin at multiples of their size. -/
theorem size_dvd_inodeAt (n : ℕ) : Inode.size ∣ inodeAt n := by
  obtain ⟨x, hx⟩ := inodeBlock_dvd n
  unfold inodeAt offsetInBlock
  rw [hx]
  unfold Inode.size BLOCK_SIZE
  omega

/-- The flag of an inode is in no other field, of whatever inode. -/
theorem flag_apart (hsize : f.offset + f.width ≤ Inode.size) (hf : f.Disjoint flag) :
    inodeAt q + f.offset + f.width ≤ inodeAt n + flag.offset ∨
      inodeAt n + flag.offset + flag.width ≤ inodeAt q + f.offset := by
  obtain ⟨x, hx⟩ := size_dvd_inodeAt n
  obtain ⟨y, hy⟩ := size_dvd_inodeAt q
  rw [hx, hy]
  simp only [Field.Disjoint, flag, Inode.size] at *
  omega

/-- A flag that is written changes no other field. -/
theorem get_setFlag (hsize : f.offset + f.width ≤ Inode.size) (hf : f.Disjoint flag) :
    get (set disk (inodeAt n) flag v) (inodeAt q) f = get disk (inodeAt q) f := by
  apply load_store_of_disjoint
  have hapart := @flag_apart n q f hsize hf
  omega

theorem entry_setFlag {i : ℕ} (hi : i < 10) :
    entry (set disk (inodeAt n) flag v) q i = entry disk q i := by
  apply get_setFlag
  · simp only [block_ptr, Inode.size]
    omega
  · simp only [Field.Disjoint, block_ptr, flag]
    omega

/-- Setting a flag leaves the names of all inodes as they are. -/
theorem nameOf_setFlag :
    nameOf (set disk (inodeAt n) flag v) (inodeAt q) = nameOf disk (inodeAt q) := by
  refine List.map_congr_left fun k hk => ?_
  have hlt := List.mem_range.mp hk
  apply set_apply
  have hapart := @flag_apart n q ⟨name + k, 1⟩ (by simp only [name, Inode.size]; omega) (by
    simp only [Field.Disjoint, name, flag]
    omega)
  dsimp only at hapart
  omega

/-- A scan depends on the entries and the names. -/
theorem childOf_congr (hentry : ∀ q, ∀ i < 10, entry disk' q i = entry disk q i)
    (hname : ∀ q, nameOf disk' (inodeAt q) = nameOf disk (inodeAt q)) (his : ∀ i ∈ is, i < 10) :
    childOf disk' n token is = childOf disk n token is := by
  induction is with
  | nil => rfl
  | cons i is ih =>
    rw [childOf, childOf, hentry n i (his i List.mem_cons_self), hname,
      ih fun i hi => his i (List.mem_cons_of_mem _ hi)]

/-- A lookup depends on the entries and the names. -/
theorem lookup_congr (hentry : ∀ q, ∀ i < 10, entry disk' q i = entry disk q i)
    (hname : ∀ q, nameOf disk' (inodeAt q) = nameOf disk (inodeAt q)) :
    lookup disk' ts n = lookup disk ts n := by
  induction ts generalizing n with
  | nil => rfl
  | cons token ts ih =>
    have hrest : lookup disk' ts = lookup disk ts := funext fun _ => ih
    rw [lookup, lookup, childOf_congr hentry hname fun i hi => List.mem_range.mp hi, hrest]

/-- A flag that is written changes no lookup. -/
theorem lookup_setFlag : lookup (set disk (inodeAt q) flag v) ts n = lookup disk ts n :=
  lookup_congr (fun _ _ hi => entry_setFlag hi) fun _ => nameOf_setFlag

/-! ## The calls -/

/-- The inode is that of a directory that may be opened. -/
def Opens (disk : Memory) (n : ℕ) : Prop :=
  IsDirectory disk n ∧ readable (get disk (inodeAt n) mode)

instance (disk : Memory) (n : ℕ) : Decidable (Opens disk n) :=
  inferInstanceAs (Decidable (_ ∧ _))

/-- The state after the flag of an inode was written. -/
def Sfs.setFlag (s : Sfs) (n v : ℕ) : Sfs := { s with disk := set s.disk (inodeAt n) flag v }

/-- The block of an inode is found. -/
theorem Readable.exists_numb (hn : Readable n) :
    n < 2 ^ 32 ∧ ∃ numb, getBlockNumbfromInodeNumb n = some numb := by
  have hlt : n < 2 ^ 32 - 4 := by
    unfold Readable at hn
    omega
  refine ⟨by omega, inodeBlockNumb n, ?_⟩
  rw [getBlockNumbfromInodeNumb_eq (by omega), if_pos hlt]

/-- `sfs_opendir` on a path that leads to an inode. -/
theorem sfsOpendir_eq (hs : s.errors = []) (hn : Readable n)
    (hlookup : lookup s.disk (strtok path) 0 = some n) :
    sfsOpendir u path s =
      some (if Opens s.disk n then (0, s.setFlag n opened) else (-1, s)) := by
  obtain ⟨hlt, numb, hnumb⟩ := hn.exists_numb
  have hgood : (get (inodeBuffer u s.disk n) (offsetInBlock n) state = dir ∧
      readable (get (inodeBuffer u s.disk n) (offsetInBlock n) mode)) = Opens s.disk n := by
    rw [get_inodeBuffer (by decide), get_inodeBuffer (by decide), Opens, IsDirectory]
  simp only [sfsOpendir, getInodeNumbFromPath_eq hs, hlookup, Option.map_some,
    Option.bind_eq_bind, Option.bind_some, getBlockByInodeNumb_eq hs hlt, if_pos hn, hgood, hnumb,
    blockWrite_inode hnumb hn hs]
  by_cases hopens : Opens s.disk n
  · simp only [if_pos hopens, write_field (show flag.offset + flag.width ≤ Inode.size by decide)]
    rfl
  · simp only [if_neg hopens, write_back]
    rfl

/-- `sfs_releasedir` on a path that leads to an inode. -/
theorem sfsReleasedir_eq (hs : s.errors = []) (hn : Readable n)
    (hlookup : lookup s.disk (strtok path) 0 = some n) :
    sfsReleasedir u path s = some (0, s.setFlag n 0) := by
  obtain ⟨hlt, numb, hnumb⟩ := hn.exists_numb
  simp only [sfsReleasedir, getInodeNumbFromPath_eq hs, hlookup, Option.map_some,
    Option.bind_eq_bind, Option.bind_some, getBlockByInodeNumb_eq hs hlt, if_pos hn, hnumb,
    blockWrite_inode hnumb hn hs,
    write_field (show flag.offset + flag.width ≤ Inode.size by decide)]
  rfl

/-! ## What the calls change -/

/-- At most the flag of an inode has changed. -/
def OnlyFlag (disk disk' : Memory) (n : ℕ) : Prop :=
  ∀ c, c ≠ inodeAt n + flag.offset → disk' c = disk c

theorem Sfs.setFlag_only : OnlyFlag s.disk (s.setFlag n v).disk n := by
  intro c hc
  apply set_apply
  simp only [flag] at *
  omega

/-- `sfs_opendir` and `sfs_releasedir` return for every path that leads to an inode, and
change at most its flag, `sfs_opendir` nothing if it returns -1. After one call of each the
flag is 0, and every other byte is as before. -/
theorem opendir_releasedir_only (u u' : Unspecified) (path : List UInt8) (s : Sfs) (n : ℕ)
    (hs : s.errors = []) (hn : n < 5000)
    (hpath : ∃ s', getInodeNumbFromPath u path s = some (n, s')) :
    (∃ r s', sfsOpendir u path s = some (r, s') ∧ OnlyFlag s.disk s'.disk n ∧
        (r = -1 → s'.disk = s.disk)) ∧
      (∃ r s', sfsReleasedir u path s = some (r, s') ∧ OnlyFlag s.disk s'.disk n) ∧
      ∃ r₁ r₂ s₁ s₂, sfsOpendir u path s = some (r₁, s₁) ∧
        sfsReleasedir u' path s₁ = some (r₂, s₂) ∧ OnlyFlag s.disk s₂.disk n ∧
        get s₂.disk (inodeAt n) flag = 0 := by
  obtain ⟨s', hpath⟩ := hpath
  obtain ⟨hlookup, _, _⟩ := getInodeNumbFromPath_spec hpath hs
  have hreadable := readable_of_lt hn
  have hopen := @sfsOpendir_eq u s path n hs hreadable hlookup
  have hrelease := @sfsReleasedir_eq u s path n hs hreadable hlookup
  have hzero (s : Sfs) : get (s.setFlag n 0).disk (inodeAt n) flag = 0 := get_set_self
  by_cases hopens : Opens s.disk n
  · rw [if_pos hopens] at hopen
    have hlookup' : lookup (s.setFlag n opened).disk (strtok path) 0 = some n :=
      lookup_setFlag.trans hlookup
    refine ⟨⟨_, _, hopen, Sfs.setFlag_only, fun hr => absurd hr (by decide)⟩,
      ⟨_, _, hrelease, Sfs.setFlag_only⟩,
      _, _, _, _, hopen, sfsReleasedir_eq hs hreadable hlookup', fun c hc => ?_, hzero _⟩
    rw [Sfs.setFlag_only c hc, Sfs.setFlag_only c hc]
  · rw [if_neg hopens] at hopen
    exact ⟨⟨_, _, hopen, fun _ _ => rfl, fun _ => rfl⟩, ⟨_, _, hrelease, Sfs.setFlag_only⟩,
      _, _, _, _, hopen, sfsReleasedir_eq hs hreadable hlookup, Sfs.setFlag_only, hzero s⟩

/-- A disk with a directory that is not open at inode `n`, with a name and no entries. -/
def withDirectory (disk : Memory) (n : ℕ) (name : List UInt8) : Memory :=
  let m := newInode disk (inodeAt n) name (S_IRUSR ||| S_IXUSR) n 0
  set (set m (inodeAt n) state dir) (inodeAt n) flag 0

/-- The directory `/a` with inode 5, between files with inodes 4 and 6 of the same block. -/
def neighbourDisk : Memory :=
  let m := newInode (newInode mountedDisk (inodeAt 4) (chars "x") 0 4 0)
    (inodeAt 6) (chars "y") 0 6 0
  let m := withDirectory m 5 (chars "a")
  set (set (set m (inodeAt 0) (block_ptr 0) 4) (inodeAt 0) (block_ptr 1) 5) (inodeAt 0)
    (block_ptr 2) 6

/-- The directory between two files is opened, which sets its flag, and released. Nothing else
has changed then, also not in the records beside it. -/
theorem opendir_releasedir_neighbours : ∃ r₂ s₁ s₂,
    sfsOpendir sampleUnspecified (chars "/a") ⟨neighbourDisk, [], 3, 3⟩ = some (0, s₁) ∧
      get s₁.disk (inodeAt 5) flag = opened ∧
      sfsReleasedir sampleUnspecified (chars "/a") s₁ = some (r₂, s₂) ∧
      OnlyFlag neighbourDisk s₂.disk 5 ∧ get s₂.disk (inodeAt 5) flag = 0 := by
  have hopened : (sfsOpendir sampleUnspecified (chars "/a") ⟨neighbourDisk, [], 3, 3⟩).map (fun r =>
      (r.1, get r.2.disk (inodeAt 5) flag)) = some (0, opened) := by
    decide +kernel
  have hpath : (getInodeNumbFromPath sampleUnspecified (chars "/a")
      ⟨neighbourDisk, [], 3, 3⟩).map Prod.fst = some 5 := by
    decide +kernel
  obtain ⟨⟨_, s'⟩, hpath, rfl⟩ := Option.map_eq_some_iff.mp hpath
  obtain ⟨r₁, r₂, s₁, s₂, hopen, hrelease, honly, hzero⟩ :=
    (opendir_releasedir_only sampleUnspecified sampleUnspecified (chars "/a")
      ⟨neighbourDisk, [], 3, 3⟩ 5 rfl (by decide) ⟨s', hpath⟩).2.2
  rw [hopen, Option.map_some] at hopened
  obtain ⟨rfl, hflag⟩ := Prod.mk.inj (Option.some.inj hopened)
  exact ⟨r₂, s₁, s₂, hopen, hflag, hrelease, honly, hzero⟩

end SimpleOs.Files
