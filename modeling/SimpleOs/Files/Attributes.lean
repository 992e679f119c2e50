import SimpleOs.Files.ListingOpens
import SimpleOs.Files.Unresolved
import SimpleOs.Library.Runs

/-!
# Attributes

`sfs_getattr` copies the fields of an inode to the buffer of the caller. Of all
requests only `sfs_create` and `sfs_unlink` can change what it says: the others write
flags, and a flag is in no field that a lookup or `sfs_getattr` reads.
-/

namespace SimpleOs.Files

open Bytes Inode Runs

/-! ## The attributes of an inode -/

namespace Inode

/-- `int size`, the size of the file. -/
def fileSize : Field := ⟨24, 4⟩

/-- The field `int ownerID` of an inode, at byte 56. -/
def ownerID : Field := ⟨56, 4⟩

/-- The field `int groupID` of an inode, at byte 60. -/
def groupID : Field := ⟨60, 4⟩

end Inode

/-- The bits of `st_mode` for a directory. -/
def S_IFDIR : ℕ := 0o040000

/-- The bits of `st_mode` for a file. -/
def S_IFREG : ℕ := 0o100000

/-- The fields of `struct stat` that are written. -/
structure Stat where
  /-- The number of the inode. -/
  st_ino : ℕ
  /-- The kind of the inode and its permissions. -/
  st_mode : ℕ
  /-- The number of hard links of the file. -/
  st_nlink : ℕ
  /-- The id of the user who owns the file. -/
  st_uid : ℕ
  /-- The id of the group that owns the file. -/
  st_gid : ℕ
  /-- The device number of a special file. -/
  st_rdev : ℕ
  /-- The size of the file in bytes. -/
  st_size : ℤ
  /-- The size of the file in blocks. -/
  st_blocks : ℕ
  /-- The time of the last access. -/
  st_atime : ℕ
  /-- The time of the last modification. -/
  st_mtime : ℕ
  /-- The time of the last change. -/
  st_ctime : ℕ
  deriving DecidableEq

/-- The loop that counts the blocks of a file. With `2 ^ 22` blocks the product is no
`int`, and has no defined value. -/
def numBlocks (size : ℤ) : Option ℕ :=
  (countBlocks (fun num_blocks => (BLOCK_SIZE * num_blocks : ℤ) > size) (2 ^ 22 - 1) 1).map
    (· + 1)

/-- The statements that fill the buffer, for the inode at `a`. The kind and the
links of an inode that is neither a directory nor a file are left as they are. -/
def fillStat (temp2 : Memory) (a : ℕ) (statbuf : Stat) : Option Stat := do
  let statbuf := { statbuf with st_ino := get temp2 a uid }
  let statbuf :=
    if get temp2 a state = dir then { statbuf with st_mode := S_IFDIR ||| 0o755, st_nlink := 2 }
    else if get temp2 a state = file then
      { statbuf with st_mode := S_IFREG ||| 0o444, st_nlink := 1 }
    else statbuf
  let statbuf :=
    { statbuf with
      st_uid := get temp2 a ownerID
      st_gid := get temp2 a groupID
      st_rdev := 0
      st_size := toInt (get temp2 a fileSize) }
  let num_blocks ← numBlocks (toInt (get temp2 a fileSize))
  return { statbuf with
    st_blocks := num_blocks
    st_atime := get temp2 a time
    st_mtime := get temp2 a mtime
    st_ctime := get temp2 a ctime }

/-- `sfs_getattr`: the value that it returns and the attributes that it fills in. A path that leads
nowhere leaves them as they are. -/
def sfsGetattr (u : Unspecified) (path : List UInt8) (statbuf : Stat) (s : Sfs) :
    Option (ℤ × Stat × Sfs) := do
  let (correct_inumb, s) ← getInodeNumbFromPath u path s
  if correct_inumb = minusOne then return (-1, statbuf, s)
  let offset_in_block := offsetInBlock correct_inumb
  let (temp2, s) ← getBlockByInodeNumb u correct_inumb s
  let statbuf ← fillStat temp2 offset_in_block statbuf
  return (0, statbuf, s)

/-- The loops that count blocks do not end if no number that they get to is enough. -/
theorem countBlocks_short {enough : ℕ → Bool} {fuel start : ℕ}
    (h : ∀ k < start + fuel, enough k = false) : countBlocks enough fuel start = none := by
  induction fuel generalizing start with
  | zero => rfl
  | succ fuel ih =>
    rw [countBlocks, if_neg (by simp [h start (by omega)])]
    exact ih fun k hk => h k (by omega)

/-- A file has the blocks up to the one in which its size is. -/
theorem numBlocks_eq (size : ℤ) : numBlocks size =
    if size < BLOCK_SIZE * (2 ^ 22 - 1) then some (size.toNat / BLOCK_SIZE + 1) else none := by
  unfold numBlocks
  by_cases hlt : size < BLOCK_SIZE * (2 ^ 22 - 1)
  · rw [if_pos hlt, countBlocks_eq (n := size.toNat / BLOCK_SIZE + 1)]
    · rfl
    · simp only [BLOCK_SIZE]
      omega
    · simp only [BLOCK_SIZE] at *
      omega
    · intro k hk hless
      apply decide_eq_false
      simp only [BLOCK_SIZE] at *
      omega
    · apply decide_eq_true
      simp only [BLOCK_SIZE]
      omega
  · rw [if_neg hlt, countBlocks_short]
    · rfl
    · intro k hk
      apply decide_eq_false
      simp only [BLOCK_SIZE] at *
      omega

/-! ## The requests -/

/-- An operation that only writes to the log. -/
def logOnly (s : Sfs) : Option (ℤ × Sfs) := some (0, s)

/-- `sfs_open`, which writes a line to the log and looks at nothing. -/
def sfsOpen (_path : List UInt8) : Sfs → Option (ℤ × Sfs) := logOnly

/-- `sfs_release`, which writes a line to the log and looks at nothing. -/
def sfsRelease (_path : List UInt8) : Sfs → Option (ℤ × Sfs) := logOnly

/-- `sfs_read`, which writes a line to the log. Nothing is read. -/
def sfsRead (_path : List UInt8) (_size _offset : ℕ) : Sfs → Option (ℤ × Sfs) := logOnly

/-- `sfs_write`, which writes a line to the log. Nothing is written. -/
def sfsWrite (_path _buf : List UInt8) (_offset : ℕ) : Sfs → Option (ℤ × Sfs) := logOnly

/-- `sfs_mkdir`. No directory is made. -/
def sfsMkdir (_path : List UInt8) (_fileMode : ℕ) : Sfs → Option (ℤ × Sfs) := logOnly

/-- `sfs_rmdir`. No directory is removed. -/
def sfsRmdir (_path : List UInt8) : Sfs → Option (ℤ × Sfs) := logOnly

/-- The table `sfs_oper` without mounting and unmounting. -/
inductive Request where
  /-- The operations that look a path up and may write to the disk. -/
  | operation (op : Operation)
  /-- `sfs_getattr`, with the buffer of the caller. -/
  | getattr (statbuf : Stat)
  /-- A request for `sfs_open` of the path. -/
  | openFile
  /-- A request for `sfs_release` of the path. -/
  | release
  /-- A request for `sfs_read` of some bytes from a position on. -/
  | read (size offset : ℕ)
  /-- A request for `sfs_write` of a buffer from a position on. -/
  | write (buf : List UInt8) (offset : ℕ)
  /-- A request for `sfs_mkdir` with a mode. -/
  | mkdir (fileMode : ℕ)
  /-- A request for `sfs_rmdir` of the path. -/
  | rmdir

/-- The call of a request. -/
def Request.call (u : Unspecified) (path : List UInt8) (s : Sfs) : Request → Option (ℤ × Sfs)
  | .operation op => op.call u path s
  | .getattr statbuf => (sfsGetattr u path statbuf s).map fun r => (r.1, r.2.2)
  | .openFile => sfsOpen path s
  | .release => sfsRelease path s
  | .read size offset => sfsRead path size offset s
  | .write buf offset => sfsWrite path buf offset s
  | .mkdir fileMode => sfsMkdir path fileMode s
  | .rmdir => sfsRmdir path s

/-- One request for a path, whatever the code reads without having written it. -/
def RequestStep (s : Sfs) (e : List UInt8 × Request) (s' : Sfs) : Prop :=
  ∃ u r, e.2.call u e.1 s = some (r, s')

/-- A request other than `sfs_create` and `sfs_unlink`. -/
def Request.Neutral : Request → Prop
  | .operation (.create _ _ _) | .operation .unlink => False
  | _ => True

variable {β : Type} {u : Unspecified} {s s' : Sfs} {disk disk' : Memory} {path : List UInt8}
  {ts : List (List UInt8)} {filler : β → List UInt8 → ℕ → Bool × β} {buf buf' : β}
  {statbuf : Stat} {f : Field} {n q v c offset : ℕ} {r : ℤ}

/-! ## Flags -/

/-- The disks differ in flags at most. -/
def SameButFlags (disk disk' : Memory) : Prop :=
  ∀ c, (∀ n, c ≠ inodeAt n + flag.offset) → disk' c = disk c

theorem SameButFlags.refl (disk : Memory) : SameButFlags disk disk := fun _ _ => rfl

theorem SameButFlags.trans {disk'' : Memory} (h : SameButFlags disk disk')
    (h' : SameButFlags disk' disk'') : SameButFlags disk disk'' :=
  fun c hc => (h' c hc).trans (h c hc)

/-- Writing the flag of an inode leaves all bytes but flags as they are. -/
theorem sameButFlags_setFlag : SameButFlags s.disk (s.setFlag n v).disk :=
  fun c hc => Sfs.setFlag_only c (hc n)

/-- A field that is not the flag has the same value on both disks. -/
theorem SameButFlags.get (h : SameButFlags disk disk')
    (hsize : f.offset + f.width ≤ Inode.size) (hf : f.Disjoint flag) :
    Bytes.get disk' (inodeAt q) f = Bytes.get disk (inodeAt q) f := by
  apply load_congr
  intro c hc hlt
  apply h
  rintro n rfl
  have hapart := @flag_apart n q f hsize hf
  simp only [flag] at hapart hc hlt
  omega

/-- Disks that differ in flags only have the same entries. -/
theorem SameButFlags.entry {i : ℕ} (h : SameButFlags disk disk') (hi : i < 10) :
    entry disk' q i = entry disk q i := by
  apply h.get
  · simp only [block_ptr, Inode.size]
    omega
  · simp only [Field.Disjoint, block_ptr, flag]
    omega

/-- Disks that differ in flags only have the same names. -/
theorem SameButFlags.nameOf (h : SameButFlags disk disk') :
    Files.nameOf disk' (inodeAt q) = Files.nameOf disk (inodeAt q) := by
  apply List.map_congr_left
  intro k hk
  have hlt := List.mem_range.mp hk
  apply h
  intro n heq
  have hapart := @flag_apart n q ⟨Inode.name + k, 1⟩
    (by simp only [Inode.name, Inode.size]; omega) (by
    simp only [Field.Disjoint, Inode.name, flag]
    omega)
  simp only [flag] at hapart heq
  omega

/-- Paths lead to the same inodes. -/
theorem SameButFlags.lookup (h : SameButFlags disk disk') :
    lookup disk' ts n = lookup disk ts n :=
  lookup_congr (fun _ _ hi => h.entry hi) fun _ => h.nameOf

/-- Disks that differ in flags only give the same attributes. -/
theorem SameButFlags.fillStat (h : SameButFlags disk disk') :
    fillStat disk' (inodeAt q) statbuf = fillStat disk (inodeAt q) statbuf := by
  unfold Files.fillStat
  rw [h.get (f := uid) (by decide) (by decide), h.get (f := state) (by decide) (by decide),
    h.get (f := ownerID) (by decide) (by decide), h.get (f := groupID) (by decide) (by decide),
    h.get (f := fileSize) (by decide) (by decide), h.get (f := time) (by decide) (by decide),
    h.get (f := mtime) (by decide) (by decide), h.get (f := ctime) (by decide) (by decide)]

/-! ## What the calls read and write -/

/-- At most flags are written, and without errors there are none afterwards. -/
structure OnlyFlags (s s' : Sfs) : Prop where
  /-- All bytes of the disk but the flags are as before. -/
  disk : SameButFlags s.disk s'.disk
  /-- A call that begins without errors ends without errors. -/
  calm : s.errors = [] → s'.errors = []

theorem OnlyFlags.refl (s : Sfs) : OnlyFlags s s := ⟨SameButFlags.refl _, id⟩

theorem OnlyFlags.trans {s₁ : Sfs} (h : OnlyFlags s s₁) (h' : OnlyFlags s₁ s') :
    OnlyFlags s s' :=
  ⟨h.disk.trans h'.disk, fun hs => h'.calm (h.calm hs)⟩

/-- A block that is read leaves the disk as it is, and no new error comes up. -/
theorem blockRead_flags (s : Sfs) : OnlyFlags s (blockRead n s).2 :=
  ⟨SameButFlags.refl _, fun hs => by rw [blockRead, hs]; rfl⟩

/-- The block of an inode is read. -/
theorem getBlockByInodeNumb_flags {TEMP : Memory}
    (h : getBlockByInodeNumb u n s = some (TEMP, s')) : OnlyFlags s s' := by
  obtain ⟨numb, _, h⟩ := Option.bind_eq_some_iff.mp h
  dsimp only at h
  obtain ⟨first, _, h⟩ := Option.bind_eq_some_iff.mp h
  have hfirst := blockRead_flags (n := 20 + numb) s
  split at h
  · obtain ⟨second, _, h⟩ := Option.bind_eq_some_iff.mp h
    obtain ⟨_, rfl⟩ := Prod.mk.inj (Option.some.inj h)
    exact hfirst.trans (blockRead_flags _)
  · obtain ⟨_, rfl⟩ := Prod.mk.inj (Option.some.inj h)
    exact hfirst

/-- A lookup that returns gives what the disk says, and leaves it as it is. -/
theorem getInodeNumbFromPath_calm (h : getInodeNumbFromPath u path s = some (n, s')) :
    lookup s.disk (strtok path) 0 = some n ∧ s'.disk = s.disk := by
  have hcalm : getInodeNumbFromPath u path s.calm = some (n, s'.calm) := walk_calm h
  obtain ⟨hlookup, _, hsame⟩ := getInodeNumbFromPath_spec hcalm s.calm_errors
  exact ⟨hlookup, by simpa using congrArg Sfs.disk hsame⟩

/-- Looking up a path changes flags of inodes at most. -/
theorem getInodeNumbFromPath_flags (h : getInodeNumbFromPath u path s = some (n, s')) :
    OnlyFlags s s' := by
  constructor
  · rw [(getInodeNumbFromPath_calm h).2]
    exact SameButFlags.refl _
  · intro hs
    obtain ⟨_, _, hsame⟩ := getInodeNumbFromPath_spec h hs
    rwa [hsame]

/-- `sfs_opendir` writes at most a flag. -/
theorem sfsOpendir_flags (h : sfsOpendir u path s = some (r, s')) : OnlyFlags s s' := by
  have hwrites {s s' : Sfs} (hs : s.errors = []) (h : sfsOpendir u path s = some (r, s')) :
      SameButFlags s.disk s'.disk ∧ s'.errors = [] := by
    obtain ⟨⟨n, s₁⟩, hpath, hrest⟩ := Option.bind_eq_some_iff.mp h
    obtain ⟨hlookup, hlt, hsame⟩ := getInodeNumbFromPath_spec hpath hs
    obtain ⟨⟨temp, s₂⟩, hread, _⟩ := Option.bind_eq_some_iff.mp hrest
    rw [hsame] at hread
    obtain ⟨hreadable, _, _⟩ := getBlockByInodeNumb_spec hread hs hlt
    rw [sfsOpendir_eq hs hreadable hlookup] at h
    split at h
    · obtain ⟨_, rfl⟩ := Prod.mk.inj (Option.some.inj h)
      exact ⟨sameButFlags_setFlag, hs⟩
    · obtain ⟨_, rfl⟩ := Prod.mk.inj (Option.some.inj h)
      exact ⟨SameButFlags.refl _, hs⟩
  exact ⟨(hwrites s.calm_errors (sfsOpendir_calm h)).1, fun hs => (hwrites hs h).2⟩

/-- A release that returns does the same without the errors that were still to come. -/
theorem sfsReleasedir_calm (h : sfsReleasedir u path s = some (r, s')) :
    sfsReleasedir u path s.calm = some (r, s'.calm) := by
  unfold sfsReleasedir at *
  obtain ⟨⟨m, s₁⟩, hpath, h⟩ := Option.bind_eq_some_iff.mp h
  obtain ⟨⟨temp, s₂⟩, hread, h⟩ := Option.bind_eq_some_iff.mp h
  obtain ⟨numb, hnumb, h⟩ := Option.bind_eq_some_iff.mp h
  have hpath' : getInodeNumbFromPath u path s.calm = some (m, s₁.calm) := walk_calm hpath
  simp only [hpath', getBlockByInodeNumb_calm hread, hnumb, Option.bind_eq_bind, Option.bind_some]
  split at h
  · exact absurd h (by simp)
  · rename_i s₃ hwrite
    obtain ⟨hr, rfl⟩ := Prod.mk.inj (Option.some.inj h)
    simp only [blockWrite_calm hwrite, ← hr]
    rfl

/-- `sfs_releasedir` changes only a flag, whatever errors the disk has. -/
theorem sfsReleasedir_flags (h : sfsReleasedir u path s = some (r, s')) : OnlyFlags s s' := by
  have hwrites {s s' : Sfs} (hs : s.errors = []) (h : sfsReleasedir u path s = some (r, s')) :
      SameButFlags s.disk s'.disk ∧ s'.errors = [] := by
    obtain ⟨⟨n, s₁⟩, hpath, hrest⟩ := Option.bind_eq_some_iff.mp h
    obtain ⟨hlookup, hlt, hsame⟩ := getInodeNumbFromPath_spec hpath hs
    obtain ⟨⟨temp, s₂⟩, hread, _⟩ := Option.bind_eq_some_iff.mp hrest
    rw [hsame] at hread
    obtain ⟨hreadable, _, _⟩ := getBlockByInodeNumb_spec hread hs hlt
    rw [sfsReleasedir_eq hs hreadable hlookup] at h
    obtain ⟨_, rfl⟩ := Prod.mk.inj (Option.some.inj h)
    exact ⟨sameButFlags_setFlag, hs⟩
  exact ⟨(hwrites s.calm_errors (sfsReleasedir_calm h)).1, fun hs => (hwrites hs h).2⟩

/-- The loop over the entries of a directory reads blocks. -/
theorem fillEntries_flags {dir : Memory} {a : ℕ} {is : List ℕ}
    (h : fillEntries u filler dir a is buf s = some (buf', s')) : OnlyFlags s s' := by
  induction is generalizing buf s with
  | nil =>
    obtain ⟨_, rfl⟩ := Prod.mk.inj (Option.some.inj h)
    exact OnlyFlags.refl _
  | cons i is ih =>
    rw [fillEntries] at h
    split at h
    · obtain ⟨_, rfl⟩ := Prod.mk.inj (Option.some.inj h)
      exact OnlyFlags.refl _
    · obtain ⟨⟨temp1, s₁⟩, hread, h⟩ := Option.bind_eq_some_iff.mp h
      obtain ⟨child_name, _, h⟩ := Option.bind_eq_some_iff.mp h
      have hfirst := getBlockByInodeNumb_flags hread
      dsimp only at h
      split at h
      · obtain ⟨_, rfl⟩ := Prod.mk.inj (Option.some.inj h)
        exact hfirst
      · exact hfirst.trans (ih h)

/-- `sfs_readdir` writes at most the flag that its call of `sfs_opendir` writes. -/
theorem sfsReaddir_flags (h : sfsReaddir u filler path buf offset s = some (r, buf', s')) :
    OnlyFlags s s' := by
  obtain ⟨⟨n, s₁⟩, hpath, h⟩ := Option.bind_eq_some_iff.mp h
  obtain ⟨⟨temp, s₂⟩, hread, h⟩ := Option.bind_eq_some_iff.mp h
  have hbefore := (getInodeNumbFromPath_flags hpath).trans (getBlockByInodeNumb_flags hread)
  -- Both ways to the loop: the directory is opened, or it is open.
  have hloop : ∃ result s₃, OnlyFlags s s₃ ∧
      (if result = -1 then some (-1, buf, s₃)
        else (fillEntries u filler temp (offsetInBlock n) (List.range 10) buf s₃).bind
          fun x => some (0, x.1, x.2)) = some (r, buf', s') := by
    dsimp only at h
    split at h
    · obtain ⟨⟨result, s₃⟩, hopen, h⟩ := Option.bind_eq_some_iff.mp h
      exact ⟨result, s₃, hbefore.trans (sfsOpendir_flags hopen), h⟩
    · exact ⟨0, s₂, hbefore, h⟩
  obtain ⟨result, s₃, hflags, hrest⟩ := hloop
  split at hrest
  · obtain ⟨_, heq⟩ := Prod.mk.inj (Option.some.inj hrest)
    obtain ⟨_, rfl⟩ := Prod.mk.inj heq
    exact hflags
  · obtain ⟨⟨_, s₄⟩, hfill, hrest⟩ := Option.bind_eq_some_iff.mp hrest
    obtain ⟨_, heq⟩ := Prod.mk.inj (Option.some.inj hrest)
    obtain ⟨_, rfl⟩ := Prod.mk.inj heq
    have hlast : OnlyFlags s₃ s₄ := fillEntries_flags hfill
    exact hflags.trans hlast

/-- The attributes that a path has on the disk. -/
def attributes (disk : Memory) (path : List UInt8) (statbuf : Stat) : Option (ℤ × Stat) :=
  (lookup disk (strtok path) 0).bind fun n =>
    if n = minusOne then some (-1, statbuf)
    else (fillStat disk (inodeAt n) statbuf).map fun statbuf => (0, statbuf)

/-- The statements read the inode of the buffer. -/
theorem fillStat_inodeBuffer :
    fillStat (inodeBuffer u disk n) (offsetInBlock n) statbuf =
      fillStat disk (inodeAt n) statbuf := by
  unfold fillStat
  rw [get_inodeBuffer (f := uid) (by decide), get_inodeBuffer (f := state) (by decide),
    get_inodeBuffer (f := ownerID) (by decide), get_inodeBuffer (f := groupID) (by decide),
    get_inodeBuffer (f := fileSize) (by decide), get_inodeBuffer (f := time) (by decide),
    get_inodeBuffer (f := mtime) (by decide), get_inodeBuffer (f := ctime) (by decide)]

/-- Without errors `sfs_getattr` gives the attributes, and changes nothing. -/
theorem sfsGetattr_eq (hs : s.errors = []) : sfsGetattr u path statbuf s =
    (attributes s.disk path statbuf).map fun x => (x.1, x.2, s) := by
  rw [sfsGetattr, attributes, getInodeNumbFromPath_eq hs]
  rcases hlookup : lookup s.disk (strtok path) 0 with _ | n
  · rfl
  · simp only [Option.map_some, Option.bind_eq_bind, Option.bind_some]
    by_cases hn : n = minusOne
    · rw [if_pos hn, if_pos hn]
      rfl
    · have hreadable := lookup_readable hlookup hn
      have hlt := lookup_lt (by decide) hlookup
      rw [if_neg hn, if_neg hn, getBlockByInodeNumb_eq hs hlt, if_pos hreadable]
      simp only [Option.bind_some, fillStat_inodeBuffer]
      cases fillStat s.disk (inodeAt n) statbuf <;> rfl

/-- A call of `sfs_getattr` that returns gives the attributes on the disk, and writes flags at most.
-/
theorem sfsGetattr_calm {statbuf' : Stat}
    (h : sfsGetattr u path statbuf s = some (r, statbuf', s')) :
    attributes s.disk path statbuf = some (r, statbuf') ∧ OnlyFlags s s' := by
  obtain ⟨⟨n, s₁⟩, hpath, hrest⟩ := Option.bind_eq_some_iff.mp h
  obtain ⟨hlookup, hsame⟩ := getInodeNumbFromPath_calm hpath
  have hflags := getInodeNumbFromPath_flags hpath
  rw [attributes, hlookup, Option.bind_some]
  dsimp only at hrest
  split at hrest
  · rename_i hn
    obtain ⟨rfl, heq⟩ := Prod.mk.inj (Option.some.inj hrest)
    obtain ⟨rfl, rfl⟩ := Prod.mk.inj heq
    exact ⟨if_pos hn, hflags⟩
  · rename_i hn
    obtain ⟨⟨temp2, s₂⟩, hread, hrest⟩ := Option.bind_eq_some_iff.mp hrest
    obtain ⟨filled, hfill, hrest⟩ := Option.bind_eq_some_iff.mp hrest
    obtain ⟨rfl, heq⟩ := Prod.mk.inj (Option.some.inj hrest)
    obtain ⟨rfl, rfl⟩ := Prod.mk.inj heq
    obtain ⟨_, rfl, _⟩ := getBlockByInodeNumb_spec (getBlockByInodeNumb_calm hread)
      s₁.calm_errors (lookup_lt (by decide) hlookup)
    rw [fillStat_inodeBuffer, s₁.calm_disk, hsame] at hfill
    rw [if_neg hn, hfill]
    exact ⟨rfl, hflags.trans (getBlockByInodeNumb_flags hread)⟩

/-! ## Runs without `sfs_create` and `sfs_unlink` -/

/-- Another request writes flags at most. -/
theorem RequestStep.flags {e : List UInt8 × Request} (h : RequestStep s e s')
    (hneutral : e.2.Neutral) : OnlyFlags s s' := by
  obtain ⟨path, request⟩ := e
  obtain ⟨u, r, h⟩ := h
  have hsame (h : some (0, s) = some (r, s')) : OnlyFlags s s' := by
    obtain ⟨_, rfl⟩ := Prod.mk.inj (Option.some.inj h)
    exact OnlyFlags.refl _
  cases request with
  | operation op =>
    cases op with
    | create _ _ _ => exact hneutral.elim
    | unlink => exact hneutral.elim
    | opendir => exact sfsOpendir_flags h
    | readdir capacity offset =>
      obtain ⟨⟨r₁, buf, s₁⟩, hrun, heq⟩ := Option.map_eq_some_iff.mp h
      obtain ⟨_, rfl⟩ := Prod.mk.inj heq
      exact sfsReaddir_flags hrun
    | releasedir => exact sfsReleasedir_flags h
  | getattr statbuf =>
    obtain ⟨⟨r₁, statbuf', s₁⟩, hrun, heq⟩ := Option.map_eq_some_iff.mp h
    obtain ⟨_, rfl⟩ := Prod.mk.inj heq
    exact (sfsGetattr_calm hrun).2
  | openFile | release | read _ _ | write _ _ | mkdir _ | rmdir => exact hsame h

/-- The attributes of paths are the same. -/
theorem SameButFlags.attributes (h : SameButFlags disk disk') :
    attributes disk' path statbuf = attributes disk path statbuf := by
  unfold Files.attributes
  rw [h.lookup]
  congr 1
  funext n
  rw [h.fillStat]

/-- What a call of `sfs_getattr` gives to the caller. -/
def getattrResult (u : Unspecified) (path : List UInt8) (statbuf : Stat) (s : Sfs) :
    Option (ℤ × Stat) :=
  (sfsGetattr u path statbuf s).map fun x => (x.1, x.2.1)

/-- In every run without `sfs_create` and `sfs_unlink`, with whatever errors of the disk,
only flags change. Calls of `sfs_getattr` for a path that return before and after it give
the same, and without errors both return or none does. -/
theorem attributes_stable (s s' : Sfs) (l : List (Turn Sfs (List UInt8 × Request)))
    (hrun : Path RequestStep s l s') (hneutral : ∀ t ∈ l, t.event.2.Neutral) :
    SameButFlags s.disk s'.disk ∧
      ∀ (u u' : Unspecified) (path : List UInt8) (statbuf : Stat),
        (∀ x x', getattrResult u path statbuf s = some x →
          getattrResult u' path statbuf s' = some x' → x' = x) ∧
        (s.errors = [] →
          getattrResult u' path statbuf s' = getattrResult u path statbuf s) := by
  have hflags : OnlyFlags s s' := by
    apply hrun.relates (R := OnlyFlags)
    · exact OnlyFlags.refl
    · exact fun _ _ _ h h' => h.trans h'
    · exact fun t ht => (hrun.step_of_mem ht).flags (hneutral t ht)
  have hgives {u : Unspecified} {path : List UInt8} {statbuf : Stat} {s : Sfs} {x : ℤ × Stat}
      (h : getattrResult u path statbuf s = some x) :
      attributes s.disk path statbuf = some x := by
    obtain ⟨⟨r, filled, s₁⟩, hcall, rfl⟩ := Option.map_eq_some_iff.mp h
    exact (sfsGetattr_calm hcall).1
  refine ⟨hflags.disk, fun u u' path statbuf => ⟨fun x x' hbefore hafter => ?_, fun hs => ?_⟩⟩
  · have hsame := (hgives hafter).symm.trans (hflags.disk.attributes.trans (hgives hbefore))
    exact Option.some.inj hsame
  · rw [getattrResult, getattrResult, sfsGetattr_eq hs, sfsGetattr_eq (hflags.calm hs),
      hflags.disk.attributes, Option.map_map, Option.map_map]
    rfl

/-- A buffer for attributes in which every field is zero. -/
def zeroStat : Stat := ⟨0, 0, 0, 0, 0, 0, 0, 0, 0, 0, 0⟩

/-- The theorem for the root of a new file system, which is opened and then written to. -/
theorem attributes_stable_root :
    getattrResult sampleUnspecified [slash] zeroStat (mounted.setFlag 0 opened) =
      some (0, { zeroStat with
        st_mode := S_IFDIR ||| 0o755
        st_nlink := 2
        st_blocks := 1 }) := by
  have hopen : RequestStep mounted ([slash], .operation .opendir) (mounted.setFlag 0 opened) := by
    refine ⟨sampleUnspecified, 0, (sfsOpendir_eq rfl (n := 0) (by decide) rfl).trans ?_⟩
    exact congrArg some (if_pos (by decide +kernel))
  have hwrite : RequestStep (mounted.setFlag 0 opened) ([slash], .write [] 0)
      (mounted.setFlag 0 opened) :=
    ⟨sampleUnspecified, 0, rfl⟩
  have hstable := attributes_stable _ _ _ (.cons hopen (.cons hwrite (.nil _)))
    (by simp [Request.Neutral])
  rw [(hstable.2 sampleUnspecified sampleUnspecified [slash] zeroStat).2 rfl]
  decide +kernel

end SimpleOs.Files
