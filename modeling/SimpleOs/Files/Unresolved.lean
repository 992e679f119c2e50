import SimpleOs.Files.Listing

/-!
# Paths that do not exist

For a path that does not exist the lookup gives -1, and no operation tests for it: each
goes on to look for the block of inode -1, and does not come back from that loop.
-/

namespace SimpleOs.Files

open Bytes Inode

variable {u : Unspecified} {s s' : Sfs} {path : List UInt8}

/-! ## Operations -/

/-- The operations that look a path up, with their other arguments. -/
inductive Operation where
  /-- `sfs_create`, with the values of `rand()` and the time. -/
  | create (fileMode : ℕ) (rand : ℕ × ℕ) (now : ℕ)
  /-- The operation `sfs_unlink` on the path. -/
  | unlink
  /-- The operation `sfs_opendir` on the path. -/
  | opendir
  /-- `sfs_readdir`, with the buffer of the caller. -/
  | readdir (capacity offset : ℕ)
  /-- The operation `sfs_releasedir` on the path. -/
  | releasedir

/-- The call of an operation: what it returns and the state after it. -/
def Operation.call (u : Unspecified) (path : List UInt8) (s : Sfs) : Operation → Option (ℤ × Sfs)
  | .create fileMode rand now => sfsCreate u path fileMode rand now s
  | .unlink => sfsUnlink u path s
  | .opendir => sfsOpendir u path s
  | .readdir capacity offset =>
      (sfsReaddir u Buffer.filler path ⟨capacity, []⟩ offset s).map fun r => (r.1, r.2.2)
  | .releasedir => sfsReleasedir u path s

/-- The path that an operation needs: `sfs_create` that of the parent. -/
def Operation.lookupPath (u : Unspecified) (path : List UInt8) : Operation → Option (List UInt8)
  | .create _ _ _ => (lastSlash path path.length).map fun i => substring u path 0 i
  | _ => some path

/-- The lookup of that path gives -1. -/
def Operation.Unresolved (u : Unspecified) (path : List UInt8) (s : Sfs) (op : Operation) : Prop :=
  ∃ needed s', op.lookupPath u path = some needed ∧
    getInodeNumbFromPath u needed s = some (minusOne, s')

/-- The operation returns, does not succeed, and leaves the disk as it was. -/
def Operation.RejectedCleanly (u : Unspecified) (path : List UInt8) (s : Sfs)
    (op : Operation) : Prop :=
  ∃ r s', op.call u path s = some (r, s') ∧ r ≠ 0 ∧ s'.disk = s.disk

/-- The operation returns before it looks the path up. -/
def Operation.ReturnsEarly (s : Sfs) : Operation → Prop
  | .create _ _ _ => s.numOccupiedInodeBytemap = 5000
  | _ => False

instance (s : Sfs) : (op : Operation) → Decidable (op.ReturnsEarly s)
  | .create _ _ _ => inferInstanceAs (Decidable (_ = _))
  | .unlink | .opendir | .readdir _ _ | .releasedir => inferInstanceAs (Decidable False)

/-! ## Inode -1 -/

/-- The block of inode -1 is never found. -/
theorem getBlockByInodeNumb_minusOne : getBlockByInodeNumb u minusOne s = none := by
  have hnone : getBlockNumbfromInodeNumb minusOne = none := by
    rw [getBlockNumbfromInodeNumb_eq (by decide)]
    exact if_neg (by decide)
  rw [getBlockByInodeNumb, hnone]
  rfl

variable {m : ℕ} (hm : ∀ s, getBlockByInodeNumb u m s = none)

include hm

/-- `sfs_create` in a directory whose block is never found. -/
theorem sfsCreate_unresolved {i : ℕ} {fileMode now : ℕ} {rand : ℕ × ℕ}
    (hslash : lastSlash path path.length = some i)
    (hpath : getInodeNumbFromPath u (substring u path 0 i) s = some (m, s')) :
    sfsCreate u path fileMode rand now s =
      if s.numOccupiedInodeBytemap = 5000 then some (-1, s) else none := by
  unfold sfsCreate
  split
  · rfl
  · simp only [hslash, hpath, Option.bind_eq_bind, Option.bind_some, hm, Option.bind_none]

/-- `sfs_unlink` of a file whose block is never found. -/
theorem sfsUnlink_unresolved (hpath : getInodeNumbFromPath u path s = some (m, s')) :
    sfsUnlink u path s = none := by
  unfold sfsUnlink
  cases lastSlash path path.length with
  | none => rfl
  | some i =>
    simp only [hpath, Option.bind_eq_bind, Option.bind_some]
    cases getInodeNumbFromPath u (substring u path 0 i) s' with
    | none => rfl
    | some found => simp only [Option.bind_some, hm, Option.bind_none]

/-- `sfs_opendir` of a directory whose block is never found. -/
theorem sfsOpendir_unresolved (hpath : getInodeNumbFromPath u path s = some (m, s')) :
    sfsOpendir u path s = none := by
  simp only [sfsOpendir, hpath, Option.bind_eq_bind, Option.bind_some, hm, Option.bind_none]

/-- `sfs_readdir` of a directory whose block is never found. -/
theorem sfsReaddir_unresolved {β : Type} {filler : β → List UInt8 → ℕ → Bool × β} {buf : β}
    {offset : ℕ} (hpath : getInodeNumbFromPath u path s = some (m, s')) :
    sfsReaddir u filler path buf offset s = none := by
  simp only [sfsReaddir, hpath, Option.bind_eq_bind, Option.bind_some, hm, Option.bind_none]

/-- `sfs_releasedir` of a directory whose block is never found. -/
theorem sfsReleasedir_unresolved (hpath : getInodeNumbFromPath u path s = some (m, s')) :
    sfsReleasedir u path s = none := by
  simp only [sfsReleasedir, hpath, Option.bind_eq_bind, Option.bind_some, hm, Option.bind_none]

omit hm

/-- An operation that needs a path which does not exist returns only if it does before it
looks the path up. -/
theorem Operation.call_unresolved {op : Operation} (hpath : op.Unresolved u path s) :
    op.call u path s = if op.ReturnsEarly s then some (-1, s) else none := by
  obtain ⟨needed, s', hneeded, hlookup⟩ := hpath
  have hm (s : Sfs) : getBlockByInodeNumb u minusOne s = none := getBlockByInodeNumb_minusOne
  cases op with
  | create fileMode rand now =>
    obtain ⟨i, hslash, rfl⟩ := Option.map_eq_some_iff.mp hneeded
    exact sfsCreate_unresolved hm hslash hlookup
  | unlink =>
    obtain rfl := Option.some.inj hneeded
    exact sfsUnlink_unresolved hm hlookup
  | opendir =>
    obtain rfl := Option.some.inj hneeded
    exact sfsOpendir_unresolved hm hlookup
  | readdir capacity offset =>
    obtain rfl := Option.some.inj hneeded
    change Option.map _ (sfsReaddir _ _ _ _ _ _) = _
    rw [sfsReaddir_unresolved hm hlookup]
    rfl
  | releasedir =>
    obtain rfl := Option.some.inj hneeded
    exact sfsReleasedir_unresolved hm hlookup

/-- An operation on a path that does not exist is rejected cleanly exactly if it returns
before it looks the path up: `sfs_create` does when all inodes are taken. -/
theorem rejected_cleanly_iff (u : Unspecified) (path : List UInt8) (s : Sfs) (op : Operation)
    (hpath : op.Unresolved u path s) : op.RejectedCleanly u path s ↔ op.ReturnsEarly s := by
  unfold Operation.RejectedCleanly
  rw [Operation.call_unresolved hpath]
  constructor
  · rintro ⟨r, s', hcall, _⟩
    by_contra hearly
    rw [if_neg hearly] at hcall
    cases hcall
  · intro hearly
    exact ⟨-1, s, if_pos hearly, by decide, rfl⟩

/-! ## Runs on given inputs -/

/-- A lookup on the disk that gives -1. -/
theorem Operation.unresolved_of_lookup {op : Operation} {needed : List UInt8}
    (hs : s.errors = []) (hneeded : op.lookupPath u path = some needed)
    (hlookup : lookup s.disk (strtok needed) 0 = some minusOne) : op.Unresolved u path s := by
  refine ⟨needed, s, hneeded, ?_⟩
  rw [getInodeNumbFromPath_eq hs, hlookup]
  rfl

/-- The theorem for `sfs_create` of `/xy/z` when all inodes are taken. -/
theorem rejected_cleanly_full :
    (Operation.create 0 (0, 0) 0).RejectedCleanly
      { sampleUnspecified with around := fun _ => slash }
      (chars "/xy/z") ⟨mountedDisk, [], 5000, 0⟩ := by
  apply (rejected_cleanly_iff _ _ _ _ _).mpr
  · rfl
  · have hneeded : (Operation.create 0 (0, 0) 0).lookupPath
        { sampleUnspecified with around := fun _ => slash } (chars "/xy/z") =
          some (chars "//x") := by
      decide +kernel
    exact Operation.unresolved_of_lookup rfl hneeded (by decide +kernel)

/-- `sfs_opendir` of `/x` does not return, on a new file system. -/
theorem unresolved_not_rejected : ¬ ∀ (u : Unspecified) (path : List UInt8) (s : Sfs)
    (op : Operation), op.Unresolved u path s → op.RejectedCleanly u path s := by
  intro h
  have hpath : Operation.opendir.Unresolved sampleUnspecified (chars "/x") mounted :=
    Operation.unresolved_of_lookup rfl rfl (by decide +kernel)
  obtain ⟨r, s', hcall, _⟩ := h _ _ _ _ hpath
  rw [Operation.call_unresolved hpath] at hcall
  cases hcall

end SimpleOs.Files
