import SimpleOs.Files.Directories
import SimpleOs.Files.Lookup

/-!
# Listing a directory

`sfs_readdir` passes the entries of a directory to a function of the caller until that
function refuses one. It begins with the first entry in every call, so a caller that
follows the offsets gets the same entries again and again.
-/

namespace SimpleOs.Files

open Bytes Inode

variable {β : Type} {u : Unspecified} {s s' : Sfs} {disk : Memory} {path : List UInt8}
  {n : ℕ} {r : ℤ}

/-! ## Reading a directory -/

/-- The path that is left when `strtok` has gone through it: the first token ends it. -/
def strtokLeaves (path : List UInt8) : List UInt8 :=
  path.takeWhile (· = slash) ++ (path.dropWhile (· = slash)).takeWhile (· ≠ slash)

/-- The name of an inode as a string. Without a zero it goes on behind the array, with no
defined end. -/
def nameString (buf : Memory) (a : ℕ) : Option (List UInt8) :=
  if 0 ∈ nameOf buf a then some (cString (nameOf buf a)) else none

/-- The loop over the entries of a directory. The caller's function gets a name and an
offset, and says whether it refuses them. -/
def fillEntries (u : Unspecified) (filler : β → List UInt8 → ℕ → Bool × β) (dir : Memory)
    (a : ℕ) : List ℕ → β → Sfs → Option (β × Sfs)
  | [], buf, s => some (buf, s)
  | i :: is, buf, s => do
    if get dir a (block_ptr i) = minusOne then return (buf, s)
    let child_inumb := get dir a (block_ptr i)
    let (temp1, s) ← getBlockByInodeNumb u child_inumb s
    let child_name ← nameString temp1 (offsetInBlock child_inumb)
    let next_offset :=
      if i = 9 ∨ get dir a (block_ptr (i + 1)) = minusOne then minusOne
      else get dir a (block_ptr (i + 1))
    match filler buf child_name next_offset with
    | (true, buf) => return (buf, s)
    | (false, buf) => fillEntries u filler dir a is buf s

/-- `sfs_readdir`. The offset is not used. -/
def sfsReaddir (u : Unspecified) (filler : β → List UInt8 → ℕ → Bool × β) (path : List UInt8)
    (buf : β) (_offset : ℕ) (s : Sfs) : Option (ℤ × β × Sfs) := do
  let (correct_inumb, s) ← getInodeNumbFromPath u path s
  let offset_in_block := offsetInBlock correct_inumb
  let (temp, s) ← getBlockByInodeNumb u correct_inumb s
  let (result, s) ←
    if get temp offset_in_block flag ≠ opened then sfsOpendir u (strtokLeaves path) s
    else some (0, s)
  if result = -1 then return (-1, buf, s)
  let (buf, s) ← fillEntries u filler temp offset_in_block (List.range 10) buf s
  return (0, buf, s)

/-! ## The caller -/

/-- A buffer of the caller for names and offsets. -/
structure Buffer where
  /-- How many entries fit in the buffer. -/
  capacity : ℕ
  /-- The entries that were accepted. -/
  entries : List (List UInt8 × ℕ)

/-- The function of the caller. It refuses an entry when the buffer is full. -/
def Buffer.filler (buf : Buffer) (name : List UInt8) (next_offset : ℕ) : Bool × Buffer :=
  if buf.entries.length < buf.capacity then
    (false, { buf with entries := buf.entries ++ [(name, next_offset)] })
  else (true, buf)

/-- The calls of a caller that lists a directory, from call `k` on, which has a buffer for
`capacity k` entries. The next call gets the offset of the last entry accepted. The calls
end with one that adds no entry. -/
def listing (u : Unspecified) (path : List UInt8) (capacity : ℕ → ℕ) :
    ℕ → ℕ → ℕ → Sfs → Option (List (List UInt8))
  | 0, _, _, _ => none
  | fuel + 1, k, offset, s => do
    let (_, buf, s) ← sfsReaddir u Buffer.filler path ⟨capacity k, []⟩ offset s
    match buf.entries.getLast? with
    | none => return []
    | some (_, next) =>
      let rest ← listing u path capacity fuel (k + 1) next s
      return buf.entries.map Prod.fst ++ rest

/-! ## What a call lists -/

/-- The entries of a directory before the first that is -1. -/
def slots (disk : Memory) (n : ℕ) (is : List ℕ) : List ℕ :=
  is.takeWhile fun i => entry disk n i ≠ minusOne

/-- The offset that comes with an entry. -/
def nextOffset (disk : Memory) (n i : ℕ) : ℕ :=
  if i = 9 ∨ entry disk n (i + 1) = minusOne then minusOne else entry disk n (i + 1)

/-- The name of an inode on the disk. -/
def nameOnDisk (disk : Memory) (n : ℕ) : List UInt8 := cString (nameOf disk (inodeAt n))

/-- What a listing of some of the entries shows. -/
def listed (disk : Memory) (n : ℕ) (is : List ℕ) : List (List UInt8 × ℕ) :=
  (slots disk n is).map fun i => (nameOnDisk disk (entry disk n i), nextOffset disk n i)

/-- The loop over the entries fills the rest of the buffer with the first of them. -/
theorem fillEntries_spec {a : ℕ} {dir : Memory} {is : List ℕ} {buf buf' : Buffer}
    (hrun : fillEntries u Buffer.filler dir a is buf s = some (buf', s')) (hs : s.errors = [])
    (hdir : ∀ i ≤ 10, get dir a (block_ptr i) = entry s.disk n i) (his : ∀ i ∈ is, i < 10) :
    s' = s ∧ buf'.entries = buf.entries ++
      (listed s.disk n is).take (buf.capacity - buf.entries.length) := by
  induction is generalizing buf with
  | nil =>
    obtain ⟨rfl, rfl⟩ := Prod.mk.inj (Option.some.inj hrun)
    simp [listed, slots]
  | cons i is ih =>
    have hi := his i List.mem_cons_self
    rw [fillEntries, hdir i (by omega), hdir (i + 1) (by omega)] at hrun
    split at hrun
    · rename_i hnone
      obtain ⟨rfl, rfl⟩ := Prod.mk.inj (Option.some.inj hrun)
      simp [listed, slots, hnone]
    · rename_i hsome
      obtain ⟨⟨temp1, s₁⟩, hread, hrun⟩ := Option.bind_eq_some_iff.mp hrun
      obtain ⟨_, rfl, hsame⟩ := getBlockByInodeNumb_spec hread hs block_ptr_lt
      rw [hsame] at hrun
      obtain ⟨child_name, hname, hrun⟩ := Option.bind_eq_some_iff.mp hrun
      have hchild : child_name = nameOnDisk s.disk (entry s.disk n i) := by
        rw [nameString, nameOf_inodeBuffer] at hname
        split at hname
        · exact (Option.some.inj hname).symm
        · exact absurd hname (by simp)
      have hlisted : listed s.disk n (i :: is) =
          (child_name, nextOffset s.disk n i) :: listed s.disk n is := by
        simp [listed, slots, hsome, hchild]
      rw [hlisted]
      by_cases hroom : buf.entries.length < buf.capacity
      · simp only [Buffer.filler, if_pos hroom] at hrun
        obtain ⟨rfl, hentries⟩ := ih hrun fun i hi => his i (List.mem_cons_of_mem _ hi)
        obtain ⟨k, hk⟩ : ∃ k, buf.capacity - buf.entries.length = k + 1 :=
          ⟨buf.capacity - buf.entries.length - 1, by omega⟩
        have hk' : buf.capacity - (buf.entries.length + 1) = k := by omega
        refine ⟨rfl, ?_⟩
        rw [hentries, hk, List.take_succ_cons, List.length_append, List.length_singleton, hk',
          List.append_assoc]
        rfl
      · simp only [Buffer.filler, if_neg hroom] at hrun
        obtain ⟨rfl, rfl⟩ := Prod.mk.inj (Option.some.inj hrun)
        rw [Nat.sub_eq_zero_of_le (Nat.not_lt.mp hroom), List.take_zero, List.append_nil]
        exact ⟨rfl, rfl⟩

/-- A call that returns for an open directory lists its first entries, whatever the
offset. -/
theorem readdir_spec {k offset : ℕ} {buf : Buffer}
    (hrun : sfsReaddir u Buffer.filler path ⟨k, []⟩ offset s = some (r, buf, s'))
    (hs : s.errors = []) (hlookup : lookup s.disk (strtok path) 0 = some n)
    (hopen : get s.disk (inodeAt n) flag = opened) :
    r = 0 ∧ s' = s ∧ buf.entries = (listed s.disk n (List.range 10)).take k := by
  obtain ⟨⟨m, s₁⟩, hpath, hrun⟩ := Option.bind_eq_some_iff.mp hrun
  obtain ⟨hm, hlt, hsame⟩ := getInodeNumbFromPath_spec hpath hs
  obtain rfl := Option.some.inj (hlookup.symm.trans hm)
  rw [hsame] at hrun
  obtain ⟨⟨temp, s₂⟩, hread, hrun⟩ := Option.bind_eq_some_iff.mp hrun
  obtain ⟨_, rfl, hsame⟩ := getBlockByInodeNumb_spec hread hs hlt
  have hflag : Bytes.get (inodeBuffer u s.disk n) (offsetInBlock n) flag = opened := by
    rw [get_inodeBuffer (by decide), hopen]
  simp only [hsame, hflag, ne_eq, not_true_eq_false, if_false, Option.bind_eq_bind,
    Option.bind_some] at hrun
  obtain ⟨⟨buf₁, s₃⟩, hfill, hrun⟩ := Option.bind_eq_some_iff.mp hrun
  obtain ⟨hr, hresult⟩ := Prod.mk.inj (Option.some.inj hrun)
  obtain ⟨rfl, rfl⟩ := Prod.mk.inj hresult
  obtain ⟨rfl, hentries⟩ := fillEntries_spec hfill hs
    (fun i hi => get_inodeBuffer (by simp only [block_ptr, Inode.size]; omega))
    (fun i hi => List.mem_range.mp hi)
  refine ⟨hr.symm, rfl, ?_⟩
  simpa using hentries

/-! ## What a caller gets -/

/-- The children of a directory. -/
def children (disk : Memory) (n : ℕ) : List ℕ :=
  ((List.range 10).map (entry disk n)).filter (· ≠ minusOne)

/-- A list in which `p` holds of a prefix. -/
theorem takeWhile_eq_filter {α : Type} {p : α → Bool} {l : List α}
    (h : l.Pairwise fun a b => p b → p a) : l.takeWhile p = l.filter p := by
  induction l with
  | nil => rfl
  | cons a l ih =>
    obtain ⟨ha, hl⟩ := List.pairwise_cons.mp h
    by_cases hp : p a
    · rw [List.takeWhile_cons_of_pos hp, List.filter_cons_of_pos hp, ih hl]
    · rw [List.takeWhile_cons_of_neg hp, List.filter_cons_of_neg hp, List.filter_eq_nil_iff.mpr]
      intro b hb hpb
      exact hp (ha b hb hpb)

/-- The children of a packed directory are the entries that are listed. -/
theorem children_eq (h : Packed disk n) :
    children disk n = (slots disk n (List.range 10)).map (entry disk n) := by
  have hprefix : (List.range 10).Pairwise fun i j =>
      decide (entry disk n j ≠ minusOne) → decide (entry disk n i ≠ minusOne) := by
    refine List.pairwise_lt_range.imp_of_mem fun {i j} _ hj hlt hentry => ?_
    simp only [decide_eq_true_eq] at *
    exact h j (List.mem_range.mp hj) hentry i hlt
  unfold slots
  rw [takeWhile_eq_filter hprefix, children, List.filter_map]
  rfl

/-- With room for all children one call lists each child's name once. -/
theorem readdir_complete {k offset : ℕ} {buf : Buffer}
    (hrun : sfsReaddir u Buffer.filler path ⟨k, []⟩ offset s = some (r, buf, s'))
    (hs : s.errors = []) (hlookup : lookup s.disk (strtok path) 0 = some n)
    (hopen : get s.disk (inodeAt n) flag = opened) (hpacked : Packed s.disk n)
    (hk : (children s.disk n).length ≤ k) :
    buf.entries.map Prod.fst = (children s.disk n).map (nameOnDisk s.disk) := by
  have hslots := children_eq hpacked
  rw [hslots, List.length_map] at hk
  rw [(readdir_spec hrun hs hlookup hopen).2.2, hslots, List.take_of_length_le (by simpa [listed]),
    listed, List.map_map, List.map_map]
  rfl

/-- A caller of a directory with children never gets to the end: no call writes, and
every call begins with the first child. -/
theorem listing_none {capacity : ℕ → ℕ} {fuel k offset : ℕ} (hs : s.errors = [])
    (hlookup : lookup s.disk (strtok path) 0 = some n)
    (hopen : get s.disk (inodeAt n) flag = opened) (hpacked : Packed s.disk n)
    (hchildren : children s.disk n ≠ []) (hcapacity : ∀ k, 0 < capacity k) :
    listing u path capacity fuel k offset s = none := by
  induction fuel generalizing k offset with
  | zero => rfl
  | succ fuel ih =>
    rw [listing]
    rcases hrun : sfsReaddir u Buffer.filler path ⟨capacity k, []⟩ offset s with _ | ⟨r, buf, s'⟩
    · rfl
    · obtain ⟨_, rfl, hentries⟩ := readdir_spec hrun hs hlookup hopen
      have hne : buf.entries ≠ [] := by
        rw [hentries, ne_eq, List.take_eq_nil_iff, not_or]
        refine ⟨(hcapacity k).ne', fun hnil => hchildren ?_⟩
        rw [children_eq hpacked, List.map_eq_nil_iff]
        exact List.map_eq_nil_iff.mp hnil
      obtain ⟨⟨name, next⟩, hlast⟩ := Option.ne_none_iff_exists'.mp
        (List.getLast?_eq_none_iff.not.mpr hne)
      simp only [Option.bind_eq_bind, Option.bind_some, hlast, ih, Option.bind_none]

/-- The inode at the end of a path can be read. -/
theorem lookup_readable (hlookup : lookup disk (strtok path) 0 = some n) (hn : n ≠ minusOne) :
    Readable n := by
  rcases List.eq_nil_or_concat (strtok path) with hnil | ⟨ts, token, hts⟩
  · rw [hnil] at hlookup
    obtain rfl := Option.some.inj hlookup
    decide
  · rw [hts, List.concat_eq_append] at hlookup
    obtain ⟨q, _, _, hchild⟩ := (lookup_concat hn).mp hlookup
    exact (childOf_range hchild).1

/-- A directory without children is listed in one call. -/
theorem listing_nil {capacity : ℕ → ℕ} {k offset : ℕ} (hs : s.errors = [])
    (hlookup : lookup s.disk (strtok path) 0 = some n) (hn : n ≠ minusOne)
    (hopen : get s.disk (inodeAt n) flag = opened) (hchildren : children s.disk n = []) :
    listing u path capacity 1 k offset s = some [] := by
  have hreadable := lookup_readable hlookup hn
  have hlt := lookup_lt (by decide) hlookup
  have hflag : Bytes.get (inodeBuffer u s.disk n) (offsetInBlock n) flag = opened := by
    rw [get_inodeBuffer (by decide), hopen]
  have hfirst : Bytes.get (inodeBuffer u s.disk n) (offsetInBlock n) (block_ptr 0) = minusOne := by
    rw [get_inodeBuffer (by decide)]
    by_contra hne
    have hmem : entry s.disk n 0 ∈ children s.disk n :=
      List.mem_filter.mpr ⟨List.mem_map_of_mem (by decide), decide_eq_true hne⟩
    rw [hchildren] at hmem
    exact List.not_mem_nil hmem
  have hfill (buf : Buffer) : fillEntries u Buffer.filler (inodeBuffer u s.disk n)
      (offsetInBlock n) (List.range 10) buf s = some (buf, s) := by
    change fillEntries u Buffer.filler _ _ (0 :: (List.range 9).map (· + 1)) buf s = _
    rw [fillEntries, if_pos hfirst]
    rfl
  have hread : sfsReaddir u Buffer.filler path ⟨capacity k, []⟩ offset s =
      some (0, ⟨capacity k, []⟩, s) := by
    simp only [sfsReaddir, getInodeNumbFromPath_eq hs, hlookup, Option.map_some,
      Option.bind_eq_bind, Option.bind_some, getBlockByInodeNumb_eq hs hlt, if_pos hreadable,
      hflag, ne_eq, not_true_eq_false, if_false, hfill]
    rfl
  rw [listing, hread]
  rfl

/-- For every open directory whose children fill a prefix of its entries, and buffers for
at least one entry each, the calls of the caller end with each child's name once exactly
if there are no children. -/
theorem listing_complete_iff (u : Unspecified) (path : List UInt8) (capacity : ℕ → ℕ) (s : Sfs)
    (n : ℕ) (hs : s.errors = []) (hlookup : lookup s.disk (strtok path) 0 = some n)
    (hn : n ≠ minusOne) (hopen : get s.disk (inodeAt n) flag = opened)
    (hpacked : Packed s.disk n) (hcapacity : ∀ k, 0 < capacity k) :
    (∃ fuel names, listing u path capacity fuel 0 0 s = some names ∧
        names.Perm ((children s.disk n).map (nameOnDisk s.disk))) ↔
      children s.disk n = [] := by
  constructor
  · rintro ⟨fuel, names, hrun, _⟩
    by_contra hchildren
    rw [listing_none hs hlookup hopen hpacked hchildren hcapacity] at hrun
    cases hrun
  · intro hchildren
    refine ⟨1, [], listing_nil hs hlookup hn hopen hchildren, ?_⟩
    rw [hchildren]
    exact List.Perm.nil

/-! ## Runs on given inputs -/

/-- The disk with the root open. -/
def openRoot (disk : Memory) : Memory := set disk (inodeAt 0) flag opened

/-- The theorem for the root of a new file system, and buffers for one entry. -/
theorem listing_complete_mounted : ∃ fuel names,
    listing sampleUnspecified (chars "/") (fun _ => 1) fuel 0 0 ⟨openRoot mountedDisk, [], 0, 0⟩ =
        some names ∧
      names.Perm ((children (openRoot mountedDisk) 0).map (nameOnDisk (openRoot mountedDisk))) :=
  (listing_complete_iff sampleUnspecified (chars "/") (fun _ => 1) _ 0 rfl (by decide +kernel)
    (by decide) (by decide +kernel) (by decide +kernel) fun _ => by decide).mpr (by decide +kernel)

/-- The root with one file, and buffers for one entry: the calls go on for ever. -/
theorem listing_repeats : ¬ ∀ (u : Unspecified) (path : List UInt8) (capacity : ℕ → ℕ) (s : Sfs)
    (n : ℕ), s.errors = [] → lookup s.disk (strtok path) 0 = some n → n ≠ minusOne →
    IsDirectory s.disk n → get s.disk (inodeAt n) flag = opened → Packed s.disk n →
    (∀ k, 0 < capacity k) → ∃ fuel names, listing u path capacity fuel 0 0 s = some names ∧
      names.Perm ((children s.disk n).map (nameOnDisk s.disk)) := by
  intro h
  obtain ⟨fuel, names, hrun, _⟩ := h sampleUnspecified (chars "/") (fun _ => 1)
    ⟨openRoot (fileDisk 4 7), [], 0, 0⟩ 0 rfl (by decide +kernel) (by decide) (by decide +kernel)
    (by decide +kernel) (by decide +kernel) fun _ => by decide
  rw [listing_none (n := 0) rfl (by decide +kernel) (by decide +kernel) (by decide +kernel)
    (by decide +kernel) fun _ => by decide] at hrun
  cases hrun

end SimpleOs.Files
