import SimpleOs.Files.Errors
import SimpleOs.Files.Listing
import SimpleOs.Files.Opening

/-!
# The directory that a listing opens

`sfs_readdir` opens a directory that is not open with the path that its own lookup has
left, in which a zero stands behind the first token. So it opens the first directory on
the path.
-/

namespace SimpleOs.Files

open Bytes Inode

variable {β : Type} {u : Unspecified} {s s' : Sfs} {disk : Memory} {path str : List UInt8}
  {ts : List (List UInt8)} {filler : β → List UInt8 → ℕ → Bool × β} {buf buf' : β}
  {n q c offset : ℕ} {r : ℤ}

/-! ## The path that is left -/

/-- Separators before a path do not matter. -/
theorem strtok_dropWhile : strtok (path.dropWhile (· = slash)) = strtok path := by
  induction path with
  | nil => rfl
  | cons x path ih =>
    by_cases hx : x = slash
    · rw [List.dropWhile_cons_of_pos (by simpa using hx), ih, hx, strtok_slash]
    · rw [List.dropWhile_cons_of_neg (by simpa using hx)]

/-- Separators before a path do not matter. -/
theorem strtok_append (hstr : ∀ x ∈ str, x = slash) : strtok (str ++ path) = strtok path := by
  induction str with
  | nil => rfl
  | cons x str ih =>
    rw [List.cons_append, hstr x List.mem_cons_self, strtok_slash]
    exact ih fun y hy => hstr y (List.mem_cons_of_mem _ hy)

/-- The first token of a path that begins with it. -/
theorem strtok_take_one (hne : str ≠ []) (hstr : slash ∉ str)
    (hpath : path = [] ∨ ∃ rest, path = slash :: rest) :
    (strtok (str ++ path)).take 1 = [str] := by
  have hbegun : strtok (str ++ path) = tokens str path := by
    rw [strtok, tokens_append hstr, List.nil_append]
  rw [hbegun]
  rcases hpath with rfl | ⟨rest, rfl⟩
  · rw [tokens, if_neg hne]
    rfl
  · rw [tokens, if_pos rfl, if_neg hne]
    rfl

/-- The path that `strtok` leaves has the first token of the path only. -/
theorem strtok_leaves : strtok (strtokLeaves path) = (strtok path).take 1 := by
  have hslashes : ∀ x ∈ path.takeWhile (· = slash), x = slash := by
    intro x hx
    simpa using List.all_eq_true.mp List.all_takeWhile x hx
  rw [strtokLeaves, strtok_append hslashes, ← @strtok_dropWhile path]
  have hhead : ∀ x ∈ (path.dropWhile (· = slash)).head?, x ≠ slash := by
    intro x hx
    have hfirst := List.head?_dropWhile_not (· = slash) path
    rw [Option.mem_def.mp hx] at hfirst
    simpa using hfirst
  generalize path.dropWhile (· = slash) = rest at hhead ⊢
  have hword : slash ∉ rest.takeWhile (· ≠ slash) := by
    intro h
    simpa using List.all_eq_true.mp List.all_takeWhile slash h
  have hsplit : rest.takeWhile (· ≠ slash) ++ rest.dropWhile (· ≠ slash) = rest :=
    List.takeWhile_append_dropWhile
  by_cases hnil : rest.takeWhile (· ≠ slash) = []
  · rcases rest with _ | ⟨x, rest⟩
    · rfl
    · have hx := hhead x rfl
      rw [List.takeWhile_cons_of_pos (by simpa using hx)] at hnil
      exact absurd hnil (by simp)
  · rw [strtok_word hnil hword]
    conv_rhs => rw [← hsplit]
    refine (strtok_take_one hnil hword ?_).symm
    rcases hrest : rest.dropWhile (· ≠ slash) with _ | ⟨x, tail⟩
    · exact Or.inl rfl
    · have hfirst := List.head?_dropWhile_not (· ≠ slash) rest
      rw [hrest] at hfirst
      have hx : x = slash := by simpa using hfirst
      exact Or.inr ⟨tail, by rw [hx]⟩

/-! ## Calls that return -/

/-- A directory that was opened or refused. -/
theorem sfsOpendir_calm (h : sfsOpendir u path s = some (r, s')) :
    sfsOpendir u path s.calm = some (r, s'.calm) := by
  unfold sfsOpendir at *
  obtain ⟨⟨m, s₁⟩, hpath, h⟩ := Option.bind_eq_some_iff.mp h
  obtain ⟨⟨temp, s₂⟩, hread, h⟩ := Option.bind_eq_some_iff.mp h
  obtain ⟨numb, hnumb, h⟩ := Option.bind_eq_some_iff.mp h
  have hpath' : getInodeNumbFromPath u path s.calm = some (m, s₁.calm) := walk_calm hpath
  simp only [hpath', getBlockByInodeNumb_calm hread, hnumb, Option.bind_eq_bind, Option.bind_some]
  split at h
  · exact absurd h (by simp)
  · rename_i s₃ hwrite
    obtain ⟨hr, rfl⟩ := Prod.mk.inj (Option.some.inj h)
    simp only [blockWrite_calm hwrite, ← hr]
    rfl

/-- The loop over the entries changes no byte of the disk. -/
theorem fillEntries_disk {dir : Memory} {a : ℕ} {is : List ℕ}
    (h : fillEntries u filler dir a is buf s = some (buf', s')) : s'.disk = s.disk := by
  induction is generalizing buf s with
  | nil =>
    obtain ⟨_, rfl⟩ := Prod.mk.inj (Option.some.inj h)
    rfl
  | cons i is ih =>
    rw [fillEntries] at h
    split at h
    · obtain ⟨_, rfl⟩ := Prod.mk.inj (Option.some.inj h)
      rfl
    · obtain ⟨⟨temp1, s₁⟩, hread, h⟩ := Option.bind_eq_some_iff.mp h
      obtain ⟨child_name, _, h⟩ := Option.bind_eq_some_iff.mp h
      obtain ⟨_, _, hcalm⟩ :=
        getBlockByInodeNumb_spec (getBlockByInodeNumb_calm hread) s.calm_errors block_ptr_lt
      have hsame : s₁.disk = s.disk := by simpa using congrArg Sfs.disk hcalm
      dsimp only at h
      split at h
      · obtain ⟨_, rfl⟩ := Prod.mk.inj (Option.some.inj h)
        exact hsame
      · exact (ih h).trans hsame

/-- A call for a directory that is not open ends with the disk that its call of
`sfs_opendir` leaves. -/
theorem readdir_disk (hrun : sfsReaddir u filler path buf offset s = some (r, buf', s'))
    (hlookup : lookup s.disk (strtok path) 0 = some n)
    (hflag : get s.disk (inodeAt n) flag ≠ opened) :
    ∃ r₁ s₁, sfsOpendir u (strtokLeaves path) s.calm = some (r₁, s₁) ∧ s'.disk = s₁.disk := by
  obtain ⟨⟨m, s₁⟩, hpath, hrun⟩ := Option.bind_eq_some_iff.mp hrun
  have hpath' : getInodeNumbFromPath u path s.calm = some (m, s₁.calm) := walk_calm hpath
  obtain ⟨hm, hlt, hsame⟩ := getInodeNumbFromPath_spec hpath' s.calm_errors
  obtain rfl := Option.some.inj (hlookup.symm.trans hm)
  obtain ⟨⟨temp, s₂⟩, hread, hrun⟩ := Option.bind_eq_some_iff.mp hrun
  obtain ⟨_, rfl, hsame'⟩ :=
    getBlockByInodeNumb_spec (getBlockByInodeNumb_calm hread) s₁.calm_errors hlt
  have hflag' : get (inodeBuffer u s₁.calm.disk n) (offsetInBlock n) flag ≠ opened := by
    rw [get_inodeBuffer (by decide), hsame]
    exact hflag
  simp only [if_pos hflag'] at hrun
  obtain ⟨⟨result, s₃⟩, hopen, hrun⟩ := Option.bind_eq_some_iff.mp hrun
  have hopen' := sfsOpendir_calm hopen
  rw [hsame', hsame] at hopen'
  refine ⟨result, s₃.calm, hopen', ?_⟩
  dsimp only at hrun
  split at hrun
  · obtain ⟨_, heq⟩ := Prod.mk.inj (Option.some.inj hrun)
    obtain ⟨_, rfl⟩ := Prod.mk.inj heq
    rfl
  · obtain ⟨⟨_, s₄⟩, hfill, hrun⟩ := Option.bind_eq_some_iff.mp hrun
    obtain ⟨_, heq⟩ := Prod.mk.inj (Option.some.inj hrun)
    obtain ⟨_, rfl⟩ := Prod.mk.inj heq
    have hkept := fillEntries_disk hfill
    exact hkept

/-! ## The directory that is opened -/

/-- Inodes that can be read are at different places. -/
theorem inodeAt_inj (hn : Readable n) (hq : Readable q) (h : inodeAt n = inodeAt q) : n = q := by
  unfold Readable at hn hq
  unfold inodeAt inodeBlock offsetInBlock Inode.size BLOCK_SIZE at h
  split at h <;> split at h <;> omega

/-- A path that leads to an inode has a first token that does. -/
theorem lookup_take_one (hn : Readable n) (hlookup : lookup disk ts 0 = some n) :
    ∃ c, lookup disk (ts.take 1) 0 = some c ∧ Readable c := by
  cases ts with
  | nil => exact ⟨0, rfl, by decide⟩
  | cons token ts =>
    obtain ⟨hroot, c, hchild, _⟩ := (lookup_cons_iff hn.ne_minusOne).mp hlookup
    have hc := (childOf_found hchild).1
    exact ⟨c, (lookup_cons_iff hc.ne_minusOne).mpr ⟨hroot, c, hchild, rfl⟩, hc⟩

/-- The flag of an inode says that it is open, and no byte of another inode has changed. -/
def OpensOnly (disk disk' : Memory) (n : ℕ) : Prop :=
  get disk' (inodeAt n) flag = opened ∧
    ∀ c, c < inodeAt n ∨ inodeAt n + Inode.size ≤ c → disk' c = disk c

/-- Another flag that is written is not that of the inode. -/
theorem get_setFlag_ne {v : ℕ} (hn : Readable n) (hq : Readable q) (hne : n ≠ q) :
    get (set disk (inodeAt q) flag v) (inodeAt n) flag = get disk (inodeAt n) flag := by
  have hplace : inodeAt n ≠ inodeAt q := fun h => hne (inodeAt_inj hn hq h)
  obtain ⟨x, hx⟩ := size_dvd_inodeAt n
  obtain ⟨y, hy⟩ := size_dvd_inodeAt q
  apply load_store_of_disjoint
  rw [hx, hy] at hplace ⊢
  simp only [flag, Inode.size] at *
  omega

/-- `sfs_opendir` with the path that is left returns, and opens the directory exactly if
the first token of the path leads to it. -/
theorem sfsOpendir_leaves (hs : s.errors = []) (hn : Readable n) (hopens : Opens s.disk n)
    (hlookup : lookup s.disk (strtok path) 0 = some n)
    (hflag : get s.disk (inodeAt n) flag ≠ opened) :
    ∃ r₁ s₁, sfsOpendir u (strtokLeaves path) s = some (r₁, s₁) ∧
      (OpensOnly s.disk s₁.disk n ↔ lookup s.disk ((strtok path).take 1) 0 = some n) := by
  obtain ⟨c, hc, hreadable⟩ := lookup_take_one hn hlookup
  have hopen := @sfsOpendir_eq u s (strtokLeaves path) c hs hreadable (by rw [strtok_leaves, hc])
  rw [hc, Option.some.injEq]
  by_cases hcn : c = n
  · rw [hcn, if_pos hopens] at hopen
    refine ⟨_, _, hopen, fun _ => hcn, fun _ => ⟨get_set_self, fun k hk => ?_⟩⟩
    apply set_apply
    simp only [flag, Inode.size] at *
    omega
  · have hkept : ∀ disk', disk' = s.disk ∨ disk' = set s.disk (inodeAt c) flag opened →
        ¬OpensOnly s.disk disk' n := by
      rintro disk' (rfl | rfl) ⟨hopened, _⟩
      · exact hflag hopened
      · rw [get_setFlag_ne hn hreadable (Ne.symm hcn)] at hopened
        exact hflag hopened
    by_cases hopens' : Opens s.disk c
    · rw [if_pos hopens'] at hopen
      exact ⟨_, _, hopen, fun h => (hkept _ (Or.inr rfl) h).elim, fun h => (hcn h).elim⟩
    · rw [if_neg hopens'] at hopen
      exact ⟨_, _, hopen, fun h => (hkept _ (Or.inl rfl) h).elim, fun h => (hcn h).elim⟩

/-- `sfs_readdir` on a path that leads to a directory that is not open and may be opened:
it is opened, and no other inode changed, exactly if the first token of the path leads to
it. So it is with every call that returns, and without errors also with the call of
`sfs_opendir` that is made, whether the listing then returns or not. -/
theorem readdir_opens_iff (u : Unspecified) (path : List UInt8) (s : Sfs) (n : ℕ)
    (hlookup : lookup s.disk (strtok path) 0 = some n) (hn : n ≠ minusOne)
    (hdir : IsDirectory s.disk n) (hflag : get s.disk (inodeAt n) flag ≠ opened)
    (hmode : readable (get s.disk (inodeAt n) mode)) :
    (∀ (β : Type) (filler : β → List UInt8 → ℕ → Bool × β) (buf buf' : β) (offset : ℕ) (r : ℤ)
      (s' : Sfs), sfsReaddir u filler path buf offset s = some (r, buf', s') →
        (OpensOnly s.disk s'.disk n ↔ lookup s.disk ((strtok path).take 1) 0 = some n)) ∧
      (s.errors = [] → ∃ r₁ s₁, sfsOpendir u (strtokLeaves path) s = some (r₁, s₁) ∧
        (OpensOnly s.disk s₁.disk n ↔ lookup s.disk ((strtok path).take 1) 0 = some n)) := by
  have hreadable := lookup_readable hlookup hn
  constructor
  · intro β filler buf buf' offset r s' hrun
    obtain ⟨r₁, s₁, hopen, hdisk⟩ := readdir_disk hrun hlookup hflag
    obtain ⟨r₂, s₂, hopen', hiff⟩ := @sfsOpendir_leaves u s.calm path n s.calm_errors hreadable
      ⟨hdir, hmode⟩ hlookup hflag
    obtain ⟨_, rfl⟩ := Prod.mk.inj (Option.some.inj (hopen.symm.trans hopen'))
    rw [hdisk]
    exact hiff
  · intro hs
    exact sfsOpendir_leaves hs hreadable ⟨hdir, hmode⟩ hlookup hflag

/-! ## Runs on given inputs -/

/-- The directories `/a` and `/a/b`, with inodes 4 and 8. -/
def nestedDisk : Memory :=
  let m := withDirectory (withDirectory mountedDisk 4 (chars "a")) 8 (chars "b")
  set (set m (inodeAt 0) (block_ptr 0) 4) (inodeAt 4) (block_ptr 0) 8

/-- The theorem for `/a`, which is listed and opened. -/
theorem readdir_opens_one : ∃ r buf s',
    sfsReaddir sampleUnspecified Buffer.filler (chars "/a") ⟨1, []⟩ 0 ⟨nestedDisk, [], 0, 0⟩ =
      some (r, buf, s') ∧ OpensOnly nestedDisk s'.disk 4 := by
  have hrun : (sfsReaddir sampleUnspecified Buffer.filler (chars "/a") ⟨1, []⟩ 0
      ⟨nestedDisk, [], 0, 0⟩).map Prod.fst = some 0 := by
    decide +kernel
  obtain ⟨⟨r, buf, s'⟩, hs', _⟩ := Option.map_eq_some_iff.mp hrun
  refine ⟨r, buf, s', hs', ((readdir_opens_iff sampleUnspecified (chars "/a")
    ⟨nestedDisk, [], 0, 0⟩ 4 (by decide +kernel) (by decide) (by decide +kernel)
    (by decide +kernel) (by decide +kernel)).1 _ _ _ _ _ _ _ hs').mpr ?_⟩
  decide +kernel

/-- A listing of `/a/b` succeeds and opens `/a` in its place. -/
theorem readdir_opens_first :
    lookup nestedDisk (strtok (chars "/a/b")) 0 = some 8 ∧ IsDirectory nestedDisk 8 ∧
      get nestedDisk (inodeAt 8) flag ≠ opened ∧ readable (get nestedDisk (inodeAt 8) mode) ∧
      ∃ buf s', sfsReaddir sampleUnspecified Buffer.filler (chars "/a/b") ⟨1, []⟩ 0
          ⟨nestedDisk, [], 0, 0⟩ = some (0, buf, s') ∧
        get s'.disk (inodeAt 4) flag = opened ∧ ¬OpensOnly nestedDisk s'.disk 8 := by
  refine ⟨by decide +kernel, by decide +kernel, by decide +kernel, by decide +kernel, ?_⟩
  have hrun : (sfsReaddir sampleUnspecified Buffer.filler (chars "/a/b") ⟨1, []⟩ 0
      ⟨nestedDisk, [], 0, 0⟩).map (fun r =>
        (r.1, get r.2.2.disk (inodeAt 4) flag, get r.2.2.disk (inodeAt 8) flag)) =
      some (0, opened, 0) := by
    decide +kernel
  obtain ⟨⟨r, buf, s'⟩, hs', heq⟩ := Option.map_eq_some_iff.mp hrun
  obtain ⟨rfl, heq⟩ := Prod.mk.inj heq
  obtain ⟨hfirst, hlast⟩ := Prod.mk.inj heq
  dsimp only at hfirst hlast
  refine ⟨buf, s', hs', hfirst, fun hopens => ?_⟩
  rw [hopens.1] at hlast
  exact absurd hlast (by decide)

end SimpleOs.Files
