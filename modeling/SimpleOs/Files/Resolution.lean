import SimpleOs.Files.Errors
import SimpleOs.Files.Listing

/-!
# Path resolution

The components of a path are its pieces between separators that are not empty. A path is
followed from the root along the first entries with the names of the components. The code
does not ask whether an inode that it goes on from is a directory, so it takes the data
blocks of a file for inodes.
-/

namespace SimpleOs.Files

open Bytes Inode

variable {u : Unspecified} {s s' : Sfs} {disk : Memory} {path token str : List UInt8}
  {ts ts' : List (List UInt8)} {is : List ℕ} {ok ok' : ℕ → Prop} {n m q c r : ℕ}

/-! ## Components -/

/-- The components of a path: its maximal pieces without separators. -/
def components (path : List UInt8) : List (List UInt8) :=
  (path.splitOn slash).filter (· ≠ [])

/-- The tokens behind one that has begun. -/
theorem tokens_eq_splitOn : tokens token path =
    ((path.splitOn slash).modifyHead (token ++ ·)).filter (· ≠ []) := by
  have hid : (fun str : List UInt8 => [] ++ str) = id := rfl
  induction path generalizing token with
  | nil =>
    rw [tokens, List.splitOn_nil, List.modifyHead_cons, List.append_nil]
    by_cases hnil : token = []
    · rw [if_pos hnil, List.filter_cons_of_neg (by simpa using hnil), List.filter_nil]
    · rw [if_neg hnil, List.filter_cons_of_pos (by simpa using hnil), List.filter_nil]
  | cons x path ih =>
    rw [tokens, List.splitOn_cons_eq_if_modifyHead]
    by_cases hx : x = slash
    · have hsep : (x == slash) = true := by simpa using hx
      rw [if_pos hx, if_pos hsep, ih, hid, List.modifyHead_id, List.modifyHead_cons,
        List.append_nil]
      by_cases hnil : token = []
      · rw [if_pos hnil, List.filter_cons_of_neg (by simpa using hnil), List.nil_append]
        rfl
      · rw [if_neg hnil, List.filter_cons_of_pos (by simpa using hnil)]
        rfl
    · have hsep : ¬(x == slash) = true := by simpa using hx
      rw [if_neg hx, if_neg hsep, ih, List.modifyHead_modifyHead]
      congr 2
      funext str
      simp

/-- The tokens of a path are its components. -/
theorem strtok_eq_components : strtok path = components path := by
  have hid : (fun str : List UInt8 => [] ++ str) = id := rfl
  rw [strtok, tokens_eq_splitOn, hid, List.modifyHead_id]
  rfl

/-! ## Chains -/

/-- The entries of an inode before the first that is -1. -/
def entries (disk : Memory) (q : ℕ) : List ℕ :=
  ((List.range 10).map (entry disk q)).takeWhile (· ≠ minusOne)

/-- The first of these entries with a given name. -/
def firstNamed (disk : Memory) (q : ℕ) (token : List UInt8) : Option ℕ :=
  (entries disk q).find? fun c => nameOnDisk disk c = token

/-- A chain of inodes along the components of a path. The inodes that are stepped from
meet `ok`. -/
inductive Chain (disk : Memory) (ok : ℕ → Prop) : List (List UInt8) → ℕ → ℕ → Prop where
  /-- There are no components left. -/
  | nil (n : ℕ) : Chain disk ok [] n n
  /-- One step, to the first entry with the name. -/
  | cons {token : List UInt8} {ts : List (List UInt8)} {q c n : ℕ} (hok : ok q)
      (hstep : firstNamed disk q token = some c) (hrest : Chain disk ok ts c n) :
      Chain disk ok (token :: ts) q n

/-- The names match, whatever the inodes are. -/
abbrev NamesMatch (disk : Memory) : List (List UInt8) → ℕ → ℕ → Prop :=
  Chain disk fun _ => True

theorem Chain.mono (h : Chain disk ok ts q n) (hle : ∀ q, ok q → ok' q) :
    Chain disk ok' ts q n := by
  induction h with
  | nil n => exact .nil n
  | cons hok hstep _ ih => exact .cons (hle _ hok) hstep ih

/-- A chain along two lists of components is one along the first and then one along the second. -/
theorem chain_append :
    Chain disk ok (ts ++ ts') q n ↔ ∃ c, Chain disk ok ts q c ∧ Chain disk ok ts' c n := by
  constructor
  · intro h
    induction ts generalizing q with
    | nil => exact ⟨q, .nil q, h⟩
    | cons token ts ih =>
      cases h with
      | cons hok hstep hrest =>
        obtain ⟨c, hfirst, hlast⟩ := ih hrest
        exact ⟨c, .cons hok hstep hfirst, hlast⟩
  · rintro ⟨c, hfirst, hlast⟩
    induction hfirst with
    | nil n => exact hlast
    | cons hok hstep _ ih => exact .cons hok hstep (ih hlast)

/-- Two chains along the same tokens lead to the same inode. -/
theorem Chain.unique (h : Chain disk ok ts q n) (h' : Chain disk ok' ts q m) : n = m := by
  induction h with
  | nil n =>
    cases h'
    rfl
  | cons _ hstep _ ih =>
    cases h' with
    | cons _ hstep' hrest' =>
      obtain rfl := Option.some.inj (hstep.symm.trans hstep')
      exact ih hrest'

/-- A chain whose inodes meet a condition, in its parts. -/
theorem chain_iff (hmatch : NamesMatch disk ts q n) : Chain disk ok ts q n ↔
    ∀ front token back c, ts = front ++ token :: back → NamesMatch disk front q c → ok c := by
  constructor
  · rintro h front token back c rfl hfront
    obtain ⟨c', hfirst, hlast⟩ := chain_append.mp h
    obtain rfl := hfront.unique hfirst
    cases hlast with
    | cons hok _ _ => exact hok
  · intro h
    induction hmatch with
    | nil n => exact .nil n
    | @cons token ts q c n _ hstep _ ih =>
      refine .cons (h [] token ts q rfl (.nil q)) hstep
        (ih fun front token' back c' heq hfront => ?_)
      exact h (token :: front) token' back c' (by rw [heq]; rfl) (.cons trivial hstep hfront)

/-! ## The lookup on a well-formed disk -/

/-- Every entry of an inode is -1 or the number of an inode, and every name ends with a
zero. -/
structure WellFormed (disk : Memory) : Prop where
  /-- Every entry of an inode is -1 or the number of an inode. -/
  entry : ∀ n < 5000, ∀ i < 10, entry disk n i = minusOne ∨ entry disk n i < 5000
  /-- Every name has an end within its fifteen bytes. -/
  name : ∀ n < 5000, 0 ∈ nameOf disk (inodeAt n)

/-- A name with a zero is compared to its end. -/
theorem strcmp_cString (hstr : 0 ∈ str) (htoken : 0 ∉ token) :
    strcmp str token = some (decide (cString str = token)) := by
  obtain ⟨rest, hrest⟩ : ∃ rest, str = cString str ++ 0 :: rest := by
    have hsplit : cString str ++ str.dropWhile (· ≠ 0) = str := List.takeWhile_append_dropWhile
    rcases hdrop : str.dropWhile (· ≠ 0) with _ | ⟨x, rest⟩
    · rw [hdrop, List.append_nil] at hsplit
      rw [← hsplit] at hstr
      exact absurd hstr zero_not_mem_cString
    · have hfirst := List.head?_dropWhile_not (· ≠ 0) str
      rw [hdrop] at hfirst
      have hx : x = 0 := by simpa using hfirst
      rw [hdrop, hx] at hsplit
      exact ⟨rest, hsplit.symm⟩
  conv_lhs => rw [hrest]
  exact strcmp_terminated zero_not_mem_cString htoken

/-- The scan finds the first entry with the name. -/
theorem childOf_eq (hwf : WellFormed disk) (hq : q < 5000) (htoken : 0 ∉ token)
    (his : ∀ i ∈ is, i < 10) : childOf disk q token is =
      some (((is.map (entry disk q)).takeWhile (· ≠ minusOne)).find? fun c =>
        nameOnDisk disk c = token) := by
  induction is with
  | nil => rfl
  | cons i is ih =>
    rw [childOf, List.map_cons]
    by_cases hnone : entry disk q i = minusOne
    · rw [if_pos hnone, List.takeWhile_cons_of_neg (by simpa using hnone)]
      rfl
    · have hlt := (hwf.entry q hq i (his i List.mem_cons_self)).resolve_left hnone
      rw [if_neg hnone, if_pos (readable_of_lt hlt), strcmp_cString (hwf.name _ hlt) htoken,
        Option.bind_some, List.takeWhile_cons_of_pos (by simpa using hnone), List.find?_cons]
      by_cases hname : nameOnDisk disk (entry disk q i) = token
      · have hname' : cString (nameOf disk (inodeAt (entry disk q i))) = token := hname
        rw [decide_eq_true hname, decide_eq_true hname']
        rfl
      · have hname' : ¬cString (nameOf disk (inodeAt (entry disk q i))) = token := hname
        rw [decide_eq_false hname, decide_eq_false hname']
        exact ih fun i hi => his i (List.mem_cons_of_mem _ hi)

/-- On a well-formed disk the number that is found is one of an inode. -/
theorem firstNamed_lt (hwf : WellFormed disk) (hq : q < 5000)
    (h : firstNamed disk q token = some c) : c < 5000 := by
  have hmem := List.mem_of_find?_eq_some h
  have hne : c ≠ minusOne := by simpa using List.all_eq_true.mp List.all_takeWhile c hmem
  obtain ⟨i, hi, rfl⟩ := List.mem_map.mp ((List.takeWhile_sublist _).subset hmem)
  exact (hwf.entry q hq i (List.mem_range.mp hi)).resolve_left hne

/-- A lookup gives the end of a chain, or -1 if there is none. -/
theorem lookup_total (hwf : WellFormed disk) (hts : ∀ t ∈ ts, 0 ∉ t) (hq : q < 5000) :
    (∃ n < 5000, NamesMatch disk ts q n ∧ lookup disk ts q = some n) ∨
      (∀ n, ¬NamesMatch disk ts q n) ∧ lookup disk ts q = some minusOne := by
  induction ts generalizing q with
  | nil => exact Or.inl ⟨q, hq, .nil q, rfl⟩
  | cons token ts ih =>
    have hscan : childOf disk q token (List.range 10) = some (firstNamed disk q token) :=
      childOf_eq hwf hq (hts token List.mem_cons_self) fun i hi => List.mem_range.mp hi
    rw [lookup, if_pos (readable_of_lt hq), hscan, Option.bind_some]
    cases hfound : firstNamed disk q token with
    | none =>
      refine Or.inr ⟨fun n hmatch => ?_, rfl⟩
      cases hmatch with
      | cons _ hstep _ =>
        rw [hfound] at hstep
        cases hstep
    | some c =>
      rcases ih (fun t ht => hts t (List.mem_cons_of_mem _ ht)) (firstNamed_lt hwf hq hfound) with
        ⟨n, hn, hmatch, hlookup⟩ | ⟨hnone, hlookup⟩
      · exact Or.inl ⟨n, hn, .cons trivial hfound hmatch, hlookup⟩
      · refine Or.inr ⟨fun n hmatch => ?_, hlookup⟩
        cases hmatch with
        | cons _ hstep hrest =>
          obtain rfl := Option.some.inj (hfound.symm.trans hstep)
          exact hnone n hrest

/-! ## The result -/

/-- A result follows directories: it is not negative exactly if it is the end of a chain of
directories along the components of the path, and is -1 if there is none. -/
def FollowsDirectories (disk : Memory) (path : List UInt8) (r : ℕ) : Prop :=
  (∀ n < 2 ^ 31, r = n ↔ Chain disk (IsDirectory disk) (components path) 0 n) ∧
    ((∀ n, ¬Chain disk (IsDirectory disk) (components path) 0 n) → r = minusOne)

/-- If the names of all components match, every inode on the way but the last is a
directory. -/
def OnlyDirectories (disk : Memory) (path : List UInt8) : Prop :=
  ∀ front token back q n, components path = front ++ token :: back → NamesMatch disk front 0 q →
    NamesMatch disk (token :: back) q n → IsDirectory disk q

/-- What a lookup gives follows directories exactly if there are only directories on the
way. -/
theorem followsDirectories_iff (hwf : WellFormed disk) (hpath : 0 ∉ path)
    (hlookup : lookup disk (strtok path) 0 = some r) :
    FollowsDirectories disk path r ↔ OnlyDirectories disk path := by
  have htokens : ∀ t ∈ strtok path, 0 ∉ t := fun t ht => (strtok_tokens hpath t ht).2.2
  have hdirs (n : ℕ) (h : Chain disk (IsDirectory disk) (components path) 0 n) :
      NamesMatch disk (components path) 0 n := h.mono fun _ _ => trivial
  rcases lookup_total (q := 0) hwf htokens (by decide) with
    ⟨n, hn, hmatch, hfound⟩ | ⟨hnone, hfound⟩
  · obtain rfl := Option.some.inj (hlookup.symm.trans hfound)
    rw [strtok_eq_components] at hmatch
    constructor
    · intro h front token back q m hsplit hfront hback
      have hchain := (h.1 r (by omega)).mp rfl
      exact (chain_iff hmatch).mp hchain front token back q hsplit hfront
    · intro h
      have hchain : Chain disk (IsDirectory disk) (components path) 0 r := by
        refine (chain_iff hmatch).mpr fun front token back q hsplit hfront => ?_
        rw [hsplit] at hmatch
        obtain ⟨q', hfront', hback⟩ := chain_append.mp hmatch
        obtain rfl := hfront.unique hfront'
        exact h front token back q r hsplit hfront hback
      refine ⟨fun m _ => ⟨?_, fun h => hmatch.unique h⟩, fun hno => absurd hchain (hno r)⟩
      rintro rfl
      exact hchain
  · obtain rfl := Option.some.inj (hlookup.symm.trans hfound)
    rw [strtok_eq_components] at hnone
    constructor
    · intro _ front token back q m hsplit hfront hback
      exact absurd (hsplit ▸ chain_append.mpr ⟨q, hfront, hback⟩) (hnone m)
    · intro _
      refine ⟨fun m hm => ⟨?_, fun h => absurd (hdirs m h) (hnone m)⟩, fun _ => rfl⟩
      rintro rfl
      exact absurd hm (by decide)

/-- On a disk whose entries are -1 or numbers of inodes, and whose names end with a zero,
what `getInodeNumbFromPath` returns for a path follows directories exactly if there are only
directories on the way, with whatever errors. Without errors it returns. -/
theorem resolution_follows_directories_iff (u : Unspecified) (path : List UInt8) (s : Sfs)
    (hwf : WellFormed s.disk) (hpath : 0 ∉ path) :
    (∀ r s', getInodeNumbFromPath u path s = some (r, s') →
        (FollowsDirectories s.disk path r ↔ OnlyDirectories s.disk path)) ∧
      (s.errors = [] → ∃ r, getInodeNumbFromPath u path s = some (r, s)) := by
  constructor
  · intro r s' hrun
    have hrun' : getInodeNumbFromPath u path s.calm = some (r, s'.calm) := walk_calm hrun
    exact followsDirectories_iff hwf hpath (getInodeNumbFromPath_spec hrun' s.calm_errors).1
  · intro hs
    have htokens : ∀ t ∈ strtok path, 0 ∉ t := fun t ht => (strtok_tokens hpath t ht).2.2
    rw [getInodeNumbFromPath_eq hs]
    rcases lookup_total (q := 0) hwf htokens (by decide) with ⟨n, _, _, hfound⟩ | ⟨_, hfound⟩
    · exact ⟨n, by rw [hfound]; rfl⟩
    · exact ⟨minusOne, by rw [hfound]; rfl⟩

/-! ## Runs on given inputs -/

/-- The root with one entry, the file `f` with inode 4 and data block 7. Inode 7 has the
name `x`. -/
def fileOnWay : Memory := fun c =>
  if c = inodeAt 0 + state.offset then dir.toUInt8
  else if c = inodeAt 0 + (block_ptr 0).offset then 4
  else if c = inodeAt 4 + state.offset then file.toUInt8
  else if c = inodeAt 4 + name then 'f'.toUInt8
  else if c = inodeAt 4 + (block_ptr 0).offset then 7
  else if c = inodeAt 7 + name then 'x'.toUInt8
  else 0

/-- An inode of zeros is well-formed: its entries are 0 and its name is empty. -/
theorem wellFormed_zero (hzero : ∀ c, inodeAt n ≤ c → c < inodeAt n + Inode.size → disk c = 0) :
    (∀ i < 10, entry disk n i = minusOne ∨ entry disk n i < 5000) ∧
      0 ∈ nameOf disk (inodeAt n) := by
  constructor
  · intro i hi
    have hentry : entry disk n i = 0 := by
      apply load_zero
      intro c hc hlt
      apply hzero <;>
        · simp only [block_ptr, Inode.size] at *
          omega
    rw [hentry]
    exact Or.inr (by decide)
  · refine List.mem_map.mpr ⟨0, by decide, hzero _ (by omega) ?_⟩
    simp only [name, Inode.size]
    omega

theorem fileOnWay_wellFormed : WellFormed fileOnWay := by
  have hall : ∀ n < 5000, (∀ i < 10, entry fileOnWay n i = minusOne ∨ entry fileOnWay n i < 5000) ∧
      0 ∈ nameOf fileOnWay (inodeAt n) := by
    intro n hn
    by_cases hused : n = 0 ∨ n = 4 ∨ n = 7
    · rcases hused with rfl | rfl | rfl <;> decide +kernel
    · apply wellFormed_zero
      intro c hc hlt
      have hzero : inodeAt 0 = 10240 := by decide
      have hfour : inodeAt 4 = 10752 := by decide
      have hseven : inodeAt 7 = 11136 := by decide
      rw [inodeAt_eq (by omega)] at hc hlt
      simp only [Inode.size, BLOCK_SIZE] at hc hlt
      simp only [fileOnWay, hzero, hfour, hseven, state, name, block_ptr]
      repeat rw [if_neg (by omega)]
  exact ⟨fun n hn => (hall n hn).1, fun n hn => (hall n hn).2⟩

/-- The theorem for the file itself, whose directory is the root. -/
theorem resolution_follows_directories_file :
    FollowsDirectories fileOnWay (chars "/f") 4 := by
  have hcomponents : components (chars "/f") = [chars "f"] := by
    rw [← strtok_eq_components]
    decide +kernel
  have hrun : getInodeNumbFromPath sampleUnspecified (chars "/f") ⟨fileOnWay, [], 0, 0⟩ =
      some (4, ⟨fileOnWay, [], 0, 0⟩) := by
    have hlookup : lookup fileOnWay (strtok (chars "/f")) 0 = some 4 := by decide +kernel
    rw [getInodeNumbFromPath_eq rfl, hlookup]
    rfl
  apply ((resolution_follows_directories_iff sampleUnspecified (chars "/f")
    ⟨fileOnWay, [], 0, 0⟩ fileOnWay_wellFormed (by decide +kernel)).1 _ _ hrun).mpr
  intro front token back q n hsplit hfront _
  rw [hcomponents] at hsplit
  cases front with
  | nil =>
    cases hfront
    decide +kernel
  | cons t front =>
    have hlength := congrArg List.length hsplit
    simp at hlength

/-- The path `/f/x` leads through the file to inode 7. -/
theorem resolution_through_file : WellFormed fileOnWay ∧
    getInodeNumbFromPath sampleUnspecified (chars "/f/x") ⟨fileOnWay, [], 0, 0⟩ =
      some (7, ⟨fileOnWay, [], 0, 0⟩) ∧ ¬FollowsDirectories fileOnWay (chars "/f/x") 7 := by
  have hcomponents : components (chars "/f/x") = [chars "f", chars "x"] := by
    rw [← strtok_eq_components]
    decide +kernel
  refine ⟨fileOnWay_wellFormed, ?_, fun h => ?_⟩
  · have hlookup : lookup fileOnWay (strtok (chars "/f/x")) 0 = some 7 := by decide +kernel
    rw [getInodeNumbFromPath_eq rfl, hlookup]
    rfl
  · have hchain := (h.1 7 (by decide)).mp rfl
    rw [hcomponents] at hchain
    cases hchain with
    | cons _ hstep hrest =>
      have hfirst : firstNamed fileOnWay 0 (chars "f") = some 4 := by decide +kernel
      obtain rfl := Option.some.inj (hstep.symm.trans hfirst)
      cases hrest with
      | cons hdir _ _ => exact absurd hdir (by decide +kernel)

end SimpleOs.Files
