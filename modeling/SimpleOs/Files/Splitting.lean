import SimpleOs.Files.Lookup

/-!
# The parts of a path

`sfs_create` and `sfs_unlink` split a path at its last `/`. They give `substring` positions
that are counted from 0, and `substring` counts from 1.
-/

namespace SimpleOs.Files

open Bytes

variable {u : Unspecified} {disk : Memory} {path newFile t string : List UInt8}
  {ts : List (List UInt8)} {rand : ℕ × ℕ} {d o m b j n i position length : ℕ}

/-- `newFile` and `originalPath` in `sfs_create`. -/
def createSplit (u : Unspecified) (path : List UInt8) : Option (List UInt8 × List UInt8) := do
  let i ← lastSlash path path.length
  let newFile := substring u path (i + 1) (path.length - 1)
  let originalPath := substring u path 0 i
  return (newFile, originalPath)

/-- The path of the directory that `sfs_unlink` takes from its argument, `dirPath`. -/
def unlinkSplit (u : Unspecified) (path : List UInt8) : Option (List UInt8) := do
  let i ← lastSlash path path.length
  return substring u path 0 i

/-- The positions at which `substring` reads the string. -/
def substringReads (position length : ℕ) : List ℤ :=
  (List.range length).map fun (c : ℕ) => (c : ℤ) + position - 1

/-- The positions that are read in `sfs_create`. -/
def createReads (path : List UInt8) : Option (List ℤ) := do
  let i ← lastSlash path path.length
  return substringReads (i + 1) (path.length - 1) ++ substringReads 0 i

/-- The positions that are read in `sfs_unlink`. -/
def unlinkReads (path : List UInt8) : Option (List ℤ) := do
  let i ← lastSlash path path.length
  return substringReads 0 i

/-- These are positions of the path, or that of the zero behind it. -/
def ReadsInside (path : List UInt8) (reads : Option (List ℤ)) : Prop :=
  ∃ ks, reads = some ks ∧ ∀ k ∈ ks, 0 ≤ k ∧ k ≤ path.length

/-- The path of the directory with these names. The root may be given by `/`. -/
def IsParent (ts : List (List UInt8)) (parent : List UInt8) : Prop :=
  parent = pathOf ts ∨ ts = [] ∧ parent = [slash]

/-- The path that ends with the name `t` is split into it and the path of its directory,
and only characters of the path are read. -/
structure SplitsRight (u : Unspecified) (ts : List (List UInt8)) (t : List UInt8) : Prop where
  /-- `sfs_create` gets the name of the file and a path of its parent. -/
  create : ∃ originalPath, createSplit u (pathOf (ts ++ [t])) = some (t, originalPath) ∧
    IsParent ts originalPath
  /-- `sfs_unlink` gets a path of the parent of the file. -/
  unlink : ∃ dirPath, unlinkSplit u (pathOf (ts ++ [t])) = some dirPath ∧ IsParent ts dirPath
  /-- All positions that `sfs_create` reads are inside of the string. -/
  create_inside : ReadsInside (pathOf (ts ++ [t])) (createReads (pathOf (ts ++ [t])))
  /-- All positions that `sfs_unlink` reads are inside of the string. -/
  unlink_inside : ReadsInside (pathOf (ts ++ [t])) (unlinkReads (pathOf (ts ++ [t])))

/-! ## The parts in the calls -/

/-- The characters at these positions are what `substring` copies. -/
theorem substring_eq_reads :
    substring u string position length =
      cString ((substringReads position length).map (charAt u string)) := by
  rw [substring, substringReads, List.map_map]
  rfl

/-- A call of `sfs_create` that succeeds stores the new file and looks the directory up. -/
theorem Creates.parts (h : Creates u path rand disk newFile d o m b) :
    ∃ originalPath, createSplit u path = some (newFile, originalPath) ∧
      lookup disk (strtok originalPath) 0 = some d := by
  obtain ⟨i, hi, rfl, hd⟩ := h.split
  refine ⟨_, ?_, hd⟩
  rw [createSplit, hi]
  rfl

/-- A call of `sfs_unlink` that succeeds looks the directory up. -/
theorem Unlinks.parts (h : Unlinks u path disk d j n) :
    ∃ dirPath, unlinkSplit u path = some dirPath ∧
      lookup disk (strtok dirPath) 0 = some d := by
  obtain ⟨i, hi, hd⟩ := h.directory
  refine ⟨_, ?_, hd⟩
  rw [unlinkSplit, hi]
  rfl

/-! ## The directory -/

/-- A path ends with its last name. -/
theorem pathOf_append : pathOf (ts ++ [t]) = pathOf ts ++ slash :: t := by
  simp [pathOf]

/-- The last `/` is in front of the last name. -/
theorem lastSlash_pathOf (ht : slash ∉ t) :
    lastSlash (pathOf (ts ++ [t])) (pathOf (ts ++ [t])).length = some (pathOf ts).length := by
  have hlength : (pathOf ts ++ slash :: t).length = (pathOf ts).length + 1 + t.length := by
    rw [List.length_append, List.length_cons]
    omega
  rw [pathOf_append, hlength]
  exact lastSlash_append ht le_rfl

/-- A path with a name begins with `/` and the first character of the name. -/
theorem pathOf_cons_cons (hts : ∀ t ∈ ts, IsName t) (hne : ts ≠ []) :
    ∃ x rest, pathOf ts = slash :: x :: rest ∧ x ≠ slash := by
  cases ts with
  | nil => exact absurd rfl hne
  | cons t ts =>
    obtain ⟨hname, hslash, _⟩ := hts t List.mem_cons_self
    cases t with
    | nil => exact absurd rfl hname
    | cons x t =>
      refine ⟨x, t ++ pathOf ts, rfl, fun h => hslash ?_⟩
      rw [h]
      exact List.mem_cons_self

/-- From position 0 on, the first character is read in front of the string. -/
theorem substring_zero_succ :
    substring u string 0 (length + 1) = [] ∨
      substring u string 0 (length + 1) = u.around (-1) :: substring u string 1 length := by
  have hfirst : charAt u string (((0 : ℕ) : ℤ) - 1) = u.around (-1) := by
    rw [charAt, if_neg (by omega), if_neg (by omega)]
    rfl
  rw [substring_step, hfirst]
  split
  · exact Or.inl rfl
  · exact Or.inr rfl

/-- What is copied from position 0 on is the path of the directory for the root only. -/
theorem substring_isParent_iff (hts : ∀ t ∈ ts, IsName t) (hpath : 0 ∉ pathOf ts ++ string) :
    IsParent ts (substring u (pathOf ts ++ string) 0 (pathOf ts).length) ↔ ts = [] := by
  constructor
  · intro hparent
    by_contra hne
    obtain ⟨x, rest, hpathOf, hx⟩ := pathOf_cons_cons hts hne
    have hcopied : substring u (pathOf ts ++ string) 1 (rest.length + 1) =
        slash :: (x :: (rest ++ string)).take rest.length := by
      have hdrop : substring u _ (0 + 1) (rest.length + 1) = _ :=
        substring_succ hpath (Nat.zero_le _)
      rw [hdrop, hpathOf]
      rfl
    have hlength : (pathOf ts).length = rest.length + 1 + 1 := by rw [hpathOf]; rfl
    rw [hlength] at hparent
    have hname : substring u (pathOf ts ++ string) 0 (rest.length + 1 + 1) =
        slash :: x :: rest := by
      rcases hparent with heq | ⟨hnil, _⟩
      · exact heq.trans hpathOf
      · exact absurd hnil hne
    have hfirst : substring u (pathOf ts ++ string) 0 (rest.length + 1 + 1) = [] ∨ _ :=
      substring_zero_succ
    rcases hfirst with hnil | hcons
    · exact absurd (hnil.symm.trans hname) (by simp)
    · rw [hname, hcopied] at hcons
      exact hx (List.cons.inj (List.cons.inj hcons).2).1
  · intro hnil
    subst hnil
    exact Or.inl rfl

/-! ## The positions -/

/-- The positions that are read are `length` ones from `position - 1` on. -/
theorem mem_substringReads {k : ℤ} :
    k ∈ substringReads position length ↔ ∃ c < length, k = (c : ℤ) + position - 1 := by
  constructor
  · intro hk
    obtain ⟨c, hc, rfl⟩ := List.mem_map.mp hk
    exact ⟨c, List.mem_range.mp hc, rfl⟩
  · rintro ⟨c, hc, rfl⟩
    exact List.mem_map.mpr ⟨c, List.mem_range.mpr hc, rfl⟩

/-- From position 0 on, the string is left as soon as a character is read. -/
theorem zero_le_substringReads_iff :
    (∀ k ∈ substringReads 0 length, 0 ≤ k) ↔ length = 0 := by
  constructor
  · intro hall
    by_contra hne
    have hfirst := hall _ (mem_substringReads.mpr ⟨0, Nat.pos_of_ne_zero hne, rfl⟩)
    omega
  · rintro rfl k hk
    obtain ⟨c, hc, _⟩ := mem_substringReads.mp hk
    exact absurd hc (Nat.not_lt_zero c)

/-- The path of a directory is empty for the root only. -/
theorem pathOf_length_eq_zero_iff : (pathOf ts).length = 0 ↔ ts = [] := by
  cases ts with
  | nil => exact iff_of_true rfl rfl
  | cons t ts => exact iff_of_false (by simp [pathOf]) (by simp)

/-- A further name makes a path longer by its length and the `/`. -/
theorem length_pathOf_append :
    (pathOf (ts ++ [t])).length = (pathOf ts).length + t.length + 1 := by
  rw [pathOf_append, List.length_append, List.length_cons]
  omega

/-- In `sfs_unlink`, only the path is read if the file is in the root. -/
theorem unlinkReads_inside_iff (ht : slash ∉ t) :
    ReadsInside (pathOf (ts ++ [t])) (unlinkReads (pathOf (ts ++ [t]))) ↔ ts = [] := by
  have hreads : unlinkReads (pathOf (ts ++ [t])) = some (substringReads 0 (pathOf ts).length) := by
    rw [unlinkReads, lastSlash_pathOf ht]
    rfl
  rw [← pathOf_length_eq_zero_iff, ← zero_le_substringReads_iff, hreads]
  constructor
  · rintro ⟨ks, heq, hall⟩
    obtain rfl := Option.some.inj heq
    exact fun k hk => (hall k hk).1
  · intro hall
    refine ⟨_, rfl, fun k hk => ⟨hall k hk, ?_⟩⟩
    obtain ⟨c, hc, rfl⟩ := mem_substringReads.mp hk
    rw [length_pathOf_append]
    omega

/-- In `sfs_create`, only the path is read if the file is in the root. -/
theorem createReads_inside_iff (ht : slash ∉ t) :
    ReadsInside (pathOf (ts ++ [t])) (createReads (pathOf (ts ++ [t]))) ↔ ts = [] := by
  have hreads : createReads (pathOf (ts ++ [t])) =
      some (substringReads ((pathOf ts).length + 1) ((pathOf ts).length + t.length) ++
        substringReads 0 (pathOf ts).length) := by
    rw [createReads, lastSlash_pathOf ht, length_pathOf_append, Nat.add_sub_cancel]
    rfl
  rw [← pathOf_length_eq_zero_iff, hreads]
  constructor
  · rintro ⟨ks, heq, hall⟩
    obtain rfl := Option.some.inj heq
    exact zero_le_substringReads_iff.mp fun k hk => (hall k (List.mem_append_right _ hk)).1
  · intro hzero
    refine ⟨_, rfl, fun k hk => ?_⟩
    rw [length_pathOf_append]
    rcases List.mem_append.mp hk with hk | hk
    all_goals
      obtain ⟨c, hc, rfl⟩ := mem_substringReads.mp hk
      omega

/-! ## The names -/

/-- What is copied as the name of the new file: the name behind its `/`, and without its last
character if the file is in the root. -/
def newFileOf (ts : List (List UInt8)) (t : List UInt8) : List UInt8 :=
  slash :: if ts = [] then t.dropLast else t

/-- If all names of a path and a further one are names, so are those of the longer path. -/
theorem isName_append (hts : ∀ t ∈ ts, IsName t) (ht : IsName t) :
    ∀ name ∈ ts ++ [t], IsName name := by
  intro name hname
  rcases List.mem_append.mp hname with hname | hname
  · exact hts name hname
  · rwa [List.mem_singleton.mp hname]

/-- What `sfs_create` takes for the name of the new file is the last `/` with the last name. -/
theorem substring_newFile (hts : ∀ t ∈ ts, IsName t) (ht : IsName t) :
    substring u (pathOf (ts ++ [t])) ((pathOf ts).length + 1)
      ((pathOf (ts ++ [t])).length - 1) = newFileOf ts t := by
  have hle : (pathOf ts).length ≤ (pathOf (ts ++ [t])).length := by
    rw [length_pathOf_append]
    omega
  rw [substring_succ (zero_not_mem_pathOf (isName_append hts ht)) hle, length_pathOf_append,
    Nat.add_sub_cancel, pathOf_append, List.drop_left]
  obtain ⟨k, hk⟩ := Nat.exists_eq_add_of_lt (List.length_pos_iff.mpr ht.1)
  by_cases hroot : ts = []
  · rw [newFileOf, if_pos hroot, hroot, List.dropLast_eq_take, hk]
    simp [pathOf]
  · have hpos := Nat.pos_of_ne_zero fun h => hroot (pathOf_length_eq_zero_iff.mp h)
    rw [newFileOf, if_neg hroot]
    exact List.take_of_length_le (by rw [List.length_cons]; omega)

/-- The two parts into which `sfs_create` splits a path that is written from names. -/
theorem createSplit_pathOf (hts : ∀ t ∈ ts, IsName t) (ht : IsName t) :
    createSplit u (pathOf (ts ++ [t])) =
      some (newFileOf ts t, substring u (pathOf (ts ++ [t])) 0 (pathOf ts).length) := by
  rw [createSplit, lastSlash_pathOf ht.2.1, ← substring_newFile hts ht]
  rfl

/-- The path of the directory that `sfs_unlink` gets from a path that is written from names. -/
theorem unlinkSplit_pathOf (ht : slash ∉ t) :
    unlinkSplit u (pathOf (ts ++ [t])) =
      some (substring u (pathOf (ts ++ [t])) 0 (pathOf ts).length) := by
  rw [unlinkSplit, lastSlash_pathOf ht]
  rfl

/-- The name of a new file begins with `/`. -/
theorem newFileOf_ne (ht : slash ∉ t) : newFileOf ts t ≠ t := by
  intro heq
  apply ht
  rw [← heq]
  exact List.mem_cons_self

/-! ## The split -/

/-- The name of a new file is never the last name of the path. Its directory is right, and
only the path is read, exactly if the file is in the root. -/
theorem path_split (u : Unspecified) (hts : ∀ name ∈ ts, IsName name) (ht : IsName t) :
    (∃ parent, createSplit u (pathOf (ts ++ [t])) = some (newFileOf ts t, parent) ∧
        unlinkSplit u (pathOf (ts ++ [t])) = some parent ∧ (IsParent ts parent ↔ ts = [])) ∧
      (ReadsInside (pathOf (ts ++ [t])) (createReads (pathOf (ts ++ [t]))) ↔ ts = []) ∧
      (ReadsInside (pathOf (ts ++ [t])) (unlinkReads (pathOf (ts ++ [t]))) ↔ ts = []) ∧
      ¬ SplitsRight u ts t := by
  have hcreate : createSplit u (pathOf (ts ++ [t])) = _ := createSplit_pathOf hts ht
  have hpath : 0 ∉ pathOf ts ++ slash :: t := by
    rw [← pathOf_append]
    exact zero_not_mem_pathOf (isName_append hts ht)
  refine ⟨⟨_, hcreate, unlinkSplit_pathOf ht.2.1, ?_⟩, createReads_inside_iff ht.2.1,
    unlinkReads_inside_iff ht.2.1, fun hright => ?_⟩
  · rw [pathOf_append]
    exact substring_isParent_iff hts hpath
  · obtain ⟨_, hsplit, _⟩ := hright.create
    have hname := (Prod.mk.inj (Option.some.inj (hcreate.symm.trans hsplit))).1
    exact newFileOf_ne ht.2.1 hname

/-- The theorem for `/a/b`: neither function splits it as it should. -/
theorem path_split_two :
    (∃ parent, createSplit sampleUnspecified (chars "/a/b") = some (chars "/b", parent) ∧
        ¬ IsParent [chars "a"] parent) ∧
      ¬ ReadsInside (chars "/a/b") (unlinkReads (chars "/a/b")) ∧
      ¬ SplitsRight sampleUnspecified [chars "a"] (chars "b") := by
  have hts : ∀ name ∈ [chars "a"], IsName name := by
    unfold IsName
    decide +kernel
  have ht : IsName (chars "b") := by
    unfold IsName
    decide +kernel
  have hpath : pathOf ([chars "a"] ++ [chars "b"]) = chars "/a/b" := by decide +kernel
  have hnew : newFileOf [chars "a"] (chars "b") = chars "/b" := by decide +kernel
  have hne : [chars "a"] ≠ [] := by simp
  obtain ⟨⟨parent, hcreate, _, hparent⟩, _, hunlink, hwrong⟩ :=
    path_split sampleUnspecified hts ht
  rw [hpath, hnew] at hcreate
  rw [hpath] at hunlink
  exact ⟨⟨parent, hcreate, fun h => hne (hparent.mp h)⟩, fun h => hne (hunlink.mp h), hwrong⟩

/-- The name of the new file for the path `/ab` is `/a`. -/
theorem not_splitsRight :
    IsName (chars "ab") ∧ createSplit sampleUnspecified (chars "/ab") = some (chars "/a", []) ∧
      ¬ SplitsRight sampleUnspecified [] (chars "ab") := by
  have hcreate : createSplit sampleUnspecified (chars "/ab") = some (chars "/a", []) := by
    decide +kernel
  have hab : IsName (chars "ab") := by
    unfold IsName
    decide +kernel
  have hpath : pathOf ([] ++ [chars "ab"]) = chars "/ab" := by decide +kernel
  have hne : chars "/a" ≠ chars "ab" := by decide +kernel
  refine ⟨hab, hcreate, fun hright => ?_⟩
  obtain ⟨originalPath, hsplit, _⟩ := hright.create
  rw [hpath] at hsplit
  exact hne (Prod.mk.inj (Option.some.inj (hcreate.symm.trans hsplit))).1

end SimpleOs.Files
