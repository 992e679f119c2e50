import SimpleOs.Files.Consistency

/-!
# Lookups

The tokens of a path, the comparison of a name with a token, the scan of a directory and the
lookup of a path that is extended by one token.
-/

namespace SimpleOs.Files

open Bytes Inode

variable {disk : Memory} {path str token : List UInt8} {ts : List (List UInt8)} {is : List ℕ}
  {n c i q : ℕ}

/-! ## Tokens -/

/-- Characters that are no `/` belong to the token that has begun. -/
theorem tokens_append (hstr : slash ∉ str) :
    tokens token (str ++ path) = tokens (token ++ str) path := by
  induction str generalizing token with
  | nil => simp
  | cons c str ih =>
    have hc : c ≠ slash := fun h => hstr (by simp [h])
    have hrest : slash ∉ str := fun h => hstr (List.mem_cons_of_mem _ h)
    rw [List.cons_append, tokens, if_neg hc, ih hrest]
    simp

/-- A separator at the beginning does not matter. -/
theorem strtok_slash : strtok (slash :: path) = strtok path := by
  rw [strtok, tokens, if_pos rfl, if_pos rfl, List.nil_append, strtok]

/-- A path without separators is its own token. -/
theorem strtok_word (hne : str ≠ []) (hstr : slash ∉ str) : strtok str = [str] := by
  have htokens : tokens [] (str ++ []) = tokens ([] ++ str) [] := tokens_append hstr
  rw [List.append_nil, List.nil_append] at htokens
  rw [strtok, htokens, tokens, if_neg hne]

/-- A path with one name has one token. -/
theorem strtok_name (hne : str ≠ []) (hstr : slash ∉ str) : strtok (slash :: str) = [str] := by
  rw [strtok_slash, strtok_word hne hstr]

/-- The characters of tokens are those of the path. -/
theorem tokens_chars {t : List UInt8} {x : UInt8} (ht : t ∈ tokens token path) (hx : x ∈ t) :
    x ∈ token ∨ x ∈ path := by
  have hone {token : List UInt8} (ht : t ∈ (if token = [] then [] else [token])) : x ∈ token := by
    split at ht
    · exact absurd ht (by simp)
    · rwa [← List.mem_singleton.mp ht]
  induction path generalizing token with
  | nil => exact Or.inl (hone ht)
  | cons c path ih =>
    rw [tokens] at ht
    split at ht
    · rcases List.mem_append.mp ht with ht | ht
      · exact Or.inl (hone ht)
      · rcases ih ht with hnil | hpath
        · exact absurd hnil (by simp)
        · exact Or.inr (List.mem_cons_of_mem _ hpath)
    · rcases ih ht with htoken | hpath
      · rcases List.mem_append.mp htoken with htoken | hc
        · exact Or.inl htoken
        · exact Or.inr (by simp [List.mem_singleton.mp hc])
      · exact Or.inr (List.mem_cons_of_mem _ hpath)

/-- The tokens of a path without zeros. -/
theorem strtok_tokens (hpath : 0 ∉ path) : ∀ t ∈ strtok path, IsName t := by
  intro t ht
  obtain ⟨hne, hstr⟩ := tokens_spec (by simp) t ht
  refine ⟨hne, hstr, fun hzero => ?_⟩
  rcases tokens_chars ht hzero with hnil | hzero
  · exact absurd hnil (by simp)
  · exact hpath hzero

/-- A path with given tokens. -/
def pathOf (ts : List (List UInt8)) : List UInt8 := ts.flatMap fun t => slash :: t

/-- The tokens of such a path are the ones it was made of. -/
theorem strtok_pathOf (hts : ∀ t ∈ ts, IsName t) : strtok (pathOf ts) = ts := by
  have hcons (token : List UInt8) (htoken : token ≠ []) (ts : List (List UInt8)) :
      tokens token (pathOf ts) = token :: strtok (pathOf ts) := by
    cases ts with
    | nil =>
      rw [pathOf, List.flatMap_nil, tokens, if_neg htoken]
      rfl
    | cons t ts =>
      rw [pathOf, List.flatMap_cons, List.cons_append, strtok_slash, tokens, if_pos rfl,
        if_neg htoken]
      rfl
  induction ts with
  | nil => rfl
  | cons t ts ih =>
    obtain ⟨hne, hstr, _⟩ := hts t List.mem_cons_self
    have hrest := ih fun t ht => hts t (List.mem_cons_of_mem _ ht)
    rw [pathOf, List.flatMap_cons, List.cons_append, strtok_slash, strtok, tokens_append hstr,
      List.nil_append]
    change tokens t (pathOf ts) = t :: ts
    rw [hcons t hne, hrest]

/-- A path that is written from names has no zero byte. -/
theorem zero_not_mem_pathOf (hts : ∀ t ∈ ts, IsName t) : 0 ∉ pathOf ts := by
  intro hzero
  obtain ⟨t, ht, hzero⟩ := List.mem_flatMap.mp hzero
  rcases List.mem_cons.mp hzero with heq | hzero
  · exact absurd heq (by decide)
  · exact (hts t ht).2.2 hzero

/-- A token that has begun is one of the tokens. -/
theorem tokens_ne_nil (htoken : token ≠ []) : tokens token path ≠ [] := by
  induction path generalizing token with
  | nil =>
    rw [tokens, if_neg htoken]
    simp
  | cons c path ih =>
    rw [tokens]
    split
    · simp
    · exact ih (by simp)

/-! ## Names -/

/-- A name that is equal to a token ends with a zero. -/
theorem strcmp_true {str token : List UInt8} (htoken : 0 ∉ token)
    (h : strcmp str token = some true) : ∃ rest, str = token ++ 0 :: rest := by
  induction str generalizing token with
  | nil => exact absurd h (by simp [strcmp])
  | cons c str ih =>
    cases token with
    | nil =>
      have hzero : c = 0 := of_decide_eq_true (Option.some.inj h)
      exact ⟨str, by rw [hzero]; rfl⟩
    | cons t token =>
      rw [strcmp] at h
      split at h
      · rename_i heq
        obtain ⟨rest, rfl⟩ := ih (fun hzero => htoken (List.mem_cons_of_mem _ hzero)) h
        exact ⟨rest, by rw [heq]; rfl⟩
      · exact absurd h (by simp)

/-- A name that ends with a zero is compared to its end. -/
theorem strcmp_terminated {name token rest : List UInt8} (hname : 0 ∉ name) (htoken : 0 ∉ token) :
    strcmp (name ++ 0 :: rest) token = some (decide (name = token)) := by
  induction name generalizing token with
  | nil =>
    cases token with
    | nil => rfl
    | cons t token =>
      have hne : (0 : UInt8) ≠ t := fun h => htoken (by simp [h])
      rw [List.nil_append, strcmp, if_neg hne]
      simp
  | cons c name ih =>
    cases token with
    | nil =>
      have hne : c ≠ 0 := fun h => hname (by simp [h])
      rw [List.cons_append, strcmp]
      simp [hne]
    | cons t token =>
      rw [List.cons_append, strcmp]
      by_cases heq : c = t
      · rw [if_pos heq, ih (fun h => hname (List.mem_cons_of_mem _ h))
          (fun h => htoken (List.mem_cons_of_mem _ h)), heq]
        simp
      · rw [if_neg heq]
        simp [heq]

/-- The characters of a name that is equal to a token. -/
theorem cString_terminated {name rest : List UInt8} (hname : 0 ∉ name) :
    cString (name ++ 0 :: rest) = name := by
  induction name with
  | nil => rfl
  | cons c name ih =>
    have hne : c ≠ 0 := fun h => hname (by simp [h])
    rw [cString, List.cons_append, List.takeWhile_cons_of_pos (by simpa using hne)]
    congr 1
    exact ih fun h => hname (List.mem_cons_of_mem _ h)

/-- A string in memory has no zeros. -/
theorem zero_not_mem_cString {str : List UInt8} : 0 ∉ cString str := by
  intro h
  rw [cString] at h
  exact absurd (List.all_eq_true.mp List.all_takeWhile 0 h) (by decide)

/-- A name that is equal to a token is one. -/
theorem cString_of_strcmp {str token : List UInt8} (htoken : 0 ∉ token)
    (h : strcmp str token = some true) : cString str = token := by
  obtain ⟨rest, rfl⟩ := strcmp_true htoken h
  exact cString_terminated htoken

/-- The name of an inode begins with its first character. -/
theorem nameOf_cons (disk : Memory) (a : ℕ) :
    ∃ rest, nameOf disk a = disk (a + Inode.name) :: rest :=
  ⟨_, by rw [nameOf, List.range_succ_eq_map]; rfl⟩

/-- A name that begins with `/`, and an empty one, is not that of a token. -/
theorem strcmp_first {a : ℕ} (htoken : IsName token)
    (h : disk (a + Inode.name) = slash ∨ disk (a + Inode.name) = 0) :
    strcmp (nameOf disk a) token = some false := by
  obtain ⟨rest, hname⟩ := nameOf_cons disk a
  obtain ⟨hne, hslash, hzero⟩ := htoken
  rw [hname]
  cases token with
  | nil => exact absurd rfl hne
  | cons t token =>
    rw [strcmp, if_neg]
    rintro rfl
    rcases h with h | h
    · exact hslash (by simp [h])
    · exact hzero (by simp [h])

/-! ## Scans and lookups -/

/-- What is found has the name, can be read, and is behind entries that are in use. -/
theorem childOf_found (h : childOf disk q token is = some (some c)) :
    Readable c ∧ strcmp (nameOf disk (inodeAt c)) token = some true ∧
      ∃ xs i ys, is = xs ++ i :: ys ∧ entry disk q i = c ∧ c ≠ minusOne ∧
        ∀ k ∈ xs, entry disk q k ≠ minusOne := by
  induction is with
  | nil => exact absurd h (by simp [childOf])
  | cons i is ih =>
    obtain ⟨hne, hreadable, ⟨hcmp, rfl⟩ | ⟨_, hrest⟩⟩ := childOf_cons_iff.mp h
    · exact ⟨hreadable, hcmp, [], i, is, rfl, rfl, hne, by simp⟩
    · obtain ⟨hc, hname, xs, k, ys, rfl, hentry, hsome, hbefore⟩ := ih hrest
      refine ⟨hc, hname, i :: xs, k, ys, rfl, hentry, hsome, fun l hl => ?_⟩
      rcases List.mem_cons.mp hl with rfl | hl
      · exact hne
      · exact hbefore l hl

/-- Entries with other names are passed by. -/
theorem childOf_append {xs ys : List ℕ} (hxs : ∀ i ∈ xs, entry disk q i ≠ minusOne ∧
      Readable (entry disk q i) ∧
      strcmp (nameOf disk (inodeAt (entry disk q i))) token = some false) :
    childOf disk q token (xs ++ ys) = childOf disk q token ys := by
  induction xs with
  | nil => rfl
  | cons i xs ih =>
    obtain ⟨hne, hreadable, hcmp⟩ := hxs i List.mem_cons_self
    rw [List.cons_append, childOf, if_neg hne, if_pos hreadable, hcmp]
    exact ih fun i hi => hxs i (List.mem_cons_of_mem _ hi)

/-- The same for a scan of all entries. -/
theorem childOf_range (h : childOf disk q token (List.range 10) = some (some c)) :
    Readable c ∧ strcmp (nameOf disk (inodeAt c)) token = some true ∧
      ∃ i < 10, entry disk q i = c ∧ c ≠ minusOne ∧ ∀ k < i, entry disk q k ≠ minusOne := by
  obtain ⟨hc, hname, xs, i, ys, hsplit, hentry, hsome, hbefore⟩ := childOf_found h
  rw [List.range_eq_range', List.range'_eq_append_iff] at hsplit
  obtain ⟨j, hj, rfl, hrest⟩ := hsplit
  obtain ⟨rfl, hpos, _⟩ := List.range'_eq_cons_iff.mp hrest.symm
  refine ⟨hc, hname, _, by omega, hentry, hsome, fun k hk => ?_⟩
  apply hbefore
  rw [List.mem_range'_1]
  omega

/-- What is found in a part of the entries is found in all. -/
theorem childOf_append_found {xs ys : List ℕ} (h : childOf disk q token xs = some (some c)) :
    childOf disk q token (xs ++ ys) = some (some c) := by
  induction xs with
  | nil => exact absurd h (by simp [childOf])
  | cons i xs ih =>
    rw [List.cons_append]
    obtain ⟨hne, hreadable, hhere | ⟨hother, hrest⟩⟩ := childOf_cons_iff.mp h
    · exact childOf_cons_iff.mpr ⟨hne, hreadable, Or.inl hhere⟩
    · exact childOf_cons_iff.mpr ⟨hne, hreadable, Or.inr ⟨hother, ih hrest⟩⟩

/-- What is found is found in one of two parts. -/
theorem childOf_append_or {xs ys : List ℕ}
    (h : childOf disk q token (xs ++ ys) = some (some c)) :
    childOf disk q token xs = some (some c) ∨ childOf disk q token ys = some (some c) := by
  induction xs with
  | nil => exact Or.inr h
  | cons i xs ih =>
    rw [List.cons_append] at h
    obtain ⟨hne, hreadable, hhere | ⟨hother, hrest⟩⟩ := childOf_cons_iff.mp h
    · exact Or.inl (childOf_cons_iff.mpr ⟨hne, hreadable, Or.inl hhere⟩)
    · refine (ih hrest).imp_left fun hxs => ?_
      exact childOf_cons_iff.mpr ⟨hne, hreadable, Or.inr ⟨hother, hxs⟩⟩

/-- The entries behind one that is -1 are not found. -/
theorem childOf_stop {xs ys : List ℕ} (hi : entry disk q i = minusOne)
    (h : childOf disk q token (xs ++ i :: ys) = some (some c)) :
    childOf disk q token xs = some (some c) := by
  rcases childOf_append_or h with hxs | hys
  · exact hxs
  · rw [childOf, if_pos hi] at hys
    exact absurd hys (by simp)

/-- A path that is extended by one token. -/
theorem lookup_concat (hc : c ≠ minusOne) : lookup disk (ts ++ [token]) n = some c ↔
    ∃ q, lookup disk ts n = some q ∧ Readable q ∧
      childOf disk q token (List.range 10) = some (some c) := by
  induction ts generalizing n with
  | nil =>
    rw [List.nil_append, lookup_cons_iff hc]
    constructor
    · rintro ⟨hreadable, r, hchild, hr⟩
      obtain rfl := Option.some.inj hr
      exact ⟨n, rfl, hreadable, hchild⟩
    · rintro ⟨q, hq, hreadable, hchild⟩
      obtain rfl := Option.some.inj hq
      exact ⟨hreadable, c, hchild, rfl⟩
  | cons t ts ih =>
    rw [List.cons_append, lookup_cons_iff hc]
    constructor
    · rintro ⟨hreadable, r, hchild, hrest⟩
      obtain ⟨q, hq, hfound⟩ := ih.mp hrest
      exact ⟨q, (lookup_cons_iff hfound.1.ne_minusOne).mpr ⟨hreadable, r, hchild, hq⟩, hfound⟩
    · rintro ⟨q, hq, hfound⟩
      obtain ⟨hreadable, r, hchild, hrest⟩ := (lookup_cons_iff hfound.1.ne_minusOne).mp hq
      exact ⟨hreadable, r, hchild, ih.mpr ⟨q, hrest, hfound⟩⟩

end SimpleOs.Files
