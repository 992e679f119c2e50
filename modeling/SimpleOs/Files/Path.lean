import SimpleOs.Files.Device

/-!
# Paths

A path is looked up from the root on, one token at a time. The entries of a directory
are scanned up to the first that is -1, and the name of each is compared with the token.
-/

namespace SimpleOs.Files

open Bytes

/-! ## Strings -/

/-- The character between the parts of a path. -/
def slash : UInt8 := '/'.toUInt8

/-- The tokens that `strtok` returns for the separator `/`, behind one that has begun. -/
def tokens : List UInt8 → List UInt8 → List (List UInt8)
  | token, [] => if token = [] then [] else [token]
  | token, c :: path =>
    if c = slash then (if token = [] then [] else [token]) ++ tokens [] path
    else tokens (token ++ [c]) path

/-- The tokens of a path. -/
def strtok (path : List UInt8) : List (List UInt8) := tokens [] path

/-- The characters before the first that is zero. -/
def cString (s : List UInt8) : List UInt8 := s.takeWhile (· ≠ 0)

/-- The character of a string at a position, also one outside of it. -/
def charAt (u : Unspecified) (string : List UInt8) (k : ℤ) : UInt8 :=
  if 0 ≤ k ∧ k < string.length then string.getD k.toNat 0
  else if k = string.length then 0 else u.around k

/-- `substring`: `length` characters, the first of which has number `position` when they
are counted from 1. -/
def substring (u : Unspecified) (string : List UInt8) (position length : ℕ) : List UInt8 :=
  cString ((List.range length).map fun (c : ℕ) => charAt u string ((c : ℤ) + position - 1))

/-- The loop `for (i = pathlen - 1; path[i] != '/'; i--);`. Without a `/` it leaves the
string. -/
def lastSlash (path : List UInt8) : ℕ → Option ℕ
  | 0 => none
  | i + 1 => if path[i]? = some slash then some i else lastSlash path i

/-- Whether `strcmp(child->name, token)` is 0. If the name is read to its end without a
difference, the comparison goes on behind it and has no defined result. -/
def strcmp : List UInt8 → List UInt8 → Option Bool
  | [], _ => none
  | c :: _, [] => some (c = 0)
  | c :: name, t :: token => if c = t then strcmp name token else some false

/-! ## The lookup -/

/-- The array `name` of an inode. -/
def nameOf (buf : Memory) (a : ℕ) : List UInt8 :=
  (List.range 15).map fun k => buf (a + Inode.name + k)

/-- The scan of the entries of a directory for a name. -/
def findChild (u : Unspecified) (dir : Memory) (a : ℕ) (token : List UInt8) :
    List ℕ → Sfs → Option (Option ℕ × Sfs)
  | [], s => some (none, s)
  | i :: is, s => do
    let child_inode_num := get dir a (Inode.block_ptr i)
    if child_inode_num = minusOne then return (none, s)
    let (temp, s) ← getBlockByInodeNumb u child_inode_num s
    if ← strcmp (nameOf temp (offsetInBlock child_inode_num)) token then
      return (some child_inode_num, s)
    findChild u dir a token is s

/-- The loop over the tokens. -/
def walk (u : Unspecified) : List (List UInt8) → ℕ → Sfs → Option (ℕ × Sfs)
  | [], curr_inumb, s => some (curr_inumb, s)
  | token :: tokens, curr_inumb, s => do
    let (temp, s) ← getBlockByInodeNumb u curr_inumb s
    match ← findChild u temp (offsetInBlock curr_inumb) token (List.range 10) s with
    | (none, s) => return (minusOne, s)
    | (some child, s) => walk u tokens child s

/-- `getInodeNumbFromPath`: the tokens of the path are followed from the root on. -/
def getInodeNumbFromPath (u : Unspecified) (path : List UInt8) (s : Sfs) : Option (ℕ × Sfs) :=
  walk u (strtok path) 0 s

/-! ## The lookup on the disk -/

/-- Entry `i` of an inode. -/
def entry (disk : Memory) (n i : ℕ) : ℕ := get disk (inodeAt n) (Inode.block_ptr i)

/-- The first of the entries of inode `n` whose name is `token`, up to the first -1. -/
def childOf (disk : Memory) (n : ℕ) (token : List UInt8) : List ℕ → Option (Option ℕ)
  | [] => some none
  | i :: is =>
    if entry disk n i = minusOne then some none
    else if Readable (entry disk n i) then
      (strcmp (nameOf disk (inodeAt (entry disk n i))) token).bind fun same =>
        if same then some (some (entry disk n i)) else childOf disk n token is
    else none

/-- The inode at the end of a path from inode `n`, or -1. -/
def lookup (disk : Memory) : List (List UInt8) → ℕ → Option ℕ
  | [], n => some n
  | token :: path, n =>
    if Readable n then
      (childOf disk n token (List.range 10)).bind fun found =>
        found.elim (some minusOne) (lookup disk path)
    else none

variable {u : Unspecified} {s : Sfs} {disk : Memory} {token string : List UInt8} {n r i : ℕ}

/-! ## Parts of a path -/

/-- The loop stops at the last `/`. -/
theorem lastSlash_append {str : List UInt8} (hstr : slash ∉ str) {k : ℕ} (hk : k ≤ str.length) :
    lastSlash (string ++ slash :: str) (string.length + 1 + k) = some string.length := by
  induction k with
  | zero =>
    have hlast : (string ++ slash :: str)[string.length]? = some slash := by simp
    rw [Nat.add_zero, lastSlash, if_pos hlast]
  | succ k ih =>
    have hne : (string ++ slash :: str)[string.length + 1 + k]? ≠ some slash := by
      rw [List.getElem?_append_right (by omega),
        show string.length + 1 + k - string.length = k + 1 by omega, List.getElem?_cons_succ]
      exact fun h => hstr (List.mem_of_getElem? h)
    rw [← Nat.add_assoc, lastSlash, if_neg hne]
    exact ih (by omega)

/-- Within a string, the character read is the one of the string. -/
theorem charAt_of_lt (hi : i < string.length) : charAt u string i = string[i] := by
  rw [charAt, if_pos (by omega), Int.toNat_natCast, List.getD_eq_getElem?_getD,
    List.getElem?_eq_getElem hi, Option.getD_some]

/-- Behind a string there is a zero. -/
theorem charAt_length : charAt u string string.length = 0 := by
  rw [charAt, if_neg (by omega), if_pos rfl]

/-- One turn of the loop of `substring`. What is behind a zero does not matter. -/
theorem substring_step {position length : ℕ} :
    substring u string position (length + 1) =
      if charAt u string ((position : ℤ) - 1) = 0 then []
      else charAt u string ((position : ℤ) - 1) :: substring u string (position + 1) length := by
  have hfirst : ((0 : ℕ) : ℤ) + position - 1 = position - 1 := by omega
  have hshift : (fun c : ℕ => charAt u string ((c : ℤ) + position - 1)) ∘ Nat.succ =
      fun c : ℕ => charAt u string ((c : ℤ) + (position + 1 : ℕ) - 1) := by
    funext c
    rw [Function.comp_apply]
    congr 1
    omega
  rw [substring, substring, List.range_succ_eq_map, List.map_cons, List.map_map, hfirst, hshift,
    cString]
  split
  · rename_i hzero
    exact List.takeWhile_cons_of_neg (by simp [hzero])
  · rename_i hne
    exact List.takeWhile_cons_of_pos (by simpa using hne)

/-- From a character of the string on, the characters are those of the string. -/
theorem substring_succ (hstring : 0 ∉ string) {length : ℕ} (hi : i ≤ string.length) :
    substring u string (i + 1) length = (string.drop i).take length := by
  induction length generalizing i with
  | zero => rw [List.take_zero]; rfl
  | succ length ih =>
    have hchar : ((i + 1 : ℕ) : ℤ) - 1 = i := by omega
    rw [substring_step, hchar]
    rcases Nat.lt_or_eq_of_le hi with hlt | rfl
    · have hne : string[i] ≠ 0 := fun h => hstring (h ▸ List.getElem_mem hlt)
      rw [charAt_of_lt hlt, if_neg hne, ih (Nat.succ_le_of_lt hlt),
        List.drop_eq_getElem_cons hlt, List.take_succ_cons]
    · rw [if_pos charAt_length, List.drop_length, List.take_nil]

/-! ## Lookups -/

/-- A number that is read from the disk. -/
theorem block_ptr_lt {m : Memory} {a i : ℕ} : get m a (Inode.block_ptr i) < 2 ^ 32 := get_lt

/-- The name in the memory with the block of an inode. -/
theorem nameOf_inodeBuffer :
    nameOf (inodeBuffer u disk n) (offsetInBlock n) = nameOf disk (inodeAt n) := by
  have hle := offsetInBlock_le (n := n)
  refine List.map_congr_left fun k hk => ?_
  have hlt := List.mem_range.mp hk
  unfold Inode.size at hle
  rw [inodeBuffer_apply (by unfold Inode.name; omega), inodeAt]
  congr 1
  omega

/-- The scan of a directory, without errors. -/
theorem findChild_eq {dir : Memory} {a : ℕ} {is : List ℕ} (hs : s.errors = [])
    (hdir : ∀ i ∈ is, get dir a (Inode.block_ptr i) = entry s.disk n i) :
    findChild u dir a token is s = (childOf s.disk n token is).map fun found => (found, s) := by
  induction is with
  | nil => rfl
  | cons i is ih =>
    have hrest := ih fun i hi => hdir i (List.mem_cons_of_mem _ hi)
    have hlt : entry s.disk n i < 2 ^ 32 := block_ptr_lt
    simp only [findChild, childOf, hdir i List.mem_cons_self, getBlockByInodeNumb_eq hs hlt]
    split
    · rfl
    · split
      · simp only [Option.bind_eq_bind, Option.bind_some, nameOf_inodeBuffer, hrest]
        cases strcmp (nameOf s.disk (inodeAt (entry s.disk n i))) token with
        | none => rfl
        | some same => cases same <;> rfl
      · rfl

/-- One step of a scan that finds an entry. -/
theorem childOf_cons_iff {is : List ℕ} {child : ℕ} :
    childOf disk n token (i :: is) = some (some child) ↔
      entry disk n i ≠ minusOne ∧ Readable (entry disk n i) ∧
        (strcmp (nameOf disk (inodeAt (entry disk n i))) token = some true ∧
            entry disk n i = child ∨
          strcmp (nameOf disk (inodeAt (entry disk n i))) token = some false ∧
            childOf disk n token is = some (some child)) := by
  rw [childOf]
  by_cases hnone : entry disk n i = minusOne
  · simp [hnone]
  · by_cases hreadable : Readable (entry disk n i)
    · rw [if_neg hnone, if_pos hreadable]
      cases strcmp (nameOf disk (inodeAt (entry disk n i))) token with
      | none => simp
      | some same => cases same <;> simp [hnone, hreadable]
    · simp [hnone, hreadable]

/-- One step of a lookup that finds an inode. -/
theorem lookup_cons_iff {path : List (List UInt8)} (hr : r ≠ minusOne) :
    lookup disk (token :: path) n = some r ↔
      Readable n ∧ ∃ child, childOf disk n token (List.range 10) = some (some child) ∧
        lookup disk path child = some r := by
  rw [lookup]
  by_cases hreadable : Readable n
  · rw [if_pos hreadable]
    cases childOf disk n token (List.range 10) with
    | none => simp
    | some found => cases found <;> simp [hreadable, hr.symm]
  · simp [hreadable]

/-- What is found was read from the disk. -/
theorem childOf_lt {is : List ℕ} {child : ℕ}
    (h : childOf disk n token is = some (some child)) : child < 2 ^ 32 := by
  induction is with
  | nil => exact absurd h (by simp [childOf])
  | cons i is ih =>
    obtain ⟨_, _, ⟨_, rfl⟩ | ⟨_, hrest⟩⟩ := childOf_cons_iff.mp h
    · exact block_ptr_lt
    · exact ih hrest

/-- The loop over the tokens, without errors. -/
theorem walk_eq {path : List (List UInt8)} (hs : s.errors = []) (hn : n < 2 ^ 32) :
    walk u path n s = (lookup s.disk path n).map fun r => (r, s) := by
  induction path generalizing n with
  | nil => rfl
  | cons token path ih =>
    rw [walk, lookup, getBlockByInodeNumb_eq hs hn]
    split
    · have hentries : ∀ i ∈ List.range 10,
          get (inodeBuffer u s.disk n) (offsetInBlock n) (Inode.block_ptr i) =
            entry s.disk n i := by
        intro i hi
        have hlt := List.mem_range.mp hi
        exact get_inodeBuffer (by simp only [Inode.block_ptr, Inode.size]; omega)
      have hfind := @findChild_eq u s token n _ _ _ hs hentries
      simp only [Option.bind_eq_bind, Option.bind_some, hfind]
      cases hchild : childOf s.disk n token (List.range 10) with
      | none => rfl
      | some found =>
        cases found with
        | none => rfl
        | some child => exact ih (childOf_lt hchild)
    · rfl

/-- A lookup reads the disk and changes nothing. -/
theorem getInodeNumbFromPath_eq {path : List UInt8} (hs : s.errors = []) :
    getInodeNumbFromPath u path s = (lookup s.disk (strtok path) 0).map fun r => (r, s) :=
  walk_eq hs (by decide)

/-- The end of a path is a number that was read from the disk. -/
theorem lookup_lt {path : List (List UInt8)} (hn : n < 2 ^ 32)
    (h : lookup disk path n = some r) : r < 2 ^ 32 := by
  induction path generalizing n with
  | nil =>
    obtain rfl := Option.some.inj h
    exact hn
  | cons token path ih =>
    rw [lookup] at h
    split at h
    · obtain ⟨found, hchild, h⟩ := Option.bind_eq_some_iff.mp h
      cases found with
      | none =>
        obtain rfl := Option.some.inj h
        decide
      | some child => exact ih (childOf_lt hchild) h
    · exact absurd h (by simp)

/-- Without errors, a lookup that returns gives the number that the disk leads to. -/
theorem getInodeNumbFromPath_spec {s' : Sfs} {path : List UInt8}
    (hrun : getInodeNumbFromPath u path s = some (n, s')) (hs : s.errors = []) :
    lookup s.disk (strtok path) 0 = some n ∧ n < 2 ^ 32 ∧ s' = s := by
  rw [getInodeNumbFromPath_eq hs] at hrun
  obtain ⟨r, hlookup, heq⟩ := Option.map_eq_some_iff.mp hrun
  obtain ⟨rfl, rfl⟩ := Prod.mk.inj heq
  exact ⟨hlookup, lookup_lt (by decide) hlookup, rfl⟩

end SimpleOs.Files
