import SimpleOs.Files.Lookup

/-!
# Paths on two disks

Two disks that differ in an inode with a name that begins with `/`, and in an entry of the
root that is free on one of them, have the same paths as far as that entry.
-/

namespace SimpleOs.Files

open Bytes Inode

variable {disk disk' : Memory} {str token : List UInt8} {ts : List (List UInt8)} {is : List ℕ}
  {o m n c i j q w : ℕ}

/-! ## The claim -/

/-- Every path that resolves on the one disk resolves to the same inode on the other. -/
def PathsKept (disk disk' : Memory) : Prop :=
  ∀ path n, 0 ∉ path → lookup disk (strtok path) 0 = some n → n ≠ minusOne →
    lookup disk' (strtok path) 0 = some n

/-- The new file is found, and every other path as before. -/
def FoundAgain (disk disk' : Memory) (str : List UInt8) (m : ℕ) : Prop :=
  lookup disk' (strtok (slash :: str)) 0 = some m ∧ PathsKept disk disk'

/-- The name of an entry of the root. -/
def childName (disk : Memory) (i : ℕ) : List UInt8 :=
  cString (nameOf disk (inodeAt (entry disk 0 i)))

/-- The root is a directory, and its children have different names and are found. -/
structure RootConsistent (disk : Memory) : Prop where
  /-- The root is a directory. -/
  root : IsDirectory disk 0
  /-- Two entries of the root that are in use have different names. -/
  distinct : ∀ i < 10, ∀ j < 10, entry disk 0 i ≠ minusOne → entry disk 0 j ≠ minusOne →
    childName disk i = childName disk j → i = j
  /-- Every child is found by its name. -/
  found : ∀ i < 10, entry disk 0 i ≠ minusOne →
    lookup disk (strtok (slash :: childName disk i)) 0 = some (entry disk 0 i)

/-- The kept paths, stated for lists of tokens in place of strings: every name keeps its inode. -/
theorem pathsKept_iff : PathsKept disk disk' ↔ ∀ ts n, (∀ t ∈ ts, IsName t) →
    lookup disk ts 0 = some n → n ≠ minusOne → lookup disk' ts 0 = some n := by
  constructor
  · intro h ts n hts hn hne
    have hpath := h (pathOf ts) n (zero_not_mem_pathOf hts)
    rw [strtok_pathOf hts] at hpath
    exact hpath hn hne
  · exact fun h path n hpath hn hne => h _ n (strtok_tokens hpath) hn hne

/-- A path of one name leads to inode `c` exactly if the scan of the root's entries finds it. -/
theorem lookup_single (hc : c ≠ minusOne) :
    lookup disk [token] 0 = some c ↔ childOf disk 0 token (List.range 10) = some (some c) := by
  rw [← List.nil_append [token], lookup_concat hc]
  constructor
  · rintro ⟨q, hq, _, hchild⟩
    obtain rfl := Option.some.inj hq
    exact hchild
  · exact fun hchild => ⟨0, rfl, by decide, hchild⟩

/-- A child of the root is found by its name, or it is the root itself, with a name that no
path contains. -/
theorem RootConsistent.child (h : RootConsistent disk) (hi : i < 10)
    (hne : entry disk 0 i ≠ minusOne) :
    (IsName (childName disk i) ∧
      childOf disk 0 (childName disk i) (List.range 10) = some (some (entry disk 0 i))) ∨
    (entry disk 0 i = 0 ∧ ¬ IsName (childName disk i) ∧
      (disk (inodeAt 0 + name) = slash ∨ disk (inodeAt 0 + name) = 0)) := by
  have hfound := h.found i hi hne
  have hzero : (0 : UInt8) ∉ slash :: childName disk i := by
    intro hmem
    rcases List.mem_cons.mp hmem with heq | hmem
    · exact absurd heq (by decide)
    · exact zero_not_mem_cString hmem
  have hts := strtok_tokens hzero
  rcases List.eq_nil_or_concat (strtok (slash :: childName disk i)) with hnil | ⟨ts, t, hsplit⟩
  · right
    rw [hnil] at hfound
    have hroot : entry disk 0 i = 0 := (Option.some.inj hfound).symm
    refine ⟨hroot, fun hname => ?_, ?_⟩
    · rw [strtok_name hname.1 hname.2.1] at hnil
      exact absurd hnil (by simp)
    · obtain ⟨rest, hname⟩ := nameOf_cons disk (inodeAt 0)
      by_contra hother
      obtain ⟨hslash, hfirst⟩ := not_or.mp hother
      rw [childName, hroot, hname, cString, List.takeWhile_cons_of_pos (by simpa using hfirst),
        strtok_slash, strtok, tokens, if_neg hslash] at hnil
      exact tokens_ne_nil (by simp) hnil
  · left
    rw [hsplit, List.concat_eq_append] at hfound hts
    obtain ⟨q, _, _, hchild⟩ := (lookup_concat hne).mp hfound
    have ht := hts t (by simp)
    have heq : childName disk i = t := cString_of_strcmp ht.2.2 (childOf_found hchild).2.1
    have hname : IsName (childName disk i) := heq ▸ ht
    refine ⟨hname, (lookup_single hne).mp ?_⟩
    rw [← strtok_name hname.1 hname.2.1]
    exact h.found i hi hne

/-! ## Disks that differ in one inode -/

/-- Two disks differ in inode `w`, whose name begins with `/`, and in entry `o` of the root. -/
structure Agree (disk disk' : Memory) (w o : ℕ) : Prop where
  /-- The bytes are those of an inode in another block than the root. -/
  range : 4 ≤ w ∧ w < 2 ^ 31
  /-- The other bytes are the same. -/
  same : ∀ c, c < inodeAt w ∨ inodeAt w + Inode.size ≤ c →
    c < inodeAt 0 + (64 + 4 * o) ∨ inodeAt 0 + (64 + 4 * o) + 4 ≤ c → disk' c = disk c
  /-- The name on the one disk. -/
  first : disk (inodeAt w + name) = slash
  /-- The name on the other disk. -/
  first' : disk' (inodeAt w + name) = slash

theorem Agree.symm (h : Agree disk disk' w o) : Agree disk' disk w o :=
  ⟨h.range, fun c hc ho => (h.same c hc ho).symm, h.first', h.first⟩

/-- The entries of other inodes are the same on both disks, but for the root's entry `o`. -/
theorem Agree.entry (h : Agree disk disk' w o) (hq : q < 2 ^ 32) (hw : q ≠ w) (hi : i < 10)
    (ho : ¬ (q = 0 ∧ i = o)) (hlt : o < 10) : entry disk' q i = entry disk q i := by
  have hw' := inodeAt_apart h.range.2 hq (Ne.symm hw)
  refine load_congr fun c hc hc' => h.same c ?_ ?_
  · simp only [block_ptr, Inode.size] at *
    omega
  · by_cases hq0 : q = 0
    · subst hq0
      have hio : i ≠ o := fun heq => ho ⟨rfl, heq⟩
      simp only [block_ptr] at *
      omega
    · have hroot := inodeAt_apart (q := 0) (by decide) hq (Ne.symm hq0)
      simp only [block_ptr, Inode.size] at *
      omega

/-- The names of other inodes are the same on both disks. -/
theorem Agree.name (h : Agree disk disk' w o) (hq : q < 2 ^ 32) (hw : q ≠ w) (hlt : o < 10) :
    nameOf disk' (inodeAt q) = nameOf disk (inodeAt q) := by
  have hw' := inodeAt_apart h.range.2 hq (Ne.symm hw)
  refine List.map_congr_left fun k hk => h.same _ ?_ ?_
  · have hk := List.mem_range.mp hk
    simp only [Inode.name, Inode.size] at *
    omega
  · have hk := List.mem_range.mp hk
    by_cases hq0 : q = 0
    · subst hq0
      simp only [Inode.name] at *
      omega
    · have hroot := inodeAt_apart (q := 0) (by decide) hq (Ne.symm hq0)
      simp only [Inode.name, Inode.size] at *
      omega

/-- The inode in which they differ is not found. -/
theorem Agree.not_found (h : Agree disk disk' w o) (htoken : IsName token)
    (hfound : childOf disk q token is = some (some c)) : c ≠ w := by
  rintro rfl
  have hname := (childOf_found hfound).2.1
  rw [strcmp_first htoken (Or.inl h.first)] at hname
  exact absurd hname (by decide)

/-- A scan of entries that are the same on both disks finds the same child. -/
theorem Agree.childOf (h : Agree disk disk' w o) (htoken : IsName token) (hq : q < 2 ^ 32)
    (hw : q ≠ w) (hlt : o < 10) (his : ∀ i ∈ is, i < 10 ∧ ¬ (q = 0 ∧ i = o)) :
    childOf disk' q token is = childOf disk q token is := by
  induction is with
  | nil => rfl
  | cons i is ih =>
    obtain ⟨hi, ho⟩ := his i List.mem_cons_self
    have hrest := ih fun i hi => his i (List.mem_cons_of_mem _ hi)
    rw [Files.childOf, Files.childOf, h.entry hq hw hi ho hlt, hrest]
    by_cases hc : Files.entry disk q i = w
    · rw [hc, strcmp_first htoken (Or.inl h.first), strcmp_first htoken (Or.inl h.first')]
    · have hname : nameOf disk' (inodeAt (Files.entry disk q i)) =
          nameOf disk (inodeAt (Files.entry disk q i)) := h.name block_ptr_lt hc hlt
      rw [hname]

/-- The entries, split at entry `o`. -/
theorem range_split (hlt : o < 10) :
    List.range 10 = List.range o ++ o :: List.range' (o + 1) (9 - o) := by
  rw [List.range_eq_range', List.range_eq_range', ← List.range'_succ,
    show 9 - o + 1 = 10 - o by omega]
  have happend := @List.range'_append 0 o (10 - o) 1
  rw [Nat.one_mul, Nat.zero_add, show o + (10 - o) = 10 by omega] at happend
  exact happend.symm

/-- The scan of the root goes as far as entry `o`, if that is -1. -/
theorem Agree.childOf_root (h : Agree disk disk' w o) (htoken : IsName token) (hlt : o < 10)
    (ho : Files.entry disk 0 o = minusOne)
    (hfound : Files.childOf disk 0 token (List.range 10) = some (some c)) :
    Files.childOf disk' 0 token (List.range 10) = some (some c) := by
  have hw := h.range
  rw [range_split hlt] at hfound ⊢
  have hbefore := childOf_stop ho hfound
  apply childOf_append_found
  rw [h.childOf htoken (by decide) (by omega) hlt]
  · exact hbefore
  · intro i hi
    have hio := List.mem_range.mp hi
    omega

/-- A path on the disk on which entry `o` of the root is -1. -/
theorem Agree.lookup (h : Agree disk disk' w o) (hlt : o < 10)
    (ho : Files.entry disk 0 o = minusOne) (hts : ∀ t ∈ ts, IsName t) (hq : q < 2 ^ 32)
    (hw : q ≠ w) (hn : Files.lookup disk ts q = some n) (hne : n ≠ minusOne) :
    Files.lookup disk' ts q = some n := by
  induction ts generalizing q with
  | nil => exact hn
  | cons t ts ih =>
    have ht := hts t List.mem_cons_self
    obtain ⟨hreadable, c, hchild, hrest⟩ := (lookup_cons_iff hne).mp hn
    have hchild' : Files.childOf disk' q t (List.range 10) = some (some c) := by
      by_cases hq0 : q = 0
      · subst hq0
        exact h.childOf_root ht hlt ho hchild
      · rw [h.childOf ht hq hw hlt]
        · exact hchild
        · exact fun i hi => ⟨List.mem_range.mp hi, fun heq => hq0 heq.1⟩
    refine (lookup_cons_iff hne).mpr ⟨hreadable, c, hchild', ?_⟩
    exact ih (fun t ht => hts t (List.mem_cons_of_mem _ ht)) (childOf_lt hchild)
      (h.not_found ht hchild) hrest

/-- The inode in which they differ is at the end of no path. -/
theorem Agree.lookup_ne (h : Agree disk disk' w o) (hts : ∀ t ∈ ts, IsName t)
    (hq : Files.lookup disk ts 0 = some q) (hne : q ≠ minusOne) : q ≠ w := by
  rcases List.eq_nil_or_concat ts with rfl | ⟨ts, t, rfl⟩
  · obtain rfl := Option.some.inj hq
    have hrange := h.range
    omega
  · rw [List.concat_eq_append] at hq hts
    obtain ⟨_, _, _, hchild⟩ := (lookup_concat hne).mp hq
    exact h.not_found (hts t (by simp)) hchild

/-! ## A new entry -/

/-- The disks before a file is created, with the maps and the name written, and with the new
entry, if the directory is in another block. -/
structure NewEntry (disk laid disk' : Memory) (o m w : ℕ) : Prop where
  /-- The last two differ in the inode that is written, and in the entry. -/
  agree : Agree laid disk' w o
  /-- The number of the entry. -/
  lt : o < 10
  /-- The entry of the root that is filled was free. -/
  space : entry disk 0 o = minusOne
  /-- The disk with the maps and the name written has the old entries of the root. -/
  laid : ∀ i < 10, entry laid 0 i = entry disk 0 i
  /-- Afterwards the filled entry has the number of the new inode. -/
  new : entry disk' 0 o = m
  /-- The number of the inode. -/
  number : m < 5000
  /-- The name of the inode, if another one is written. -/
  named : m ≠ w → nameOf disk' (inodeAt m) = nameOf disk (inodeAt m)
  /-- The first character of the name of the root. -/
  rootName : disk' (inodeAt 0 + name) = disk (inodeAt 0 + name)

section NewEntry

variable {laid : Memory} (h : NewEntry disk laid disk' o m w)
include h

/-- All entries of the root but the filled one are as before. -/
theorem NewEntry.entry (hi : i < 10) (hne : i ≠ o) :
    Files.entry disk' 0 i = Files.entry disk 0 i := by
  have hrange := h.agree.range
  rw [h.agree.entry (by decide) (by omega) hi (fun heq => hne heq.2) h.lt, h.laid i hi]

/-- If the new file is found, the inode that is allocated has its name. -/
theorem NewEntry.of_found (hstr : IsName str) (hroot : NotInRoot disk str)
    (hfound : childOf disk' 0 str (List.range 10) = some (some m)) :
    m ≠ w ∧ strcmp (nameOf disk (inodeAt m)) str = some true ∧
      ∀ i < o, Files.entry disk 0 i ≠ minusOne := by
  obtain ⟨_, hcmp, j, hj, hentry, hne, hbefore⟩ := childOf_range hfound
  have hw : m ≠ w := h.agree.symm.not_found hstr hfound
  rw [h.named hw] at hcmp
  have hjo : j = o := by
    by_contra hjo
    rw [h.entry hj hjo] at hentry
    refine hroot j hj (hentry ▸ hne) ?_
    rw [hentry]
    exact cString_of_strcmp hstr.2.2 hcmp
  have hlt := h.lt
  refine ⟨hw, hcmp, fun i hi => ?_⟩
  rw [← h.entry (by omega) (by omega)]
  exact hbefore i (by omega)

/-- Paths that are kept when the maps and the name are written are kept. -/
theorem NewEntry.kept (hkept : PathsKept disk laid) : PathsKept disk disk' := by
  have hrange := h.agree.range
  rw [pathsKept_iff] at hkept ⊢
  intro ts n hts hn hne
  apply h.agree.lookup h.lt ?_ hts (by decide) (by omega) (hkept ts n hts hn hne) hne
  rw [h.laid o h.lt]
  exact h.space

/-- If the new file is found, paths that are kept are kept when only the maps and the name are
written. -/
theorem NewEntry.of_kept (hcons : RootConsistent disk) (hstr : IsName str)
    (hroot : NotInRoot disk str)
    (hfound : childOf disk' 0 str (List.range 10) = some (some m))
    (hkept : PathsKept disk disk') : PathsKept disk laid := by
  obtain ⟨_, hcmp, _⟩ := h.of_found hstr hroot hfound
  have hlt := h.lt
  have hrange := h.agree.range
  rw [pathsKept_iff] at hkept ⊢
  intro ts
  induction ts using List.reverseRecOn with
  | nil => exact fun n _ hn _ => hn
  | append_singleton ts t ih =>
    intro n hts hn hne
    have hts' : ∀ t ∈ ts, IsName t := fun t ht => hts t (List.mem_append_left _ ht)
    have ht : IsName t := hts t (by simp)
    obtain ⟨q, hq, hreadable, hchild⟩ := (lookup_concat hne).mp hn
    have hqne := hreadable.ne_minusOne
    have hq' := hkept ts q hts' hq hqne
    obtain ⟨r, hr, _, hchild'⟩ := (lookup_concat hne).mp (hkept _ n hts hn hne)
    obtain rfl := Option.some.inj (hq'.symm.trans hr)
    refine (lookup_concat hne).mpr ⟨q, ih q hts' hq hqne, hreadable, ?_⟩
    by_cases hq0 : q = 0
    · subst hq0
      rw [range_split hlt] at hchild' ⊢
      rcases childOf_append_or hchild' with hbefore | hbehind
      · apply childOf_append_found
        rw [← hbefore]
        refine (h.agree.childOf ht (by decide) (by omega) hlt fun i hi => ?_).symm
        have hio := List.mem_range.mp hi
        omega
      · exfalso
        obtain ⟨_, _, i, hi, hentry, _, hused⟩ := childOf_range hchild
        have hio : i < o := by
          by_contra hio
          by_cases heq : i = o
          · exact hne (hentry.symm.trans (heq ▸ h.space))
          · exact hused o (by omega) h.space
        obtain ⟨_, _, xs, j, ys, hsplit, hentry', _⟩ := childOf_found hbehind
        have hj : j = o ∨ o < j ∧ j < 10 := by
          have hmem : j ∈ o :: List.range' (o + 1) (9 - o) := by simp [hsplit]
          rcases List.mem_cons.mp hmem with heq | hmem
          · exact Or.inl heq
          · rw [List.mem_range'_1] at hmem
            omega
        rcases hj with rfl | ⟨hoj, hj⟩
        · -- The new entry has the name of a file that was not there.
          obtain rfl : n = m := hentry'.symm.trans h.new
          refine hroot i hi (hentry ▸ hne) ?_
          rw [hentry]
          exact cString_of_strcmp hstr.2.2 hcmp
        · -- The entry behind the new one has the name of the one before.
          rw [h.entry hj (by omega)] at hentry'
          have hsame : i = j := by
            apply hcons.distinct i hi j hj (hentry ▸ hne) (hentry' ▸ hne)
            rw [childName, childName, hentry, hentry']
          omega
    · rw [← h.agree.childOf ht (by unfold Readable at hreadable; omega)
        (h.agree.symm.lookup_ne hts' hq' hqne) hlt]
      · exact hchild'
      · exact fun i hi => ⟨List.mem_range.mp hi, fun heq => hq0 heq.1⟩

/-- The other entries of the root have other names. -/
theorem NewEntry.other (hcons : RootConsistent disk) (hstr : IsName str)
    (hroot : NotInRoot disk str) (hkept : PathsKept disk disk') (hi : i < 10) (hio : i ≠ o)
    (hne : Files.entry disk 0 i ≠ minusOne) :
    Readable (Files.entry disk' 0 i) ∧
      strcmp (nameOf disk' (inodeAt (Files.entry disk' 0 i))) str = some false := by
  rw [h.entry hi hio]
  rcases hcons.child hi hne with ⟨hname, hchild⟩ | ⟨hzero, _, hfirst⟩
  · rw [pathsKept_iff] at hkept
    have hpath := hkept [childName disk i] _ (by simpa using hname) ((lookup_single hne).mpr hchild)
      hne
    obtain ⟨hreadable, hcmp, _⟩ := childOf_range ((lookup_single hne).mp hpath)
    obtain ⟨rest, hterm⟩ := strcmp_true hname.2.2 hcmp
    refine ⟨hreadable, ?_⟩
    rw [hterm, strcmp_terminated hname.2.2 hstr.2.2]
    have hother : childName disk i ≠ str := hroot i hi hne
    simp [hother]
  · rw [hzero]
    refine ⟨by decide, strcmp_first hstr ?_⟩
    rwa [h.rootName]

/-- The new file is found at the first free entry if the inode that is allocated has its
name. -/
theorem NewEntry.found (hcons : RootConsistent disk) (hstr : IsName str)
    (hroot : NotInRoot disk str) (hkept : PathsKept disk disk') (hw : m ≠ w)
    (hcmp : strcmp (nameOf disk (inodeAt m)) str = some true)
    (hused : ∀ i < o, Files.entry disk 0 i ≠ minusOne) :
    childOf disk' 0 str (List.range 10) = some (some m) := by
  have hm := h.number
  have hlt := h.lt
  have hreadable : Readable m := readable_of_lt (by omega)
  rw [range_split hlt, childOf_append]
  · rw [childOf, h.new, if_neg (by unfold minusOne; omega), if_pos hreadable, h.named hw, hcmp]
    rfl
  · intro i hi
    have hio := List.mem_range.mp hi
    have hne := hused i hio
    refine ⟨?_, h.other hcons hstr hroot hkept (by omega) (by omega) hne⟩
    rwa [h.entry (by omega) (by omega)]

end NewEntry

end SimpleOs.Files
