import SimpleOs.Files.Agreement

/-!
# Finding a new file

The name that is stored for a new file begins with `/` and lacks its last character, so the
file is not found. A lookup of the path finds the inode that was allocated only if another
inode was written, and the one that was allocated had the name before.
-/

namespace SimpleOs.Files

open Bytes Inode

variable {u : Unspecified} {s s' : Sfs} {disk disk' : Memory} {str token newFile : List UInt8}
  {ts : List (List UInt8)} {is : List ℕ} {fileMode now d o m b n c i q : ℕ} {rand : ℕ × ℕ}

/-- When a new file is found again, and no other path is lost. The inode that is allocated is
not the one that is written, it has the name already, and is the only file in a block with
the root, or behind the other entries of the root. -/
def FindsNew (disk : Memory) (str newFile : List UInt8) (o m b : ℕ) : Prop :=
  strcmp (nameOf disk (inodeAt m)) str = some true ∧
    (1 ≤ m ∧ m < 4 ∧ b = m ∧
        (∀ i < 10, entry disk 0 i ≠ minusOne → ¬ IsName (childName disk i)) ∨
      4 ≤ m ∧ m % 4 ≠ 0 ∧ (∀ i < o, entry disk 0 i ≠ minusOne) ∧
        PathsKept disk (laidName (claimedDisk disk m b) newFile 0 m))

/-! ## The new disk -/

/-- The name that is stored fits in its field. -/
theorem Creates.newFile_length (hlength : str.length ≤ 14)
    (h : Creates u (slash :: str) rand disk newFile d o m b) : newFile.length ≤ 14 := by
  obtain ⟨i, _, hnew, _⟩ := h.split
  rw [hnew, substring, cString]
  refine (List.takeWhile_prefix _).length_le.trans ?_
  simpa using hlength

/-- The first character of the name that is laid over the block. -/
theorem laidName_first (hm : m < 5000) (hslash : ∃ rest, newFile = slash :: rest) :
    laidName disk newFile 0 m (inodeAt (writtenInode 0 m) + name) = slash := by
  have hwritten : inodeAt (writtenInode 0 m) = inodeBlock m + 0 := inodeAt_written hm
  obtain ⟨rest, rfl⟩ := hslash
  rw [hwritten, Nat.add_zero, laidName, splice_inside (by decide)]
  exact splice_inside (Nat.succ_pos _)

/-- The disk on which only the maps and the name are written agrees with the new disk. -/
theorem createdDisk_agree (hm : m < 5000) (hb : b < 5000) (hfour : 4 ≤ m)
    (hlength : newFile.length ≤ 14) (hslash : ∃ rest, newFile = slash :: rest) :
    Agree (laidName (claimedDisk disk m b) newFile 0 m)
      (createdDisk u disk newFile fileMode now 0 o m b) (writtenInode 0 m) o := by
  have hwritten : inodeAt (writtenInode 0 m) = inodeBlock m + 0 := inodeAt_written hm
  have hblock : inodeBlock m = BLOCK_SIZE * (20 + m / 4) := inodeBlock_eq (by omega)
  have hroot : inodeAt 0 = 20 * BLOCK_SIZE ∧ inodeBlock 0 = 20 * BLOCK_SIZE := by decide
  constructor
  · unfold writtenInode
    omega
  · intro c hc hentry
    rw [hwritten] at hc
    by_cases hin : inodeBlock m ≤ c ∧ c < inodeBlock m + BLOCK_SIZE
    · obtain ⟨k, rfl⟩ := Nat.exists_eq_add_of_le hin.1
      have hk : k < BLOCK_SIZE := by omega
      have hbehind : Inode.size ≤ k := by omega
      rw [createdDisk_inside hk, laidName, splice_inside hk, newBlock, set_apply, newInode_apply]
      · rw [strcpy, splice_outside, inodeBuffer_claimed hm hk, strcpy, splice_outside, view, view,
          claimedDisk_apply hm hb]
        · rw [hblock]
          unfold BLOCK_SIZE
          omega
        all_goals
          unfold Inode.size at hbehind
          simp only [name, offsetInBlock, Inode.size, BLOCK_SIZE]
          omega
      all_goals
        unfold Inode.size at hbehind
        simp only [block_ptr, offsetInBlock, Inode.size, BLOCK_SIZE]
        omega
    · have hlaid : laidName (claimedDisk disk m b) newFile 0 m c = claimedDisk disk m b c :=
        splice_outside (by omega)
      rw [hlaid, createdDisk, splice_outside (by omega)]
      by_cases hdir : inodeBlock 0 ≤ c ∧ c < inodeBlock 0 + BLOCK_SIZE
      · obtain ⟨k, rfl⟩ := Nat.exists_eq_add_of_le hdir.1
        rw [splice_inside (by omega), directoryBlock, set_apply, inodeBuffer_apply (by omega),
          claimedDisk_apply hm hb]
        · rw [hroot.2]
          omega
        · rw [hroot.1, hroot.2] at hentry
          simp only [block_ptr, offsetInBlock, Inode.size, BLOCK_SIZE]
          omega
      · rw [splice_outside (by omega)]
  · exact laidName_first hm hslash
  · obtain ⟨rest, rfl⟩ := hslash
    exact createdDisk_named hm

/-- The same bytes give the same name. -/
theorem SameInode.name (h : SameInode disk disk' n) :
    nameOf disk' (inodeAt n) = nameOf disk (inodeAt n) := by
  refine List.map_congr_left fun k hk => h _ (by omega) ?_
  have hlt := List.mem_range.mp hk
  simp only [Inode.name, Inode.size]
  omega

/-- An inode next to the one that is written. -/
theorem createdDisk_same (hm : m < 5000) (hlength : newFile.length ≤ 14)
    (hw : m ≠ writtenInode 0 m) :
    SameInode disk (createdDisk u disk newFile fileMode now 0 o m b) m := by
  have hfit : name + newFile.length + 1 ≤ Inode.size := by
    simp only [name, Inode.size]
    omega
  exact (laidName_same hm hfit rfl hw).trans (createdDisk_neighbour hm rfl hw)

/-- Only one inode changes when the maps and a short name are written. -/
theorem laid_same (hm : m < 5000) (hb : b < 5000) (hlength : newFile.length ≤ 14)
    (hq : q < 2 ^ 31) (hw : q ≠ writtenInode 0 m) :
    SameInode disk (laidName (claimedDisk disk m b) newFile 0 m) q := by
  have hclaimed : SameInode disk (claimedDisk disk m b) q := by
    intro c hc _
    rw [inodeAt_eq hq] at hc
    exact claimedDisk_apply hm hb (by omega)
  by_cases hnear : q / 4 = m / 4
  · have hfit : name + newFile.length + 1 ≤ Inode.size := by
      simp only [name, Inode.size]
      omega
    exact hclaimed.trans (laidName_same hm hfit hnear hw)
  · intro c hc hlt
    rw [laidName, splice_outside, hclaimed c hc hlt]
    rw [inodeAt_eq hq] at hc hlt
    rw [inodeBlock_eq (by omega)]
    simp only [Inode.size, BLOCK_SIZE] at *
    omega

/-- A new file in another block than the root. -/
theorem createdDisk_entry (hlength : newFile.length ≤ 14)
    (hslash : ∃ rest, newFile = slash :: rest) (hfour : 4 ≤ m)
    (hcreates : Creates u (slash :: str) rand disk newFile 0 o m b) :
    NewEntry disk (laidName (claimedDisk disk m b) newFile 0 m)
      (createdDisk u disk newFile fileMode now 0 o m b) o m (writtenInode 0 m) := by
  have hm := hcreates.inode_lt
  have hb := hcreates.block_lt
  obtain ⟨ho, hspace, _⟩ := openChildSpace_spec hcreates.space
  rw [get_inodeBuffer (by simp only [block_ptr, Inode.size]; omega)] at hspace
  have hblock : inodeBlock m = BLOCK_SIZE * (20 + m / 4) := inodeBlock_eq (by omega)
  have hroot : inodeAt 0 = 20 * BLOCK_SIZE ∧ inodeBlock 0 = 20 * BLOCK_SIZE := by decide
  have hblocks : inodeBlock 0 ≠ inodeBlock m := by
    rw [hblock, hroot.2]
    unfold BLOCK_SIZE
    omega
  have hagree : Agree (laidName (claimedDisk disk m b) newFile 0 m)
      (createdDisk u disk newFile fileMode now 0 o m b) (writtenInode 0 m) o :=
    createdDisk_agree hm hb hfour hlength hslash
  have hrange := hagree.range
  have hlaid : SameInode disk (laidName (claimedDisk disk m b) newFile 0 m) 0 :=
    laid_same hm hb hlength (by decide) (by omega)
  constructor
  · exact hagree
  · exact ho
  · exact hspace
  · exact fun i hi => hlaid.entry hi
  · exact (createdDisk_directory hm ho hblocks).1
  · exact hm
  · exact fun hw => (createdDisk_same hm hlength hw).name
  · rw [hagree.same, hlaid _ (by omega) (by decide)]
    · have hapart := inodeAt_apart (q := writtenInode 0 m) (d := 0) (by omega) (by decide)
        (by omega)
      simp only [name, Inode.size] at *
      omega
    · simp only [name]
      omega

/-- A new file in the block of the root: its data block is the only entry of the root. -/
theorem createdDisk_only (hm : m < 4) (hb : b < 5000) (hc : c ≠ minusOne) :
    childOf (createdDisk u disk newFile fileMode now 0 o m b) 0 token (List.range 10) =
        some (some c) ↔
      c = b ∧ strcmp (nameOf (createdDisk u disk newFile fileMode now 0 o m b) (inodeAt b)) token =
        some true := by
  have hw : writtenInode 0 m = 0 := by
    unfold writtenInode
    omega
  obtain ⟨_, _, hfirst, hrest⟩ : get (createdDisk u disk newFile fileMode now 0 o m b)
      (inodeAt (writtenInode 0 m)) state = file ∧ _ := createdDisk_written (by omega) hb
  rw [hw] at hfirst hrest
  have hreadable : Readable b := readable_of_lt hb
  constructor
  · intro h
    obtain ⟨_, hcmp, i, hi, hentry, hne, hbefore⟩ := childOf_range h
    have hi0 : i = 0 := by
      by_contra hi0
      exact hne (hentry.symm.trans (hrest i (by omega) hi))
    rw [hi0, hfirst] at hentry
    obtain rfl := hentry
    exact ⟨rfl, hcmp⟩
  · rintro ⟨rfl, hcmp⟩
    rw [List.range_succ_eq_map, childOf, hfirst, if_neg hc, if_pos hreadable, hcmp]
    rfl

/-- A new file in the block of the root is found again exactly if it is the data block that
is found, and the root had no other files. -/
theorem foundAgain_near (hcons : RootConsistent disk) (hstr : IsName str)
    (hroot : NotInRoot disk str) (hlength : newFile.length ≤ 14)
    (hslash : ∃ rest, newFile = slash :: rest) (hm : m < 4) (hb : b < 5000) :
    FoundAgain disk (createdDisk u disk newFile fileMode now 0 o m b) str m ↔
      strcmp (nameOf disk (inodeAt m)) str = some true ∧ 1 ≤ m ∧ b = m ∧
        ∀ i < 10, entry disk 0 i ≠ minusOne → ¬ IsName (childName disk i) := by
  have hm1 : m ≠ minusOne := by
    unfold minusOne
    omega
  have hw : writtenInode 0 m = 0 := by
    unfold writtenInode
    omega
  have hfirst : createdDisk u disk newFile fileMode now 0 o m b (inodeAt (writtenInode 0 m) + name)
      = slash := by
    obtain ⟨rest, rfl⟩ := hslash
    exact createdDisk_named (by omega)
  rw [hw] at hfirst
  have hname (hpos : 1 ≤ m) :
      nameOf (createdDisk u disk newFile fileMode now 0 o m b) (inodeAt m) =
        nameOf disk (inodeAt m) := (createdDisk_same (by omega) hlength (by omega)).name
  unfold FoundAgain
  rw [strtok_name hstr.1 hstr.2.1, lookup_single hm1, createdDisk_only hm hb hm1]
  constructor
  · rintro ⟨⟨rfl, hcmp⟩, hkept⟩
    have hpos : 1 ≤ m := by
      by_contra hzero
      obtain rfl : m = 0 := by omega
      rw [strcmp_first hstr (Or.inl hfirst)] at hcmp
      exact absurd hcmp (by decide)
    rw [hname hpos] at hcmp
    refine ⟨hcmp, hpos, rfl, fun i hi hne hchild => ?_⟩
    rcases hcons.child hi hne with ⟨_, hfound⟩ | ⟨_, hno, _⟩
    · rw [pathsKept_iff] at hkept
      have hpath := hkept [childName disk i] _ (by simpa using hchild)
        ((lookup_single hne).mpr hfound) hne
      obtain ⟨_, hcmp'⟩ := (createdDisk_only hm hb hne).mp ((lookup_single hne).mp hpath)
      rw [hname hpos] at hcmp'
      refine hroot i hi hne ?_
      change childName disk i = str
      rw [← cString_of_strcmp hchild.2.2 hcmp', cString_of_strcmp hstr.2.2 hcmp]
    · exact hno hchild
  · rintro ⟨hcmp, hpos, rfl, hno⟩
    rw [hname hpos]
    refine ⟨⟨rfl, hcmp⟩, ?_⟩
    rw [pathsKept_iff]
    intro ts n hts hn hne
    cases ts with
    | nil => exact hn
    | cons t ts =>
      exfalso
      obtain ⟨_, c, hchild, _⟩ := (lookup_cons_iff hne).mp hn
      have ht := hts t List.mem_cons_self
      obtain ⟨_, hcmp', i, hi, hentry, hc, _⟩ := childOf_range hchild
      refine hno i hi (hentry ▸ hc) ?_
      rwa [childName, hentry, cString_of_strcmp ht.2.2 hcmp']

/-- A new file in another block is found again exactly if another inode is written, and the
entries before the new one are in use. -/
theorem foundAgain_far (hcons : RootConsistent disk) (hstr : IsName str)
    (hroot : NotInRoot disk str) (hlength : newFile.length ≤ 14)
    (hslash : ∃ rest, newFile = slash :: rest) (hfour : 4 ≤ m)
    (hcreates : Creates u (slash :: str) rand disk newFile 0 o m b) :
    FoundAgain disk (createdDisk u disk newFile fileMode now 0 o m b) str m ↔
      strcmp (nameOf disk (inodeAt m)) str = some true ∧ m % 4 ≠ 0 ∧
        (∀ i < o, entry disk 0 i ≠ minusOne) ∧
        PathsKept disk (laidName (claimedDisk disk m b) newFile 0 m) := by
  have hm := hcreates.inode_lt
  have hm1 : m ≠ minusOne := by
    unfold minusOne
    omega
  have hw : writtenInode 0 m = m ↔ m % 4 = 0 := writtenInode_eq_iff
  have hnew : NewEntry disk (laidName (claimedDisk disk m b) newFile 0 m)
      (createdDisk u disk newFile fileMode now 0 o m b) o m (writtenInode 0 m) :=
    createdDisk_entry hlength hslash hfour hcreates
  unfold FoundAgain
  rw [strtok_name hstr.1 hstr.2.1, lookup_single hm1]
  constructor
  · rintro ⟨hfound, hkept⟩
    obtain ⟨hne, hcmp, hused⟩ := hnew.of_found hstr hroot hfound
    exact ⟨hcmp, fun hzero => hne (hw.mpr hzero).symm, hused,
      hnew.of_kept hcons hstr hroot hfound hkept⟩
  · rintro ⟨hcmp, hpos, hused, hlaid⟩
    have hkept := hnew.kept hlaid
    exact ⟨hnew.found hcons hstr hroot hkept (fun heq => hpos (hw.mp heq.symm)) hcmp hused, hkept⟩

/-! ## Paths that lead to the inode that is written -/

/-- Every number that paths lead to is positive. -/
def Positive (disk : Memory) : Prop :=
  ∀ ts q, (∀ t ∈ ts, IsName t) → lookup disk ts 0 = some q → q ≠ minusOne → q < 2 ^ 31 ∧
    ∀ i < 10, entry disk q i ≠ minusOne → entry disk q i < 2 ^ 31

/-- A scan in which the inode that is written is passed by. -/
theorem childOf_laid (hm : m < 5000) (hb : b < 5000) (hlength : newFile.length ≤ 14)
    (hslash : ∃ rest, newFile = slash :: rest) (htoken : IsName token) (hq : q < 2 ^ 31)
    (hqw : q ≠ writtenInode 0 m)
    (his : ∀ i ∈ is, i < 10 ∧ (entry disk q i ≠ minusOne → entry disk q i < 2 ^ 31))
    (hn : n ≠ writtenInode 0 m) (h : childOf disk q token is = some (some n)) :
    childOf (laidName (claimedDisk disk m b) newFile 0 m) q token is = some (some n) := by
  have hsame {q : ℕ} (hq : q < 2 ^ 31) (hqw : q ≠ writtenInode 0 m) :
      SameInode disk (laidName (claimedDisk disk m b) newFile 0 m) q :=
    laid_same hm hb hlength hq hqw
  have hfirst : laidName (claimedDisk disk m b) newFile 0 m (inodeAt (writtenInode 0 m) + name) =
      slash := laidName_first hm hslash
  induction is with
  | nil => exact absurd h (by simp [childOf])
  | cons i is ih =>
    obtain ⟨hi, hlt⟩ := his i List.mem_cons_self
    have hbehind := ih fun i hi => his i (List.mem_cons_of_mem _ hi)
    obtain ⟨hne, hreadable, hcases⟩ := childOf_cons_iff.mp h
    rw [childOf_cons_iff, (hsame hq hqw).entry hi]
    refine ⟨hne, hreadable, ?_⟩
    by_cases hw : entry disk q i = writtenInode 0 m
    · right
      rw [hw, strcmp_first htoken (Or.inl hfirst)]
      rcases hcases with ⟨_, hentry⟩ | ⟨_, hrest⟩
      · exact absurd (hentry.symm.trans hw) hn
      · exact ⟨rfl, hbehind hrest⟩
    · rw [(hsame (hlt hne) hw).name]
      exact hcases.imp_right (And.imp_right hbehind)

/-- No path leads to inode `w`. -/
def Unreached (disk : Memory) (w : ℕ) : Prop :=
  ∀ ts, (∀ t ∈ ts, IsName t) → lookup disk ts 0 ≠ some w

/-- When a new file is found again on a disk without negative numbers: as `FindsNew`, with the
paths that must be kept given by the disk before the call. -/
def FindsUnreached (disk : Memory) (str : List UInt8) (o m b : ℕ) : Prop :=
  strcmp (nameOf disk (inodeAt m)) str = some true ∧
    (1 ≤ m ∧ m < 4 ∧ b = m ∧
        (∀ i < 10, entry disk 0 i ≠ minusOne → ¬ IsName (childName disk i)) ∨
      4 ≤ m ∧ m % 4 ≠ 0 ∧ (∀ i < o, entry disk 0 i ≠ minusOne) ∧
        Unreached disk (writtenInode 0 m))

/-- If there are no negative numbers, all paths are kept when the maps and the name are
written exactly if none leads to the inode that is written. -/
theorem pathsKept_laid_iff (hm : m < 5000) (hb : b < 5000) (hfour : 4 ≤ m)
    (hlength : newFile.length ≤ 14) (hslash : ∃ rest, newFile = slash :: rest)
    (hpos : Positive disk) :
    PathsKept disk (laidName (claimedDisk disk m b) newFile 0 m) ↔
      Unreached disk (writtenInode 0 m) := by
  have hw : 4 ≤ writtenInode 0 m ∧ writtenInode 0 m < 5000 := by
    unfold writtenInode
    omega
  rw [pathsKept_iff]
  constructor
  · intro h ts hts hlookup
    have hne : writtenInode 0 m ≠ minusOne := by
      unfold minusOne
      omega
    have hlaid := h ts _ hts hlookup hne
    rcases List.eq_nil_or_concat ts with rfl | ⟨ts, t, rfl⟩
    · have hzero := Option.some.inj hlaid
      omega
    · rw [List.concat_eq_append] at hlaid hts
      obtain ⟨_, _, _, hchild⟩ := (lookup_concat hne).mp hlaid
      have hcmp := (childOf_found hchild).2.1
      rw [strcmp_first (hts t (by simp)) (Or.inl (laidName_first hm hslash))] at hcmp
      exact absurd hcmp (by decide)
  · intro h ts
    induction ts using List.reverseRecOn with
    | nil => exact fun n _ hn _ => hn
    | append_singleton ts t ih =>
      intro n hts hn hne
      have hts' : ∀ t ∈ ts, IsName t := fun t ht => hts t (List.mem_append_left _ ht)
      obtain ⟨q, hq, hreadable, hchild⟩ := (lookup_concat hne).mp hn
      have hqne := hreadable.ne_minusOne
      obtain ⟨hlt, hentries⟩ := hpos ts q hts' hq hqne
      refine (lookup_concat hne).mpr ⟨q, ih q hts' hq hqne, hreadable, ?_⟩
      apply childOf_laid hm hb hlength hslash (hts t (by simp)) hlt
      · rintro rfl
        exact h ts hts' hq
      · exact fun i hi => ⟨List.mem_range.mp hi, hentries i (List.mem_range.mp hi)⟩
      · rintro rfl
        exact h _ hts hn
      · exact hchild

/-- On a disk without negative numbers the two conditions agree. -/
theorem findsNew_iff (hm : m < 5000) (hb : b < 5000) (hlength : newFile.length ≤ 14)
    (hslash : ∃ rest, newFile = slash :: rest) (hpos : Positive disk) :
    FindsNew disk str newFile o m b ↔ FindsUnreached disk str o m b := by
  refine and_congr_right fun _ => or_congr_right (and_congr_right fun hfour => ?_)
  rw [pathsKept_laid_iff hm hb hfour hlength hslash hpos]

/-! ## The result -/

/-- A new file is found again on the disk that `sfs_create` leaves exactly in this case. -/
theorem foundAgain_createdDisk_iff (hstr : IsName str) (hcons : RootConsistent disk)
    (hroot : NotInRoot disk str) (hnew : newFile.length ≤ 14)
    (hslash : ∃ rest, newFile = slash :: rest)
    (hcreates : Creates u (slash :: str) rand disk newFile 0 o m b) :
    FoundAgain disk (createdDisk u disk newFile fileMode now 0 o m b) str m ↔
      FindsNew disk str newFile o m b := by
  unfold FindsNew
  by_cases hm : m < 4
  · rw [foundAgain_near hcons hstr hroot hnew hslash hm hcreates.block_lt]
    constructor
    · rintro ⟨hcmp, hpos, hb, hno⟩
      exact ⟨hcmp, Or.inl ⟨hpos, hm, hb, hno⟩⟩
    · rintro ⟨hcmp, ⟨hpos, _, hb, hno⟩ | ⟨hfour, _⟩⟩
      · exact ⟨hcmp, hpos, hb, hno⟩
      · omega
  · rw [foundAgain_far hcons hstr hroot hnew hslash (by omega) hcreates]
    constructor
    · rintro ⟨hcmp, hpos, hused, hlaid⟩
      exact ⟨hcmp, Or.inr ⟨by omega, hpos, hused, hlaid⟩⟩
    · rintro ⟨hcmp, ⟨_, hlt, _⟩ | ⟨_, hpos, hused, hlaid⟩⟩
      · exact absurd hlt hm
      · exact ⟨hcmp, hpos, hused, hlaid⟩

/-- After `sfs_create` succeeded for a name of at most 14 characters that was not in the root,
the path leads to the inode that was allocated, and every other path where it did, exactly if
another inode was written and that one had the name before, and is the only file of the root
or behind the other ones. On a disk without negative numbers the inode that was written must
be one that no path led to. -/
theorem created_file_found_iff (u : Unspecified) (str : List UInt8) (fileMode : ℕ)
    (rand : ℕ × ℕ) (now : ℕ) (s s' : Sfs) (hstr : IsName str) (hlength : str.length ≤ 14)
    (hcons : RootConsistent s.disk) (hroot : NotInRoot s.disk str)
    (hrun : sfsCreate u (slash :: str) fileMode rand now s = some (0, s')) (newFile : List UInt8)
    (d o m b : ℕ) (hcreates : Creates u (slash :: str) rand s.disk newFile d o m b) :
    (Positive s.disk → (FoundAgain s.disk s'.disk str m ↔ FindsUnreached s.disk str o m b)) ∧
      (FoundAgain s.disk s'.disk str m ↔ FindsNew s.disk str newFile o m b) := by
  have hslash := hcreates.named hstr
  have hnew := hcreates.newFile_length hlength
  have hfinds : FoundAgain s.disk s'.disk str m ↔ FindsNew s.disk str newFile o m b := by
    rw [hcreates.disk_eq hrun, hcreates.root hstr.2.1]
    exact foundAgain_createdDisk_iff hstr hcons hroot hnew hslash
      (hcreates.root hstr.2.1 ▸ hcreates)
  exact ⟨fun hpos => hfinds.trans
    (findsNew_iff hcreates.inode_lt hcreates.block_lt hnew hslash hpos), hfinds⟩

/-! ## Runs on given inputs -/

/-- A new file system in which inode 1 is free, and has a name. -/
def namedDisk : Memory := newInode mountedDisk (inodeAt 1) (chars "ab") 0 1 0

/-- A root without entries is consistent. -/
theorem rootConsistent_of_empty (hroot : IsDirectory disk 0)
    (hnone : ∀ i < 10, entry disk 0 i = minusOne) : RootConsistent disk :=
  ⟨hroot, fun i hi _ _ hne => absurd (hnone i hi) hne, fun i hi hne => absurd (hnone i hi) hne⟩

/-- The theorem for a file with inode 1 and data block 1, where inode 1 had the name. -/
theorem created_file_found_one : ∃ s',
    sfsCreate sampleUnspecified (chars "/ab") 0 (1, 1) 0 ⟨namedDisk, [], 0, 0⟩ = some (0, s') ∧
      FoundAgain namedDisk s'.disk (chars "ab") 1 := by
  have hrun : (sfsCreate sampleUnspecified (chars "/ab") 0 (1, 1) 0
      ⟨namedDisk, [], 0, 0⟩).map Prod.fst = some 0 := by
    decide +kernel
  obtain ⟨⟨r, s'⟩, hs', rfl⟩ := Option.map_eq_some_iff.mp hrun
  have hnone : ∀ i < 10, entry namedDisk 0 i = minusOne := by decide +kernel
  have hcreates : Creates sampleUnspecified (chars "/ab") (1, 1) namedDisk (chars "/a") 0 9 1 1 :=
    sample_creates (by decide +kernel) (by decide) (by decide) (by decide +kernel)
      (by decide +kernel)
  have hstr : IsName (chars "ab") := ⟨by decide +kernel, by decide +kernel, by decide +kernel⟩
  have hpath : chars "/ab" = slash :: chars "ab" := by decide +kernel
  rw [hpath] at hs' hcreates ⊢
  refine ⟨s', hs', (created_file_found_iff sampleUnspecified (chars "ab") 0 (1, 1) 0
    ⟨namedDisk, [], 0, 0⟩ s' hstr (by decide +kernel)
    (rootConsistent_of_empty (by decide +kernel) hnone)
    (fun i hi hne => absurd (hnone i hi) hne) hs' _ _ _ _ _ hcreates).2.mpr ?_⟩
  exact ⟨by decide +kernel, Or.inl ⟨by decide, by decide, rfl,
    fun i hi hne => absurd (hnone i hi) hne⟩⟩

/-- A file with inode 4 in a new file system is not found. -/
theorem created_file_not_found : RootConsistent mounted.disk ∧ NotInRoot mounted.disk (chars "ab") ∧
    ∃ s', sfsCreate sampleUnspecified (chars "/ab") 0 (4, 7) 0 mounted = some (0, s') ∧
      Creates sampleUnspecified (chars "/ab") (4, 7) mounted.disk (chars "/a") 0 9 4 7 ∧
      ¬ FoundAgain mounted.disk s'.disk (chars "ab") 4 := by
  have hnone : ∀ i < 10, entry mounted.disk 0 i = minusOne := by decide +kernel
  have hrun : (sfsCreate sampleUnspecified (chars "/ab") 0 (4, 7) 0 mounted).map (fun r =>
      (r.1, lookup r.2.disk (strtok (chars "/ab")) 0)) = some (0, some minusOne) := by
    decide +kernel
  obtain ⟨⟨r, s'⟩, hs', heq⟩ := Option.map_eq_some_iff.mp hrun
  obtain ⟨rfl, hlookup⟩ := Prod.mk.inj heq
  refine ⟨rootConsistent_of_empty (by decide +kernel) hnone,
    fun i hi hne => absurd (hnone i hi) hne, s', hs',
    mounted_creates (by decide) (by decide) (by decide +kernel) (by decide +kernel),
    fun hfound => ?_⟩
  have hpath : chars "/ab" = slash :: chars "ab" := by decide +kernel
  rw [hpath] at hlookup
  have hfour : some minusOne = some 4 := hlookup.symm.trans hfound.1
  exact absurd (Option.some.inj hfour) (by decide)

end SimpleOs.Files
