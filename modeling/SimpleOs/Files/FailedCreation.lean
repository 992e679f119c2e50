import SimpleOs.Files.Errors
import SimpleOs.Files.Records

/-!
# Creations that fail

`sfs_create` counts the inode before it tests whether one was found, and takes nothing
back when a later step fails. So a call that fails leaves no trace only if it ends before
it looks for an inode.
-/

namespace SimpleOs.Files

open Bytes Inode

variable {u : Unspecified} {s s' : Sfs} {path : List UInt8} {n : ℕ} {type : MapType}

/-! ## The counter of the inodes -/

theorem blockWrite_counter (n : ℕ) (buf : Memory) (s : Sfs) :
    (blockWrite n buf s).2.numOccupiedInodeBytemap = s.numOccupiedInodeBytemap := by
  unfold blockWrite
  split <;> rfl

theorem keepBlock_counter (type : MapType) (kept : Option (ℕ × Memory)) (n : ℕ) (s : Sfs) :
    (keepBlock type kept n s).2.numOccupiedInodeBytemap = s.numOccupiedInodeBytemap := by
  unfold keepBlock blockRead
  split
  · split <;> rfl
  · rfl

/-- The search for a free entry does not count. -/
theorem findFree_counter {fuel : ℕ} {kept : Option (ℕ × Memory)}
    {found : Option (ℕ × ℕ × Memory)} (h : findFree type fuel n kept s = some (found, s')) :
    s'.numOccupiedInodeBytemap = s.numOccupiedInodeBytemap := by
  induction fuel generalizing n kept s with
  | zero => exact absurd h (by simp [findFree])
  | succ fuel ih =>
    rw [findFree] at h
    obtain ⟨block_in, _, h⟩ := Option.bind_eq_some_iff.mp h
    have hcount := keepBlock_counter type kept block_in s
    rcases hkeep : keepBlock type kept block_in s with ⟨_ | temp, s₁⟩
    · rw [hkeep] at h hcount
      obtain ⟨_, rfl⟩ := Prod.mk.inj (Option.some.inj h)
      exact hcount
    · rw [hkeep] at h hcount
      dsimp only at h
      split at h
      · exact (ih h).trans hcount
      · obtain ⟨_, rfl⟩ := Prod.mk.inj (Option.some.inj h)
        exact hcount

/-- Neither does the change of the entry. -/
theorem getFreeBitMapEntry_counter {rand : ℕ} {found : Option ℕ}
    (h : getFreeBitMapEntry type rand s = some (found, s')) :
    s'.numOccupiedInodeBytemap = s.numOccupiedInodeBytemap := by
  unfold getFreeBitMapEntry at h
  obtain ⟨⟨entry, s₁⟩, hfind, h⟩ := Option.bind_eq_some_iff.mp h
  have hcount := findFree_counter hfind
  rcases entry with _ | ⟨position, currBlock, temp⟩
  · obtain ⟨_, rfl⟩ := Prod.mk.inj (Option.some.inj h)
    exact hcount
  · simp only at h
    have hwrite := blockWrite_counter (type.offset + currBlock)
      (Function.update temp (position % BLOCK_SIZE) 1) s₁
    split at h
    all_goals
      rename_i s₂ heq
      rw [heq] at hwrite
      obtain ⟨_, rfl⟩ := Prod.mk.inj (Option.some.inj h)
      exact hwrite.trans hcount

/-- A block of an inode that was read. -/
theorem getBlockByInodeNumb_same {TEMP : Memory} (h : getBlockByInodeNumb u n s = some (TEMP, s'))
    (hn : n < 2 ^ 32) : TEMP = inodeBuffer u s.disk n ∧ s'.calm = s.calm := by
  obtain ⟨_, htemp, hsame⟩ :=
    getBlockByInodeNumb_spec (getBlockByInodeNumb_calm h) s.calm_errors hn
  exact ⟨htemp, hsame⟩

/-- States that differ in the errors only have the same counter. -/
theorem counter_of_calm (h : s'.calm = s.calm) :
    s'.numOccupiedInodeBytemap = s.numOccupiedInodeBytemap := by
  simpa [Sfs.calm] using congrArg Sfs.numOccupiedInodeBytemap h

/-- A call goes on behind a write with the same counter, or ends with it. -/
theorem blockWrite_counter_cases {buf : Memory} {k : Sfs → Option (ℤ × Sfs)} {r : ℤ}
    (h : (match blockWrite n buf s with
      | (false, s) => some (-1, s)
      | (true, s) => k s) = some (r, s')) :
    s'.numOccupiedInodeBytemap = s.numOccupiedInodeBytemap ∨
      ∃ s₁, s₁.numOccupiedInodeBytemap = s.numOccupiedInodeBytemap ∧ k s₁ = some (r, s') := by
  have hcount := blockWrite_counter n buf s
  rcases hwrite : blockWrite n buf s with ⟨_ | _, s₁⟩
  · rw [hwrite] at h hcount
    obtain ⟨_, rfl⟩ := Prod.mk.inj (Option.some.inj h)
    exact Or.inl hcount
  · rw [hwrite] at h hcount
    exact Or.inr ⟨s₁, hcount, h⟩

/-! ## Calls that fail -/

/-- The disk and the counters are as before. -/
def Untouched (s s' : Sfs) : Prop :=
  s'.disk = s.disk ∧ s'.numOccupiedInodeBytemap = s.numOccupiedInodeBytemap ∧
    s'.numOccupiedDataBlocksBytemap = s.numOccupiedDataBlocksBytemap

/-- The directory in which a file is to be created has no free entry. -/
def ParentFull (u : Unspecified) (path : List UInt8) (disk : Memory) : Prop :=
  ∃ i d, lastSlash path path.length = some i ∧
    lookup disk (strtok (substring u path 0 i)) 0 = some d ∧
    ∀ j < 10, entry disk d j ≠ minusOne

/-- The loop finds no free entry exactly if none of the ten is -1. -/
theorem openChildSpace_eq_none {dir : Memory} {a : ℕ} :
    openChildSpace dir a = none ↔ ∀ j < 10, get dir a (block_ptr j) ≠ minusOne := by
  unfold openChildSpace
  generalize 10 = k
  induction k with
  | zero => simp
  | succ k ih =>
    rw [List.range_succ, List.foldl_append, List.foldl_cons, List.foldl_nil]
    by_cases hfree : get dir a (block_ptr k) = minusOne
    · rw [if_pos hfree]
      exact ⟨fun h => absurd h (by simp), fun h => absurd hfree (h k (by omega))⟩
    · rw [if_neg hfree, ih]
      constructor
      · intro h j hj
        by_cases hjk : j = k
        · rwa [hjk]
        · exact h j (by omega)
      · exact fun h j hj => h j (by omega)

/-- No entry of the directory is found free exactly if the directory is full. -/
theorem parentFull_iff {i d : ℕ} (hslash : lastSlash path path.length = some i)
    (hlookup : lookup disk (strtok (substring u path 0 i)) 0 = some d) :
    openChildSpace (inodeBuffer u disk d) (offsetInBlock d) = none ↔ ParentFull u path disk := by
  have hentry : ∀ j < 10, get (inodeBuffer u disk d) (offsetInBlock d) (block_ptr j) =
      entry disk d j := by
    intro j hj
    exact get_inodeBuffer (by simp only [block_ptr, Inode.size]; omega)
  rw [openChildSpace_eq_none]
  constructor
  · exact fun hused => ⟨i, d, hslash, hlookup, fun j hj => hentry j hj ▸ hused j hj⟩
  · rintro ⟨i', d', hslash', hlookup', hused⟩ j hj
    obtain rfl := Option.some.inj (hslash.symm.trans hslash')
    obtain rfl := Option.some.inj (hlookup.symm.trans hlookup')
    rw [hentry j hj]
    exact hused j hj

/-- A call that fails ends before it looks for an inode, or has counted one. -/
theorem sfsCreate_failed {fileMode now : ℕ} {rand : ℕ × ℕ}
    (h : sfsCreate u path fileMode rand now s = some (-1, s')) :
    (s.numOccupiedInodeBytemap = 5000 ∧ s' = s) ∨
      s.numOccupiedInodeBytemap ≠ 5000 ∧
        ((ParentFull u path s.disk ∧ s'.calm = s.calm) ∨
          ¬ParentFull u path s.disk ∧
            s'.numOccupiedInodeBytemap = s.numOccupiedInodeBytemap + 1) := by
  unfold sfsCreate at h
  split at h
  · rename_i hcount
    exact Or.inl ⟨hcount, (Prod.mk.inj (Option.some.inj h)).2.symm⟩
  rename_i hcount
  refine Or.inr ⟨hcount, ?_⟩
  obtain ⟨i, hslash, h⟩ := Option.bind_eq_some_iff.mp h
  obtain ⟨⟨d, s₁⟩, hdir, h⟩ := Option.bind_eq_some_iff.mp h
  have hdir' : getInodeNumbFromPath u (substring u path 0 i) s.calm = some (d, s₁.calm) :=
    walk_calm hdir
  obtain ⟨hlookup, hd, hsame₁⟩ := getInodeNumbFromPath_spec hdir' s.calm_errors
  obtain ⟨⟨dir_block, s₂⟩, hread, h⟩ := Option.bind_eq_some_iff.mp h
  obtain ⟨rfl, hsame₂⟩ := getBlockByInodeNumb_same hread hd
  have hdisk : s₁.disk = s.disk := by simpa using congrArg Sfs.disk hsame₁
  have hfull : openChildSpace (inodeBuffer u s₁.disk d) (offsetInBlock d) = none ↔
      ParentFull u path s.disk := by
    rw [hdisk]
    exact parentFull_iff hslash hlookup
  have hcount₂ := counter_of_calm (hsame₂.trans hsame₁)
  dsimp only at h
  cases hspace : openChildSpace (inodeBuffer u s₁.disk d) (offsetInBlock d) with
  | none =>
    rw [hspace] at h
    obtain ⟨_, rfl⟩ := Prod.mk.inj (Option.some.inj h)
    exact Or.inl ⟨hfull.mp hspace, hsame₂.trans hsame₁⟩
  | some o =>
    refine Or.inr ⟨fun hparent => ?_, ?_⟩
    · rw [hfull.mpr hparent] at hspace
      exact absurd hspace (by simp)
    rw [hspace] at h
    obtain ⟨⟨found, s₃⟩, hinode, h⟩ := Option.bind_eq_some_iff.mp h
    have hcount₃ := (getFreeBitMapEntry_counter hinode).trans hcount₂
    cases found with
    | none =>
      obtain ⟨_, rfl⟩ := Prod.mk.inj (Option.some.inj h)
      exact congrArg (· + 1) hcount₃
    | some m =>
      obtain ⟨_, hm, hlt, _⟩ := getFreeBitMapEntry_spec (getFreeBitMapEntry_calm hinode) rfl
      obtain rfl := Option.some.inj hm
      obtain ⟨⟨temp, s₄⟩, hread', h⟩ := Option.bind_eq_some_iff.mp h
      have hcount₄ : s₄.numOccupiedInodeBytemap = s.numOccupiedInodeBytemap + 1 :=
        (counter_of_calm (getBlockByInodeNumb_same hread' (by omega)).2).trans
          (congrArg (· + 1) hcount₃)
      obtain ⟨_, _, h⟩ := Option.bind_eq_some_iff.mp h
      obtain ⟨⟨found, s₅⟩, hblock, h⟩ := Option.bind_eq_some_iff.mp h
      have hcount₅ := (getFreeBitMapEntry_counter hblock).trans hcount₄
      cases found with
      | none =>
        obtain ⟨_, rfl⟩ := Prod.mk.inj (Option.some.inj h)
        exact hcount₅
      | some b =>
        obtain ⟨_, _, h⟩ := Option.bind_eq_some_iff.mp h
        rcases blockWrite_counter_cases h with hsame | ⟨s₆, hcount₆, h⟩
        · exact hsame.trans hcount₅
        obtain ⟨_, _, h⟩ := Option.bind_eq_some_iff.mp h
        rcases blockWrite_counter_cases h with hsame | ⟨s₇, hcount₇, h⟩
        · exact hsame.trans (hcount₆.trans hcount₅)
        · exact absurd (Prod.mk.inj (Option.some.inj h)).1 (by decide)

/-- A call of `sfs_create` that fails leaves the disk and the counters as they were exactly
if the counter of the inodes was 5000, or the directory had no free entry. -/
theorem failed_create_untouched_iff (u : Unspecified) (path : List UInt8) (fileMode : ℕ)
    (rand : ℕ × ℕ) (now : ℕ) (s s' : Sfs)
    (hrun : sfsCreate u path fileMode rand now s = some (-1, s')) :
    Untouched s s' ↔ s.numOccupiedInodeBytemap = 5000 ∨ ParentFull u path s.disk := by
  rcases sfsCreate_failed hrun with ⟨hcount, rfl⟩ | ⟨hcount, ⟨hfull, hsame⟩ | ⟨hspace, hone⟩⟩
  · exact ⟨fun _ => Or.inl hcount, fun _ => ⟨rfl, rfl, rfl⟩⟩
  · refine ⟨fun _ => Or.inr hfull, fun _ => ⟨?_, counter_of_calm hsame, ?_⟩⟩
    · simpa using congrArg Sfs.disk hsame
    · simpa [Sfs.calm] using congrArg Sfs.numOccupiedDataBlocksBytemap hsame
  · constructor
    · rintro ⟨_, hkept, _⟩
      omega
    · rintro (hfive | hfull)
      · exact absurd hfive hcount
      · exact absurd hfull hspace

/-- A disk on which all ten entries of the root are in use. -/
def fullRoot : Memory :=
  (List.range 10).foldl (fun m i => set m (inodeAt 0) (block_ptr i) (4 * (i + 1))) mountedDisk

/-- The eleventh file in the root: the call has read the directory and fails, and the disk and
both counters are as before. -/
theorem failed_create_fullRoot : ∃ s',
    sfsCreate sampleUnspecified (chars "/ab") 0 (44, 7) 0 ⟨fullRoot, [], 10, 10⟩ =
      some (-1, s') ∧ ParentFull sampleUnspecified (chars "/ab") fullRoot ∧
      Untouched ⟨fullRoot, [], 10, 10⟩ s' := by
  have hrun : (sfsCreate sampleUnspecified (chars "/ab") 0 (44, 7) 0 ⟨fullRoot, [], 10, 10⟩).map
      Prod.fst = some (-1) := by
    decide +kernel
  obtain ⟨⟨r, s'⟩, hs', rfl⟩ := Option.map_eq_some_iff.mp hrun
  have hfull : ParentFull sampleUnspecified (chars "/ab") fullRoot :=
    ⟨0, 0, by decide +kernel, sample_root, by decide +kernel⟩
  exact ⟨s', hs', hfull, (failed_create_untouched_iff _ _ _ _ _ _ _ hs').mpr (Or.inr hfull)⟩

/-- The read of the data map fails, and inode 4 stays in use. -/
theorem failed_create_leaves_inode : mountedDisk (MapType.inode.entry 4) = 0 ∧
    ∃ s', sfsCreate sampleUnspecified (chars "/ab") 0 (4, 7) 0
        ⟨mountedDisk, [false, false, false, false, true], 0, 0⟩ = some (-1, s') ∧
      s'.disk (MapType.inode.entry 4) = 1 ∧ s'.numOccupiedInodeBytemap = 1 ∧
      s'.numOccupiedDataBlocksBytemap = 1 := by
  have hrun : (sfsCreate sampleUnspecified (chars "/ab") 0 (4, 7) 0
      ⟨mountedDisk, [false, false, false, false, true], 0, 0⟩).map (fun r =>
        (r.1, r.2.disk (MapType.inode.entry 4), r.2.numOccupiedInodeBytemap,
          r.2.numOccupiedDataBlocksBytemap)) = some (-1, 1, 1, 1) := by
    decide +kernel
  obtain ⟨⟨r, s'⟩, hs', heq⟩ := Option.map_eq_some_iff.mp hrun
  simp only [Prod.mk.injEq] at heq
  obtain ⟨rfl, hinode, hcount, hcount'⟩ := heq
  exact ⟨by decide +kernel, s', hs', hinode, hcount, hcount'⟩

end SimpleOs.Files
