import SimpleOs.Files.FreeEntry
import SimpleOs.Files.Removal

/-!
# Calls that succeed

A call that succeeds has met no error, and does the same if there are no errors at all.
-/

namespace SimpleOs.Files

open Bytes Inode

variable {u : Unspecified} {s s' : Sfs} {path token : List UInt8} {n : ℕ}

/-- The same disk, without errors. -/
def Sfs.calm (s : Sfs) : Sfs := { s with errors := [] }

@[simp] theorem Sfs.calm_disk (s : Sfs) : s.calm.disk = s.disk := rfl

@[simp] theorem Sfs.calm_errors (s : Sfs) : s.calm.errors = [] := rfl

/-- A call that does not fail does not fail without errors. -/
theorem Sfs.not_fails_calm (h : ¬ s.Fails n) : ¬ s.calm.Fails n := by
  unfold Sfs.Fails at *
  simp only [not_or] at h
  simpa using h.2

/-- A block that is read is read also without the errors to come. -/
theorem blockRead_calm {buf : Memory} (h : blockRead n s = (some buf, s')) :
    blockRead n s.calm = (some buf, s'.calm) := by
  unfold blockRead at *
  obtain ⟨hbuf, rfl⟩ := Prod.mk.inj h
  split at hbuf
  · exact absurd hbuf (by simp)
  · rename_i hok
    rw [if_neg (Sfs.not_fails_calm hok), ← hbuf]
    rfl

/-- A block that is written is written also without the errors to come. -/
theorem blockWrite_calm {buf : Memory} (h : blockWrite n buf s = (true, s')) :
    blockWrite n buf s.calm = (true, s'.calm) := by
  unfold blockWrite at *
  split at h
  · exact absurd h (by simp)
  · rename_i hok
    obtain ⟨_, rfl⟩ := Prod.mk.inj h
    rw [if_neg (Sfs.not_fails_calm hok)]
    rfl

/-- The block of an inode that is read is read also without the errors to come. -/
theorem getBlockByInodeNumb_calm {TEMP : Memory}
    (h : getBlockByInodeNumb u n s = some (TEMP, s')) :
    getBlockByInodeNumb u n s.calm = some (TEMP, s'.calm) := by
  unfold getBlockByInodeNumb at *
  cases hnumb : getBlockNumbfromInodeNumb n with
  | none =>
    rw [hnumb] at h
    exact absurd h (by simp)
  | some numb =>
    simp only [hnumb, Option.bind_eq_bind, Option.bind_some] at h ⊢
    rcases hfirst : blockRead (20 + numb) s with ⟨_ | first, s₁⟩
    · rw [hfirst] at h
      exact absurd h (by simp)
    · rw [hfirst] at h
      rw [blockRead_calm hfirst]
      simp only [Option.bind_some] at h ⊢
      split at h
      · rename_i hlast
        rw [if_pos hlast]
        rcases hsecond : blockRead (20 + numb) s₁ with ⟨_ | second, s₂⟩
        · rw [hsecond] at h
          exact absurd h (by simp)
        · rw [hsecond] at h
          rw [blockRead_calm hsecond]
          obtain ⟨rfl, rfl⟩ := Prod.mk.inj (Option.some.inj h)
          rfl
      · rename_i hlast
        rw [if_neg hlast]
        obtain ⟨rfl, rfl⟩ := Prod.mk.inj (Option.some.inj h)
        rfl

/-- A scan of a directory that ends does so also without the errors to come. -/
theorem findChild_calm {dir : Memory} {a : ℕ} {is : List ℕ} {found : Option ℕ}
    (h : findChild u dir a token is s = some (found, s')) :
    findChild u dir a token is s.calm = some (found, s'.calm) := by
  induction is generalizing s with
  | nil =>
    obtain ⟨rfl, rfl⟩ := Prod.mk.inj (Option.some.inj h)
    rfl
  | cons i is ih =>
    rw [findChild] at h ⊢
    split at h
    · rename_i hnone
      rw [if_pos hnone]
      obtain ⟨rfl, rfl⟩ := Prod.mk.inj (Option.some.inj h)
      rfl
    · rename_i hsome
      rw [if_neg hsome]
      obtain ⟨⟨temp, s₁⟩, hread, h⟩ := Option.bind_eq_some_iff.mp h
      obtain ⟨same, hsame, h⟩ := Option.bind_eq_some_iff.mp h
      rw [getBlockByInodeNumb_calm hread]
      simp only [Option.bind_eq_bind, Option.bind_some, hsame]
      cases same with
      | false => exact ih h
      | true =>
        obtain ⟨rfl, rfl⟩ := Prod.mk.inj (Option.some.inj h)
        rfl

/-- A walk along the tokens that ends does so also without the errors to come. -/
theorem walk_calm {path : List (List UInt8)} {r : ℕ} (h : walk u path n s = some (r, s')) :
    walk u path n s.calm = some (r, s'.calm) := by
  induction path generalizing n s with
  | nil =>
    obtain ⟨rfl, rfl⟩ := Prod.mk.inj (Option.some.inj h)
    rfl
  | cons token path ih =>
    rw [walk] at h ⊢
    obtain ⟨⟨temp, s₁⟩, hread, h⟩ := Option.bind_eq_some_iff.mp h
    obtain ⟨⟨found, s₂⟩, hfind, h⟩ := Option.bind_eq_some_iff.mp h
    rw [getBlockByInodeNumb_calm hread]
    simp only [Option.bind_eq_bind, Option.bind_some, findChild_calm hfind]
    cases found with
    | none =>
      obtain ⟨rfl, rfl⟩ := Prod.mk.inj (Option.some.inj h)
      rfl
    | some child => exact ih h

/-- A block of a map that is kept or read. -/
theorem keepBlock_calm {type : MapType} {kept : Option (ℕ × Memory)} {temp : Memory}
    (h : keepBlock type kept n s = (some temp, s')) :
    keepBlock type kept n s.calm = (some temp, s'.calm) := by
  unfold keepBlock at *
  split at h
  · split at h
    · rename_i hne
      rw [if_pos hne]
      exact blockRead_calm h
    · rename_i heq
      rw [if_neg heq]
      obtain ⟨htemp, rfl⟩ := Prod.mk.inj h
      rw [← htemp]
  · exact blockRead_calm h

/-- A search that finds a free entry finds it also without the errors to come. -/
theorem findFree_calm {type : MapType} {fuel : ℕ} {kept : Option (ℕ × Memory)}
    {x : ℕ × ℕ × Memory} (h : findFree type fuel n kept s = some (some x, s')) :
    findFree type fuel n kept s.calm = some (some x, s'.calm) := by
  induction fuel generalizing n kept s with
  | zero => exact absurd h (by simp [findFree])
  | succ fuel ih =>
    rw [findFree] at h ⊢
    obtain ⟨block_in, hblock, h⟩ := Option.bind_eq_some_iff.mp h
    rw [hblock]
    simp only [Option.bind_eq_bind, Option.bind_some]
    rcases hread : keepBlock type kept block_in s with ⟨_ | temp, s₁⟩
    · rw [hread] at h
      exact absurd h (by simp)
    · rw [hread] at h
      rw [keepBlock_calm hread]
      simp only at h ⊢
      split at h
      · rename_i hused
        rw [if_pos hused]
        exact ih h
      · rename_i hfree
        rw [if_neg hfree]
        obtain ⟨hx, rfl⟩ := Prod.mk.inj (Option.some.inj h)
        rw [← hx]
        rfl

/-- A free entry that is found is found also without the errors to come. -/
theorem getFreeBitMapEntry_calm {type : MapType} {rand m : ℕ}
    (h : getFreeBitMapEntry type rand s = some (some m, s')) :
    getFreeBitMapEntry type rand s.calm = some (some m, s'.calm) := by
  unfold getFreeBitMapEntry at *
  obtain ⟨⟨found, s₁⟩, hfind, h⟩ := Option.bind_eq_some_iff.mp h
  cases found with
  | none => exact absurd h (by simp)
  | some x =>
    obtain ⟨position, currBlock, temp⟩ := x
    rw [findFree_enough (Nat.mod_lt _ (by decide)) (findFree_calm hfind)]
    simp only [Option.bind_eq_bind, Option.bind_some] at h ⊢
    rcases hwrite : blockWrite (type.offset + currBlock)
      (Function.update temp (position % BLOCK_SIZE) 1) s₁ with ⟨_ | _, s₂⟩
    · rw [hwrite] at h
      exact absurd h (by simp)
    · rw [hwrite] at h
      rw [blockWrite_calm hwrite]
      obtain ⟨hm, rfl⟩ := Prod.mk.inj (Option.some.inj h)
      rw [← hm]
      rfl

/-- The two writes at the end of a call. -/
theorem blockWrite_calm_cases {buf : Memory} {k : Sfs → Option (ℤ × Sfs)} {r : ℤ} (hr : r ≠ -1)
    (h : (match blockWrite n buf s with
      | (false, s) => some (-1, s)
      | (true, s) => k s) = some (r, s')) :
    ∃ s₁, blockWrite n buf s = (true, s₁) ∧ k s₁ = some (r, s') := by
  rcases hwrite : blockWrite n buf s with ⟨_ | _, s₁⟩
  · rw [hwrite] at h
    exact absurd (Prod.mk.inj (Option.some.inj h)).1.symm hr
  · rw [hwrite] at h
    exact ⟨s₁, rfl, h⟩

/-- A file that is created is created also without the errors to come. -/
theorem sfsCreate_calm {fileMode now : ℕ} {rand : ℕ × ℕ}
    (h : sfsCreate u path fileMode rand now s = some (0, s')) :
    sfsCreate u path fileMode rand now s.calm = some (0, s'.calm) := by
  unfold sfsCreate at *
  split at h
  · exact absurd (Prod.mk.inj (Option.some.inj h)).1 (by simp)
  rename_i hcount
  rw [if_neg (show ¬ s.calm.numOccupiedInodeBytemap = 5000 from hcount)]
  obtain ⟨i, hslash, h⟩ := Option.bind_eq_some_iff.mp h
  obtain ⟨⟨d, s₁⟩, hdir, h⟩ := Option.bind_eq_some_iff.mp h
  obtain ⟨⟨dir_block, s₂⟩, hread, h⟩ := Option.bind_eq_some_iff.mp h
  have hdir' : getInodeNumbFromPath u (substring u path 0 i) s.calm = some (d, s₁.calm) :=
    walk_calm hdir
  simp only [hslash, Option.bind_eq_bind, Option.bind_some, hdir', getBlockByInodeNumb_calm hread]
  dsimp only at h
  cases hspace : openChildSpace dir_block (offsetInBlock d) with
  | none =>
    rw [hspace] at h
    exact absurd (Prod.mk.inj (Option.some.inj h)).1 (by simp)
  | some o =>
    rw [hspace] at h
    simp only at h ⊢
    obtain ⟨⟨found, s₃⟩, hinode, h⟩ := Option.bind_eq_some_iff.mp h
    cases found with
    | none => exact absurd (Prod.mk.inj (Option.some.inj h)).1 (by simp)
    | some m =>
      simp only [getFreeBitMapEntry_calm hinode, Option.bind_some] at h ⊢
      obtain ⟨⟨temp, s₄⟩, hread', h⟩ := Option.bind_eq_some_iff.mp h
      have hread'' : getBlockByInodeNumb u m { s₃.calm with
          numOccupiedInodeBytemap := s₃.calm.numOccupiedInodeBytemap + 1 } =
            some (temp, s₄.calm) := getBlockByInodeNumb_calm hread'
      obtain ⟨_, hfits, h⟩ := Option.bind_eq_some_iff.mp h
      obtain ⟨⟨found, s₅⟩, hblock, h⟩ := Option.bind_eq_some_iff.mp h
      cases found with
      | none => exact absurd (Prod.mk.inj (Option.some.inj h)).1 (by simp)
      | some b =>
        simp only [hread'', hfits, Option.bind_some, getFreeBitMapEntry_calm hblock] at h ⊢
        obtain ⟨dirNumb, hdirNumb, h⟩ := Option.bind_eq_some_iff.mp h
        obtain ⟨s₆, hwrite, h⟩ := blockWrite_calm_cases (by decide) h
        obtain ⟨inodeNumb, hinodeNumb, h⟩ := Option.bind_eq_some_iff.mp h
        obtain ⟨s₇, hwrite', h⟩ := blockWrite_calm_cases (by decide) h
        obtain ⟨_, rfl⟩ := Prod.mk.inj (Option.some.inj h)
        have hcalm : blockWrite (20 + dirNumb) (set dir_block (offsetInBlock d) (block_ptr o) m)
            { s₅.calm with
              numOccupiedDataBlocksBytemap := s₅.calm.numOccupiedDataBlocksBytemap + 1 } =
              (true, s₆.calm) := blockWrite_calm hwrite
        simp only [hdirNumb, hinodeNumb, Option.bind_some, hcalm, blockWrite_calm hwrite']
        rfl

/-- A block of a map that was read. -/
theorem getBitmapBlock_calm {type : MapType} {block : Memory}
    (h : getBitmapBlock n type s = some (some block, s')) :
    getBitmapBlock n type s.calm = some (some block, s'.calm) := by
  unfold getBitmapBlock at *
  obtain ⟨block_in, hblock, h⟩ := Option.bind_eq_some_iff.mp h
  simp only [hblock, Option.bind_eq_bind, Option.bind_some]
  exact congrArg some (blockRead_calm (Option.some.inj h))

/-- A data block that is cleared is cleared also without the errors to come. -/
theorem clearDataBlock_calm {r : ℤ} (hr : r ≠ -1) (h : clearDataBlock u n s = some (r, s')) :
    clearDataBlock u n s.calm = some (r, s'.calm) := by
  unfold clearDataBlock at *
  obtain ⟨block_num, hnum, h⟩ := Option.bind_eq_some_iff.mp h
  obtain ⟨⟨block, s₁⟩, hread, h⟩ := Option.bind_eq_some_iff.mp h
  obtain ⟨block, rfl, h⟩ := Option.bind_eq_some_iff.mp h
  obtain ⟨s₂, hwrite, h⟩ := blockWrite_calm_cases hr h
  obtain ⟨s₃, hwrite', h⟩ := blockWrite_calm_cases hr h
  obtain ⟨rfl, rfl⟩ := Prod.mk.inj (Option.some.inj h)
  simp only [hnum, getBitmapBlock_calm hread, Option.bind_eq_bind, Option.bind_some,
    blockWrite_calm hwrite, blockWrite_calm hwrite']
  rfl

/-- A loop over the data blocks that ends does so also without the errors to come. -/
theorem clearDataBlocks_calm {inode1 : Memory} {a : ℕ} {is : List ℕ} {done done' : Bool}
    (h : clearDataBlocks u inode1 a is s done = some (s', done')) :
    clearDataBlocks u inode1 a is s.calm done = some (s'.calm, done') := by
  induction is generalizing s done with
  | nil =>
    obtain ⟨rfl, rfl⟩ := Prod.mk.inj (Option.some.inj h)
    rfl
  | cons i is ih =>
    rw [clearDataBlocks] at h ⊢
    split at h
    · rename_i hnone
      rw [if_pos hnone]
      exact ih h
    · rename_i hsome
      rw [if_neg hsome]
      obtain ⟨⟨r, s₁⟩, hclear, h⟩ := Option.bind_eq_some_iff.mp h
      obtain ⟨_, hguard, h⟩ := Option.bind_eq_some_iff.mp h
      have hr := (Option.guard_eq_some' _).mp hguard
      simp only [clearDataBlock_calm hr hclear, hguard, Option.bind_eq_bind, Option.bind_some]
      exact ih h

/-- A file that is removed is removed also without the errors to come. -/
theorem sfsUnlink_calm (h : sfsUnlink u path s = some (0, s')) :
    sfsUnlink u path s.calm = some (0, s'.calm) := by
  unfold sfsUnlink at *
  obtain ⟨i, hslash, h⟩ := Option.bind_eq_some_iff.mp h
  obtain ⟨⟨inumb, s₁⟩, hpath, h⟩ := Option.bind_eq_some_iff.mp h
  obtain ⟨⟨dir_inumb, s₂⟩, hdir, h⟩ := Option.bind_eq_some_iff.mp h
  obtain ⟨⟨inode_block, s₃⟩, hread, h⟩ := Option.bind_eq_some_iff.mp h
  obtain ⟨numb, hnumb, h⟩ := Option.bind_eq_some_iff.mp h
  obtain ⟨⟨dir_block, s₄⟩, hread', h⟩ := Option.bind_eq_some_iff.mp h
  obtain ⟨numb', hnumb', h⟩ := Option.bind_eq_some_iff.mp h
  obtain ⟨entry, hfind, h⟩ := Option.bind_eq_some_iff.mp h
  obtain ⟨s₅, hwrite, h⟩ := blockWrite_calm_cases (by decide) h
  obtain ⟨⟨bitmap, s₆⟩, hbitmap, h⟩ := Option.bind_eq_some_iff.mp h
  cases bitmap with
  | none => exact absurd (Prod.mk.inj (Option.some.inj h)).1 (by simp)
  | some bitmap_block =>
    obtain ⟨_, hpos, h⟩ := Option.bind_eq_some_iff.mp h
    obtain ⟨block_in, hblock, h⟩ := Option.bind_eq_some_iff.mp h
    obtain ⟨s₇, hwrite', h⟩ := blockWrite_calm_cases (by decide) h
    obtain ⟨⟨s₈, done⟩, hclear, h⟩ := Option.bind_eq_some_iff.mp h
    obtain ⟨_, hdone, h⟩ := Option.bind_eq_some_iff.mp h
    obtain ⟨s₉, hwrite'', h⟩ := blockWrite_calm_cases (by decide) h
    obtain ⟨_, hfree, h⟩ := Option.bind_eq_some_iff.mp h
    obtain ⟨_, rfl⟩ := Prod.mk.inj (Option.some.inj h)
    have hpath' : getInodeNumbFromPath u path s.calm = some (inumb, s₁.calm) := walk_calm hpath
    have hdir' : getInodeNumbFromPath u (substring u path 0 i) s₁.calm =
        some (dir_inumb, s₂.calm) := walk_calm hdir
    simp only [hslash, hpath', hdir', getBlockByInodeNumb_calm hread, hnumb,
      getBlockByInodeNumb_calm hread', hnumb', hfind, blockWrite_calm hwrite,
      getBitmapBlock_calm hbitmap, hpos, hblock, blockWrite_calm hwrite',
      clearDataBlocks_calm hclear, hdone, blockWrite_calm hwrite'', hfree, Option.bind_eq_bind,
      Option.bind_some]
    rfl

/-- What a call that created a file has found and done. -/
theorem sfsCreate_spec {fileMode now : ℕ} {rand : ℕ × ℕ}
    (h : sfsCreate u path fileMode rand now s = some (0, s')) :
    ∃ newFile d o m b, Creates u path rand s.disk newFile d o m b ∧
      s'.disk = createdDisk u s.disk newFile fileMode now d o m b := by
  rcases sfsCreate_cases s.calm_errors (sfsCreate_calm h) with ⟨h, _⟩ | h
  · exact absurd h (by simp)
  · obtain ⟨newFile, d, o, m, b, _, hcreates, hs'⟩ := h
    exact ⟨newFile, d, o, m, b, hcreates, congrArg Sfs.disk hs'⟩

/-- What a call that removed a file has found and done. -/
theorem sfsUnlink_spec (h : sfsUnlink u path s = some (0, s')) :
    ∃ d j n, Unlinks u path s.disk d j n ∧ s'.disk = removedDisk u s.disk d j n := by
  obtain ⟨_, d, j, n, hunlinks, hs'⟩ := sfsUnlink_cases s.calm_errors (sfsUnlink_calm h)
  exact ⟨d, j, n, hunlinks, congrArg Sfs.disk hs'⟩

end SimpleOs.Files
