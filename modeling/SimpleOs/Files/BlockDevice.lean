import SimpleOs.Files.Device
import SimpleOs.Library.ByteFile
import SimpleOs.Library.Runs

/-!
# The file behind the disk

`block_read` and `block_write` use a file that grows as blocks are written to it. A read
that stops at the end of the file fills the memory only in part, and the value that it
returns is not tested for this. In a file of whole blocks it never happens, and the file
cannot be told from a disk without an end.
-/

namespace SimpleOs.Files

open Bytes ByteFile Runs

/-! ## The calls -/

/-- The file, and the errors of the next calls. -/
structure DiskFile where
  /-- The bytes of the file. -/
  bytes : List UInt8
  /-- Whether the next calls fail. Those behind the list succeed. -/
  errors : List Bool

/-- A call of `pread` or `pwrite` fails, also if the position is negative. -/
def DiskFile.Fails (f : DiskFile) (block_num : ℕ) : Prop :=
  f.errors.head? = some true ∨ 2 ^ 31 ≤ blockOffset block_num

instance (f : DiskFile) (block_num : ℕ) : Decidable (f.Fails block_num) :=
  inferInstanceAs (Decidable (_ ∨ _))

/-- `block_read`: the value that it returns, and the memory afterwards. -/
def DiskFile.blockRead (block_num : ℕ) (buf : Memory) (f : DiskFile) : ℤ × Memory × DiskFile :=
  let (retstat, buf) : ℤ × Memory :=
    if f.Fails block_num then (-1, buf)
    else
      let (count, buf) := pread f.bytes buf BLOCK_SIZE (blockOffset block_num)
      (count, buf)
  let buf := if retstat ≤ 0 then splice buf 0 BLOCK_SIZE fun _ => 0 else buf
  (retstat, buf, { f with errors := f.errors.tail })

/-- `block_write`: the value that it returns. -/
def DiskFile.blockWrite (block_num : ℕ) (buf : Memory) (f : DiskFile) : ℤ × DiskFile :=
  if f.Fails block_num then (-1, { f with errors := f.errors.tail })
  else
    let (count, bytes) := pwrite f.bytes buf BLOCK_SIZE (blockOffset block_num)
    (count, { f with bytes := bytes, errors := f.errors.tail })

/-- A call for a block, with the memory of the caller. -/
inductive BlockCall where
  /-- A call of `block_read` with a block number and the memory that it fills. -/
  | read (block_num : ℕ) (buf : Memory)
  /-- A call of `block_write` with a block number and the memory that it writes. -/
  | write (block_num : ℕ) (buf : Memory)

/-- What the callers look at. -/
inductive Answer where
  /-- Whether a read returned a negative value, and the memory afterwards. -/
  | read (failed : Bool) (buf : Memory)
  /-- Whether a write returned `BLOCK_SIZE`. -/
  | write (done : Bool)

/-- A call for a block of the file. -/
def DiskFile.answer (f : DiskFile) : BlockCall → Answer × DiskFile
  | .read block_num buf =>
    let (retstat, buf, f) := f.blockRead block_num buf
    (.read (retstat < 0) buf, f)
  | .write block_num buf =>
    let (retstat, f) := f.blockWrite block_num buf
    (.write (retstat = BLOCK_SIZE), f)

/-- The same call for a block of the disk without an end. -/
def Sfs.answer (s : Sfs) : BlockCall → Answer × Sfs
  | .read block_num buf =>
    match blockRead block_num s with
    | (none, s) => (.read true (splice buf 0 BLOCK_SIZE fun _ => 0), s)
    | (some block, s) => (.read false (splice buf 0 BLOCK_SIZE block), s)
  | .write block_num buf =>
    let (done, s) := blockWrite block_num buf s
    (.write done, s)

/-- A call and its answer, for the file. -/
def FileStep (f : DiskFile) (e : BlockCall × Answer) (f' : DiskFile) : Prop :=
  f.answer e.1 = (e.2, f')

/-- A call and its answer, for the disk. -/
def DiskStep (s : Sfs) (e : BlockCall × Answer) (s' : Sfs) : Prop :=
  s.answer e.1 = (e.2, s')

variable {f f' : DiskFile} {s s' : Sfs} {buf buf' : Memory} {e : BlockCall × Answer}
  {l : List (Turn DiskFile (BlockCall × Answer))} {n m : ℕ} {r : ℤ}

/-! ## Files of whole blocks -/

/-- The file has whole blocks. -/
def DiskFile.Whole (f : DiskFile) : Prop := BLOCK_SIZE ∣ f.bytes.length

/-- Blocks begin at multiples of their size. -/
theorem blockOffset_dvd : BLOCK_SIZE ∣ blockOffset n := by
  unfold blockOffset BLOCK_SIZE
  omega

/-- A block is in the file as a whole, or not at all. -/
theorem DiskFile.Whole.block (h : f.Whole) :
    blockOffset n + BLOCK_SIZE ≤ f.bytes.length ∨ f.bytes.length ≤ blockOffset n := by
  obtain ⟨x, hx⟩ := h
  obtain ⟨y, hy⟩ := @blockOffset_dvd n
  rw [hx, hy]
  unfold BLOCK_SIZE
  omega

/-- What `block_read` does for a file of whole blocks. -/
theorem DiskFile.Whole.blockRead (h : f.Whole) : f.blockRead n buf =
    (if f.Fails n then -1 else if f.bytes.length ≤ blockOffset n then 0 else (BLOCK_SIZE : ℤ),
      splice buf 0 BLOCK_SIZE
        (if f.Fails n then fun _ => 0 else view (content f.bytes) (blockOffset n)),
      { f with errors := f.errors.tail }) := by
  unfold DiskFile.blockRead
  by_cases hfails : f.Fails n
  · simp only [if_pos hfails]
    rw [if_pos (by decide)]
  · simp only [if_neg hfails]
    by_cases hend : f.bytes.length ≤ blockOffset n
    · -- Behind the end the memory is filled with zeros.
      have hzero : view (content f.bytes) (blockOffset n) = fun _ => 0 := by
        funext c
        exact content_end (by omega)
      rw [pread_end hend, if_pos hend, hzero]
      simp
    · have hin := (h.block (n := n)).resolve_right hend
      rw [pread_full hin, if_neg hend]
      simp only
      rw [if_neg (by decide)]

/-- What `block_write` does: a call that does not fail writes the whole block. -/
theorem DiskFile.blockWrite_eq : f.blockWrite n buf =
    if f.Fails n then (-1, { f with errors := f.errors.tail })
    else ((BLOCK_SIZE : ℤ),
      { f with
        bytes := (pwrite f.bytes buf BLOCK_SIZE (blockOffset n)).2
        errors := f.errors.tail }) := rfl

/-- A file of whole blocks is one afterwards. -/
theorem FileStep.whole (h : FileStep f e f') (hwhole : f.Whole) : f'.Whole := by
  obtain ⟨call, answer⟩ := e
  cases call with
  | read n buf =>
    have hafter : _ = f' := congrArg Prod.snd h
    rw [← hafter]
    exact hwhole
  | write n buf =>
    have hafter : (f.blockWrite n buf).2 = f' := congrArg Prod.snd h
    rw [← hafter, DiskFile.blockWrite_eq]
    split
    · exact hwhole
    · unfold DiskFile.Whole at *
      rw [pwrite_length (by decide)]
      have hblock := @blockOffset_dvd n
      rcases max_choice f.bytes.length (blockOffset n + BLOCK_SIZE) with heq | heq
      · rwa [heq]
      · rw [heq]
        exact Nat.dvd_add hblock (Nat.dvd_refl _)

/-! ## The disk without an end -/

/-- The file has the bytes of the disk, as far as it goes, and the disk has zeros behind. -/
structure DiskFile.Holds (f : DiskFile) (s : Sfs) : Prop where
  /-- The file has whole blocks. -/
  whole : f.Whole
  /-- The disk has the bytes of the file, and zeros behind its end. -/
  disk : s.disk = content f.bytes
  /-- The same calls to come fail on both. -/
  errors : s.errors = f.errors

/-- A call fails for the disk exactly if it fails for the file. -/
theorem DiskFile.Holds.fails_iff (h : f.Holds s) : s.Fails n ↔ f.Fails n := by
  unfold Sfs.Fails DiskFile.Fails
  rw [h.errors]

/-- The disk can follow every call: the answer is the same. -/
theorem DiskFile.Holds.step (h : f.Holds s) (hstep : FileStep f e f') :
    ∃ s', DiskStep s e s' ∧ f'.Holds s' := by
  have hwhole := hstep.whole h.whole
  obtain ⟨call, answer⟩ := e
  unfold FileStep at hstep
  cases call with
  | read n buf =>
    rw [DiskFile.answer, h.whole.blockRead] at hstep
    obtain ⟨rfl, rfl⟩ := Prod.mk.inj hstep
    refine ⟨(Files.blockRead n s).2, ?_, ⟨hwhole, h.disk, congrArg List.tail h.errors⟩⟩
    unfold DiskStep
    by_cases hfails : f.Fails n
    · simp only [Sfs.answer, Files.blockRead, if_pos (h.fails_iff.mpr hfails), if_pos hfails]
      rfl
    · simp only [Sfs.answer, Files.blockRead, if_neg (mt h.fails_iff.mp hfails), if_neg hfails,
        h.disk]
      congr 2
      split <;> rfl
  | write n buf =>
    rw [DiskFile.answer, DiskFile.blockWrite_eq] at hstep
    unfold DiskStep
    by_cases hfails : f.Fails n
    · rw [if_pos hfails] at hstep
      obtain ⟨rfl, rfl⟩ := Prod.mk.inj hstep
      refine ⟨{ s with errors := s.errors.tail }, ?_,
        ⟨hwhole, h.disk, congrArg List.tail h.errors⟩⟩
      simp only [Sfs.answer, Files.blockWrite, if_pos (h.fails_iff.mpr hfails)]
      rfl
    · rw [if_neg hfails] at hstep
      obtain ⟨rfl, rfl⟩ := Prod.mk.inj hstep
      refine ⟨(Files.blockWrite n buf s).2, ?_, ⟨hwhole, ?_, ?_⟩⟩
      · simp only [Sfs.answer, Files.blockWrite, if_neg (mt h.fails_iff.mp hfails)]
        simp
      · rw [content_pwrite, Files.blockWrite, if_neg (mt h.fails_iff.mp hfails), h.disk]
      · rw [Files.blockWrite, if_neg (mt h.fails_iff.mp hfails), h.errors]

/-- A new file is a disk of zeros. -/
theorem DiskFile.holds_nil {errors : List Bool} :
    (⟨[], errors⟩ : DiskFile).Holds ⟨fun _ => 0, errors, n, m⟩ :=
  ⟨Nat.dvd_zero _, funext fun _ => (content_end (Nat.zero_le _)).symm, rfl⟩

/-- In every run of block calls for a file of whole blocks, with whatever errors, all
answers are those of the disk without an end that has the bytes of the file, and at the end
the disk still has them. -/
theorem disk_file_refines (f f' : DiskFile) (l : List (Turn DiskFile (BlockCall × Answer)))
    (s : Sfs) (h : f.Holds s) (hrun : Path FileStep f l f') :
    ∃ (l' : List (Turn Sfs (BlockCall × Answer))) (s' : Sfs), Path DiskStep s l' s' ∧
      l'.map Turn.event = l.map Turn.event ∧ f'.Holds s' := by
  apply hrun.simulates (R := DiskFile.Holds) ?_ h
  intro f e f₁ s h hstep
  exact h.step hstep

/-- A new file after a first write, to its second block. -/
def oneBlock : DiskFile := (DiskFile.answer ⟨[], []⟩ (.write 1 fun _ => 7)).2

/-- The write to the second block of an empty file is done. -/
theorem fileStep_oneBlock :
    FileStep ⟨[], []⟩ (.write 1 fun _ => 7, .write true) oneBlock := by
  have hfails : ¬ (⟨[], []⟩ : DiskFile).Fails 1 := by decide
  unfold FileStep oneBlock
  rw [DiskFile.answer, DiskFile.blockWrite_eq, if_neg hfails]
  simp

/-- A read of the block that was written gives its bytes. -/
theorem fileStep_readBack : FileStep oneBlock (.read 1 fun _ => 0,
    .read false (splice (fun _ => 0) 0 BLOCK_SIZE fun _ => 7)) oneBlock := by
  have hwhole : oneBlock.Whole := fileStep_oneBlock.whole (Nat.dvd_zero _)
  have hfails : ¬ oneBlock.Fails 1 := by decide
  have hbytes : content oneBlock.bytes =
      splice (content []) (blockOffset 1) BLOCK_SIZE fun _ => 7 := by
    have hfirst : ¬ (⟨[], []⟩ : DiskFile).Fails 1 := by decide
    rw [oneBlock, DiskFile.answer, DiskFile.blockWrite_eq, if_neg hfirst, content_pwrite]
  have hblock : splice (fun _ => 0) 0 BLOCK_SIZE (view (content oneBlock.bytes) (blockOffset 1)) =
      splice (fun _ => 0) 0 BLOCK_SIZE fun _ => 7 := by
    funext c
    rw [splice, splice]
    split
    · rw [view, hbytes, splice_inside (by omega)]
    · rfl
  unfold FileStep
  simp only [DiskFile.answer, hwhole.blockRead, if_neg hfails, hblock]
  split <;> rfl

/-- The theorem for the write and the read: the disk gives the same bytes. -/
theorem disk_file_refines_readBack : ∃ l' s', Path DiskStep ⟨fun _ => 0, [], 0, 0⟩ l' s' ∧
    l'.map Turn.event = [(.write 1 fun _ => 7, .write true),
      (.read 1 fun _ => 0, .read false (splice (fun _ => 0) 0 BLOCK_SIZE fun _ => 7))] ∧
    oneBlock.Holds s' :=
  disk_file_refines _ _ _ _ DiskFile.holds_nil
    (.cons fileStep_oneBlock (.cons fileStep_readBack (.nil _)))

/-! ## The last write -/

/-- The bytes that were last written to the place of a block. -/
def lastWrite (n : ℕ) : List (BlockCall × Answer) → Option Memory
  | [] => none
  | (.write m buf, .write true) :: events =>
    (lastWrite n events).or (if blockOffset m = blockOffset n then some buf else none)
  | _ :: events => lastWrite n events

/-- The last write among some events is the one of the later ones, or else that of the first. -/
theorem lastWrite_cons {events : List (BlockCall × Answer)} :
    lastWrite n (e :: events) = (lastWrite n events).or (lastWrite n [e]) := by
  obtain ⟨_ | ⟨m, buf⟩, _ | ⟨_ | _⟩⟩ := e <;> simp [lastWrite]

/-- The block of a file. -/
def DiskFile.block (f : DiskFile) (n : ℕ) : Memory := view (content f.bytes) (blockOffset n)

/-- The ways in which a call changes the bytes: a write that is done, and the others. -/
theorem FileStep.cases (h : FileStep f e f') :
    (∃ m buf, e = (.write m buf, .write true) ∧
      f'.bytes = (pwrite f.bytes buf BLOCK_SIZE (blockOffset m)).2) ∨
    (∀ m buf, e ≠ (.write m buf, .write true)) ∧ f'.bytes = f.bytes := by
  obtain ⟨call, answer⟩ := e
  unfold FileStep at h
  cases call with
  | read m buf =>
    have hafter : _ = f' := congrArg Prod.snd h
    rw [← hafter]
    exact Or.inr ⟨by simp, rfl⟩
  | write m buf =>
    rw [DiskFile.answer, DiskFile.blockWrite_eq] at h
    by_cases hfails : f.Fails m
    · rw [if_pos hfails] at h
      obtain ⟨rfl, rfl⟩ := Prod.mk.inj h
      exact Or.inr ⟨by simp [BLOCK_SIZE], rfl⟩
    · rw [if_neg hfails] at h
      obtain ⟨rfl, rfl⟩ := Prod.mk.inj h
      exact Or.inl ⟨m, buf, by simp, rfl⟩

/-- A block has the bytes of a write at its place, or those that it had. -/
theorem FileStep.block (h : FileStep f e f') {c : ℕ} (hc : c < BLOCK_SIZE) :
    f'.block n c = ((lastWrite n [e]).getD (f.block n)) c := by
  rcases h.cases with ⟨m, buf, rfl, hbytes⟩ | ⟨hother, hbytes⟩
  · have hlast : lastWrite n [(.write m buf, .write true)] =
        if blockOffset m = blockOffset n then some buf else none := rfl
    rw [DiskFile.block, hbytes, content_pwrite, view, hlast]
    by_cases hsame : blockOffset m = blockOffset n
    · rw [if_pos hsame, hsame, splice_inside hc, Option.getD_some]
    · rw [if_neg hsame, Option.getD_none, splice_outside]
      · rfl
      · obtain ⟨x, hx⟩ := @blockOffset_dvd m
        obtain ⟨y, hy⟩ := @blockOffset_dvd n
        rw [hx, hy] at hsame ⊢
        unfold BLOCK_SIZE at *
        omega
  · have hlast : lastWrite n [e] = none := by
      obtain ⟨_ | ⟨m, buf⟩, _ | ⟨_ | _⟩⟩ := e <;> first | rfl | exact absurd rfl (hother m buf)
    rw [DiskFile.block, hbytes, hlast]
    rfl

/-- A block is behind the end if it was there, and there was no write at its place or
behind. -/
theorem FileStep.length (h : FileStep f e f') : f'.bytes.length ≤ blockOffset n ↔
    f.bytes.length ≤ blockOffset n ∧
      ∀ m buf, e = (.write m buf, .write true) → blockOffset m < blockOffset n := by
  rcases h.cases with ⟨m, buf, rfl, hbytes⟩ | ⟨hother, hbytes⟩
  · obtain ⟨x, hx⟩ := @blockOffset_dvd m
    obtain ⟨y, hy⟩ := @blockOffset_dvd n
    have hbehind : blockOffset m + BLOCK_SIZE ≤ blockOffset n ↔ blockOffset m < blockOffset n := by
      rw [hx, hy]
      unfold BLOCK_SIZE
      omega
    rw [hbytes, pwrite_length (by decide), max_le_iff, hbehind]
    apply and_congr_right
    intro _
    constructor
    · rintro hlt _ _ heq
      obtain ⟨hcall, _⟩ := Prod.mk.inj heq
      rwa [← (BlockCall.write.inj hcall).1]
    · exact fun hall => hall m buf rfl
  · rw [hbytes]
    exact (and_iff_left fun m buf heq => absurd heq (hother m buf)).symm

/-- The run lemma for the bytes of a block. -/
theorem filePath_block (hrun : Path FileStep f l f') {c : ℕ} (hc : c < BLOCK_SIZE) :
    f'.block n c = ((lastWrite n (l.map Turn.event)).getD (f.block n)) c := by
  induction hrun with
  | nil => rfl
  | cons hfirst _ ih =>
    rw [ih, List.map_cons, lastWrite_cons]
    cases lastWrite n _ with
    | some buf => rfl
    | none => exact hfirst.block hc

/-- The run lemma for the end of the file. -/
theorem filePath_length (hrun : Path FileStep f l f') : f'.bytes.length ≤ blockOffset n ↔
    f.bytes.length ≤ blockOffset n ∧
      ∀ m buf, (.write m buf, .write true) ∈ l.map Turn.event →
        blockOffset m < blockOffset n := by
  induction hrun with
  | nil => simp
  | cons hfirst _ ih =>
    rw [ih, hfirst.length, and_assoc]
    apply and_congr_right
    intro _
    simp only [List.map_cons, List.mem_cons]
    constructor
    · rintro ⟨hhere, hrest⟩ m buf (heq | hmem)
      · exact hhere m buf heq.symm
      · exact hrest m buf hmem
    · exact fun hall =>
        ⟨fun m buf heq => hall m buf (Or.inl heq.symm), fun m buf hmem => hall m buf (Or.inr hmem)⟩

/-- In every run of block calls for a file of whole blocks, with whatever errors, a read that
follows gives the bytes of the last write at the place of the block that was done, or those
that were in the file, and zeros if it fails. It returns -1 if it fails, 0 if not and the
block was behind the end and no write was done at its place or behind, else `BLOCK_SIZE`. -/
theorem block_read_last_write (f f' f'' : DiskFile)
    (l : List (Turn DiskFile (BlockCall × Answer))) (hwhole : f.Whole)
    (hrun : Path FileStep f l f') (n : ℕ) (buf buf' : Memory) (r : ℤ)
    (hread : f'.blockRead n buf = (r, buf', f'')) :
    (∀ c, BLOCK_SIZE ≤ c → buf' c = buf c) ∧
      (r < 0 → ∀ c < BLOCK_SIZE, buf' c = 0) ∧
      (0 ≤ r → ∀ c < BLOCK_SIZE,
        buf' c = ((lastWrite n (l.map Turn.event)).getD (f.block n)) c) ∧
      (r = -1 ∨ r = 0 ∨ r = BLOCK_SIZE) ∧ (r = -1 ↔ f'.Fails n) ∧
      (r = 0 ↔ ¬ f'.Fails n ∧ f.bytes.length ≤ blockOffset n ∧
        ∀ m buf, (.write m buf, .write true) ∈ l.map Turn.event →
          blockOffset m < blockOffset n) := by
  have hwhole' : f'.Whole :=
    (hrun.invariant (P := DiskFile.Whole) (fun _ _ _ h hstep => hstep.whole h) hwhole).1
  rw [hwhole'.blockRead] at hread
  obtain ⟨rfl, hrest⟩ := Prod.mk.inj hread
  obtain ⟨rfl, rfl⟩ := Prod.mk.inj hrest
  have hinside {block : Memory} {c : ℕ} (hc : c < BLOCK_SIZE) :
      splice buf 0 BLOCK_SIZE block c = block c := by
    rw [splice, if_pos (by omega), Nat.sub_zero]
  refine ⟨fun c hc => splice_outside (by omega), ?_⟩
  rw [← filePath_length hrun]
  by_cases hfails : f'.Fails n
  · simp only [if_pos hfails]
    exact ⟨fun _ c hc => hinside hc, fun hr => absurd hr (by decide), Or.inl trivial,
      iff_of_true trivial hfails, iff_of_false (by decide) fun h => h.1 hfails⟩
  · simp only [if_neg hfails]
    have hblock (c : ℕ) (hc : c < BLOCK_SIZE) :
        splice buf 0 BLOCK_SIZE (view (content f'.bytes) (blockOffset n)) c =
          ((lastWrite n (l.map Turn.event)).getD (f.block n)) c :=
      (hinside hc).trans (filePath_block hrun hc)
    by_cases hend : f'.bytes.length ≤ blockOffset n
    · rw [if_pos hend]
      exact ⟨fun hr => absurd hr (by decide), fun _ => hblock, Or.inr (Or.inl rfl),
        iff_of_false (by decide) hfails, iff_of_true rfl ⟨hfails, hend⟩⟩
    · rw [if_neg hend]
      exact ⟨fun hr => absurd hr (by decide), fun _ => hblock, Or.inr (Or.inr rfl),
        iff_of_false (by decide) hfails, iff_of_false (by decide) fun h => hend h.2⟩

/-- The theorem for the block that was written, and for the one in front of it, which was
never written and is in the file. -/
theorem block_read_last_write_second :
    (∀ c < BLOCK_SIZE, (oneBlock.blockRead 1 fun _ => 0).2.1 c = 7) ∧
      (oneBlock.blockRead 0 fun _ => 0).1 ≠ 0 := by
  have hrun : Path FileStep ⟨[], []⟩ _ oneBlock := .cons fileStep_oneBlock (.nil _)
  have hread (n : ℕ) := block_read_last_write ⟨[], []⟩ oneBlock
    (oneBlock.blockRead n fun _ => 0).2.2 _ (Nat.dvd_zero _) hrun n (fun _ => 0)
    (oneBlock.blockRead n fun _ => 0).2.1 (oneBlock.blockRead n fun _ => 0).1 rfl
  obtain ⟨_, _, hbytes, _⟩ := hread 1
  obtain ⟨_, _, _, _, _, hzero⟩ := hread 0
  constructor
  · intro c hc
    rw [hbytes (by decide +kernel) c hc]
    simp [lastWrite]
  · intro hend
    have hbefore := (hzero.mp hend).2.2 1 (fun _ => 7) (by simp)
    exact absurd hbefore (by decide)

end SimpleOs.Files
