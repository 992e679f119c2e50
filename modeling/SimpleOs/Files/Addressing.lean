import SimpleOs.Files.Device

/-!
# Where the inodes are

The inodes are adjacent records of 128 bytes in the area that begins with block 20, four to a
block. Reading the block of an inode, changing the record in it and writing the block back
touches no other inode, whatever calls fail.
-/

namespace SimpleOs.Files

open Bytes

variable {u : Unspecified} {s s' s₁ s₂ : Sfs} {n m c : ℕ} {TEMP buf : Memory}

/-- The products of `int` that are formed for an inode fit: the largest is the position of its
block. -/
def ProductsFit (n : ℕ) : Prop := BLOCK_SIZE * (20 + n / 4) < 2 ^ 31

instance (n : ℕ) : Decidable (ProductsFit n) := inferInstanceAs (Decidable (_ < _))

/-- The beginning of the inodes. -/
def inodeArea : ℕ := 20 * BLOCK_SIZE

/-- The loop ends with the number of the block in the area, if its products fit. -/
theorem getBlockNumbfromInodeNumb_div (hn : BLOCK_SIZE * (n / 4 + 1) < 2 ^ 31) :
    getBlockNumbfromInodeNumb n = some (n / 4) := by
  unfold BLOCK_SIZE at hn
  have hlt : n < 2 ^ 24 := by omega
  rw [getBlockNumbfromInodeNumb_eq (by omega), if_pos (by omega), inodeBlockNumb, if_pos hlt]

/-- An inode number whose products fit is small enough for its block to be one of the file. -/
theorem ProductsFit.bounds (hn : ProductsFit n) : n < 2 ^ 24 - 80 := by
  unfold ProductsFit BLOCK_SIZE at hn
  omega

/-- The loop that counts blocks ends for such a number, with a quarter of it. -/
theorem ProductsFit.block_num (hn : ProductsFit n) :
    getBlockNumbfromInodeNumb n = some (n / 4) := by
  apply getBlockNumbfromInodeNumb_div
  unfold ProductsFit BLOCK_SIZE at *
  omega

/-- The position of the block in the file does not overflow. -/
theorem ProductsFit.blockOffset (hn : ProductsFit n) :
    blockOffset (20 + n / 4) = inodeBlock n ∧ inodeBlock n = BLOCK_SIZE * (20 + n / 4) := by
  have hbound := hn.bounds
  have hblock : inodeBlock n = BLOCK_SIZE * (20 + n / 4) := if_pos (by omega)
  exact ⟨(blockOffset_eq (by omega)).trans hblock.symm, hblock⟩

/-- Where an inode is in the area. -/
theorem ProductsFit.inodeAt (hn : ProductsFit n) :
    inodeBlock n + offsetInBlock n = inodeArea + Inode.size * n := by
  have hbound := hn.bounds
  exact inodeAt_eq (by omega)

/-- A call that succeeds returns the block and leaves the disk as it was. -/
theorem blockRead_some {view : Memory} (h : blockRead n s = (some view, s')) :
    view = Bytes.view s.disk (blockOffset n) ∧ s'.disk = s.disk := by
  unfold blockRead at h
  obtain ⟨hread, rfl⟩ := Prod.mk.inj h
  split at hread
  · exact absurd hread (by simp)
  · exact ⟨(Option.some.inj hread).symm, rfl⟩

/-- The memory that is returned, if no call fails, and the disk. -/
theorem getBlockByInodeNumb_buffer (hn : ProductsFit n)
    (h : getBlockByInodeNumb u n s = some (TEMP, s')) :
    TEMP = inodeBuffer u s.disk n ∧ s'.disk = s.disk := by
  simp only [getBlockByInodeNumb, hn.block_num, Option.bind_eq_bind, Option.bind_some] at h
  obtain ⟨first, hfirst, h⟩ := Option.bind_eq_some_iff.mp h
  obtain ⟨rfl, hdisk⟩ := blockRead_some (Prod.ext hfirst rfl)
  unfold inodeBuffer
  split at h
  · rename_i hwraps
    obtain ⟨second, hsecond, h⟩ := Option.bind_eq_some_iff.mp h
    obtain ⟨rfl, hdisk'⟩ := blockRead_some (Prod.ext hsecond rfl)
    obtain ⟨rfl, rfl⟩ := Prod.mk.inj (Option.some.inj h)
    rw [if_pos (offsetInBlock_succ_lt_iff.mp hwraps), hdisk', hdisk, hn.blockOffset.1]
    exact ⟨rfl, rfl⟩
  · rename_i hwraps
    obtain ⟨rfl, rfl⟩ := Prod.mk.inj (Option.some.inj h)
    rw [if_neg (fun h => hwraps (offsetInBlock_succ_lt_iff.mpr h)), hn.blockOffset.1]
    exact ⟨rfl, hdisk⟩

/-- The record in the memory is the one in the area. -/
theorem getBlockByInodeNumb_record (hn : ProductsFit n)
    (h : getBlockByInodeNumb u n s = some (TEMP, s')) (hc : c < Inode.size) :
    TEMP (offsetInBlock n + c) = s.disk (inodeArea + (Inode.size * n + c)) := by
  have hle := offsetInBlock_le (n := n)
  rw [(getBlockByInodeNumb_buffer hn h).1, inodeBuffer_apply (by omega), ← Nat.add_assoc,
    ← Nat.add_assoc, hn.inodeAt]

/-- The records of two inodes have no byte in common. -/
theorem offsetInBlock_apart (hne : m ≠ n) (hblock : m / 4 = n / 4) :
    offsetInBlock m + Inode.size ≤ offsetInBlock n ∨
      offsetInBlock n + Inode.size ≤ offsetInBlock m := by
  unfold offsetInBlock Inode.size BLOCK_SIZE
  omega

/-- Writing the block of an inode back with a changed record leaves the bytes of the other
records on the disk as they were. -/
theorem blockWrite_record {ok : Bool} (hn : ProductsFit n)
    (hread : getBlockByInodeNumb u n s = some (TEMP, s₁))
    (hbuf : ∀ c < BLOCK_SIZE, c < offsetInBlock n ∨ offsetInBlock n + Inode.size ≤ c →
      buf c = TEMP c)
    (hwrite : blockWrite (20 + n / 4) buf s₁ = (ok, s₂)) (hm : ProductsFit m) (hne : m ≠ n)
    (hc : c < Inode.size) :
    s₂.disk (inodeArea + (Inode.size * m + c)) = s.disk (inodeArea + (Inode.size * m + c)) := by
  obtain ⟨hTEMP, hdisk⟩ := getBlockByInodeNumb_buffer hn hread
  obtain ⟨hoffset, hblock⟩ := hn.blockOffset
  obtain ⟨_, hblock'⟩ := hm.blockOffset
  cases ok with
  | false =>
    unfold blockWrite at hwrite
    split at hwrite
    · obtain ⟨_, rfl⟩ := Prod.mk.inj hwrite
      rw [← hdisk]
    · exact absurd (Prod.mk.inj hwrite).1 (by simp)
  | true =>
    obtain ⟨_, hstate⟩ := blockWrite_true hwrite
    have hwritten : s₂.disk = splice s.disk (inodeBlock n) BLOCK_SIZE buf := by
      rw [hstate, hoffset, hdisk]
    have hle := offsetInBlock_le (n := m)
    rw [← Nat.add_assoc, ← hm.inodeAt, hwritten]
    by_cases hsame : m / 4 = n / 4
    · have hplace : inodeBlock m = inodeBlock n := by rw [hblock, hblock', hsame]
      have hapart := offsetInBlock_apart hne hsame
      rw [hplace, Nat.add_assoc, splice_inside (by omega), hbuf _ (by omega) (by omega), hTEMP,
        inodeBuffer_apply (by omega)]
    · apply splice_outside
      rw [hblock, hblock']
      unfold BLOCK_SIZE at *
      omega

/-- The loop counts to the block of an inode, the block that is read holds the record of the
inode, and writing the block back with a changed record changes no other inode. -/
theorem inode_addressing (u : Unspecified) :
    (∀ n, BLOCK_SIZE * (n / 4 + 1) < 2 ^ 31 → getBlockNumbfromInodeNumb n = some (n / 4)) ∧
      ∀ n, ProductsFit n →
        (∀ s : Sfs, s.errors = [] → ∃ TEMP, getBlockByInodeNumb u n s = some (TEMP, s)) ∧
        ∀ s TEMP s₁, getBlockByInodeNumb u n s = some (TEMP, s₁) →
          (∀ c < Inode.size, TEMP (Inode.size * n % BLOCK_SIZE + c) =
            s.disk (20 * BLOCK_SIZE + (Inode.size * n + c))) ∧
          ∀ buf ok s₂, (∀ c < BLOCK_SIZE, c < Inode.size * n % BLOCK_SIZE ∨
              Inode.size * n % BLOCK_SIZE + Inode.size ≤ c → buf c = TEMP c) →
            blockWrite (20 + n / 4) buf s₁ = (ok, s₂) →
            ∀ m, m ≠ n → ProductsFit m → ∀ before s' after s'',
              getBlockByInodeNumb u m s = some (before, s') →
              getBlockByInodeNumb u m s₂ = some (after, s'') → ∀ c < Inode.size,
                after (Inode.size * m % BLOCK_SIZE + c) =
                  before (Inode.size * m % BLOCK_SIZE + c) := by
  refine ⟨fun n hn => getBlockNumbfromInodeNumb_div hn, fun n hn => ⟨fun s hs => ?_, ?_⟩⟩
  · have hbound := hn.bounds
    exact ⟨_, (getBlockByInodeNumb_eq hs (by omega)).trans (if_pos (Or.inl hbound))⟩
  · intro s TEMP s₁ hread
    refine ⟨fun c hc => getBlockByInodeNumb_record hn hread hc, ?_⟩
    intro buf ok s₂ hbuf hwrite m hne hm before s' after s'' hbefore hafter c hc
    have hold := getBlockByInodeNumb_record hm hbefore hc
    have hnew := getBlockByInodeNumb_record hm hafter hc
    have hkept := blockWrite_record hn hread hbuf hwrite hm hne hc
    exact hnew.trans (hkept.trans hold.symm)

/-- A file system on a zero-filled disk. -/
def zeroDisk : Sfs := ⟨fun _ => 0, [], 0, 0⟩

/-- The theorem for a change of inode 3 and the inode before it, in the same block. -/
theorem inode_addressing_three :
    ∃ TEMP s₂ after, getBlockByInodeNumb ⟨fun _ => 0, fun _ => 0, 0, true⟩ 3 zeroDisk =
        some (TEMP, zeroDisk) ∧
      blockWrite 20 (Function.update TEMP 384 1) zeroDisk = (true, s₂) ∧
      s₂.disk (20 * BLOCK_SIZE + 384) = 1 ∧
      getBlockByInodeNumb ⟨fun _ => 0, fun _ => 0, 0, true⟩ 2 s₂ = some (after, s₂) ∧
      ∀ c < Inode.size, after (256 + c) = 0 := by
  obtain ⟨_, haddressing⟩ := inode_addressing ⟨fun _ => 0, fun _ => 0, 0, true⟩
  have htwo : ProductsFit 2 := by decide
  obtain ⟨hreads, hrecord⟩ := haddressing 3 (by decide)
  obtain ⟨TEMP, hread⟩ := hreads zeroDisk rfl
  obtain ⟨before, hbefore⟩ := (haddressing 2 htwo).1 zeroDisk rfl
  have hwrite : blockWrite 20 (Function.update TEMP 384 1) zeroDisk = _ :=
    blockWrite_eq rfl (by decide)
  obtain ⟨after, hafter⟩ := (haddressing 2 htwo).1
    { zeroDisk with
      disk := splice zeroDisk.disk (blockOffset 20) BLOCK_SIZE (Function.update TEMP 384 1) } rfl
  refine ⟨TEMP, _, after, hread, hwrite, ?_, hafter, fun c hc => ?_⟩
  · have hoffset : blockOffset 20 = 20 * BLOCK_SIZE := by decide
    dsimp only
    rw [hoffset, splice_inside (by decide), Function.update_self]
  · have hbuf (k : ℕ) (_ : k < BLOCK_SIZE) (hk : k < Inode.size * 3 % BLOCK_SIZE ∨
        Inode.size * 3 % BLOCK_SIZE + Inode.size ≤ k) :
        Function.update TEMP 384 1 k = TEMP k := by
      unfold Inode.size BLOCK_SIZE at hk
      exact Function.update_of_ne (by omega) _ _
    have hkept := (hrecord zeroDisk TEMP zeroDisk hread).2 _ _ _ hbuf hwrite 2 (by decide) htwo
      before zeroDisk after _ hbefore hafter c hc
    exact hkept.trans (((haddressing 2 htwo).2 zeroDisk before zeroDisk hbefore).1 c hc)

end SimpleOs.Files
