import SimpleOs.Heap.Representation
import SimpleOs.Kernal.Overlap

/-!
# One call of `mydeallocate`

On a list of headers that is as it should be, a free takes one payload away and leaves the
others where they are. This holds for a thread and for the scheduler, in every position of the
block among free blocks, blocks in use and the ends of the list.
-/

namespace SimpleOs.Kernal

open Bytes Heap AllocNode

variable {L : Layout} {m : Memory} {s p k fuel : ℕ} {bs : List Block}

/-! ## Both kinds of requests -/

/-- Who calls the allocator, the argument `reqType`. -/
inductive ReqType where
  /-- A thread, for its own region. -/
  | THREADREQ
  /-- The library, for the scheduler's region. -/
  | LIBRARYREQ

/-- The address of the first header of the caller's region. -/
def ReqType.head (L : Layout) : ReqType → ℕ
  | .THREADREQ => L.schedulerEnd
  | .LIBRARYREQ => L.kernalEnd

/-- The end of the region. -/
def ReqType.regionEnd (L : Layout) : ReqType → ℕ
  | .THREADREQ => L.endOfPages
  | .LIBRARYREQ => L.schedulerEnd

/-- `mydeallocate` in the region of the caller, when the regions are set up. -/
def deallocate (L : Layout) (reqType : ReqType) (fuel : ℕ) (m : Memory) (ptr : ℕ) :
    Option Memory :=
  let currNode := ptr - AllocNode.size
  if ptr < reqType.head L ∨ reqType.regionEnd L ≤ ptr then some m
  else if get m currNode signature ≠ valid then some m
  else if get m currNode inUse = 0 then some m
  else freeBlock fuel m currNode

/-- For a thread the call is `mydeallocate` of its heap. -/
theorem deallocate_thread {h : Arena} :
    (deallocate L .THREADREQ fuel h.mem p).map (fun m => { h with mem := m }) =
      Heap.mydeallocate L fuel h p := by
  simp only [deallocate, Heap.mydeallocate, ReqType.head, ReqType.regionEnd, freeBlock]
  split_ifs
  · rfl
  · rfl
  · rfl
  · simp only [Option.map_bind, Option.map_map, Function.comp_def]

/-- With `LIBRARYREQ` this is the call that the scheduler makes. -/
theorem deallocate_scheduler :
    deallocate L .LIBRARYREQ fuel m p = mydeallocate L fuel m p := by
  simp only [deallocate, mydeallocate, TurnedAway, ReqType.head, ReqType.regionEnd, freeBlock]
  split_ifs <;> first | rfl | (exfalso; tauto)

/-- The regions are in the address space. -/
theorem ReqType.head_bound (L : Layout) (reqType : ReqType) :
    0 < reqType.head L ∧ reqType.head L < 2 ^ 63 := by
  obtain ⟨hstart, hend, _⟩ := L.schedulerEnd_bound
  have hpositive := L.positive
  have hkernal : L.schedulerEnd = L.kernalEnd + 200 * L.PAGE_SIZE := rfl
  have hthread : L.endOfPages = L.schedulerEnd + 1600 * L.PAGE_SIZE := rfl
  cases reqType with
  | THREADREQ =>
    change 0 < L.schedulerEnd ∧ L.schedulerEnd < 2 ^ 63
    omega
  | LIBRARYREQ =>
    have hpos : 0 < L.kernalEnd := Nat.add_pos_right _ (Nat.mul_pos (by decide) hpositive)
    change 0 < L.kernalEnd ∧ L.kernalEnd < 2 ^ 63
    omega

/-! ## Lists of headers -/

/-- The list from `head` is that of the blocks `bs`, and as it should be. -/
structure SoundList (m : Memory) (head : ℕ) (bs : List Block) : Prop where
  /-- The signatures and the capacities, and the links to the next header. -/
  chain : Chain m head bs 0
  /-- The links to the header before. -/
  linked : Linked m 0 head bs
  /-- No two free blocks are adjacent, and the last block is in use. -/
  tight : Tight bs
  /-- Capacities are those of an `int`. -/
  bound : extent bs < 2 ^ 31

/-- The end of the last of the payloads, or the first header if there is none. -/
def lastEnd (head : ℕ) (live : List (ℕ × ℕ)) : ℕ :=
  (live.getLast?.map fun x => x.1 + x.2).getD head

/-- Blocks of which the last one is in use end where its payload does. -/
theorem lastEnd_eq (h : Tight bs) : s + extent bs = lastEnd s (payloads s bs) := by
  rcases List.eq_nil_or_concat bs with rfl | ⟨xs, b, rfl⟩
  · rfl
  · rw [List.concat_eq_append] at h ⊢
    have hb : b.used = true := h.2 b (by simp)
    simp [lastEnd, payloads_append, payloads, hb, Block.span, Nat.add_assoc]

/-- A payload whose mark is gone is not freed again. -/
theorem deallocate_again {reqType : ReqType} (h : get m (p - AllocNode.size) inUse = 0) :
    deallocate L reqType fuel m p = some m := by
  simp only [deallocate, h, if_true, ite_self]

/-- A payload that begins behind the region is not freed. -/
theorem deallocate_behind {reqType : ReqType} (h : reqType.regionEnd L ≤ p) :
    deallocate L reqType fuel m p = some m := if_pos (Or.inr h)

/-! ## The result -/

/-- A free of a live block returns, and it takes this payload away, unless it begins behind the
region. The others stay where they are, in the same order, in a list of adjacent blocks without
free neighbours, which is cut at the end of the last payload if at all. A second free of the
block changes nothing. -/
theorem one_free {reqType : ReqType} (hsound : SoundList m (reqType.head L) bs)
    (hp : (p, k) ∈ payloads (reqType.head L) bs) :
    ∃ m' bs' before behind,
      (∀ fuel, 2 ≤ fuel → deallocate L reqType fuel m p = some m') ∧
        payloads (reqType.head L) bs = before ++ (p, k) :: behind ∧
        payloads (reqType.head L) bs' =
          before ++ (if p < reqType.regionEnd L then behind else (p, k) :: behind) ∧
        Chain m' (reqType.head L) bs' 0 ∧ Tight bs' ∧
        (bs' = [] → get m' (reqType.head L) signature ≠ valid) ∧
        (extent bs' = extent bs ∨ extent bs' < extent bs ∧
          reqType.head L + extent bs' = lastEnd (reqType.head L) (payloads (reqType.head L) bs')) ∧
        ∀ fuel, deallocate L reqType fuel m' p = some m' := by
  obtain ⟨hs, hbound⟩ := reqType.head_bound L
  obtain ⟨hchain, hlinked, htight, hextent⟩ := hsound
  obtain ⟨xs, ys, rfl, hpayload⟩ := exists_block hp
  have hlist : payloads (reqType.head L) (xs ++ ⟨k, true⟩ :: ys) =
      payloads (reqType.head L) xs ++ (p, k) ::
        payloads (reqType.head L + extent xs + (⟨k, true⟩ : Block).span) ys := by
    simp [payloads_append, payloads, hpayload]
  by_cases hin : p < reqType.regionEnd L
  · obtain ⟨m', bs', hreturns, hchain', htight', hpayloads, hle, _, hempty, _, _, hfree⟩ :=
      freeBlock_spec hs (by omega) (by omega) hchain htight
        (followsExact_of_linked hs hchain hlinked)
    have hnode : p - AllocNode.size = reqType.head L + extent xs := by omega
    have hheader := (chain_middle.mp hchain).2.1
    have huse : get m (p - AllocNode.size) inUse ≠ 0 := by
      rw [hnode, hheader.used]
      exact one_ne_zero
    refine ⟨m', bs', _, _, fun fuel hfuel => ?_, hlist, ?_, hchain', htight', hempty, ?_,
      fun fuel => deallocate_again (by rwa [hnode])⟩
    · have hrange : ¬ (p < reqType.head L ∨ reqType.regionEnd L ≤ p) := by omega
      have hsignature : ¬ get m (p - AllocNode.size) signature ≠ valid :=
        not_not_intro (hnode ▸ hheader.signature)
      simp only [deallocate]
      rw [if_neg hrange, if_neg hsignature, if_neg huse, hnode]
      exact freeBlock_mono hreturns hfuel
    · rw [hpayloads, if_pos hin]
    · apply (Nat.eq_or_lt_of_le hle).imp id
      exact fun hlt => ⟨hlt, lastEnd_eq htight'⟩
  · refine ⟨m, _, _, _, fun fuel _ => deallocate_behind (Nat.not_lt.mp hin), hlist, ?_, hchain,
      htight, by simp, Or.inl rfl, fun fuel => deallocate_behind (Nat.not_lt.mp hin)⟩
    rw [hlist, if_neg hin]

/-- The theorem at the second of three blocks of a thread. -/
theorem one_free_second : ∃ m bs m' bs',
    SoundList m (ReqType.head sampleLayout .THREADREQ) bs ∧
      (897188, 50) ∈ payloads (ReqType.head sampleLayout .THREADREQ) bs ∧
      deallocate sampleLayout .THREADREQ 2 m 897188 = some m' ∧
      Chain m' (ReqType.head sampleLayout .THREADREQ) bs' 0 ∧ Tight bs' ∧
      deallocate sampleLayout .THREADREQ 2 m' 897188 = some m' := by
  have hrun : (execHeapEvents sampleLayout 1 10 [.allocate 100, .allocate 50, .allocate 70]
      freshState).map State.live = some [(897270, 70), (897188, 50), (897056, 100)] := by
    decide +kernel
  obtain ⟨σ, hσ, hlive⟩ := Option.map_eq_some_iff.mp hrun
  have hreach : AnyHeapReach sampleLayout 1 Alone σ :=
    anyHeapReach_execHeapEvents (by simp [Alone]) hσ
  obtain ⟨bs, hformed, hperm, hlinked⟩ := anyHeapReach_linked hreach
  have hsound : SoundList σ.heap.mem (ReqType.head sampleLayout .THREADREQ) bs :=
    ⟨hformed.chain, hlinked, hformed.tight, hformed.fits.bounds.1⟩
  have hp : (897188, 50) ∈ payloads (ReqType.head sampleLayout .THREADREQ) bs :=
    hperm.mem_iff.mp (by simp [hlive])
  obtain ⟨m', bs', _, _, hreturns, _, _, hchain, htight, _, _, hagain⟩ := one_free hsound hp
  exact ⟨_, bs, m', bs', hsound, hp, hreturns 2 le_rfl, hchain, htight, hagain 2⟩

end SimpleOs.Kernal
