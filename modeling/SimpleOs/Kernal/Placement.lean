import SimpleOs.Heap.Layout
import SimpleOs.Kernal.Bounds

/-!
# The answers of the library's allocators

Like the heaps of the threads, the scheduler's and the shared region keep no history but that
in the `prev` links. What `schedulerallocate` and `shalloc` answer, also if they refuse, and
what the headers are but for these links, depends on the blocks in use only.
-/

namespace SimpleOs.Kernal

open Bytes Heap AllocNode ExactFit

variable {L : Layout} {r : Region} {m m' : Memory} {p k size fuel : ℕ} {bs cs : List Block}
  {live : List (ℕ × ℕ)} {σ σ' : Allocations} {e : AllocEvent}

/-- The answer to a request if the payloads in use are `live`. -/
def Region.answer (r : Region) (live : List (ℕ × ℕ)) (size : ℕ) : Option ℕ :=
  let p := place AllocNode.size r.head (byAddress live) size
  -- the bound that is tested leaves out the header
  if p + size < r.regionEnd + AllocNode.size then some p else none

/-- The condition on an event: a new block is within its region, a free follows right links,
and the scheduler asks for a positive size, which `myallocate` has checked. -/
def PositiveSafe (L : Layout) (σ : Allocations) (e : AllocEvent) : Prop :=
  AllocSafe L σ e ∧ e ≠ .schedulerallocate 0

/-! ## One request -/

/-- A region with blocks answers a request with the place that the blocks in use determine. -/
theorem Region.Holds.answer (h : r.Holds m bs) (hlive : live.Perm (payloads r.head bs))
    (hsize : size < 2 ^ 31) (hfuel : bs.length ≤ fuel) :
    (regionAllocate r fuel m size).map Prod.snd = some (r.answer live size) := by
  have hextent := h.extent_lt
  have hfits := h.fits
  have hbound := r.bound
  unfold Region.answer regionAllocate
  rw [byAddress_eq payloads_sorted hlive, place_payloads h.tight]
  dsimp only
  by_cases hbs : bs = []
  · subst hbs
    have hfit : fitAddress size r.head [] = r.head + AllocNode.size := rfl
    rw [extent_nil] at hfits
    rw [if_pos (h.empty rfl), Nat.mod_eq_of_lt (by omega), hfit]
    split
    · rw [if_neg (by omega)]
      rfl
    · rw [if_pos (by omega)]
      rfl
  · rw [if_neg (not_not_intro (h.chain.signature_eq hbs)),
      search_eq (q := 0) r.positive hextent h.chain hbs hfuel, Option.map_some, Option.map_some]
    congr 1
    by_cases hmem : ⟨size, false⟩ ∈ bs
    · have hle : r.head + AllocNode.size ≤ fitAddress size r.head bs := le_fitAddress
      have hend : fitAddress size r.head bs + size ≤ r.head + extent bs :=
        fitAddress_le_of_mem hmem
      have hheader : 0 < AllocNode.size := by decide
      rw [if_pos hmem, if_pos (by omega)]
      dsimp only
      rw [Nat.sub_add_cancel (by omega)]
    · obtain ⟨xs, c, rfl⟩ := (List.eq_nil_or_concat bs).resolve_left hbs
      rw [List.concat_eq_append] at *
      have hnew := behind_last hextent (by omega) h.chain
      rw [if_neg hmem, lastStart_concat, fitAddress_of_notMem hmem]
      dsimp only
      rw [hnew, Nat.mod_eq_of_lt (by omega)]
      split
      · rw [if_neg (by omega)]
      · rw [if_pos (by omega)]

/-! ## Runs -/

/-- The regions hold the blocks in use, and no others in use. -/
def Allocations.Exact (L : Layout) (σ : Allocations) : Prop :=
  ∃ bs cs, (schedulerRegion L).Holds σ.mem bs ∧ (sharedRegion L).Holds σ.mem cs ∧
    σ.scheduler.Perm (payloads (schedulerRegion L).head bs) ∧
    σ.shared.Perm (payloads (sharedRegion L).head cs) ∧ ∀ x ∈ σ.scheduler, 0 < x.2

/-- A write to a payload leaves both regions as they are. -/
theorem holds_write {x : ℕ × ℕ} {a : ℕ} {v : UInt8} (hbs : (schedulerRegion L).Holds m bs)
    (hcs : (sharedRegion L).Holds m cs) (ha : InPayload x a)
    (hx : x ∈ payloads (schedulerRegion L).head bs ∨ x ∈ payloads (sharedRegion L).head cs) :
    (schedulerRegion L).Holds (Function.update m a v) bs ∧
      (sharedRegion L).Holds (Function.update m a v) cs := by
  obtain ⟨hbefore, hroom⟩ := schedulerRegion_before L
  have hfits := hbs.fits
  unfold InPayload at ha
  rcases hx with hx | hx
  · have hpos := mem_payloads (p := x.1) (k := x.2) hx
    refine ⟨hbs.write (fun _ => Or.inr (by omega)) fun y hy => ?_,
      hcs.write (fun _ => Or.inl (by omega)) fun y hy => Or.inl ?_⟩
    · have hapart := payload_apart (p := x.1) (k := x.2) hx hy
      omega
    · have hy := mem_starts hy
      omega
  · have hpos := mem_payloads (p := x.1) (k := x.2) hx
    refine ⟨hbs.write (fun _ => Or.inr (by omega)) fun y hy => Or.inr ?_,
      hcs.write (fun _ => Or.inr (by omega)) fun y hy => ?_⟩
    · have hy := mem_starts hy
      omega
    · have hapart := payload_apart (p := x.1) (k := x.2) hx hy
      omega

/-- They do so after the next event. -/
theorem Allocations.Exact.step (h : σ.Exact L) (hok : PositiveSafe L σ e)
    (hstep : AllocStep L σ e σ') : σ'.Exact L := by
  obtain ⟨bs, cs, hbs, hcs, hlive, hlive', hpos⟩ := h
  obtain ⟨hok, hsize⟩ := hok
  cases e with
  | schedulerallocate size =>
    obtain ⟨hlt, fuel, p, hrun, hscheduler, hshared⟩ := hstep
    obtain ⟨bs', hchain, htight, hne, hperm, htouch, _, hfits⟩ := hbs.allocate hlt hrun
    refine ⟨bs', cs, ⟨hchain, htight, fun hnil => absurd hnil hne, hfits hok⟩,
      hcs.of_scheduler htouch (hfits hok), ?_, hshared ▸ hlive', ?_⟩
    · rw [hscheduler]
      exact (hlive.cons _).trans hperm.symm
    · rw [hscheduler]
      intro x hx
      rcases List.mem_cons.mp hx with rfl | hx
      · exact Nat.pos_of_ne_zero fun hzero => hsize (congrArg _ hzero)
      · exact hpos x hx
  | shalloc size =>
    obtain ⟨hlt, fuel, p, hrun, hshared, hscheduler⟩ := hstep
    obtain ⟨cs', hchain, htight, hne, hperm, htouch, _, hfits⟩ := hcs.allocate hlt hrun
    refine ⟨bs, cs', hbs.of_shared htouch, ⟨hchain, htight, fun hnil => absurd hnil hne, hfits hok⟩,
      hscheduler ▸ hlive, ?_, hscheduler ▸ hpos⟩
    rw [hshared]
    exact (hlive'.cons _).trans hperm.symm
  | mydeallocate ptr =>
    obtain ⟨fuel, size, hp, hrun, hscheduler, hshared⟩ := hstep
    have hin := hlive.subset hp
    have hfree : ¬ TurnedAway L σ.mem ptr := by
      obtain ⟨hlow, hhigh⟩ := mem_payloads hin
      have hregion := hbs.fits
      have hsize := hpos _ hp
      obtain ⟨xs, ys, rfl, rfl⟩ := exists_block hin
      have hheader := (chain_middle.mp hbs.chain).2.1
      unfold TurnedAway
      rw [Nat.add_sub_cancel, hheader.signature, hheader.used]
      rintro (hrange | hsignature | huse)
      · change _ < (schedulerRegion L).head ∨ (schedulerRegion L).regionEnd ≤ _ at hrange
        omega
      · exact hsignature rfl
      · exact absurd huse (by simp)
    rw [mydeallocate, if_neg hfree] at hrun
    obtain ⟨bs', hbs', hperm, htouch⟩ := hbs.deallocate hin hok hrun
    refine ⟨bs', cs, hbs', hcs.of_scheduler htouch hbs.fits, ?_, hshared ▸ hlive', ?_⟩
    · rw [hscheduler]
      exact (hlive.erase _).trans hperm.symm
    · rw [hscheduler]
      exact fun x hx => hpos x (List.mem_of_mem_erase hx)
  | write a v =>
    obtain ⟨⟨x, hx, ha⟩, rfl⟩ := hstep
    obtain ⟨hbs', hcs'⟩ := holds_write (v := v) hbs hcs ha
      ((List.mem_append.mp hx).imp (fun h => hlive.subset h) fun h => hlive'.subset h)
    exact ⟨bs, cs, hbs', hcs', hlive, hlive', hpos⟩

/-- Both regions hold exactly the blocks in use, in every run. -/
theorem allocReach_exact (h : AllocReach L (PositiveSafe L) σ) : σ.Exact L := by
  apply Runs.Reach.invariant (P := Allocations.Exact L) ?_ ?_ h
  · rintro σ ⟨hscheduler, hshared, hkernal, hthread⟩
    have hnil : Tight [] := ⟨List.isChain_nil, by simp⟩
    refine ⟨[], [], ⟨trivial, hnil, fun _ => hkernal, Nat.le_add_right _ _⟩,
      ⟨trivial, hnil, fun _ => hthread, Nat.le_add_right _ _⟩, ?_, ?_, ?_⟩
    · rw [hscheduler]
      exact List.Perm.refl _
    · rw [hshared]
      exact List.Perm.refl _
    · rw [hscheduler]
      exact fun x hx => absurd hx (by simp)
  · exact fun σ e σ' hσ hok hstep => hσ.step hok hstep

/-- A free block is followed by one in use. -/
theorem length_le_of_tight {s : ℕ} (h : Tight bs) :
    bs.length ≤ 2 * (payloads s bs).length := by
  refine Tight.induction (P := fun s bs => bs.length ≤ 2 * (payloads s bs).length) ?_ ?_ ?_ s bs h
  · exact fun s => le_rfl
  · intro s k ys _ ih
    rw [payloads_used, List.length_cons, List.length_cons]
    omega
  · intro s j k zs _ ih
    rw [payloads_free, payloads_used, List.length_cons, List.length_cons, List.length_cons]
    omega

/-- The headers, but for their `prev` links, and the answers of a region whose blocks in use are
`live`. -/
structure Region.Determined (r : Region) (m : Memory) (live : List (ℕ × ℕ)) : Prop where
  /-- Use, capacity, `next` and signature of the headers. Their `prev` links are not among what
  is determined. -/
  chain : Chain m r.head (layout r.head (byAddress live)) 0
  /-- Without blocks in use there is no header. -/
  empty : live = [] → get m r.head signature ≠ valid
  /-- The answers, after at most two steps for each block in use. -/
  answers : ∀ fuel size, 2 * live.length ≤ fuel → size < 2 ^ 31 →
    (regionAllocate r fuel m size).map Prod.snd = some (r.answer live size)

/-- The blocks in use determine the headers, but for their links back, and all answers. -/
theorem Region.Holds.determined (h : r.Holds m bs) (hlive : live.Perm (payloads r.head bs)) :
    r.Determined m live := by
  refine ⟨?_, fun hnil => h.empty ?_, fun fuel size hfuel hsize => h.answer hlive hsize ?_⟩
  · rw [byAddress_eq payloads_sorted hlive, layout_payloads h.tight]
    exact h.chain
  · rw [hnil] at hlive
    exact h.tight.eq_nil hlive.nil_eq.symm
  · have hlength := length_le_of_tight (s := r.head) h.tight
    rw [← hlive.length_eq] at hlength
    omega

/-- The library's allocators keep no history but that in the `prev` links. In every run in which
new blocks are within their regions, frees follow right links and the scheduler asks for
positive sizes, the headers of both regions but for these links, and the answers to all
requests, refusals too, are functions of the blocks in use: a request goes into the first hole
of exactly its size, else behind all blocks, if it passes the test there. -/
theorem allocators_keep_no_history (L : Layout) (σ : Allocations)
    (hreach : AllocReach L (PositiveSafe L) σ) :
    (schedulerRegion L).Determined σ.mem σ.scheduler ∧
      (sharedRegion L).Determined σ.mem σ.shared := by
  obtain ⟨bs, cs, hbs, hcs, hlive, hlive', _⟩ := allocReach_exact hreach
  exact ⟨hbs.determined hlive, hcs.determined hlive'⟩

/-- Three blocks of the scheduler, of which the second is freed. -/
def secondFreed : List AllocEvent :=
  [.schedulerallocate 100, .schedulerallocate 50, .schedulerallocate 30, .mydeallocate 77988]

/-- Between the two blocks that are left there is a hole of 50 bytes: the next request of 50
bytes gets it, one of 40 bytes goes behind both, and one that is too large is refused. -/
theorem allocators_keep_no_history_secondFreed : ∃ σ : Allocations,
    σ.scheduler = [(78070, 30), (77856, 100)] ∧
      (schedulerRegion sampleLayout).Determined σ.mem σ.scheduler ∧
      (schedulerRegion sampleLayout).answer σ.scheduler 50 = some 77988 ∧
      (schedulerRegion sampleLayout).answer σ.scheduler 40 = some 78132 ∧
      (schedulerRegion sampleLayout).answer σ.scheduler 819200 = none := by
  have hrun : (Runs.execAll (Allocations.exec sampleLayout 10) secondFreed freshAllocations).map
      Allocations.scheduler = some [(78070, 30), (77856, 100)] := by
    decide +kernel
  obtain ⟨σ, hexec, hscheduler⟩ := Option.map_eq_some_iff.mp hrun
  have hsound : freshAllocations.Sound sampleLayout := allocReach_sound allocReach_fresh
  have hreach : AllocReach sampleLayout (PositiveSafe sampleLayout) σ := by
    refine allocReach_exec (fun e he σ hsafe => ⟨hsafe, ?_⟩) hsound allocReach_fresh hexec
    rintro rfl
    simp [secondFreed] at he
  have hsorted : byAddress [(78070, 30), (77856, 100)] = [(77856, 100), (78070, 30)] :=
    byAddress_eq (by simp) (List.Perm.swap _ _ _)
  refine ⟨σ, hscheduler, (allocators_keep_no_history sampleLayout σ hreach).1, ?_, ?_, ?_⟩ <;>
    rw [hscheduler, Region.answer, hsorted] <;> decide

end SimpleOs.Kernal
