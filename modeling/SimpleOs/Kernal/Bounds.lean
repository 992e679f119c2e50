import SimpleOs.Kernal.Overlap

/-!
# The bounds of the scheduler's and the shared region

Both allocators test where the payload would end without the header. The last block can reach
32 bytes behind the region, and a request that does not fit in an empty region leaves a marked
header behind.
-/

namespace SimpleOs.Kernal

open Bytes Heap AllocNode

variable {L : Layout} {r : Region} {m m' : Memory} {a p k size fuel : ℕ} {bs : List Block}

/-! ## Runs -/

/-- The memory, and the payloads that were returned and not freed, with their sizes. -/
structure Allocations where
  /-- The bytes of the memory with both regions. -/
  mem : Memory
  /-- The payloads in the scheduler's region. -/
  scheduler : List (ℕ × ℕ)
  /-- The payloads in the shared region. -/
  shared : List (ℕ × ℕ)

/-- What is done in the two regions. -/
inductive AllocEvent where
  /-- A call of `schedulerallocate` that succeeds. -/
  | schedulerallocate (size : ℕ)
  /-- A call of `shalloc` that succeeds. -/
  | shalloc (size : ℕ)
  /-- `mydeallocate` with `LIBRARYREQ` on a live block. -/
  | mydeallocate (ptr : ℕ)
  /-- A write to a byte of a live block. -/
  | write (a : ℕ) (v : UInt8)

/-- One event: a granted request in one of the regions, a free of a live block of the scheduler, or
a write into a live block. -/
def AllocStep (L : Layout) (σ : Allocations) (e : AllocEvent) (σ' : Allocations) : Prop :=
  match e with
  | .schedulerallocate size => size < 2 ^ 31 ∧ ∃ fuel p,
      schedulerallocate L fuel σ.mem size = some (σ'.mem, some p) ∧
        σ'.scheduler = (p, size) :: σ.scheduler ∧ σ'.shared = σ.shared
  | .shalloc size => size < 2 ^ 31 ∧ ∃ fuel p,
      shalloc L fuel σ.mem size = some (σ'.mem, some p) ∧
        σ'.shared = (p, size) :: σ.shared ∧ σ'.scheduler = σ.scheduler
  | .mydeallocate ptr => ∃ fuel size, (ptr, size) ∈ σ.scheduler ∧
      mydeallocate L fuel σ.mem ptr = some σ'.mem ∧
        σ'.scheduler = σ.scheduler.erase (ptr, size) ∧ σ'.shared = σ.shared
  | .write a v => (∃ x ∈ σ.scheduler ++ σ.shared, InPayload x a) ∧
      σ' = { σ with mem := Function.update σ.mem a v }

/-- The event is a call that allocates a block. -/
def AllocEvent.Allocates : AllocEvent → Prop
  | .schedulerallocate _ => True
  | .shalloc _ => True
  | _ => False

/-- The condition on an event: a new block is within its region, and a free follows right
links. -/
def AllocSafe (L : Layout) (σ : Allocations) : AllocEvent → Prop
  | .schedulerallocate size => (schedulerRegion L).RoomFor σ.mem size
  | .shalloc size => (sharedRegion L).RoomFor σ.mem size
  | .mydeallocate ptr => FollowsExact σ.mem L.kernalEnd (ptr - AllocNode.size)
  | .write _ _ => True

/-- The states reached by events that meet `ok`, from one in which nothing is allocated. -/
def AllocReach (L : Layout) (ok : Allocations → AllocEvent → Prop) : Allocations → Prop :=
  Runs.Reach (fun σ => σ.scheduler = [] ∧ σ.shared = [] ∧
    get σ.mem L.kernalEnd signature ≠ valid ∧ get σ.mem (threadPagesCountEnd L) signature ≠ valid)
    (AllocStep L) ok

/-- The payloads are inside the region, behind the first header. -/
def Region.Inside (r : Region) (live : List (ℕ × ℕ)) : Prop :=
  ∀ x ∈ live, r.head + AllocNode.size ≤ x.1 ∧ x.1 + x.2 ≤ r.regionEnd

/-- The payloads are inside their regions. -/
def Allocations.Inside (L : Layout) (σ : Allocations) : Prop :=
  (schedulerRegion L).Inside σ.scheduler ∧ (sharedRegion L).Inside σ.shared

/-! ## One region -/

/-- Headers elsewhere, and the page nodes of the blocks stay. -/
theorem Region.Holds.of_touches {nodes : List ℕ} (h : r.Holds m bs) (htouch : Touches m m' nodes)
    (hapart : ∀ y ∈ nodes, y + AllocNode.size ≤ r.head ∨
      r.regionEnd ≤ y ∧ r.head + AllocNode.size ≤ y) : r.Holds m' bs := by
  refine ⟨htouch.chain h.chain fun x hx y hy => ?_, h.tight, fun hbs => ?_, h.fits⟩
  · have hpos := mem_starts hx
    have hfits := h.fits
    have := hapart y hy
    omega
  · rw [htouch.get (by decide) fun y hy => ?_]
    · exact h.empty hbs
    · have := hapart y hy
      omega

/-- So do writes to payloads, and to bytes elsewhere. -/
theorem Region.Holds.write {v : UInt8} (h : r.Holds m bs) (hhead : bs = [] →
    a < r.head ∨ r.head + AllocNode.size ≤ a)
    (ha : ∀ y ∈ starts r.head bs, a < y ∨ y + AllocNode.size ≤ a) :
    r.Holds (Function.update m a v) bs := by
  have hget {y : ℕ} {f : Field} (hf : f.offset + f.width ≤ AllocNode.size)
      (hy : a < y ∨ y + AllocNode.size ≤ a) : get (Function.update m a v) y f = get m y f :=
    load_congr fun c hc hlt => Function.update_of_ne (by omega) _ _
  refine ⟨h.chain.congr fun y hy f hf => hget hf (ha y hy), h.tight, fun hbs => ?_, h.fits⟩
  rw [hget (by decide) (hhead hbs)]
  exact h.empty hbs

/-- The payloads of a region are inside it. -/
theorem Region.Holds.inside {live : List (ℕ × ℕ)} (h : r.Holds m bs)
    (hlive : List.Subperm live (payloads r.head bs)) : r.Inside live := by
  intro x hx
  have hpos := mem_payloads (p := x.1) (k := x.2) (hlive.subset hx)
  have hfits := h.fits
  omega

/-- Freeing a live block, if the links it follows are right. -/
theorem Region.Holds.deallocate (h : r.Holds m bs) (hp : (p, k) ∈ payloads r.head bs)
    (hfollows : FollowsExact m r.head (p - AllocNode.size))
    (hrun : freeBlock fuel m (p - AllocNode.size) = some m') :
    ∃ bs', r.Holds m' bs' ∧ (payloads r.head bs').Perm ((payloads r.head bs).erase (p, k)) ∧
      Touches m m' (starts r.head bs) := by
  have hfits := h.fits
  have hbound := r.bound
  have hextent := h.extent_lt
  obtain ⟨xs, ys, rfl, rfl⟩ := exists_block hp
  rw [Nat.add_sub_cancel] at hfollows hrun
  obtain ⟨m₁, bs', hreturns, hchain, htight, hpayloads, hle, htouch, hempty, _⟩ :=
    freeBlock_spec r.positive (by omega) (by omega) h.chain h.tight hfollows
  obtain rfl := freeBlock_unique hreturns hrun
  refine ⟨bs', ⟨hchain, htight, hempty, by omega⟩, ?_, htouch⟩
  have hlist : payloads r.head (xs ++ ⟨k, true⟩ :: ys) =
      payloads r.head xs ++ (r.head + extent xs + AllocNode.size, k) ::
        payloads (r.head + extent xs + (⟨k, true⟩ : Block).span) ys := by
    simp [payloads_append, payloads]
  rw [hpayloads, hlist]
  exact erase_middle_perm.symm

/-- The new payload is inside the region exactly if there is room for it, and then the region
holds its blocks. -/
theorem Region.Holds.allocate_inside {live : List (ℕ × ℕ)} (h : r.Holds m bs)
    (hlive : List.Subperm live (payloads r.head bs)) (hsize : size < 2 ^ 31)
    (hrun : regionAllocate r fuel m size = some (m', some p)) :
    (r.Inside ((p, size) :: live) ↔ r.RoomFor m size) ∧
      (r.RoomFor m size → ∃ bs', r.Holds m' bs' ∧
        List.Subperm ((p, size) :: live) (payloads r.head bs') ∧
        Touches m m' (starts r.head bs')) := by
  obtain ⟨bs', hchain, htight, hne, hperm, htouch, hroom, hfits⟩ := h.allocate hsize hrun
  have hinside := h.inside hlive
  have hp : (p, size) ∈ payloads r.head bs' := hperm.mem_iff.mpr List.mem_cons_self
  constructor
  · rw [← hroom]
    constructor
    · exact fun hall => (hall (p, size) List.mem_cons_self).2
    · intro hend x hx
      rcases List.mem_cons.mp hx with rfl | hx
      · exact ⟨(mem_payloads hp).1, hend⟩
      · exact hinside x hx
  · intro hok
    exact ⟨bs', ⟨hchain, htight, fun hnil => absurd hnil hne, hfits hok⟩,
      ((List.subperm_cons _).mpr hlive).trans hperm.symm.subperm, htouch⟩

/-! ## Both regions -/

/-- The invariant of the runs: each region holds blocks, and the live ones are among those in use.
-/
def Allocations.Sound (L : Layout) (σ : Allocations) : Prop :=
  ∃ bs cs, (schedulerRegion L).Holds σ.mem bs ∧ (sharedRegion L).Holds σ.mem cs ∧
    List.Subperm σ.scheduler (payloads (schedulerRegion L).head bs) ∧
    List.Subperm σ.shared (payloads (sharedRegion L).head cs)

/-- The scheduler's region is before the shared one, and holds a header. -/
theorem schedulerRegion_before (L : Layout) :
    (schedulerRegion L).regionEnd ≤ (sharedRegion L).head ∧
      (schedulerRegion L).head + AllocNode.size ≤ (schedulerRegion L).regionEnd := by
  have hpositive := L.positive
  change L.schedulerEnd ≤ threadPagesCountEnd L ∧ L.kernalEnd + AllocNode.size ≤ L.schedulerEnd
  unfold threadPagesCountEnd Layout.endOfPages Layout.schedulerEnd AllocNode.size
  omega

/-- Changes of headers in the scheduler's region leave the shared one alone. -/
theorem Region.Holds.of_scheduler {cs : List Block} (h : (sharedRegion L).Holds m cs)
    (htouch : Touches m m' (starts (schedulerRegion L).head bs))
    (hfits : (schedulerRegion L).head + extent bs ≤ (schedulerRegion L).regionEnd) :
    (sharedRegion L).Holds m' cs := by
  apply h.of_touches htouch
  intro y hy
  have hpos := mem_starts hy
  have hbefore := schedulerRegion_before L
  omega

/-- Changes of headers in the shared region leave the scheduler's one alone. -/
theorem Region.Holds.of_shared {cs : List Block} (h : (schedulerRegion L).Holds m bs)
    (htouch : Touches m m' (starts (sharedRegion L).head cs)) :
    (schedulerRegion L).Holds m' bs := by
  apply h.of_touches htouch
  intro y hy
  have hpos := mem_starts hy
  have hbefore := schedulerRegion_before L
  omega

variable {σ σ' : Allocations} {e : AllocEvent}

/-- Freeing a live block through right links keeps both regions sound. -/
theorem Allocations.Sound.free (h : σ.Sound L) (hp : (p, k) ∈ σ.scheduler)
    (hfollows : FollowsExact σ.mem L.kernalEnd (p - AllocNode.size))
    (hrun : mydeallocate L fuel σ.mem p = some σ'.mem)
    (hscheduler : σ'.scheduler = σ.scheduler.erase (p, k)) (hshared : σ'.shared = σ.shared) :
    σ'.Sound L := by
  obtain ⟨bs, cs, hbs, hcs, hlive, hlive'⟩ := h
  unfold mydeallocate at hrun
  split at hrun
  · have heq := Option.some.inj hrun
    refine ⟨bs, cs, heq ▸ hbs, heq ▸ hcs, ?_, hshared ▸ hlive'⟩
    rw [hscheduler]
    exact (List.erase_subperm _ _).trans hlive
  · obtain ⟨bs', hbs', hperm, htouch⟩ := hbs.deallocate (hlive.subset hp) hfollows hrun
    refine ⟨bs', cs, hbs', hcs.of_scheduler htouch hbs.fits, ?_, hshared ▸ hlive'⟩
    rw [hscheduler]
    exact (hlive.erase (p, k)).trans hperm.symm.subperm

/-- A write to a live block keeps both regions sound. -/
theorem Allocations.Sound.write {v : UInt8} (h : σ.Sound L)
    (ha : ∃ x ∈ σ.scheduler ++ σ.shared, InPayload x a) :
    Allocations.Sound L { σ with mem := Function.update σ.mem a v } := by
  obtain ⟨bs, cs, hbs, hcs, hlive, hlive'⟩ := h
  obtain ⟨x, hx, hax⟩ := ha
  obtain ⟨hbefore, hroom⟩ := schedulerRegion_before L
  have hfits := hbs.fits
  unfold InPayload at hax
  -- the byte is in one region, and apart from the headers there
  rcases List.mem_append.mp hx with hx | hx
  · have hx := hlive.subset hx
    have hpos := mem_payloads (p := x.1) (k := x.2) hx
    refine ⟨bs, cs, hbs.write (fun _ => Or.inr (by omega)) fun y hy => ?_,
      hcs.write (fun _ => Or.inl (by omega)) fun y hy => Or.inl ?_, hlive, hlive'⟩
    · have hapart := payload_apart (p := x.1) (k := x.2) hx hy
      omega
    · have hy := mem_starts hy
      omega
  · have hx := hlive'.subset hx
    have hpos := mem_payloads (p := x.1) (k := x.2) hx
    refine ⟨bs, cs, hbs.write (fun _ => Or.inr (by omega)) fun y hy => Or.inr ?_,
      hcs.write (fun _ => Or.inr (by omega)) fun y hy => ?_, hlive, hlive'⟩
    · have hy := mem_starts hy
      omega
    · have hapart := payload_apart (p := x.1) (k := x.2) hx hy
      omega

/-- After an allocation the payloads are inside exactly if it met the condition, and every event
that meets it leaves a sound state. -/
theorem Allocations.Sound.step (h : σ.Sound L) (hstep : AllocStep L σ e σ') :
    (e.Allocates → (σ'.Inside L ↔ AllocSafe L σ e)) ∧ (AllocSafe L σ e → σ'.Sound L) := by
  cases e with
  | schedulerallocate size =>
    obtain ⟨hsize, fuel, p, hrun, hscheduler, hshared⟩ := hstep
    obtain ⟨bs, cs, hbs, hcs, hlive, hlive'⟩ := h
    obtain ⟨hinside, hnew⟩ := hbs.allocate_inside hlive hsize hrun
    unfold Allocations.Inside Allocations.Sound
    rw [hscheduler, hshared]
    refine ⟨fun _ => (and_iff_left (hcs.inside hlive')).trans hinside, fun hok => ?_⟩
    obtain ⟨bs', hbs', hnewlive, htouch⟩ := hnew hok
    exact ⟨bs', cs, hbs', hcs.of_scheduler htouch hbs'.fits, hnewlive, hlive'⟩
  | shalloc size =>
    obtain ⟨hsize, fuel, p, hrun, hshared, hscheduler⟩ := hstep
    obtain ⟨bs, cs, hbs, hcs, hlive, hlive'⟩ := h
    obtain ⟨hinside, hnew⟩ := hcs.allocate_inside hlive' hsize hrun
    unfold Allocations.Inside Allocations.Sound
    rw [hscheduler, hshared]
    refine ⟨fun _ => (and_iff_right (hbs.inside hlive)).trans hinside, fun hok => ?_⟩
    obtain ⟨cs', hcs', hnewlive, htouch⟩ := hnew hok
    exact ⟨bs, cs', hbs.of_shared htouch, hcs', hlive, hnewlive⟩
  | mydeallocate ptr =>
    obtain ⟨fuel, size, hp, hrun, hscheduler, hshared⟩ := hstep
    exact ⟨False.elim, fun hok => h.free hp hok hrun hscheduler hshared⟩
  | write a v =>
    obtain ⟨ha, rfl⟩ := hstep
    exact ⟨False.elim, fun _ => h.write ha⟩

/-- Every state that a run of such events reaches is sound. -/
theorem allocReach_sound (h : AllocReach L (AllocSafe L) σ) : σ.Sound L := by
  apply Runs.Reach.invariant (P := Allocations.Sound L) ?_ ?_ h
  · rintro σ ⟨hscheduler, hshared, hkernal, hthread⟩
    have hnil : Tight [] := ⟨List.isChain_nil, by simp⟩
    refine ⟨[], [], ⟨trivial, hnil, fun _ => hkernal, Nat.le_add_right _ _⟩,
      ⟨trivial, hnil, fun _ => hthread, Nat.le_add_right _ _⟩, ?_, ?_⟩
    · rw [hscheduler]
      exact List.nil_subperm
    · rw [hshared]
      exact List.nil_subperm
  · exact fun σ e σ' hσ hok hstep => (hσ.step hstep).2 hok

/-- In every run whose events meet the condition the payloads are inside their regions. After
the next allocation they are so exactly if it meets the condition too. -/
theorem allocations_inside (L : Layout) :
    (∀ σ, AllocReach L (AllocSafe L) σ → σ.Inside L) ∧
      ∀ σ e σ', AllocReach L (AllocSafe L) σ → e.Allocates → AllocStep L σ e σ' →
        (σ'.Inside L ↔ AllocSafe L σ e) := by
  refine ⟨fun σ h => ?_, fun σ e σ' h he hstep => ((allocReach_sound h).step hstep).1 he⟩
  obtain ⟨bs, cs, hbs, hcs, hlive, hlive'⟩ := allocReach_sound h
  exact ⟨hbs.inside hlive, hcs.inside hlive'⟩

/-- A refused request changes no byte of the region exactly if the region had its first header
before. -/
theorem refused_kept_iff (L : Layout) (hheader : AllocNode.size ≤ 4 * L.PAGE_SIZE) {fuel size : ℕ}
    {m m' : Memory} :
    (schedulerallocate L fuel m size = some (m', none) →
      ((schedulerRegion L).Kept m m' ↔ get m L.kernalEnd signature = valid)) ∧
    (shalloc L fuel m size = some (m', none) →
      ((sharedRegion L).Kept m m' ↔ get m (threadPagesCountEnd L) signature = valid)) := by
  constructor
  · exact regionAllocate_kept_iff (schedulerRegion_before L).2
  · exact regionAllocate_kept_iff (Nat.add_le_add_left hheader _)

/-! ## Runs that are computed -/

instance (r : Region) (live : List (ℕ × ℕ)) : Decidable (r.Inside live) :=
  inferInstanceAs (Decidable (∀ x ∈ live, _))

instance (x : ℕ × ℕ) (a : ℕ) : Decidable (InPayload x a) := inferInstanceAs (Decidable (_ ∧ _))

/-- One event, computed, if the tests say that it meets the condition: the new block is inside
its region, and the links near the first header are right. -/
def Allocations.exec (L : Layout) (fuel : ℕ) (σ : Allocations) : AllocEvent → Option Allocations
  | .schedulerallocate size =>
    (schedulerallocate L fuel σ.mem size).bind fun r => r.2.bind fun p =>
      if size < 2 ^ 31 ∧ (schedulerRegion L).Inside [(p, size)] then
        some ⟨r.1, (p, size) :: σ.scheduler, σ.shared⟩
      else none
  | .shalloc size =>
    (shalloc L fuel σ.mem size).bind fun r => r.2.bind fun p =>
      if size < 2 ^ 31 ∧ (sharedRegion L).Inside [(p, size)] then
        some ⟨r.1, σ.scheduler, (p, size) :: σ.shared⟩
      else none
  | .mydeallocate ptr =>
    if LinkedNear σ.mem L.kernalEnd (ptr - AllocNode.size) then
      (σ.scheduler.find? fun x => x.1 = ptr).bind fun x =>
        (mydeallocate L fuel σ.mem ptr).map fun m => ⟨m, σ.scheduler.erase x, σ.shared⟩
    else none
  | .write a v =>
    if ∃ x ∈ σ.scheduler ++ σ.shared, InPayload x a then
      some { σ with mem := Function.update σ.mem a v }
    else none

/-- A payload that is inside its region has had room. -/
theorem Region.Holds.roomFor (h : r.Holds m bs) (hsize : size < 2 ^ 31)
    (hrun : regionAllocate r fuel m size = some (m', some p)) (hinside : r.Inside [(p, size)]) :
    r.RoomFor m size :=
  (h.allocate_inside List.nil_subperm hsize hrun).1.mp hinside

/-- What is computed is an event that meets the condition. -/
theorem Allocations.Sound.exec_step (hσ : σ.Sound L) (h : σ.exec L fuel e = some σ') :
    AllocSafe L σ e ∧ AllocStep L σ e σ' := by
  obtain ⟨bs, cs, hbs, hcs, _⟩ := hσ
  cases e with
  | schedulerallocate size =>
    obtain ⟨⟨m, r⟩, hrun, h⟩ := Option.bind_eq_some_iff.mp h
    obtain ⟨p, rfl, h⟩ := Option.bind_eq_some_iff.mp h
    split at h
    · rename_i htest
      obtain rfl := Option.some.inj h
      exact ⟨hbs.roomFor htest.1 hrun htest.2, htest.1, fuel, p, hrun, rfl, rfl⟩
    · cases h
  | shalloc size =>
    obtain ⟨⟨m, r⟩, hrun, h⟩ := Option.bind_eq_some_iff.mp h
    obtain ⟨p, rfl, h⟩ := Option.bind_eq_some_iff.mp h
    split at h
    · rename_i htest
      obtain rfl := Option.some.inj h
      exact ⟨hcs.roomFor htest.1 hrun htest.2, htest.1, fuel, p, hrun, rfl, rfl⟩
    · cases h
  | mydeallocate ptr =>
    simp only [Allocations.exec] at h
    split at h
    · rename_i htest
      obtain ⟨⟨q, size⟩, hfind, h⟩ := Option.bind_eq_some_iff.mp h
      obtain ⟨m, hrun, rfl⟩ := Option.map_eq_some_iff.mp h
      obtain rfl : q = ptr := by simpa using List.find?_some hfind
      exact ⟨htest.followsExact, fuel, size, List.mem_of_find?_eq_some hfind, hrun, rfl, rfl⟩
    · cases h
  | write a v =>
    simp only [Allocations.exec] at h
    split at h
    · rename_i hlive
      exact ⟨trivial, hlive, (Option.some.inj h).symm⟩
    · cases h

/-- What is computed from a sequence of events is reached. -/
theorem allocReach_exec {ok : Allocations → AllocEvent → Prop} {es : List AllocEvent}
    (hok : ∀ e ∈ es, ∀ σ, AllocSafe L σ e → ok σ e) (hsound : σ.Sound L) (hσ : AllocReach L ok σ)
    (h : Runs.execAll (Allocations.exec L fuel) es σ = some σ') : AllocReach L ok σ' := by
  apply hσ.execAll_invariant (P := Allocations.Sound L) ?_ hsound h
  intro e he σ σ' hσ hexec
  obtain ⟨hsafe, hstep⟩ := hσ.exec_step hexec
  exact ⟨hok e he σ hsafe, hstep, (hσ.step hstep).2 hsafe⟩

/-! ## Runs on given inputs -/

/-- Before the first call all bytes are zero. -/
def freshAllocations : Allocations := ⟨fun _ => 0, [], []⟩

/-- The state in which nothing is allocated is reached by any kind of run. -/
theorem allocReach_fresh {ok : Allocations → AllocEvent → Prop} :
    AllocReach sampleLayout ok freshAllocations :=
  .start ⟨rfl, rfl, by decide, by decide⟩

/-- The bounds at a first request in each region. -/
theorem allocations_inside_firstBlocks : ∃ σ σ' : Allocations,
    σ.scheduler = [(77856, 100)] ∧ AllocStep sampleLayout σ (.shalloc 200) σ' ∧
      σ.Inside sampleLayout ∧ σ'.Inside sampleLayout := by
  have hrun : ((schedulerallocate sampleLayout 10 (fun _ => 0) 100).bind fun r =>
      (shalloc sampleLayout 10 r.1 200).map fun r' =>
        (r.2, get r.1 (sharedRegion sampleLayout).head signature, r'.2)) =
      some (some 77856, 0, some 7454752) := by
    decide +kernel
  obtain ⟨⟨m, r⟩, hfirst, hrun⟩ := Option.bind_eq_some_iff.mp hrun
  obtain ⟨⟨m', r'⟩, hsecond, heq⟩ := Option.map_eq_some_iff.mp hrun
  simp only [Prod.mk.injEq] at heq
  obtain ⟨rfl, hsignature, rfl⟩ := heq
  have hreach : AllocReach sampleLayout (AllocSafe sampleLayout) ⟨m, [(77856, 100)], []⟩ := by
    apply Runs.Reach.step allocReach_fresh (e := .schedulerallocate 100)
    · change Region.RoomFor _ _ _
      rw [Region.RoomFor, if_pos (by decide)]
      decide
    · exact ⟨by decide, 10, 77856, hfirst, rfl, rfl⟩
  have hok : AllocSafe sampleLayout ⟨m, [(77856, 100)], []⟩ (.shalloc 200) := by
    change Region.RoomFor _ _ _
    rw [Region.RoomFor, if_pos (by rw [hsignature]; decide)]
    decide
  have hstep : AllocStep sampleLayout ⟨m, [(77856, 100)], []⟩ (.shalloc 200)
      ⟨m', [(77856, 100)], [(7454752, 200)]⟩ := ⟨by decide, 10, 7454752, hsecond, rfl, rfl⟩
  obtain ⟨hinside, hexact⟩ := allocations_inside sampleLayout
  exact ⟨_, _, rfl, hstep, hinside _ hreach,
    (hexact _ (.shalloc 200) _ hreach trivial hstep).mpr hok⟩

/-- The first request for all bytes of the shared region but one succeeds. -/
theorem payload_behind_region : ∃ σ, AllocReach sampleLayout (fun _ _ => True) σ ∧
    σ.shared = [(7454752, 16383)] ∧ ¬ σ.Inside sampleLayout := by
  have hrun : (shalloc sampleLayout 10 (fun _ => 0) 16383).map Prod.snd = some (some 7454752) := by
    decide +kernel
  obtain ⟨⟨m, r⟩, hfirst, rfl⟩ := Option.map_eq_some_iff.mp hrun
  refine ⟨⟨m, [], [(7454752, 16383)]⟩, ?_, rfl, fun hinside => ?_⟩
  · exact .step allocReach_fresh (e := .shalloc 16383) trivial
      ⟨by decide, 10, 7454752, hfirst, rfl, rfl⟩
  · have hend := (hinside.2 (7454752, 16383) (by simp)).2
    exact absurd hend (by decide)

/-- The bytes after a refused request in a region with a first header. -/
theorem refused_kept_iff_secondRequest : ∃ m m',
    shalloc sampleLayout 10 m 20000 = some (m', none) ∧ (sharedRegion sampleLayout).Kept m m' := by
  have hrun : ((shalloc sampleLayout 10 (fun _ => 0) 100).bind fun r =>
      (shalloc sampleLayout 10 r.1 20000).map fun r' =>
        (get r.1 (threadPagesCountEnd sampleLayout) signature, r'.2)) = some (valid, none) := by
    decide +kernel
  obtain ⟨⟨m, r⟩, hfirst, hrun⟩ := Option.bind_eq_some_iff.mp hrun
  obtain ⟨⟨m', r'⟩, hsecond, heq⟩ := Option.map_eq_some_iff.mp hrun
  obtain ⟨hsignature, rfl⟩ := Prod.mk.inj heq
  exact ⟨m, m', hsecond, ((refused_kept_iff sampleLayout (by decide)).2 hsecond).mpr hsignature⟩

/-- The first request for all bytes of the shared region is refused, and leaves a marked
header. -/
theorem refused_marks_header : ∃ σ m', AllocReach sampleLayout (fun _ _ => True) σ ∧
    shalloc sampleLayout 10 σ.mem 16384 = some (m', none) ∧
      ¬ (sharedRegion sampleLayout).Kept σ.mem m' := by
  have hrun : (shalloc sampleLayout 10 (fun _ => 0) 16384).map Prod.snd = some none := by
    decide +kernel
  obtain ⟨⟨m', r⟩, hfirst, rfl⟩ := Option.map_eq_some_iff.mp hrun
  refine ⟨freshAllocations, m', allocReach_fresh, hfirst, fun hkept => ?_⟩
  have hsignature : get freshAllocations.mem (sharedRegion sampleLayout).head signature = valid :=
    (regionAllocate_kept_iff (by decide) hfirst).mp hkept
  exact absurd hsignature (by decide)

end SimpleOs.Kernal
