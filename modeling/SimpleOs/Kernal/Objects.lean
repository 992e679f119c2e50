import SimpleOs.Kernal.Bounds
import SimpleOs.Library.ObjectStore

/-!
# The blocks of the library as objects

Thread control blocks, queue nodes and what is shared are objects of their own for the
code that allocates them. The two regions show such a store of objects in every run in
which new blocks are within their regions and frees follow right links.
-/

namespace SimpleOs.Kernal

open Bytes Heap ObjectStore Runs

variable {L : Layout} {r : Region} {m m' : Memory} {σ σ' : Allocations} {e : AllocEvent}
  {o : Objects UInt8} {bs cs : List Block} {p k size fuel : ℕ} {x y : ℕ × ℕ}

/-- The live payloads of both regions. -/
def Allocations.live (σ : Allocations) : List (ℕ × ℕ) := σ.scheduler ++ σ.shared

/-- The memory holds the objects in the live payloads. -/
def Allocations.Shows (σ : Allocations) (o : Objects UInt8) : Prop :=
  ObjectStore.Shows σ.mem {x | x ∈ σ.live} o

/-- What an event does to the objects. -/
def ObjectStep (o : Objects UInt8) (e : AllocEvent) (o' : Objects UInt8) : Prop :=
  match e with
  | .schedulerallocate size | .shalloc size => ∃ p, o.Allocates p size o'
  | .mydeallocate ptr => o.Frees ptr o'
  | .write a v => ∃ p i, a = p + i ∧ o.Writes p i v o'

/-! ## Separate blocks -/

/-- Payloads that are apart have different addresses. -/
theorem ne_of_apart (h : Apart x y) : x.1 ≠ y.1 := by
  unfold Apart AllocNode.size at h
  omega

/-- Two payloads of a region are the same or apart. -/
theorem payloads_eq_or_apart {a : ℕ} (hx : x ∈ payloads a bs) (hy : y ∈ payloads a bs) :
    x = y ∨ Apart x y := by
  have hsymm : Std.Symm Apart := ⟨fun _ _ h => h.symm⟩
  by_cases hxy : x = y
  · exact Or.inl hxy
  · exact Or.inr (payloads_apart.forall hx hy hxy)

/-- A payload of the scheduler and a shared one are apart. -/
theorem payloads_across (hfits : (schedulerRegion L).head + extent bs ≤
      (schedulerRegion L).regionEnd) (hx : x ∈ payloads (schedulerRegion L).head bs)
    (hy : y ∈ payloads (sharedRegion L).head cs) : Apart x y := by
  obtain ⟨hbefore, _⟩ := schedulerRegion_before L
  have hx := mem_payloads (p := x.1) (k := x.2) hx
  have hy := mem_payloads (p := y.1) (k := y.2) hy
  unfold Apart
  omega

/-- The payloads in use have different addresses and no byte in common. -/
theorem Allocations.Sound.separate (h : σ.Sound L) : Separate {x | x ∈ σ.live} := by
  obtain ⟨bs, cs, hbs, _, hlive, hlive'⟩ := h
  have hall : ∀ x ∈ σ.live, ∀ y ∈ σ.live, x = y ∨ Apart x y := by
    intro x hx y hy
    rcases List.mem_append.mp hx with hx | hx <;> rcases List.mem_append.mp hy with hy | hy
    · exact payloads_eq_or_apart (hlive.subset hx) (hlive.subset hy)
    · exact Or.inr (payloads_across hbs.fits (hlive.subset hx) (hlive'.subset hy))
    · exact Or.inr (payloads_across hbs.fits (hlive.subset hy) (hlive'.subset hx)).symm
    · exact payloads_eq_or_apart (hlive'.subset hx) (hlive'.subset hy)
  constructor
  · intro x hx y hy hname
    exact (hall x hx y hy).resolve_right fun hxy => ne_of_apart hxy hname
  · intro x hx y hy hne i hi j hj
    have hxy := (hall x hx y hy).resolve_left hne
    unfold Apart at hxy
    omega

/-- No live block is listed twice. -/
theorem Allocations.Sound.nodup (h : σ.Sound L) : σ.live.Nodup := by
  obtain ⟨bs, cs, hbs, _, hlive, hlive'⟩ := h
  have hnodup {live : List (ℕ × ℕ)} {a : ℕ} {bs : List Block}
      (h : List.Subperm live (payloads a bs)) : live.Nodup := by
    obtain ⟨l, hperm, hsub⟩ := h
    refine hperm.nodup_iff.mp (hsub.nodup (payloads_apart.imp ?_))
    rintro x y hxy rfl
    exact ne_of_apart hxy rfl
  refine List.nodup_append'.mpr ⟨hnodup hlive, hnodup hlive', fun x hx hx' => ?_⟩
  exact ne_of_apart (payloads_across hbs.fits (hlive.subset hx) (hlive'.subset hx')) rfl

/-! ## Bytes that are kept -/

/-- Headers that are apart from a payload leave its bytes alone. -/
theorem payload_kept {nodes : List ℕ} {i : ℕ} (h : Touches m m' nodes)
    (hapart : ∀ y ∈ nodes, y + AllocNode.size ≤ x.1 ∨ x.1 + x.2 ≤ y) (hi : i < x.2) :
    m' (x.1 + i) = m (x.1 + i) := by
  apply h
  intro y hy
  have := hapart y hy
  omega

/-- Changes of headers in one of the regions leave all payloads alone. -/
theorem keeps_of_touches {live live' : List (ℕ × ℕ)}
    (htouch : Touches m m' (starts (schedulerRegion L).head bs) ∨
      Touches m m' (starts (sharedRegion L).head cs))
    (hfits : (schedulerRegion L).head + extent bs ≤ (schedulerRegion L).regionEnd)
    (hlive : ∀ x ∈ live, x ∈ payloads (schedulerRegion L).head bs)
    (hlive' : ∀ x ∈ live', x ∈ payloads (sharedRegion L).head cs) :
    Keeps m m' {x | x ∈ live ++ live'} := by
  obtain ⟨hbefore, _⟩ := schedulerRegion_before L
  intro x hx i hi
  rcases List.mem_append.mp hx with hx | hx <;> rcases htouch with htouch | htouch
  · exact payload_kept htouch (fun y hy => payload_apart (hlive x hx) hy) hi
  · have hx := mem_payloads (p := x.1) (k := x.2) (hlive x hx)
    refine payload_kept htouch (fun y hy => Or.inr ?_) hi
    have hy := mem_starts hy
    omega
  · have hx := mem_payloads (p := x.1) (k := x.2) (hlive' x hx)
    refine payload_kept htouch (fun y hy => Or.inl ?_) hi
    have hy := mem_starts hy
    omega
  · exact payload_kept htouch (fun y hy => payload_apart (hlive' x hx) hy) hi

/-! ## One event -/

/-- A new payload is a new object, if the bytes of the others are kept. -/
theorem Allocations.Sound.allocate (h : σ'.Sound L) (hshows : σ.Shows o)
    (hperm : σ'.live.Perm ((p, size) :: σ.live))
    (hkeeps : Keeps σ.mem σ'.mem {x | x ∈ σ.live}) :
    ∃ o', o.Allocates p size o' ∧ σ'.Shows o' := by
  have hnodup := hperm.nodup_iff.mp h.nodup
  have hnew (k : ℕ) : (p, k) ∉ σ.live := by
    intro hk
    have hin : (p, k) ∈ σ'.live := hperm.mem_iff.mpr (List.mem_cons_of_mem _ hk)
    have hhead : (p, size) ∈ σ'.live := hperm.mem_iff.mpr List.mem_cons_self
    have hsame := h.separate.named _ hin _ hhead rfl
    exact (List.nodup_cons.mp hnodup).1 (hsame ▸ hk)
  obtain ⟨o', hallocates, hshows'⟩ := ObjectStore.Shows.allocate hshows hnew hkeeps
  refine ⟨o', hallocates, ?_⟩
  have hlive : {x | x ∈ σ'.live} = insert (p, size) {x | x ∈ σ.live} := by
    ext x
    exact hperm.mem_iff.trans List.mem_cons
  rwa [Allocations.Shows, hlive]

/-- The objects follow every event that meets the condition. -/
theorem Allocations.Sound.shows (h : σ.Sound L) (hshows : σ.Shows o) (hok : AllocSafe L σ e)
    (hstep : AllocStep L σ e σ') : ∃ o', ObjectStep o e o' ∧ σ'.Shows o' := by
  have hsound := (h.step hstep).2 hok
  have hseparate := h.separate
  have hnodup := h.nodup
  obtain ⟨bs, cs, hbs, hcs, hlive, hlive'⟩ := h
  cases e with
  | schedulerallocate size =>
    obtain ⟨hsize, fuel, p, hrun, hscheduler, hshared⟩ := hstep
    obtain ⟨bs', hbs', hnew, htouch⟩ := (hbs.allocate_inside hlive hsize hrun).2 hok
    have hperm : σ'.live.Perm ((p, size) :: σ.live) := by
      rw [Allocations.live, hscheduler, hshared]
      exact List.Perm.refl _
    obtain ⟨o', hallocates, hshows'⟩ := hsound.allocate hshows hperm
      (keeps_of_touches (Or.inl htouch) hbs'.fits
        (fun x hx => hnew.subset (List.mem_cons_of_mem _ hx)) fun x hx => hlive'.subset hx)
    exact ⟨o', ⟨p, hallocates⟩, hshows'⟩
  | shalloc size =>
    obtain ⟨hsize, fuel, p, hrun, hshared, hscheduler⟩ := hstep
    obtain ⟨cs', hcs', hnew, htouch⟩ := (hcs.allocate_inside hlive' hsize hrun).2 hok
    have hperm : σ'.live.Perm ((p, size) :: σ.live) := by
      rw [Allocations.live, hscheduler, hshared]
      exact List.perm_middle
    obtain ⟨o', hallocates, hshows'⟩ := hsound.allocate hshows hperm
      (keeps_of_touches (Or.inr htouch) hbs.fits (fun x hx => hlive.subset hx)
        fun x hx => hnew.subset (List.mem_cons_of_mem _ hx))
    exact ⟨o', ⟨p, hallocates⟩, hshows'⟩
  | mydeallocate ptr =>
    obtain ⟨fuel, size, hp, hrun, hscheduler, hshared⟩ := hstep
    have hkeeps : Keeps σ.mem σ'.mem {x | x ∈ σ.live} := by
      unfold mydeallocate at hrun
      split at hrun
      · rw [Option.some.inj hrun]
        exact fun _ _ _ _ => rfl
      · obtain ⟨_, _, _, htouch⟩ := hbs.deallocate (hlive.subset hp) hok hrun
        exact keeps_of_touches (Or.inl htouch) hbs.fits (fun x hx => hlive.subset hx)
          fun x hx => hlive'.subset hx
    have hmem : (ptr, size) ∈ σ.live := List.mem_append_left _ hp
    have hrest : {x | x ∈ σ'.live} = {x | x ∈ σ.live} \ {(ptr, size)} := by
      ext x
      rw [Set.mem_ofPred_eq, Allocations.live, hscheduler, hshared, ← List.erase_append_left _ hp]
      exact hnodup.mem_erase_iff.trans and_comm
    unfold Allocations.Shows
    rw [hrest]
    exact ObjectStore.Shows.free hshows hmem fun x hx => hkeeps x hx.1
  | write a v =>
    obtain ⟨⟨x, hx, hin⟩, rfl⟩ := hstep
    unfold InPayload at hin
    obtain ⟨i, rfl⟩ := Nat.exists_eq_add_of_le hin.1
    obtain ⟨o', hwrites, hshows'⟩ :=
      ObjectStore.Shows.write (v := v) hshows hseparate hx (show i < x.2 by omega)
    exact ⟨o', ⟨x.1, i, rfl, hwrites⟩, hshows'⟩

/-! ## Every run -/

/-- An event that meets the condition. -/
def SafeStep (L : Layout) (σ : Allocations) (e : AllocEvent) (σ' : Allocations) : Prop :=
  AllocSafe L σ e ∧ AllocStep L σ e σ'

/-- In every run of allocations, frees and writes to live blocks of both regions in which new
blocks are within their regions and frees follow right links, the live blocks are objects:
the memory shows a store of objects with their sizes, and from then on each event is what it
should be for objects, a new one, one less, or a write that changes no other. -/
theorem blocks_are_objects (L : Layout) (σ σ' : Allocations)
    (l : List (Turn Allocations AllocEvent)) (hreach : AllocReach L (AllocSafe L) σ)
    (hrun : Path (SafeStep L) σ l σ') :
    (∃ o, σ.Shows o) ∧ ∀ o, σ.Shows o →
      ∃ (l' : List (Turn (Objects UInt8) AllocEvent)) (o' : Objects UInt8),
        Path ObjectStep o l' o' ∧ l'.map Turn.event = l.map Turn.event ∧ σ'.Shows o' := by
  have hsound := allocReach_sound hreach
  refine ⟨hsound.separate.exists_shows σ.mem, fun o hshows => ?_⟩
  have hfollows : ∀ (σ : Allocations) (e : AllocEvent) (σ' : Allocations) (o : Objects UInt8),
      (σ.Sound L ∧ σ.Shows o) → SafeStep L σ e σ' →
        ∃ o', ObjectStep o e o' ∧ σ'.Sound L ∧ σ'.Shows o' := by
    rintro σ e σ' o ⟨hsound, hshows⟩ ⟨hok, hstep⟩
    obtain ⟨o', hobject, hshows'⟩ := hsound.shows hshows hok hstep
    exact ⟨o', hobject, (hsound.step hstep).2 hok, hshows'⟩
  obtain ⟨l', o', hpath, hevents, _, hshows'⟩ := hrun.simulates hfollows ⟨hsound, hshows⟩
  exact ⟨l', o', hpath, hevents, hshows'⟩

/-- Three blocks of the scheduler and a shared one. A byte of the first is written, the second
is freed, and the next request of its size gets its place. -/
def placeReused : List AllocEvent :=
  [.schedulerallocate 100, .schedulerallocate 50, .schedulerallocate 30, .shalloc 200,
    .write 77859 7, .mydeallocate 77988, .schedulerallocate 50]

/-- The objects follow: the second one goes, and a new one with its name comes. -/
theorem blocks_are_objects_placeReused : ∃ (σ' : Allocations)
    (l' : List (Turn (Objects UInt8) AllocEvent)) (o' : Objects UInt8),
      σ'.scheduler = [(77988, 50), (78070, 30), (77856, 100)] ∧ σ'.shared = [(7454752, 200)] ∧
        Path ObjectStep ⟨fun _ => none, fun _ _ => 0⟩ l' o' ∧
        l'.map Turn.event = placeReused ∧ σ'.Shows o' := by
  have hrun : (execAll (Allocations.exec sampleLayout 10) placeReused freshAllocations).map
      (fun σ => (σ.scheduler, σ.shared)) =
      some ([(77988, 50), (78070, 30), (77856, 100)], [(7454752, 200)]) := by
    decide +kernel
  obtain ⟨σ', hexec, heq⟩ := Option.map_eq_some_iff.mp hrun
  obtain ⟨hscheduler, hshared⟩ := Prod.mk.inj heq
  have hfresh : AllocReach sampleLayout (AllocSafe sampleLayout) freshAllocations :=
    allocReach_fresh
  have hfollows : ∀ (σ : Allocations) (e : AllocEvent) (σ' : Allocations), σ.Sound sampleLayout →
      σ.exec sampleLayout 10 e = some σ' →
        SafeStep sampleLayout σ e σ' ∧ σ'.Sound sampleLayout := by
    intro σ e σ' hσ hexec
    obtain ⟨hsafe, hstep⟩ := hσ.exec_step hexec
    exact ⟨⟨hsafe, hstep⟩, (hσ.step hstep).2 hsafe⟩
  obtain ⟨l, hpath, hl⟩ := Path.of_execAll hfollows (allocReach_sound hfresh) hexec
  have hnone : freshAllocations.Shows ⟨fun _ => none, fun _ _ => 0⟩ :=
    ⟨fun p k => by simp [Allocations.live, freshAllocations], fun x hx => absurd hx (by
      simp [Allocations.live, freshAllocations])⟩
  obtain ⟨l', o', hpath', hevents, hshows⟩ :=
    (blocks_are_objects sampleLayout _ _ l hfresh hpath).2 _ hnone
  exact ⟨σ', l', o', hscheduler, hshared, hpath', hevents.trans hl, hshows⟩

end SimpleOs.Kernal
