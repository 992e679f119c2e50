import SimpleOs.Heap.Charging

/-!
# Pages charged twice

Freeing a block gives no page back, and a first block that is made again is not charged.
A new last block is charged for the pages behind the one in which its payload begins, also
if the thread has paid for them before. The pages charged are compared here with the
furthest that the blocks of the thread have ever reached.
-/

namespace SimpleOs.Heap

open Bytes AllocNode

variable {L : Layout} {tid fuel size : ℕ} {bs : List Block} {h : Arena}

/-- The heap of a thread, and how far its blocks have reached. -/
structure Tracked where
  /-- The memory, and the pages left. -/
  heap : Arena
  /-- The largest offset from `schedulerEnd` that the end of a block has had. -/
  reached : ℕ

/-- One event. A block that is allocated ends where its payload ends. -/
def TrackStep (L : Layout) (tid : ℕ) (σ : Tracked) (e : ChargeEvent) (σ' : Tracked) : Prop :=
  match e with
  | .allocate size => size < L.regionSize ∧ ∃ fuel r,
      myallocate L tid fuel σ.heap size = some (σ'.heap, r) ∧
        σ'.reached = r.elim σ.reached fun p => max σ.reached (p + size - L.schedulerEnd)
  | e => ChargeStep L tid σ.heap e σ'.heap ∧ σ'.reached = σ.reached

/-- The pages charged are those that blocks have reached, and at most one more. -/
def ChargedOnce (L : Layout) (tid : ℕ) (σ : Tracked) : Prop :=
  pageCount L tid σ.heap.mem * L.PAGE_SIZE ≤ σ.reached + L.PAGE_SIZE

/-- The condition on an allocation that makes a new last block: the thread has been charged
for no more pages than the call leaves out. These are the pages up to the one in which the
payload begins, and those that blocks have reached behind the one in which it ends. -/
def ChargesAfresh (L : Layout) (tid : ℕ) (σ : Tracked) (size : ℕ) : Prop :=
  OnLast L σ.heap size fun payload =>
    pageCount L tid σ.heap.mem ≤ (payload - L.schedulerEnd) / L.PAGE_SIZE + 1 +
      (σ.reached / L.PAGE_SIZE - (payload + size - L.schedulerEnd) / L.PAGE_SIZE)

/-- The condition on an event. -/
def TrackSafe (L : Layout) (tid : ℕ) (σ : Tracked) : ChargeEvent → Prop
  | .allocate size => 0 < size → ChargesAfresh L tid σ size
  | e => ChargeSafe L tid σ.heap e

/-- The states reached by events that meet `ok`, from one in which the thread has no
pages and its first page reads as zero. -/
def TrackReach (L : Layout) (tid : ℕ) (ok : Tracked → ChargeEvent → Prop) : Tracked → Prop :=
  Runs.Reach (fun σ => σ.reached = 0 ∧ pageCount L tid σ.heap.mem = 0 ∧
    σ.heap.pagesLeft ≤ pagesAtStart ∧
    ∀ c, L.schedulerEnd ≤ c → c < L.schedulerEnd + L.PAGE_SIZE → σ.heap.mem c = 0)
    (TrackStep L tid) ok

/-! ## The invariant -/

/-- What holds after every event, whether or not pages are charged twice. -/
structure Tracked.Sound (L : Layout) (tid : ℕ) (σ : Tracked) (bs : List Block) : Prop where
  /-- The region holds the blocks. -/
  formed : Formed L σ.heap.mem bs
  /-- They are within what has been reached. -/
  reached : extent bs ≤ σ.reached
  /-- A thread with blocks has been charged before. -/
  charged : bs ≠ [] → pageCount L tid σ.heap.mem ≠ 0
  /-- The thread has not been charged for more than there is. -/
  total : pageCount L tid σ.heap.mem + σ.heap.pagesLeft ≤ pagesAtStart

variable {σ σ' : Tracked}

/-- All blocks are within what has been reached. -/
theorem Tracked.Sound.within (hs : σ.Sound L tid bs) {a : ℕ} (ha : HasBlock L σ.heap.mem a) :
    a + AllocNode.size + capacityOf σ.heap.mem a ≤ L.schedulerEnd + σ.reached := by
  obtain ⟨xs, b, ys, rfl, rfl, _, hcap⟩ := hs.formed.block ha
  have hreached := hs.reached
  rw [hcap]
  simp only [extent_append, extent_cons, Block.span] at hreached
  omega

/-- The condition in a region with blocks. -/
theorem Tracked.Sound.chargesAfresh_iff (hs : σ.Sound L tid bs) (hbs : bs ≠ []) :
    ChargesAfresh L tid σ size ↔
      (⟨size, false⟩ ∉ bs → L.schedulerEnd + extent bs + AllocNode.size + size < L.endOfPages →
        countPages L.PAGE_SIZE (L.PAGE_SIZE - (L.schedulerEnd + extent bs + AllocNode.size) %
          L.PAGE_SIZE) size (size + 1) 0 ≤ σ.heap.pagesLeft →
        pageCount L tid σ.heap.mem ≤ (extent bs + AllocNode.size) / L.PAGE_SIZE + 1 +
          (σ.reached / L.PAGE_SIZE - (extent bs + AllocNode.size + size) / L.PAGE_SIZE)) := by
  have hpayload : L.schedulerEnd + extent bs + AllocNode.size - L.schedulerEnd =
      extent bs + AllocNode.size := by omega
  have hend : L.schedulerEnd + extent bs + AllocNode.size + size - L.schedulerEnd =
      extent bs + AllocNode.size + size := by omega
  unfold ChargesAfresh
  rw [hs.formed.onLast_iff hbs, hpayload, hend]

/-! ## Allocation -/

/-- The pages charged for a payload are those that begin in it. -/
theorem lastPages_eq {PAGE_SIZE payload n : ℕ} (hpositive : 0 < PAGE_SIZE)
    (hfits : size < n * PAGE_SIZE + (PAGE_SIZE - payload % PAGE_SIZE))
    (hleast : n = 0 ∨ (n - 1) * PAGE_SIZE + (PAGE_SIZE - payload % PAGE_SIZE) ≤ size) :
    (payload + size) / PAGE_SIZE = payload / PAGE_SIZE + n := by
  have hmod : payload % PAGE_SIZE < PAGE_SIZE := Nat.mod_lt _ hpositive
  have hdiv : payload / PAGE_SIZE * PAGE_SIZE + payload % PAGE_SIZE = payload :=
    Nat.div_add_mod' payload PAGE_SIZE
  apply Nat.div_eq_of_lt_le
  · rw [Nat.add_mul]
    rcases hleast with rfl | hle
    · omega
    · rcases n with _ | k
      · omega
      · rw [Nat.add_sub_cancel] at hle
        rw [Nat.add_mul]
        omega
  · rw [Nat.add_mul, Nat.add_mul]
    omega

/-- The law behind a new last block, for the pages that begin in its payload. -/
theorem recharged_iff {PAGE_SIZE payload count n reached : ℕ} (hpositive : 0 < PAGE_SIZE)
    (hcharge : (payload + size) / PAGE_SIZE = payload / PAGE_SIZE + n) :
    (count + n) * PAGE_SIZE ≤ max reached (payload + size) + PAGE_SIZE ↔
      count ≤ payload / PAGE_SIZE + 1 +
        (reached / PAGE_SIZE - (payload + size) / PAGE_SIZE) := by
  have hmono : Monotone (· / PAGE_SIZE) := fun _ _ hle => Nat.div_le_div_right hle
  have hmax : max reached (payload + size) / PAGE_SIZE =
      max (reached / PAGE_SIZE) ((payload + size) / PAGE_SIZE) := hmono.map_max
  rw [← Nat.le_div_iff_mul_le hpositive, Nat.add_div_right _ hpositive, hmax, hcharge]
  omega

/-- A block that is allocated reaches as far as the blocks do then. -/
theorem Tracked.Sound.reached_eq {bs' : List Block} {p : ℕ} (hs : σ.Sound L tid bs)
    (hperm : (payloads L.schedulerEnd bs').Perm ((p, size) :: payloads L.schedulerEnd bs))
    (hend : extent bs' ≠ extent bs → p + size = L.schedulerEnd + extent bs') :
    max σ.reached (p + size - L.schedulerEnd) = max σ.reached (extent bs') := by
  have hbounds : p + size ≤ L.schedulerEnd + extent bs' :=
    (mem_payloads (hperm.mem_iff.mpr List.mem_cons_self)).2
  have hreached := hs.reached
  by_cases hsame : extent bs' = extent bs
  · omega
  · have := hend hsame
    omega

/-- A call that makes no block leaves the law as it is, and the condition says nothing. -/
theorem Tracked.Sound.allocate_null {h' : Arena} (hs : σ.Sound L tid bs)
    (hrun : myallocate L tid fuel σ.heap size = some (h', none)) :
    h' = σ.heap ∧ TrackSafe L tid σ (.allocate size) := by
  by_cases hzero : size = 0
  · rw [myallocate, if_pos hzero] at hrun
    exact ⟨(Prod.mk.inj (Option.some.inj hrun)).1.symm, fun hpos => absurd hzero (by omega)⟩
  obtain ⟨heq, hways⟩ := hs.formed.refused hs.charged (Nat.pos_of_ne_zero hzero) hrun
  refine ⟨heq, fun _ => ?_⟩
  rcases hways with ⟨hnil, _⟩ | ⟨hne, hfull⟩
  · exact hs.formed.onLast_nil hnil
  · apply (hs.chargesAfresh_iff hne).mpr
    exact fun _ hfits hleft => absurd hleft (hfull hfits)

/-- A call of `myallocate` keeps the invariant, and after it the law holds exactly if the
condition on the call does. -/
theorem Tracked.Sound.allocate (hs : σ.Sound L tid bs) (hlaw : ChargedOnce L tid σ)
    (hstep : TrackStep L tid σ (.allocate size) σ') :
    (∃ bs', σ'.Sound L tid bs') ∧
      (ChargedOnce L tid σ' ↔ TrackSafe L tid σ (.allocate size)) := by
  obtain ⟨hsize, fuel, r, hrun, hreached⟩ := hstep
  cases r with
  | none =>
    obtain ⟨heap, reached⟩ := σ'
    obtain ⟨rfl, hsafe⟩ := hs.allocate_null hrun
    obtain rfl := hreached
    exact ⟨⟨bs, hs⟩, iff_of_true hlaw hsafe⟩
  | some p =>
    have hpos := myallocate_pos hrun
    have hsafe : TrackSafe L tid σ (.allocate size) ↔ ChargesAfresh L tid σ size :=
      ⟨fun hh => hh hpos, fun hh _ => hh⟩
    obtain ⟨bs', hformed', hperm, _, hplaced, _, hend⟩ := hs.formed.allocate hsize hrun
    rw [Option.elim_some, hs.reached_eq hperm hend] at hreached
    unfold ChargedOnce at hlaw ⊢
    rw [hsafe, hreached]
    have hsound (hcharged : pageCount L tid σ'.heap.mem ≠ 0)
        (htotal : pageCount L tid σ'.heap.mem + σ'.heap.pagesLeft ≤ pagesAtStart) :
        ∃ bs', σ'.Sound L tid bs' :=
      ⟨bs', hformed', by omega, fun _ => hcharged, htotal⟩
    cases hplaced with
    | first h₁ hnil hextent hcharge hcount hpages =>
      rw [hcount, hpages] at hsound
      rw [hcount, hextent]
      by_cases hzero : pageCount L tid σ.heap.mem = 0
      · obtain ⟨hfits, hover, htotal⟩ := chargeFirst_total hzero hs.total hcharge
        refine ⟨hsound ?_ htotal, iff_of_true ?_ (hs.formed.onLast_nil hnil)⟩
        · intro hnone
          rw [hnone] at hfits
          omega
        · omega
      · obtain rfl := Option.some.inj ((chargeFirst_eq hzero).symm.trans hcharge)
        exact ⟨hsound hzero hs.total, iff_of_true (by omega) (hs.formed.onLast_nil hnil)⟩
    | reused h₁ hmem hextent hcharge hcount hpages =>
      have hne : bs ≠ [] := List.ne_nil_of_mem hmem
      obtain rfl := Option.some.inj ((chargeFirst_eq (hs.charged hne)).symm.trans hcharge)
      rw [hcount, hpages] at hsound
      rw [hcount, hs.chargesAfresh_iff hne]
      exact ⟨hsound (hs.charged hne) hs.total, iff_of_true (by omega)
        fun hnot => absurd hmem hnot⟩
    | last h₁ h₂ hne hnot hfits hextent hcharge hcharge₂ hcount hpages =>
      obtain rfl := Option.some.inj ((chargeFirst_eq (hs.charged hne)).symm.trans hcharge)
      obtain ⟨_, hpages₂, hleft⟩ := charge_counts hcharge₂
      obtain ⟨hcount₂, htotal⟩ := charge_total hs.total hcharge₂
      rw [hcount, hpages] at hsound
      rw [hcount, hs.chargesAfresh_iff hne, hextent]
      refine ⟨hsound ?_ htotal, ?_⟩
      · have := hs.charged hne
        omega
      · obtain ⟨hlt, hleast⟩ := lastPages_spec L.positive
          (L.schedulerEnd + extent bs + AllocNode.size) size
        have hoffset : (L.schedulerEnd + extent bs + AllocNode.size) % L.PAGE_SIZE =
            (extent bs + AllocNode.size) % L.PAGE_SIZE := by
          obtain ⟨k, hk⟩ := L.schedulerEnd_aligned
          rw [hk, Nat.add_assoc, Nat.mul_add_mod]
        rw [hoffset] at hlt hleast hcount₂ hpages₂ ⊢
        rw [hcount₂, recharged_iff L.positive (lastPages_eq L.positive hlt hleast)]
        constructor
        · exact fun hafresh _ _ _ => hafresh
        · exact fun hafresh => hafresh hnot hfits (by omega)

/-! ## Runs -/

/-- An event that meets the condition keeps the state sound, and no page is charged twice. -/
theorem Tracked.Sound.step {e : ChargeEvent} (hs : σ.Sound L tid bs)
    (hlaw : ChargedOnce L tid σ) (hok : TrackSafe L tid σ e)
    (hstep : TrackStep L tid σ e σ') : (∃ bs', σ'.Sound L tid bs') ∧ ChargedOnce L tid σ' := by
  cases e with
  | allocate size =>
    obtain ⟨hsound, hcharged⟩ := hs.allocate hlaw hstep
    exact ⟨hsound, hcharged.mpr hok⟩
  | free ptr =>
    obtain ⟨⟨fuel, hrun⟩, hreached⟩ := hstep
    obtain ⟨bs', hformed, hextent, hpages, htouch, hnil⟩ := hs.formed.free hok hrun
    have hcount : pageCount L tid σ'.heap.mem = pageCount L tid σ.heap.mem :=
      pageCount_touches htouch fun _ hy => hs.formed.fits.header_le hy
    unfold ChargedOnce
    rw [hcount, hreached]
    refine ⟨⟨bs', hformed, ?_, fun hbs' => ?_, ?_⟩, hlaw⟩
    · rw [hreached]
      exact hextent.trans hs.reached
    · rw [hcount]
      exact hs.charged fun hbs => hbs' (hnil hbs)
    · rw [hcount, hpages]
      exact hs.total
  | write a v =>
    obtain ⟨heap, reached⟩ := σ'
    obtain ⟨⟨⟨node, hblock, hused, ha⟩, rfl⟩, rfl⟩ := hstep
    obtain ⟨hformed, hcount⟩ := hs.formed.write_used (v := v) hblock hused ha hok
    unfold ChargedOnce
    rw [hcount]
    refine ⟨⟨bs, hformed, hs.reached, fun hbs => ?_, ?_⟩, hlaw⟩
    · rw [hcount]
      exact hs.charged hbs
    · rw [hcount]
      exact hs.total
  | others pagesLeft =>
    obtain ⟨heap, reached⟩ := σ'
    obtain ⟨⟨htotal, rfl⟩, rfl⟩ := hstep
    refine ⟨⟨bs, hs.formed, hs.reached, hs.charged, ?_⟩, hlaw⟩
    change (pageCount L tid σ.heap.mem : ℤ) + (pagesLeft : ℤ) ≤ pagesAtStart
    exact_mod_cast htotal

/-- Every state that such a run reaches is sound, and no page is charged twice in it. -/
theorem trackReach_sound (hpage : AllocNode.size ≤ L.PAGE_SIZE)
    (h : TrackReach L tid (TrackSafe L tid) σ) :
    (∃ bs, σ.Sound L tid bs) ∧ ChargedOnce L tid σ := by
  refine Runs.Reach.invariant (P := fun σ => (∃ bs, σ.Sound L tid bs) ∧ ChargedOnce L tid σ) ?_
    (fun _ _ _ ⟨⟨_, hs⟩, hlaw⟩ hok hstep => hs.step hlaw hok hstep) h
  rintro σ ⟨hreached, hcount, hleft, hzero⟩
  refine ⟨⟨[], formed_nil (signature_of_zero hzero hpage), ?_, fun hnil => absurd rfl hnil, ?_⟩, ?_⟩
  · exact Nat.zero_le _
  · rw [hcount]
    simpa using hleft
  · unfold ChargedOnce
    rw [hcount]
    omega

/-- In every run whose events meet the condition, the pages charged are those that blocks have
reached and at most one more, and no block is behind what has been reached. For a call of
`myallocate` after such a run the condition is exact. -/
theorem pages_charged_once (L : Layout) (tid : ℕ) (hpage : AllocNode.size ≤ L.PAGE_SIZE) :
    (∀ σ, TrackReach L tid (TrackSafe L tid) σ → ChargedOnce L tid σ ∧
      ∀ a, HasBlock L σ.heap.mem a →
        a + AllocNode.size + capacityOf σ.heap.mem a ≤ L.schedulerEnd + σ.reached) ∧
      ∀ σ size σ', TrackReach L tid (TrackSafe L tid) σ →
        TrackStep L tid σ (.allocate size) σ' →
          (ChargedOnce L tid σ' ↔ TrackSafe L tid σ (.allocate size)) := by
  constructor
  · intro σ hσ
    obtain ⟨⟨bs, hs⟩, hlaw⟩ := trackReach_sound hpage hσ
    exact ⟨hlaw, fun a ha => hs.within ha⟩
  · intro σ size σ' hσ hstep
    obtain ⟨⟨bs, hs⟩, hlaw⟩ := trackReach_sound hpage hσ
    exact (hs.allocate hlaw hstep).2

/-! ## Runs on given inputs -/

/-- Before its first call no block of a thread has reached anything. -/
theorem trackReach_fresh {ok : Tracked → ChargeEvent → Prop} :
    TrackReach sampleLayout 1 ok ⟨freshState.heap, 0⟩ :=
  .start ⟨rfl, by decide +kernel, by decide, fun _ _ _ => rfl⟩

/-- A call that makes a block is an event. -/
theorem trackStep_allocate {h h' : Arena} {E E' p : ℕ} (hsize : size < L.regionSize)
    (hrun : myallocate L tid fuel h size = some (h', some p))
    (hreached : max E (p + size - L.schedulerEnd) = E') :
    TrackStep L tid ⟨h, E⟩ (.allocate size) ⟨h', E'⟩ :=
  ⟨hsize, fuel, some p, hrun, hreached.symm⟩

/-- The theorem at two calls of `myallocate`. -/
theorem pages_charged_once_twoBlocks : ∃ σ σ',
    TrackReach sampleLayout 1 (TrackSafe sampleLayout 1) σ ∧
      TrackStep sampleLayout 1 σ (.allocate 5000) σ' ∧ σ'.reached = 5164 ∧
      ChargedOnce sampleLayout 1 σ ∧
      (ChargedOnce sampleLayout 1 σ' ↔ TrackSafe sampleLayout 1 σ (.allocate 5000)) := by
  have hrun : ((myallocate sampleLayout 1 10 freshState.heap 100).bind fun r =>
      (myallocate sampleLayout 1 10 r.1 5000).map fun r' => (r.2, r'.2)) =
      some (some 897056, some 897188) := by
    decide +kernel
  obtain ⟨⟨h, r⟩, hfirst, hrun⟩ := Option.bind_eq_some_iff.mp hrun
  obtain ⟨⟨h', r'⟩, hsecond, heq⟩ := Option.map_eq_some_iff.mp hrun
  obtain ⟨rfl, rfl⟩ := Prod.mk.inj heq
  have hreach : TrackReach sampleLayout 1 (TrackSafe sampleLayout 1) ⟨h, 132⟩ := by
    apply Runs.Reach.step trackReach_fresh (e := .allocate 100)
    · exact fun _ => Or.inr fun _ hblock => absurd hblock.1 (by decide +kernel)
    · exact trackStep_allocate (by decide) hfirst (by decide)
  have hstep : TrackStep sampleLayout 1 ⟨h, 132⟩ (.allocate 5000) ⟨h', 5164⟩ :=
    trackStep_allocate (by decide) hsecond (by decide)
  obtain ⟨hcharged, hexact⟩ := pages_charged_once sampleLayout 1 (by decide)
  exact ⟨_, _, hreach, hstep, rfl, (hcharged _ hreach).1, hexact _ _ _ hreach hstep⟩

/-- The event is a call of `myallocate`, or one of `mydeallocate` on a block in use that
follows right links. -/
def OnlyLive (L : Layout) (σ : Tracked) : ChargeEvent → Prop
  | .allocate _ => True
  | .free ptr => HasBlock L σ.heap.mem (ptr - AllocNode.size) ∧
      get σ.heap.mem (ptr - AllocNode.size) inUse ≠ 0 ∧
        FollowsExact σ.heap.mem L.schedulerEnd (ptr - AllocNode.size)
  | _ => False

/-- Behind a block of 100 bytes one of 5000 is allocated, freed and allocated again. The
blocks have reached two pages, and the thread has been charged for three. -/
theorem page_charged_twice :
    ∃ σ, TrackReach sampleLayout 1 (OnlyLive sampleLayout) σ ∧ ¬ ChargedOnce sampleLayout 1 σ := by
  have hrun : ((myallocate sampleLayout 1 10 freshState.heap 100).bind fun r₁ =>
      (myallocate sampleLayout 1 10 r₁.1 5000).bind fun r₂ =>
        (mydeallocate sampleLayout 10 r₂.1 897188).bind fun h =>
          (myallocate sampleLayout 1 10 h 5000).map fun r₃ =>
            ((r₁.2, r₂.2, r₃.2), (get r₂.1.mem sampleLayout.schedulerEnd signature,
              get r₂.1.mem sampleLayout.schedulerEnd next,
              get r₂.1.mem sampleLayout.schedulerEnd inUse),
              (get r₂.1.mem 897156 prev, get r₂.1.mem 897156 inUse),
              pageCount sampleLayout 1 r₃.1.mem)) =
      some ((some 897056, some 897188, some 897188), (valid, 897156, 1),
        (sampleLayout.schedulerEnd, 1), 3) := by
    decide +kernel
  obtain ⟨⟨h₁, r₁⟩, hfirst, hrun⟩ := Option.bind_eq_some_iff.mp hrun
  obtain ⟨⟨h₂, r₂⟩, hsecond, hrun⟩ := Option.bind_eq_some_iff.mp hrun
  obtain ⟨h₃, hfree, hrun⟩ := Option.bind_eq_some_iff.mp hrun
  obtain ⟨⟨h₄, r₄⟩, hagain, heq⟩ := Option.map_eq_some_iff.mp hrun
  simp only [Prod.mk.injEq] at heq
  obtain ⟨⟨rfl, rfl, rfl⟩, ⟨hsignature, hnext, huse⟩, ⟨hprev, huse'⟩, hcount⟩ := heq
  have hlive : OnlyLive sampleLayout ⟨h₂, 5164⟩ (.free 897188) := by
    have hlisted : Listed h₂.mem sampleLayout.schedulerEnd 897156 := by
      have hbehind := Listed.next (m := h₂.mem) .head (by rw [hnext]; decide)
      rwa [hnext] at hbehind
    have hback : BackExact h₂.mem sampleLayout.schedulerEnd 897156 := by
      rw [BackExact, if_neg (by decide), hprev]
      exact ⟨.head, hnext⟩
    have hused : get h₂.mem 897156 inUse ≠ 0 := by
      rw [huse']
      decide
    refine ⟨⟨hsignature, hlisted⟩, hused, hback, fun _ hfree => ?_⟩
    have hbefore : get h₂.mem (get h₂.mem 897156 prev) inUse = 0 := hfree
    rw [hprev, huse] at hbefore
    exfalso
    exact absurd hbefore (by decide)
  have hreach : TrackReach sampleLayout 1 (OnlyLive sampleLayout) ⟨h₁, 132⟩ :=
    .step trackReach_fresh (e := .allocate 100) trivial
      (trackStep_allocate (by decide) hfirst (by decide))
  have hreach : TrackReach sampleLayout 1 (OnlyLive sampleLayout) ⟨h₂, 5164⟩ :=
    .step hreach (e := .allocate 5000) trivial
      (trackStep_allocate (by decide) hsecond (by decide))
  have hreach : TrackReach sampleLayout 1 (OnlyLive sampleLayout) ⟨h₃, 5164⟩ :=
    .step hreach hlive ⟨⟨10, hfree⟩, rfl⟩
  have hreach : TrackReach sampleLayout 1 (OnlyLive sampleLayout) ⟨h₄, 5164⟩ :=
    .step hreach (e := .allocate 5000) trivial
      (trackStep_allocate (by decide) hagain (by decide))
  refine ⟨⟨h₄, 5164⟩, hreach, fun hcharged => ?_⟩
  have hover : pageCount sampleLayout 1 h₄.mem * 4096 ≤ 5164 + 4096 := hcharged
  rw [hcount] at hover
  exact absurd hover (by decide)

end SimpleOs.Heap
