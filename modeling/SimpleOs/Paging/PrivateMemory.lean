import Mathlib.Data.Set.Card
import SimpleOs.Paging.Integrity

/-!
# Each thread has a memory of its own

The purpose of the manager is that a thread sees a memory that only it writes,
whatever frames and pages of the swap file hold it. `Memories` is that picture.
The manager follows it over every run in which the pages that leave a frame
return there, the switches reach every open frame, and an exit finds all pages
of the thread.
-/

namespace SimpleOs.Paging

variable {Page : Type*}

/-- The private memories of all threads. -/
structure Memories (Page : Type*) where
  /-- The id of the running thread. -/
  running : ℕ
  /-- What each thread's pages hold, for the pages it has touched. -/
  pages : ℕ → ℕ → Option Page
  /-- The pages of the running thread that it accesses without a fault. -/
  accessible : Set ℕ

/-- The memories when page `p` of the running thread holds `c`. -/
def Memories.store (m : Memories Page) (p : ℕ) (c : Page) : Memories Page :=
  { m with pages := fun t q => if t = m.running ∧ q = p then some c else m.pages t q }

/-- The memories after a thread has left: only its own pages go. -/
def Memories.clear (m : Memories Page) (t : ℕ) : Memories Page :=
  { m with pages := fun u q => if u = t then none else m.pages u q }

/-- The threads have as many pages between them as there are places. -/
def Memories.Full (m : Memories Page) : Prop :=
  {page : ℕ × ℕ | m.pages page.1 page.2 ≠ none}.ncard = frameCount + slotCount

/-- A fault in page `p`, which is not accessible, makes it so. Other pages may become
inaccessible, as they may have to make room. -/
def Memories.Opens (m : Memories Page) (p : ℕ) (accessible : Set ℕ) : Prop :=
  p ∉ m.accessible ∧ p ∈ accessible ∧ accessible ⊆ insert p m.accessible

/-- What the threads should see. An access of an accessible page is carried out. One of
another page faults and is repeated; the fault makes the page accessible, and no contents
change but those of a new page, which are not specified. Only when all places are taken is
there no page for a thread that wants a new one. -/
inductive Memories.Step : Memories Page → AccessEvent Page → Memories Page → Prop
  /-- Charging pages changes no memory. -/
  | charge {m : Memories Page} {pages : ℤ} : Step m (.charge pages) m
  /-- The first access of a page faults. -/
  | touch {m : Memories Page} {p offset : ℕ} {write : Page → Page} {c : Page}
      {accessible : Set ℕ} : m.pages m.running p = none → m.Opens p accessible →
      Step m (.access p offset write) { m.store p c with accessible := accessible }
  /-- An access of a page that the thread has, but that is not accessible, faults. -/
  | fault {m : Memories Page} {p offset : ℕ} {write : Page → Page} {c : Page}
      {accessible : Set ℕ} : m.pages m.running p = some c → m.Opens p accessible →
      Step m (.access p offset write) { m with accessible := accessible }
  /-- There is no place for a new page. -/
  | full {m : Memories Page} {p offset : ℕ} {write : Page → Page} :
      m.pages m.running p = none → p ∉ m.accessible → m.Full → Step m (.access p offset write) m
  /-- A write to an accessible page. -/
  | write {m : Memories Page} {p offset : ℕ} {write : Page → Page} {c : Page} :
      m.pages m.running p = some c → p ∈ m.accessible →
      Step m (.access p offset write) (m.store p (write c))
  /-- Another thread runs, for which no page is accessible yet. -/
  | switch {m : Memories Page} {t : ℕ} :
      Step m (.contextSwitch t false) { m with running := t, accessible := ∅ }
  /-- The running thread exits, which clears its own pages and no others. -/
  | exit {m : Memories Page} {t : ℕ} :
      Step m (.contextSwitch t true) { m.clear m.running with running := t, accessible := ∅ }

/-- No write is lost: an access of an accessible page writes it. -/
theorem Memories.Step.eq_store {m m' : Memories Page} {p offset : ℕ} {write : Page → Page}
    (h : m.Step (.access p offset write) m') (hp : p ∈ m.accessible) :
    ∃ c, m.pages m.running p = some c ∧ m' = m.store p (write c) := by
  cases h with
  | touch _ hopens => exact absurd hp hopens.1
  | fault _ hopens => exact absurd hp hopens.1
  | full _ hclosed _ => exact absurd hp hclosed
  | write hpage _ => exact ⟨_, hpage, rfl⟩

/-- An access faults at most once: the repeated access of a page that the thread has finds
it accessible, with the contents it had. -/
theorem Memories.Step.opens {m m' : Memories Page} {p offset : ℕ} {write : Page → Page} {c : Page}
    (h : m.Step (.access p offset write) m') (hp : p ∉ m.accessible)
    (hpage : m.pages m.running p = some c) : p ∈ m'.accessible ∧ m'.pages = m.pages := by
  cases h with
  | touch hnone _ => exact absurd (hnone.symm.trans hpage) (by simp)
  | fault _ hopens => exact ⟨hopens.2.1, rfl⟩
  | full hnone _ _ => exact absurd (hnone.symm.trans hpage) (by simp)
  | write _ hopen => exact absurd hopen hp

/-- Place `x` holds page `p` of thread `t` with contents `c`. -/
def State.Holds (s : State Page) (t p : ℕ) (c : Page) : Prop :=
  ∃ x, s.Labelled x t p ∧ s.contentAt x = c

/-- The manager shows the memories: its labels are right, the labelled places are
the private pages, and the open frames are the accessible ones of the running thread. -/
structure Shows (s : State Page) (m : Memories Page) : Prop where
  /-- The invariant of the runs holds of the state. -/
  steady : s.Steady
  /-- The manager's current thread is the one that runs. -/
  running : m.running = s.currThread
  /-- No two places are labelled with the same page. -/
  wellLabelled : s.WellLabelled
  /-- The places hold the private pages. -/
  pages : ∀ t p c, m.pages t p = some c ↔ s.Holds t p c
  /-- The accessible pages are those whose frame is open. -/
  accessible : ∀ p, p ∈ m.accessible ↔ p < frameCount ∧ s.prot p ≠ .PROT_NONE
  /-- The frame of an accessible page holds it. -/
  own : ∀ p ∈ m.accessible, s.Labelled (.frame p) s.currThread p

/-- The condition on a fault: the page in the wanted frame returns there, and so
does the page of the victim, if one is needed. -/
def State.LeaversReturn (s : State Page) (p : ℕ) : Prop :=
  s.homeAt (.frame p) = p ∧
    ((∃ n, s.Labelled (.frame n) s.currThread p) ∨
      (s.Nowhere p ∧ ∃ n < frameCount, (s.table.frames n).threadid = 0) ∨
        ∀ e, s.IsVictim e → (s.table.frames e).threadid ≠ 0 → s.homeAt (.frame e) = p)

/-- The condition on an event. -/
def KeepsMemories (s : State Page) : AccessEvent Page → Prop
  | .charge _ => True
  | .access p _ _ => s.prot p = .PROT_NONE → s.LeaversReturn p
  | .contextSwitch _ exiting =>
    s.NoGapBelowOpen ∧ (exiting = true → s.ExitSees s.currThread)

/-! ## Faults -/

variable {s s' : State Page} {p : ℕ}

/-- Exchanging with the swap file is a relocation when the pages that leave return. -/
theorem exchangeVictim_relocates {s₁ : State Page} {e k : ℕ}
    (hm : Marks s s₁ s.currThread p (.slot k)) (hw : s.WellLabelled) (hp : p < frameCount)
    (he : e < frameCount) (hk : k < slotCount) (hhome : s.homeAt (.frame p) = p)
    (hvictim : (s.table.frames e).threadid ≠ 0 → s.homeAt (.frame e) = p) :
    Relocates s (exchangeVictim s₁ p e k) s.currThread p (exchangePerm p e k) := by
  have hz : exchangePerm p e k (.slot k) = .frame p := by simp [exchangePerm_apply]
  apply (exchangeVictim_exchanges s₁ hp he hk).relocates hm hz hw
  intro x hx hxk hocc
  rw [exchangePerm_apply, if_neg hxk] at hx
  by_cases hxe : x = .frame e
  · subst hxe
    exact hvictim hocc
  · by_cases hxp : x = .frame p
    · rw [hxp, hhome]
    · simp [hxe, hxp] at hx

/-- A fault that meets the condition is a relocation, unless a new page finds no place left;
then only reference bits and the clock hand change. -/
theorem Service.relocates (h : Service s p s') (hs : s.Steady) (hw : s.WellLabelled)
    (hp : p < frameCount) (hok : s.LeaversReturn p) :
    (s.CanServe p ∧ ∃ σ, Relocates s s' s.currThread p σ) ∨
      (s.Nowhere p ∧ (∀ x : Place, x.Valid → s.threadAt x ≠ 0) ∧
        ∃ e bit, s' = s.afterSweep e bit) := by
  obtain ⟨hhome, hcases⟩ := hok
  have hret : (s.table.frames p).retAddr = -1 := by
    by_contra hne
    simp only [State.homeAt, if_neg hne] at hhome
    exact hs.away p hhome
  cases h with
  | home hlabel _ => exact Or.inl ⟨Or.inl ⟨_, hlabel⟩, _, touchFrame_relocates hlabel hret⟩
  | frame hlabel _ =>
    exact Or.inl ⟨Or.inl ⟨_, hlabel⟩, _,
      swapPage_relocates (touchFrame_marks hlabel) hw hp hlabel.1 hhome⟩
  | @slot k e bit hlabel he hvictim =>
    refine Or.inl ⟨Or.inl ⟨_, hlabel⟩, _,
      exchangeVictim_relocates (touchSlot_marks hlabel) hw hp he hlabel.1 hhome fun hocc => ?_⟩
    rcases hcases with ⟨n, hn⟩ | ⟨hnew, _⟩ | hreturns
    · exact absurd (hw.distinct _ _ _ _ hlabel hn) (by simp)
    · exact absurd hlabel (hnew _)
    · exact hreturns e hvictim hocc
  | claim hnew hfree =>
    exact Or.inl ⟨Or.inr ⟨.frame p, hp, hfree⟩, _, claimFrame_relocates hfree hret hnew⟩
  | displace hnew _ hn hfree =>
    exact Or.inl ⟨Or.inr ⟨.frame _, hn, hfree⟩, _,
      swapPage_relocates (claimFrame_marks hfree hnew) hw hp hn hhome⟩
  | @evict k e bit hnew hfull he hvictim hfind =>
    obtain ⟨hk, hfree⟩ := State.free_of_findSlot hfind
    refine Or.inl ⟨Or.inr ⟨.slot k, hk, hfree⟩, _,
      exchangeVictim_relocates (claimSlot_marks hfree hnew) hw hp he hk hhome fun hocc => ?_⟩
    rcases hcases with ⟨n, hn⟩ | ⟨_, n, hn, hzero⟩ | hreturns
    · exact absurd hn (hnew _)
    · exact absurd hzero (hfull n hn)
    · exact hreturns e hvictim hocc
  | @stuck e bit hnew _ hframes hslots =>
    refine Or.inr ⟨hnew, ?_, e, bit, rfl⟩
    rintro (n | k) hx
    · exact hframes n hx
    · exact hslots k hx

/-- A well labelled page is held by one place. -/
theorem State.WellLabelled.holds_iff (hw : s.WellLabelled) {x : Place} {t : ℕ} {c : Page}
    (hx : s.Labelled x t p) : s.Holds t p c ↔ s.contentAt x = c := by
  constructor
  · rintro ⟨y, hy, rfl⟩
    rw [hw.distinct _ _ _ _ hx hy]
  · exact fun hc => ⟨x, hx, hc⟩

/-- A table with fewer labels is well labelled. -/
theorem State.WellLabelled.mono (hw : s.WellLabelled) (hfile : s'.swapFile = s.swapFile)
    (h : ∀ x t home, s'.Labelled x t home → s.Labelled x t home) : s'.WellLabelled := by
  refine ⟨fun x hx hocc => ?_, fun x hx hocc => ?_, fun x y t home hx hy => ?_⟩
  · obtain ⟨hvalid, hocc', _, hhome⟩ := h x _ _ ⟨hx, hocc, rfl, rfl⟩
    rw [← hhome]
    exact hw.home x hvalid hocc'
  · obtain ⟨hvalid, hocc', _, _⟩ := h x _ _ ⟨hx, hocc, rfl, rfl⟩
    exact (State.stored_congr hfile x).mpr (hw.stored x hvalid hocc')
  · exact hw.distinct x y t home (h x t home hx) (h y t home hy)

/-- The served page is held by its frame. -/
theorem Relocates.labelled_served {t : ℕ} {σ : Equiv.Perm Place} (h : Relocates s s' t p σ)
    (hp : p < frameCount) (ht : t ≠ 0) : s'.Labelled (.frame p) t p :=
  ⟨hp, by rwa [h.served.1], h.served.1, h.homeAt_served⟩

/-- A relocation changes no other page. -/
theorem Relocates.holds_iff {t u q : ℕ} {σ : Equiv.Perm Place} {c : Page}
    (h : Relocates s s' t p σ) (hne : ¬ (u = t ∧ q = p)) : s'.Holds u q c ↔ s.Holds u q c := by
  have hne' : ¬ (u = t ∧ (q : ℤ) = p) := fun heq => hne ⟨heq.1, by omega⟩
  constructor
  · rintro ⟨y, hy, rfl⟩
    have hyp : y ≠ .frame p := by
      rintro rfl
      exact hne' ⟨hy.2.2.1.symm.trans h.served.1, hy.2.2.2.symm.trans h.homeAt_served⟩
    have horigin := h.origin hy hyp
    have hmoved := h.moved (σ.symm y) horigin.1 (by simpa using hyp)
    rw [Equiv.apply_symm_apply] at hmoved
    exact ⟨_, horigin, (hmoved.2 horigin.2.1).2.symm⟩
  · rintro ⟨x, hx, rfl⟩
    obtain ⟨hlabel, hcontent⟩ := h.labelled hx hne'
    exact ⟨_, hlabel, hcontent⟩

variable {m : Memories Page}

/-- There are as many places as frames and pages of the swap file. -/
theorem Place.ncard_valid : {x : Place | x.Valid}.ncard = frameCount + slotCount := by
  have hvalid : {x : Place | x.Valid} =
      Place.frame '' Finset.range frameCount ∪ Place.slot '' Finset.range slotCount := by
    ext x
    cases x <;> simp [Place.Valid]
  have hdisjoint : Disjoint (Place.frame '' (Finset.range frameCount : Set ℕ))
      (Place.slot '' (Finset.range slotCount : Set ℕ)) := by
    rw [Set.disjoint_left]
    rintro _ ⟨n, _, rfl⟩ ⟨k, _, hk⟩
    cases hk
  rw [hvalid, Set.ncard_union_eq hdisjoint ((Finset.finite_toSet _).image _)
      ((Finset.finite_toSet _).image _),
    Set.ncard_image_of_injective _ fun _ _ => Place.frame.inj,
    Set.ncard_image_of_injective _ fun _ _ => Place.slot.inj,
    Set.ncard_coe_finset, Set.ncard_coe_finset, Finset.card_range, Finset.card_range]

/-- When no place is free, the threads have as many pages as there are places: every place
holds a page of its own. -/
theorem Shows.full (h : Shows s m) (hfull : ∀ x : Place, x.Valid → s.threadAt x ≠ 0) :
    m.Full := by
  have hlabel (x : Place) (hx : x.Valid) :
      s.Labelled x (s.threadAt x) ((s.homeAt x).toNat : ℕ) := by
    obtain ⟨q, _, hq⟩ := h.wellLabelled.home x hx (hfull x hx)
    exact ⟨hx, hfull x hx, rfl, by omega⟩
  have himage : {page : ℕ × ℕ | m.pages page.1 page.2 ≠ none} =
      (fun x => (s.threadAt x, (s.homeAt x).toNat)) '' {x : Place | x.Valid} := by
    ext ⟨t, q⟩
    constructor
    · intro hpage
      obtain ⟨c, hc⟩ := Option.ne_none_iff_exists'.mp hpage
      obtain ⟨x, ⟨hx, _, howner, hhome⟩, _⟩ := (h.pages t q c).mp hc
      exact ⟨x, hx, Prod.ext howner (by simp only; omega)⟩
    · rintro ⟨x, hx, heq⟩
      obtain ⟨rfl, rfl⟩ := Prod.mk.inj heq
      have hpage := (h.pages _ _ (s.contentAt x)).mpr ⟨x, hlabel x hx, rfl⟩
      exact Option.ne_none_iff_exists'.mpr ⟨_, hpage⟩
  have hinj : Set.InjOn (fun x => (s.threadAt x, (s.homeAt x).toNat)) {x : Place | x.Valid} := by
    intro x hx y hy heq
    obtain ⟨howner, hhome⟩ := Prod.mk.inj heq
    have hlabel' := hlabel y hy
    rw [← howner, ← hhome] at hlabel'
    exact h.wellLabelled.distinct x y _ _ (hlabel x hx) hlabel'
  rw [Memories.Full, himage, hinj.ncard_image, Place.ncard_valid]

/-- When the handler serves a fault, the private memories can take a step that the new state shows.
-/
theorem Shows.fault [Zero Page] (h : Shows s m) (hp : p < frameCount)
    (hclosed : s.prot p = .PROT_NONE) (hok : s.LeaversReturn p)
    (hserve : servePage s p = some s') (offset : ℕ) (write : Page → Page) :
    ∃ m', m.Step (.access p offset write) m' ∧ Shows s' m' := by
  have hservice := servePage_service hp h.steady.running h.steady.hand hserve
  have hsteady := hservice.steady hp h.steady
  have hcurr := servePage_currThread hserve
  have hrunning : m.running = s'.currThread := by rw [hcurr, h.running]
  have hpclosed : p ∉ m.accessible := fun hmem => ((h.accessible p).mp hmem).2 hclosed
  rcases hservice.relocates h.steady h.wellLabelled hp hok with
    ⟨hcan, σ, hrel⟩ | ⟨hnew, hfull, e, bit, rfl⟩
  · have hw := hrel.wellLabelled h.wellLabelled hp
    have hserved := hrel.labelled_served hp h.steady.running
    have hpopen : s'.prot p ≠ .PROT_NONE := by
      rw [(hservice.opened h.steady hcan).1]
      decide
    have hopens : m.Opens p {q | q < frameCount ∧ s'.prot q ≠ .PROT_NONE} := by
      refine ⟨hpclosed, ⟨hp, hpopen⟩, fun q ⟨hq, hopen⟩ => ?_⟩
      by_cases hqp : q = p
      · exact Or.inl hqp
      · rcases hservice.other hqp with hclosed' | ⟨hsame, _⟩
        · exact absurd hclosed' hopen
        · rw [hsame] at hopen
          exact Or.inr ((h.accessible q).mpr ⟨hq, hopen⟩)
    have hown (q : ℕ) (hq : q < frameCount ∧ s'.prot q ≠ .PROT_NONE) :
        s'.Labelled (.frame q) s'.currThread q := by
      rw [hcurr]
      by_cases hqp : q = p
      · rwa [hqp]
      · rcases hservice.other hqp with hclosed' | ⟨hsame, hthread, hret⟩
        · exact absurd hclosed' hq.2
        · have hopen := hq.2
          rw [hsame] at hopen
          obtain ⟨_, hocc, howner, hhome⟩ := h.own q ((h.accessible q).mpr ⟨hq.1, hopen⟩)
          simp only [State.threadAt, State.homeAt] at hocc howner hhome
          refine ⟨hq.1, ?_, ?_, ?_⟩
          · rwa [State.threadAt, hthread]
          · rwa [State.threadAt, hthread]
          · rwa [State.homeAt, hret]
    cases hpage : m.pages m.running p with
    | some c =>
      -- The page is brought back with its contents.
      refine ⟨_, .fault hpage hopens, hsteady, hrunning, hw, fun t q d => ?_,
        fun q => Iff.rfl, hown⟩
      rw [h.running, h.pages] at hpage
      rw [h.pages]
      by_cases hsame : t = s.currThread ∧ q = p
      · obtain ⟨rfl, rfl⟩ := hsame
        obtain ⟨x, hx, _⟩ := hpage
        have hkept : s'.contentAt (.frame q) = s.contentAt x := by
          rcases hrel.source with ⟨y, hy, _, hcontent⟩ | ⟨_, hnew⟩
          · rw [hcontent, h.wellLabelled.distinct _ _ _ _ hx hy]
          · exact absurd hx (hnew x)
        rw [h.wellLabelled.holds_iff hx, hw.holds_iff hserved, hkept]
      · exact (hrel.holds_iff hsame).symm
    | none =>
      refine ⟨_, .touch (c := s'.memory p) hpage hopens, hsteady, hrunning, hw, fun t q d => ?_,
        fun q => Iff.rfl, hown⟩
      simp only [Memories.store, h.running]
      by_cases hsame : t = s.currThread ∧ q = p
      · rw [if_pos hsame]
        obtain ⟨rfl, rfl⟩ := hsame
        rw [hw.holds_iff hserved, Option.some.injEq]
        rfl
      · rw [if_neg hsame, h.pages, hrel.holds_iff hsame]
  · -- No place is left, and only reference bits have changed.
    have hlabels (x : Place) (t : ℕ) (home : ℤ) :
        (s.afterSweep e bit).Labelled x t home ↔ s.Labelled x t home := by
      cases x <;> exact Iff.rfl
    have hholds (t q : ℕ) (c : Page) : (s.afterSweep e bit).Holds t q c ↔ s.Holds t q c :=
      exists_congr fun x => by cases x <;> exact Iff.rfl
    have hpage : m.pages m.running p = none := by
      rw [Option.eq_none_iff_forall_not_mem]
      intro c hc
      rw [Option.mem_def, h.running, h.pages] at hc
      exact hnew _ hc.choose_spec.1
    refine ⟨m, .full hpage hpclosed (h.full hfull), hsteady, hrunning, ?_, fun t q c => ?_,
      h.accessible, h.own⟩
    · exact h.wellLabelled.mono rfl fun x t home => (hlabels x t home).mp
    · rw [h.pages, hholds]

/-- The memories follow a write to an open frame. -/
theorem Shows.write (h : Shows s m) (hp : p < frameCount) (hopen : s.prot p ≠ .PROT_NONE)
    (offset : ℕ) (write : Page → Page) :
    ∃ m', m.Step (.access p offset write) m' ∧
      Shows { s with memory := Function.update s.memory p (write (s.memory p)) } m' := by
  have hmem : p ∈ m.accessible := (h.accessible p).mpr ⟨hp, hopen⟩
  have hlabel := h.own p hmem
  have hpage : m.pages m.running p = some (s.memory p) := by
    rw [h.running, h.pages]
    exact ⟨_, hlabel, rfl⟩
  let s' : State Page := { s with memory := Function.update s.memory p (write (s.memory p)) }
  have hlabels (x : Place) (t : ℕ) (home : ℤ) : s'.Labelled x t home ↔ s.Labelled x t home := by
    cases x <;> exact Iff.rfl
  have hw : s'.WellLabelled := h.wellLabelled.mono rfl fun x t home => (hlabels x t home).mp
  have hcontent (x : Place) (hx : x ≠ .frame p) : s'.contentAt x = s.contentAt x := by
    rcases x with n | k
    · have hne : n ≠ p := fun heq => hx (by rw [heq])
      simp [s', State.contentAt, hne]
    · rfl
  refine ⟨_, .write hpage hmem, ?_, h.running, hw, fun t q c => ?_, h.accessible, fun q hq => ?_⟩
  · exact ⟨h.steady.running, h.steady.hand, h.steady.away, h.steady.owned, h.steady.stored⟩
  · simp only [Memories.store, h.running]
    by_cases hsame : t = s.currThread ∧ q = p
    · rw [if_pos hsame]
      obtain ⟨rfl, rfl⟩ := hsame
      rw [hw.holds_iff ((hlabels _ _ _).mpr hlabel), Option.some.injEq]
      simp [State.contentAt, s']
    · rw [if_neg hsame, h.pages]
      apply exists_congr
      intro x
      rw [hlabels]
      apply and_congr_right
      intro hx
      rw [hcontent x ?_]
      rintro rfl
      obtain ⟨_, _, howner, hhome⟩ := hlabel
      exact hsame ⟨hx.2.2.1.symm.trans howner, by have := hx.2.2.2.symm.trans hhome; omega⟩
  · exact (hlabels _ _ _).mpr (h.own q hq)

/-! ## Context switches -/

section Switches

variable [Zero Page]

/-- The scan of a context switch takes a frame of the outgoing thread when no
frame below is free. -/
theorem contextSwitch_taken {thread_id n : ℕ} {exiting : Bool} (hn : n < frameCount)
    (hown : (s.table.frames n).threadid = s.currThread)
    (hbelow : ∀ j ≤ n, (s.table.frames j).threadid ≠ 0) :
    SameFrame (protectFrame s n exiting) (contextSwitch s thread_id exiting) n := by
  let t : State Page := { s with currThread := thread_id }
  have hsame : SameFrame s t n := ⟨rfl, rfl, rfl⟩
  have htakes : t.ScanTakes s.currThread 0 frameCount n :=
    ⟨⟨Nat.zero_le n, fun j _ hj => hbelow j hj⟩, by omega, hown⟩
  have hscan : SameFrame (protectFrom t s.currThread exiting 0 frameCount)
      (contextSwitch s thread_id exiting) n := by
    cases exiting <;> exact ⟨rfl, rfl, rfl⟩
  exact hsame.protect.trans ((protectFrom_frame.1 htakes).trans hscan)

/-- After a switch no frame is open. -/
theorem Shows.closed (h : Shows s m) {thread_id n : ℕ} {exiting : Bool}
    (hgap : s.NoGapBelowOpen) (hn : n < frameCount) :
    (contextSwitch s thread_id exiting).prot n = .PROT_NONE := by
  by_cases hopen : s.prot n = .PROT_NONE
  · rcases contextSwitch_frame s thread_id n exiting with hsame | ⟨_, hsame⟩
    · rw [hsame.2.2, hopen]
    · rw [hsame.2.2, protectFrame_prot, if_pos rfl]
  · have hown := (h.own n ((h.accessible n).mpr ⟨hn, hopen⟩)).2.2.1
    rw [(contextSwitch_taken hn hown (hgap n hn hopen)).2.2, protectFrame_prot, if_pos rfl]

/-- A frame keeps its node and contents unless its thread exits. -/
theorem contextSwitch_kept {thread_id n : ℕ} {exiting : Bool}
    (h : exiting = true → (s.table.frames n).threadid ≠ s.currThread) :
    (contextSwitch s thread_id exiting).table.frames n = s.table.frames n ∧
      (contextSwitch s thread_id exiting).memory n = s.memory n := by
  rcases contextSwitch_frame s thread_id n exiting with hsame | ⟨hown, hsame⟩
  · exact ⟨hsame.1, hsame.2.1⟩
  · cases exiting with
    | false => exact ⟨hsame.1, hsame.2.1⟩
    | true => exact absurd hown (h rfl)

/-- The labels after a switch, and after an exit that sees all pages of the thread. -/
theorem contextSwitch_labelled {thread_id u : ℕ} {exiting : Bool} {x : Place} {home : ℤ}
    (hsees : exiting = true → s.ExitSees s.currThread) (hcurr : s.currThread ≠ 0) :
    (contextSwitch s thread_id exiting).Labelled x u home ↔
      s.Labelled x u home ∧ (exiting = true → u ≠ s.currThread) := by
  obtain ⟨hslots, _⟩ := contextSwitch_swap s thread_id exiting
  rcases x with n | k
  · by_cases hown : exiting = true ∧ (s.table.frames n).threadid = s.currThread
    · -- The exit frees the frame.
      obtain ⟨rfl, hown⟩ := hown
      refine iff_of_false ?_ fun h => h.2 rfl (h.1.2.2.1.symm.trans hown)
      rintro ⟨hn, hocc, _⟩
      have hbelow : ∀ j ≤ n, (s.table.frames j).threadid ≠ 0 := by
        intro j hj
        rcases Nat.lt_or_eq_of_le hj with hlt | rfl
        · exact (hsees rfl).2 n hn hown j hlt
        · rwa [hown]
      rw [State.threadAt, (contextSwitch_taken hn hown hbelow).1] at hocc
      exact hocc protectFrame_exiting.1
    · have hkept : (contextSwitch s thread_id exiting).table.frames n = s.table.frames n :=
        (contextSwitch_kept fun hexit heq => hown ⟨hexit, heq⟩).1
      simp only [State.Labelled, State.threadAt, State.homeAt, hkept]
      refine ⟨fun h => ⟨h, ?_⟩, And.left⟩
      rintro hexit rfl
      exact hown ⟨hexit, h.2.2.1⟩
  · simp only [State.Labelled, State.threadAt, State.homeAt, hslots]
    refine ⟨fun h => ⟨h, ?_⟩, And.left⟩
    rintro hexit rfl
    exact (hsees hexit).1 k h.1 h.2.2.1

/-- The pages that stay labelled keep their contents. -/
theorem contextSwitch_holds {thread_id u q : ℕ} {exiting : Bool} {c : Page}
    (hsees : exiting = true → s.ExitSees s.currThread) (hcurr : s.currThread ≠ 0) :
    (contextSwitch s thread_id exiting).Holds u q c ↔
      s.Holds u q c ∧ (exiting = true → u ≠ s.currThread) := by
  have hcontent {x : Place} (hx : s.Labelled x u q) (hu : exiting = true → u ≠ s.currThread) :
      (contextSwitch s thread_id exiting).contentAt x = s.contentAt x := by
    rcases x with n | k
    · refine (contextSwitch_kept fun hexit hown => hu hexit ?_).2
      exact hx.2.2.1.symm.trans hown
    · obtain ⟨_, hfile, hstack⟩ := contextSwitch_swap s thread_id exiting
      simp only [State.contentAt, hfile, hstack]
  constructor
  · rintro ⟨x, hx, hc⟩
    obtain ⟨hlabel, hu⟩ := (contextSwitch_labelled hsees hcurr).mp hx
    exact ⟨⟨x, hlabel, (hcontent hlabel hu).symm.trans hc⟩, hu⟩
  · rintro ⟨⟨x, hx, hc⟩, hu⟩
    exact ⟨x, (contextSwitch_labelled hsees hcurr).mpr ⟨hx, hu⟩, (hcontent hx hu).trans hc⟩

/-- The memories follow a context switch. -/
theorem Shows.contextSwitch (h : Shows s m) {thread_id : ℕ} {exiting : Bool}
    (hne : thread_id ≠ 0 ∧ thread_id ≠ s.currThread) (hgap : s.NoGapBelowOpen)
    (hsees : exiting = true → s.ExitSees s.currThread) :
    ∃ m', m.Step (.contextSwitch thread_id exiting) m' ∧
      Shows (contextSwitch s thread_id exiting) m' := by
  have hsteady : (Paging.contextSwitch s thread_id exiting).Steady := by
    apply accessStep_steady (e := .contextSwitch thread_id exiting) h.steady
    rw [accessStep, if_pos hne]
  have hw : (Paging.contextSwitch s thread_id exiting).WellLabelled :=
    h.wellLabelled.mono (contextSwitch_swap s thread_id exiting).2.1 fun x t home hx =>
      ((contextSwitch_labelled hsees h.steady.running).mp hx).1
  have hthread := (contextSwitch_eq s thread_id exiting).2.2
  have hclosed (p : ℕ) : p ∈ (∅ : Set ℕ) ↔
      p < frameCount ∧ (Paging.contextSwitch s thread_id exiting).prot p ≠ .PROT_NONE :=
    iff_of_false (Set.notMem_empty p) fun hopen => hopen.2 (h.closed hgap hopen.1)
  have hown (p : ℕ) (hp : p ∈ (∅ : Set ℕ)) :
      (Paging.contextSwitch s thread_id exiting).Labelled (.frame p)
        (Paging.contextSwitch s thread_id exiting).currThread p :=
    absurd hp (Set.notMem_empty p)
  cases exiting with
  | false =>
    refine ⟨_, .switch, hsteady, hthread.symm, hw, fun t q c => ?_, hclosed, hown⟩
    rw [contextSwitch_holds hsees h.steady.running]
    simpa using h.pages t q c
  | true =>
    refine ⟨_, .exit, hsteady, hthread.symm, hw, fun t q c => ?_, hclosed, hown⟩
    rw [contextSwitch_holds hsees h.steady.running]
    simp only [Memories.clear, h.running]
    by_cases htc : t = s.currThread
    · simp [htc]
    · simpa [htc] using h.pages t q c

/-! ## Runs -/

/-- The memories follow every event that meets the condition. -/
theorem Shows.step {e : AccessEvent Page} (h : Shows s m) (hok : KeepsMemories s e)
    (hstep : accessStep s e = some s') : ∃ m', m.Step e m' ∧ Shows s' m' := by
  cases e with
  | charge pages =>
    have hlabels (x : Place) (t : ℕ) (home : ℤ) : s'.Labelled x t home ↔ s.Labelled x t home := by
      cases hstep
      cases x <;> exact Iff.rfl
    have hholds (t q : ℕ) (c : Page) : s'.Holds t q c ↔ s.Holds t q c := by
      cases hstep
      exact exists_congr fun x => by cases x <;> exact Iff.rfl
    refine ⟨m, .charge, accessStep_steady h.steady hstep, ?_, ?_, fun t q c => ?_, ?_, ?_⟩
    · cases hstep
      exact h.running
    · have hfile : s'.swapFile = s.swapFile := by
        cases hstep
        rfl
      exact h.wellLabelled.mono hfile fun x t home => (hlabels x t home).mp
    · rw [h.pages, hholds]
    · cases hstep
      exact h.accessible
    · cases hstep
      exact h.own
  | access page offset write =>
    obtain ⟨hp, ⟨hclosed, hserve⟩ | ⟨hopen, rfl⟩⟩ := accessStep_access hstep
    · exact h.fault hp hclosed (hok hclosed) hserve offset write
    · exact h.write hp hopen offset write
  | contextSwitch thread_id exiting =>
    obtain ⟨hne, rfl⟩ := accessStep_contextSwitch hstep
    exact h.contextSwitch hne hok.1 hok.2

end Switches

end SimpleOs.Paging
