import SimpleOs.Library.Runs
import SimpleOs.Paging.Findable

/-!
# Pages while memory has room

Each thread should see its pages as a private memory that only it writes. The
runs here interleave faults of any threads, each followed by an arbitrary write
to the page just served. The private memory is carried along, and the table has
to keep one frame for each of its pages.
-/

namespace SimpleOs.Paging

variable {Page : Type*}

/-- One fault: the running thread, the faulting address, the page counts at that
time, and what the thread then does to the page. -/
structure Fault (Page : Type*) where
  /-- The id of the running thread. -/
  thread : ℕ
  /-- The page of the faulting address. -/
  page : ℕ
  /-- The offset of the faulting address in its page. -/
  offset : ℕ
  /-- The page counts when the fault happens. -/
  thread_page_count : ℕ → ℤ
  /-- The thread's writes to the page it was given. -/
  write : Page → Page

/-- The memory manager together with the threads' private memories. -/
structure Trace (Page : Type*) where
  /-- The state of the memory manager. -/
  state : State Page
  /-- The last content a thread wrote to a page, for the pages served so far. -/
  written : ℕ → ℕ → Option Page
  /-- The thread and page of the last fault. -/
  last : Option (ℕ × ℕ)

/-- The state in which the handler runs. -/
def Fault.enter (f : Fault Page) (s : State Page) : State Page :=
  { s with currThread := f.thread, thread_page_count := f.thread_page_count }

/-- The thread's writes after the handler has returned. -/
def Fault.leave (f : Fault Page) (s : State Page) : State Page :=
  { s with memory := Function.update s.memory f.page (f.write (s.memory f.page)) }

/-- The private memories after the fault: the thread writes to what it wrote
last, and to whatever it finds in a page it has never had. -/
def Fault.record (f : Fault Page) (written : ℕ → ℕ → Option Page) (found : Page) :
    ℕ → ℕ → Option Page := fun t p =>
  if t = f.thread ∧ p = f.page then some (f.write ((written t p).getD found)) else written t p

/-- One fault of a thread, while memory has a free frame. -/
def FaultStep (τ : Trace Page) (f : Fault Page) (τ' : Trace Page) : Prop :=
  f.thread ≠ 0 ∧ f.page < frameCount ∧ f.offset < PAGE_SIZE ∧
    (∃ n < frameCount, (τ.state.table.frames n).threadid = 0) ∧
    ∃ s', pageFaultHandler (f.enter τ.state) (f.page * PAGE_SIZE + f.offset) = some s' ∧
      τ' = ⟨f.leave s', f.record τ.written (s'.memory f.page), some (f.thread, f.page)⟩

/-- The traces reached from `buildKernalSpace` by faults that meet `ok`. -/
def FaultReach (ok : Trace Page → Fault Page → Prop) : Trace Page → Prop :=
  Runs.Reach
    (fun τ => ∃ memory swapFile stack,
      τ = ⟨buildKernalSpace memory swapFile stack, fun _ _ => none, none⟩)
    FaultStep ok

/-- The condition on a fault: the wanted frame is free or holds its own page. -/
def WantedFrameAtHome (τ : Trace Page) (f : Fault Page) : Prop :=
  (τ.state.table.frames f.page).threadid ≠ 0 → τ.state.homeAt (.frame f.page) = f.page

/-- No page is lost or mixed up: the page served last is in its home frame, and
each page served so far has exactly one frame, with the content written last. -/
structure Trace.PagesKept (τ : Trace Page) : Prop where
  /-- The page served last is at home. -/
  home : ∀ t p, τ.last = some (t, p) →
    τ.state.Labelled (.frame p) t p ∧ (τ.state.table.frames p).retAddr = -1
  /-- Every page is in one frame, with its content. -/
  content : ∀ t p c, τ.written t p = some c →
    ∃ n, τ.state.Labelled (.frame n) t p ∧ τ.state.memory n = c ∧
      ∀ m, τ.state.Labelled (.frame m) t p → m = n

/-- What makes the next fault safe. No page is in the swap file, free frames are
unused, the home of every page is occupied, and the occupied frames are the
private memories. -/
structure Trace.Resident (τ : Trace Page) : Prop where
  /-- The table is well labelled. -/
  wellLabelled : τ.state.WellLabelled
  /-- The swap file is empty. -/
  slots_free : ∀ k, (τ.state.table.slots k).threadid = 0
  /-- A free frame carries no other home. -/
  free_home : ∀ n, (τ.state.table.frames n).threadid = 0 → (τ.state.table.frames n).retAddr = -1
  /-- The home of every page is occupied. -/
  home_occupied : ∀ n t p, τ.state.Labelled (.frame n) t (p : ℕ) →
    (τ.state.table.frames p).threadid ≠ 0
  /-- A frame holds what its thread wrote last. -/
  content : ∀ n t p, τ.state.Labelled (.frame n) t (p : ℕ) →
    τ.written t p = some (τ.state.memory n)
  /-- A page served so far is in a frame. -/
  found : ∀ t p c, τ.written t p = some c → ∃ n, τ.state.Labelled (.frame n) t p

/-! ## The handler with a free frame -/

/-- The four ways the handler serves a page while memory has room and the swap
file is empty. -/
theorem servePage_room_cases {s : State Page} {p : ℕ}
    (hcount : (p + 1 : ℕ) ≤ s.thread_page_count s.currThread) (hcurr : s.currThread ≠ 0)
    (hslots : ∀ k, (s.table.slots k).threadid = 0)
    (hroom : ∃ n < frameCount, (s.table.frames n).threadid = 0) :
    ((s.table.frames p).threadid = s.currThread ∧ (s.table.frames p).retAddr = -1 ∧
        servePage s p = some ((s.touchFrame p).mprotect p .PROT_READ_WRITE)) ∨
      (∃ n, s.Labelled (.frame n) s.currThread p ∧
        servePage s p = some (swapPage (s.touchFrame n) p n 0)) ∨
      ((∀ x, ¬ s.Labelled x s.currThread p) ∧ (s.table.frames p).threadid = 0 ∧
        servePage s p = some ((s.mprotect p .PROT_READ_WRITE).claimFrame p)) ∨
      ((∀ x, ¬ s.Labelled x s.currThread p) ∧ (s.table.frames p).threadid ≠ 0 ∧
        ∃ q < frameCount, (s.table.frames q).threadid = 0 ∧
          servePage s p = some (swapPage (s.claimFrame q) p q 0)) := by
  simp only [servePage, Table.frame_offset, if_neg (not_lt.mpr hcount)]
  by_cases hown : (s.table.frames p).threadid = s.currThread ∧ (s.table.frames p).retAddr = -1
  · rw [if_pos hown]
    exact Or.inl ⟨hown.1, hown.2, rfl⟩
  rw [if_neg hown]
  cases hframe : s.findFrame (s.returnsTo p) with
  | some n => exact Or.inr (Or.inl ⟨n, labelled_of_findFrame hcurr hframe, rfl⟩)
  | none =>
    have hslot : s.findSlot (s.returnsTo p) = none := by
      refine State.findSlot_eq_none.mpr fun k _ => decide_eq_false ?_
      rintro ⟨hthread, _⟩
      exact hcurr (hthread.symm.trans (hslots k))
    have hnew (x : Place) : ¬ s.Labelled x s.currThread p := by
      cases x with
      | frame n => exact not_labelled_frame hown hframe n
      | slot k => exact not_labelled_slot hslot k
    simp only [hslot, serveNewPage, Table.frame_offset]
    by_cases hfree : (s.table.frames p).threadid = 0
    · rw [if_pos hfree]
      exact Or.inr (Or.inr (Or.inl ⟨hnew, hfree, rfl⟩))
    · rw [if_neg hfree]
      cases hfind : s.findFrame isFree with
      | some q =>
        obtain ⟨htest, hq, _⟩ := State.findFrame_eq_some.mp hfind
        exact Or.inr (Or.inr (Or.inr ⟨hnew, hfree, q, hq, of_decide_eq_true htest, rfl⟩))
      | none =>
        obtain ⟨n, hn, hnfree⟩ := hroom
        have := State.findFrame_eq_none.mp hfind n hn
        exact absurd hnfree (of_decide_eq_false this)

/-- Giving a frame to the thread changes no other label. -/
theorem claimFrame_label (s : State Page) (n : ℕ) (x : Place) :
    (s.claimFrame n).contentAt x = s.contentAt x ∧
      (x ≠ .frame n → (s.claimFrame n).threadAt x = s.threadAt x ∧
        (s.claimFrame n).homeAt x = s.homeAt x) := by
  cases x <;> simp only [State.claimFrame, State.threadAt, State.homeAt, State.contentAt,
    Table.setFrame_frames, Table.setFrame_slots, ne_eq, Place.frame.injEq] <;> grind

/-- What serving a page does to the rest of the table while memory has room: the
swap nodes and the free frames stay as they are. -/
structure FillsFrames (s s' : State Page) : Prop where
  /-- The swap nodes do not change. -/
  slots : s'.table.slots = s.table.slots
  /-- A frame that is free afterwards was not touched. -/
  free : ∀ n, (s'.table.frames n).threadid = 0 → s'.table.frames n = s.table.frames n

/-- The exchange of the wanted frame with a marked frame is an exchange of
places that fills frames only. -/
theorem swapPage_fillsFrames {s s₁ : State Page} {t p n : ℕ} (hm : Marks s s₁ t p (.frame n))
    (hslots : s₁.table.slots = s.table.slots)
    (hframes : ∀ m ≠ n, s₁.table.frames m = s.table.frames m) (ht : t ≠ 0)
    (hocc : (s.table.frames p).threadid ≠ 0) : FillsFrames s (swapPage s₁ p n 0) := by
  refine ⟨hslots, fun m hm0 => ?_⟩
  have hn : (s₁.table.frames n).threadid = t := hm.thread
  rw [swapPage_frames] at hm0 ⊢
  by_cases hmp : m = p
  · rw [if_pos hmp] at hm0
    exact absurd (hn.symm.trans hm0) ht
  · rw [if_neg hmp] at hm0 ⊢
    by_cases hmn : m = n
    · rw [if_pos hmn] at hm0
      rw [hframes p fun hpn => hmp (hmn.trans hpn.symm)] at hm0
      exact absurd hm0 hocc
    · rw [if_neg hmn]
      exact hframes m hmn

/-- Marking the frame that already holds the wanted page. -/
theorem touchFrame_marks {s : State Page} {t p n : ℕ} (hn : s.Labelled (.frame n) t p) :
    Marks s (s.touchFrame n) t p (.frame n) where
  thread := (touchFrame_label s n _).1.trans hn.2.2.1
  content x := (touchFrame_label s n x).2.2
  stored := State.stored_congr rfl
  other x _ := ⟨(touchFrame_label s n x).1, (touchFrame_label s n x).2.1⟩
  wanted := Or.inl hn

/-- Marking a free frame for a page that is nowhere. -/
theorem claimFrame_marks {s : State Page} {p q : ℕ} (hfree : (s.table.frames q).threadid = 0)
    (hnew : ∀ x, ¬ s.Labelled x s.currThread p) :
    Marks s (s.claimFrame q) s.currThread p (.frame q) where
  thread := by simp [State.threadAt, State.claimFrame]
  content x := (claimFrame_label s q x).1
  stored := State.stored_congr rfl
  other x := (claimFrame_label s q x).2
  wanted := Or.inr ⟨hfree, hnew⟩

/-- A page at home is served by marking its frame. -/
theorem touchFrame_relocates {s : State Page} {t p : ℕ} (hhome : s.Labelled (.frame p) t p)
    (hret : (s.table.frames p).retAddr = -1) :
    Relocates s ((s.touchFrame p).mprotect p .PROT_READ_WRITE) t p (Equiv.refl _) where
  valid _ := Iff.rfl
  stored x := (State.stored_congr rfl x).mpr
  moved x _ _ := ⟨(touchFrame_label s p x).1, fun _ => (touchFrame_label s p x).2⟩
  served := ⟨(touchFrame_label s p (.frame p)).1.trans hhome.2.2.1,
    by simpa [State.touchFrame, State.mprotect] using hret⟩
  source := Or.inl ⟨_, hhome, rfl, rfl⟩

/-- Marking a frame fills frames only. -/
theorem touchFrame_fillsFrames {s : State Page} {p : ℕ} (hocc : (s.table.frames p).threadid ≠ 0) :
    FillsFrames s ((s.touchFrame p).mprotect p .PROT_READ_WRITE) := by
  refine ⟨rfl, fun n hn => ?_⟩
  by_cases hnp : n = p
  · simp [State.touchFrame, State.mprotect, hnp, hocc] at hn
  · simp [State.touchFrame, State.mprotect, hnp]

/-- A new page in its own free frame is served by claiming the frame. -/
theorem claimFrame_relocates {s : State Page} {p : ℕ}
    (hfree : (s.table.frames p).threadid = 0) (hret : (s.table.frames p).retAddr = -1)
    (hnew : ∀ x, ¬ s.Labelled x s.currThread p) :
    Relocates s ((s.mprotect p .PROT_READ_WRITE).claimFrame p) s.currThread p (Equiv.refl _) where
  valid _ := Iff.rfl
  stored x := (State.stored_congr rfl x).mpr
  moved x _ hx :=
    ⟨((claimFrame_label s p x).2 hx).1,
      fun _ => ⟨((claimFrame_label s p x).2 hx).2, (claimFrame_label s p x).1⟩⟩
  served := ⟨by simp [State.threadAt, State.claimFrame, State.mprotect],
    by simpa [State.claimFrame, State.mprotect] using hret⟩
  source := Or.inr ⟨hfree, hnew⟩

/-- Claiming a frame fills frames only. -/
theorem claimFrame_fillsFrames {s : State Page} {p : ℕ} (hcurr : s.currThread ≠ 0) :
    FillsFrames s ((s.mprotect p .PROT_READ_WRITE).claimFrame p) := by
  refine ⟨rfl, fun n hn => ?_⟩
  by_cases hnp : n = p
  · simp [State.claimFrame, State.mprotect, hnp, hcurr] at hn
  · simp [State.claimFrame, State.mprotect, hnp]

/-- When the page in the wanted frame is at home, exchanging it with a marked
frame is a relocation. -/
theorem swapPage_relocates {s s₁ : State Page} {t p n : ℕ} (hm : Marks s s₁ t p (.frame n))
    (hw : s.WellLabelled) (hp : p < frameCount) (hn : n < frameCount)
    (hhome : s.homeAt (.frame p) = p) :
    Relocates s (swapPage s₁ p n 0) t p (Equiv.swap (.frame p) (.frame n)) := by
  refine (swapPage_exchanges s₁ hp hn).relocates hm (Equiv.swap_apply_right _ _) hw ?_
  intro x hx hxn _
  by_cases hxp : x = .frame p
  · rw [hxp, hhome]
  · exact absurd (Equiv.swap_apply_of_ne_of_ne hxp hxn) hx


/-- While memory has room and the wanted frame is free or holds its own page,
serving a page is a relocation that fills frames only. -/
theorem servePage_relocates {s s' : State Page} {p : ℕ} (hw : s.WellLabelled) (hp : p < frameCount)
    (hcount : (p + 1 : ℕ) ≤ s.thread_page_count s.currThread) (hcurr : s.currThread ≠ 0)
    (hslots : ∀ k, (s.table.slots k).threadid = 0)
    (hfree : ∀ n, (s.table.frames n).threadid = 0 → (s.table.frames n).retAddr = -1)
    (hhomes : ∀ n t q, s.Labelled (.frame n) t (q : ℕ) → (s.table.frames q).threadid ≠ 0)
    (hroom : ∃ n < frameCount, (s.table.frames n).threadid = 0)
    (hwanted : (s.table.frames p).threadid ≠ 0 → s.homeAt (.frame p) = p)
    (hserve : servePage s p = some s') :
    ∃ σ, Relocates s s' s.currThread p σ ∧ FillsFrames s s' := by
  rcases servePage_room_cases hcount hcurr hslots hroom with
    ⟨hthread, hret, heq⟩ | ⟨n, hn, heq⟩ | ⟨hnew, hpfree, heq⟩ | ⟨hnew, hpocc, q, hq, hqfree, heq⟩
  all_goals obtain rfl := Option.some.inj (hserve.symm.trans heq)
  · have hhome : s.Labelled (.frame p) s.currThread p :=
      ⟨hp, by simpa [State.threadAt, hthread] using hcurr, hthread, by simp [State.homeAt, hret]⟩
    exact ⟨_, touchFrame_relocates hhome hret, touchFrame_fillsFrames hhome.2.1⟩
  · have hocc := hhomes n _ _ hn
    refine ⟨_, swapPage_relocates (touchFrame_marks hn) hw hp hn.1 (hwanted hocc), ?_⟩
    refine swapPage_fillsFrames (touchFrame_marks hn) rfl (fun m hmn => ?_) hcurr hocc
    simp [State.touchFrame, hmn]
  · exact ⟨_, claimFrame_relocates hpfree (hfree p hpfree) hnew, claimFrame_fillsFrames hcurr⟩
  · have hm := claimFrame_marks hqfree hnew
    refine ⟨_, swapPage_relocates hm hw hp hq (hwanted hpocc), ?_⟩
    refine swapPage_fillsFrames hm rfl (fun m hmq => ?_) hcurr hpocc
    simp [State.claimFrame, hmq]

/-! ## Runs -/

/-- A resident trace that has just served a page at home keeps every page. -/
theorem Trace.Resident.pagesKept {τ : Trace Page} (h : τ.Resident)
    (hhome : ∀ t p, τ.last = some (t, p) →
      τ.state.Labelled (.frame p) t p ∧ (τ.state.table.frames p).retAddr = -1) :
    τ.PagesKept := by
  refine ⟨hhome, fun t p c hc => ?_⟩
  obtain ⟨n, hn⟩ := h.found t p c hc
  refine ⟨n, hn, ?_, fun m hm => ?_⟩
  · have := h.content n t p hn
    rw [hc] at this
    exact (Option.some.inj this).symm
  · exact Place.frame.inj (h.wellLabelled.distinct _ _ _ _ hm hn)

/-- After `buildKernalSpace` the trace is resident. -/
theorem resident_buildKernalSpace (memory : ℕ → Page) (swapFile : SwapFile Page)
    (stack : ℕ → Page) :
    Trace.Resident ⟨buildKernalSpace memory swapFile stack, fun _ _ => none, none⟩ := by
  have hnone (x : Place) (t : ℕ) (home : ℤ) :
      ¬ (buildKernalSpace memory swapFile stack).Labelled x t home := by
    rintro ⟨_, hocc, _⟩
    cases x <;> exact hocc rfl
  constructor
  · refine ⟨fun x _ hocc => ?_, fun x _ hocc => ?_, fun x y t home hx => absurd hx (hnone x t home)⟩
    · cases x <;> exact absurd rfl hocc
    · cases x <;> exact absurd rfl hocc
  · exact fun _ => rfl
  · exact fun _ _ => rfl
  · exact fun n t p h => absurd h (hnone _ _ _)
  · exact fun n t p h => absurd h (hnone _ _ _)
  · exact fun t p c h => absurd h (by simp)

/-- The page count that lets the handler serve page `p`. -/
theorem servePage_count {s s' : State Page} {p : ℕ} (h : servePage s p = some s') :
    (p + 1 : ℕ) ≤ s.thread_page_count s.currThread := by
  by_contra hlt
  rw [servePage, if_pos (not_le.mp hlt)] at h
  exact absurd h (by simp)

/-- The thread's writes change no label. -/
theorem Fault.leave_labelled (f : Fault Page) (s : State Page) (x : Place) (t : ℕ) (home : ℤ) :
    (f.leave s).Labelled x t home ↔ s.Labelled x t home := by
  cases x <;> exact Iff.rfl

/-- Entering the handler changes no label, so a relocation may start there. -/
theorem Fault.relocates_of_enter {f : Fault Page} {s s' : State Page} {t p : ℕ}
    {σ : Equiv.Perm Place} (h : Relocates (f.enter s) s' t p σ) : Relocates s s' t p σ :=
  ⟨h.valid, h.stored, h.moved, h.served, h.source⟩

/-- After a relocation a frame holds the served page, or another page that comes
from a frame with the same content. -/
theorem Trace.Resident.origin {τ : Trace Page} (h : τ.Resident) {s' : State Page} {t p : ℕ}
    {σ : Equiv.Perm Place} (hrel : Relocates τ.state s' t p σ) {n u q : ℕ}
    (hn : s'.Labelled (.frame n) u q) :
    (n = p ∧ u = t ∧ q = p) ∨
      (n ≠ p ∧ ¬ (u = t ∧ q = p) ∧
        ∃ m, τ.state.Labelled (.frame m) u q ∧ s'.memory n = τ.state.memory m) := by
  by_cases hnp : n = p
  · subst hnp
    have hhome : (q : ℤ) = n := hn.2.2.2.symm.trans hrel.homeAt_served
    exact Or.inl ⟨rfl, hn.2.2.1.symm.trans hrel.served.1, by exact_mod_cast hhome⟩
  refine Or.inr ⟨hnp, ?_, ?_⟩
  · rintro ⟨rfl, rfl⟩
    exact hnp (Place.frame.inj (hrel.origin_ne h.wellLabelled hn))
  have hold := hrel.origin hn (by simpa using hnp)
  cases hx : σ.symm (.frame n) with
  | slot k =>
    rw [hx] at hold
    exact absurd (h.slots_free k) hold.2.1
  | frame m =>
    rw [hx] at hold
    refine ⟨m, hold, ?_⟩
    have htarget : σ (.frame m) = .frame n := by rw [← hx, Equiv.apply_symm_apply]
    have hmoved := hrel.moved (.frame m) hold.1 (by rw [htarget]; simpa using hnp)
    rw [htarget] at hmoved
    exact (hmoved.2 hold.2.1).2

/-- The served page has the content its thread wrote last. -/
theorem Trace.Resident.served_content {τ : Trace Page} (h : τ.Resident) {s' : State Page}
    {t p : ℕ} {σ : Equiv.Perm Place} (hrel : Relocates τ.state s' t p σ) :
    (τ.written t p).getD (s'.memory p) = s'.memory p := by
  cases hwritten : τ.written t p with
  | none => rfl
  | some c =>
    obtain ⟨n, hn⟩ := h.found t p c hwritten
    have hc := h.content n t p hn
    rw [hwritten] at hc
    rcases hrel.source with ⟨x, hx, _, hcontent⟩ | ⟨_, hnew⟩
    · rw [← h.wellLabelled.distinct _ _ _ _ hn hx] at hcontent
      exact (Option.some.inj hc).trans hcontent.symm
    · exact absurd hn (hnew _)

/-- A relocation that fills frames only, followed by the thread's writes, keeps
the trace resident. -/
theorem Trace.Resident.relocated {τ : Trace Page} (h : τ.Resident) {f : Fault Page}
    {s' : State Page} {σ : Equiv.Perm Place} (hp : f.page < frameCount) (hthread : f.thread ≠ 0)
    (hrel : Relocates τ.state s' f.thread f.page σ) (hfills : FillsFrames τ.state s') :
    Trace.Resident ⟨f.leave s', f.record τ.written (s'.memory f.page),
      some (f.thread, f.page)⟩ := by
  have hw' := hrel.wellLabelled h.wellLabelled hp
  have hserved : s'.Labelled (.frame f.page) f.thread f.page :=
    ⟨hp, by rw [hrel.served.1]; exact hthread, hrel.served.1, hrel.homeAt_served⟩
  constructor
  · exact ⟨hw'.home, hw'.stored, hw'.distinct⟩
  · intro k
    change (s'.table.slots k).threadid = 0
    rw [hfills.slots]
    exact h.slots_free k
  · intro n hn
    change (s'.table.frames n).threadid = 0 at hn
    change (s'.table.frames n).retAddr = -1
    have hkept := hfills.free n hn
    rw [hkept] at hn ⊢
    exact h.free_home n hn
  · -- The home of a page was occupied before, and occupied frames stay so.
    intro n t q hn hq
    change (s'.table.frames q).threadid = 0 at hq
    rcases h.origin hrel hn with ⟨_, _, rfl⟩ | ⟨_, _, m, hm, _⟩
    · exact hserved.2.1 hq
    · rw [hfills.free q hq] at hq
      exact h.home_occupied m t q hm hq
  · intro n t q hn
    rcases h.origin hrel hn with ⟨rfl, rfl, rfl⟩ | ⟨hnp, hne, m, hm, hcontent⟩
    · simp [Fault.record, Fault.leave, h.served_content hrel]
    · simp only [Fault.record, if_neg hne, Fault.leave, Function.update_of_ne hnp, hcontent]
      exact h.content m t q hm
  · intro t q c hc
    by_cases hne : t = f.thread ∧ q = f.page
    · obtain ⟨rfl, rfl⟩ := hne
      exact ⟨f.page, hserved⟩
    · simp only [Fault.record, if_neg hne] at hc
      obtain ⟨n, hn⟩ := h.found t q c hc
      have hmoved : s'.Labelled (σ (.frame n)) t q :=
        (hrel.labelled hn fun heq => hne ⟨heq.1, by exact_mod_cast heq.2⟩).1
      cases hx : σ (.frame n) with
      | frame m => exact ⟨m, hx ▸ hmoved⟩
      | slot k =>
        rw [hx] at hmoved
        have hslot : (s'.table.slots k).threadid ≠ 0 := hmoved.2.1
        rw [hfills.slots] at hslot
        exact absurd (h.slots_free k) hslot

/-- The step lemma: a fault that meets the condition keeps the trace resident and
serves its page at home. -/
theorem Trace.Resident.step {τ τ' : Trace Page} {f : Fault Page} (h : τ.Resident)
    (hok : WantedFrameAtHome τ f) (hstep : FaultStep τ f τ') : τ'.Resident ∧ τ'.PagesKept := by
  obtain ⟨hthread, hp, hoffset, hroom, s', hserve, rfl⟩ := hstep
  rw [pageFaultHandler_eq _ hp hoffset] at hserve
  have hw : (f.enter τ.state).WellLabelled :=
    ⟨h.wellLabelled.home, h.wellLabelled.stored, h.wellLabelled.distinct⟩
  obtain ⟨σ, hrel, hfills⟩ := servePage_relocates hw hp (servePage_count hserve) hthread
    h.slots_free h.free_home h.home_occupied hroom hok hserve
  have hrel' : Relocates τ.state s' f.thread f.page σ := Fault.relocates_of_enter hrel
  have hresident := h.relocated hp hthread hrel' ⟨hfills.slots, hfills.free⟩
  refine ⟨hresident, hresident.pagesKept ?_⟩
  rintro t p hlast
  obtain ⟨rfl, rfl⟩ := Prod.mk.inj (Option.some.inj hlast)
  refine ⟨⟨hp, ?_, hrel.served.1, hrel.homeAt_served⟩, hrel.served.2⟩
  exact fun hfree => hthread (hrel.served.1.symm.trans hfree)

/-- A fault that violates the condition loses the page of the wanted frame. -/
theorem Trace.Resident.lost {τ τ' : Trace Page} {f : Fault Page} (h : τ.Resident)
    (hok : ¬ WantedFrameAtHome τ f) (hstep : FaultStep τ f τ') : ¬ τ'.PagesKept := by
  obtain ⟨hthread, hp, hoffset, hroom, s', hserve, rfl⟩ := hstep
  rw [pageFaultHandler_eq _ hp hoffset] at hserve
  obtain ⟨hocc, hhome⟩ := Classical.not_imp.mp hok
  have hw : (f.enter τ.state).WellLabelled :=
    ⟨h.wellLabelled.home, h.wellLabelled.stored, h.wellLabelled.distinct⟩
  have hlost {s₁ : State Page} {n : ℕ}
      (hm : Marks (f.enter τ.state) s₁ f.thread f.page (.frame n)) (hn : n < frameCount)
      (y : Place) : ¬ (swapPage s₁ f.page n 0).Labelled y (τ.state.threadAt (.frame f.page))
        (τ.state.homeAt (.frame f.page)) :=
    (swapPage_exchanges s₁ hp hn).lost hm (Equiv.swap_apply_right _ _) hw
      (x := .frame f.page) hp hocc (Or.inr rfl) hhome y
  -- Whatever the handler did, no place carries the label of the page in the wanted frame.
  have hgone (y : Place) : ¬ s'.Labelled y (τ.state.threadAt (.frame f.page))
      (τ.state.homeAt (.frame f.page)) := by
    rcases servePage_room_cases (servePage_count hserve) hthread h.slots_free hroom with
      ⟨_, hret, _⟩ | ⟨n, hn, heq⟩ | ⟨_, hfree, _⟩ | ⟨hnew, _, q, hq, hqfree, heq⟩
    · exact absurd (if_pos hret) hhome
    · obtain rfl := Option.some.inj (hserve.symm.trans heq)
      exact hlost (touchFrame_marks hn) hn.1 y
    · exact absurd hfree hocc
    · obtain rfl := Option.some.inj (hserve.symm.trans heq)
      exact hlost (claimFrame_marks hqfree hnew) hq y
  obtain ⟨q, _, hq⟩ := h.wellLabelled.home (.frame f.page) hp hocc
  have hwritten := h.content f.page (τ.state.threadAt (.frame f.page)) q ⟨hp, hocc, rfl, hq⟩
  intro hkept
  obtain ⟨c, hc⟩ : ∃ c, f.record τ.written (s'.memory f.page)
      (τ.state.threadAt (.frame f.page)) q = some c := by
    simp only [Fault.record]
    split
    · exact ⟨_, rfl⟩
    · exact ⟨_, hwritten⟩
  obtain ⟨n, hn, _⟩ := hkept.content _ _ _ hc
  rw [← hq] at hn
  exact hgone _ ((f.leave_labelled s' _ _ _).mp hn)

/-- Runs whose faults meet the condition stay resident and keep every page. -/
theorem faultReach_resident {τ : Trace Page} (h : FaultReach WantedFrameAtHome τ) :
    τ.Resident ∧ τ.PagesKept := by
  refine Runs.Reach.invariant (P := fun τ : Trace Page => τ.Resident ∧ τ.PagesKept) ?_ ?_ h
  · rintro _ ⟨memory, swapFile, stack, rfl⟩
    have hresident := resident_buildKernalSpace memory swapFile stack
    exact ⟨hresident, hresident.pagesKept fun _ _ hlast => absurd hlast (by simp)⟩
  · exact fun τ f τ' hτ hok hstep => hτ.1.step hok hstep

/-- While memory has room, every run in which each wanted frame is free or holds
its own page keeps every page, and after such a run the next fault keeps every
page only if it meets this condition. -/
theorem pages_kept_with_room :
    (∀ τ : Trace Page, FaultReach WantedFrameAtHome τ → τ.PagesKept) ∧
      ∀ (τ : Trace Page) (f : Fault Page) (τ' : Trace Page), FaultReach WantedFrameAtHome τ →
        FaultStep τ f τ' → (τ'.PagesKept ↔ WantedFrameAtHome τ f) := by
  refine ⟨fun τ h => (faultReach_resident h).2, fun τ f τ' h hstep => ⟨fun hkept => ?_, ?_⟩⟩
  · by_contra hok
    exact (faultReach_resident h).1.lost hok hstep hkept
  · exact fun hok => ((faultReach_resident h).1.step hok hstep).2

/-- The fault of thread `t` in page `p` in which it then fills the page with `t`. -/
def firstFault (t p : ℕ) : Fault ℕ := ⟨t, p, 0, fun _ => 1600, fun _ => t⟩

/-- The trace after the handler has put the page of `f` at home in state `s`. -/
def Trace.after (τ : Trace ℕ) (f : Fault ℕ) (s : State ℕ) : Trace ℕ :=
  ⟨f.leave s, f.record τ.written (s.memory f.page), some (f.thread, f.page)⟩

/-- The trace before the first fault. -/
def noFault : Trace ℕ :=
  ⟨buildKernalSpace (fun _ => 0) ⟨fun _ => 0, 436⟩ (fun _ => 0), fun _ _ => none, none⟩

/-- Thread 1 has faulted in page 0. -/
def oneFault : Trace ℕ :=
  noFault.after (firstFault 1 0)
    ((((firstFault 1 0).enter noFault.state).mprotect 0 .PROT_READ_WRITE).claimFrame 0)

/-- Then thread 2 has faulted in page 0, which displaced the page of thread 1. -/
def twoFaults : Trace ℕ :=
  oneFault.after (firstFault 2 0)
    (swapPage (((firstFault 2 0).enter oneFault.state).claimFrame 1) 0 1 0)

theorem oneFault_step : FaultStep noFault (firstFault 1 0) oneFault := by
  refine ⟨by decide, by decide, by decide, ⟨0, by decide, rfl⟩, _, ?_, rfl⟩
  rw [pageFaultHandler_eq _ (by decide) (by decide)]
  exact servePage_eq_claim (by decide) rfl (by decide) (fun _ _ => rfl) (fun _ _ => rfl)

theorem oneFault_frames (n : ℕ) :
    oneFault.state.table.frames n = if n = 0 then ⟨1, 0, -1, true⟩ else ⟨0, n, -1, false⟩ := by
  simp [oneFault, Trace.after, Fault.leave, Fault.enter, State.claimFrame, State.mprotect, noFault,
    buildKernalSpace, firstFault]

theorem twoFaults_step : FaultStep oneFault (firstFault 2 0) twoFaults := by
  refine ⟨by decide, by decide, by decide, ⟨1, by decide, by rw [oneFault_frames]; rfl⟩, _, ?_, rfl⟩
  rw [pageFaultHandler_eq _ (by decide) (by decide)]
  set s := (firstFault 2 0).enter oneFault.state with hs
  have hframes (n : ℕ) : s.table.frames n = if n = 0 then ⟨1, 0, -1, true⟩ else ⟨0, n, -1, false⟩ :=
    oneFault_frames n
  have hcurr : s.currThread = 2 := rfl
  have hfree : s.findFrame isFree = some 1 := by
    refine State.findFrame_eq_some.mpr ⟨by simp [isFree, hframes], by decide, fun m hm => ?_⟩
    have : m = 0 := by omega
    simp [isFree, hframes, this]
  refine servePage_eq_displace (by decide) ?_ ?_ (fun n _ => ?_) (fun _ _ => rfl) hfree
  · simp [hframes, firstFault]
  · simp [hframes, hcurr, firstFault]
  · simp only [State.returnsTo, hframes, hcurr]
    split <;> simp

theorem twoFaults_frames (n : ℕ) :
    twoFaults.state.table.frames n =
      if n = 0 then ⟨2, 0, -1, true⟩ else if n = 1 then ⟨1, 1, 0, true⟩
      else ⟨0, n, -1, false⟩ := by
  change (swapPage (((firstFault 2 0).enter oneFault.state).claimFrame 1) 0 1 0).table.frames n = _
  rw [swapPage_frames]
  simp only [State.claimFrame, Fault.enter, Table.setFrame_frames, oneFault_frames]
  grind [firstFault]

/-- Both faults of that run meet the condition. -/
theorem twoFaults_reach : FaultReach WantedFrameAtHome twoFaults := by
  refine .step (.step (.start ⟨_, _, _, rfl⟩) ?_ oneFault_step) ?_ twoFaults_step
  · exact fun hocc => absurd rfl hocc
  · intro _
    simp [State.homeAt, oneFault_frames, firstFault]

/-- The theorem at the run of thread 1 and then thread 2 in page 0. -/
theorem pages_kept_twoFaults : twoFaults.PagesKept :=
  pages_kept_with_room.1 _ twoFaults_reach

/-- A third fault displaces the page of thread 1 a second time and loses it: its
node is then labelled with frame 1, where it was, and not with its home. -/
theorem page_lost_with_room :
    ∃ τ : Trace ℕ, FaultReach (fun _ _ => True) τ ∧ ¬ τ.PagesKept := by
  set s := (firstFault 3 1).enter twoFaults.state with hs
  have hframes (n : ℕ) : s.table.frames n = if n = 0 then ⟨2, 0, -1, true⟩
      else if n = 1 then ⟨1, 1, 0, true⟩ else ⟨0, n, -1, false⟩ := twoFaults_frames n
  have hcurr : s.currThread = 3 := rfl
  have hfree : s.findFrame isFree = some 2 := by
    refine State.findFrame_eq_some.mpr ⟨by simp [isFree, hframes], by decide, fun m hm => ?_⟩
    rcases (by omega : m = 0 ∨ m = 1) with rfl | rfl <;> simp [isFree, hframes]
  have hserve : servePage s 1 = some (swapPage (s.claimFrame 2) 1 2 0) := by
    refine servePage_eq_displace (by decide) ?_ ?_ (fun n _ => ?_) (fun _ _ => rfl) hfree
    · simp [hframes]
    · simp [hframes, hcurr]
    · simp only [State.returnsTo, hframes, hcurr]
      split
      · simp
      · split <;> simp
  have hstep : FaultStep twoFaults (firstFault 3 1)
      (twoFaults.after (firstFault 3 1) (swapPage (s.claimFrame 2) 1 2 0)) := by
    refine ⟨by decide, by decide, by decide, ⟨2, by decide, ?_⟩, _, ?_, rfl⟩
    · rw [twoFaults_frames]
      rfl
    · rw [pageFaultHandler_eq _ (by decide) (by decide)]
      exact hserve
  refine ⟨_, .step (.step (.step (.start ⟨_, _, _, rfl⟩) trivial oneFault_step) trivial
    twoFaults_step) trivial hstep, ?_⟩
  refine (faultReach_resident twoFaults_reach).1.lost ?_ hstep
  intro hok
  have hhome := hok (by rw [twoFaults_frames]; decide)
  rw [State.homeAt, twoFaults_frames] at hhome
  exact absurd hhome (by decide)

end SimpleOs.Paging
