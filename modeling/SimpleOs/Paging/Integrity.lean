import SimpleOs.Paging.Serving

/-!
# What is stored, and what is handed out

Faults move pages between the frames and the swap file, and sometimes record a
wrong home for a page they send away. Its contents are not at risk: while a
thread does not run, its pages are carried along and stay as they are. In the
other direction, a place that is handed out as a new page holds nothing that
any thread has written, as long as the handler does not read behind the end of
the swap file.
-/

namespace SimpleOs.Paging

variable {Page : Type*} {s s' : State Page} {t p : ℕ}

/-! ## The pages of a sleeping thread -/

/-- Every page of thread `t` is carried along `σ` with its contents, and nothing
else becomes a page of `t`. -/
structure CarriesFor (s s' : State Page) (t : ℕ) (σ : Equiv.Perm Place) : Prop where
  /-- Places that exist are exchanged with each other. -/
  valid : ∀ x, (σ x).Valid ↔ x.Valid
  /-- The pages of the thread are those that were. -/
  thread : ∀ x, s'.threadAt (σ x) = t ↔ s.threadAt x = t
  /-- The contents of those pages are carried along. -/
  content : ∀ x, s.threadAt x = t → s'.contentAt (σ x) = s.contentAt x

/-- A state carries its pages to itself. -/
theorem CarriesFor.refl (s : State Page) (t : ℕ) : CarriesFor s s t (Equiv.refl _) :=
  ⟨fun _ => Iff.rfl, fun _ => Iff.rfl, fun _ _ => rfl⟩

/-- Pages that are carried twice are carried. -/
theorem CarriesFor.trans {s₁ : State Page} {σ τ : Equiv.Perm Place} (h : CarriesFor s s₁ t σ)
    (h' : CarriesFor s₁ s' t τ) : CarriesFor s s' t (σ.trans τ) := by
  refine ⟨fun x => ?_, fun x => ?_, fun x hx => ?_⟩ <;> rw [Equiv.trans_apply]
  · exact (h'.valid _).trans (h.valid x)
  · exact (h'.thread _).trans (h.thread x)
  · exact (h'.content _ ((h.thread x).mpr hx)).trans (h.content x hx)

/-- A fault of another thread carries the pages of `t`. -/
theorem Carries.carriesFor {σ : Equiv.Perm Place} (h : Carries s s' p σ)
    (hs : ∀ x, s.threadAt x ≠ 0 → s.Stored x) (ht : t ≠ 0) (hne : s.currThread ≠ t) :
    CarriesFor s s' t σ := by
  refine ⟨h.valid, fun x => ⟨fun hx => ?_, fun hx => ?_⟩, fun x hx => ?_⟩
  · by_cases hfree : s.threadAt x = 0
    · rcases h.free x hfree with hzero | ⟨_, hcurr⟩
      · exact absurd (hx.symm.trans hzero) ht
      · exact absurd (hcurr.symm.trans hx) hne
    · rw [← h.thread x hfree, hx]
  · rw [h.thread x (by rwa [hx]), hx]
  · exact h.content x (Or.inl (hs x (by rwa [hx])))

section Sleeping

variable [Zero Page]

/-- A frame of another thread is not touched by a context switch. -/
theorem contextSwitch_other {thread_id n : ℕ} {exiting : Bool}
    (hother : (s.table.frames n).threadid ≠ s.currThread) :
    SameFrame s (contextSwitch s thread_id exiting) n := by
  rcases contextSwitch_frame s thread_id n exiting with hsame | ⟨hown, _⟩
  · exact hsame
  · exact absurd hown hother

/-- A frame of the outgoing thread stays with it or is freed. -/
theorem contextSwitch_own {thread_id n : ℕ} {exiting : Bool}
    (hown : (s.table.frames n).threadid = s.currThread) :
    ((contextSwitch s thread_id exiting).table.frames n).threadid = s.currThread ∨
      ((contextSwitch s thread_id exiting).table.frames n).threadid = 0 := by
  rcases contextSwitch_frame s thread_id n exiting with hsame | ⟨_, hsame⟩
  · exact Or.inl (by rw [hsame.1, hown])
  · rw [hsame.1]
    cases exiting
    · exact Or.inl hown
    · exact Or.inr (by simp [protectFrame, State.mprotect])

/-- A context switch away from another thread carries the pages of `t`. -/
theorem contextSwitch_carriesFor {thread_id : ℕ} {exiting : Bool} (ht : t ≠ 0)
    (hne : s.currThread ≠ t) :
    CarriesFor s (contextSwitch s thread_id exiting) t (Equiv.refl _) := by
  obtain ⟨hslots, hfile, hstack⟩ := contextSwitch_swap s thread_id exiting
  refine ⟨fun _ => Iff.rfl, ?_, ?_⟩
  · rintro (n | k)
    · simp only [Equiv.refl_apply, State.threadAt]
      by_cases hown : (s.table.frames n).threadid = s.currThread
      · have hnot : (s.table.frames n).threadid ≠ t := by
          rwa [hown]
        refine iff_of_false ?_ hnot
        rcases contextSwitch_own hown with heq | heq <;> rw [heq]
        · exact hne
        · exact ht.symm
      · rw [(contextSwitch_other hown).1]
    · simp only [Equiv.refl_apply, State.threadAt, hslots]
  · rintro (n | k) hx
    · have hother : (s.table.frames n).threadid ≠ s.currThread := by
        have howner : (s.table.frames n).threadid = t := hx
        rw [howner]
        exact hne.symm
      exact (contextSwitch_other hother).2.1
    · simp only [Equiv.refl_apply, State.contentAt, hfile, hstack]

/-- One event while another thread runs carries the pages of `t`. -/
theorem accessStep_carriesFor {e : AccessEvent Page} (hsteady : s.Steady) (hiso : s.Isolated)
    (ht : t ≠ 0) (hne : s.currThread ≠ t) (hstep : accessStep s e = some s') :
    ∃ σ, CarriesFor s s' t σ := by
  cases e with
  | charge pages =>
    cases hstep
    refine ⟨Equiv.refl _, fun _ => Iff.rfl, ?_, ?_⟩
    · rintro (n | k) <;> exact Iff.rfl
    · rintro (n | k) _ <;> rfl
  | access page offset write =>
    obtain ⟨hp, ⟨_, hserve⟩ | ⟨hopen, rfl⟩⟩ := accessStep_access hstep
    · have hservice := servePage_service hp hsteady.running hsteady.hand hserve
      obtain ⟨σ, hcarries, _⟩ := hservice.carries hp
      exact ⟨σ, hcarries.carriesFor hsteady.stored ht hne⟩
    · -- The running thread writes to an open frame, which is its own.
      have howner := hiso page hp hopen
      refine ⟨Equiv.refl _, fun _ => Iff.rfl, ?_, ?_⟩
      · rintro (n | k) <;> exact Iff.rfl
      rintro (n | k) hx
      · have hnp : n ≠ page := by
          rintro rfl
          exact hne (howner.symm.trans hx)
        simp [State.contentAt, hnp]
      · rfl
  | contextSwitch thread_id exiting =>
    obtain ⟨_, rfl⟩ := accessStep_contextSwitch hstep
    exact ⟨_, contextSwitch_carriesFor ht hne⟩

/-- While a thread sleeps, its pages stay intact. In every stretch of a run in
which it never runs, whatever the others fault on, write, evict and leave behind
when they exit, every page it had is in one place, with the same contents, and no
other page has become its own. The switches of the run must reach every open
frame, so that nobody writes to a frame of another thread. -/
theorem sleeping_pages_intact {l : List (Runs.Turn (State Page) (AccessEvent Page))}
    (hs : AccessReach SwitchReachesOpen s) (ht : t ≠ 0)
    (hrun : Runs.Path (fun s e s' => SwitchReachesOpen s e ∧ accessStep s e = some s') s l s')
    (hsleeps : ∀ turn ∈ l, turn.before.currThread ≠ t) :
    ∃ σ : Equiv.Perm Place, (∀ x, (σ x).Valid ↔ x.Valid) ∧
      ∀ x, (s'.threadAt (σ x) = t ↔ s.threadAt x = t) ∧
        (s.threadAt x = t → s'.contentAt (σ x) = s.contentAt x) := by
  have hinv : ∀ turn ∈ l, turn.before.Steady ∧ turn.before.Isolated := by
    have hkeeps (s : State Page) (e : AccessEvent Page) (s' : State Page)
        (h : s.Steady ∧ s.Isolated) (hstep : SwitchReachesOpen s e ∧ accessStep s e = some s') :
        s'.Steady ∧ s'.Isolated :=
      ⟨accessStep_steady h.1 hstep.2,
        (accessStep_isolated ⟨h.2, h.1.running⟩ hstep.1 hstep.2).1⟩
    have hstart : s.Isolated ∧ s.currThread ≠ 0 := by
      refine hs.invariant ?_ fun s e s' h hok hstep => accessStep_isolated h hok hstep
      rintro s ⟨memory, swapFile, stack, rfl⟩
      exact ⟨fun n _ hopen => absurd rfl hopen, one_ne_zero⟩
    intro turn hturn
    exact ((hrun.invariant hkeeps ⟨hs.steady, hstart.1⟩).2 turn hturn).1
  have hcarried : ∃ σ, CarriesFor s s' t σ := by
    apply hrun.relates (R := fun s s' => ∃ σ, CarriesFor s s' t σ)
    · exact fun s => ⟨_, .refl s t⟩
    · rintro s s₁ s' ⟨σ, hσ⟩ ⟨τ, hτ⟩
      exact ⟨_, hσ.trans hτ⟩
    · intro turn hturn
      obtain ⟨hsteady, hiso⟩ := hinv turn hturn
      exact accessStep_carriesFor hsteady hiso ht (hsleeps turn hturn)
        (hrun.step_of_mem hturn).2
  obtain ⟨σ, hσ⟩ := hcarried
  exact ⟨σ, hσ.valid, fun x => ⟨hσ.thread x, hσ.content x⟩⟩

end Sleeping

/-- Thread 1 has touched page 0, thread 2 runs and has been charged a page. -/
def sleepingOne : State ℕ :=
  let s := contextSwitch (firstTouch 0) 2 false
  { s with
    thread_page_count := Function.update s.thread_page_count s.currThread
      (s.thread_page_count s.currThread + 1)
    pagesLeft := s.pagesLeft - 1 }

/-- The only open frame of a thread that has touched page 0 is the first. -/
theorem firstTouch_noGap : (firstTouch 0).NoGapBelowOpen := by
  intro n _ hopen m hm
  have hn : n = 0 := by
    by_contra hne
    simp [firstTouch, chargedTwo, State.claimFrame, State.mprotect, buildKernalSpace, hne]
      at hopen
  obtain rfl : m = 0 := by omega
  simp [firstTouch, chargedTwo, State.claimFrame, State.mprotect, buildKernalSpace]

/-- There is a run to that state whose switches reach every open frame. -/
theorem sleepingOne_reach : AccessReach SwitchReachesOpen sleepingOne := by
  have htouch : AccessReach SwitchReachesOpen (firstTouch 0) :=
    firstTouch_reach (by decide) fun _ => ⟨trivial, trivial⟩
  have hswitch : AccessReach SwitchReachesOpen (contextSwitch (firstTouch 0) 2 false) :=
    .step (e := .contextSwitch 2 false) htouch firstTouch_noGap rfl
  exact .step (e := .charge 1) hswitch trivial rfl

/-- Thread 2 may touch its first page. -/
theorem sleepingOne_count :
    sleepingOne.currThread = 2 ∧ sleepingOne.thread_page_count sleepingOne.currThread = 1 := by
  have hthread : (contextSwitch (firstTouch 0) 2 false).currThread = 2 :=
    (contextSwitch_eq (firstTouch 0) 2 false).2.2
  have hscan : SameElsewhere { firstTouch 0 with currThread := 2 }
      (protectFrom { firstTouch 0 with currThread := 2 } 1 false 0 frameCount) :=
    protectFrom_elsewhere
  have hcounts : (contextSwitch (firstTouch 0) 2 false).thread_page_count =
      (firstTouch 0).thread_page_count := hscan.2.2.2.1
  have hcharge : sleepingOne.thread_page_count =
      Function.update (contextSwitch (firstTouch 0) 2 false).thread_page_count
        (contextSwitch (firstTouch 0) 2 false).currThread
        ((contextSwitch (firstTouch 0) 2 false).thread_page_count
          (contextSwitch (firstTouch 0) 2 false).currThread + 1) := rfl
  have hthread' : sleepingOne.currThread = 2 := hthread
  refine ⟨hthread', ?_⟩
  rw [hcharge, hthread', hthread, hcounts, Function.update_self]
  rfl

/-- Thread 2 faults on page 0, whose frame holds the page of thread 1. Thread 1
still has a page with the same contents. -/
theorem sleeping_pages_intact_sleepingOne :
    ∃ s', accessStep sleepingOne (.access 0 0 id) = some s' ∧
      ∃ x : Place, s'.threadAt x = 1 ∧ s'.contentAt x = sleepingOne.memory 0 := by
  obtain ⟨hthread, hcount⟩ := sleepingOne_count
  obtain ⟨s', hstep⟩ : ∃ s', accessStep sleepingOne (.access 0 0 id) = some s' := by
    have hbound : 0 < frameCount ∧ 0 < PAGE_SIZE := by decide
    rw [accessStep, if_pos ⟨hbound.1, hbound.2, by rw [hcount]; rfl⟩]
    split
    · have hnone := servePage_eq_none_iff (p := 0) sleepingOne_reach.steady.hand
      rw [pageFaultHandler_eq sleepingOne hbound.1 hbound.2, ← Option.ne_none_iff_exists',
        ne_eq, hnone, hcount]
      decide
    · exact ⟨_, rfl⟩
  have hsame : SameFrame (firstTouch 0) (contextSwitch (firstTouch 0) 2 false) 0 ∨
      SameFrame (protectFrame (firstTouch 0) 0 false) (contextSwitch (firstTouch 0) 2 false) 0 :=
    (contextSwitch_frame (firstTouch 0) 2 0 false).imp_right And.right
  have howner : sleepingOne.threadAt (.frame 0) = 1 := by
    change ((contextSwitch (firstTouch 0) 2 false).table.frames 0).threadid = 1
    rcases hsame with hsame | hsame <;> rw [hsame.1] <;> rfl
  have hrun : Runs.Path (fun s e s' => SwitchReachesOpen s e ∧ accessStep s e = some s')
      sleepingOne [⟨sleepingOne, .access 0 0 id, s'⟩] s' := .cons ⟨trivial, hstep⟩ (.nil s')
  have hsleeps (turn : Runs.Turn (State ℕ) (AccessEvent ℕ))
      (hturn : turn ∈ [⟨sleepingOne, .access 0 0 id, s'⟩]) : turn.before.currThread ≠ 1 := by
    rw [List.mem_singleton.mp hturn, hthread]
    decide
  obtain ⟨σ, _, hσ⟩ := sleeping_pages_intact sleepingOne_reach one_ne_zero hrun hsleeps
  exact ⟨s', hstep, σ (.frame 0), (hσ _).1.mpr howner, (hσ _).2 howner⟩

section Fresh

variable [Zero Page]

/-! ## The contents of a new page -/

/-- Every free frame and every free page of the swap file holds contents with the property. -/
structure State.FreeBlank (s : State Page) (Blank : Page → Prop) : Prop where
  /-- Every free frame holds such contents. -/
  frames : ∀ n, (s.table.frames n).threadid = 0 → Blank (s.memory n)
  /-- The free pages of the swap file, where one behind the end is what a write further on
  would turn it into. -/
  slots : ∀ k, (s.table.slots k).threadid = 0 → Blank (s.swapFile.pages k)

/-- Serving a new page reads behind the end of the swap file: memory is full, and the
first free page of the swap file is not in the file. -/
def State.ReadsShort (s : State Page) : Prop :=
  (∀ n < frameCount, (s.table.frames n).threadid ≠ 0) ∧
    ∃ k, s.findSlot isFree = some k ∧ s.swapFile.size ≤ k

omit [Zero Page] in
/-- A frame that is free after a fault holds what a free frame held before. -/
theorem Service.free_frame (h : Service s p s') (hrunning : s.currThread ≠ 0) {n : ℕ}
    (hn : (s'.table.frames n).threadid = 0) :
    ∃ m, (s.table.frames m).threadid = 0 ∧ s'.memory n = s.memory m := by
  cases h with
  | home _ _ =>
    refine ⟨n, ?_, rfl⟩
    rw [← hn]
    exact ((touchFrame_label s p (.frame n)).1).symm
  | @frame m hlabel _ =>
    have howner : (s.table.frames m).threadid = s.currThread := hlabel.2.2.1
    rw [swapPage_threadid] at hn
    simp only [swapPage_memory, State.touchFrame, Table.setFrame_frames] at hn ⊢
    grind
  | @slot k e bit hlabel _ _ =>
    have howner : (s.table.slots k).threadid = s.currThread := hlabel.2.2.1
    rw [exchangeVictim_frames] at hn
    simp only [exchangeVictim_memory, State.afterSweep, State.touchSlot, Table.setBits_frames,
      Table.setBits_slots, Table.setSlot_frames, Table.setSlot_slots] at hn ⊢
    grind
  | claim _ _ =>
    refine ⟨n, ?_, rfl⟩
    simp only [State.claimFrame, State.mprotect, Table.setFrame_frames] at hn
    grind
  | @displace m _ _ _ hfree =>
    rw [swapPage_threadid] at hn
    simp only [swapPage_memory, State.claimFrame, Table.setFrame_frames] at hn ⊢
    grind
  | @evict k e bit _ _ _ _ _ =>
    rw [exchangeVictim_frames] at hn
    simp only [exchangeVictim_memory, State.afterSweep, State.claimSlot, Table.setBits_frames,
      Table.setSlot_frames, Table.setSlot_slots] at hn ⊢
    grind
  | stuck _ _ _ _ => exact ⟨n, hn, rfl⟩

omit [Zero Page] in
/-- A page of the swap file that is free after a fault was free and untouched, or holds what
a free frame held before. -/
theorem Service.free_slot (h : Service s p s') {k : ℕ} (hk : (s'.table.slots k).threadid = 0) :
    (s.table.slots k).threadid = 0 ∧ s'.swapFile.pages k = s.swapFile.pages k ∨
      ∃ m, (s.table.frames m).threadid = 0 ∧ s'.swapFile.pages k = s.memory m := by
  cases h with
  | home _ _ | frame _ _ | claim _ _ | displace _ _ _ _ | stuck _ _ _ _ => exact Or.inl ⟨hk, rfl⟩
  | @slot j e bit hlabel _ _ =>
    rw [exchangeVictim_slots] at hk
    simp only [exchangeVictim_swapFile, SwapFile.write, Function.update_apply, State.afterSweep,
      State.touchSlot, Table.setBits_frames, Table.setBits_slots, Table.setSlot_frames,
      Table.setSlot_slots] at hk ⊢
    grind
  | @evict j e bit _ _ _ _ _ =>
    rw [exchangeVictim_slots] at hk
    simp only [exchangeVictim_swapFile, SwapFile.write, Function.update_apply, State.afterSweep,
      State.claimSlot, Table.setBits_frames, Table.setBits_slots, Table.setSlot_frames,
      Table.setSlot_slots] at hk ⊢
    grind

omit [Zero Page] in
/-- A fault leaves free places blank. -/
theorem Service.freeBlank {Blank : Page → Prop} (h : Service s p s') (hrunning : s.currThread ≠ 0)
    (hs : s.FreeBlank Blank) : s'.FreeBlank Blank := by
  constructor
  · intro n hn
    obtain ⟨m, hm, heq⟩ := h.free_frame hrunning hn
    rw [heq]
    exact hs.frames m hm
  · intro k hk
    rcases h.free_slot hk with ⟨hfree, heq⟩ | ⟨m, hm, heq⟩
    · rw [heq]
      exact hs.slots k hfree
    · rw [heq]
      exact hs.frames m hm

/-- One event leaves the free places blank: only open frames are written, and an
exit zeroes what it frees. -/
theorem accessStep_freeBlank {Blank : Page → Prop} (hzero : Blank 0) {e : AccessEvent Page}
    (h : s.Steady ∧ s.FreeBlank Blank) (hstep : accessStep s e = some s') :
    s'.Steady ∧ s'.FreeBlank Blank := by
  refine ⟨accessStep_steady h.1 hstep, ?_⟩
  obtain ⟨hsteady, hblank⟩ := h
  cases e with
  | charge pages =>
    cases hstep
    exact ⟨hblank.frames, hblank.slots⟩
  | access page offset write =>
    obtain ⟨hp, ⟨_, hserve⟩ | ⟨hopen, rfl⟩⟩ := accessStep_access hstep
    · have hservice := servePage_service hp hsteady.running hsteady.hand hserve
      exact hservice.freeBlank hsteady.running hblank
    · have howned := hsteady.owned page hp hopen
      refine ⟨fun n hn => ?_, hblank.slots⟩
      have hnp : n ≠ page := by
        rintro rfl
        exact howned hn
      simpa [hnp] using hblank.frames n hn
  | contextSwitch thread_id exiting =>
    obtain ⟨_, rfl⟩ := accessStep_contextSwitch hstep
    obtain ⟨hslots, hfile, _⟩ := contextSwitch_swap s thread_id exiting
    constructor
    · intro n hn
      rcases contextSwitch_frame s thread_id n exiting with hsame | ⟨hown, hsame⟩
      · rw [hsame.1] at hn
        rw [hsame.2.1]
        exact hblank.frames n hn
      · rw [hsame.1] at hn
        rw [hsame.2.1]
        cases exiting
        · exact hblank.frames n hn
        · simpa [protectFrame, State.mprotect] using hzero
    · intro k hk
      rw [hslots] at hk
      rw [hfile]
      exact hblank.slots k hk

omit [Zero Page] in
/-- A new page is what a free place held, or what the buffer held if the read was short. -/
theorem Service.fresh {Blank : Page → Prop} (h : Service s p s') (hp : p < frameCount)
    (hs : s.FreeBlank Blank) (hclosed : s.prot p = .PROT_NONE) (hnew : s.Nowhere p)
    (hopen : s'.prot p ≠ .PROT_NONE) :
    (¬ s.ReadsShort → Blank (s'.memory p)) ∧ (s.ReadsShort → s'.memory p = s.stack 0) := by
  cases h with
  | home hx _ | frame hx _ | slot hx _ _ => exact absurd hx (hnew _)
  | claim _ hfree =>
    exact ⟨fun _ => hs.frames p hfree, fun hshort => absurd hfree (hshort.1 p hp)⟩
  | @displace n _ _ hn hfree =>
    refine ⟨fun _ => ?_, fun hshort => absurd hfree (hshort.1 n hn)⟩
    have hmemory : (swapPage (s.claimFrame n) p n 0).memory p = s.memory n := by
      rw [swapPage_memory]
      split
      · rename_i heq
        rw [heq]
        rfl
      · rw [if_pos rfl]
        rfl
    rw [hmemory]
    exact hs.frames n hfree
  | @evict k e bit _ hfull _ _ hfind =>
    have hfree := (State.free_of_findSlot hfind).2
    have hmemory : (exchangeVictim ((s.afterSweep e bit).claimSlot k) p e k).memory p =
        s.swapFile.read k (s.stack 0) := by
      rw [exchangeVictim_memory, if_pos rfl]
      rfl
    rw [hmemory, SwapFile.read]
    constructor
    · intro hwhole
      have hk : k < s.swapFile.size := by
        by_contra hge
        exact hwhole ⟨hfull, k, hfind, not_lt.mp hge⟩
      rw [if_pos hk]
      exact hs.slots k hfree
    · rintro ⟨_, j, hj, hsize⟩
      obtain rfl := Option.some.inj (hfind.symm.trans hj)
      exact if_neg (not_lt.mpr hsize)
  | stuck _ _ _ _ => exact absurd hclosed hopen

/-- What is behind a new page. Whatever property the zero page, all pages and the swap file
have when the manager is set up, in every run, with any writes of any threads, the page that a
fault opens for a thread that had it nowhere has it too, so it holds nothing that a thread has
written. The exception is a full memory whose first free page of the swap file lies behind the
end of the file: the new page is then what the buffer happens to hold. -/
theorem fresh_pages_blank (Blank : Page → Prop) (hzero : Blank 0)
    (hs : Runs.Reach
      (fun s => ∃ memory swapFile stack, (∀ n, Blank (memory n)) ∧
        (∀ k, Blank (swapFile.pages k)) ∧ s = buildKernalSpace memory swapFile stack)
      (fun s e s' => accessStep s e = some s') (fun _ _ => True) s)
    {offset : ℕ} {write : Page → Page} (hclosed : s.prot p = .PROT_NONE)
    (hstep : accessStep s (.access p offset write) = some s') (hnew : s.Nowhere p)
    (hopen : s'.prot p ≠ .PROT_NONE) :
    (¬ s.ReadsShort → Blank (s'.memory p)) ∧ (s.ReadsShort → s'.memory p = s.stack 0) := by
  have hinv : s.Steady ∧ s.FreeBlank Blank := by
    refine hs.invariant ?_ fun s e s' h _ hstep => accessStep_freeBlank hzero h hstep
    rintro s ⟨memory, swapFile, stack, hmemory, hfile, rfl⟩
    have hstart : AccessReach (fun _ _ => True) (buildKernalSpace memory swapFile stack) :=
      .start ⟨_, _, _, rfl⟩
    exact ⟨hstart.steady, fun n _ => hmemory n, fun k _ => hfile k⟩
  obtain ⟨hsteady, hblank⟩ := hinv
  obtain ⟨hp, ⟨_, hserve⟩ | ⟨hne, _⟩⟩ := accessStep_access hstep
  · have hservice := servePage_service hp hsteady.running hsteady.hand hserve
    exact hservice.fresh hp hblank hclosed hnew hopen
  · exact absurd hclosed hne

end Fresh

/-- Before the first touch the page is nowhere. -/
theorem chargedTwo_nowhere (p : ℕ) : chargedTwo.Nowhere p := by
  rintro (n | k) ⟨_, hocc, _⟩ <;> exact hocc rfl

/-- The first access of page 0 claims frame 0, which is free. -/
theorem firstTouch_step (write : ℕ → ℕ) :
    accessStep chargedTwo (.access 0 0 write) = some (firstTouch 0) := by
  have hserve : servePage chargedTwo 0 = some (firstTouch 0) := by
    apply servePage_eq_claim
    · decide
    · rfl
    · exact one_ne_zero
    · intro n _
      simp [State.returnsTo, chargedTwo, buildKernalSpace]
    · intro k _
      simp [State.returnsTo, chargedTwo, buildKernalSpace]
  have hbound : 0 < frameCount ∧ 0 < PAGE_SIZE := by decide
  have hclosed : chargedTwo.prot 0 = .PROT_NONE := rfl
  rw [accessStep, if_pos ⟨hbound.1, hbound.2, by decide⟩, if_pos hclosed,
    pageFaultHandler_eq _ hbound.1 hbound.2, hserve]

/-- The first page a thread touches is blank if all pages were at the start. -/
theorem fresh_pages_blank_firstTouch : (firstTouch 0).memory 0 = 0 := by
  have hcharged : Runs.Reach
      (fun s => ∃ memory swapFile stack, (∀ n, memory n = 0) ∧
        (∀ k, swapFile.pages k = 0) ∧ s = buildKernalSpace memory swapFile stack)
      (fun s e s' => accessStep s e = some s') (fun _ _ => True) chargedTwo :=
    .step (.start ⟨_, _, _, fun _ => rfl, fun _ => rfl, rfl⟩) trivial
      (rfl : accessStep _ (.charge 2) = some chargedTwo)
  have hroom : ¬ chargedTwo.ReadsShort := fun hshort => hshort.1 0 (by decide) rfl
  exact (fresh_pages_blank (fun c : ℕ => c = 0) rfl hcharged rfl (firstTouch_step id)
    (chargedTwo_nowhere 0) (by decide)).1 hroom

end SimpleOs.Paging
