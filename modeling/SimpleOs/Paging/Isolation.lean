import Mathlib.Algebra.GroupWithZero.Nat
import SimpleOs.Library.Runs
import SimpleOs.Paging.Eviction

/-!
# Isolation of the threads' frames

A thread reaches a frame without a fault exactly when the frame is not
`PROT_NONE`. The fault handler opens frames for the running thread only, so
isolation is decided by the scan of `protectPages` at a context switch, which
gives up at the first free frame. Isolation survives a switch exactly when no
free frame lies below an open one.
-/

namespace SimpleOs.Paging

variable {Page : Type*}

/-- Every open frame belongs to the running thread. -/
def State.Isolated (s : State Page) : Prop :=
  ∀ n < frameCount, s.prot n ≠ .PROT_NONE → (s.table.frames n).threadid = s.currThread

/-- No free frame lies at or below an open frame. -/
def State.NoGapBelowOpen (s : State Page) : Prop :=
  ∀ n < frameCount, s.prot n ≠ .PROT_NONE → ∀ m ≤ n, (s.table.frames m).threadid ≠ 0

/-- What a thread and the scheduler do with the pages. -/
inductive AccessEvent (Page : Type*) where
  /-- `myallocate` charges pages to the running thread. -/
  | charge (pages : ℤ)
  /-- The running thread touches an address of a page, and if it is open may write it. -/
  | access (page offset : ℕ) (write : Page → Page)
  /-- `scheduler` switches to another thread, with the old one exiting or not. -/
  | contextSwitch (thread_id : ℕ) (exiting : Bool)

/-- The part of `scheduler` that concerns pages. `currThread` is already the new
thread when the pages of the outgoing one are protected. -/
def contextSwitch [Zero Page] (s : State Page) (thread_id : ℕ) (exiting : Bool) : State Page :=
  protectPages { s with currThread := thread_id } s.currThread exiting

/-- One event. An access of a closed page faults and is served by the handler;
the repeated access is an event of its own. -/
def accessStep [Zero Page] (s : State Page) : AccessEvent Page → Option (State Page)
  | .charge pages =>
    some { s with
      thread_page_count := Function.update s.thread_page_count s.currThread
        (s.thread_page_count s.currThread + pages)
      pagesLeft := s.pagesLeft - pages }
  | .access page offset write =>
    if page < frameCount ∧ offset < PAGE_SIZE ∧
        (page + 1 : ℕ) ≤ s.thread_page_count s.currThread then
      if s.prot page = .PROT_NONE then pageFaultHandler s (page * PAGE_SIZE + offset)
      else some { s with memory := Function.update s.memory page (write (s.memory page)) }
    else none
  | .contextSwitch thread_id exiting =>
    if thread_id ≠ 0 ∧ thread_id ≠ s.currThread then some (contextSwitch s thread_id exiting)
    else none

/-- An access is of a page of the region, which is served if it is closed and written if it
is open. -/
theorem accessStep_access [Zero Page] {s s' : State Page} {page offset : ℕ} {write : Page → Page}
    (hstep : accessStep s (.access page offset write) = some s') :
    page < frameCount ∧ (s.prot page = .PROT_NONE ∧ servePage s page = some s' ∨
      s.prot page ≠ .PROT_NONE ∧
        s' = { s with memory := Function.update s.memory page (write (s.memory page)) }) := by
  simp only [accessStep] at hstep
  split at hstep
  · rename_i hbound
    refine ⟨hbound.1, ?_⟩
    split at hstep
    · rename_i hclosed
      rw [pageFaultHandler_eq s hbound.1 hbound.2.1] at hstep
      exact Or.inl ⟨hclosed, hstep⟩
    · rename_i hopen
      exact Or.inr ⟨hopen, (Option.some.inj hstep).symm⟩
  · cases hstep

/-- A context switch is to another thread. -/
theorem accessStep_contextSwitch [Zero Page] {s s' : State Page} {thread_id : ℕ} {exiting : Bool}
    (hstep : accessStep s (.contextSwitch thread_id exiting) = some s') :
    (thread_id ≠ 0 ∧ thread_id ≠ s.currThread) ∧ s' = contextSwitch s thread_id exiting := by
  simp only [accessStep] at hstep
  split at hstep
  · rename_i hne
    exact ⟨hne, (Option.some.inj hstep).symm⟩
  · cases hstep

/-- The states reached from `buildKernalSpace` by events that meet `ok`. -/
def AccessReach [Zero Page] (ok : State Page → AccessEvent Page → Prop) : State Page → Prop :=
  Runs.Reach (fun s => ∃ memory swapFile stack, s = buildKernalSpace memory swapFile stack)
    (fun s e s' => accessStep s e = some s') ok

/-- The condition on an event: a context switch finds no free frame below an
open one. -/
def SwitchReachesOpen (s : State Page) : AccessEvent Page → Prop
  | .contextSwitch _ _ => s.NoGapBelowOpen
  | _ => True

/-! ## The handler -/

/-- Isolation up to one frame. -/
def State.IsolatedExcept (s : State Page) (p : ℕ) : Prop :=
  ∀ n < frameCount, n ≠ p → s.prot n ≠ .PROT_NONE → (s.table.frames n).threadid = s.currThread

theorem State.Isolated.except {s : State Page} (h : s.Isolated) (p : ℕ) : s.IsolatedExcept p :=
  fun n hn _ hopen => h n hn hopen

/-- The protections after an exchange of two frames. -/
theorem swapPage_prot (s : State Page) (a b type n : ℕ) :
    (swapPage s a b type).prot n =
      if n = b then .PROT_NONE else if n = a then .PROT_READ_WRITE else s.prot n := by
  simp only [swapPage, State.mprotect, Function.update_apply]
  grind

/-- The owners after an exchange of two frames. -/
theorem swapPage_threadid (s : State Page) (a b type n : ℕ) :
    ((swapPage s a b type).table.frames n).threadid =
      if n = a then (s.table.frames b).threadid
      else if n = b then (s.table.frames a).threadid else (s.table.frames n).threadid := by
  rw [swapPage_frames]
  split
  · rfl
  · split <;> rfl

/-- An exchange of frames closes the second one and leaves the others alone. -/
theorem swapPage_isolatedExcept {s : State Page} {a b type : ℕ} (h : s.IsolatedExcept a) :
    (swapPage s a b type).IsolatedExcept a := by
  intro n hn hna hopen
  rw [swapPage_prot] at hopen
  rw [swapPage_threadid, if_neg hna]
  by_cases hnb : n = b
  · simp [hnb] at hopen
  · rw [if_neg hnb, if_neg hna] at hopen
    rw [if_neg hnb]
    exact h n hn hna hopen

/-- Giving a frame to a page of the running thread restores isolation. -/
theorem swapPage_isolated {s : State Page} {a b type : ℕ} (h : s.IsolatedExcept a)
    (hb : (s.table.frames b).threadid = s.currThread) : (swapPage s a b type).Isolated := by
  intro n hn hopen
  by_cases hna : n = a
  · rw [swapPage_threadid, if_pos hna]
    exact hb
  · exact swapPage_isolatedExcept h n hn hna hopen

/-- Bringing in a page of the running thread restores isolation. -/
theorem swapFileGrab_isolated {s : State Page} {a k : ℕ} (h : s.IsolatedExcept a)
    (hk : (s.table.slots k).threadid = s.currThread) : (swapFileGrab s a k).Isolated := by
  intro n hn hopen
  by_cases hna : n = a
  · simpa [swapFileGrab, State.mprotect, hna] using hk
  · have hprot : s.prot n ≠ .PROT_NONE := by
      simpa [swapFileGrab, State.mprotect, hna] using hopen
    simpa [swapFileGrab, State.mprotect, hna] using h n hn hna hprot

/-- An exchange with the swap file through a victim keeps isolation. -/
theorem exchangeVictim_isolated {s : State Page} {a e k : ℕ} (h : s.Isolated)
    (hk : (s.table.slots k).threadid = s.currThread) : (exchangeVictim s a e k).Isolated := by
  unfold exchangeVictim
  split
  · exact swapFileGrab_isolated (h.except a) hk
  · exact swapFileGrab_isolated (swapPage_isolatedExcept (h.except a)) hk

/-- Choosing a victim keeps isolation and the owners of the swap nodes. -/
theorem evictPage_isolated {s s' : State Page} {e : ℕ} (h : s.Isolated)
    (hevict : evictPage s = some (e, s')) :
    s'.Isolated ∧ s'.currThread = s.currThread ∧ s'.table.slots = s.table.slots := by
  obtain ⟨_, bit, rfl, _⟩ := evictPage_eq_some hevict
  exact ⟨fun n hn hopen => h n hn hopen, rfl, rfl⟩

theorem serveByEviction_isolated {s s' : State Page} {ptr : PageNode} (h : s.Isolated)
    (hserve : serveByEviction s ptr = some s') : s'.Isolated := by
  unfold serveByEviction at hserve
  obtain ⟨⟨e, t⟩, hevict, rfl⟩ := Option.map_eq_some_iff.mp hserve
  obtain ⟨ht, _, _⟩ := evictPage_isolated h hevict
  dsimp only
  split
  · apply exchangeVictim_isolated
    · exact fun n hn hopen => ht n hn hopen
    · simp [State.claimSlot]
  · exact ht

theorem serveNewPage_isolated {s s' : State Page} {p : ℕ} (h : s.Isolated)
    (hserve : serveNewPage s (s.table.frames p) = some s') : s'.Isolated := by
  unfold serveNewPage at hserve
  split at hserve
  · cases hserve
    intro n hn hopen
    by_cases hnp : n = p
    · simp [State.claimFrame, State.mprotect, hnp]
    · have hprot : s.prot n ≠ .PROT_NONE := by
        simpa [State.claimFrame, State.mprotect, hnp] using hopen
      simpa [State.claimFrame, State.mprotect, hnp] using h n hn hprot
  · split at hserve
    · rename_i n _
      cases hserve
      apply swapPage_isolated
      · intro m hm _ hopen
        simp only [State.claimFrame, Table.setFrame_frames]
        split
        · rfl
        · exact h m hm hopen
      · simp [State.claimFrame]
    · exact serveByEviction_isolated h hserve

/-- The fault handler keeps isolation: every frame it opens ends up with a page
of the running thread. -/
theorem servePage_isolated {s s' : State Page} {p : ℕ} (h : s.Isolated)
    (hserve : servePage s p = some s') : s'.Isolated := by
  have htouch (m : ℕ) : (s.touchFrame m).Isolated := by
    intro n hn hopen
    simp only [State.touchFrame, Table.setFrame_frames]
    split
    · rename_i heq
      subst heq
      exact h n hn hopen
    · exact h n hn hopen
  unfold servePage at hserve
  simp only [Table.frame_offset] at hserve
  split at hserve
  · cases hserve
  · split at hserve
    · rename_i hown
      cases hserve
      intro n hn hopen
      by_cases hnp : n = p
      · simpa [State.touchFrame, State.mprotect, hnp] using hown.1
      · exact htouch p n hn (by simpa [State.mprotect, hnp] using hopen)
    · split at hserve
      · rename_i n hfind
        cases hserve
        have hown := (State.findFrame_eq_some.mp hfind).1
        apply swapPage_isolated ((htouch n).except p)
        simpa [State.touchFrame] using (of_decide_eq_true hown).1
      · split at hserve
        · rename_i slot hfind
          have hown := (State.findSlot_eq_some.mp hfind).1
          obtain ⟨⟨e, t⟩, hevict, rfl⟩ := Option.map_eq_some_iff.mp hserve
          have hmark : (s.touchSlot slot).Isolated := h
          obtain ⟨ht, hcurr, hslots⟩ := evictPage_isolated hmark hevict
          apply exchangeVictim_isolated ht
          rw [hslots, hcurr]
          simpa [State.touchSlot] using (of_decide_eq_true hown).1
        · exact serveNewPage_isolated h hserve

theorem exchangeVictim_currThread (s : State Page) (a e k : ℕ) :
    (exchangeVictim s a e k).currThread = s.currThread := by
  unfold exchangeVictim
  split <;> rfl

/-- The fault handler does not change the running thread. -/
theorem servePage_currThread {s s' : State Page} {p : ℕ} (hserve : servePage s p = some s') :
    s'.currThread = s.currThread := by
  have hevict {t t' : State Page} {e : ℕ} (h : evictPage t = some (e, t')) :
      t'.currThread = t.currThread := by
    obtain ⟨_, bit, rfl, _⟩ := evictPage_eq_some h
    rfl
  simp only [servePage, serveNewPage, serveByEviction] at hserve
  split at hserve
  · cases hserve
  · split at hserve
    · cases hserve
      rfl
    · split at hserve
      · cases hserve
        rfl
      · split at hserve
        · obtain ⟨⟨e, t⟩, he, rfl⟩ := Option.map_eq_some_iff.mp hserve
          have ht := hevict he
          exact (exchangeVictim_currThread t _ _ _).trans ht
        · split at hserve
          · cases hserve
            rfl
          · split at hserve
            · cases hserve
              rfl
            · obtain ⟨⟨e, t⟩, he, rfl⟩ := Option.map_eq_some_iff.mp hserve
              have ht := hevict he
              dsimp only
              split
              · exact (exchangeVictim_currThread ..).trans ht
              · exact ht

/-! ## The scan of `protectPages` -/

section Scan

variable [Zero Page]

/-- The scan from frame `i` gets to frame `n`: no frame between them is free. -/
def State.ScanReaches (s : State Page) (i n : ℕ) : Prop :=
  i ≤ n ∧ ∀ m, i ≤ m → m ≤ n → (s.table.frames m).threadid ≠ 0

@[simp] theorem protectFrame_currThread (s : State Page) (n : ℕ) (exiting : Bool) :
    (protectFrame s n exiting).currThread = s.currThread := by
  cases exiting <;> rfl

/-- Protecting a frame closes it and changes no other protection. -/
theorem protectFrame_prot (s : State Page) (n m : ℕ) (exiting : Bool) :
    (protectFrame s n exiting).prot m = if m = n then .PROT_NONE else s.prot m := by
  cases exiting <;> simp only [protectFrame, State.mprotect, Function.update_apply] <;> grind

/-- Protecting a frame changes no other node. -/
theorem protectFrame_frames (s : State Page) {n m : ℕ} (exiting : Bool) (hne : m ≠ n) :
    (protectFrame s n exiting).table.frames m = s.table.frames m := by
  cases exiting <;> simp [protectFrame, State.mprotect, hne]

@[simp] theorem protectFrom_currThread (s : State Page) (threadID : ℕ) (exiting : Bool)
    (i remaining : ℕ) :
    (protectFrom s threadID exiting i remaining).currThread = s.currThread := by
  induction remaining generalizing s i with
  | zero => rfl
  | succ remaining ih =>
    rw [protectFrom]
    split
    · split <;> simp [ih]
    · rfl

/-- The scan leaves alone the frames it does not reach and those of other threads. -/
theorem protectFrom_of_not {s : State Page} {threadID i n : ℕ} (exiting : Bool) (remaining : ℕ)
    (h : ¬ (s.ScanReaches i n ∧ (s.table.frames n).threadid = threadID)) :
    (protectFrom s threadID exiting i remaining).prot n = s.prot n ∧
      (protectFrom s threadID exiting i remaining).table.frames n = s.table.frames n := by
  induction remaining generalizing s i with
  | zero => exact ⟨rfl, rfl⟩
  | succ remaining ih =>
    rw [protectFrom]
    split
    · rename_i hi
      by_cases hown : (s.table.frames i).threadid = threadID
      · rw [if_pos hown]
        have hne : n ≠ i := by
          rintro rfl
          exact h ⟨⟨le_rfl, fun m hm hm' => by rwa [Nat.le_antisymm hm' hm]⟩, hown⟩
        have hframes := protectFrame_frames s (m := n) exiting hne
        have hprot := protectFrame_prot s i n exiting
        rw [if_neg hne] at hprot
        rw [← hframes, ← hprot]
        apply ih
        rintro ⟨⟨hin, hreach⟩, hthread⟩
        refine h ⟨⟨by omega, fun m hm hm' => ?_⟩, by rwa [← hframes]⟩
        by_cases hmi : m = i
        · rwa [hmi]
        · rw [← protectFrame_frames s exiting hmi]
          exact hreach m (by omega) hm'
      · rw [if_neg hown]
        apply ih
        rintro ⟨⟨hin, hreach⟩, hthread⟩
        refine h ⟨⟨by omega, fun m hm hm' => ?_⟩, hthread⟩
        by_cases hmi : m = i
        · rwa [hmi]
        · exact hreach m (by omega) hm'
    · exact ⟨rfl, rfl⟩

/-- The scan closes every frame of the thread that it reaches. -/
theorem protectFrom_of_reaches {s : State Page} {threadID : ℕ} {exiting : Bool}
    {i remaining n : ℕ} (hreach : s.ScanReaches i n)
    (hown : (s.table.frames n).threadid = threadID) (hn : n < i + remaining) :
    (protectFrom s threadID exiting i remaining).prot n = .PROT_NONE := by
  induction remaining generalizing s i with
  | zero => have := hreach.1; omega
  | succ remaining ih =>
    have hin := hreach.1
    rw [protectFrom, if_pos (hreach.2 i le_rfl hin)]
    by_cases hne : n = i
    · -- The frame is closed here, and the rest of the scan starts above it.
      subst hne
      rw [if_pos hown]
      have habove : ¬ ((protectFrame s n exiting).ScanReaches (n + 1) n ∧
          ((protectFrame s n exiting).table.frames n).threadid = threadID) := by
        rintro ⟨⟨hle, _⟩, _⟩
        omega
      rw [(protectFrom_of_not exiting remaining habove).1, protectFrame_prot, if_pos rfl]
    · have hreach' (t : State Page) (ht : ∀ m, m ≠ i → t.table.frames m = s.table.frames m) :
          t.ScanReaches (i + 1) n := by
        refine ⟨by omega, fun m hm hm' => ?_⟩
        rw [ht m (by omega)]
        exact hreach.2 m (by omega) hm'
      split
      · exact ih (hreach' _ fun m hm => protectFrame_frames s exiting hm)
          (by rwa [protectFrame_frames s exiting hne]) (by omega)
      · exact ih (hreach' _ fun _ _ => rfl) hown (by omega)

/-! ## Isolation over runs -/

/-- The protections and the frame nodes after a context switch are those the scan leaves. -/
theorem contextSwitch_eq (s : State Page) (thread_id : ℕ) (exiting : Bool) :
    (contextSwitch s thread_id exiting).prot =
        (protectFrom { s with currThread := thread_id } s.currThread exiting 0 frameCount).prot ∧
      (contextSwitch s thread_id exiting).table =
        (protectFrom { s with currThread := thread_id } s.currThread exiting 0 frameCount).table ∧
      (contextSwitch s thread_id exiting).currThread = thread_id := by
  cases exiting <;> simp [contextSwitch, protectPages]

/-- A context switch keeps isolation exactly when no free frame lies at or below
an open one. -/
theorem contextSwitch_isolated_iff {s : State Page} {thread_id : ℕ} {exiting : Bool}
    (h : s.Isolated) (hne : thread_id ≠ s.currThread) :
    (contextSwitch s thread_id exiting).Isolated ↔ s.NoGapBelowOpen := by
  obtain ⟨hprot, htable, hthread⟩ := contextSwitch_eq s thread_id exiting
  let t : State Page := { s with currThread := thread_id }
  constructor
  · intro hiso n hn hopen
    by_contra hgap
    -- A free frame at or below `n` hides `n` from the scan.
    have hhidden : ¬ (t.ScanReaches 0 n ∧ (t.table.frames n).threadid = s.currThread) :=
      fun hr => hgap fun m hm => hr.1.2 m (Nat.zero_le m) hm
    obtain ⟨hp, hf⟩ := protectFrom_of_not exiting frameCount hhidden
    have hopen' : (contextSwitch s thread_id exiting).prot n ≠ .PROT_NONE := by
      rw [hprot, hp]
      exact hopen
    have hown := hiso n hn hopen'
    rw [htable, hf, hthread] at hown
    exact hne (hown.symm.trans (h n hn hopen))
  · intro hgap n hn hopen
    exfalso
    by_cases hclosed : s.prot n = .PROT_NONE
    · -- A closed frame stays closed whether the scan reaches it or not.
      by_cases hr : t.ScanReaches 0 n ∧ (t.table.frames n).threadid = s.currThread
      · rw [hprot, protectFrom_of_reaches hr.1 hr.2 (by omega)] at hopen
        exact hopen rfl
      · rw [hprot, (protectFrom_of_not _ _ hr).1] at hopen
        exact hopen hclosed
    · have hreach : t.ScanReaches 0 n := ⟨Nat.zero_le n, fun m _ hm => hgap n hn hclosed m hm⟩
      rw [hprot, protectFrom_of_reaches hreach (h n hn hclosed) (by omega)] at hopen
      exact hopen rfl

/-- What one event preserves: isolation and a nonzero running thread. -/
theorem accessStep_isolated {s s' : State Page} {e : AccessEvent Page}
    (h : s.Isolated ∧ s.currThread ≠ 0) (hok : SwitchReachesOpen s e)
    (hstep : accessStep s e = some s') : s'.Isolated ∧ s'.currThread ≠ 0 := by
  cases e with
  | charge pages =>
    cases hstep
    exact h
  | access page offset write =>
    obtain ⟨_, ⟨_, hserve⟩ | ⟨_, rfl⟩⟩ := accessStep_access hstep
    · refine ⟨servePage_isolated h.1 hserve, ?_⟩
      rw [servePage_currThread hserve]
      exact h.2
    · exact h
  | contextSwitch thread_id exiting =>
    obtain ⟨hne, rfl⟩ := accessStep_contextSwitch hstep
    refine ⟨(contextSwitch_isolated_iff h.1 hne.2).mpr hok, ?_⟩
    rw [(contextSwitch_eq s thread_id exiting).2.2]
    exact hne.1

/-- In every run in which no context switch finds a free frame at or below an
open one, every open frame belongs to the running thread in every state, so that
no thread reaches a frame of another thread without a fault. A further switch
keeps this exactly when it meets the condition. -/
theorem threads_isolated :
    (∀ s : State Page, AccessReach SwitchReachesOpen s → s.Isolated) ∧
      ∀ (s s' : State Page) (thread_id : ℕ) (exiting : Bool), AccessReach SwitchReachesOpen s →
        accessStep s (.contextSwitch thread_id exiting) = some s' →
        (s'.Isolated ↔ s.NoGapBelowOpen) := by
  have hreach (s : State Page) (h : AccessReach SwitchReachesOpen s) :
      s.Isolated ∧ s.currThread ≠ 0 := by
    refine h.invariant ?_ fun s e s' hs hok hstep => accessStep_isolated hs hok hstep
    rintro s ⟨memory, swapFile, stack, rfl⟩
    exact ⟨fun n _ hopen => absurd rfl hopen, one_ne_zero⟩
  refine ⟨fun s h => (hreach s h).1, fun s s' thread_id exiting h hstep => ?_⟩
  obtain ⟨hne, rfl⟩ := accessStep_contextSwitch hstep
  exact contextSwitch_isolated_iff (hreach s h).1 hne.2

end Scan

/-- Thread 1 after it has been charged two pages. -/
def chargedTwo : State ℕ :=
  { buildKernalSpace (fun _ => 0) ⟨fun _ => 0, 436⟩ (fun _ => 0) with
    thread_page_count := Function.update (fun _ => 0) 1 2
    pagesLeft := 5498 }

/-- A thread that has been charged two pages and has touched page `page` first. -/
def firstTouch (page : ℕ) : State ℕ :=
  (chargedTwo.mprotect page .PROT_READ_WRITE).claimFrame page

/-- The first touch of either charged page is a run. -/
theorem firstTouch_reach {page : ℕ} (hpage : page < 2)
    {ok : State ℕ → AccessEvent ℕ → Prop} (hok : ∀ s, ok s (.charge 2) ∧ ok s (.access page 0 id)) :
    AccessReach ok (firstTouch page) := by
  have hstart : AccessReach ok (buildKernalSpace (fun _ => 0) ⟨fun _ => 0, 436⟩ (fun _ => 0)) :=
    .start ⟨_, _, _, rfl⟩
  have hcharged : AccessReach ok chargedTwo := .step hstart (hok _).1 rfl
  have hcount : (page + 1 : ℕ) ≤ chargedTwo.thread_page_count chargedTwo.currThread := by
    change ((page + 1 : ℕ) : ℤ) ≤ 2
    omega
  have hserve : servePage chargedTwo page = some (firstTouch page) := by
    refine servePage_eq_claim hcount rfl one_ne_zero ?_ ?_ <;>
    · intro n _
      simp [State.returnsTo, chargedTwo, buildKernalSpace]
  refine .step hcharged (hok _).2 ?_
  have hpage' : page < frameCount := by unfold frameCount; omega
  have hoffset : 0 < PAGE_SIZE := by decide
  have hclosed : chargedTwo.prot page = .PROT_NONE := rfl
  rw [accessStep, if_pos ⟨hpage', hoffset, hcount⟩, if_pos hclosed,
    pageFaultHandler_eq _ hpage' hoffset]
  exact hserve

/-- The isolation theorem at a run that touches page 0 and switches to thread 2. -/
theorem threads_isolated_firstTouch :
    (contextSwitch (firstTouch 0) 2 false).Isolated := by
  have hrun : AccessReach SwitchReachesOpen (firstTouch 0) :=
    firstTouch_reach (by decide) fun _ => ⟨trivial, trivial⟩
  refine (threads_isolated.2 _ _ 2 false hrun rfl).mpr fun n _ hopen m hm => ?_
  have hn : n = 0 := by
    by_contra hne
    simp [firstTouch, chargedTwo, State.claimFrame, State.mprotect, buildKernalSpace, hne] at hopen
  have hm : m = 0 := by omega
  subst hm
  simp [firstTouch, chargedTwo, State.claimFrame, State.mprotect, buildKernalSpace]

/-- Touching page 1 before page 0 breaks isolation: after the switch to thread 2,
frame 1 is still open and still belongs to thread 1. -/
theorem threads_not_isolated :
    ∃ s s' : State ℕ, AccessReach (fun _ _ => True) s ∧
      accessStep s (.contextSwitch 2 false) = some s' ∧
      s'.prot 1 = .PROT_READ_WRITE ∧ (s'.table.frames 1).threadid = 1 ∧ s'.currThread = 2 := by
  refine ⟨firstTouch 1, contextSwitch (firstTouch 1) 2 false,
    firstTouch_reach (by decide) fun _ => ⟨trivial, trivial⟩, rfl, ?_⟩
  obtain ⟨hprot, htable, hthread⟩ := contextSwitch_eq (firstTouch 1) 2 false
  have hhidden : ¬ (State.ScanReaches { firstTouch 1 with currThread := 2 } 0 1 ∧
      ((firstTouch 1).table.frames 1).threadid = 1) := by
    rintro ⟨⟨_, hreach⟩, _⟩
    exact hreach 0 le_rfl (by decide) rfl
  obtain ⟨hp, hf⟩ := protectFrom_of_not false frameCount hhidden
  exact ⟨by rw [hprot]; exact hp, by rw [htable]; exact congrArg PageNode.threadid hf, hthread⟩

end SimpleOs.Paging
