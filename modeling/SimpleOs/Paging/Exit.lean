import SimpleOs.Paging.Isolation
import SimpleOs.Paging.Labels

/-!
# The exit of a thread

When a thread exits, `protectPages` scans the frame nodes for its pages and returns its
page count to `pagesLeft`. The scan gives up at the first free frame and does not look at
the swap nodes, so it releases all pages exactly when neither hides one.
-/

namespace SimpleOs.Paging

variable {Page : Type*} {s t : State Page} {threadID i n m remaining : ℕ} {exiting : Bool}

/-! ## One frame after the scan -/

/-- The two states agree on frame `n`: its node, its contents and its protection. -/
def SameFrame (s t : State Page) (n : ℕ) : Prop :=
  t.table.frames n = s.table.frames n ∧ t.memory n = s.memory n ∧ t.prot n = s.prot n

/-- The two states agree on all that the scan does not touch. -/
def SameElsewhere (s t : State Page) : Prop :=
  t.table.slots = s.table.slots ∧ t.swapFile = s.swapFile ∧ t.stack = s.stack ∧
    t.thread_page_count = s.thread_page_count ∧ t.pagesLeft = s.pagesLeft

theorem SameFrame.trans {r : State Page} (h : SameFrame r s n) (h' : SameFrame s t n) :
    SameFrame r t n :=
  ⟨h'.1.trans h.1, h'.2.1.trans h.2.1, h'.2.2.trans h.2.2⟩

/-- A frame above `i` is reached from `i` if it is reached from `i + 1` after the step. -/
theorem State.ScanReaches.succ (hi : (s.table.frames i).threadid ≠ 0) (hne : n ≠ i)
    (hsame : ∀ m, m ≠ i → SameFrame s t m) : t.ScanReaches (i + 1) n ↔ s.ScanReaches i n := by
  constructor
  · rintro ⟨hle, hreach⟩
    refine ⟨by omega, fun m hm hmn => ?_⟩
    by_cases hmi : m = i
    · rwa [hmi]
    · rw [← (hsame m hmi).1]
      exact hreach m (by omega) hmn
  · rintro ⟨hle, hreach⟩
    refine ⟨by omega, fun m hm hmn => ?_⟩
    rw [(hsame m (by omega)).1]
    exact hreach m (by omega) hmn

/-- The scan from frame `i` protects frame `n`. -/
def State.ScanTakes (s : State Page) (threadID i remaining n : ℕ) : Prop :=
  s.ScanReaches i n ∧ n < i + remaining ∧ (s.table.frames n).threadid = threadID

/-- The frames that the scan takes when a thread exits. -/
theorem scanTakes_iff (hthread : threadID ≠ 0) (hn : n < frameCount) :
    s.ScanTakes threadID 0 frameCount n ↔ (s.table.frames n).threadid = threadID ∧
      ∀ m < n, (s.table.frames m).threadid ≠ 0 := by
  constructor
  · rintro ⟨⟨_, hreach⟩, _, hown⟩
    exact ⟨hown, fun m hm => hreach m (by omega) (by omega)⟩
  · rintro ⟨hown, hbelow⟩
    refine ⟨⟨by omega, fun m _ hm => ?_⟩, by omega, hown⟩
    by_cases hmn : m = n
    · rwa [hmn, hown]
    · exact hbelow m (by omega)

variable [Zero Page]

/-- Protecting a frame changes no other frame. -/
theorem protectFrame_same (hne : m ≠ n) : SameFrame s (protectFrame s n exiting) m := by
  refine ⟨protectFrame_frames s exiting hne, ?_, ?_⟩
  · cases exiting <;> simp [protectFrame, State.mprotect, hne]
  · rw [protectFrame_prot, if_neg hne]

/-- Protecting a frame changes nothing else. -/
theorem protectFrame_elsewhere : SameElsewhere s (protectFrame s n exiting) := by
  cases exiting <;> exact ⟨rfl, rfl, rfl, rfl, rfl⟩

/-- The scan changes nothing but frames. -/
theorem protectFrom_elsewhere : SameElsewhere s (protectFrom s threadID exiting i remaining) := by
  induction remaining generalizing s i with
  | zero => exact ⟨rfl, rfl, rfl, rfl, rfl⟩
  | succ remaining ih =>
    rw [protectFrom]
    split
    · split
      · have hframe : SameElsewhere s (protectFrame s i exiting) := protectFrame_elsewhere
        obtain ⟨hslots, hfile, hstack, hcount, hleft⟩ := hframe
        unfold SameElsewhere
        rw [← hslots, ← hfile, ← hstack, ← hcount, ← hleft]
        exact ih
      · exact ih
    · exact ⟨rfl, rfl, rfl, rfl, rfl⟩

/-- Protecting a frame depends on that frame only. -/
theorem SameFrame.protect (h : SameFrame s t n) :
    SameFrame (protectFrame s n exiting) (protectFrame t n exiting) n := by
  obtain ⟨hframe, hmemory, _⟩ := h
  cases exiting <;> simp [SameFrame, protectFrame, State.mprotect, hframe, hmemory]

/-- A frame that the scan takes is protected, and the others are left alone. -/
theorem protectFrom_frame :
    (s.ScanTakes threadID i remaining n →
      SameFrame (protectFrame s n exiting) (protectFrom s threadID exiting i remaining) n) ∧
    (¬ s.ScanTakes threadID i remaining n →
      SameFrame s (protectFrom s threadID exiting i remaining) n) := by
  induction remaining generalizing s i with
  | zero =>
    refine ⟨fun htakes => ?_, fun _ => ⟨rfl, rfl, rfl⟩⟩
    obtain ⟨⟨hle, _⟩, hlt, _⟩ := htakes
    omega
  | succ remaining ih =>
    rw [protectFrom]
    by_cases hi : (s.table.frames i).threadid ≠ 0
    · rw [if_pos hi]
      generalize hs₁ : (if (s.table.frames i).threadid = threadID then protectFrame s i exiting
        else s) = s₁
      have hsame : ∀ m, m ≠ i → SameFrame s s₁ m := by
        intro m hm
        rw [← hs₁]
        split
        · exact protectFrame_same hm
        · exact ⟨rfl, rfl, rfl⟩
      obtain ⟨htaken, hleft⟩ := ih (s := s₁) (i := i + 1)
      by_cases hne : n = i
      · -- The rest of the scan is behind frame `n`.
        subst hne
        have hrest := hleft fun htakes => absurd htakes.1.1 (by omega)
        have hreach : s.ScanReaches n n :=
          ⟨le_rfl, fun m hm hmn => by rwa [Nat.le_antisymm hmn hm]⟩
        constructor
        · rintro ⟨_, _, hown⟩
          rw [if_pos hown] at hs₁
          rwa [hs₁]
        · intro hnot
          have hown : (s.table.frames n).threadid ≠ threadID :=
            fun hown => hnot ⟨hreach, by omega, hown⟩
          rw [if_neg hown] at hs₁
          rwa [hs₁]
      · have hn := hsame n hne
        have htakes : s₁.ScanTakes threadID (i + 1) remaining n ↔
            s.ScanTakes threadID i (remaining + 1) n := by
          unfold State.ScanTakes
          rw [State.ScanReaches.succ hi hne hsame, hn.1, Nat.add_right_comm, Nat.add_assoc]
        exact ⟨fun h => hn.protect.trans (htaken (htakes.mpr h)),
          fun h => hn.trans (hleft fun h' => h (htakes.mp h'))⟩
    · rw [if_neg hi]
      refine ⟨fun htakes => ?_, fun _ => ⟨rfl, rfl, rfl⟩⟩
      obtain ⟨⟨hle, hreach⟩, _⟩ := htakes
      exact absurd (hreach i le_rfl hle) hi

/-! ## The exit -/

/-- What an exit must do: no node belongs to the thread, its places are free and its frames
are zeroed and closed, and everything of other threads is unchanged. The pages it was charged
for are handed back. -/
structure State.Released (s s' : State Page) (threadID : ℕ) : Prop where
  /-- No node belongs to the thread. -/
  gone : ∀ x : Place, x.Valid → s'.threadAt x ≠ threadID
  /-- The places that belonged to the thread are free. -/
  free : ∀ x : Place, x.Valid → s.threadAt x = threadID → s'.threadAt x = 0
  /-- Its frames are zeroed and closed. -/
  cleared : ∀ n < frameCount, (s.table.frames n).threadid = threadID →
    s'.memory n = 0 ∧ s'.prot n = .PROT_NONE
  /-- The other frames are unchanged. -/
  frames : ∀ n < frameCount, (s.table.frames n).threadid ≠ threadID → SameFrame s s' n
  /-- The other pages of the swap file are unchanged. -/
  slots : ∀ k < slotCount, (s.table.slots k).threadid ≠ threadID →
    s'.table.slots k = s.table.slots k ∧ s'.contentAt (.slot k) = s.contentAt (.slot k)
  /-- The page counts of other threads are unchanged. -/
  counts : ∀ u, u ≠ threadID → s'.thread_page_count u = s.thread_page_count u
  /-- The pages of the thread are handed back. -/
  handed : s'.thread_page_count threadID = 0 ∧
    s'.pagesLeft = s.pagesLeft + s.thread_page_count threadID

/-- No page of the thread is in the swap file, and no free frame lies below one of its frames. -/
def State.ExitSees (s : State Page) (threadID : ℕ) : Prop :=
  (∀ k < slotCount, (s.table.slots k).threadid ≠ threadID) ∧
    ∀ n < frameCount, (s.table.frames n).threadid = threadID →
      ∀ m < n, (s.table.frames m).threadid ≠ 0

/-- The frames after an exit are those that the scan leaves. -/
theorem protectPages_frame :
    SameFrame (protectFrom s threadID true 0 frameCount) (protectPages s threadID true) n :=
  ⟨rfl, rfl, rfl⟩

/-- An exiting thread's frame after it was protected. -/
theorem protectFrame_exiting :
    ((protectFrame s n true).table.frames n).threadid = 0 ∧ (protectFrame s n true).memory n = 0 ∧
      (protectFrame s n true).prot n = .PROT_NONE := by
  simp [protectFrame, State.mprotect]

/-- When a thread exits, `protectPages` releases everything that it owned exactly if no page
of the thread is in the swap file and no free frame lies below one of its frames. -/
theorem exit_releases_iff (s : State Page) {threadID : ℕ} (hthread : threadID ≠ 0) :
    s.Released (protectPages s threadID true) threadID ↔ s.ExitSees threadID := by
  have hscan : SameElsewhere s (protectFrom s threadID true 0 frameCount) := protectFrom_elsewhere
  obtain ⟨hslots, hfile, hstack, hcounts, hleft⟩ := hscan
  have hslots' : (protectPages s threadID true).table.slots = s.table.slots := hslots
  have hfile' : (protectPages s threadID true).swapFile = s.swapFile := hfile
  have hstack' : (protectPages s threadID true).stack = s.stack := hstack
  constructor
  · intro h
    constructor
    · intro k hk hown
      refine h.gone (.slot k) hk ?_
      rw [State.threadAt, hslots', hown]
    · intro n hn hown
      by_contra hfree
      have hhidden : SameFrame s (protectFrom s threadID true 0 frameCount) n :=
        protectFrom_frame.2 fun htakes => hfree ((scanTakes_iff hthread hn).mp htakes).2
      refine h.gone (.frame n) hn ?_
      rw [State.threadAt, (hhidden.trans protectPages_frame).1, hown]
  · rintro ⟨hswap, hbelow⟩
    have htaken (n : ℕ) (hn : n < frameCount) (hown : (s.table.frames n).threadid = threadID) :
        SameFrame (protectFrame s n true) (protectPages s threadID true) n :=
      (protectFrom_frame.1 ((scanTakes_iff hthread hn).mpr ⟨hown, hbelow n hn hown⟩)).trans
        protectPages_frame
    have hsame (n : ℕ) (hn : n < frameCount) (hother : (s.table.frames n).threadid ≠ threadID) :
        SameFrame s (protectPages s threadID true) n :=
      (protectFrom_frame.2 fun htakes => hother htakes.2.2).trans protectPages_frame
    have hfreed (n : ℕ) (hn : n < frameCount) (hown : (s.table.frames n).threadid = threadID) :
        ((protectPages s threadID true).table.frames n).threadid = 0 := by
      rw [(htaken n hn hown).1]
      exact protectFrame_exiting.1
    constructor
    · rintro (n | k) hvalid
      · by_cases hown : (s.table.frames n).threadid = threadID
        · simpa [State.threadAt, hfreed n hvalid hown] using hthread.symm
        · simpa [State.threadAt, (hsame n hvalid hown).1] using hown
      · simpa [State.threadAt, hslots'] using hswap k hvalid
    · rintro (n | k) hvalid hown
      · exact hfreed n hvalid hown
      · exact absurd hown (hswap k hvalid)
    · intro n hn hown
      obtain ⟨_, hmemory, hprot⟩ := htaken n hn hown
      rw [hmemory, hprot]
      exact protectFrame_exiting.2
    · exact hsame
    · intro k _ _
      exact ⟨congrFun hslots k, by simp only [State.contentAt, hfile', hstack']⟩
    · intro u hu
      simp [protectPages, Function.update_of_ne hu, hcounts]
    · simp [protectPages, hleft, hcounts]

/-- The theorem for a thread whose only page is in frame 0. -/
theorem exit_releases_firstTouch :
    (firstTouch 0).Released (protectPages (firstTouch 0) 1 true) 1 := by
  refine (exit_releases_iff (firstTouch 0) one_ne_zero).mpr ⟨fun k _ => ?_, fun n _ hown => ?_⟩
  · simp [firstTouch, chargedTwo, State.claimFrame, State.mprotect, buildKernalSpace]
  · have hn : n = 0 := by
      by_contra hne
      simp [firstTouch, chargedTwo, State.claimFrame, State.mprotect, buildKernalSpace, hne] at hown
    simp [hn]

/-- A thread that touched its second page first exits: frame 1 still belongs to it. -/
theorem exit_keeps_page :
    ∃ s : State ℕ, AccessReach (fun _ _ => True) s ∧ s.currThread = 1 ∧
      ((protectPages s 1 true).table.frames 1).threadid = 1 ∧
      ¬ s.Released (protectPages s 1 true) 1 := by
  have hreach : AccessReach (fun _ _ => True) (firstTouch 1) :=
    firstTouch_reach (by decide) fun _ => ⟨trivial, trivial⟩
  have hhidden : ¬ (firstTouch 1).ScanTakes 1 0 frameCount 1 := by
    rintro ⟨⟨_, hreached⟩, _⟩
    exact hreached 0 le_rfl (by decide) rfl
  have howner : ((protectPages (firstTouch 1) 1 true).table.frames 1).threadid = 1 := by
    rw [((protectFrom_frame.2 hhidden).trans protectPages_frame).1]
    rfl
  refine ⟨firstTouch 1, hreach, rfl, howner, fun h => ?_⟩
  exact h.gone (.frame 1) (show 1 < frameCount by decide) howner

end SimpleOs.Paging
