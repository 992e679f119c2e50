import SimpleOs.Paging.Labels

/-!
# Which faults keep every page findable

With memory full, the handler moves up to three pages at once: the victim, the
page in the wanted frame, and the wanted page. Both exchanges record the wanted
frame as the home of the page they send away. The labels therefore stay right
exactly when that frame is the home of the pages that leave.
-/

namespace SimpleOs.Paging

variable {Page : Type*}

/-- The result of serving page `p` of the running thread: the wanted page is at
home with its contents, and every other page is still present exactly once with
its contents. -/
structure State.Keeps (s s' : State Page) (p : ℕ) : Prop where
  /-- The wanted page is in its home frame. -/
  home : s'.Labelled (.frame p) s.currThread p ∧ (s'.table.frames p).retAddr = -1
  /-- If the wanted page was anywhere, it has its contents. -/
  content : ∀ x, s.Labelled x s.currThread p → s'.memory p = s.contentAt x
  /-- The table is well labelled again. -/
  wellLabelled : s'.WellLabelled
  /-- The other pages are present exactly once, with their contents. -/
  others : ∀ x t home, s.Labelled x t home → ¬ (t = s.currThread ∧ home = p) →
    ∃ y, s'.Labelled y t home ∧ s'.contentAt y = s.contentAt x ∧
      ∀ z, s'.Labelled z t home → z = y

/-- The condition on the table: the page in the wanted frame is at home there,
and when the wanted page is in no frame, so is the page of the victim. -/
def State.LeaversAtHome (s : State Page) (p : ℕ) : Prop :=
  s.homeAt (.frame p) = p ∧
    ((∃ n, s.Labelled (.frame n) s.currThread p) ∨
      ∃ e, s.IsVictim e ∧ s.homeAt (.frame e) = p)

/-- A relocation keeps every page of every thread findable, with its contents. -/
theorem Relocates.keeps {s s' : State Page} {p : ℕ} {σ : Equiv.Perm Place}
    (h : Relocates s s' s.currThread p σ) (hw : s.WellLabelled) (hp : p < frameCount)
    (hcurr : s.currThread ≠ 0) : s.Keeps s' p := by
  have hw' := h.wellLabelled hw hp
  refine ⟨⟨⟨hp, ?_, h.served.1, h.homeAt_served⟩, h.served.2⟩, ?_, hw', ?_⟩
  · rw [h.served.1]
    exact hcurr
  · intro x hx
    rcases h.source with ⟨y, hy, _, hcontent⟩ | ⟨_, hnew⟩
    · rw [hw.distinct _ _ _ _ hx hy]
      exact hcontent
    · exact absurd hx (hnew x)
  · intro x t home hx hne
    obtain ⟨hmoved, hcontent⟩ := h.labelled hx hne
    exact ⟨σ x, hmoved, hcontent, fun z hz => hw'.distinct _ _ _ _ hz hmoved⟩

/-! ## Exchanges -/

/-- An exchange moves owners and contents along `σ`, and records frame `p` as
the home of every place it touches. What goes to frame `p` is what the read of
its place gives, also where that place has no contents. -/
structure Exchanges (s s' : State Page) (p : ℕ) (σ : Equiv.Perm Place) : Prop where
  /-- Places that exist are exchanged with each other. -/
  valid : ∀ x, (σ x).Valid ↔ x.Valid
  /-- The owner of a place moves with it along `σ`. -/
  thread : ∀ x, s'.threadAt (σ x) = s.threadAt x
  /-- Contents move with it too, and so does what the read gives for the served frame. -/
  content : ∀ x, s.Stored x ∨ σ x = .frame p → s'.contentAt (σ x) = s.contentAt x
  /-- Places that had contents are moved to places that have. -/
  stored : ∀ x, s.Stored x → s'.Stored (σ x)
  /-- A place that takes part gets home `p`. -/
  home_moved : ∀ x, σ x ≠ x → s'.homeAt (σ x) = p
  /-- The other places keep their home. -/
  home_kept : ∀ x, σ x = x → x ≠ .frame p → s'.homeAt x = s.homeAt x
  /-- The served frame is marked as the home of its page. -/
  served : (s'.table.frames p).retAddr = -1

/-- Before the exchange the handler marks place `z`, which holds the wanted page
or is free and is given to the thread. -/
structure Marks (s s₁ : State Page) (t p : ℕ) (z : Place) : Prop where
  /-- The place belongs to the thread now. -/
  thread : s₁.threadAt z = t
  /-- Marking a place changes no contents. -/
  content : ∀ x, s₁.contentAt x = s.contentAt x
  /-- The swap file does not grow. -/
  stored : ∀ x, s₁.Stored x ↔ s.Stored x
  /-- Other places keep their labels. -/
  other : ∀ x ≠ z, s₁.threadAt x = s.threadAt x ∧ s₁.homeAt x = s.homeAt x
  /-- The place holds the wanted page, or it was free and nothing holds it. -/
  wanted : s.Labelled z t p ∨ (s.threadAt z = 0 ∧ ∀ x, ¬ s.Labelled x t p)

/-- A page that is away from home and takes part in the exchange is lost: no
place carries its label afterwards. -/
theorem Exchanges.lost {s s₁ s' : State Page} {t p : ℕ} {z : Place} {σ : Equiv.Perm Place}
    (h : Exchanges s₁ s' p σ) (hm : Marks s s₁ t p z) (hz : σ z = .frame p)
    (hw : s.WellLabelled) {x : Place} (hx : x.Valid) (hthread : s.threadAt x ≠ 0)
    (hmoved : σ x ≠ x ∨ x = .frame p) (hhome : s.homeAt x ≠ p) (y : Place) :
    ¬ s'.Labelled y (s.threadAt x) (s.homeAt x) := by
  rintro ⟨hy, _, hythread, hyhome⟩
  obtain ⟨u, rfl⟩ := σ.surjective y
  by_cases hu : σ u = u
  · by_cases hup : u = .frame p
    · rw [hu, hup] at hyhome
      have : s'.homeAt (.frame p) = p := by simp [State.homeAt, h.served]
      exact hhome (hyhome.symm.trans this)
    · have huz : u ≠ z := by
        rintro rfl
        exact hup (hu.symm.trans hz)
      obtain ⟨huthread, huhome⟩ := hm.other u huz
      rw [h.thread, huthread] at hythread
      rw [hu, h.home_kept u hu hup, huhome] at hyhome
      have heq : u = x := hw.distinct u x (s.threadAt x) (s.homeAt x)
        ⟨(h.valid u).mp hy, by rwa [hythread], hythread, hyhome⟩ ⟨hx, hthread, rfl, rfl⟩
      subst heq
      rcases hmoved with hmoved | hmoved
      · exact hmoved hu
      · exact hup hmoved
  · rw [h.home_moved u hu] at hyhome
    exact hhome hyhome.symm

/-- An exchange is a relocation when the pages that leave are at home. -/
theorem Exchanges.relocates {s s₁ s' : State Page} {t p : ℕ} {z : Place} {σ : Equiv.Perm Place}
    (h : Exchanges s₁ s' p σ) (hm : Marks s s₁ t p z) (hz : σ z = .frame p)
    (hw : s.WellLabelled)
    (hhome : ∀ x, σ x ≠ x → x ≠ z → s.threadAt x ≠ 0 → s.homeAt x = p) :
    Relocates s s' t p σ := by
  refine ⟨h.valid, fun x hx => h.stored x ((hm.stored x).mpr hx), fun x hx hxp => ?_,
    ⟨?_, h.served⟩, ?_⟩
  · have hxz : x ≠ z := by
      rintro rfl
      exact hxp hz
    obtain ⟨hthread, hhome₁⟩ := hm.other x hxz
    refine ⟨(h.thread x).trans hthread, fun hocc => ⟨?_, ?_⟩⟩
    · by_cases hσ : σ x = x
      · have hx' : x ≠ .frame p := by rwa [hσ] at hxp
        rw [hσ, h.home_kept x hσ hx', hhome₁]
      · rw [h.home_moved x hσ, hhome x hσ hxz hocc]
    · have hstored := (hm.stored x).mpr (hw.stored x hx hocc)
      exact (h.content x (Or.inl hstored)).trans (hm.content x)
  · rw [← hz, h.thread, hm.thread]
  · rcases hm.wanted with hlabel | ⟨hfree, hnew⟩
    · exact Or.inl ⟨z, hlabel, hz, by rw [← hz, h.content z (Or.inr hz), hm.content]⟩
    · refine Or.inr ⟨?_, hnew⟩
      rw [← hz, Equiv.symm_apply_apply]
      exact hfree

/-- With distinct labels, an exchange keeps every page exactly when the pages
that leave are at home. -/
theorem Exchanges.keeps_iff {s s₁ s' : State Page} {p : ℕ} {z : Place} {σ : Equiv.Perm Place}
    (h : Exchanges s₁ s' p σ) (hm : Marks s s₁ s.currThread p z) (hz : σ z = .frame p)
    (hw : s.WellLabelled) (hp : p < frameCount) (hcurr : s.currThread ≠ 0)
    (leaving : Place → Prop) (hvalid : ∀ x, leaving x → x.Valid ∧ s.threadAt x ≠ 0)
    (hmoved : ∀ x, leaving x → σ x ≠ x ∨ x = .frame p)
    (hleaving : ∀ x, σ x ≠ x → x ≠ z → s.threadAt x ≠ 0 → leaving x) :
    s.Keeps s' p ↔ ∀ x, leaving x → s.homeAt x = p := by
  constructor
  · intro hkeeps x hx
    by_contra hhome
    obtain ⟨hxvalid, hocc⟩ := hvalid x hx
    obtain ⟨y, hy, _⟩ := hkeeps.others x _ _ ⟨hxvalid, hocc, rfl, rfl⟩ fun heq => hhome heq.2
    exact h.lost hm hz hw hxvalid hocc (hmoved x hx) hhome y hy
  · intro hhome
    have hrel := h.relocates hm hz hw fun x hx hxz hocc => hhome x (hleaving x hx hxz hocc)
    exact hrel.keeps hw hp hcurr

/-- `swapPage` of type 0 exchanges two frames. -/
theorem swapPage_exchanges (s : State Page) {p n : ℕ} (hp : p < frameCount) (hn : n < frameCount) :
    Exchanges s (swapPage s p n 0) p (Equiv.swap (.frame p) (.frame n)) := by
  constructor
  · intro x
    by_cases hxp : x = .frame p
    · subst hxp
      rw [Equiv.swap_apply_left]
      exact ⟨fun _ => hp, fun _ => hn⟩
    · by_cases hxn : x = .frame n
      · subst hxn
        rw [Equiv.swap_apply_right]
        exact ⟨fun _ => hn, fun _ => hp⟩
      · rw [Equiv.swap_apply_of_ne_of_ne hxp hxn]
  · rintro (m | k) <;> rw [Equiv.swap_apply_def]
    · simp only [State.threadAt, Place.frame.injEq]
      grind [swapPage_frames]
    · simp [State.threadAt]
  · rintro (m | k) _ <;> rw [Equiv.swap_apply_def]
    · simp only [State.contentAt, Place.frame.injEq]
      grind [swapPage_memory]
    · simp [State.contentAt]
  · rintro (m | k) hstored <;> rw [Equiv.swap_apply_def]
    · simp only [Place.frame.injEq]
      grind [State.Stored]
    · exact hstored
  · rintro (m | k) <;> rw [Equiv.swap_apply_def]
    · simp only [State.homeAt, Place.frame.injEq]
      grind [swapPage_frames]
    · simp
  · rintro (m | k) <;> rw [Equiv.swap_apply_def]
    · simp only [State.homeAt, Place.frame.injEq]
      grind [swapPage_frames]
    · simp [State.homeAt]
  · simp [swapPage_frames]

/-- How an eviction moves the pages: the one in the wanted frame to the frame of
the victim, the victim to the swap file, and the wanted page to its frame. -/
def exchangePerm (p e k : ℕ) : Equiv.Perm Place :=
  (Equiv.swap (.frame p) (.frame e)).trans (Equiv.swap (.frame p) (.slot k))

/-- The places of an eviction one by one. -/
theorem exchangePerm_apply (p e k : ℕ) (x : Place) :
    exchangePerm p e k x =
      if x = .slot k then .frame p
      else if x = .frame e then .slot k
      else if x = .frame p then .frame e else x := by
  simp only [exchangePerm, Equiv.trans_apply, Equiv.swap_apply_def]
  grind

/-- `exchangeVictim` exchanges two frames and a page of the swap file. -/
theorem exchangeVictim_exchanges (s : State Page) {p e k : ℕ} (hp : p < frameCount)
    (he : e < frameCount) (hk : k < slotCount) :
    Exchanges s (exchangeVictim s p e k) p (exchangePerm p e k) := by
  constructor
  · intro x
    rw [exchangePerm_apply]
    split
    · rename_i heq
      subst heq
      exact ⟨fun _ => hk, fun _ => hp⟩
    · split
      · rename_i heq
        subst heq
        exact ⟨fun _ => he, fun _ => hk⟩
      · split
        · rename_i heq
          subst heq
          exact ⟨fun _ => hp, fun _ => he⟩
        · rfl
  · rintro (m | j) <;> rw [exchangePerm_apply]
    · simp only [State.threadAt, Place.frame.injEq, reduceCtorEq, if_false]
      grind [exchangeVictim_frames, exchangeVictim_slots]
    · simp only [State.threadAt, Place.slot.injEq, reduceCtorEq, if_false]
      grind [exchangeVictim_frames, exchangeVictim_slots]
  · rintro (m | j) hstored <;> rw [exchangePerm_apply] at hstored ⊢
    · have hvictim := exchangeVictim_content_slot s p e k (Or.inl rfl)
      simp only [State.contentAt, Place.frame.injEq, reduceCtorEq, if_false] at hvictim ⊢
      grind [exchangeVictim_memory]
    · -- The page that is read goes to frame `p`; another one stays in the file.
      by_cases hjk : j = k
      · subst hjk
        simp [State.contentAt, exchangeVictim_memory]
      · have hj : s.Stored (.slot j) := by simpa [hjk] using hstored
        simp [hjk, exchangeVictim_content_slot s p e k (Or.inr hj)]
  · rintro (m | j) hstored <;> rw [exchangePerm_apply]
    · have hvictim : (exchangeVictim s p e k).Stored (.slot k) := by
        simp [State.Stored, exchangeVictim_swapFile, SwapFile.write]
      simp only [Place.frame.injEq, reduceCtorEq, if_false]
      grind [State.Stored]
    · have hkept : (exchangeVictim s p e k).Stored (.slot j) := by
        simp only [State.Stored, exchangeVictim_swapFile, SwapFile.write] at hstored ⊢
        omega
      simp only [Place.slot.injEq, reduceCtorEq, if_false]
      grind [State.Stored]
  · rintro (m | j) <;> rw [exchangePerm_apply]
    · simp only [State.homeAt, Place.frame.injEq, reduceCtorEq, if_false]
      grind [exchangeVictim_frames, exchangeVictim_slots]
    · simp only [State.homeAt, Place.slot.injEq, reduceCtorEq, if_false]
      grind [exchangeVictim_frames, exchangeVictim_slots]
  · rintro (m | j) <;> rw [exchangePerm_apply]
    · simp only [State.homeAt, Place.frame.injEq, reduceCtorEq, if_false]
      grind [exchangeVictim_frames, exchangeVictim_slots]
    · simp only [State.homeAt, Place.slot.injEq, reduceCtorEq, if_false]
      grind [exchangeVictim_frames, exchangeVictim_slots]
  · simp [exchangeVictim_frames]

/-! ## The scans of the handler -/

/-- What the scan of the frames finds is the wanted page. -/
theorem labelled_of_findFrame {s : State Page} {p n : ℕ} (hcurr : s.currThread ≠ 0)
    (h : s.findFrame (s.returnsTo p) = some n) : s.Labelled (.frame n) s.currThread p := by
  obtain ⟨htest, hn, _⟩ := State.findFrame_eq_some.mp h
  obtain ⟨hthread, hret⟩ := of_decide_eq_true htest
  refine ⟨hn, by simpa [State.threadAt, hthread] using hcurr, hthread, ?_⟩
  have hne : (p : ℤ) ≠ -1 := by omega
  simp [State.homeAt, hret, hne]

/-- What the scan of the swap nodes finds is the wanted page. -/
theorem labelled_of_findSlot {s : State Page} {p k : ℕ} (hcurr : s.currThread ≠ 0)
    (h : s.findSlot (s.returnsTo p) = some k) : s.Labelled (.slot k) s.currThread p := by
  obtain ⟨htest, hk, _⟩ := State.findSlot_eq_some.mp h
  obtain ⟨hthread, hret⟩ := of_decide_eq_true htest
  exact ⟨hk, by simpa [State.threadAt, hthread] using hcurr, hthread, hret⟩

/-- When the page is not at home and the scan of the frames fails, no frame has it. -/
theorem not_labelled_frame {s : State Page} {p : ℕ}
    (hown : ¬ ((s.table.frames p).threadid = s.currThread ∧ (s.table.frames p).retAddr = -1))
    (h : s.findFrame (s.returnsTo p) = none) (n : ℕ) : ¬ s.Labelled (.frame n) s.currThread p := by
  rintro ⟨hn, _, hthread, hhome⟩
  simp only [State.threadAt, State.homeAt] at hthread hhome
  split at hhome
  · rename_i hret
    have : n = p := by omega
    subst this
    exact hown ⟨hthread, hret⟩
  · have := State.findFrame_eq_none.mp h n hn
    simp [State.returnsTo, hthread, hhome] at this

/-- When the scan of the swap nodes fails, no page of the swap file is the wanted one. -/
theorem not_labelled_slot {s : State Page} {p : ℕ} (h : s.findSlot (s.returnsTo p) = none)
    (k : ℕ) : ¬ s.Labelled (.slot k) s.currThread p := by
  rintro ⟨hk, _, hthread, hhome⟩
  have := State.findSlot_eq_none.mp h k hk
  simp only [State.threadAt, State.homeAt] at hthread hhome
  simp [State.returnsTo, hthread, hhome] at this

/-- Marking a frame as accessed changes no label. -/
theorem touchFrame_label (s : State Page) (n : ℕ) (x : Place) :
    (s.touchFrame n).threadAt x = s.threadAt x ∧ (s.touchFrame n).homeAt x = s.homeAt x ∧
      (s.touchFrame n).contentAt x = s.contentAt x := by
  cases x <;> simp only [State.touchFrame, State.threadAt, State.homeAt, State.contentAt,
    Table.setFrame_frames, Table.setFrame_slots] <;> grind

/-- Choosing a victim changes no label. -/
theorem afterSweep_label (s : State Page) (e : ℕ) (bit : ℕ → Bool) (x : Place) :
    (s.afterSweep e bit).threadAt x = s.threadAt x ∧
      (s.afterSweep e bit).homeAt x = s.homeAt x ∧
      (s.afterSweep e bit).contentAt x = s.contentAt x := by
  cases x <;> exact ⟨rfl, rfl, rfl⟩

/-- Marking a swap node as accessed changes no label. -/
theorem touchSlot_label (s : State Page) (k : ℕ) (x : Place) :
    (s.touchSlot k).threadAt x = s.threadAt x ∧ (s.touchSlot k).homeAt x = s.homeAt x ∧
      (s.touchSlot k).contentAt x = s.contentAt x := by
  cases x <;> simp only [State.touchSlot, State.threadAt, State.homeAt, State.contentAt,
    Table.setSlot_frames, Table.setSlot_slots] <;> grind

/-- Giving a swap node to the thread changes no other label. -/
theorem claimSlot_label (s : State Page) (k : ℕ) (x : Place) :
    (s.claimSlot k).contentAt x = s.contentAt x ∧
      (x ≠ .slot k → (s.claimSlot k).threadAt x = s.threadAt x ∧
        (s.claimSlot k).homeAt x = s.homeAt x) := by
  cases x <;> simp only [State.claimSlot, State.threadAt, State.homeAt, State.contentAt,
    Table.setSlot_frames, Table.setSlot_slots, ne_eq, Place.slot.injEq] <;> grind

/-- An exchange through a victim keeps every page exactly when the page in the
wanted frame and the victim have that frame as their home. -/
theorem exchangeVictim_keeps_iff {s s₁ : State Page} {p e k : ℕ}
    (hm : Marks s s₁ s.currThread p (.slot k)) (hw : s.WellLabelled)
    (hfull : ∀ n < frameCount, (s.table.frames n).threadid ≠ 0) (hp : p < frameCount)
    (he : e < frameCount) (hk : k < slotCount) (hcurr : s.currThread ≠ 0) :
    s.Keeps (exchangeVictim s₁ p e k) p ↔ s.homeAt (.frame p) = p ∧ s.homeAt (.frame e) = p := by
  have hz : exchangePerm p e k (.slot k) = .frame p := by simp [exchangePerm_apply]
  rw [(exchangeVictim_exchanges s₁ hp he hk).keeps_iff hm hz hw hp hcurr
    fun x => x = .frame p ∨ x = .frame e]
  · constructor
    · exact fun h => ⟨h _ (Or.inl rfl), h _ (Or.inr rfl)⟩
    · rintro ⟨hhome, hvictim⟩ x (rfl | rfl)
      · exact hhome
      · exact hvictim
  · rintro x (rfl | rfl)
    · exact ⟨hp, hfull p hp⟩
    · exact ⟨he, hfull e he⟩
  · rintro x (rfl | rfl)
    · exact Or.inr rfl
    · left
      simp [exchangePerm_apply]
  · intro x hx hxk _
    rw [exchangePerm_apply, if_neg hxk] at hx
    grind

/-! ## The handler with memory full -/

/-- What serving a page does with memory full: it succeeds when the swap file has
room, and keeps every page exactly when the pages that leave are at home. -/
theorem servePage_keeps_iff {s : State Page} {p : ℕ} (hw : s.WellLabelled)
    (hfull : ∀ n < frameCount, (s.table.frames n).threadid ≠ 0)
    (hhand : s.free_list_position < frameCount) (hp : p < frameCount)
    (hcurr : s.currThread ≠ 0) (hcount : (p + 1 : ℕ) ≤ s.thread_page_count s.currThread)
    (hroom : (∃ k < slotCount, (s.table.slots k).threadid = 0) ∨
      ∃ k, s.Labelled (.slot k) s.currThread p) :
    ∃ s', servePage s p = some s' ∧ (s.Keeps s' p ↔ s.LeaversAtHome p) := by
  simp only [servePage, Table.frame_offset, if_neg (not_lt.mpr hcount)]
  by_cases hown : (s.table.frames p).threadid = s.currThread ∧ (s.table.frames p).retAddr = -1
  · -- The page is at home; nothing moves.
    rw [if_pos hown]
    refine ⟨_, rfl, iff_of_true ?_ ?_⟩
    · have hhome : s.Labelled (.frame p) s.currThread p :=
        ⟨hp, hfull p hp, hown.1, by simp [State.homeAt, hown.2]⟩
      have hrel : Relocates s ((s.touchFrame p).mprotect p .PROT_READ_WRITE) s.currThread p
          (Equiv.refl _) := by
        refine ⟨fun x => Iff.rfl, fun x => (State.stored_congr rfl x).mpr, fun x _ _ => ?_,
          ⟨?_, ?_⟩,
          Or.inl ⟨_, hhome, rfl, rfl⟩⟩
        · obtain ⟨hthread, hh, hc⟩ := touchFrame_label s p x
          exact ⟨hthread, fun _ => ⟨hh, hc⟩⟩
        · simpa [State.threadAt, State.touchFrame, State.mprotect] using hown.1
        · simpa [State.touchFrame, State.mprotect] using hown.2
      exact hrel.keeps hw hp hcurr
    · exact ⟨by simp [State.homeAt, hown.2],
        Or.inl ⟨p, hp, hfull p hp, hown.1, by simp [State.homeAt, hown.2]⟩⟩
  rw [if_neg hown]
  cases hframe : s.findFrame (s.returnsTo p) with
  | some n =>
    -- The page is in another frame, and the two frames are exchanged.
    have hn := labelled_of_findFrame hcurr hframe
    refine ⟨_, rfl, ?_⟩
    have hm : Marks s (s.touchFrame n) s.currThread p (.frame n) :=
      ⟨(touchFrame_label s n _).1.trans hn.2.2.1, fun x => (touchFrame_label s n x).2.2,
        State.stored_congr rfl,
        fun x _ => ⟨(touchFrame_label s n x).1, (touchFrame_label s n x).2.1⟩, Or.inl hn⟩
    rw [(swapPage_exchanges _ hp hn.1).keeps_iff hm (Equiv.swap_apply_right _ _) hw hp hcurr
      fun x => x = .frame p]
    · constructor
      · exact fun h => ⟨h _ rfl, Or.inl ⟨n, hn⟩⟩
      · rintro h x rfl
        exact h.1
    · rintro x rfl
      exact ⟨hp, hfull p hp⟩
    · exact fun x hx => Or.inr hx
    · intro x hx hxn _
      by_contra hxp
      exact hx (Equiv.swap_apply_of_ne_of_ne hxp hxn)
  | none =>
    have hnoframe := not_labelled_frame hown hframe
    have hleavers {e : ℕ} (he : s.IsVictim e) :
        s.LeaversAtHome p ↔ s.homeAt (.frame p) = p ∧ s.homeAt (.frame e) = p := by
      unfold State.LeaversAtHome
      refine and_congr_right fun _ => ⟨?_, fun h => Or.inr ⟨e, he, h⟩⟩
      rintro (⟨n, hn⟩ | ⟨e', he', h⟩)
      · exact absurd hn (hnoframe n)
      · rwa [he.unique he']
    cases hslot : s.findSlot (s.returnsTo p) with
    | some k =>
      -- The page is in the swap file.
      have hk := labelled_of_findSlot hcurr hslot
      obtain ⟨e, he, t, hevict⟩ := evictPage_isSome (s.touchSlot k) hhand
      obtain ⟨hvictim, bit, rfl, _⟩ := evictPage_eq_some hevict
      simp only [hevict, Option.map_some]
      refine ⟨_, rfl, ?_⟩
      have hm : Marks s ((s.touchSlot k).afterSweep e bit) s.currThread p (.slot k) := by
        constructor
        · rw [(afterSweep_label _ e bit _).1, (touchSlot_label s k _).1, hk.2.2.1]
        · intro x
          rw [(afterSweep_label _ e bit x).2.2, (touchSlot_label s k x).2.2]
        · exact State.stored_congr rfl
        · intro x _
          rw [(afterSweep_label _ e bit x).1, (afterSweep_label _ e bit x).2.1,
            (touchSlot_label s k x).1, (touchSlot_label s k x).2.1]
          exact ⟨rfl, rfl⟩
        · exact Or.inl hk
      have hvictim' : s.IsVictim e := hvictim
      rw [exchangeVictim_keeps_iff hm hw hfull hp he hk.1 hcurr, hleavers hvictim']
    | none =>
      -- The page is nowhere, and a free page of the swap file takes the victim.
      have hnoslot := not_labelled_slot hslot
      have hnew (x : Place) : ¬ s.Labelled x s.currThread p := by
        cases x with
        | frame n => exact hnoframe n
        | slot k => exact hnoslot k
      have hnofree : s.findFrame isFree = none :=
        State.findFrame_eq_none.mpr fun n hn => decide_eq_false (hfull n hn)
      obtain ⟨j, hj, hjfree⟩ := hroom.resolve_right (not_exists.mpr hnoslot)
      obtain ⟨e, he, t, hevict⟩ := evictPage_isSome s hhand
      obtain ⟨hvictim, bit, rfl, _⟩ := evictPage_eq_some hevict
      simp only [serveNewPage, serveByEviction, if_neg (hfull p hp), hnofree, hevict,
        Option.map_some, Table.frame_offset]
      cases hfree : (s.afterSweep e bit).findSlot isFree with
      | none =>
        have := State.findSlot_eq_none.mp hfree j hj
        exact absurd hjfree (of_decide_eq_false this)
      | some k =>
        obtain ⟨hkfree, hk, _⟩ := State.findSlot_eq_some.mp hfree
        refine ⟨_, rfl, ?_⟩
        have hm : Marks s ((s.afterSweep e bit).claimSlot k) s.currThread p (.slot k) := by
          constructor
          · simp [State.threadAt, State.claimSlot, State.afterSweep]
          · intro x
            rw [(claimSlot_label _ k x).1, (afterSweep_label s e bit x).2.2]
          · exact State.stored_congr rfl
          · intro x hx
            obtain ⟨hthread, hhome⟩ := (claimSlot_label (s.afterSweep e bit) k x).2 hx
            rw [hthread, hhome, (afterSweep_label s e bit x).1, (afterSweep_label s e bit x).2.1]
            exact ⟨rfl, rfl⟩
          · exact Or.inr ⟨of_decide_eq_true hkfree, hnew⟩
        rw [exchangeVictim_keeps_iff hm hw hfull hp he hk hcurr, hleavers hvictim]

/-- With memory full and room in the swap file, the handler serves the fault, and
it keeps every page exactly when the pages that leave their frames have the
wanted frame as their home. -/
theorem fault_keeps_pages_iff {s : State Page} {p offset : ℕ} (hw : s.WellLabelled)
    (hfull : ∀ n < frameCount, (s.table.frames n).threadid ≠ 0)
    (hhand : s.free_list_position < frameCount) (hp : p < frameCount) (hoffset : offset < PAGE_SIZE)
    (hcurr : s.currThread ≠ 0) (hcount : (p + 1 : ℕ) ≤ s.thread_page_count s.currThread)
    (hroom : (∃ k < slotCount, (s.table.slots k).threadid = 0) ∨
      ∃ k, s.Labelled (.slot k) s.currThread p) :
    ∃ s', pageFaultHandler s (p * PAGE_SIZE + offset) = some s' ∧
      (s.Keeps s' p ↔ s.LeaversAtHome p) := by
  rw [pageFaultHandler_eq s hp hoffset]
  exact servePage_keeps_iff hw hfull hhand hp hcurr hcount hroom

/-- Memory full of pages of thread 2, all at home, while thread 1 runs. -/
def memoryFull : State ℕ :=
  { buildKernalSpace id ⟨fun _ => 0, 436⟩ (fun _ => 0) with
    table :=
      { frames := fun n => ⟨2, n, -1, false⟩
        slots := fun k => ⟨0, k, -1, false⟩
        frame_offset := fun _ => rfl
        slot_offset := free_offset }
    thread_page_count := fun _ => 1600 }

theorem memoryFull_wellLabelled : memoryFull.WellLabelled := by
  constructor
  · rintro (n | k) hx hthread
    · exact ⟨n, hx, rfl⟩
    · exact absurd rfl hthread
  · rintro (n | k) _ hthread
    · trivial
    · exact absurd rfl hthread
  · rintro (n | k) (m | j) t home ⟨_, hx, _, hxhome⟩ ⟨_, hy, _, hyhome⟩
    · have hn : (n : ℤ) = home := hxhome
      have hm : (m : ℤ) = home := hyhome
      exact congrArg Place.frame (by omega)
    · exact absurd rfl hy
    · exact absurd rfl hx
    · exact absurd rfl hx

theorem memoryFull_full : ∀ n < frameCount, (memoryFull.table.frames n).threadid ≠ 0 :=
  fun _ _ => two_ne_zero

/-- With the clock hand on frame 0 and its bit clear, frame 0 is the victim. -/
theorem memoryFull_isVictim : memoryFull.IsVictim 0 :=
  ⟨0, ⟨Or.inl rfl, fun _ hj => absurd hj (by omega), fun _ hj => absurd hj (by omega)⟩, rfl⟩

/-- A fault in page 0 evicts the page of frame 0, which is at home. -/
theorem fault_keeps_pages_memoryFull :
    ∃ s', pageFaultHandler memoryFull (0 * PAGE_SIZE + 35) = some s' ∧ memoryFull.Keeps s' 0 := by
  have hsafe : memoryFull.LeaversAtHome 0 := ⟨rfl, Or.inr ⟨0, memoryFull_isVictim, rfl⟩⟩
  obtain ⟨s', hs', hiff⟩ := fault_keeps_pages_iff (s := memoryFull) (p := 0)
    memoryFull_wellLabelled memoryFull_full (by decide) (by decide)
    (by decide : 35 < PAGE_SIZE) (by decide) (by decide) (Or.inl ⟨0, by decide, rfl⟩)
  exact ⟨s', hs', hiff.mpr hsafe⟩

/-- A fault in page 1 evicts the page of frame 0 as well, and loses it: the table
is well labelled and full, the swap file is empty, yet not every page is kept. -/
theorem fault_loses_page :
    memoryFull.WellLabelled ∧ (∀ n < frameCount, (memoryFull.table.frames n).threadid ≠ 0) ∧
      (memoryFull.table.slots 0).threadid = 0 ∧
      ∃ s', pageFaultHandler memoryFull (1 * PAGE_SIZE + 35) = some s' ∧
        ¬ memoryFull.Keeps s' 1 := by
  refine ⟨memoryFull_wellLabelled, memoryFull_full, rfl, ?_⟩
  rw [pageFaultHandler_eq memoryFull (by decide) (by decide)]
  obtain ⟨s', hs', hiff⟩ := servePage_keeps_iff (s := memoryFull) (p := 1)
    memoryFull_wellLabelled memoryFull_full (by decide) (by decide) (by decide) (by decide)
    (Or.inl ⟨0, by decide, rfl⟩)
  refine ⟨s', hs', fun hkeeps => ?_⟩
  obtain ⟨_, ⟨n, _, _, hthread, _⟩ | ⟨e, he, hhome⟩⟩ := hiff.mp hkeeps
  · have heq : (2 : ℕ) = 1 := hthread
    omega
  · rw [he.unique memoryFull_isVictim] at hhome
    exact absurd hhome (by decide)

end SimpleOs.Paging
