import SimpleOs.Paging.Exit
import SimpleOs.Paging.Residence

/-!
# How a fault is served

`pageFaultHandler` looks for the wanted page at home, in the other frames and in
the swap file, and then for a free place to put it. Each way it can end is one
constructor of `Service`, with the guards that lead there. What every fault
does, in every state a run can reach, follows by cases.
-/

namespace SimpleOs.Paging

variable {Page : Type*}

/-- Page `p` of the running thread is in no place. -/
def State.Nowhere (s : State Page) (p : ℕ) : Prop := ∀ x, ¬ s.Labelled x s.currThread p

/-- The ways in which the handler serves page `p`. -/
inductive Service (s : State Page) (p : ℕ) : State Page → Prop
  /-- The page is at home. -/
  | home : s.Labelled (.frame p) s.currThread p → (s.table.frames p).retAddr = -1 →
      Service s p ((s.touchFrame p).mprotect p .PROT_READ_WRITE)
  /-- The page is in another frame. -/
  | frame {n : ℕ} : s.Labelled (.frame n) s.currThread p → (s.table.frames n).retAddr = p →
      Service s p (swapPage (s.touchFrame n) p n 0)
  /-- The page is in the swap file. -/
  | slot {k e : ℕ} {bit : ℕ → Bool} : s.Labelled (.slot k) s.currThread p → e < frameCount →
      s.IsVictim e → Service s p (exchangeVictim ((s.touchSlot k).afterSweep e bit) p e k)
  /-- The page is new and its frame is free. -/
  | claim : s.Nowhere p → (s.table.frames p).threadid = 0 →
      Service s p ((s.mprotect p .PROT_READ_WRITE).claimFrame p)
  /-- The page is new and another frame is free. -/
  | displace {n : ℕ} : s.Nowhere p → (s.table.frames p).threadid ≠ 0 → n < frameCount →
      (s.table.frames n).threadid = 0 → Service s p (swapPage (s.claimFrame n) p n 0)
  /-- The page is new, memory is full and page `k` of the swap file is the first free one. -/
  | evict {k e : ℕ} {bit : ℕ → Bool} : s.Nowhere p →
      (∀ n < frameCount, (s.table.frames n).threadid ≠ 0) → e < frameCount → s.IsVictim e →
      s.findSlot isFree = some k →
      Service s p (exchangeVictim ((s.afterSweep e bit).claimSlot k) p e k)
  /-- The page is new and no place is free. -/
  | stuck {e : ℕ} {bit : ℕ → Bool} : s.Nowhere p → e < frameCount →
      (∀ n < frameCount, (s.table.frames n).threadid ≠ 0) →
      (∀ k < slotCount, (s.table.slots k).threadid ≠ 0) →
      Service s p (s.afterSweep e bit)

variable {s s' : State Page} {p : ℕ}

/-- A victim is a frame, and choosing it is a sweep. -/
theorem evictPage_afterSweep {e : ℕ} {t : State Page} (hhand : s.free_list_position < frameCount)
    (h : evictPage s = some (e, t)) :
    e < frameCount ∧ s.IsVictim e ∧ ∃ bit, t = s.afterSweep e bit := by
  obtain ⟨f, hf, u, hfu⟩ := evictPage_isSome s hhand
  obtain ⟨rfl, rfl⟩ := Prod.mk.inj (Option.some.inj (h.symm.trans hfu))
  obtain ⟨hvictim, bit, rfl, _⟩ := evictPage_eq_some h
  exact ⟨hf, hvictim, bit, rfl⟩

/-- The page of the swap file that the scan finds is free. -/
theorem State.free_of_findSlot {k : ℕ} (h : s.findSlot isFree = some k) :
    k < slotCount ∧ (s.table.slots k).threadid = 0 := by
  obtain ⟨htest, hk, _⟩ := State.findSlot_eq_some.mp h
  exact ⟨hk, of_decide_eq_true htest⟩

/-- What the handler does for a page that is nowhere. -/
theorem serveNewPage_service (hhand : s.free_list_position < frameCount) (hnew : s.Nowhere p)
    (h : serveNewPage s (s.table.frames p) = some s') : Service s p s' := by
  unfold serveNewPage at h
  simp only [Table.frame_offset] at h
  split at h
  · rename_i hfree
    cases h
    exact .claim hnew hfree
  · rename_i hocc
    split at h
    · rename_i n hfind
      cases h
      obtain ⟨htest, hn, _⟩ := State.findFrame_eq_some.mp hfind
      exact .displace hnew hocc hn (of_decide_eq_true htest)
    · rename_i hfind
      have hfull : ∀ n < frameCount, (s.table.frames n).threadid ≠ 0 := fun n hn =>
        of_decide_eq_false (State.findFrame_eq_none.mp hfind n hn)
      unfold serveByEviction at h
      obtain ⟨⟨e, t⟩, hevict, heq⟩ := Option.map_eq_some_iff.mp h
      obtain ⟨he, hvictim, bit, rfl⟩ := evictPage_afterSweep hhand hevict
      simp only [Table.frame_offset] at heq
      split at heq
      · rename_i k hslot
        subst heq
        exact .evict hnew hfull he hvictim hslot
      · rename_i hslot
        subst heq
        exact .stuck hnew he hfull fun k hk =>
          of_decide_eq_false (State.findSlot_eq_none.mp hslot k hk)

/-- The handler ends in one of these ways. -/
theorem servePage_service (hp : p < frameCount) (hcurr : s.currThread ≠ 0)
    (hhand : s.free_list_position < frameCount) (h : servePage s p = some s') :
    Service s p s' := by
  unfold servePage at h
  simp only [Table.frame_offset] at h
  split at h
  · cases h
  · split at h
    · rename_i hown
      cases h
      refine .home ⟨hp, ?_, hown.1, by simp [State.homeAt, hown.2]⟩ hown.2
      rw [State.threadAt, hown.1]
      exact hcurr
    · rename_i hown
      split at h
      · rename_i n hfind
        cases h
        have htest := of_decide_eq_true (State.findFrame_eq_some.mp hfind).1
        exact .frame (labelled_of_findFrame hcurr hfind) htest.2
      · rename_i hframe
        split at h
        · rename_i k hfind
          obtain ⟨⟨e, t⟩, hevict, rfl⟩ := Option.map_eq_some_iff.mp h
          obtain ⟨he, hvictim, bit, rfl⟩ :=
            evictPage_afterSweep (s := s.touchSlot k) hhand hevict
          exact .slot (labelled_of_findSlot hcurr hfind) he hvictim
        · rename_i hslot
          apply serveNewPage_service hhand ?_ h
          rintro (n | k)
          · exact not_labelled_frame hown hframe n
          · exact not_labelled_slot hslot k

/-- The handler ends the process exactly when the page is beyond the thread's
page count. -/
theorem servePage_eq_none_iff (hhand : s.free_list_position < frameCount) :
    servePage s p = none ↔ s.thread_page_count s.currThread < (p + 1 : ℕ) := by
  unfold servePage
  simp only [Table.frame_offset]
  split
  · rename_i hcount
    exact iff_of_true rfl hcount
  · rename_i hcount
    refine iff_of_false ?_ hcount
    split
    · exact Option.some_ne_none _
    · split
      · exact Option.some_ne_none _
      · split
        · rename_i k _
          obtain ⟨e, _, t, hevict⟩ := evictPage_isSome (s.touchSlot k) hhand
          rw [hevict]
          exact Option.some_ne_none _
        · unfold serveNewPage
          split
          · exact Option.some_ne_none _
          · split
            · exact Option.some_ne_none _
            · obtain ⟨e, _, t, hevict⟩ := evictPage_isSome s hhand
              rw [serveByEviction, hevict]
              exact Option.some_ne_none _

/-! ## Pages are carried along -/

/-- When page `p` is served, every place is carried to another one with its contents, and
with its owner if it has one. -/
structure Carries (s s' : State Page) (p : ℕ) (σ : Equiv.Perm Place) : Prop where
  /-- Places that exist are exchanged with each other. -/
  valid : ∀ x, (σ x).Valid ↔ x.Valid
  /-- Places that had contents are moved to places that have. -/
  stored : ∀ x, s.Stored x → s'.Stored (σ x)
  /-- Contents move, and so does what the read gives for the served frame. -/
  content : ∀ x, s.Stored x ∨ σ x = .frame p → s'.contentAt (σ x) = s.contentAt x
  /-- The owner of a place in use moves with it along `σ`. -/
  thread : ∀ x, s.threadAt x ≠ 0 → s'.threadAt (σ x) = s.threadAt x
  /-- A free place is only given to the running thread, as the served frame. -/
  free : ∀ x, s.threadAt x = 0 →
    s'.threadAt (σ x) = 0 ∨ σ x = .frame p ∧ s'.threadAt (σ x) = s.currThread

/-- Pages that are in use have contents again after they were carried. -/
theorem Carries.usedStored {σ : Equiv.Perm Place} (h : Carries s s' p σ)
    (hs : ∀ x, s.threadAt x ≠ 0 → s.Stored x) (y : Place) (hy : s'.threadAt y ≠ 0) :
    s'.Stored y := by
  obtain ⟨x, rfl⟩ := σ.surjective y
  by_cases hfree : s.threadAt x = 0
  · rcases h.free x hfree with hzero | ⟨hserved, _⟩
    · exact absurd hzero hy
    · rw [hserved]
      trivial
  · exact h.stored x (hs x hfree)

/-- An exchange carries the places, after the wanted page's place was marked. -/
theorem Exchanges.carries {s₁ : State Page} {z : Place} {σ : Equiv.Perm Place}
    (h : Exchanges s₁ s' p σ) (hm : Marks s s₁ s.currThread p z) (hz : σ z = .frame p) :
    Carries s s' p σ := by
  refine ⟨h.valid, fun x hx => h.stored x ((hm.stored x).mpr hx), fun x hx => ?_,
    fun x hx => ?_, fun x hx => ?_⟩
  · exact (h.content x (hx.imp_left (hm.stored x).mpr)).trans (hm.content x)
  · rw [h.thread]
    by_cases hxz : x = z
    · subst hxz
      rcases hm.wanted with hlabel | hfree
      · exact hm.thread.trans hlabel.2.2.1.symm
      · exact absurd hfree.1 hx
    · exact (hm.other x hxz).1
  · rw [h.thread]
    by_cases hxz : x = z
    · subst hxz
      exact Or.inr ⟨hz, hm.thread⟩
    · exact Or.inl ((hm.other x hxz).1.trans hx)

/-- Marking the page of the swap file that holds the wanted page. -/
theorem touchSlot_marks {k e : ℕ} {bit : ℕ → Bool} (hk : s.Labelled (.slot k) s.currThread p) :
    Marks s ((s.touchSlot k).afterSweep e bit) s.currThread p (.slot k) where
  thread := (touchSlot_label s k _).1.trans hk.2.2.1
  content x := (touchSlot_label s k x).2.2
  stored := State.stored_congr rfl
  other x _ := ⟨(touchSlot_label s k x).1, (touchSlot_label s k x).2.1⟩
  wanted := Or.inl hk

/-- Marking a free page of the swap file for a page that is nowhere. -/
theorem claimSlot_marks {k e : ℕ} {bit : ℕ → Bool} (hfree : (s.table.slots k).threadid = 0)
    (hnew : s.Nowhere p) :
    Marks s ((s.afterSweep e bit).claimSlot k) s.currThread p (.slot k) where
  thread := by simp [State.threadAt, State.claimSlot, State.afterSweep]
  content x := (claimSlot_label (s.afterSweep e bit) k x).1
  stored := State.stored_congr rfl
  other x := (claimSlot_label (s.afterSweep e bit) k x).2
  wanted := Or.inr ⟨hfree, hnew⟩

/-- A fault in a page that can be served brings it from the place that holds it,
or from a free place when there is none. -/
theorem Service.carries (h : Service s p s') (hp : p < frameCount) :
    ∃ σ, Carries s s' p σ ∧ ((s.Nowhere p ∧ (∀ x, x.Valid → s.threadAt x ≠ 0)) ∨
      (s.Labelled (σ.symm (.frame p)) s.currThread p ∨
        s.Nowhere p ∧ s.threadAt (σ.symm (.frame p)) = 0)) := by
  have hserved (k e : ℕ) : exchangePerm p e k (.slot k) = .frame p := by
    rw [exchangePerm_apply, if_pos rfl]
  have hslot (k e : ℕ) : (exchangePerm p e k).symm (.frame p) = .slot k := by
    rw [Equiv.symm_apply_eq, hserved]
  cases h with
  | home hlabel _ =>
    refine ⟨Equiv.refl _, ⟨fun _ => Iff.rfl, fun x => (State.stored_congr rfl x).mpr,
      fun x _ => (touchFrame_label s p x).2.2,
      fun x _ => (touchFrame_label s p x).1, fun x hx => Or.inl ?_⟩, Or.inr (Or.inl hlabel)⟩
    exact (touchFrame_label s p x).1.trans hx
  | @frame n hlabel _ =>
    refine ⟨_, (swapPage_exchanges _ hp hlabel.1).carries (touchFrame_marks hlabel)
      (Equiv.swap_apply_right _ _),
      Or.inr (Or.inl ?_)⟩
    rwa [Equiv.symm_swap, Equiv.swap_apply_left]
  | @slot k e bit hlabel he _ =>
    refine ⟨_, (exchangeVictim_exchanges _ hp he hlabel.1).carries (touchSlot_marks hlabel)
      (hserved k e),
      Or.inr (Or.inl ?_)⟩
    rwa [hslot]
  | claim hnew hfree =>
    refine ⟨Equiv.refl _, ⟨fun _ => Iff.rfl, fun x => (State.stored_congr rfl x).mpr,
      fun x _ => (claimFrame_label _ p x).1,
      fun x hx => ?_, fun x hx => ?_⟩, Or.inr (Or.inr ⟨hnew, hfree⟩)⟩
    · exact ((claimFrame_label _ p x).2 fun hxp => hx (by rwa [hxp])).1
    · by_cases hxp : x = .frame p
      · right
        simp [hxp, State.threadAt, State.claimFrame, State.mprotect]
      · exact Or.inl (((claimFrame_label _ p x).2 hxp).1.trans hx)
  | @displace n hnew _ hn hfree =>
    refine ⟨_, (swapPage_exchanges _ hp hn).carries (claimFrame_marks hfree hnew)
      (Equiv.swap_apply_right _ _),
      Or.inr (Or.inr ⟨hnew, ?_⟩)⟩
    rwa [Equiv.symm_swap, Equiv.swap_apply_left]
  | @evict k e bit hnew _ he _ hfind =>
    obtain ⟨hk, hfree⟩ := State.free_of_findSlot hfind
    refine ⟨_, (exchangeVictim_exchanges _ hp he hk).carries (claimSlot_marks hfree hnew)
      (hserved k e),
      Or.inr (Or.inr ⟨hnew, ?_⟩)⟩
    rwa [hslot]
  | @stuck e bit hnew _ hframes hslots =>
    refine ⟨Equiv.refl _, ⟨fun _ => Iff.rfl, fun x => (State.stored_congr rfl x).mpr,
      fun x _ => (afterSweep_label s e bit x).2.2,
      fun x _ => (afterSweep_label s e bit x).1, fun x hx => Or.inl ?_⟩, Or.inl ⟨hnew, ?_⟩⟩
    · exact (afterSweep_label s e bit x).1.trans hx
    · rintro (n | k) hx
      · exact hframes n hx
      · exact hslots k hx

/-! ## The frames that are opened -/

/-- The protections after a victim has gone to the swap file. -/
theorem exchangeVictim_prot (s : State Page) (p e k n : ℕ) :
    (exchangeVictim s p e k).prot n =
      if n = p then .PROT_READ_WRITE else if n = e then .PROT_NONE else s.prot n := by
  unfold exchangeVictim
  split
  · simp only [swapFileGrab, State.mprotect, Function.update_apply]
    grind
  · simp only [swapFileGrab, State.mprotect, Function.update_apply, swapPage_prot]
    grind

/-- The hand stays where it is in an exchange through a victim. -/
theorem exchangeVictim_hand (s : State Page) (p e k : ℕ) :
    (exchangeVictim s p e k).free_list_position = s.free_list_position := by
  unfold exchangeVictim
  split <;> rfl

/-- What every event of a run keeps, whatever the threads do. -/
structure State.Steady (s : State Page) : Prop where
  /-- Some thread is running: its id is not 0. -/
  running : s.currThread ≠ 0
  /-- The clock hand is on a frame. -/
  hand : s.free_list_position < frameCount
  /-- No page is recorded to return to the frame it is in. -/
  away : ∀ n : ℕ, (s.table.frames n).retAddr ≠ n
  /-- An open frame belongs to some thread. -/
  owned : ∀ n < frameCount, s.prot n ≠ .PROT_NONE → (s.table.frames n).threadid ≠ 0
  /-- A page of the swap file that is in use was written. -/
  stored : ∀ x, s.threadAt x ≠ 0 → s.Stored x

/-- What an exchange that brings the wanted page to frame `p` and closes frame
`n` keeps. -/
theorem State.Steady.exchange {n : ℕ} (h : s.Steady) (hcurr : s'.currThread = s.currThread)
    (hhand : s'.free_list_position < frameCount)
    (hserved : (s'.table.frames p).threadid = s.currThread ∧ (s'.table.frames p).retAddr = -1)
    (hclosed : n ≠ p → (s'.table.frames n).retAddr = p ∧ s'.prot n = .PROT_NONE)
    (hkept : ∀ m, m ≠ p → m ≠ n → (s'.table.frames m).threadid = (s.table.frames m).threadid ∧
      (s'.table.frames m).retAddr = (s.table.frames m).retAddr ∧ s'.prot m = s.prot m)
    (hstored : ∀ x, s'.threadAt x ≠ 0 → s'.Stored x) : s'.Steady := by
  refine ⟨by rw [hcurr]; exact h.running, hhand, fun m => ?_, fun m hm hopen => ?_, hstored⟩
  · by_cases hmp : m = p
    · rw [hmp, hserved.2]
      omega
    · by_cases hmn : m = n
      · subst hmn
        rw [(hclosed hmp).1]
        omega
      · rw [(hkept m hmp hmn).2.1]
        exact h.away m
  · by_cases hmp : m = p
    · rw [hmp, hserved.1]
      exact h.running
    · by_cases hmn : m = n
      · subst hmn
        exact absurd (hclosed hmp).2 hopen
      · rw [(hkept m hmp hmn).1]
        apply h.owned m hm
        rwa [← (hkept m hmp hmn).2.2]

/-- Exchanging the wanted frame with a marked one. -/
theorem swapPage_steady {s₁ : State Page} {n : ℕ} (h : s.Steady) (hne : n ≠ p)
    (hcurr : s₁.currThread = s.currThread) (hhand : s₁.free_list_position = s.free_list_position)
    (hprot : s₁.prot = s.prot) (howner : (s₁.table.frames n).threadid = s.currThread)
    (hkept : ∀ m, m ≠ n → s₁.table.frames m = s.table.frames m)
    (hstored : ∀ x, (swapPage s₁ p n 0).threadAt x ≠ 0 → (swapPage s₁ p n 0).Stored x) :
    (swapPage s₁ p n 0).Steady := by
  refine h.exchange (p := p) (n := n) hcurr ?_ ⟨?_, ?_⟩ (fun _ => ⟨?_, ?_⟩)
    (fun m hmp hmn => ?_) hstored
  · have : (swapPage s₁ p n 0).free_list_position = s₁.free_list_position := rfl
    rw [this, hhand]
    exact h.hand
  · rw [swapPage_threadid, if_pos rfl]
    exact howner
  · rw [swapPage_frames, if_pos rfl]
    rfl
  · rw [swapPage_frames, if_neg hne, if_pos rfl]
  · rw [swapPage_prot, if_pos rfl]
  · rw [swapPage_frames, if_neg hmp, if_neg hmn, hkept m hmn, swapPage_prot, if_neg hmn,
      if_neg hmp, hprot]
    exact ⟨rfl, rfl, rfl⟩

/-- Exchanging the wanted frame with a page of the swap file through a victim. -/
theorem exchangeVictim_steady {s₁ : State Page} {e k : ℕ} (h : s.Steady)
    (hcurr : s₁.currThread = s.currThread) (hhand : s₁.free_list_position < frameCount)
    (hprot : s₁.prot = s.prot) (howner : (s₁.table.slots k).threadid = s.currThread)
    (hkept : ∀ m, (s₁.table.frames m).threadid = (s.table.frames m).threadid ∧
      (s₁.table.frames m).retAddr = (s.table.frames m).retAddr)
    (hstored : ∀ x, (exchangeVictim s₁ p e k).threadAt x ≠ 0 →
      (exchangeVictim s₁ p e k).Stored x) : (exchangeVictim s₁ p e k).Steady := by
  refine h.exchange (p := p) (n := e) ?_ ?_ ⟨?_, ?_⟩ (fun hne => ⟨?_, ?_⟩)
    (fun m hmp hme => ?_) hstored
  · rw [exchangeVictim_currThread, hcurr]
  · rwa [exchangeVictim_hand]
  · rw [exchangeVictim_frames, if_pos rfl]
    exact howner
  · rw [exchangeVictim_frames, if_pos rfl]
  · rw [exchangeVictim_frames, if_neg hne, if_pos rfl]
  · rw [exchangeVictim_prot, if_neg hne, if_pos rfl]
  · rw [exchangeVictim_frames, if_neg hmp, if_neg hme, exchangeVictim_prot, if_neg hmp,
      if_neg hme, hprot]
    exact ⟨(hkept m).1, (hkept m).2, rfl⟩

/-- Serving a page keeps what every event keeps. -/
theorem Service.steady (h : Service s p s') (hp : p < frameCount) (hs : s.Steady) :
    s'.Steady := by
  obtain ⟨_, hcarries, _⟩ := h.carries hp
  have hstored := hcarries.usedStored hs.stored
  have hnext (e : ℕ) (he : e < frameCount) : s.table.nextPosition e < frameCount :=
    s.table.nextPosition_lt he
  cases h with
  | home hlabel hret =>
    refine hs.exchange (p := p) (n := p) rfl hs.hand ⟨?_, ?_⟩ (fun h => absurd rfl h)
      (fun m hm _ => ?_) hstored
    · have howner : (s.table.frames p).threadid = s.currThread := hlabel.2.2.1
      simpa [State.touchFrame, State.mprotect] using howner
    · simpa [State.touchFrame, State.mprotect] using hret
    · simp [State.touchFrame, State.mprotect, hm]
  | @frame n hlabel hret =>
    have hne : n ≠ p := by
      rintro rfl
      exact hs.away n hret
    apply swapPage_steady hs hne
    · rfl
    · rfl
    · rfl
    · have howner : (s.table.frames n).threadid = s.currThread := hlabel.2.2.1
      simpa [State.touchFrame] using howner
    · intro m hm
      simp [State.touchFrame, hm]
    · exact hstored
  | @slot k e bit hlabel he _ =>
    apply exchangeVictim_steady hs
    · rfl
    · exact hnext e he
    · rfl
    · have howner : (s.table.slots k).threadid = s.currThread := hlabel.2.2.1
      simpa [State.touchSlot, State.afterSweep] using howner
    · exact fun m => ⟨rfl, rfl⟩
    · exact hstored
  | claim _ hfree =>
    refine ⟨hs.running, hs.hand, fun n => ?_, fun n hn hopen => ?_, hstored⟩
    · simp only [State.claimFrame, State.mprotect, Table.setFrame_frames]
      split
      · rename_i heq
        subst heq
        exact hs.away n
      · exact hs.away n
    · simp only [State.claimFrame, State.mprotect, Table.setFrame_frames]
      by_cases hnp : n = p
      · simpa [hnp] using hs.running
      · simp only [if_neg hnp]
        apply hs.owned n hn
        simpa [State.claimFrame, State.mprotect, hnp] using hopen
  | @displace n _ hocc _ hfree =>
    have hne : n ≠ p := by
      rintro rfl
      exact hocc hfree
    apply swapPage_steady hs hne
    · rfl
    · rfl
    · rfl
    · simp [State.claimFrame]
    · intro m hm
      simp [State.claimFrame, hm]
    · exact hstored
  | @evict k e bit _ _ he _ _ =>
    apply exchangeVictim_steady hs
    · rfl
    · exact hnext e he
    · rfl
    · simp [State.claimSlot, State.afterSweep]
    · exact fun m => ⟨rfl, rfl⟩
    · exact hstored
  | @stuck e bit _ he _ _ => exact ⟨hs.running, hnext e he, hs.away, hs.owned, hstored⟩

/-! ## In every reachable state -/

section Runs

variable [Zero Page]

/-- The scan of `protectPages` does not move the clock hand. -/
@[simp] theorem protectFrom_hand (s : State Page) (threadID : ℕ) (exiting : Bool)
    (i remaining : ℕ) : (protectFrom s threadID exiting i remaining).free_list_position =
      s.free_list_position := by
  induction remaining generalizing s i with
  | zero => rfl
  | succ remaining ih =>
    rw [protectFrom]
    split
    · rw [ih]
      split
      · cases exiting <;> rfl
      · rfl
    · rfl

/-- What a context switch does to a frame: it stays as it is, or it belongs to
the outgoing thread, is closed, and is zeroed and freed if the thread exits. -/
theorem contextSwitch_frame (s : State Page) (thread_id n : ℕ) (exiting : Bool) :
    SameFrame s (contextSwitch s thread_id exiting) n ∨
      (s.table.frames n).threadid = s.currThread ∧
        SameFrame (protectFrame s n exiting) (contextSwitch s thread_id exiting) n := by
  let t : State Page := { s with currThread := thread_id }
  have hscan : SameFrame (protectFrom t s.currThread exiting 0 frameCount)
      (contextSwitch s thread_id exiting) n := by
    cases exiting <;> exact ⟨rfl, rfl, rfl⟩
  by_cases htakes : t.ScanTakes s.currThread 0 frameCount n
  · right
    have hsame : SameFrame s t n := ⟨rfl, rfl, rfl⟩
    exact ⟨htakes.2.2, hsame.protect.trans ((protectFrom_frame.1 htakes).trans hscan)⟩
  · left
    exact (protectFrom_frame.2 htakes).trans hscan

/-- A context switch leaves the swap file alone. -/
theorem contextSwitch_swap (s : State Page) (thread_id : ℕ) (exiting : Bool) :
    (contextSwitch s thread_id exiting).table.slots = s.table.slots ∧
      (contextSwitch s thread_id exiting).swapFile = s.swapFile ∧
      (contextSwitch s thread_id exiting).stack = s.stack := by
  have hscan : SameElsewhere { s with currThread := thread_id }
      (protectFrom { s with currThread := thread_id } s.currThread exiting 0 frameCount) :=
    protectFrom_elsewhere
  obtain ⟨hslots, hfile, hstack, _⟩ := hscan
  cases exiting <;> exact ⟨hslots, hfile, hstack⟩

/-- One event keeps a steady state. -/
theorem accessStep_steady {e : AccessEvent Page} (h : s.Steady)
    (hstep : accessStep s e = some s') : s'.Steady := by
  cases e with
  | charge pages =>
    cases hstep
    exact ⟨h.running, h.hand, h.away, h.owned, h.stored⟩
  | access page offset write =>
    obtain ⟨hp, ⟨_, hserve⟩ | ⟨_, rfl⟩⟩ := accessStep_access hstep
    · exact (servePage_service hp h.running h.hand hserve).steady hp h
    · exact ⟨h.running, h.hand, h.away, h.owned, h.stored⟩
  | contextSwitch thread_id exiting =>
    obtain ⟨hne, rfl⟩ := accessStep_contextSwitch hstep
    refine ⟨?_, ?_, fun n => ?_, fun n hn hopen => ?_, fun x hx => ?_⟩
    · rw [(contextSwitch_eq s thread_id exiting).2.2]
      exact hne.1
    · have hhand : (contextSwitch s thread_id exiting).free_list_position =
          s.free_list_position := by
        cases exiting <;> simp [contextSwitch, protectPages]
      rw [hhand]
      exact h.hand
    · rcases contextSwitch_frame s thread_id n exiting with hsame | ⟨_, hsame⟩
      · rw [hsame.1]
        exact h.away n
      · rw [hsame.1]
        have := h.away n
        cases exiting
        · exact this
        · simp [protectFrame, State.mprotect]
    · rcases contextSwitch_frame s thread_id n exiting with hsame | ⟨_, hsame⟩
      · rw [hsame.1]
        apply h.owned n hn
        rwa [← hsame.2.2]
      · rw [hsame.2.2, protectFrame_prot, if_pos rfl] at hopen
        exact absurd rfl hopen
    · obtain ⟨hslots, hfile, _⟩ := contextSwitch_swap s thread_id exiting
      rw [State.stored_congr hfile]
      cases x with
      | frame n => trivial
      | slot k =>
        rw [State.threadAt, hslots] at hx
        exact h.stored (.slot k) hx

/-- Every run keeps a steady state. -/
theorem AccessReach.steady {ok : State Page → AccessEvent Page → Prop} (h : AccessReach ok s) :
    s.Steady := by
  apply h.invariant
  · rintro s ⟨memory, swapFile, stack, rfl⟩
    refine ⟨one_ne_zero, ?_, fun n hn => ?_, fun n _ hopen => absurd rfl hopen, fun x hx => ?_⟩
    · change 0 < frameCount
      decide
    · have : (-1 : ℤ) = n := hn
      omega
    · cases x <;> exact absurd rfl hx
  · exact fun s e s' hs _ hstep => accessStep_steady hs hstep

/-- The wanted page is somewhere, or there is a free place for it. -/
def State.CanServe (s : State Page) (p : ℕ) : Prop :=
  (∃ x, s.Labelled x s.currThread p) ∨ ∃ x : Place, x.Valid ∧ s.threadAt x = 0

/-- The page was served: its frame is open and belongs to the running thread, and
it was brought with its contents from a place labelled with the page, or is what
the handler reads at a free place if no place is. -/
structure State.Served (s s' : State Page) (p : ℕ) : Prop where
  /-- The next access does not fault. -/
  accessible : s'.prot p = .PROT_READ_WRITE
  /-- The frame belongs to the running thread. -/
  owner : (s'.table.frames p).threadid = s.currThread
  /-- Where the contents come from. A free place may lie behind the end of the swap file;
  the read is then short and gives what the buffer holds. -/
  source : ∃ x : Place, x.Valid ∧
    (s.Labelled x s.currThread p ∧ s.Stored x ∨ s.Nowhere p ∧ s.threadAt x = 0) ∧
    s'.memory p = s.contentAt x

omit [Zero Page] in
/-- The frame of a page that can be served is opened for the running thread. -/
theorem Service.opened (h : Service s p s') (hs : s.Steady) (hserve : s.CanServe p) :
    s'.prot p = .PROT_READ_WRITE ∧ (s'.table.frames p).threadid = s.currThread := by
  have hmprotect (t : State Page) : (t.mprotect p .PROT_READ_WRITE).prot p = .PROT_READ_WRITE := by
    simp [State.mprotect]
  cases h with
  | home hlabel _ =>
    have howner : (s.table.frames p).threadid = s.currThread := hlabel.2.2.1
    exact ⟨hmprotect _, by simpa [State.touchFrame, State.mprotect] using howner⟩
  | @frame n hlabel hret =>
    have hne : p ≠ n := by
      rintro rfl
      exact hs.away p hret
    have howner : (s.table.frames n).threadid = s.currThread := hlabel.2.2.1
    constructor
    · rw [swapPage_prot, if_neg hne, if_pos rfl]
    · rw [swapPage_threadid, if_pos rfl]
      simpa [State.touchFrame] using howner
  | @slot k e bit hlabel he _ =>
    have howner : (s.table.slots k).threadid = s.currThread := hlabel.2.2.1
    constructor
    · rw [exchangeVictim_prot, if_pos rfl]
    · rw [exchangeVictim_frames, if_pos rfl]
      simpa [State.touchSlot, State.afterSweep] using howner
  | claim _ _ =>
    exact ⟨hmprotect _, by simp [State.claimFrame, State.mprotect]⟩
  | @displace n _ hocc _ hfree =>
    have hne : p ≠ n := by
      rintro rfl
      exact hocc hfree
    constructor
    · rw [swapPage_prot, if_neg hne, if_pos rfl]
    · rw [swapPage_threadid, if_pos rfl]
      simp [State.claimFrame]
  | @evict k e bit _ _ _ _ _ =>
    constructor
    · rw [exchangeVictim_prot, if_pos rfl]
    · rw [exchangeVictim_frames, if_pos rfl]
      simp [State.claimSlot, State.afterSweep]
  | stuck hnew _ hframes hslots =>
    exfalso
    rcases hserve with ⟨x, hx⟩ | ⟨n | k, hx, hfree⟩
    · exact hnew x hx
    · exact hframes n hx hfree
    · exact hslots k hx hfree

omit [Zero Page] in
/-- Another frame is closed, or nothing about it changes but its reference bit. -/
theorem Service.other (h : Service s p s') {n : ℕ} (hne : n ≠ p) :
    s'.prot n = .PROT_NONE ∨
      (s'.prot n = s.prot n ∧ (s'.table.frames n).threadid = (s.table.frames n).threadid ∧
        (s'.table.frames n).retAddr = (s.table.frames n).retAddr) := by
  cases h with
  | home _ _ => exact Or.inr (by simp [State.mprotect, State.touchFrame, hne])
  | @frame m _ _ =>
    rw [swapPage_prot, swapPage_frames, if_neg hne, if_neg hne]
    by_cases hnm : n = m
    · exact Or.inl (if_pos hnm)
    · exact Or.inr (by simp [State.touchFrame, hnm])
  | @displace m _ _ _ _ =>
    rw [swapPage_prot, swapPage_frames, if_neg hne, if_neg hne]
    by_cases hnm : n = m
    · exact Or.inl (if_pos hnm)
    · exact Or.inr (by simp [State.claimFrame, hnm])
  | @slot k e bit _ _ _ | @evict k e bit _ _ _ _ _ =>
    rw [exchangeVictim_prot, exchangeVictim_frames, if_neg hne, if_neg hne]
    by_cases hnm : n = e
    · exact Or.inl (if_pos hnm)
    · rw [if_neg hnm, if_neg hnm]
      exact Or.inr ⟨rfl, rfl, rfl⟩
  | claim _ _ => exact Or.inr (by simp [State.mprotect, State.claimFrame, hne])
  | stuck _ _ _ _ => exact Or.inr ⟨rfl, rfl, rfl⟩

/-- In every reachable state, a fault in the thread pages ends the process
exactly when the page is beyond the thread's page count. Otherwise no other
frame is opened, and the page is served whenever it is somewhere or a place is
free. With nowhere to put it the handler returns and nothing has moved, so that
the access faults again. -/
theorem fault_served (hs : AccessReach (fun _ _ => True) s) {offset : ℕ} (hp : p < frameCount)
    (hoffset : offset < PAGE_SIZE) :
    (pageFaultHandler s (p * PAGE_SIZE + offset) = none ↔
      s.thread_page_count s.currThread < (p + 1 : ℕ)) ∧
    ∀ s', pageFaultHandler s (p * PAGE_SIZE + offset) = some s' →
      (∀ n, n ≠ p → s'.prot n = s.prot n ∨ s'.prot n = .PROT_NONE) ∧
      (s.CanServe p → s.Served s' p) ∧
      (¬ s.CanServe p → s'.prot = s.prot ∧
        ∀ x, s'.threadAt x = s.threadAt x ∧ s'.homeAt x = s.homeAt x ∧
          s'.contentAt x = s.contentAt x) := by
  have hsteady := hs.steady
  rw [pageFaultHandler_eq s hp hoffset]
  refine ⟨servePage_eq_none_iff hsteady.hand, fun s' hserve => ?_⟩
  have hservice := servePage_service hp hsteady.running hsteady.hand hserve
  refine ⟨fun n hne => (hservice.other hne).symm.imp_left And.left, fun hcan => ?_,
    fun hcannot => ?_⟩
  · obtain ⟨hopen, howner⟩ := hservice.opened hsteady hcan
    obtain ⟨σ, hcarries, hsource⟩ := hservice.carries hp
    refine ⟨hopen, howner, σ.symm (.frame p), ?_, ?_, ?_⟩
    · rw [← hcarries.valid, Equiv.apply_symm_apply]
      exact hp
    · rcases hsource with ⟨hnew, hfull⟩ | hsource
      · rcases hcan with ⟨x, hx⟩ | ⟨x, hx, hfree⟩
        · exact absurd hx (hnew x)
        · exact absurd hfree (hfull x hx)
      · exact hsource.imp_left fun hlabel => ⟨hlabel, hsteady.stored _ hlabel.2.1⟩
    · rw [← hcarries.content _ (Or.inr (Equiv.apply_symm_apply _ _)), Equiv.apply_symm_apply]
      rfl
  · cases hservice with
    | stuck _ _ _ _ => exact ⟨rfl, fun x => afterSweep_label s _ _ x⟩
    | home hx _ | frame hx _ | slot hx _ _ => exact absurd (Or.inl ⟨_, hx⟩) hcannot
    | claim _ hfree => exact absurd (Or.inr ⟨.frame p, hp, hfree⟩) hcannot
    | displace _ _ hn hfree => exact absurd (Or.inr ⟨.frame _, hn, hfree⟩) hcannot
    | evict _ _ _ _ hfind =>
      obtain ⟨hk, hfree⟩ := State.free_of_findSlot hfind
      exact absurd (Or.inr ⟨.slot _, hk, hfree⟩) hcannot

end Runs

/-- A thread that may touch two pages is served its first one. -/
theorem fault_served_chargedTwo :
    ∃ s', pageFaultHandler chargedTwo (0 * PAGE_SIZE + 35) = some s' ∧ chargedTwo.Served s' 0 := by
  have hreach : AccessReach (fun _ _ => True) chargedTwo :=
    .step (.start ⟨_, _, _, rfl⟩) trivial (rfl : accessStep _ (.charge 2) = some chargedTwo)
  have hframe : 0 < frameCount := by decide
  obtain ⟨hnone, hsome⟩ := fault_served hreach hframe (by decide : 35 < PAGE_SIZE)
  cases hfault : pageFaultHandler chargedTwo (0 * PAGE_SIZE + 35) with
  | none => exact absurd (hnone.mp hfault) (by decide)
  | some s' => exact ⟨s', rfl, (hsome s' hfault).2.1 (Or.inr ⟨.frame 0, hframe, rfl⟩)⟩

end SimpleOs.Paging
