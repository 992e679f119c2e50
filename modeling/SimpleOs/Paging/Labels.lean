import Mathlib.Logic.Equiv.Basic
import SimpleOs.Paging.Eviction

/-!
# Labels and relocations

A frame or a page of the swap file is a place. The metadata of an occupied
place names the page it holds: the thread and the page's home. This file gives
the labels that the exchanges leave, and the abstract notion of a relocation,
in which every page other than the served one moves with its label and content.
-/

namespace SimpleOs.Paging

variable {Page : Type*}

/-- Where a page can be. -/
inductive Place where
  /-- A thread page in memory. -/
  | frame (n : ℕ)
  /-- A page of the swap file. -/
  | slot (k : ℕ)
  deriving DecidableEq

/-- The places that exist: 1600 frames and 3900 pages of the swap file. -/
def Place.Valid : Place → Prop
  | .frame n => n < frameCount
  | .slot k => k < slotCount

/-- The owner recorded for a place, `0` for a free one. -/
def State.threadAt (s : State Page) : Place → ℕ
  | .frame n => (s.table.frames n).threadid
  | .slot k => (s.table.slots k).threadid

/-- The home of the page at a place. A frame with `retAddr = -1` holds its own
page, and a page of the swap file always returns to `retAddr`. -/
def State.homeAt (s : State Page) : Place → ℤ
  | .frame n => if (s.table.frames n).retAddr = -1 then n else (s.table.frames n).retAddr
  | .slot k => (s.table.slots k).retAddr

/-- What the handler gets when it reads the page at a place: its contents, and behind the end
of the swap file whatever the buffer holds. -/
def State.contentAt (s : State Page) : Place → Page
  | .frame n => s.memory n
  | .slot k => s.swapFile.read k (s.stack 0)

/-- The place has contents: it is a frame or a page inside the swap file. -/
def State.Stored (s : State Page) : Place → Prop
  | .frame _ => True
  | .slot k => k < s.swapFile.size

/-- Which places have contents depends on the swap file only. -/
theorem State.stored_congr {s t : State Page} (h : t.swapFile = s.swapFile) (x : Place) :
    t.Stored x ↔ s.Stored x := by
  cases x with
  | frame n => exact Iff.rfl
  | slot k => simp only [State.Stored, h]

/-- The place is occupied and labelled with page `home` of thread `t`. -/
def State.Labelled (s : State Page) (x : Place) (t : ℕ) (home : ℤ) : Prop :=
  x.Valid ∧ s.threadAt x ≠ 0 ∧ s.threadAt x = t ∧ s.homeAt x = home

/-- Every occupied place holds a page and is labelled with one that exists, and no two places
with the same page. -/
structure State.WellLabelled (s : State Page) : Prop where
  /-- Homes are pages of the thread region. -/
  home : ∀ x, x.Valid → s.threadAt x ≠ 0 → ∃ p < frameCount, s.homeAt x = (p : ℕ)
  /-- A page of the swap file that is in use lies inside the file. -/
  stored : ∀ x, x.Valid → s.threadAt x ≠ 0 → s.Stored x
  /-- No two places have the same owner and home. -/
  distinct : ∀ x y t home, s.Labelled x t home → s.Labelled y t home → x = y

/-! ## The exchanges -/

/-- The frame nodes after a victim has gone to the swap file. -/
theorem exchangeVictim_frames (s : State Page) (p e k n : ℕ) :
    (exchangeVictim s p e k).table.frames n =
      if n = p then
        { s.table.frames e with
          offset_p := p, retAddr := -1, threadid := (s.table.slots k).threadid }
      else if n = e then { s.table.frames p with offset_p := e, retAddr := p }
      else s.table.frames n := by
  unfold exchangeVictim
  split
  · simp only [swapFileGrab, State.mprotect, Table.setFrame_frames, Table.setSlot_frames]
    grind
  · simp only [swapFileGrab, State.mprotect, Table.setFrame_frames, Table.setSlot_frames,
      swapPage_slots]
    rw [swapPage_frames, swapPage_frames]
    grind

/-- The swap nodes after a victim has gone to the swap file. Its home is recorded
as the wanted frame. -/
theorem exchangeVictim_slots (s : State Page) (p e k j : ℕ) :
    (exchangeVictim s p e k).table.slots j =
      if j = k then
        { s.table.slots k with threadid := (s.table.frames e).threadid, retAddr := p }
      else s.table.slots j := by
  unfold exchangeVictim
  split
  · simp only [swapFileGrab, State.mprotect, Table.setFrame_slots, Table.setSlot_slots,
      Table.frame_offset]
    grind [Table.slot_offset]
  · simp only [swapFileGrab, State.mprotect, Table.setFrame_slots, Table.setSlot_slots,
      Table.frame_offset]
    rw [swapPage_frames, swapPage_slots]
    grind [Table.slot_offset]

/-- The pages in memory after a victim has gone to the swap file. -/
theorem exchangeVictim_memory (s : State Page) (p e k n : ℕ) :
    (exchangeVictim s p e k).memory n =
      if n = p then s.swapFile.read k (s.stack 0)
      else if n = e then s.memory p else s.memory n := by
  unfold exchangeVictim
  split
  · simp only [swapFileGrab, State.mprotect, Function.update_apply]
    grind
  · simp only [swapFileGrab, State.mprotect, Function.update_apply, swapPage_swapFile,
      swapPage_stack]
    rw [swapPage_memory]
    grind

/-- The swap file after a victim has gone there. -/
theorem exchangeVictim_swapFile (s : State Page) (p e k : ℕ) :
    (exchangeVictim s p e k).swapFile = s.swapFile.write k (s.memory e) := by
  unfold exchangeVictim
  split
  · rename_i heq
    simp only [swapFileGrab, State.mprotect, heq]
  · simp only [swapFileGrab, State.mprotect, swapPage_swapFile]
    rw [swapPage_memory]
    grind

/-- The contents of a page of the swap file after a victim has gone there. -/
theorem exchangeVictim_content_slot (s : State Page) (p e k : ℕ) {j : ℕ}
    (hj : j = k ∨ s.Stored (.slot j)) :
    (exchangeVictim s p e k).contentAt (.slot j) =
      if j = k then s.memory e else s.contentAt (.slot j) := by
  simp only [State.contentAt, exchangeVictim_swapFile]
  split
  · rename_i heq
    rw [heq, SwapFile.read_write_self]
  · rename_i hne
    exact s.swapFile.read_write_of_ne hne (hj.resolve_left hne) _ _ _

/-! ## Relocations -/

/-- A change of the table in which page `p` of thread `t` is brought to its home
frame, and every other page moves from place `x` to place `σ x`. -/
structure Relocates (s s' : State Page) (t p : ℕ) (σ : Equiv.Perm Place) : Prop where
  /-- Places that exist are exchanged with each other. -/
  valid : ∀ x, (σ x).Valid ↔ x.Valid
  /-- Pages that have contents still have them. -/
  stored : ∀ x, s.Stored x → s'.Stored (σ x)
  /-- A page that does not go to the served frame keeps owner, home and contents. -/
  moved : ∀ x, x.Valid → σ x ≠ .frame p → s'.threadAt (σ x) = s.threadAt x ∧
    (s.threadAt x ≠ 0 → s'.homeAt (σ x) = s.homeAt x ∧ s'.contentAt (σ x) = s.contentAt x)
  /-- The served frame holds the wanted page and is marked as its home. -/
  served : s'.threadAt (.frame p) = t ∧ (s'.table.frames p).retAddr = -1
  /-- The wanted page comes from where it was, or is new and takes a free place. -/
  source :
    (∃ x, s.Labelled x t p ∧ σ x = .frame p ∧ s'.contentAt (.frame p) = s.contentAt x) ∨
      (s.threadAt (σ.symm (.frame p)) = 0 ∧ ∀ x, ¬ s.Labelled x t p)

/-- The home recorded for the served frame is its own index. -/
theorem Relocates.homeAt_served {s s' : State Page} {t p : ℕ} {σ : Equiv.Perm Place}
    (h : Relocates s s' t p σ) : s'.homeAt (.frame p) = p := by
  simp [State.homeAt, h.served.2]

/-- Every page other than the served one is still there with its contents. -/
theorem Relocates.labelled {s s' : State Page} {t p : ℕ} {σ : Equiv.Perm Place}
    (h : Relocates s s' t p σ) {x : Place} {u : ℕ} {home : ℤ}
    (hx : s.Labelled x u home) (hne : ¬ (u = t ∧ home = p)) :
    s'.Labelled (σ x) u home ∧ s'.contentAt (σ x) = s.contentAt x := by
  have htarget : σ x ≠ .frame p := by
    intro heq
    rcases h.source with ⟨y, hy, hyp, _⟩ | ⟨hfree, _⟩
    · have : x = y := σ.injective (heq.trans hyp.symm)
      subst this
      exact hne ⟨hx.2.2.1.symm.trans hy.2.2.1, hx.2.2.2.symm.trans hy.2.2.2⟩
    · rw [← heq, Equiv.symm_apply_apply] at hfree
      exact hx.2.1 hfree
  obtain ⟨hthread, hrest⟩ := h.moved x hx.1 htarget
  obtain ⟨hhome, hcontent⟩ := hrest hx.2.1
  refine ⟨⟨(h.valid x).mpr hx.1, ?_, hthread.trans hx.2.2.1, hhome.trans hx.2.2.2⟩, hcontent⟩
  rw [hthread]
  exact hx.2.1

/-- An occupied place after a relocation is the served frame or was filled from
an occupied place with the same label. -/
theorem Relocates.origin {s s' : State Page} {t p : ℕ} {σ : Equiv.Perm Place}
    (h : Relocates s s' t p σ) {y : Place} {u : ℕ} {home : ℤ} (hy : s'.Labelled y u home)
    (hyp : y ≠ .frame p) : s.Labelled (σ.symm y) u home := by
  have hvalid : (σ.symm y).Valid := (h.valid _).mp (by simpa using hy.1)
  obtain ⟨hthread, hrest⟩ := h.moved (σ.symm y) hvalid (by simpa using hyp)
  rw [Equiv.apply_symm_apply] at hthread hrest
  have hne : s.threadAt (σ.symm y) ≠ 0 := by
    rw [← hthread]
    exact hy.2.1
  exact ⟨hvalid, hne, hthread.symm.trans hy.2.2.1, (hrest hne).1.symm.trans hy.2.2.2⟩

/-- A label that moved is not the label of the served page. -/
theorem Relocates.origin_ne {s s' : State Page} {t p : ℕ} {σ : Equiv.Perm Place}
    (h : Relocates s s' t p σ) (hw : s.WellLabelled) {y : Place}
    (hy : s'.Labelled y t p) : y = .frame p := by
  by_contra hyp
  have horigin := h.origin hy hyp
  rcases h.source with ⟨x, hx, hxp, _⟩ | ⟨_, hnew⟩
  · have := hw.distinct _ _ _ _ horigin hx
    rw [← this, Equiv.apply_symm_apply] at hxp
    exact hyp hxp
  · exact hnew _ horigin

/-- A relocation keeps the table well labelled. -/
theorem Relocates.wellLabelled {s s' : State Page} {t p : ℕ} {σ : Equiv.Perm Place}
    (h : Relocates s s' t p σ) (hw : s.WellLabelled) (hp : p < frameCount) :
    s'.WellLabelled := by
  constructor
  · intro y hy hthread
    by_cases hyp : y = .frame p
    · exact ⟨p, hp, by rw [hyp, h.homeAt_served]⟩
    · have horigin := h.origin ⟨hy, hthread, rfl, rfl⟩ hyp
      obtain ⟨q, hq, hhome⟩ := hw.home _ horigin.1 horigin.2.1
      exact ⟨q, hq, horigin.2.2.2.symm.trans hhome⟩
  · intro y hy hthread
    by_cases hyp : y = .frame p
    · rw [hyp]
      trivial
    · have horigin := h.origin ⟨hy, hthread, rfl, rfl⟩ hyp
      have hstored := h.stored _ (hw.stored _ horigin.1 horigin.2.1)
      rwa [Equiv.apply_symm_apply] at hstored
  · intro x y u home hx hy
    -- The label of the served page is only on its frame; other labels were distinct before.
    by_cases hserved : u = t ∧ home = p
    · obtain ⟨rfl, rfl⟩ := hserved
      rw [h.origin_ne hw hx, h.origin_ne hw hy]
    · have hnot (z : Place) (hz : s'.Labelled z u home) : z ≠ .frame p := by
        rintro rfl
        exact hserved ⟨hz.2.2.1.symm.trans h.served.1, hz.2.2.2.symm.trans h.homeAt_served⟩
      have heq := hw.distinct _ _ _ _ (h.origin hx (hnot x hx)) (h.origin hy (hnot y hy))
      exact σ.symm.injective heq

end SimpleOs.Paging
