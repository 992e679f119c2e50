import SimpleOs.Heap.Interference
import SimpleOs.Library.ExactFit

/-!
# The heap keeps no history

Free blocks are joined with their neighbours and cut off at the end, so that the headers
of a region are determined by the payloads in use, but for their `prev` links. So is the block
that the search finds.
-/

namespace SimpleOs.Heap

open Bytes AllocNode ExactFit

variable {L : Layout} {m : Memory} {s q tid fuel size : ℕ} {b : Block} {bs : List Block}

/-! ## Blocks from payloads -/

/-- The blocks that have the payloads `live` in use, with a free block in each hole. -/
def layout : ℕ → List (ℕ × ℕ) → List Block
  | _, [] => []
  | s, (p, k) :: live =>
    (if s + AllocNode.size < p then [⟨p - AllocNode.size - (s + AllocNode.size), false⟩] else []) ++
      ⟨k, true⟩ :: layout (p + k) live

/-- Tight blocks are none, begin with a block in use, or begin with a free block and one
in use. -/
theorem Tight.induction {P : ℕ → List Block → Prop} (hnil : ∀ s, P s [])
    (hused : ∀ s k ys, Tight ys → P (s + AllocNode.size + k) ys → P s (⟨k, true⟩ :: ys))
    (hfree : ∀ s j k zs, Tight zs →
      P (s + AllocNode.size + j + AllocNode.size + k) zs → P s (⟨j, false⟩ :: ⟨k, true⟩ :: zs))
    (s : ℕ) (bs : List Block) (h : Tight bs) : P s bs := by
  match bs with
  | [] => exact hnil s
  | ⟨k, true⟩ :: ys =>
    have hys : Tight ys := (show Tight ([] ++ ⟨k, true⟩ :: ys) from h).split.2
    exact hused s k ys hys (Tight.induction hnil hused hfree _ ys hys)
  | ⟨j, false⟩ :: ys =>
    obtain ⟨⟨k, u⟩, zs, rfl, hu, htight⟩ := h.behind_free rfl
    obtain rfl : u = true := hu
    have hzs : Tight zs := (show Tight ([] ++ ⟨k, true⟩ :: zs) from htight).split.2
    exact hfree s j k zs hzs (Tight.induction hnil hused hfree _ zs hzs)
termination_by bs.length

/-- The payloads of a block in use and the rest. -/
theorem payloads_used {k : ℕ} : payloads s (⟨k, true⟩ :: bs) =
    (s + AllocNode.size, k) :: payloads (s + AllocNode.size + k) bs := by
  simp [payloads, Block.span, Nat.add_assoc]

/-- A free block has no payload in use. -/
theorem payloads_free {j : ℕ} :
    payloads s (⟨j, false⟩ :: bs) = payloads (s + AllocNode.size + j) bs := by
  simp [payloads, Block.span, Nat.add_assoc]

/-- Tight blocks are those of their payloads. -/
theorem layout_payloads (h : Tight bs) : layout s (payloads s bs) = bs := by
  refine Tight.induction (P := fun s bs => layout s (payloads s bs) = bs) ?_ ?_ ?_ s bs h
  · exact fun s => rfl
  · intro s k ys _ ih
    rw [payloads_used, layout, if_neg (lt_irrefl _), ih, List.nil_append]
  · intro s j k zs _ ih
    rw [payloads_free, payloads_used, layout, if_pos (by unfold AllocNode.size; omega), ih]
    have hcap : s + AllocNode.size + j + AllocNode.size - AllocNode.size - (s + AllocNode.size) =
        j := by omega
    rw [hcap, List.singleton_append]

/-- The free blocks are the holes. -/
theorem holes_payloads (h : Tight bs) :
    (holes AllocNode.size s (payloads s bs)).map Prod.snd =
      (bs.filter fun b => !b.used).map Block.cap := by
  refine Tight.induction (P := fun s bs => (holes AllocNode.size s (payloads s bs)).map Prod.snd =
    (bs.filter fun b => !b.used).map Block.cap) ?_ ?_ ?_ s bs h
  · exact fun s => rfl
  · intro s k ys _ ih
    rw [payloads_used, holes, if_neg (lt_irrefl _), List.nil_append, ih]
    simp
  · intro s j k zs _ ih
    rw [payloads_free, payloads_used, holes, if_pos (by unfold AllocNode.size; omega)]
    simp only [List.singleton_append, List.map_cons, ih, List.filter_cons, Bool.not_false,
      Bool.not_true, if_true, Bool.false_eq_true, if_false]
    congr 1
    omega

/-- Payloads are in the order of their addresses. -/
theorem payloads_sorted : (payloads s bs).Pairwise fun x y => x.1 < y.1 := by
  induction bs generalizing s with
  | nil => exact List.Pairwise.nil
  | cons b bs ih =>
    obtain ⟨k, u⟩ := b
    cases u with
    | false =>
      rw [payloads_free]
      exact ih
    | true =>
      rw [payloads_used]
      refine List.pairwise_cons.mpr ⟨fun x hx => ?_, ih⟩
      have hx := mem_payloads (p := x.1) (k := x.2) hx
      unfold AllocNode.size at hx ⊢
      omega

/-! ## The search -/

/-- The payload of the first free block of the right size, or that of a new block. -/
def fitAddress (size : ℕ) : ℕ → List Block → ℕ
  | s, [] => s + AllocNode.size
  | s, b :: bs => if b = ⟨size, false⟩ then s + AllocNode.size else fitAddress size (s + b.span) bs

/-- Behind tight blocks it is the place among their payloads. -/
theorem place_payloads (h : Tight bs) :
    place AllocNode.size s (payloads s bs) size = fitAddress size s bs := by
  refine Tight.induction (P := fun s bs =>
    place AllocNode.size s (payloads s bs) size = fitAddress size s bs) ?_ ?_ ?_ s bs h
  · exact fun s => place_nil
  · intro s k ys _ ih
    rw [payloads_used, place_cons, if_neg fun h => lt_irrefl _ h.1, ih, fitAddress,
      if_neg (by simp), Block.span, Nat.add_assoc]
  · intro s j k zs _ ih
    rw [payloads_free, payloads_used, place_cons, ih]
    simp only [fitAddress, Block.mk.injEq, and_true, Bool.true_eq_false, and_false, if_false,
      Block.span]
    have hcap : s + AllocNode.size < s + AllocNode.size + j + AllocNode.size ∧
        s + AllocNode.size + j + AllocNode.size - AllocNode.size - (s + AllocNode.size) = size ↔
          j = size := by
      unfold AllocNode.size
      omega
    refine if_congr hcap rfl ?_
    simp only [Nat.add_assoc]

/-- Without a free block of the right size it is behind the blocks. -/
theorem fitAddress_of_notMem (h : ⟨size, false⟩ ∉ bs) :
    fitAddress size s bs = s + extent bs + AllocNode.size := by
  induction bs generalizing s with
  | nil => rfl
  | cons b bs ih =>
    rw [List.mem_cons, not_or] at h
    rw [fitAddress, if_neg (Ne.symm h.1), ih h.2, extent_cons, Nat.add_assoc s]

/-- A free block of the right size is within the blocks. -/
theorem fitAddress_le_of_mem (h : ⟨size, false⟩ ∈ bs) :
    fitAddress size s bs + size ≤ s + extent bs := by
  induction bs generalizing s with
  | nil => exact absurd h (by simp)
  | cons b bs ih =>
    rw [fitAddress, extent_cons]
    split
    · rename_i hb
      subst hb
      simp only [Block.span]
      omega
    · rename_i hb
      have := ih (s := s + b.span) ((List.mem_cons.mp h).resolve_left (Ne.symm hb))
      omega

/-- The address of a request is behind the first header. -/
theorem le_fitAddress : s + AllocNode.size ≤ fitAddress size s bs := by
  induction bs generalizing s with
  | nil => exact le_rfl
  | cons b bs ih =>
    rw [fitAddress]
    split
    · exact le_rfl
    · have := ih (s := s + b.span)
      omega

/-- The search finds this block, or the last one. -/
theorem search_eq (hs : 0 < s) (hsize : extent bs < 2 ^ 31) (hchain : Chain m s bs 0)
    (hbs : bs ≠ []) (hfuel : bs.length ≤ fuel) :
    search m size fuel s = some (if ⟨size, false⟩ ∈ bs
      then .inl (fitAddress size s bs - AllocNode.size) else .inr (lastStart q s bs)) := by
  induction bs generalizing s q fuel with
  | nil => exact absurd rfl hbs
  | cons b bs ih =>
    obtain ⟨hheader, hrest⟩ := hchain
    rw [extent_cons] at hsize
    have hcap : capacityOf m s = b.cap := hheader.capacityOf (by unfold Block.span at hsize; omega)
    have hfound : get m s inUse = 0 ∧ capacityOf m s = size ↔ b = ⟨size, false⟩ := by
      obtain ⟨k, u⟩ := b
      rw [hheader.used, hcap]
      cases u <;> simp
    obtain ⟨fuel, rfl⟩ : ∃ n, fuel = n + 1 := Nat.exists_eq_succ_of_ne_zero (by
      rw [List.length_cons] at hfuel
      omega)
    rw [search]
    by_cases hb : b = ⟨size, false⟩
    · rw [if_pos (hfound.mpr hb), if_pos (by simp [hb]), fitAddress, if_pos hb, Nat.add_sub_cancel]
    · rw [if_neg fun h => hb (hfound.mp h), hheader.next]
      have hmem : ⟨size, false⟩ ∈ b :: bs ↔ ⟨size, false⟩ ∈ bs := by
        rw [List.mem_cons, or_iff_right (Ne.symm hb)]
      by_cases hnil : bs = []
      · subst hnil
        simp [Ne.symm hb, lastStart]
      · rw [if_neg hnil, if_neg (by unfold Block.span AllocNode.size; omega),
          ih (q := s) (by omega) (by omega) hrest hnil (Nat.le_of_succ_le_succ hfuel), fitAddress,
          if_neg hb, lastStart]
        simp only [hmem]

/-- A search that returns does so with more steps, too. -/
theorem search_mono {a fuel' : ℕ} {r : ℕ ⊕ ℕ} (h : search m size fuel a = some r)
    (hle : fuel ≤ fuel') : search m size fuel' a = some r := by
  induction fuel generalizing a fuel' with
  | zero => exact absurd h (by simp [search])
  | succ fuel ih =>
    obtain ⟨n, rfl⟩ : ∃ n, fuel' = n + 1 := Nat.exists_eq_succ_of_ne_zero (by omega)
    rw [search] at h ⊢
    split
    · rename_i hfound
      rwa [if_pos hfound] at h
    · rename_i hother
      rw [if_neg hother] at h
      split
      · rename_i hnext
        rwa [if_pos hnext] at h
      · rename_i hne
        rw [if_neg hne] at h
        exact ih h (Nat.le_of_succ_le_succ hle)

/-! ## Threads -/

variable {h h' : Arena} {p : ℕ} {live : List (ℕ × ℕ)} {σ : State}

/-- `myallocate` puts a block where the blocks in the list say: into the first free one of the size,
or behind all. -/
theorem Formed.allocate_address (hformed : Formed L h.mem bs)
    (hrun : myallocate L tid fuel h size = some (h', some p)) :
    p = fitAddress size L.schedulerEnd bs := by
  obtain ⟨hstart, _, _⟩ := L.schedulerEnd_bound
  obtain ⟨hextent, _, hbound⟩ := hformed.fits.bounds
  unfold myallocate at hrun
  rw [if_neg (Nat.pos_iff_ne_zero.mp (myallocate_pos hrun))] at hrun
  cases hcharge : chargeFirst L tid h size with
  | none =>
    rw [hcharge] at hrun
    exact absurd (Prod.mk.inj (Option.some.inj hrun)).2 (by simp)
  | some h₁ =>
    have hformed₁ := hformed.of_count (chargeFirst_touches hcharge)
    simp only [hcharge] at hrun
    by_cases hbs : bs = []
    · subst hbs
      rw [if_pos (hformed₁.empty rfl)] at hrun
      exact (Option.some.inj (Prod.mk.inj (Option.some.inj hrun)).2).symm
    · rw [if_neg (not_not_intro (hformed₁.chain.signature_eq hbs))] at hrun
      obtain ⟨found, hsearch, heq⟩ := Option.map_eq_some_iff.mp hrun
      have hfound : search h₁.mem size _ L.schedulerEnd = _ :=
        search_eq (q := 0) hstart hextent hformed₁.chain hbs (Nat.le_max_left bs.length fuel)
      rw [search_mono hsearch (Nat.le_max_right _ _), Option.some.injEq] at hfound
      by_cases hmem : ⟨size, false⟩ ∈ bs
      · rw [if_pos hmem] at hfound
        subst hfound
        have hle : L.schedulerEnd + AllocNode.size ≤ fitAddress size L.schedulerEnd bs :=
          le_fitAddress
        have hp := Option.some.inj (Prod.mk.inj heq).2
        omega
      · rw [if_neg hmem] at hfound
        subst hfound
        obtain ⟨xs, c, rfl⟩ := (List.eq_nil_or_concat bs).resolve_left hbs
        rw [List.concat_eq_append] at *
        rw [lastStart_concat] at heq
        rcases append_cases (behind_last hextent hbound hformed₁.chain) heq with
          ⟨_, hnone, _⟩ | ⟨h₂, _, _, _, hp⟩
        · exact absurd hnone (by simp)
        · rw [fitAddress_of_notMem hmem]
          exact Option.some.inj hp

/-- The blocks of a thread whose payloads are `live`. -/
theorem Formed.eq_layout (hformed : Formed L m bs)
    (hlive : live.Perm (payloads L.schedulerEnd bs)) :
    payloads L.schedulerEnd bs = byAddress live ∧ bs = layout L.schedulerEnd (byAddress live) := by
  rw [byAddress_eq payloads_sorted hlive]
  exact ⟨rfl, (layout_payloads hformed.tight).symm⟩

/-- A thread's heap keeps no history but that in the `prev` links. In every run whose frees
follow right links the headers, but for these links, are those of the blocks in use with one
free block in each hole between them, of which there are not more than blocks in use, and none
is left when no block is in use. `myallocate` puts a block into the first hole of exactly its
size, or behind all blocks in use. -/
theorem heap_keeps_no_history (L : Layout) (tid : ℕ) (σ : State)
    (hreach : HeapReach L tid (LinksExact L) σ) :
    Chain σ.heap.mem L.schedulerEnd (layout L.schedulerEnd (byAddress σ.live)) 0 ∧
      (σ.live = [] → get σ.heap.mem L.schedulerEnd signature ≠ valid) ∧
      ((layout L.schedulerEnd (byAddress σ.live)).filter fun b => !b.used).length ≤
        σ.live.length ∧
      ∀ fuel size h' p, myallocate L tid fuel σ.heap size = some (h', some p) →
        p = place AllocNode.size L.schedulerEnd (byAddress σ.live) size := by
  obtain ⟨bs, hformed, hlive⟩ := heapReach_sound hreach
  obtain ⟨hpayloads, hlayout⟩ := hformed.eq_layout hlive
  rw [← hpayloads] at hlayout ⊢
  rw [← hlayout]
  refine ⟨hformed.chain, fun hnil => hformed.empty ?_, ?_, ?_⟩
  · rw [hnil] at hlive
    exact hformed.tight.eq_nil hlive.nil_eq.symm
  · have hholes := congrArg List.length (holes_payloads (s := L.schedulerEnd) hformed.tight)
    rw [List.length_map, List.length_map] at hholes
    rw [← hholes, hlive.length_eq]
    exact length_holes_le
  · intro fuel size h' p hrun
    rw [place_payloads hformed.tight]
    exact hformed.allocate_address hrun

/-- The theorem when the first of two blocks has been freed. -/
theorem heap_keeps_no_history_firstFreed : ∃ (σ : State) (h' : Arena), σ.live = [(897188, 50)] ∧
    Chain σ.heap.mem 897024 [⟨100, false⟩, ⟨50, true⟩] 0 ∧
      myallocate sampleLayout 1 10 σ.heap 100 = some (h', some 897056) ∧
      897056 = place AllocNode.size 897024 (byAddress σ.live) 100 := by
  have hrun : (execHeapEvents sampleLayout 1 10 [.allocate 100, .allocate 50] freshState).map
      (fun σ => (get σ.heap.mem 897024 prev, (σ.exec sampleLayout 1 10 (.free 897056)).map
        fun σ => (σ.live, (myallocate sampleLayout 1 10 σ.heap 100).map Prod.snd))) =
      some (0, some ([(897188, 50)], some (some 897056))) := by
    decide +kernel
  obtain ⟨σ, hσ, heq⟩ := Option.map_eq_some_iff.mp hrun
  obtain ⟨hprev, hfree⟩ := Prod.mk.inj heq
  obtain ⟨σ', hσ', heq'⟩ := Option.map_eq_some_iff.mp hfree
  obtain ⟨hlive, hagain⟩ := Prod.mk.inj heq'
  obtain ⟨⟨h', r⟩, hcall, rfl⟩ := Option.map_eq_some_iff.mp hagain
  have hreach : HeapReach sampleLayout 1 (LinksExact sampleLayout) σ := by
    apply heapReach_execHeapEvents _ heapReach_fresh hσ
    simp [LinksExact]
  have hok : LinksExact sampleLayout σ (.free 897056) := followsExact_head hprev
  obtain ⟨hchain, _, _, hplace⟩ :=
    heap_keeps_no_history sampleLayout 1 σ' (hreach.step hok (State.exec_step hσ'))
  refine ⟨σ', h', hlive, ?_, hcall, hplace 10 100 h' 897056 hcall⟩
  rwa [hlive, byAddress, List.mergeSort_singleton] at hchain

/-- A free passes the test for its links. -/
def State.LinksNear (L : Layout) (σ : State) : HeapEvent → Prop
  | .free p => LinkedNear σ.heap.mem L.schedulerEnd (p - AllocNode.size)
  | _ => True

instance (L : Layout) (σ : State) (e : HeapEvent) : Decidable (σ.LinksNear L e) :=
  match e with
  | .free _ => inferInstanceAs (Decidable (LinkedNear _ _ _))
  | .allocate _ | .write _ _ => isTrue trivial

/-- What is computed with this test is reached by right links. -/
theorem heapReach_linksNear {es : List HeapEvent} {σ' : State}
    (hσ : HeapReach L tid (LinksExact L) σ)
    (hrun : Runs.execAll (fun σ e => if σ.LinksNear L e then σ.exec L tid fuel e else none) es σ =
      some σ') : HeapReach L tid (LinksExact L) σ' := by
  refine hσ.execAll (fun e _ σ σ' hexec => ?_) hrun
  split at hexec
  · rename_i hnear
    refine ⟨?_, State.exec_step hexec⟩
    cases e with
    | free p => exact hnear.followsExact
    | allocate size => trivial
    | write a v => trivial
  · cases hexec

/-- The `prev` links do keep history: two runs leave the same block in use, in one of them
behind two blocks that were freed, in the other behind one as large as both and a header. -/
theorem prev_keeps_history : ∃ σ σ' : State, HeapReach sampleLayout 1 (LinksExact sampleLayout) σ ∧
    HeapReach sampleLayout 1 (LinksExact sampleLayout) σ' ∧
    σ.live = [(897150, 30)] ∧ σ'.live = [(897150, 30)] ∧
    get σ.heap.mem 897118 prev = 897066 ∧ get σ'.heap.mem 897118 prev = 897024 := by
  have hrun : (Runs.execAll (fun σ e => if σ.LinksNear sampleLayout e
      then σ.exec sampleLayout 1 10 e else none)
      [.allocate 10, .allocate 20, .allocate 30, .free 897098, .free 897056] freshState).map
        (fun σ => (σ.live, get σ.heap.mem 897118 prev)) = some ([(897150, 30)], 897066) := by
    decide +kernel
  have hrun' : (Runs.execAll (fun σ e => if σ.LinksNear sampleLayout e
      then σ.exec sampleLayout 1 10 e else none)
      [.allocate 62, .allocate 30, .free 897056] freshState).map
        (fun σ => (σ.live, get σ.heap.mem 897118 prev)) = some ([(897150, 30)], 897024) := by
    decide +kernel
  obtain ⟨σ, hσ, heq⟩ := Option.map_eq_some_iff.mp hrun
  obtain ⟨σ', hσ', heq'⟩ := Option.map_eq_some_iff.mp hrun'
  obtain ⟨hlive, hprev⟩ := Prod.mk.inj heq
  obtain ⟨hlive', hprev'⟩ := Prod.mk.inj heq'
  exact ⟨σ, σ', heapReach_linksNear heapReach_fresh hσ, heapReach_linksNear heapReach_fresh hσ',
    hlive, hlive', hprev, hprev'⟩

end SimpleOs.Heap
