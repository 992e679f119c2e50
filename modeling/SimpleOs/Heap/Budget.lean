import Mathlib.Algebra.Order.BigOperators.Group.Finset
import SimpleOs.Heap.Representation

/-!
# The page budget

All threads share `pagesLeft` and the array of page counts behind the region. Requests move
pages from the budget to the thread that runs, and the exit of a thread gives them back. A first
block that is made again is not bounded by the region, so that its thread can write to the
counts, and a free that follows a wrong link can write there too.
-/

namespace SimpleOs.Heap

open Bytes AllocNode

variable {L : Layout} {tid fuel size n a : ℕ} {m m' : Memory} {bs : List Block} {h h' h₁ : Arena}

/-! ## Runs of many threads -/

/-- The memory of all threads, and the pages that no thread has been charged for. -/
structure Budget where
  /-- The bytes of the region, as each thread sees them. -/
  regions : ℕ → Memory
  /-- The bytes outside of the region, which all threads share. -/
  shared : Memory
  /-- The pages that can still be charged, the global `pagesLeft`. -/
  pagesLeft : ℤ
  /-- The threads that have exited. -/
  exited : List ℕ

/-- The bytes that a thread sees. -/
def Budget.view (L : Layout) (σ : Budget) (t : ℕ) : Memory := fun c =>
  if L.schedulerEnd ≤ c ∧ c < L.endOfPages then σ.regions t c else σ.shared c

/-- What a call of the thread begins with. -/
def Budget.heap (L : Layout) (σ : Budget) (t : ℕ) : Arena := ⟨σ.view L t, σ.pagesLeft⟩

/-- What a call of the thread leaves behind. -/
def Budget.put (σ : Budget) (t : ℕ) (h : Arena) : Budget :=
  { σ with regions := Function.update σ.regions t h.mem, shared := h.mem, pagesLeft := h.pagesLeft }

/-- The number of page counts, with that of thread 0. -/
def threadCount : ℕ := 1024

/-- The value of an `int`. -/
def intOf (x : ℕ) : ℤ := if x < 2 ^ 31 then x else x - 2 ^ 32

/-- The end of `protectPages(t, 1)`: the pages of the exiting thread are given back. -/
def releasePages (L : Layout) (threadID : ℕ) (h : Arena) : Arena where
  mem := set h.mem (L.countAddr threadID) threadPageCount 0
  pagesLeft := h.pagesLeft + intOf (get h.mem (L.countAddr threadID) threadPageCount)

/-- What the threads do, in any order. -/
inductive BudgetEvent where
  /-- A thread calls `myallocate` with a size. -/
  | allocate (t size : ℕ)
  /-- A thread calls `mydeallocate` with a pointer. -/
  | free (t ptr : ℕ)
  /-- A write to a byte of a block in use. -/
  | write (t a : ℕ) (v : UInt8)
  /-- The exit of a thread. -/
  | exit (t : ℕ)

/-- The thread may make a call. -/
def Budget.Runs (σ : Budget) (t : ℕ) : Prop := 1 ≤ t ∧ t < threadCount ∧ t ∉ σ.exited

/-- One event. Nothing is said about the bytes of the region when a thread has exited. -/
def BudgetStep (L : Layout) (σ : Budget) (e : BudgetEvent) (σ' : Budget) : Prop :=
  match e with
  | .allocate t size => σ.Runs t ∧ size < 2 ^ 31 ∧ ∃ fuel h' r,
      myallocate L t fuel (σ.heap L t) size = some (h', r) ∧ σ' = σ.put t h'
  | .free t ptr => σ.Runs t ∧ ∃ fuel h',
      mydeallocate L fuel (σ.heap L t) ptr = some h' ∧ σ' = σ.put t h'
  | .write t a v => σ.Runs t ∧ (∃ node, HasBlock L (σ.view L t) node ∧
      get (σ.view L t) node inUse ≠ 0 ∧
      InPayload (node + AllocNode.size, capacityOf (σ.view L t) node) a) ∧
      σ' = σ.put t ⟨Function.update (σ.view L t) a v, σ.pagesLeft⟩
  | .exit t => (1 ≤ t ∧ t < threadCount) ∧ ∃ m,
      σ' = { σ.put t (releasePages L t (σ.heap L t)) with
        regions := Function.update σ.regions t m, exited := t :: σ.exited }

/-- The condition on an event: a free is refused or follows right links, and a write is not to
a page count. -/
def BudgetSafe (L : Layout) (σ : Budget) : BudgetEvent → Prop
  | .free t ptr => FreeExact L (σ.view L t) ptr
  | .write _ a _ => a < L.endOfPages ∨ L.endOfPages + 4 * threadCount ≤ a
  | _ => True

/-- The states reached by events that meet `ok`, from one in which no thread has pages and the
first page of each reads as zero. -/
def BudgetReach (L : Layout) (ok : Budget → BudgetEvent → Prop) : Budget → Prop :=
  Runs.Reach (fun σ => σ.pagesLeft = pagesAtStart ∧ σ.exited = [] ∧
    (∀ t < threadCount, pageCount L t σ.shared = 0) ∧
    ∀ t, 1 ≤ t → t < threadCount → ∀ c, L.schedulerEnd ≤ c → c < L.schedulerEnd + L.PAGE_SIZE →
      σ.regions t c = 0)
    (BudgetStep L) ok

/-- The pages left and those that threads have been charged for are those at the start. -/
def Budget.Conserved (L : Layout) (σ : Budget) : Prop :=
  σ.pagesLeft + ∑ t ∈ Finset.range threadCount, pageCount L t σ.shared = pagesAtStart ∧
    0 ≤ σ.pagesLeft

/-! ## What a thread sees -/

/-- A page count is behind the region, so that all threads see it. -/
theorem Budget.pageCount_view {σ : Budget} {t u : ℕ} :
    pageCount L u (σ.view L t) = pageCount L u σ.shared := by
  apply load_congr
  intro c hc _
  unfold view
  rw [if_neg]
  unfold Layout.countAddr at hc
  omega

/-- After its call the thread sees what the call left behind. -/
theorem Budget.view_put {σ : Budget} {t : ℕ} : (σ.put t h).view L t = h.mem := by
  funext c
  simp [view, put]

/-- The others see it outside the region. -/
theorem Budget.view_put_other {σ : Budget} {t u c : ℕ} (hu : u ≠ t)
    (hc : L.schedulerEnd ≤ c ∧ c < L.endOfPages) : (σ.put t h).view L u c = σ.view L u c := by
  simp [view, put, hc, hu]

/-- A region depends on its own bytes only. -/
theorem Formed.congr (hformed : Formed L m bs)
    (hsame : ∀ c, L.schedulerEnd ≤ c → c < L.endOfPages → m' c = m c) : Formed L m' bs := by
  have hget {y : ℕ} {f : Field} (hy : L.schedulerEnd ≤ y) (hend : y + AllocNode.size ≤ L.endOfPages)
      (hf : f.offset + f.width ≤ AllocNode.size) : get m' y f = get m y f :=
    load_congr fun c _ _ => hsame c (by omega) (by omega)
  refine ⟨hformed.chain.congr fun y hy f hf => ?_, hformed.tight, fun hbs => ?_, hformed.fits⟩
  · exact hget (mem_starts hy).1 (hformed.fits.header_le hy) hf
  · rw [hget le_rfl ?_ (by decide)]
    · exact hformed.empty hbs
    · exact L.head_lt.le

/-! ## Moving pages -/

/-- Pages are moved between the budget and the thread, and no count of another thread
changes. -/
structure Moves (L : Layout) (tid : ℕ) (h h' : Arena) : Prop where
  /-- The page counts of the other threads are as before. -/
  others : ∀ t < threadCount, t ≠ tid → pageCount L t h'.mem = pageCount L t h.mem
  /-- The count of the thread and the pages left have the same sum as before. -/
  total : pageCount L tid h'.mem + h'.pagesLeft = pageCount L tid h.mem + h.pagesLeft
  /-- The pages left do not become negative. -/
  left : 0 ≤ h.pagesLeft → 0 ≤ h'.pagesLeft

theorem Moves.refl (L : Layout) (tid : ℕ) (h : Arena) : Moves L tid h h :=
  ⟨fun _ _ _ => rfl, rfl, id⟩

theorem Moves.trans {h'' : Arena} (h₁ : Moves L tid h h') (h₂ : Moves L tid h' h'') :
    Moves L tid h h'' :=
  ⟨fun t ht hne => (h₂.others t ht hne).trans (h₁.others t ht hne), h₂.total.trans h₁.total,
    fun hh => h₂.left (h₁.left hh)⟩

/-- Changes of headers within the region move no pages. -/
theorem moves_of_touches {nodes : List ℕ} (htouch : Touches h.mem m' nodes)
    (hnodes : ∀ y ∈ nodes, y + AllocNode.size ≤ L.endOfPages) :
    Moves L tid h { h with mem := m' } :=
  ⟨fun _ _ _ => pageCount_touches htouch hnodes,
    by rw [pageCount_touches htouch hnodes], id⟩

/-- A page count is written without a change of the others. -/
theorem pageCount_set_other {t v : ℕ} (ht : t ≠ tid) :
    pageCount L t (set m (L.countAddr tid) threadPageCount v) = pageCount L t m := by
  apply load_store_of_disjoint
  simp only [Layout.countAddr, threadPageCount]
  omega

/-- A charge moves pages from those left to the thread. -/
theorem charge_moves (htotal : pageCount L tid h.mem + h.pagesLeft ≤ pagesAtStart)
    (hrun : charge L tid h n = some h') :
    Moves L tid h h' ∧ pageCount L tid h'.mem = pageCount L tid h.mem + n := by
  obtain ⟨_, hpages, hleft⟩ := charge_counts hrun
  obtain ⟨hcount, _⟩ := charge_total htotal hrun
  refine ⟨⟨fun t _ ht => ?_, ?_, fun _ => hleft⟩, hcount⟩
  · unfold charge at hrun
    split at hrun
    · exact absurd hrun (by simp)
    · rw [← Option.some.inj hrun]
      exact pageCount_set_other ht
  · rw [hcount, hpages]
    push_cast
    omega

/-- The loops that count pages do not go back. -/
theorem le_countPages {PAGE_SIZE space : ℕ} : n ≤ countPages PAGE_SIZE space size fuel n := by
  induction fuel generalizing n with
  | zero => exact le_rfl
  | succ fuel ih =>
    rw [countPages]
    split
    · exact (Nat.le_succ n).trans ih
    · exact le_rfl

/-- After the first charge the thread has pages. -/
theorem chargeFirst_moves (htotal : pageCount L tid h.mem + h.pagesLeft ≤ pagesAtStart)
    (hrun : chargeFirst L tid h size = some h') :
    Moves L tid h h' ∧ pageCount L tid h'.mem ≠ 0 ∧
      (pageCount L tid h.mem = 0 → AllocNode.size + size < L.regionSize) ∧
      (pageCount L tid h.mem ≠ 0 → h' = h) := by
  by_cases hcount : pageCount L tid h.mem = 0
  · have hzero : get h.mem (L.countAddr tid) threadPageCount = 0 := hcount
    have hends := L.endOfPages_eq
    unfold chargeFirst at hrun
    rw [if_pos hzero] at hrun
    split at hrun
    · exact absurd hrun (by simp)
    · obtain ⟨hmoves, hpages⟩ := charge_moves htotal hrun
      have hone : 1 ≤ countPages L.PAGE_SIZE 0 (size + AllocNode.size) (size + 33) 1 :=
        le_countPages
      exact ⟨hmoves, by omega, fun _ => by omega, fun hne => absurd hcount hne⟩
  · obtain rfl := Option.some.inj ((chargeFirst_eq hcount).symm.trans hrun)
    exact ⟨Moves.refl _ _ _, hcount, fun hzero => absurd hzero hcount, fun _ => rfl⟩

/-! ## Regions -/

/-- The only block is a first block that was made again, and reaches behind the region. -/
def Oversize (L : Layout) (m : Memory) : Prop :=
  ∃ n, L.regionSize ≤ n ∧ n < 2 ^ 31 ∧ Header m L.schedulerEnd ⟨n, true⟩ 0 ∧
    get m L.schedulerEnd prev = 0

/-- The region of a thread is well-formed or has one such block, and a thread with blocks has
been charged. -/
def Regular (L : Layout) (tid : ℕ) (h : Arena) : Prop :=
  (∃ bs, Formed L h.mem bs ∧ (bs ≠ [] → pageCount L tid h.mem ≠ 0)) ∨
    Oversize L h.mem ∧ pageCount L tid h.mem ≠ 0

/-- The block is there as long as its header is. -/
theorem Oversize.congr (hover : Oversize L m) (hget : ∀ f : Field,
    f.offset + f.width ≤ AllocNode.size → get m' L.schedulerEnd f = get m L.schedulerEnd f) :
    Oversize L m' := by
  obtain ⟨n, hlarge, hsmall, hheader, hprev⟩ := hover
  refine ⟨n, hlarge, hsmall, ⟨?_, ?_, ?_, ?_⟩, ?_⟩
  · exact (hget inUse (by decide)).trans hheader.used
  · exact (hget capacity (by decide)).trans hheader.cap
  · exact (hget next (by decide)).trans hheader.next
  · exact (hget signature (by decide)).trans hheader.signature
  · exact (hget prev (by decide)).trans hprev

/-- A region is as regular as another with the same bytes and the same page count. -/
theorem Regular.congr (hregular : Regular L tid h)
    (hsame : ∀ c, L.schedulerEnd ≤ c → c < L.endOfPages → h'.mem c = h.mem c)
    (hcount : pageCount L tid h'.mem = pageCount L tid h.mem) : Regular L tid h' := by
  unfold Regular
  rw [hcount]
  rcases hregular with ⟨bs, hformed, hne⟩ | ⟨hover, hne⟩
  · exact Or.inl ⟨bs, hformed.congr hsame, hne⟩
  · have hhead := L.head_lt
    exact Or.inr ⟨hover.congr fun f hf =>
      load_congr fun c _ _ => hsame c (by omega) (by omega), hne⟩

/-- A request in a well-formed region moves pages, and one that is refused changes nothing. -/
theorem Formed.allocate_moves {r : Option ℕ} (hformed : Formed L h.mem bs)
    (hne : bs ≠ [] → pageCount L tid h.mem ≠ 0)
    (htotal : pageCount L tid h.mem + h.pagesLeft ≤ pagesAtStart)
    (hrun : myallocate L tid fuel h size = some (h', r)) :
    Moves L tid h h' ∧ (r = none → h' = h) ∧ (r ≠ none → pageCount L tid h'.mem ≠ 0) := by
  have hkept : Moves L tid h h ∧ ((none : Option ℕ) = none → h = h) ∧
      ((none : Option ℕ) ≠ none → pageCount L tid h.mem ≠ 0) :=
    ⟨Moves.refl _ _ _, fun _ => rfl, fun hnone => absurd rfl hnone⟩
  by_cases hzero : size = 0
  · rw [myallocate, if_pos hzero] at hrun
    obtain ⟨rfl, rfl⟩ := Prod.mk.inj (Option.some.inj hrun)
    exact hkept
  obtain ⟨hextent, _, hstart⟩ := hformed.fits.bounds
  have hformed₁ (h₁ : Arena) (hcharge : chargeFirst L tid h size = some h₁) :
      Formed L h₁.mem bs := hformed.of_count (chargeFirst_touches hcharge)
  rcases myallocate_cases (Nat.pos_of_ne_zero hzero) hextent
    (fun h₁ hh => (hformed₁ h₁ hh).chain) (fun h₁ hh => (hformed₁ h₁ hh).empty) hrun with
    ⟨_, rfl, rfl⟩ | ⟨h₁, hcharge, hways⟩
  · exact hkept
  obtain ⟨hmoves, hcount, _, hsame⟩ := chargeFirst_moves htotal hcharge
  -- a new header in the region moves no pages
  have hnew {m' : Memory} {p : ℕ} {nodes : List ℕ} {h₂ : Arena} (hmoves₂ : Moves L tid h h₂)
      (hcount₂ : pageCount L tid h₂.mem ≠ 0) (htouch : Touches h₂.mem m' nodes)
      (hnodes : ∀ y ∈ nodes, y + AllocNode.size ≤ L.endOfPages) :
      Moves L tid h { h₂ with mem := m' } ∧ (some p = none → { h₂ with mem := m' } = h) ∧
        (some p ≠ none → pageCount L tid m' ≠ 0) := by
    refine ⟨hmoves₂.trans (moves_of_touches htouch hnodes), fun hp => absurd hp (by simp),
      fun _ => ?_⟩
    rwa [pageCount_touches htouch hnodes]
  rcases hways with ⟨_, rfl, rfl⟩ | ⟨xs, ys, rfl, rfl, rfl⟩ | ⟨xs, b, rfl, _, happend⟩
  · apply hnew hmoves hcount touches_initHead
    intro y hy
    rw [List.mem_singleton.mp hy]
    exact L.head_lt.le
  · apply hnew hmoves hcount (touches_set (by decide))
    intro y hy
    rw [List.mem_singleton.mp hy]
    exact hformed.fits.header_le (by simp [starts_append, starts])
  · obtain rfl := hsame (hne (by simp))
    rcases append_cases (behind_last hextent hstart hformed.chain) happend with
      ⟨rfl, rfl, _⟩ | ⟨h₂, hfits, hcharge₂, rfl, rfl⟩
    · exact hkept
    · obtain ⟨hmoves₂, hcount₂⟩ := charge_moves htotal hcharge₂
      apply hnew hmoves₂ (by omega) touches_linkNode
      intro y hy
      simp only [List.mem_cons, List.not_mem_nil, or_false] at hy
      rcases hy with rfl | rfl
      · exact hformed.fits.header_le (by simp [starts_append, starts])
      · omega

/-- A request for as many bytes as the region has, or more, is refused or makes a first block
again. -/
theorem Formed.allocate_oversize {p : ℕ} (hformed : Formed L h.mem bs)
    (hlarge : L.regionSize ≤ size) (hsize : size < 2 ^ 31)
    (hrun : myallocate L tid fuel h size = some (h', some p)) :
    Oversize L h'.mem := by
  obtain ⟨hextent, _, hstart⟩ := hformed.fits.bounds
  have hends := L.endOfPages_eq
  have hpos : 0 < size := lt_of_lt_of_le (Nat.mul_pos (by decide) L.positive) hlarge
  have hformed₁ (h₁ : Arena) (hcharge : chargeFirst L tid h size = some h₁) :
      Formed L h₁.mem bs := hformed.of_count (chargeFirst_touches hcharge)
  rcases myallocate_cases hpos hextent (fun h₁ hh => (hformed₁ h₁ hh).chain)
    (fun h₁ hh => (hformed₁ h₁ hh).empty) hrun with ⟨_, _, hp⟩ | ⟨h₁, hcharge, hways⟩
  · exact absurd hp (by simp)
  rcases hways with ⟨_, rfl, _⟩ | ⟨xs, ys, rfl, _, _⟩ | ⟨xs, b, rfl, _, happend⟩
  · exact ⟨size, hlarge, hsize, (chain_initHead hsize).1, linked_initHead.1⟩
  · -- no free block is that large
    rcases hformed.fits with hlt | ⟨n, _, hlist⟩
    · simp only [extent_append, extent_cons, Block.span, AllocNode.size] at hlt
      omega
    · have hmem : (⟨size, false⟩ : Block) ∈ [(⟨n, true⟩ : Block)] := by
        rw [← hlist]
        simp
      exact absurd (List.mem_singleton.mp hmem) (by simp)
  · rcases append_cases (behind_last hextent hstart (hformed₁ h₁ hcharge).chain) happend with
      ⟨_, hp, _⟩ | ⟨_, hfits, _, _, _⟩
    · exact absurd hp (by simp)
    · omega

/-- With such a block every request is refused. -/
theorem Oversize.allocate {r : Option ℕ} (hover : Oversize L h.mem)
    (hcount : pageCount L tid h.mem ≠ 0)
    (hrun : myallocate L tid fuel h size = some (h', r)) : h' = h ∧ r = none := by
  obtain ⟨n, hlarge, hsmall, hheader, _⟩ := hover
  obtain ⟨_, hend, hregion⟩ := L.schedulerEnd_bound
  have hends := L.endOfPages_eq
  have hkept (heq : some (h, none) = some (h', r)) : h' = h ∧ r = none := by
    obtain ⟨rfl, rfl⟩ := Prod.mk.inj (Option.some.inj heq)
    exact ⟨rfl, rfl⟩
  unfold myallocate at hrun
  split at hrun
  · exact hkept hrun
  rw [chargeFirst_eq hcount] at hrun
  simp only [if_neg (not_not_intro hheader.signature)] at hrun
  obtain ⟨found, hsearch, heq⟩ := Option.map_eq_some_iff.mp hrun
  cases fuel with
  | zero => exact absurd hsearch (by simp [search])
  | succ fuel =>
    have hnext : get h.mem L.schedulerEnd next = 0 := hheader.next
    have huse : ¬ (get h.mem L.schedulerEnd inUse = 0 ∧
        capacityOf h.mem L.schedulerEnd = size) :=
      fun hfree => hheader.inUse_ne rfl hfree.1
    rw [search, if_neg huse, if_pos hnext] at hsearch
    obtain rfl := Option.some.inj hsearch
    have hcap : capacityOf h.mem L.schedulerEnd = n := hheader.capacityOf hsmall
    have hbehind : behind h.mem L.schedulerEnd = L.schedulerEnd + AllocNode.size + n := by
      unfold behind
      rw [hcap, Nat.mod_eq_of_lt]
      unfold AllocNode.size
      omega
    simp only [append, hbehind] at heq
    rw [if_pos (by omega)] at heq
    exact hkept (congrArg some heq)

/-- Only the first header is reached, if it has no next one. -/
theorem listed_eq_head {s : ℕ} (hlisted : Listed m s a) (hnext : get m s next = 0) : a = s := by
  induction hlisted with
  | head => rfl
  | next _ hne ih =>
    rw [ih] at hne
    exact absurd hnext hne

/-- Freeing such a block leaves no block. -/
theorem Oversize.free {ptr : ℕ} (hover : Oversize L h.mem) (hok : FreeExact L h.mem ptr)
    (hrun : mydeallocate L fuel h ptr = some h') :
    h' = h ∨ Formed L h'.mem [] ∧ h'.pagesLeft = h.pagesLeft ∧
      Touches h.mem h'.mem [L.schedulerEnd] := by
  apply (hok.cases hrun).imp id
  rintro ⟨⟨_, hlisted⟩, hfollows, _⟩
  obtain ⟨n, _, hsmall, hheader, _⟩ := hover
  obtain ⟨hs, hend, _⟩ := L.schedulerEnd_bound
  have hends := L.endOfPages_eq
  have hnode := listed_eq_head hlisted hheader.next
  have hchain : Chain h.mem L.schedulerEnd ([] ++ ⟨n, true⟩ :: []) 0 := ⟨hheader, trivial⟩
  have hptr : ptr = L.schedulerEnd + extent [] + AllocNode.size := by
    rw [extent_nil]
    omega
  have hhead : L.schedulerEnd + extent [] + AllocNode.size < L.endOfPages := by
    rw [extent_nil, Nat.add_zero]
    exact L.head_lt
  have hextent : extent ([] ++ (⟨n, true⟩ : Block) :: []) < 2 ^ 32 := by
    simp only [List.nil_append, extent_cons, extent_nil, Block.span, AllocNode.size]
    omega
  rw [hnode] at hfollows
  rw [hptr, mydeallocate_eq hchain hhead] at hrun
  obtain ⟨m', hfree, rfl⟩ := Option.map_eq_some_iff.mp hrun
  obtain ⟨m₁, bs', hreturns, _, htight, hpayloads, _, htouch, hempty, _⟩ :=
    freeBlock_spec hs hextent (by omega) hchain ⟨List.isChain_singleton _, by simp⟩ hfollows
  obtain rfl := freeBlock_unique hreturns hfree
  obtain rfl := htight.eq_nil hpayloads
  exact ⟨formed_nil (hempty rfl), rfl, htouch⟩

/-! ## Calls of a thread -/

/-- A request keeps the region regular and moves pages. If it is refused, it changes
nothing. -/
theorem Regular.allocate {r : Option ℕ} (hregular : Regular L tid h)
    (htotal : pageCount L tid h.mem + h.pagesLeft ≤ pagesAtStart) (hsize : size < 2 ^ 31)
    (hrun : myallocate L tid fuel h size = some (h', r)) :
    Regular L tid h' ∧ Moves L tid h h' ∧ (r = none → h' = h) := by
  rcases hregular with ⟨bs, hformed, hne⟩ | ⟨hover, hcount⟩
  · obtain ⟨hmoves, hnone, hcount⟩ := hformed.allocate_moves hne htotal hrun
    refine ⟨?_, hmoves, hnone⟩
    cases r with
    | none =>
      rw [hnone rfl]
      exact Or.inl ⟨bs, hformed, hne⟩
    | some p =>
      by_cases hsmall : size < L.regionSize
      · obtain ⟨bs', hformed', _⟩ := hformed.allocate hsmall hrun
        exact Or.inl ⟨bs', hformed', fun _ => hcount (by simp)⟩
      · have hover := hformed.allocate_oversize (Nat.not_lt.mp hsmall) hsize hrun
        exact Or.inr ⟨hover, hcount (by simp)⟩
  · obtain ⟨rfl, rfl⟩ := hover.allocate hcount hrun
    exact ⟨Or.inr ⟨hover, hcount⟩, Moves.refl _ _ _, fun _ => rfl⟩

/-- A free that meets the condition keeps the region regular and moves no pages. -/
theorem Regular.free {ptr : ℕ} (hregular : Regular L tid h) (hok : FreeExact L h.mem ptr)
    (hrun : mydeallocate L fuel h ptr = some h') : Regular L tid h' ∧ Moves L tid h h' := by
  have hmoves {nodes : List ℕ} (htouch : Touches h.mem h'.mem nodes)
      (hnodes : ∀ y ∈ nodes, y + AllocNode.size ≤ L.endOfPages)
      (hpages : h'.pagesLeft = h.pagesLeft) : Moves L tid h h' := by
    have hh' : h' = { h with mem := h'.mem } := by rw [← hpages]
    rw [hh']
    exact moves_of_touches htouch hnodes
  rcases hregular with ⟨bs, hformed, hne⟩ | ⟨hover, hcount⟩
  · obtain ⟨bs', hformed', _, hpages, htouch, hnil⟩ := hformed.free hok hrun
    have hle : ∀ y ∈ starts L.schedulerEnd bs, y + AllocNode.size ≤ L.endOfPages :=
      fun _ hy => hformed.fits.header_le hy
    refine ⟨Or.inl ⟨bs', hformed', fun hne' => ?_⟩, hmoves htouch hle hpages⟩
    rw [pageCount_touches htouch hle]
    exact hne fun hbs => hne' (hnil hbs)
  · rcases hover.free hok hrun with rfl | ⟨hformed', hpages, htouch⟩
    · exact ⟨Or.inr ⟨hover, hcount⟩, Moves.refl _ _ _⟩
    · refine ⟨Or.inl ⟨[], hformed', fun hne => absurd rfl hne⟩,
        hmoves htouch (fun y hy => ?_) hpages⟩
      rw [List.mem_singleton.mp hy]
      exact L.head_lt.le

/-- A write to a block in use that is not to a page count keeps the region regular and moves no
pages. -/
theorem Regular.write {node : ℕ} {v : UInt8} (hregular : Regular L tid h)
    (htid : tid < threadCount) (hblock : HasBlock L h.mem node)
    (hused : get h.mem node inUse ≠ 0)
    (ha : InPayload (node + AllocNode.size, capacityOf h.mem node) a)
    (hok : a < L.endOfPages ∨ L.endOfPages + 4 * threadCount ≤ a) :
    Regular L tid { h with mem := Function.update h.mem a v } ∧
      ∀ t < threadCount, pageCount L t (Function.update h.mem a v) = pageCount L t h.mem := by
  have hcounts (t : ℕ) (ht : t < threadCount) :
      pageCount L t (Function.update h.mem a v) = pageCount L t h.mem := by
    apply pageCount_congr
    intro c hc hlt
    unfold threadCount at *
    simp only [Layout.countAddr, threadPageCount] at hc hlt
    exact Function.update_of_ne (by omega) _ _
  refine ⟨?_, hcounts⟩
  unfold Regular
  simp only [hcounts tid htid]
  rcases hregular with ⟨bs, hformed, hne⟩ | ⟨hover, hcount⟩
  · exact Or.inl ⟨bs, hformed.write (hformed.mem_payloads hblock hused) ha v, hne⟩
  · obtain ⟨_, _, _, hheader, _⟩ := id hover
    obtain rfl := listed_eq_head hblock.2 hheader.next
    unfold InPayload at ha
    exact Or.inr ⟨hover.congr fun f hf =>
      load_congr fun c _ _ => Function.update_of_ne (by omega) _ _, hcount⟩

/-- An exit moves all pages of the thread back. -/
theorem releasePages_moves (htotal : pageCount L tid h.mem + h.pagesLeft ≤ pagesAtStart)
    (hleft : 0 ≤ h.pagesLeft) : Moves L tid h (releasePages L tid h) := by
  have hint : intOf (pageCount L tid h.mem) = pageCount L tid h.mem := by
    unfold intOf
    unfold pagesAtStart at htotal
    exact if_pos (by omega)
  have hpages :
      (releasePages L tid h).pagesLeft = h.pagesLeft + intOf (pageCount L tid h.mem) := rfl
  have hzero : pageCount L tid (releasePages L tid h).mem = 0 := get_set_self
  constructor
  · exact fun t _ ht => pageCount_set_other ht
  · rw [hzero, hpages, hint]
    push_cast
    omega
  · intro _
    rw [hpages, hint]
    omega

/-! ## All threads -/

/-- The invariant of the runs: no page is lost, and the region of every thread that still makes
calls is well-formed. -/
structure Budget.Sound (L : Layout) (σ : Budget) : Prop where
  /-- The pages left and all page counts sum up to those at the start. -/
  conserved : σ.Conserved L
  /-- The regions of the threads that have not exited. -/
  regular : ∀ t, σ.Runs t → Regular L t (σ.heap L t)

variable {σ σ' : Budget} {t : ℕ}

/-- A sum of which one term changes. -/
theorem sum_counts {f g : ℕ → ℕ} (ht : t < threadCount)
    (hsame : ∀ u < threadCount, u ≠ t → g u = f u) :
    ∑ u ∈ Finset.range threadCount, g u + f t = ∑ u ∈ Finset.range threadCount, f u + g t := by
  have hmem : t ∈ Finset.range threadCount := Finset.mem_range.mpr ht
  have hrest : ∑ u ∈ (Finset.range threadCount).erase t, g u =
      ∑ u ∈ (Finset.range threadCount).erase t, f u := by
    apply Finset.sum_congr rfl
    intro u hu
    obtain ⟨hne, hu⟩ := Finset.mem_erase.mp hu
    exact hsame u (Finset.mem_range.mp hu) hne
  rw [← Finset.add_sum_erase _ g hmem, ← Finset.add_sum_erase _ f hmem, hrest]
  omega

/-- A term is not more than its sum. -/
theorem le_sum_counts {f : ℕ → ℕ} {n : ℕ} (ht : t < n) : f t ≤ ∑ u ∈ Finset.range n, f u :=
  Finset.single_le_sum (f := f) (fun _ _ => Nat.zero_le _) (Finset.mem_range.mpr ht)

/-- The pages of one thread and those left are not more than those at the start. -/
theorem Budget.Conserved.total_le (hσ : σ.Conserved L) (ht : t < threadCount) :
    pageCount L t (σ.heap L t).mem + (σ.heap L t).pagesLeft ≤ pagesAtStart := by
  have hle : pageCount L t σ.shared ≤ ∑ u ∈ Finset.range threadCount, pageCount L u σ.shared :=
    le_sum_counts (f := fun u => pageCount L u σ.shared) ht
  have hsame : pageCount L t (σ.heap L t).mem = pageCount L t σ.shared := pageCount_view
  have htotal := hσ.1
  rw [hsame]
  change (pageCount L t σ.shared : ℤ) + σ.pagesLeft ≤ pagesAtStart
  omega

/-- An event in which one thread moves pages and the regions of the others stay. -/
theorem Budget.Sound.moves (hσ : σ.Sound L) (ht : t < threadCount)
    (hmoves : Moves L t (σ.heap L t) h') (hshared : σ'.shared = h'.mem)
    (hpages : σ'.pagesLeft = h'.pagesLeft) (hregions : ∀ u, u ≠ t → σ'.regions u = σ.regions u)
    (hruns : ∀ u, σ'.Runs u → σ.Runs u) (hself : σ'.Runs t → Regular L t (σ'.heap L t)) :
    σ'.Sound L := by
  obtain ⟨hothers, htotal, hleft⟩ := hmoves
  have hview (u : ℕ) : pageCount L u (σ.heap L t).mem = pageCount L u σ.shared := pageCount_view
  simp only [hview] at hothers htotal
  constructor
  · have hsum := sum_counts (f := fun u => pageCount L u σ.shared)
      (g := fun u => pageCount L u h'.mem) ht hothers
    have hbefore := hσ.conserved.1
    change pageCount L t h'.mem + h'.pagesLeft = pageCount L t σ.shared + σ.pagesLeft at htotal
    unfold Conserved
    rw [hshared, hpages]
    refine ⟨?_, hleft hσ.conserved.2⟩
    omega
  · intro u hu
    by_cases hne : u = t
    · rw [hne] at hu ⊢
      exact hself hu
    · apply (hσ.regular u (hruns u hu)).congr
      · intro c hc hlt
        simp only [heap, view, if_pos (And.intro hc hlt), hregions u hne]
      · have hu' : pageCount L u (σ'.heap L u).mem = pageCount L u σ'.shared := pageCount_view
        have hu₀ : pageCount L u (σ.heap L u).mem = pageCount L u σ.shared := pageCount_view
        rw [hu', hu₀, hshared]
        exact hothers u hu.2.1 hne

/-- A call that moves pages between a thread and those left keeps the invariant. -/
theorem Budget.Sound.put (hσ : σ.Sound L) (ht : t < threadCount)
    (hmoves : Moves L t (σ.heap L t) h') (hregular : Regular L t h') : (σ.put t h').Sound L := by
  apply hσ.moves ht hmoves rfl rfl
  · exact fun u hu => Function.update_of_ne hu _ _
  · exact fun _ hu => hu
  · intro _
    have hheap : (σ.put t h').heap L t = h' := by
      unfold heap
      rw [view_put]
      rfl
    rwa [hheap]

/-- An event that meets the condition keeps the sum of the pages, and the regions of the threads
that go on are well-formed afterwards. -/
theorem Budget.Sound.step {e : BudgetEvent} (hσ : σ.Sound L) (hok : BudgetSafe L σ e)
    (hstep : BudgetStep L σ e σ') : σ'.Sound L := by
  cases e with
  | allocate t size =>
    obtain ⟨hruns, hsize, fuel, h', r, hrun, rfl⟩ := hstep
    obtain ⟨hregular, hmoves, _⟩ := (hσ.regular t hruns).allocate
      (hσ.conserved.total_le hruns.2.1) hsize hrun
    exact hσ.put hruns.2.1 hmoves hregular
  | free t ptr =>
    obtain ⟨hruns, fuel, h', hrun, rfl⟩ := hstep
    obtain ⟨hregular, hmoves⟩ := (hσ.regular t hruns).free hok hrun
    exact hσ.put hruns.2.1 hmoves hregular
  | write t a v =>
    obtain ⟨hruns, ⟨node, hblock, hused, ha⟩, rfl⟩ := hstep
    obtain ⟨hregular, hcounts⟩ := (hσ.regular t hruns).write (v := v) hruns.2.1 hblock hused ha hok
    apply hσ.put hruns.2.1 _ hregular
    refine ⟨fun u hu _ => hcounts u hu, ?_, id⟩
    have hcount := hcounts t hruns.2.1
    change (pageCount L t (Function.update (σ.heap L t).mem a v) : ℤ) + σ.pagesLeft = _
    rw [hcount]
    rfl
  | exit t =>
    obtain ⟨ht, m, rfl⟩ := hstep
    have hmoves := releasePages_moves (hσ.conserved.total_le ht.2) hσ.conserved.2
    apply hσ.moves ht.2 hmoves rfl rfl
    · exact fun u hu => Function.update_of_ne hu _ _
    · exact fun u hu => ⟨hu.1, hu.2.1, fun hmem => hu.2.2 (List.mem_cons_of_mem t hmem)⟩
    · exact fun hu => absurd List.mem_cons_self hu.2.2

/-- In every state that such a run reaches the pages are conserved and the regions well-formed. -/
theorem budgetReach_sound (hpage : L.PAGE_SIZE = 4096) (h : BudgetReach L (BudgetSafe L) σ) :
    σ.Sound L := by
  apply Runs.Reach.invariant (P := Budget.Sound L) ?_ ?_ h
  · rintro σ ⟨hleft, hexited, hcounts, hzero⟩
    constructor
    · have hsum : ∑ t ∈ Finset.range threadCount, pageCount L t σ.shared = 0 :=
        Finset.sum_eq_zero fun t ht => hcounts t (Finset.mem_range.mp ht)
      unfold Budget.Conserved
      rw [hleft, hsum]
      exact ⟨rfl, Int.natCast_nonneg _⟩
    · intro t ht
      refine Or.inl ⟨[], formed_nil (signature_of_zero (fun c hc hlt => ?_)
        (Layout.header_le_page hpage)),
        fun hne => absurd rfl hne⟩
      have hin : L.schedulerEnd ≤ c ∧ c < L.endOfPages := by
        have hends := L.endOfPages_eq
        unfold Layout.regionSize at hends
        omega
      simp only [Budget.heap, Budget.view, if_pos hin]
      exact hzero t ht.1 ht.2.1 c hc hlt
  · exact fun σ e σ' hσ hok hstep => hσ.step hok hstep

/-- In every run whose frees are refused or follow right links, and in which no block is written
where the page counts are, the pages left and those of all threads are those at the start, and a
request that is refused changes nothing that a thread sees. -/
theorem budget_conserved (L : Layout) (hpage : L.PAGE_SIZE = 4096) :
    (∀ σ, BudgetReach L (BudgetSafe L) σ → σ.Conserved L) ∧
      ∀ (σ : Budget) (t size fuel : ℕ) (h' : Arena), BudgetReach L (BudgetSafe L) σ → σ.Runs t →
        size < 2 ^ 31 → myallocate L t fuel (σ.heap L t) size = some (h', none) →
          (σ.put t h').pagesLeft = σ.pagesLeft ∧ ∀ u, (σ.put t h').view L u = σ.view L u := by
  refine ⟨fun σ h => (budgetReach_sound hpage h).conserved, ?_⟩
  intro σ t size fuel h' h hruns hsize hrun
  have hσ := budgetReach_sound hpage h
  obtain ⟨_, _, hnone⟩ := (hσ.regular t hruns).allocate (hσ.conserved.total_le hruns.2.1) hsize hrun
  rw [hnone rfl]
  refine ⟨rfl, fun u => ?_⟩
  by_cases hu : u = t
  · rw [hu]
    exact Budget.view_put
  · funext c
    by_cases hc : L.schedulerEnd ≤ c ∧ c < L.endOfPages
    · exact Budget.view_put_other hu hc
    · simp [Budget.view, Budget.put, Budget.heap, hc]


/-! ## Runs on given inputs -/

/-- No thread has pages yet, and all see the same bytes in the region. -/
def freshBudget (region : Memory) : Budget := ⟨fun _ => region, fun _ => 0, 5500, []⟩

/-- It is a state to start from when the first page is zero. -/
theorem budgetReach_fresh {ok : Budget → BudgetEvent → Prop} {region : Memory}
    (hzero : ∀ c, c < 901120 → region c = 0) :
    BudgetReach sampleLayout ok (freshBudget region) := by
  apply Runs.Reach.start
  refine ⟨rfl, rfl, fun _ _ => load_zero fun _ _ _ => rfl, ?_⟩
  intro _ _ _ c _ hc
  apply hzero
  have hend : sampleLayout.schedulerEnd + sampleLayout.PAGE_SIZE = 901120 := by decide
  omega

/-- A request of the first thread, computed, is an event of the run. -/
theorem budgetReach_allocate {ok : Budget → BudgetEvent → Prop} {r : Option ℕ}
    (hreach : BudgetReach sampleLayout ok σ) (hok : ok σ (.allocate 1 size))
    (hexited : σ.exited = [])
    (hsize : size < 2 ^ 31) (hrun : myallocate sampleLayout 1 10 (σ.heap sampleLayout 1) size =
      some (h', r)) : BudgetReach sampleLayout ok (σ.put 1 h') :=
  hreach.step (e := .allocate 1 size) hok
    ⟨⟨le_rfl, by decide, by simp [hexited]⟩, hsize, 10, h', r, hrun, rfl⟩

/-- The theorem at a refused second request. -/
theorem budget_conserved_refused : ∃ σ h', BudgetReach sampleLayout (BudgetSafe sampleLayout) σ ∧
    σ.pagesLeft = 5499 ∧ σ.Conserved sampleLayout ∧
    myallocate sampleLayout 1 10 (σ.heap sampleLayout 1) 8000000 = some (h', none) ∧
    (σ.put 1 h').pagesLeft = σ.pagesLeft ∧
    ∀ u, (σ.put 1 h').view sampleLayout u = σ.view sampleLayout u := by
  let σ₀ := freshBudget fun _ => 0
  have hrun : (myallocate sampleLayout 1 10 (σ₀.heap sampleLayout 1) 100).bind (fun r =>
      (myallocate sampleLayout 1 10 ((σ₀.put 1 r.1).heap sampleLayout 1) 8000000).map fun r' =>
        (r.1.pagesLeft, r'.2)) = some (5499, none) := by
    decide +kernel
  obtain ⟨⟨h, r⟩, hfirst, hrun⟩ := Option.bind_eq_some_iff.mp hrun
  obtain ⟨⟨h', r'⟩, hsecond, heq⟩ := Option.map_eq_some_iff.mp hrun
  obtain ⟨hleft, rfl⟩ := Prod.mk.inj heq
  have hreach : BudgetReach sampleLayout (BudgetSafe sampleLayout) (σ₀.put 1 h) :=
    budgetReach_allocate (budgetReach_fresh fun _ _ => rfl) trivial rfl (by decide) hfirst
  have hruns : (σ₀.put 1 h).Runs 1 := ⟨le_rfl, by decide, List.not_mem_nil⟩
  obtain ⟨hconserved, hrefused⟩ := budget_conserved sampleLayout rfl
  exact ⟨_, h', hreach, hleft, hconserved _ hreach, hsecond,
    hrefused _ 1 _ 10 h' hreach hruns (by decide) hsecond⟩

/-- Bytes in the second page that look like the header of a block in use, with the page counts
before it. -/
def plantedRegion : Memory :=
  let m := set (fun _ => 0) 901120 inUse 1
  let m := set m 901120 prev 7450624
  let m := set m 901120 next 901184
  let m := set m 901120 signature valid
  set m 901184 inUse 1

/-- Pages that are more than at the start are not conserved. -/
theorem Budget.not_conserved (hcount : pagesAtStart < pageCount L 1 σ.shared + σ.pagesLeft) :
    ¬ σ.Conserved L := by
  intro hσ
  have hle := hσ.total_le (t := 1) (by decide)
  rw [heap, pageCount_view] at hle
  exact absurd hcount (not_lt.mpr hle)

/-- A thread allocates 5000 bytes, for which it is charged the first two pages, and frees an
address in the second one, where its block holds bytes that look like a header. No page
changes hands, but the page count goes from 2 to 34. -/
theorem page_counts_changed : ∃ σ σ', BudgetReach sampleLayout (fun _ _ => True) σ ∧
    pageCount sampleLayout 1 σ.shared = 2 ∧ σ.pagesLeft = 5498 ∧
    BudgetStep sampleLayout σ (.free 1 901152) σ' ∧
    pageCount sampleLayout 1 σ'.shared = 34 ∧ σ'.pagesLeft = 5498 ∧
      ¬ σ'.Conserved sampleLayout := by
  let σ₀ := freshBudget plantedRegion
  have hrun : (myallocate sampleLayout 1 10 (σ₀.heap sampleLayout 1) 5000).bind (fun r =>
      (mydeallocate sampleLayout 10 ((σ₀.put 1 r.1).heap sampleLayout 1) 901152).map fun h =>
        (pageCount sampleLayout 1 r.1.mem, r.1.pagesLeft, pageCount sampleLayout 1 h.mem,
          h.pagesLeft)) = some (2, 5498, 34, 5498) := by
    decide +kernel
  obtain ⟨⟨h, r⟩, hallocate, hrun⟩ := Option.bind_eq_some_iff.mp hrun
  obtain ⟨h', hfree, heq⟩ := Option.map_eq_some_iff.mp hrun
  simp only [Prod.mk.injEq] at heq
  obtain ⟨hcount, hleft, hcount', hleft'⟩ := heq
  have hzero (c : ℕ) (hc : c < 901120) : plantedRegion c = 0 := by
    unfold plantedRegion
    simp only [Bytes.set]
    repeat rw [store_apply (Or.inl (by simp [inUse, prev, next, signature]; omega))]
  have hreach : BudgetReach sampleLayout (fun _ _ => True) (σ₀.put 1 h) :=
    budgetReach_allocate (budgetReach_fresh hzero) trivial rfl (by decide) hallocate
  have hstep : BudgetStep sampleLayout (σ₀.put 1 h) (.free 1 901152) ((σ₀.put 1 h).put 1 h') :=
    ⟨⟨le_rfl, by decide, List.not_mem_nil⟩, 10, h', hfree, rfl⟩
  refine ⟨_, _, hreach, hcount, hleft, hstep, hcount', hleft', ?_⟩
  apply Budget.not_conserved
  change (pagesAtStart : ℤ) < pageCount sampleLayout 1 h'.mem + h'.pagesLeft
  rw [hcount', hleft']
  decide

end SimpleOs.Heap
