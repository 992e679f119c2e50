import SimpleOs.Heap.Allocation
import SimpleOs.Library.Runs

/-!
# Blocks do not interfere

A thread allocates and frees blocks and writes to the payloads of those it has. The
payloads stay apart from each other and from the headers, and the allocator leaves
them alone, as long as the links to the block before that a free follows are right.
-/

namespace SimpleOs.Heap

open Bytes AllocNode

variable {L : Layout} {tid fuel size : ℕ} {bs : List Block}

/-! ## Runs of a thread -/

/-- The memory, with the payloads allocated and not yet freed and their sizes. -/
structure State where
  /-- The memory that the thread sees, and the pages left. -/
  heap : Arena
  /-- The payloads that were returned and not freed, with their sizes. -/
  live : List (ℕ × ℕ)

/-- What the thread does with its heap. -/
inductive HeapEvent where
  /-- A call of `myallocate` that succeeds. -/
  | allocate (size : ℕ)
  /-- A call of `mydeallocate` on a live block. -/
  | free (p : ℕ)
  /-- A write to a byte of a live block. -/
  | write (a : ℕ) (v : UInt8)

/-- The size of the thread's region. -/
def Layout.regionSize (L : Layout) : ℕ := 1600 * L.PAGE_SIZE

/-- The byte at `c` is in a payload. -/
def InPayload (x : ℕ × ℕ) (c : ℕ) : Prop := x.1 ≤ c ∧ c < x.1 + x.2

/-- The byte at `c` is in the header before a payload. -/
def InHeader (x : ℕ × ℕ) (c : ℕ) : Prop := x.1 ≤ c + AllocNode.size ∧ c < x.1

/-- One event: a granted request, a free of a live block, or a write into one. -/
def HeapStep (L : Layout) (tid : ℕ) (σ : State) (e : HeapEvent) (σ' : State) : Prop :=
  match e with
  | .allocate size => size < L.regionSize ∧ ∃ fuel p,
      myallocate L tid fuel σ.heap size = some (σ'.heap, some p) ∧
        σ'.live = (p, size) :: σ.live
  | .free p => ∃ fuel size, (p, size) ∈ σ.live ∧
      mydeallocate L fuel σ.heap p = some σ'.heap ∧ σ'.live = σ.live.erase (p, size)
  | .write a v => (∃ x ∈ σ.live, InPayload x a) ∧
      σ' = { σ with heap := { σ.heap with mem := Function.update σ.heap.mem a v } }

/-- The condition on an event: the links that a free follows are right. -/
def LinksExact (L : Layout) (σ : State) : HeapEvent → Prop
  | .free p => FollowsExact σ.heap.mem L.schedulerEnd (p - AllocNode.size)
  | _ => True

/-- The states reached by events that meet `ok`, from one in which nothing is
allocated. -/
def HeapReach (L : Layout) (tid : ℕ) (ok : State → HeapEvent → Prop) : State → Prop :=
  Runs.Reach (fun σ => σ.live = [] ∧ get σ.heap.mem L.schedulerEnd signature ≠ valid)
    (HeapStep L tid) ok

/-- The payloads have no byte in common with each other or with a header. -/
def State.Separate (σ : State) : Prop :=
  σ.live.Pairwise fun x y => ∀ c, (InPayload x c → ¬ InPayload y c ∧ ¬ InHeader y c) ∧
    (InPayload y c → ¬ InHeader x c)

/-- The payloads of the blocks that stay live do not change. -/
def State.Preserves (σ σ' : State) : Prop :=
  ∀ x ∈ σ.live, x ∈ σ'.live → ∀ c, InPayload x c → σ'.heap.mem c = σ.heap.mem c

/-! ## Well-formed regions -/

/-- The blocks are within the region. A first block that was made again may be the
only one, and reach behind the region. -/
def Fits (L : Layout) (bs : List Block) : Prop :=
  L.schedulerEnd + extent bs < L.endOfPages ∨ ∃ n < L.regionSize, bs = [⟨n, true⟩]

/-- The region holds the blocks `bs`. -/
structure Formed (L : Layout) (m : Memory) (bs : List Block) : Prop where
  /-- The headers from the beginning of the region on are those of the blocks, but for their links
  back. -/
  chain : Chain m L.schedulerEnd bs 0
  /-- No two free blocks are adjacent, and the last one is in use. -/
  tight : Tight bs
  /-- The first header tells whether there is a block. -/
  empty : bs = [] → get m L.schedulerEnd signature ≠ valid
  /-- The blocks are within the region. -/
  fits : Fits L bs

/-- The size of the region is that between its ends. -/
theorem Layout.endOfPages_eq (L : Layout) : L.endOfPages = L.schedulerEnd + L.regionSize := rfl

/-- The first header is in the region. -/
theorem Layout.head_lt (L : Layout) : L.schedulerEnd + AllocNode.size < L.endOfPages := by
  have hpositive := L.positive
  rw [L.endOfPages_eq]
  unfold regionSize AllocNode.size
  omega

/-- A region whose first header is not marked has no blocks. -/
theorem formed_nil {m : Memory} (h : get m L.schedulerEnd signature ≠ valid) : Formed L m [] := by
  refine ⟨trivial, ⟨List.isChain_nil, by simp⟩, fun _ => h, Or.inl ?_⟩
  have hhead := L.head_lt
  rw [extent_nil]
  omega

/-- The bounds on numbers that the region gives. -/
theorem Fits.bounds (h : Fits L bs) : extent bs < 2 ^ 31 ∧ L.regionSize < 2 ^ 31 ∧
    L.schedulerEnd < 2 ^ 63 := by
  obtain ⟨_, hend, hregion⟩ := L.schedulerEnd_bound
  have hsize := L.endOfPages_eq
  have hsizeof : AllocNode.size = 32 := rfl
  rcases h with h | ⟨n, hn, rfl⟩
  · omega
  · simp only [extent_cons, extent_nil, Block.span]
    omega

/-- The header of every block that fits lies within the region. -/
theorem Fits.header_le (h : Fits L bs) {y : ℕ} (hy : y ∈ starts L.schedulerEnd bs) :
    y + AllocNode.size ≤ L.endOfPages := by
  have hpos := mem_starts hy
  rcases h with h | ⟨n, hn, rfl⟩
  · omega
  · simp only [starts, List.mem_singleton] at hy
    rw [hy]
    exact L.head_lt.le

/-! ## Allocation -/

variable {h h' h₁ : Arena} {m m' : Memory}

/-- A request for no bytes is refused. -/
theorem myallocate_pos {p : ℕ} (hrun : myallocate L tid fuel h size = some (h', some p)) :
    0 < size := by
  by_contra hzero
  rw [myallocate, if_pos (by omega)] at hrun
  exact absurd (Prod.mk.inj (Option.some.inj hrun)).2 (by simp)

/-- A charge touches the page count only. -/
theorem charge_touches {n : ℕ} (hrun : charge L tid h n = some h₁) :
    Touches h.mem h₁.mem [L.countAddr tid] := by
  unfold charge at hrun
  split at hrun
  · exact absurd hrun (by simp)
  · rw [← Option.some.inj hrun]
    exact touches_set (by decide)

/-- So does the charge for the first pages. -/
theorem chargeFirst_touches (hrun : chargeFirst L tid h size = some h₁) :
    Touches h.mem h₁.mem [L.countAddr tid] := by
  unfold chargeFirst at hrun
  split at hrun
  · split at hrun
    · exact absurd hrun (by simp)
    · exact charge_touches hrun
  · rw [← Option.some.inj hrun]
    exact Touches.refl _ _

/-- The page count is behind the headers. -/
theorem Fits.apart_count (hfits : Fits L bs) (tid : ℕ) : ∀ x ∈ starts L.schedulerEnd bs,
    ∀ y ∈ [L.countAddr tid], x + AllocNode.size ≤ y ∨ y + AllocNode.size ≤ x := by
  intro x hx y hy
  have hpos := hfits.header_le hx
  rw [List.mem_singleton.mp hy, Layout.countAddr]
  omega

/-- The page count does not matter to the region. -/
theorem Formed.of_count (hformed : Formed L m bs) (htouch : Touches m m' [L.countAddr tid]) :
    Formed L m' bs := by
  refine ⟨htouch.chain hformed.chain (hformed.fits.apart_count tid), hformed.tight,
    fun hbs => ?_, hformed.fits⟩
  have hhead := L.head_lt
  rw [htouch.get (by decide) ?_]
  · exact hformed.empty hbs
  · intro y hy
    rw [List.mem_singleton.mp hy, Layout.countAddr]
    omega

/-- The pages that a thread has been charged for. -/
def pageCount (L : Layout) (tid : ℕ) (m : Memory) : ℕ := get m (L.countAddr tid) threadPageCount

/-- Changes of headers within the region leave the page count alone. -/
theorem pageCount_touches {nodes : List ℕ} (htouch : Touches m m' nodes)
    (hnodes : ∀ y ∈ nodes, y + AllocNode.size ≤ L.endOfPages) :
    pageCount L tid m' = pageCount L tid m := by
  refine htouch.get (by decide) fun y hy => Or.inr ?_
  have := hnodes y hy
  unfold Layout.countAddr
  omega

/-- Where a successful allocation puts its block, and how many pages it is charged. -/
inductive Placed (L : Layout) (tid size : ℕ) (h h' : Arena) (bs bs' : List Block) : Prop
  /-- The block is the first one. -/
  | first (h₁ : Arena) : bs = [] → extent bs' = AllocNode.size + size →
      chargeFirst L tid h size = some h₁ → pageCount L tid h'.mem = pageCount L tid h₁.mem →
      h'.pagesLeft = h₁.pagesLeft → Placed L tid size h h' bs bs'
  /-- The block was free, and had exactly the size of the request. -/
  | reused (h₁ : Arena) : ⟨size, false⟩ ∈ bs → extent bs' = extent bs →
      chargeFirst L tid h size = some h₁ → pageCount L tid h'.mem = pageCount L tid h₁.mem →
      h'.pagesLeft = h₁.pagesLeft → Placed L tid size h h' bs bs'
  /-- The block is the last one. -/
  | last (h₁ h₂ : Arena) : bs ≠ [] → ⟨size, false⟩ ∉ bs →
      L.schedulerEnd + extent bs + AllocNode.size + size < L.endOfPages →
      extent bs' = extent bs + AllocNode.size + size →
      chargeFirst L tid h size = some h₁ →
      charge L tid h₁ (countPages L.PAGE_SIZE (L.PAGE_SIZE - (L.schedulerEnd + extent bs +
        AllocNode.size) % L.PAGE_SIZE) size (size + 1) 0) = some h₂ →
      pageCount L tid h'.mem = pageCount L tid h₂.mem → h'.pagesLeft = h₂.pagesLeft →
      Placed L tid size h h' bs bs'

/-- The links back do not depend on the page count. -/
theorem Fits.linked_of_count (hfits : Fits L bs) (htouch : Touches m m' [L.countAddr tid])
    (hlinked : Linked m 0 L.schedulerEnd bs) : Linked m' 0 L.schedulerEnd bs :=
  hlinked.congr fun y hy => htouch.get (by decide) (hfits.apart_count tid y hy)

/-- What a successful allocation leaves. -/
structure Allocated (L : Layout) (tid size p : ℕ) (h h' : Arena) (bs bs' : List Block) : Prop where
  /-- Afterwards the region holds the blocks `bs'`. -/
  formed : Formed L h'.mem bs'
  /-- There is one payload more. -/
  perm : (payloads L.schedulerEnd bs').Perm ((p, size) :: payloads L.schedulerEnd bs)
  /-- No byte of the others has changed. -/
  kept : ∀ x ∈ payloads L.schedulerEnd bs, ∀ c, InPayload x c → h'.mem c = h.mem c
  /-- Where the block was put, and what was charged for it. -/
  placed : Placed L tid size h h' bs bs'
  /-- The links back stay right. -/
  linked : Linked h.mem 0 L.schedulerEnd bs → Linked h'.mem 0 L.schedulerEnd bs'
  /-- If the blocks reach further than before, they end where the payload ends. -/
  ends : extent bs' ≠ extent bs → p + size = L.schedulerEnd + extent bs'

/-- In a region without blocks the new block is the first one. -/
theorem Formed.allocate_first (hformed : Formed L h.mem []) (hsize : size < L.regionSize)
    (hcharge : chargeFirst L tid h size = some h₁) :
    Allocated L tid size (L.schedulerEnd + AllocNode.size) h
      { h₁ with mem := initHead h₁.mem L.schedulerEnd size } [] [⟨size, true⟩] := by
  obtain ⟨_, hregion, _⟩ := hformed.fits.bounds
  constructor
  case formed =>
    refine ⟨chain_initHead (by omega), ?_, by simp, Or.inr ⟨size, hsize, rfl⟩⟩
    exact ⟨List.isChain_singleton _, by simp⟩
  case perm => simp [payloads]
  case kept => simp [payloads]
  case placed =>
    refine .first h₁ rfl (by simp [Block.span]) hcharge (pageCount_touches touches_initHead ?_) rfl
    intro y hy
    rw [List.mem_singleton.mp hy]
    exact L.head_lt.le
  case linked => exact fun _ => linked_initHead
  case ends => simp [Block.span, Nat.add_assoc]

/-- A request that is given a free block of its size marks it as used. -/
theorem Formed.allocate_reused {xs ys : List Block}
    (hformed : Formed L h.mem (xs ++ ⟨size, false⟩ :: ys))
    (hcharge : chargeFirst L tid h size = some h₁) :
    Allocated L tid size (L.schedulerEnd + extent xs + AllocNode.size) h
      { h₁ with mem := set h₁.mem (L.schedulerEnd + extent xs) inUse 1 }
      (xs ++ ⟨size, false⟩ :: ys) (xs ++ ⟨size, true⟩ :: ys) := by
  obtain ⟨_, hregion, hstart⟩ := hformed.fits.bounds
  have hcount := chargeFirst_touches hcharge
  have hformed₁ := hformed.of_count hcount
  have hfits : L.schedulerEnd + extent (xs ++ ⟨size, false⟩ :: ys) < L.endOfPages := by
    rcases hformed.fits with hlt | ⟨n, _, hlist⟩
    · exact hlt
    · have hmem : (⟨size, false⟩ : Block) ∈ [(⟨n, true⟩ : Block)] := by
        rw [← hlist]
        simp
      exact absurd (List.mem_singleton.mp hmem) (by simp)
  have htouch : Touches h₁.mem (set h₁.mem (L.schedulerEnd + extent xs) inUse 1)
      [L.schedulerEnd + extent xs] := touches_set (by decide)
  constructor
  case formed =>
    refine ⟨chain_setUse (v := true) hformed₁.chain, hformed₁.tight.reuse, by simp, Or.inl ?_⟩
    simpa [Block.span] using hfits
  case perm =>
    simp only [payloads_append, payloads, if_true, Bool.false_eq_true, if_false,
      List.nil_append, List.singleton_append]
    exact List.perm_middle
  case kept =>
    intro x hx c hc
    have hbounds := mem_payloads (p := x.1) (k := x.2) hx
    unfold InPayload at hc
    refine (htouch c fun y hy => ?_).trans (hcount c fun y hy => ?_)
    · rw [List.mem_singleton.mp hy]
      have hapart := payload_apart (p := x.1) (k := x.2) hx
        (y := L.schedulerEnd + extent xs) (by simp [starts_append, starts])
      omega
    · rw [List.mem_singleton.mp hy, Layout.countAddr]
      omega
  case placed =>
    refine .reused h₁ (by simp) (by simp [Block.span]) hcharge (pageCount_touches htouch ?_) rfl
    intro y hy
    rw [List.mem_singleton.mp hy]
    exact hformed.fits.header_le (by simp [starts_append, starts])
  case linked =>
    intro hlinked
    have hkeep : KeepsPrev h₁.mem (set h₁.mem (L.schedulerEnd + extent xs) inUse 1)
        [L.schedulerEnd + extent xs] := keepsPrev_set (by decide) (by decide)
    refine linked_mark ((hformed.fits.linked_of_count hcount hlinked).congr fun y hy =>
      hkeep y fun a ha => ?_)
    rw [List.mem_singleton.mp ha]
    exact starts_apart hy (by simp [starts_append, starts])
  case ends => exact fun hne => absurd (by simp [Block.span]) hne

/-- A request that no free block suits is given a block behind the last one. -/
theorem Formed.allocate_last {h₂ : Arena} {b : Block} {xs : List Block}
    (hformed : Formed L h.mem (xs ++ [b])) (hnot : ⟨size, false⟩ ∉ xs ++ [b])
    (hsize : size < L.regionSize)
    (hfits : L.schedulerEnd + extent (xs ++ [b]) + AllocNode.size + size < L.endOfPages)
    (hcharge : chargeFirst L tid h size = some h₁)
    (hcharge₂ : charge L tid h₁ (countPages L.PAGE_SIZE (L.PAGE_SIZE - (L.schedulerEnd +
      extent (xs ++ [b]) + AllocNode.size) % L.PAGE_SIZE) size (size + 1) 0) = some h₂) :
    Allocated L tid size (L.schedulerEnd + extent (xs ++ [b]) + AllocNode.size) h
      { h₂ with
        mem := linkNode h₂.mem (L.schedulerEnd + extent xs) (L.schedulerEnd + extent (xs ++ [b]))
          size }
      (xs ++ [b]) (xs ++ [b] ++ [⟨size, true⟩]) := by
  obtain ⟨hextent, hregion, hstart⟩ := hformed.fits.bounds
  have hcount := chargeFirst_touches hcharge
  have hcount₂ := charge_touches hcharge₂
  have hformed₂ := (hformed.of_count hcount).of_count hcount₂
  constructor
  case formed =>
    refine ⟨chain_linkNode (by omega) (by omega) hformed₂.chain, hformed₂.tight.concat, by simp,
      Or.inl ?_⟩
    simp only [extent_append, extent_cons, extent_nil, Block.span] at hfits ⊢
    omega
  case perm =>
    rw [payloads_append]
    exact List.perm_append_singleton _ _
  case kept =>
    intro x hx c hc
    have hbounds := mem_payloads (p := x.1) (k := x.2) hx
    unfold InPayload at hc
    have hbehind : ∀ y ∈ [L.countAddr tid], c < y ∨ y + AllocNode.size ≤ c := by
      intro y hy
      rw [List.mem_singleton.mp hy, Layout.countAddr]
      omega
    refine (touches_linkNode c fun y hy => ?_).trans
      ((hcount₂ c hbehind).trans (hcount c hbehind))
    have hapart := payload_apart (p := x.1) (k := x.2) hx (y := L.schedulerEnd + extent xs)
      (by simp [starts_append, starts])
    simp only [List.mem_cons, List.not_mem_nil, or_false] at hy
    omega
  case placed =>
    refine .last h₁ h₂ (by simp) hnot hfits ?_ hcharge hcharge₂
      (pageCount_touches touches_linkNode fun y hy => ?_) rfl
    · simp only [extent_append, extent_cons, extent_nil, Block.span]
      omega
    · simp only [List.mem_cons, List.not_mem_nil, or_false] at hy
      rcases hy with rfl | rfl
      · exact hformed.fits.header_le (by simp [starts_append, starts])
      · omega
  case linked =>
    intro hlinked
    have hlinked₁ := hformed.fits.linked_of_count hcount hlinked
    exact linked_linkNode (by omega) (hformed.fits.linked_of_count hcount₂ hlinked₁)
  case ends => simp [extent_append, Block.span, Nat.add_assoc]

/-- Every successful allocation is one of these. -/
theorem Formed.allocate {p : ℕ} (hformed : Formed L h.mem bs) (hsize : size < L.regionSize)
    (hrun : myallocate L tid fuel h size = some (h', some p)) :
    ∃ bs', Allocated L tid size p h h' bs bs' := by
  obtain ⟨hextent, _, hstart⟩ := hformed.fits.bounds
  have hformed₁ (h₁ : Arena) (hcharge : chargeFirst L tid h size = some h₁) :
      Formed L h₁.mem bs := hformed.of_count (chargeFirst_touches hcharge)
  rcases myallocate_cases (myallocate_pos hrun) hextent (fun h₁ hh => (hformed₁ h₁ hh).chain)
    (fun h₁ hh => (hformed₁ h₁ hh).empty) hrun with ⟨_, _, hnone⟩ | ⟨h₁, hcharge, hways⟩
  · exact absurd hnone (by simp)
  rcases hways with ⟨rfl, rfl, hp⟩ | ⟨xs, ys, rfl, rfl, hp⟩ | ⟨xs, b, rfl, hnot, happend⟩
  · obtain rfl := Option.some.inj hp
    exact ⟨_, hformed.allocate_first hsize hcharge⟩
  · obtain rfl := Option.some.inj hp
    exact ⟨_, hformed.allocate_reused hcharge⟩
  · rcases append_cases (behind_last hextent hstart (hformed₁ h₁ hcharge).chain) happend with
      ⟨_, hnone, _⟩ | ⟨h₂, hfits, hcharge₂, rfl, hp⟩
    · exact absurd hnone (by simp)
    obtain rfl := Option.some.inj hp
    exact ⟨_, hformed.allocate_last hnot hsize hfits hcharge hcharge₂⟩

/-! ## Freeing -/

/-- The payload of a block begins within the region. -/
theorem Formed.header_lt {b : Block} {xs ys : List Block} (hformed : Formed L m (xs ++ b :: ys)) :
    L.schedulerEnd + extent xs + AllocNode.size < L.endOfPages := by
  rcases hformed.fits with hlt | ⟨n, _, hlist⟩
  · simp only [extent_append, extent_cons, Block.span] at hlt
    omega
  · have hlength := congrArg List.length hlist
    simp only [List.length_append, List.length_cons, List.length_nil] at hlength
    obtain rfl := List.eq_nil_of_length_eq_zero (l := xs) (by omega)
    rw [extent_nil, Nat.add_zero]
    exact L.head_lt

/-- Freeing a live block, if the links it follows are right, takes its payload away,
and changes no byte of any payload. -/
theorem Formed.deallocate {p k : ℕ} (hformed : Formed L h.mem bs)
    (hp : (p, k) ∈ payloads L.schedulerEnd bs)
    (hfollows : FollowsExact h.mem L.schedulerEnd (p - AllocNode.size))
    (hrun : mydeallocate L fuel h p = some h') :
    ∃ bs', Formed L h'.mem bs' ∧
      (payloads L.schedulerEnd bs').Perm ((payloads L.schedulerEnd bs).erase (p, k)) ∧
      extent bs' ≤ extent bs ∧ h'.pagesLeft = h.pagesLeft ∧
      ∀ c, (∀ y ∈ starts L.schedulerEnd bs, c < y ∨ y + AllocNode.size ≤ c) →
        h'.mem c = h.mem c := by
  obtain ⟨hextent, hregion, hstart⟩ := hformed.fits.bounds
  obtain ⟨xs, ys, rfl, rfl⟩ := exists_block hp
  rw [Nat.add_sub_cancel] at hfollows
  have hin := hformed.header_lt
  obtain ⟨bs, hchain, htight, hpayloads, hle, htouch, hempty, hpages, _⟩ :=
    mydeallocate_spec hextent hformed.chain hformed.tight hin hfollows hrun
  have hlist : payloads L.schedulerEnd (xs ++ ⟨k, true⟩ :: ys) =
      payloads L.schedulerEnd xs ++ (L.schedulerEnd + extent xs + AllocNode.size, k) ::
        payloads (L.schedulerEnd + extent xs + (⟨k, true⟩ : Block).span) ys := by
    simp [payloads_append, payloads]
  refine ⟨bs, ⟨hchain, htight, hempty, ?_⟩, ?_, hle, hpages, htouch⟩
  · rcases hformed.fits with hlt | ⟨n, _, hsingle⟩
    · exact Or.inl (by omega)
    · have hlength := congrArg List.length hsingle
      simp only [List.length_append, List.length_cons, List.length_nil] at hlength
      obtain rfl := List.eq_nil_of_length_eq_zero (l := xs) (by omega)
      obtain rfl := List.eq_nil_of_length_eq_zero (l := ys) (by omega)
      obtain rfl := htight.eq_nil (hpayloads.trans (by simp [payloads]))
      have hhead := L.head_lt
      left
      rw [extent_nil]
      omega
  · rw [hpayloads, hlist]
    exact erase_middle_perm.symm

/-- Payloads are not changed by changes of headers. -/
theorem payload_unchanged {x : ℕ × ℕ} (hx : x ∈ payloads L.schedulerEnd bs) {c : ℕ}
    (hc : InPayload x c) : ∀ y ∈ starts L.schedulerEnd bs, c < y ∨ y + AllocNode.size ≤ c := by
  intro y hy
  have hapart := payload_apart (p := x.1) (k := x.2) hx hy
  unfold InPayload at hc
  omega

/-- A write to a payload leaves the region well-formed. -/
theorem Formed.write {x : ℕ × ℕ} {a : ℕ} (hformed : Formed L m bs)
    (hx : x ∈ payloads L.schedulerEnd bs) (ha : InPayload x a) (v : UInt8) :
    Formed L (Function.update m a v) bs := by
  refine ⟨hformed.chain.congr fun y hy f hf => load_congr fun c hc hlt => ?_, hformed.tight,
    fun hbs => ?_, hformed.fits⟩
  · have hpos := payload_unchanged hx ha y hy
    exact Function.update_of_ne (by omega) _ _
  · rw [hbs] at hx
    exact absurd hx (by simp [payloads])

/-! ## Runs -/

/-- The invariant of the runs: the headers are those of some blocks, and the live payloads are those
of the blocks in use. -/
def State.Sound (L : Layout) (σ : State) : Prop :=
  ∃ bs, Formed L σ.heap.mem bs ∧ σ.live.Perm (payloads L.schedulerEnd bs)

variable {σ σ' : State} {e : HeapEvent}

/-- Payloads of a well-formed region are apart. -/
theorem State.Sound.separate (h : σ.Sound L) : σ.Separate := by
  obtain ⟨bs, _, hlive⟩ := h
  have hsymm (x y : ℕ × ℕ) (hxy : Apart x y) : Apart y x := Or.symm hxy
  have hapart := (hlive.pairwise_iff (fun {x y} => hsymm x y)).mpr payloads_apart
  refine hapart.imp fun {x y} hxy c => ?_
  unfold Apart at hxy
  unfold InPayload InHeader
  omega

/-- An event whose links are right leaves a sound state, and unless it is a write, all bytes of
blocks that stay live are as before. -/
theorem State.Sound.step (h : σ.Sound L) (hok : LinksExact L σ e)
    (hstep : HeapStep L tid σ e σ') :
    σ'.Sound L ∧ ((∀ a v, e ≠ .write a v) → σ.Preserves σ') := by
  obtain ⟨bs, hformed, hlive⟩ := h
  cases e with
  | allocate size =>
    obtain ⟨hsize, fuel, p, hrun, hlive'⟩ := hstep
    obtain ⟨bs', hformed', hperm, hkeep, _⟩ := hformed.allocate hsize hrun
    refine ⟨⟨bs', hformed', ?_⟩, fun _ x hx _ c hc => hkeep x (hlive.mem_iff.mp hx) c hc⟩
    rw [hlive']
    exact (hlive.cons _).trans hperm.symm
  | free p =>
    obtain ⟨fuel, size, hp, hrun, hlive'⟩ := hstep
    obtain ⟨bs', hformed', hperm, _, _, hkeep⟩ :=
      hformed.deallocate (hlive.mem_iff.mp hp) hok hrun
    refine ⟨⟨bs', hformed', ?_⟩, fun _ x hx _ c hc =>
      hkeep c (payload_unchanged (hlive.mem_iff.mp hx) hc)⟩
    rw [hlive']
    exact (hlive.erase _).trans hperm.symm
  | write a v =>
    obtain ⟨⟨x, hx, ha⟩, rfl⟩ := hstep
    exact ⟨⟨bs, hformed.write (hlive.mem_iff.mp hx) ha v, hlive⟩, fun hnot => absurd rfl (hnot a v)⟩

/-- Every state that a run with right links reaches is sound. -/
theorem heapReach_sound (h : HeapReach L tid (LinksExact L) σ) : σ.Sound L := by
  refine Runs.Reach.invariant (P := State.Sound L) ?_
    (fun _ _ _ hσ hok hstep => (hσ.step hok hstep).1) h
  rintro σ ⟨hlive, hsignature⟩
  refine ⟨[], formed_nil hsignature, ?_⟩
  rw [hlive]
  exact List.Perm.refl _

/-- In every run whose frees follow right links, the payloads of live blocks are apart
from each other and from the headers of live blocks, and no call of the allocator
changes a byte of a block that stays live. -/
theorem blocks_never_interfere (L : Layout) (tid : ℕ) :
    (∀ σ : State, HeapReach L tid (LinksExact L) σ → σ.Separate) ∧
      ∀ (σ : State) (e : HeapEvent) (σ' : State), HeapReach L tid (LinksExact L) σ →
        LinksExact L σ e → HeapStep L tid σ e σ' → (∀ a v, e ≠ .write a v) → σ.Preserves σ' :=
  ⟨fun _ h => (heapReach_sound h).separate, fun _ _ _ h hok hstep =>
    ((heapReach_sound h).step hok hstep).2⟩

/-! ## Runs on given inputs -/

/-- One event, computed with a bound on the steps of its loops. -/
def State.exec (L : Layout) (tid fuel : ℕ) (σ : State) : HeapEvent → Option State
  | .allocate size =>
    if size < L.regionSize then
      (myallocate L tid fuel σ.heap size).bind fun r =>
        r.2.map fun p => ⟨r.1, (p, size) :: σ.live⟩
    else none
  | .free p => (σ.live.find? fun x => x.1 = p).bind fun x =>
    (mydeallocate L fuel σ.heap p).map fun heap => ⟨heap, σ.live.erase x⟩
  | .write a v =>
    if ∃ x ∈ σ.live, x.1 ≤ a ∧ a < x.1 + x.2 then
      some { σ with heap := { σ.heap with mem := Function.update σ.heap.mem a v } }
    else none

/-- What is computed is an event. -/
theorem State.exec_step (h : σ.exec L tid fuel e = some σ') : HeapStep L tid σ e σ' := by
  cases e with
  | allocate size =>
    simp only [State.exec] at h
    split at h
    · rename_i hsize
      obtain ⟨⟨heap, r⟩, hrun, h⟩ := Option.bind_eq_some_iff.mp h
      obtain ⟨p, rfl, rfl⟩ := Option.map_eq_some_iff.mp h
      exact ⟨hsize, fuel, p, hrun, rfl⟩
    · exact absurd h (by simp)
  | free p =>
    obtain ⟨⟨q, size⟩, hfind, h⟩ := Option.bind_eq_some_iff.mp h
    obtain ⟨heap, hrun, rfl⟩ := Option.map_eq_some_iff.mp h
    obtain rfl : q = p := by simpa using List.find?_some hfind
    exact ⟨fuel, size, List.mem_of_find?_eq_some hfind, hrun, rfl⟩
  | write a v =>
    simp only [State.exec] at h
    split at h
    · rename_i hlive
      exact ⟨hlive, (Option.some.inj h).symm⟩
    · exact absurd h (by simp)

/-- A sequence of events, computed. -/
def execHeapEvents (L : Layout) (tid fuel : ℕ) : List HeapEvent → State → Option State
  | [], σ => some σ
  | e :: es, σ => (σ.exec L tid fuel e).bind (execHeapEvents L tid fuel es)

/-- A sequence of events that all meet `ok` in every state is a run. -/
theorem heapReach_execHeapEvents {ok : State → HeapEvent → Prop} {es : List HeapEvent}
    (hes : ∀ e ∈ es, ∀ σ, ok σ e) (hσ : HeapReach L tid ok σ)
    (h : execHeapEvents L tid fuel es σ = some σ') : HeapReach L tid ok σ' := by
  have hall : execHeapEvents L tid fuel es σ = Runs.execAll (State.exec L tid fuel) es σ :=
    Runs.eq_execAll (fun _ => rfl) fun _ _ _ => rfl
  rw [hall] at h
  exact hσ.execAll (fun e he σ _ hexec => ⟨hes e he σ, State.exec_step hexec⟩) h

/-- A layout for runs on given inputs: 4096-byte pages from address 4096 on. -/
def sampleLayout : Layout where
  MEMSPACE := 4096
  PAGE_SIZE := 4096
  positive := by decide
  aligned := by decide
  fits := by decide
  bound := by decide

/-- Before the first call all bytes are zero. -/
def freshState : State := ⟨⟨fun _ => 0, 5500⟩, []⟩

/-- It is a state to start from. -/
theorem heapReach_fresh {ok : State → HeapEvent → Prop} :
    HeapReach sampleLayout 1 ok freshState := by
  apply Runs.Reach.start
  exact ⟨rfl, by decide⟩

/-- The theorem at the free of the first of two blocks. -/
theorem blocks_never_interfere_firstFree :
    ∃ σ σ' : State, σ.live = [(897188, 50), (897056, 100)] ∧
      HeapStep sampleLayout 1 σ (.free 897056) σ' ∧ σ.Separate ∧ σ.Preserves σ' := by
  have hrun : (execHeapEvents sampleLayout 1 10 [.allocate 100, .allocate 50] freshState).map
      (fun σ => (σ.live, get σ.heap.mem 897024 prev, (σ.exec sampleLayout 1 10
        (.free 897056)).isSome)) = some ([(897188, 50), (897056, 100)], 0, true) := by
    decide +kernel
  obtain ⟨σ, hσ, heq⟩ := Option.map_eq_some_iff.mp hrun
  simp only [Prod.mk.injEq] at heq
  obtain ⟨hlive, hprev, hfree⟩ := heq
  obtain ⟨σ', hσ'⟩ := Option.isSome_iff_exists.mp hfree
  have hreach : HeapReach sampleLayout 1 (LinksExact sampleLayout) σ := by
    apply heapReach_execHeapEvents _ heapReach_fresh hσ
    simp [LinksExact]
  have hok : LinksExact sampleLayout σ (.free 897056) := followsExact_head hprev
  have hstep := State.exec_step hσ'
  obtain ⟨hseparate, hpreserves⟩ := blocks_never_interfere sampleLayout 1
  exact ⟨σ, σ', hlive, hstep, hseparate σ hreach,
    hpreserves σ _ σ' hreach hok hstep (fun _ _ => by simp)⟩

/-- Three blocks, of which the second is joined to the first, which is then allocated
again in full. The `prev` of the third block still points to the second header, which
is in the payload now. -/
def staleLink : List HeapEvent :=
  [.allocate 100, .allocate 100, .allocate 100, .free 897056, .free 897188, .allocate 232]

/-- Freeing the third block writes to that payload. -/
theorem payload_overwritten :
    ∃ σ e σ', HeapReach sampleLayout 1 (fun _ _ => True) σ ∧ HeapStep sampleLayout 1 σ e σ' ∧
      (∀ a v, e ≠ .write a v) ∧ ¬ σ.Preserves σ' := by
  have hrun : (execHeapEvents sampleLayout 1 10 staleLink freshState).map (fun σ => (σ.live,
      σ.heap.mem 897172, (σ.exec sampleLayout 1 10 (.free 897320)).map fun σ =>
        (σ.live, σ.heap.mem 897172))) =
      some ([(897056, 232), (897320, 100)], 8, some ([(897056, 232)], 0)) := by
    decide +kernel
  obtain ⟨σ, hσ, heq⟩ := Option.map_eq_some_iff.mp hrun
  simp only [Prod.mk.injEq] at heq
  obtain ⟨hlive, hbefore, hfree⟩ := heq
  obtain ⟨σ', hσ', heq'⟩ := Option.map_eq_some_iff.mp hfree
  obtain ⟨hlive', hafter⟩ := Prod.mk.inj heq'
  have hreach : HeapReach sampleLayout 1 (fun _ _ => True) σ :=
    heapReach_execHeapEvents (fun _ _ _ => trivial) heapReach_fresh hσ
  refine ⟨σ, .free 897320, σ', hreach, State.exec_step hσ', fun _ _ => by simp,
    fun hpreserves => ?_⟩
  have hsame := hpreserves (897056, 232) (by simp [hlive]) (by simp [hlive']) 897172
    ⟨by decide, by decide⟩
  rw [hbefore, hafter] at hsame
  exact absurd hsame (by decide)

end SimpleOs.Heap
