import Mathlib.Data.List.Chain
import SimpleOs.Heap.Blocks

/-!
# Freeing a block

`mydeallocate` joins a freed block with the free blocks around it. It finds the
block before by the `prev` link, which the allocator does not keep up to date. This
file describes what it does when the links that it follows are right.
-/

namespace SimpleOs.Heap

open Bytes AllocNode

variable {m m' : Memory} {s stop fuel : ℕ} {xs ys zs : List Block} {b c : Block}

/-! ## Links to the block before -/

/-- The headers that the list from `head` reaches. -/
inductive Listed (m : Memory) (head : ℕ) : ℕ → Prop
  | head : Listed m head head
  | next {a : ℕ} : Listed m head a → get m a next ≠ 0 → Listed m head (get m a next)

/-- The `prev` of a header is the header before it in the list, or `NULL` for the
first one. -/
def BackExact (m : Memory) (head a : ℕ) : Prop :=
  if a = head then get m a prev = 0
  else Listed m head (get m a prev) ∧ get m (get m a prev) next = a

/-- The links that freeing the block at `a` follows are right. -/
def FollowsExact (m : Memory) (head a : ℕ) : Prop :=
  BackExact m head a ∧
    (get m a prev ≠ 0 → get m (get m a prev) inUse = 0 → BackExact m head (get m a prev))

/-- Freeing the first block follows no link. -/
theorem followsExact_head (hprev : get m s prev = 0) : FollowsExact m s s := by
  constructor
  · rw [BackExact, if_pos rfl]
    exact hprev
  · intro hne
    exact (hne hprev).elim

/-- A test for the links that a free of the first or the second block follows: the first header
has no `prev`, and the second one is linked with it in both directions. -/
def LinkedNear (m : Memory) (head a : ℕ) : Prop :=
  get m head prev = 0 ∧ (a = head ∨ get m a prev = head ∧ get m head next = a)

instance (m : Memory) (head a : ℕ) : Decidable (LinkedNear m head a) :=
  inferInstanceAs (Decidable (_ ∧ _))

/-- A free that passes the test follows right links. -/
theorem LinkedNear.followsExact {a : ℕ} (h : LinkedNear m s a) : FollowsExact m s a := by
  obtain ⟨hfirst, rfl | ⟨hprev, hnext⟩⟩ := h
  · exact followsExact_head hfirst
  · have hhead : BackExact m s s := by
      rw [BackExact, if_pos rfl]
      exact hfirst
    refine ⟨?_, fun _ _ => hprev.symm ▸ hhead⟩
    by_cases ha : a = s
    · rw [ha]
      exact hhead
    · rw [BackExact, if_neg ha, hprev]
      exact ⟨.head, hnext⟩

/-- If the block before is free, its own link back is right too. -/
theorem FollowsExact.second {a p : ℕ} (h : FollowsExact m s a) (ha : get m a prev = p)
    (hp : p ≠ 0) (hfree : get m p inUse = 0) : BackExact m s p := by
  obtain ⟨_, hsecond⟩ := h
  rw [ha] at hsecond
  exact hsecond hp hfree

/-- What the `prev` behind the blocks `xs` should be. -/
def prevOf (s : ℕ) (xs : List Block) : ℕ := if xs = [] then 0 else s + extent xs.dropLast

@[simp] theorem prevOf_nil : prevOf s [] = 0 := rfl

@[simp] theorem prevOf_concat : prevOf s (xs ++ [b]) = s + extent xs := by simp [prevOf]

/-- The blocks before an address are determined. -/
theorem prefix_unique {xs' ys' : List Block} (h : xs ++ ys = xs' ++ ys')
    (hextent : extent xs = extent xs') : xs = xs' := by
  induction xs generalizing xs' with
  | nil =>
    cases xs' with
    | nil => rfl
    | cons b xs' =>
      simp only [extent_nil, extent_cons, Block.span, AllocNode.size] at hextent
      omega
  | cons b xs ih =>
    cases xs' with
    | nil =>
      simp only [extent_nil, extent_cons, Block.span, AllocNode.size] at hextent
      omega
    | cons b' xs' =>
      obtain ⟨rfl, hrest⟩ := List.cons.inj h
      rw [extent_cons, extent_cons, Nat.add_left_cancel_iff] at hextent
      rw [ih hrest hextent]

/-- A header that the list reaches is that of a block. -/
theorem Listed.block {bs : List Block} {a : ℕ} (h : Listed m s a) (hchain : Chain m s bs 0)
    (hbs : bs ≠ []) : ∃ xs b ys, bs = xs ++ b :: ys ∧ a = s + extent xs := by
  induction h with
  | head =>
    cases bs with
    | nil => exact absurd rfl hbs
    | cons b bs => exact ⟨[], b, bs, rfl, by simp⟩
  | next h hnext ih =>
    obtain ⟨xs, b, ys, rfl, rfl⟩ := ih
    have hheader := (chain_middle.mp hchain).2.1.next
    cases ys with
    | nil => exact absurd hheader hnext
    | cons c ys =>
      refine ⟨xs ++ [b], c, ys, by simp, ?_⟩
      rw [hheader]
      simp [Nat.add_assoc]

/-- The links from the first block of a chain lead to every block of it. -/
theorem listed_of_chain (hs : 0 < s) (hchain : Chain m s (xs ++ b :: ys) 0) :
    Listed m s (s + extent xs) := by
  induction xs using List.reverseRecOn generalizing b ys with
  | nil => exact Listed.head
  | append_singleton xs c ih =>
    rw [List.append_assoc, List.singleton_append] at hchain
    have hheader : get m (s + extent xs) next = s + extent xs + c.span :=
      (chain_middle.mp hchain).2.1.next
    have haddr : s + extent (xs ++ [c]) = get m (s + extent xs) next := by
      rw [hheader]
      simp [Nat.add_assoc]
    rw [haddr]
    exact (ih hchain).next (by rw [hheader]; omega)

/-- In a region, an exact link is to the block before. -/
theorem BackExact.eq (hs : 0 < s) (h : BackExact m s (s + extent xs))
    (hchain : Chain m s (xs ++ b :: ys) 0) : get m (s + extent xs) prev = prevOf s xs := by
  rcases List.eq_nil_or_concat xs with rfl | ⟨ws, p, rfl⟩
  · simpa [BackExact] using h
  · rw [List.concat_eq_append] at h hchain ⊢
    have hne : s + extent (ws ++ [p]) ≠ s := by
      simp only [extent_append, extent_cons, Block.span, AllocNode.size]
      omega
    unfold BackExact at h
    rw [if_neg hne] at h
    obtain ⟨hlisted, hnext⟩ := h
    obtain ⟨us, q, vs, hsplit, haddr⟩ := hlisted.block hchain (by simp)
    rw [haddr] at hnext
    rw [hsplit] at hchain
    have hq := (chain_middle.mp hchain).2.1.next
    rw [hnext] at hq
    have hextent : extent (ws ++ [p]) = extent (us ++ [q]) := by
      split at hq
      · omega
      · simp only [extent_append, extent_cons, extent_nil] at hq ⊢
        omega
    have hsplit' : ws ++ [p] ++ b :: ys = us ++ [q] ++ vs := by rw [hsplit]; simp
    have hsame := prefix_unique hsplit' hextent
    rw [haddr, (List.append_inj' hsame rfl).1, prevOf_concat]

/-! ## Blocks without free neighbours -/

/-- One of two neighbours is in use. -/
def NotBothFree (b c : Block) : Prop := b.used = true ∨ c.used = true

/-- No two neighbours are free, and the last block is in use. -/
def Tight (bs : List Block) : Prop :=
  bs.IsChain NotBothFree ∧ ∀ b ∈ bs.getLast?, b.used = true

/-- The blocks before and behind a block in use. -/
theorem Tight.split (h : Tight (xs ++ b :: ys)) : xs.IsChain NotBothFree ∧ Tight ys := by
  obtain ⟨hchain, hlast⟩ := h
  obtain ⟨hxs, hys, _⟩ := List.isChain_append.mp hchain
  refine ⟨hxs, hys.tail, fun c hc => hlast c ?_⟩
  cases ys with
  | nil => exact absurd hc (by simp)
  | cons d ys => simpa using hc

/-- A free block between blocks in use. -/
theorem Tight.join (hxs : Tight xs) (hys : Tight (c :: ys)) (hc : c.used = true) :
    Tight (xs ++ b :: c :: ys) := by
  refine ⟨List.isChain_append.mpr ⟨hxs.1, List.isChain_cons_cons.mpr ⟨Or.inr hc, hys.1⟩, ?_⟩, ?_⟩
  · exact fun p hp q _ => Or.inl (hxs.2 p hp)
  · intro d hd
    exact hys.2 d (by simpa using hd)

/-- Before a free block the blocks are tight. -/
theorem tight_of_free (h : (xs ++ [b]).IsChain NotBothFree) (hb : b.used = false) : Tight xs := by
  obtain ⟨hxs, _, hpair⟩ := List.isChain_append.mp h
  refine ⟨hxs, fun c hc => ?_⟩
  rcases hpair c hc b (by simp) with hused | hused
  · exact hused
  · exact absurd (hb.symm.trans hused) (by simp)

/-- Behind a free block there is a block in use. -/
theorem Tight.behind_free (h : Tight (b :: ys)) (hb : b.used = false) :
    ∃ c zs, ys = c :: zs ∧ c.used = true ∧ Tight ys := by
  cases ys with
  | nil => exact absurd (h.2 b (by simp)) (by simp [hb])
  | cons c zs =>
    refine ⟨c, zs, rfl, ?_, h.1.tail, fun d hd => h.2 d (by simpa using hd)⟩
    rcases (List.isChain_cons_cons.mp h.1).1 with hused | hused
    · exact absurd (hb.symm.trans hused) (by simp)
    · exact hused

/-- A list in which a free block comes into use still has no two free blocks side by side. -/
theorem Tight.reuse {k : ℕ} (h : Tight (xs ++ ⟨k, false⟩ :: ys)) :
    Tight (xs ++ ⟨k, true⟩ :: ys) := by
  obtain ⟨hchain, hlast⟩ := h
  obtain ⟨hxs, hys, _⟩ := List.isChain_append.mp hchain
  refine ⟨List.isChain_append.mpr ⟨hxs, ?_, fun p _ q hq => Or.inr ?_⟩, fun d hd => ?_⟩
  · cases ys with
    | nil => exact List.isChain_singleton _
    | cons d us => exact List.isChain_cons_cons.mpr ⟨Or.inl rfl, hys.tail⟩
  · obtain rfl : ⟨k, true⟩ = q := by simpa using hq
    rfl
  · cases ys with
    | nil =>
      obtain rfl : ⟨k, true⟩ = d := by simpa using hd
      rfl
    | cons e us => exact hlast d (by simpa using hd)

/-- Blocks stay tight when one in use is added behind them. -/
theorem Tight.concat {k : ℕ} (h : Tight xs) : Tight (xs ++ [⟨k, true⟩]) := by
  refine ⟨List.isChain_append.mpr ⟨h.1, List.isChain_singleton _, ?_⟩, by simp⟩
  exact fun p hp q _ => Or.inl (h.2 p hp)

/-- Tight blocks without a payload in use are none. -/
theorem Tight.eq_nil (h : Tight xs) (hnone : payloads s xs = []) : xs = [] := by
  rcases List.eq_nil_or_concat xs with rfl | ⟨ws, p, rfl⟩
  · rfl
  · rw [List.concat_eq_append] at h hnone
    have hp : p.used = true := h.2 p (by simp)
    simp [payloads_append, payloads, hp] at hnone

/-! ## Links that are kept -/

/-- No `prev` link is written, in a header that is one of `nodes` or apart from them. -/
def KeepsPrev (m m' : Memory) (nodes : List ℕ) : Prop :=
  ∀ y, (∀ a ∈ nodes, y = a ∨ y + AllocNode.size ≤ a ∨ a + AllocNode.size ≤ y) →
    get m' y prev = get m y prev

theorem KeepsPrev.refl (m : Memory) (nodes : List ℕ) : KeepsPrev m m nodes := fun _ _ => rfl

theorem KeepsPrev.trans {m'' : Memory} {nodes : List ℕ} (h : KeepsPrev m m' nodes)
    (h' : KeepsPrev m' m'' nodes) : KeepsPrev m m'' nodes :=
  fun y hy => (h' y hy).trans (h y hy)

theorem KeepsPrev.mono {nodes nodes' : List ℕ} (h : KeepsPrev m m' nodes)
    (hsub : ∀ y ∈ nodes, y ∈ nodes') : KeepsPrev m m' nodes' :=
  fun y hy => h y fun a ha => hy a (hsub a ha)

/-- A write to another field of the header, or to another header, leaves the field as it is. -/
theorem get_set_of_other {a v y : ℕ} {f g : Field} (hf : f.offset + f.width ≤ AllocNode.size)
    (hg : g.offset + g.width ≤ AllocNode.size) (hd : f.Disjoint g)
    (hy : y = a ∨ y + AllocNode.size ≤ a ∨ a + AllocNode.size ≤ y) :
    get (set m a f v) y g = get m y g := by
  rcases hy with rfl | hy
  · exact get_set_of_disjoint hd
  · exact get_set_of_apart hy.symm hf hg

theorem keepsPrev_set {a v : ℕ} {f : Field} (hf : f.offset + f.width ≤ AllocNode.size)
    (hd : f.Disjoint prev) : KeepsPrev m (set m a f v) [a] :=
  fun _ hy => get_set_of_other hf (by decide) hd (hy a (by simp))

/-- No mark is written that tells whether a block is in use, in a header that is one of
`nodes` or apart from them. -/
def KeepsUse (m m' : Memory) (nodes : List ℕ) : Prop :=
  ∀ y, (∀ a ∈ nodes, y = a ∨ y + AllocNode.size ≤ a ∨ a + AllocNode.size ≤ y) →
    get m' y inUse = get m y inUse

theorem KeepsUse.refl (m : Memory) (nodes : List ℕ) : KeepsUse m m nodes := fun _ _ => rfl

theorem KeepsUse.trans {m'' : Memory} {nodes : List ℕ} (h : KeepsUse m m' nodes)
    (h' : KeepsUse m' m'' nodes) : KeepsUse m m'' nodes :=
  fun y hy => (h' y hy).trans (h y hy)

theorem KeepsUse.mono {nodes nodes' : List ℕ} (h : KeepsUse m m' nodes)
    (hsub : ∀ y ∈ nodes, y ∈ nodes') : KeepsUse m m' nodes' :=
  fun y hy => h y fun a ha => hy a (hsub a ha)

theorem keepsUse_set {a v : ℕ} {f : Field} (hf : f.offset + f.width ≤ AllocNode.size)
    (hd : f.Disjoint inUse) : KeepsUse m (set m a f v) [a] :=
  fun _ hy => get_set_of_other hf (by decide) hd (hy a (by simp))

/-! ## Joining two blocks -/

/-- What a free block `b` behind `xs` becomes: it is taken in by a free block before it. -/
def MergedBefore (xs : List Block) (b : Block) (zs : List Block) (c : Block) : Prop :=
  (zs = xs ∧ c = b ∧ ∀ p ∈ xs.getLast?, p.used = true) ∨
    ∃ p, xs = zs ++ [p] ∧ p.used = false ∧ c = ⟨p.cap + AllocNode.size + b.cap, p.used⟩

/-- What a free block `b` before `ys` becomes: it takes in a free block behind it. -/
def MergedBehind (b : Block) (ys : List Block) (c : Block) (zs : List Block) : Prop :=
  (c = b ∧ zs = ys ∧ ∀ d ∈ ys.head?, d.used = true) ∨
    ∃ d, ys = d :: zs ∧ d.used = false ∧ c = ⟨b.cap + AllocNode.size + d.cap, b.used⟩

/-- Two blocks become one: the first header is that of both, and no header but theirs
is touched. -/
theorem chain_merge (h : Chain m s (xs ++ b :: c :: ys) stop)
    (htouch : Touches m m' [s + extent xs, s + extent xs + b.span])
    (hheader : Header m' (s + extent xs) ⟨b.cap + AllocNode.size + c.cap, b.used⟩
      (if ys = [] then stop else s + extent xs + b.span + c.span)) :
    Chain m' s (xs ++ ⟨b.cap + AllocNode.size + c.cap, b.used⟩ :: ys) stop := by
  obtain ⟨hxs, _, hrest⟩ := chain_middle.mp h
  have hys : Chain m (s + extent xs + b.span + c.span) ys stop := hrest.2
  have hspan : (⟨b.cap + AllocNode.size + c.cap, b.used⟩ : Block).span = b.span + c.span := by
    simp only [Block.span]
    omega
  refine chain_middle.mpr ⟨htouch.chain hxs fun y hy z hz => ?_, ?_,
    htouch.chain ?_ fun y hy z hz => ?_⟩
  · have hpos := mem_starts hy
    simp only [List.mem_cons, List.not_mem_nil, or_false, Block.span] at hz
    omega
  · rw [hspan, ← Nat.add_assoc]
    exact hheader
  · rw [hspan, ← Nat.add_assoc]
    exact hys
  · rw [hspan] at hy
    have hpos := mem_starts hy
    simp only [List.mem_cons, List.not_mem_nil, or_false, Block.span] at hz hpos
    omega

/-- Two blocks that become one have the first header. -/
theorem starts_merge {used : Bool} {y : ℕ}
    (h : y ∈ starts s (xs ++ ⟨b.cap + AllocNode.size + c.cap, used⟩ :: ys)) :
    y ∈ starts s (xs ++ b :: c :: ys) := by
  have haddr : s + extent xs + (⟨b.cap + AllocNode.size + c.cap, used⟩ : Block).span =
      s + extent xs + b.span + c.span := by
    simp only [Block.span]
    omega
  simp only [starts_append, starts, List.mem_append, List.mem_cons, haddr] at h ⊢
  rcases h with h | h | h
  · exact Or.inl h
  · exact Or.inr (Or.inl h)
  · exact Or.inr (Or.inr (Or.inr h))

/-- A block address is not `NULL`. -/
theorem blockAddr_ne_zero (hs : 0 < s) : s + extent xs ≠ 0 := by omega

/-- With more fuel the loop over the blocks before returns the same. -/
theorem mergePrev_mono {a fuel' : ℕ} {r : Memory × ℕ} (h : mergePrev fuel m a = some r)
    (hle : fuel ≤ fuel') : mergePrev fuel' m a = some r := by
  induction fuel generalizing m a fuel' with
  | zero => cases h
  | succ fuel ih =>
    obtain ⟨fuel', rfl⟩ :=
      Nat.exists_eq_add_of_le' (Nat.one_le_iff_ne_zero.mpr (by omega : fuel' ≠ 0))
    simp only [mergePrev] at h ⊢
    split_ifs at h ⊢
    · exact h
    · exact ih h (by omega)
    · exact h

/-- So does the loop over the blocks behind. -/
theorem mergeNext_mono {a fuel' : ℕ} (h : mergeNext fuel m a = some m') (hle : fuel ≤ fuel') :
    mergeNext fuel' m a = some m' := by
  induction fuel generalizing m fuel' with
  | zero => cases h
  | succ fuel ih =>
    obtain ⟨fuel', rfl⟩ :=
      Nat.exists_eq_add_of_le' (Nat.one_le_iff_ne_zero.mpr (by omega : fuel' ≠ 0))
    simp only [mergeNext] at h ⊢
    split_ifs at h ⊢
    · exact h
    · exact ih h (by omega)
    · exact h

/-- The loop over the blocks before stops at once if there is none, or if it is in
use. -/
theorem mergePrev_stop (hs : 0 < s) (hchain : Chain m s (xs ++ b :: ys) stop)
    (hused : ∀ p ∈ xs.getLast?, p.used = true)
    (hprev : get m (s + extent xs) prev = prevOf s xs) :
    mergePrev (fuel + 1) m (s + extent xs) = some (m, s + extent xs) := by
  simp only [mergePrev, hprev]
  rcases List.eq_nil_or_concat xs with rfl | ⟨ws, p, rfl⟩
  · rw [if_pos prevOf_nil]
  · rw [List.concat_eq_append] at hchain hused ⊢
    have hp : p.used = true := hused p (by simp)
    rw [List.append_assoc] at hchain
    have hinUse := (chain_middle.mp hchain).2.1.used
    rw [hp] at hinUse
    rw [prevOf_concat, if_neg (blockAddr_ne_zero hs), hinUse]
    exact if_neg one_ne_zero

/-- What one turn of the loop over the blocks before does. -/
theorem mergeBack_header {x p nx : ℕ} (hapart : p + AllocNode.size ≤ x) (hnx : nx < 2 ^ 64)
    (hcap : b.cap + AllocNode.size + c.cap < 2 ^ 32) (hb : Header m p b x) (hc : Header m x c nx)
    (hprev : get m x prev = p) :
    let m₁ := set m x signature 0
    let m₂ := set m₁ (get m₁ x prev) next (get m₁ x next)
    let m₃ := set m₂ (get m₂ x prev) capacity
      (get m₂ (get m₂ x prev) capacity + AllocNode.size + get m₂ x capacity)
    get m₃ x prev = p ∧ get m₃ p prev = get m p prev ∧
      Header m₃ p ⟨b.cap + AllocNode.size + c.cap, b.used⟩ nx ∧ Touches m m₃ [p, x] ∧
        KeepsPrev m m₃ [p, x] ∧ KeepsUse m m₃ [p, x] := by
  intro m₁ m₂ m₃
  have hm₂ : m₂ = set m₁ p next nx := by
    have hprev₁ : get m₁ x prev = p := (get_set_of_disjoint (by decide)).trans hprev
    have hnext₁ : get m₁ x next = nx := (get_set_of_disjoint (by decide)).trans hc.next
    simp only [m₂, hprev₁, hnext₁]
  have hx (f : Field) (hf : f.offset + f.width ≤ AllocNode.size) (hd : signature.Disjoint f) :
      get m₂ x f = get m x f := by
    rw [hm₂]
    exact (get_set_of_apart (Or.inl hapart) (by decide) hf).trans (get_set_of_disjoint hd)
  have hp (f : Field) (hf : f.offset + f.width ≤ AllocNode.size) (hd : next.Disjoint f) :
      get m₂ p f = get m p f := by
    rw [hm₂]
    exact (get_set_of_disjoint hd).trans (get_set_of_apart (Or.inr hapart) (by decide) hf)
  have hm₃ : m₃ = set m₂ p capacity (b.cap + AllocNode.size + c.cap) := by
    have hprev₂ : get m₂ x prev = p := (hx prev (by decide) (by decide)).trans hprev
    have hcap₂ : get m₂ x capacity = c.cap := (hx capacity (by decide) (by decide)).trans hc.cap
    have hpcap : get m₂ p capacity = b.cap := (hp capacity (by decide) (by decide)).trans hb.cap
    simp only [m₃, hprev₂, hcap₂, hpcap]
  have hpkeep (f : Field) (hf : f.offset + f.width ≤ AllocNode.size) (hd : next.Disjoint f)
      (hd' : capacity.Disjoint f) : get m₃ p f = get m p f := by
    rw [hm₃]
    exact (get_set_of_disjoint hd').trans (hp f hf hd)
  refine ⟨?_, hpkeep prev (by decide) (by decide) (by decide), ⟨?_, ?_, ?_, ?_⟩, ?_, ?_, ?_⟩
  · rw [hm₃]
    exact (get_set_of_apart (Or.inl hapart) (by decide) (by decide)).trans
      ((hx prev (by decide) (by decide)).trans hprev)
  · exact (hpkeep inUse (by decide) (by decide) (by decide)).trans hb.used
  · rw [hm₃, get_set_self]
    exact Nat.mod_eq_of_lt hcap
  · have hnext : get m₃ p next = nx % 256 ^ 8 := by
      rw [hm₃, hm₂]
      exact (get_set_of_disjoint (by decide)).trans get_set_self
    rw [hnext]
    exact Nat.mod_eq_of_lt hnx
  · exact (hpkeep signature (by decide) (by decide) (by decide)).trans hb.signature
  · have htouch {a v : ℕ} {f : Field} {k : Memory} (ha : a = p ∨ a = x)
        (hf : f.offset + f.width ≤ AllocNode.size) : Touches k (set k a f v) [p, x] :=
      (touches_set hf).mono fun y hy => by
        rcases ha with rfl | rfl <;> simp_all
    rw [hm₃, hm₂]
    exact ((htouch (Or.inr rfl) (by decide)).trans (htouch (Or.inl rfl) (by decide))).trans
      (htouch (Or.inl rfl) (by decide))
  · have hkeep {a v : ℕ} {f : Field} {k : Memory} (ha : a ∈ [p, x])
        (hf : f.offset + f.width ≤ AllocNode.size) (hd : f.Disjoint prev) :
        KeepsPrev k (set k a f v) [p, x] :=
      (keepsPrev_set hf hd).mono fun y hy => by rwa [List.mem_singleton.mp hy]
    rw [hm₃, hm₂]
    exact ((hkeep (by simp) (by decide) (by decide)).trans
      (hkeep (by simp) (by decide) (by decide))).trans (hkeep (by simp) (by decide) (by decide))
  · have hkeep {a v : ℕ} {f : Field} {k : Memory} (ha : a ∈ [p, x])
        (hf : f.offset + f.width ≤ AllocNode.size) (hd : f.Disjoint inUse) :
        KeepsUse k (set k a f v) [p, x] :=
      (keepsUse_set hf hd).mono fun y hy => by rwa [List.mem_singleton.mp hy]
    rw [hm₃, hm₂]
    exact ((hkeep (by simp) (by decide) (by decide)).trans
      (hkeep (by simp) (by decide) (by decide))).trans (hkeep (by simp) (by decide) (by decide))

/-- The loop over the blocks before a free block, if the links it follows are right. -/
theorem mergePrev_spec (hs : 0 < s) (hsize : extent (xs ++ b :: ys) < 2 ^ 32)
    (hbound : s + extent (xs ++ b :: ys) < 2 ^ 64) (hchain : Chain m s (xs ++ b :: ys) 0)
    (hb : b.used = false) (htight : xs.IsChain NotBothFree)
    (hprev : get m (s + extent xs) prev = prevOf s xs)
    (hprev' : ∀ ws p, xs = ws ++ [p] → p.used = false →
      get m (s + extent ws) prev = prevOf s ws) :
    ∃ m' zs c, mergePrev 2 m (s + extent xs) = some (m', s + extent zs) ∧
      Chain m' s (zs ++ c :: ys) 0 ∧ c.used = false ∧ Tight zs ∧
      extent zs + c.span = extent xs + b.span ∧ payloads s zs = payloads s xs ∧
      get m' (s + extent zs) prev = prevOf s zs ∧ Touches m m' (starts s (xs ++ b :: ys)) ∧
      (∀ y ∈ starts s (zs ++ c :: ys), y ∈ starts s (xs ++ b :: ys)) ∧
      KeepsPrev m m' (starts s (xs ++ b :: ys)) ∧ KeepsUse m m' (starts s (xs ++ b :: ys)) ∧
      MergedBefore xs b zs c := by
  by_cases hused : ∀ p ∈ xs.getLast?, p.used = true
  · exact ⟨m, xs, b, mergePrev_stop hs hchain hused hprev, hchain, hb, ⟨htight, hused⟩, rfl, rfl,
      hprev, Touches.refl _ _, fun _ => id, KeepsPrev.refl _ _, KeepsUse.refl _ _,
      Or.inl ⟨rfl, rfl, hused⟩⟩
  rcases List.eq_nil_or_concat xs with rfl | ⟨ws, p, rfl⟩
  · exact absurd (by simp) hused
  rw [List.concat_eq_append] at *
  have hp : p.used = false := by simpa using hused
  have hx : s + extent (ws ++ [p]) = s + extent ws + p.span := by simp [Nat.add_assoc]
  have hlist : ws ++ [p] ++ b :: ys = ws ++ p :: b :: ys := by simp
  rw [hlist] at hchain hsize hbound ⊢
  rw [hx, prevOf_concat] at hprev
  simp only [extent_append, extent_cons] at hsize hbound
  obtain ⟨_, hpheader, hbheader, _⟩ := chain_middle.mp hchain
  rw [if_neg (by simp)] at hpheader
  have hfree : get m (s + extent ws) inUse = 0 := by rw [hpheader.used, hp]; rfl
  have hspans : p.span = AllocNode.size + p.cap ∧ b.span = AllocNode.size + b.cap := ⟨rfl, rfl⟩
  have hsizeof : AllocNode.size = 32 := rfl
  obtain ⟨hcur, hkeep, hheader, htouch, hlinks, huses⟩ := mergeBack_header (by omega)
    (by split <;> omega) (by omega) hpheader hbheader hprev
  have hchain' := chain_merge hchain htouch hheader
  have htight' := tight_of_free htight hp
  have hprev₁ := hkeep.trans (hprev' ws p rfl hp)
  have hsub : ∀ y ∈ [s + extent ws, s + extent ws + p.span],
      y ∈ starts s (ws ++ p :: b :: ys) := by
    simp [starts_append, starts]
  refine ⟨_, ws, _, ?_, hchain', hp, htight', ?_, ?_, hprev₁,
    htouch.mono hsub, fun _ => starts_merge, hlinks.mono hsub, huses.mono hsub,
    Or.inr ⟨p, rfl, hp, rfl⟩⟩
  · rw [mergePrev]
    simp only [hx, hprev, hfree, blockAddr_ne_zero hs, if_false, if_true]
    rw [hcur]
    exact mergePrev_stop hs hchain' htight'.2 hprev₁
  · simp only [extent_append, extent_cons, extent_nil, Block.span]
    omega
  · simp [payloads_append, payloads, hp]

/-- The loop over the blocks behind stops at once if there is none, or if it is in
use. -/
theorem mergeNext_stop (hs : 0 < s) (hchain : Chain m s (xs ++ b :: ys) 0)
    (hused : ∀ d ∈ ys.head?, d.used = true) : mergeNext (fuel + 1) m (s + extent xs) = some m := by
  obtain ⟨_, hheader, hys⟩ := chain_middle.mp hchain
  cases ys with
  | nil =>
    have hnext : get m (s + extent xs) next = 0 := hheader.next
    simp only [mergeNext, hnext, if_true]
  | cons d ys =>
    have hnext : get m (s + extent xs) next = s + extent xs + b.span := hheader.next
    have hinUse : get m (s + extent xs + b.span) inUse = 1 := by
      rw [hys.1.used, hused d (by simp)]
      rfl
    have hne : s + extent xs + b.span ≠ 0 := by omega
    simp only [mergeNext, hnext, hinUse, hne, if_false, one_ne_zero]

/-- What one turn of the loop over the blocks behind does. -/
theorem mergeAhead_header {x n nx : ℕ} (hapart : x + AllocNode.size ≤ n) (hnx : nx < 2 ^ 64)
    (hcap : b.cap + AllocNode.size + c.cap < 2 ^ 32) (hb : Header m x b n) (hc : Header m n c nx) :
    let m₁ := set m (get m x next) signature 0
    let m₂ := set m₁ x capacity
      (get m₁ (get m₁ x next) capacity + AllocNode.size + get m₁ x capacity)
    let m₃ := set m₂ x next (get m₂ (get m₂ x next) next)
    get m₃ x prev = get m x prev ∧
      Header m₃ x ⟨b.cap + AllocNode.size + c.cap, b.used⟩ nx ∧ Touches m m₃ [x, n] ∧
        KeepsPrev m m₃ [x, n] ∧ KeepsUse m m₃ [x, n] := by
  intro m₁ m₂ m₃
  have hm₁ : m₁ = set m n signature 0 := by simp only [m₁, hb.next]
  have hx₁ (f : Field) (hf : f.offset + f.width ≤ AllocNode.size) : get m₁ x f = get m x f := by
    rw [hm₁]
    exact get_set_of_apart (Or.inr hapart) (by decide) hf
  have hm₂ : m₂ = set m₁ x capacity (b.cap + AllocNode.size + c.cap) := by
    have hnext₁ : get m₁ x next = n := (hx₁ next (by decide)).trans hb.next
    have hcap₁ : get m₁ x capacity = b.cap := (hx₁ capacity (by decide)).trans hb.cap
    have hncap : get m₁ n capacity = c.cap := by
      rw [hm₁]
      exact (get_set_of_disjoint (by decide)).trans hc.cap
    have hsum : c.cap + AllocNode.size + b.cap = b.cap + AllocNode.size + c.cap := by omega
    simp only [m₂, hnext₁, hcap₁, hncap, hsum]
  have hx₂ (f : Field) (hf : f.offset + f.width ≤ AllocNode.size) (hd : capacity.Disjoint f) :
      get m₂ x f = get m x f := by
    rw [hm₂]
    exact (get_set_of_disjoint hd).trans (hx₁ f hf)
  have hm₃ : m₃ = set m₂ x next nx := by
    have hnext₂ : get m₂ x next = n := (hx₂ next (by decide) (by decide)).trans hb.next
    have hnnext : get m₂ n next = nx := by
      rw [hm₂, hm₁]
      exact (get_set_of_apart (Or.inl hapart) (by decide) (by decide)).trans
        ((get_set_of_disjoint (by decide)).trans hc.next)
    simp only [m₃, hnext₂, hnnext]
  have hx₃ (f : Field) (hf : f.offset + f.width ≤ AllocNode.size) (hd : capacity.Disjoint f)
      (hd' : next.Disjoint f) : get m₃ x f = get m x f := by
    rw [hm₃]
    exact (get_set_of_disjoint hd').trans (hx₂ f hf hd)
  refine ⟨hx₃ prev (by decide) (by decide) (by decide), ⟨?_, ?_, ?_, ?_⟩, ?_, ?_, ?_⟩
  · exact (hx₃ inUse (by decide) (by decide) (by decide)).trans hb.used
  · have hcapacity : get m₃ x capacity = (b.cap + AllocNode.size + c.cap) % 256 ^ 4 := by
      rw [hm₃, hm₂]
      exact (get_set_of_disjoint (by decide)).trans get_set_self
    rw [hcapacity]
    exact Nat.mod_eq_of_lt hcap
  · rw [hm₃, get_set_self]
    exact Nat.mod_eq_of_lt hnx
  · exact (hx₃ signature (by decide) (by decide) (by decide)).trans hb.signature
  · rw [hm₃, hm₂, hm₁]
    exact ((touches_set (by decide)).mono (by simp)).trans
      (((touches_set (by decide)).mono (by simp)).trans ((touches_set (by decide)).mono (by simp)))
  · have hkeep {a v : ℕ} {f : Field} {k : Memory} (ha : a ∈ [x, n])
        (hf : f.offset + f.width ≤ AllocNode.size) (hd : f.Disjoint prev) :
        KeepsPrev k (set k a f v) [x, n] :=
      (keepsPrev_set hf hd).mono fun y hy => by rwa [List.mem_singleton.mp hy]
    rw [hm₃, hm₂, hm₁]
    exact ((hkeep (by simp) (by decide) (by decide)).trans
      (hkeep (by simp) (by decide) (by decide))).trans (hkeep (by simp) (by decide) (by decide))
  · have hkeep {a v : ℕ} {f : Field} {k : Memory} (ha : a ∈ [x, n])
        (hf : f.offset + f.width ≤ AllocNode.size) (hd : f.Disjoint inUse) :
        KeepsUse k (set k a f v) [x, n] :=
      (keepsUse_set hf hd).mono fun y hy => by rwa [List.mem_singleton.mp hy]
    rw [hm₃, hm₂, hm₁]
    exact ((hkeep (by simp) (by decide) (by decide)).trans
      (hkeep (by simp) (by decide) (by decide))).trans (hkeep (by simp) (by decide) (by decide))

/-- What the loop over the blocks behind a free block does. -/
theorem mergeNext_spec (hs : 0 < s) (hsize : extent (xs ++ b :: ys) < 2 ^ 32)
    (hbound : s + extent (xs ++ b :: ys) < 2 ^ 64) (hchain : Chain m s (xs ++ b :: ys) 0)
    (hb : b.used = false) (htight : Tight ys) :
    ∃ m' c zs, mergeNext 2 m (s + extent xs) = some m' ∧ Chain m' s (xs ++ c :: zs) 0 ∧
      c.used = false ∧ Tight zs ∧
      (∀ d ∈ zs.head?, d.used = true) ∧ c.span + extent zs = b.span + extent ys ∧
      payloads (s + extent xs + c.span) zs = payloads (s + extent xs + b.span) ys ∧
      get m' (s + extent xs) prev = get m (s + extent xs) prev ∧
      Touches m m' (starts s (xs ++ b :: ys)) ∧
      (∀ y ∈ starts s (xs ++ c :: zs), y ∈ starts s (xs ++ b :: ys)) ∧
      KeepsPrev m m' (starts s (xs ++ b :: ys)) ∧ KeepsUse m m' (starts s (xs ++ b :: ys)) ∧
      MergedBehind b ys c zs := by
  by_cases hused : ∀ d ∈ ys.head?, d.used = true
  · exact ⟨m, b, ys, mergeNext_stop hs hchain hused, hchain, hb, htight, hused, rfl, rfl, rfl,
      Touches.refl _ _, fun _ => id, KeepsPrev.refl _ _, KeepsUse.refl _ _,
      Or.inl ⟨rfl, rfl, hused⟩⟩
  cases ys with
  | nil => exact absurd (by simp) hused
  | cons d us =>
    have hd : d.used = false := by simpa using hused
    obtain ⟨_, hheader, hdheader, _⟩ := chain_middle.mp hchain
    rw [if_neg (by simp)] at hheader
    have hfree : get m (s + extent xs + b.span) inUse = 0 := by rw [hdheader.used, hd]; rfl
    have hne : s + extent xs + b.span ≠ 0 := by omega
    simp only [extent_append, extent_cons] at hsize hbound
    have hspans : b.span = AllocNode.size + b.cap ∧ d.span = AllocNode.size + d.cap :=
      ⟨rfl, rfl⟩
    have hsizeof : AllocNode.size = 32 := rfl
    obtain ⟨hkeep, hmerged, htouch, hlinks, huses⟩ := mergeAhead_header (by omega)
      (by split <;> omega) (by omega) hheader hdheader
    simp only [hheader.next] at hkeep hmerged htouch hlinks huses
    have hchain' := chain_merge hchain htouch hmerged
    obtain ⟨e, vs, rfl, he, htight'⟩ := htight.behind_free hd
    have hsub : ∀ y ∈ [s + extent xs, s + extent xs + b.span],
        y ∈ starts s (xs ++ b :: d :: e :: vs) := by
      simp [starts_append, starts]
    refine ⟨_, _, _, ?_, hchain', hb, htight', by simp [he], ?_, ?_, hkeep, htouch.mono hsub,
      fun _ => starts_merge, hlinks.mono hsub, huses.mono hsub, Or.inr ⟨d, rfl, hd, rfl⟩⟩
    · rw [mergeNext]
      simp only [hheader.next, hfree, hne, if_false, if_true]
      exact mergeNext_stop hs hchain' (by simp [he])
    · simp only [extent_cons, Block.span]
      omega
    · have haddr : s + extent xs + (⟨b.cap + AllocNode.size + d.cap, b.used⟩ : Block).span =
          s + extent xs + b.span + d.span := by
        simp only [Block.span]
        omega
      rw [haddr]
      simp [payloads, hd]

/-! ## The whole call -/

/-- What is left when the block `b` behind `xs` is deleted, if there is none behind it. -/
structure Deleted (m m' : Memory) (s : ℕ) (xs : List Block) (b : Block) (ys bs : List Block) :
    Prop where
  /-- The headers are those of the blocks that are left, but for their links back. -/
  chain : Chain m' s bs 0
  /-- No two free blocks are adjacent, and the last one is in use. -/
  tight : Tight bs
  /-- The payloads in use are those before and behind the block. -/
  used : payloads s bs = payloads s xs ++ payloads (s + extent xs + b.span) ys
  /-- The blocks reach no further than before. -/
  extent_le : extent bs ≤ extent (xs ++ b :: ys)
  /-- No byte outside of the headers has changed. -/
  touches : Touches m m' (starts s (xs ++ b :: ys))
  /-- Without blocks the first header is not marked as one. -/
  empty : bs = [] → get m' s signature ≠ valid
  /-- A block with none behind it is gone, any other is left as a free one. -/
  blocks : bs = if ys = [] then xs else xs ++ b :: ys
  /-- The links back of the headers that are left are as before. -/
  links : ∀ y ∈ starts s bs, get m' y prev = get m y prev
  /-- The marks of use of the headers are kept. -/
  uses : KeepsUse m m' (starts s (xs ++ b :: ys))

/-- The memory when the mark and the length of the last block are deleted. -/
theorem deleted_header {m₂ : Memory} {x : ℕ} (hm₂ : set (set m x signature 0) x capacity 0 = m₂) :
    get m₂ x prev = get m x prev ∧ Touches m m₂ [x] ∧ KeepsUse m m₂ [x] ∧
      get m₂ x signature = 0 := by
  rw [← hm₂]
  refine ⟨?_, (touches_set (by decide)).trans (touches_set (by decide)),
    (keepsUse_set (by decide) (by decide)).trans (keepsUse_set (by decide) (by decide)), ?_⟩
  · exact (get_set_of_disjoint (by decide)).trans (get_set_of_disjoint (by decide))
  · refine (get_set_of_disjoint (by decide)).trans ?_
    simp

/-- Deleting the only block leaves no block behind. -/
theorem deleteLast_only (hnext : get m s next = 0) (hprev : get m s prev = 0) :
    Deleted m (deleteLast m s) s [] b [] [] := by
  generalize hm₂ : set (set m s signature 0) s capacity 0 = m₂
  obtain ⟨hprev₂, htouch₂, huse₂, hsignature₂⟩ := deleted_header hm₂
  have hdelete : deleteLast m s = set m₂ s prev 0 := by
    simp only [deleteLast, hnext, hm₂, hprev₂, hprev, if_true, ne_eq, not_true_eq_false, if_false]
  rw [hdelete]
  refine ⟨trivial, ⟨List.isChain_nil, by simp⟩, by simp [payloads], by simp, ?_, fun _ => ?_,
    by simp, by simp [starts], ?_⟩
  · exact (htouch₂.trans (touches_set (by decide))).mono (by simp [starts])
  · have hsignature : get (set m₂ s prev 0) s signature = 0 :=
      (get_set_of_disjoint (by decide)).trans hsignature₂
    rw [hsignature]
    decide
  · exact (huse₂.trans (keepsUse_set (by decide) (by decide))).mono (by simp [starts])

/-- The last block is deleted, and the one before it is the last one now. -/
theorem deleteLast_behind {ws : List Block} {q : Block} {x : ℕ} (hs : 0 < s)
    (hx : x = s + extent (ws ++ [q])) (hchain : Chain m s (ws ++ [q] ++ [b]) 0)
    (htight : Tight (ws ++ [q])) (hprev : get m x prev = s + extent ws) :
    Deleted m (deleteLast m x) s (ws ++ [q]) b [] (ws ++ [q]) := by
  obtain ⟨hchainxs, hheader, _⟩ := chain_middle.mp hchain
  rw [← hx] at hheader
  have hnext : get m x next = 0 := hheader.next
  generalize hm₂ : set (set m x signature 0) x capacity 0 = m₂
  obtain ⟨hprev₂, htouch₂, huse₂, _⟩ := deleted_header hm₂
  have hdelete : deleteLast m x = set (set m₂ (s + extent ws) next 0) x prev 0 := by
    simp only [deleteLast, hnext, hm₂, hprev₂, hprev, if_true, ne_eq, blockAddr_ne_zero hs,
      not_false_eq_true]
  have hxq : x = s + extent ws + q.span := by
    rw [hx]
    simp [Nat.add_assoc]
  have hapart : s + extent ws + AllocNode.size ≤ x := by
    rw [hxq]
    simp [Block.span]
  rw [hdelete]
  obtain ⟨hws, hq, _⟩ := chain_middle.mp hchainxs
  have hqkeep (f : Field) (hf : f.offset + f.width ≤ AllocNode.size) (hd : next.Disjoint f) :
      get (set (set m₂ (s + extent ws) next 0) x prev 0) (s + extent ws) f =
        get m (s + extent ws) f := by
    refine (get_set_of_apart (Or.inr hapart) (by decide) hf).trans
      ((get_set_of_disjoint hd).trans (htouch₂.get hf ?_))
    simp only [List.mem_singleton, forall_eq]
    exact Or.inl hapart
  have htouch : Touches m (set (set m₂ (s + extent ws) next 0) x prev 0) [s + extent ws, x] :=
    ((htouch₂.mono (by simp)).trans ((touches_set (by decide)).mono (by simp))).trans
      ((touches_set (by decide)).mono (by simp))
  constructor
  case chain =>
    refine chain_middle.mpr ⟨htouch.chain hws ?_, ⟨?_, ?_, ?_, ?_⟩, trivial⟩
    · intro y hy z hz
      have hpos := mem_starts hy
      simp only [List.mem_cons, List.not_mem_nil, or_false] at hz
      omega
    · exact (hqkeep inUse (by decide) (by decide)).trans hq.used
    · exact (hqkeep capacity (by decide) (by decide)).trans hq.cap
    · rw [if_pos rfl]
      refine (get_set_of_apart (Or.inr hapart) (by decide) (by decide)).trans ?_
      simp
    · exact (hqkeep signature (by decide) (by decide)).trans hq.signature
  case tight => exact htight
  case used => simp [payloads]
  case extent_le => simp
  case touches => exact htouch.mono (by simp [starts_append, starts, hxq])
  case empty => simp
  case blocks => simp
  case links =>
    -- the header is before the deleted one, whose links were set
    intro y hy
    have hpos := mem_starts hy
    have hyx : y + AllocNode.size ≤ x := by omega
    have hkeep : KeepsPrev m₂ (set m₂ (s + extent ws) next 0) [s + extent ws] :=
      keepsPrev_set (by decide) (by decide)
    have hyq := starts_apart hy (y := s + extent ws) (by simp [starts_append, starts])
    refine (get_set_of_apart (Or.inr hyx) (by decide) (by decide)).trans ((hkeep y ?_).trans
      (htouch₂.get (by decide) ?_))
    · simpa using hyq
    · simpa using Or.inl hyx
  case uses =>
    have hkeep {a : ℕ} {f : Field} {k : Memory} (ha : a ∈ starts s (ws ++ [q] ++ [b]))
        (hf : f.offset + f.width ≤ AllocNode.size) (hd : f.Disjoint inUse) :
        KeepsUse k (set k a f 0) (starts s (ws ++ [q] ++ [b])) :=
      (keepsUse_set hf hd).mono fun y hy => by rwa [List.mem_singleton.mp hy]
    have hx : x ∈ starts s (ws ++ [q] ++ [b]) := by simp [starts_append, starts, hxq]
    have hq : s + extent ws ∈ starts s (ws ++ [q] ++ [b]) := by simp [starts_append, starts]
    exact ((huse₂.mono (by simpa using hx)).trans (hkeep hq (by decide) (by decide))).trans
      (hkeep hx (by decide) (by decide))

/-- The last step: a free block at the end of the region is not a block any more. -/
theorem deleteLast_spec (hs : 0 < s) (hchain : Chain m s (xs ++ b :: ys) 0)
    (hb : b.used = false) (hxs : Tight xs) (hys : Tight ys) (hused : ∀ d ∈ ys.head?, d.used = true)
    (hprev : get m (s + extent xs) prev = prevOf s xs) :
    ∃ bs, Deleted m (deleteLast m (s + extent xs)) s xs b ys bs := by
  obtain ⟨_, hheader, _⟩ := chain_middle.mp hchain
  cases ys with
  | cons d us =>
    have hne : get m (s + extent xs) next ≠ 0 := by
      rw [hheader.next, if_neg (by simp)]
      omega
    rw [deleteLast, if_neg hne]
    refine ⟨_, hchain, Tight.join hxs hys (hused d (by simp)), ?_, le_rfl, Touches.refl _ _, ?_,
      by simp, fun _ _ => rfl, KeepsUse.refl _ _⟩
    · simp [payloads_append, payloads, hb]
    · simp
  | nil =>
    rcases List.eq_nil_or_concat xs with rfl | ⟨ws, q, rfl⟩
    · exact ⟨[], deleteLast_only hheader.next hprev⟩
    · rw [List.concat_eq_append] at *
      rw [prevOf_concat] at hprev
      exact ⟨_, deleteLast_behind hs rfl hchain hxs hprev⟩

/-- The end of `mydeallocate`, from where the block is marked as free. -/
def freeBlock (fuel : ℕ) (m : Memory) (currNode : ℕ) : Option Memory :=
  (mergePrev fuel (set m currNode inUse 0) currNode).bind fun (m, currNode) =>
    (mergeNext fuel m currNode).map fun m => deleteLast m currNode

/-- The links that a free follows, when the block was marked. -/
theorem FollowsExact.links {k : ℕ} (hs : 0 < s)
    (hchain : Chain m s (xs ++ ⟨k, true⟩ :: ys) 0) (h : FollowsExact m s (s + extent xs)) :
    get (set m (s + extent xs) inUse 0) (s + extent xs) prev = prevOf s xs ∧
      ∀ ws p, xs = ws ++ [p] → p.used = false →
        get (set m (s + extent xs) inUse 0) (s + extent ws) prev = prevOf s ws := by
  have hprev : get m (s + extent xs) prev = prevOf s xs := h.1.eq hs hchain
  have hkeep (y : ℕ) (hy : y = s + extent xs ∨ y + AllocNode.size ≤ s + extent xs) :
      get (set m (s + extent xs) inUse 0) y prev = get m y prev :=
    get_set_of_other (by decide) (by decide) (by decide) (by omega)
  refine ⟨(hkeep _ (Or.inl rfl)).trans hprev, fun ws p hxs hp => ?_⟩
  subst hxs
  rw [List.append_assoc] at hchain
  obtain ⟨_, hpheader, _⟩ := chain_middle.mp hchain
  have hexact : BackExact m s (s + extent ws) := by
    refine h.second (hprev.trans prevOf_concat) (blockAddr_ne_zero hs) ?_
    rw [hpheader.used, hp]
    rfl
  rw [hkeep _ (Or.inr (by simp [Block.span, Nat.add_assoc])), hexact.eq hs hchain]

/-- With more fuel it returns the same. -/
theorem freeBlock_mono {a fuel' : ℕ} (h : freeBlock fuel m a = some m') (hle : fuel ≤ fuel') :
    freeBlock fuel' m a = some m' := by
  obtain ⟨⟨m₂, cur⟩, hback, h⟩ := Option.bind_eq_some_iff.mp h
  obtain ⟨m₃, hahead, rfl⟩ := Option.map_eq_some_iff.mp h
  unfold freeBlock
  rw [mergePrev_mono hback hle, Option.bind_some]
  simp only [mergeNext_mono hahead hle, Option.map_some]

/-- What it returns does not depend on the fuel. -/
theorem freeBlock_unique {a fuel' : ℕ} {m'' : Memory} (h : freeBlock fuel m a = some m')
    (h' : freeBlock fuel' m a = some m'') : m' = m'' := by
  have hsame := freeBlock_mono h (Nat.le_max_left fuel fuel')
  rw [freeBlock_mono h' (Nat.le_max_right fuel fuel')] at hsame
  exact (Option.some.inj hsame).symm

/-- Freeing a block in use, if the links it follows are right: the block is gone, the
others are the same, only headers of blocks are touched, and the old header is not that
of a block in use any more. -/
theorem freeBlock_spec {k : ℕ} (hs : 0 < s) (hsize : extent (xs ++ ⟨k, true⟩ :: ys) < 2 ^ 32)
    (hbound : s + extent (xs ++ ⟨k, true⟩ :: ys) < 2 ^ 64)
    (hchain : Chain m s (xs ++ ⟨k, true⟩ :: ys) 0) (htight : Tight (xs ++ ⟨k, true⟩ :: ys))
    (hfollows : FollowsExact m s (s + extent xs)) :
    ∃ m' bs, freeBlock 2 m (s + extent xs) = some m' ∧ Chain m' s bs 0 ∧ Tight bs ∧
      payloads s bs = payloads s xs ++ payloads (s + extent xs + (⟨k, true⟩ : Block).span) ys ∧
      extent bs ≤ extent (xs ++ ⟨k, true⟩ :: ys) ∧
      Touches m m' (starts s (xs ++ ⟨k, true⟩ :: ys)) ∧
      (bs = [] → get m' s signature ≠ valid) ∧
      (∃ zs c d us, MergedBefore xs ⟨k, false⟩ zs c ∧ MergedBehind c ys d us ∧
        bs = if us = [] then zs else zs ++ d :: us) ∧
      (∀ y ∈ starts s bs, get m' y prev = get m y prev) ∧ get m' (s + extent xs) inUse = 0 := by
  obtain ⟨hprev, hprev'⟩ := hfollows.links hs hchain
  obtain ⟨hchainxs, htightys⟩ := htight.split
  have hextent (c : Block) (zs us : List Block) (heq : extent zs + c.span =
      extent xs + (⟨k, false⟩ : Block).span) (hle : extent us ≤ extent ys) :
      extent (zs ++ c :: us) ≤ extent (xs ++ ⟨k, true⟩ :: ys) := by
    simp only [extent_append, extent_cons, Block.span] at heq ⊢
    omega
  have hsize₁ : extent (xs ++ ⟨k, false⟩ :: ys) = extent (xs ++ ⟨k, true⟩ :: ys) := by
    simp [Block.span]
  obtain ⟨m₂, zs, c, hback, hchain₂, hc, hzs, hspan, hpayloads, hprev₂, htouch₂, hsub₂, hlinks₂,
      huses₂, hbefore⟩ :=
    mergePrev_spec hs (by omega) (by omega) (chain_setUse hchain) rfl hchainxs hprev hprev'
  have hle₂ := hextent c zs ys hspan le_rfl
  obtain ⟨m₃, d, us, hahead, hchain₃, hd, hus, hhead, hspan₃, hpayloads₃, hprev₃, htouch₃,
      hsub₃, hlinks₃, huses₃, hbehind⟩ :=
    mergeNext_spec hs (by omega) (by omega) hchain₂ hc htightys
  obtain ⟨bs, hbs, htightbs, hpayloads₄, hle₄, htouch₄, hempty, hblocks, hlinks₄, huses₄⟩ :=
    deleteLast_spec hs hchain₃ hd hzs hus hhead (hprev₃.trans hprev₂)
  have hsame : starts s (xs ++ ⟨k, false⟩ :: ys) = starts s (xs ++ ⟨k, true⟩ :: ys) := by
    simp [starts_append, starts, Block.span]
  have hx : s + extent xs ∈ starts s (xs ++ ⟨k, true⟩ :: ys) := by simp [starts_append, starts]
  rw [hsame] at htouch₂ hsub₂ huses₂
  refine ⟨_, bs, ?_, hbs, htightbs, ?_, ?_, ?_, hempty,
    ⟨zs, c, d, us, hbefore, hbehind, hblocks⟩, fun y hy => ?_, ?_⟩
  · change (mergePrev 2 (set m (s + extent xs) inUse (false.toNat)) (s + extent xs)).bind _ = _
    rw [hback, Option.bind_some]
    simp only [hahead, Option.map_some]
  · rw [hpayloads₄, hpayloads, hpayloads₃, Nat.add_assoc s, hspan]
    simp [Block.span, Nat.add_assoc]
  · refine le_trans hle₄ (le_trans (le_of_eq ?_) hle₂)
    simp only [extent_append, extent_cons]
    omega
  · have hmark : Touches m (set m (s + extent xs) inUse 0) (starts s (xs ++ ⟨k, true⟩ :: ys)) :=
      (touches_set (by decide)).mono (by simpa using hx)
    exact ((hmark.trans htouch₂).trans (htouch₃.mono hsub₂)).trans
      (htouch₄.mono fun y hy => hsub₂ y (hsub₃ y hy))
  · have hy₃ : y ∈ starts s (zs ++ d :: us) := by
      rw [hblocks] at hy
      split at hy
      · rw [starts_append]
        exact List.mem_append_left _ hy
      · exact hy
    have hy₂ := hsub₃ y hy₃
    have hy₁ := hsub₂ y hy₂
    have hmark : KeepsPrev m (set m (s + extent xs) inUse 0) [s + extent xs] :=
      keepsPrev_set (by decide) (by decide)
    refine (hlinks₄ y hy).trans ((hlinks₃ y fun a ha => starts_apart hy₂ ha).trans
      ((hlinks₂ y fun a ha => starts_apart (hsame ▸ hy₁) ha).trans (hmark y fun a ha => ?_)))
    rw [List.mem_singleton.mp ha]
    exact starts_apart hy₁ hx
  · -- no later write is to the mark
    have hkeeps := (huses₂.trans (huses₃.mono hsub₂)).trans
      (huses₄.mono fun y hy => hsub₂ y (hsub₃ y hy))
    rw [hkeeps _ fun a ha => starts_apart hx ha]
    exact get_set_self

/-- What `mydeallocate` does with a block in use. -/
theorem mydeallocate_eq {L : Layout} {h : Arena} {k : ℕ}
    (hchain : Chain h.mem L.schedulerEnd (xs ++ ⟨k, true⟩ :: ys) 0)
    (hin : L.schedulerEnd + extent xs + AllocNode.size < L.endOfPages) :
    mydeallocate L fuel h (L.schedulerEnd + extent xs + AllocNode.size) =
      (freeBlock fuel h.mem (L.schedulerEnd + extent xs)).map fun m => { h with mem := m } := by
  obtain ⟨_, hheader, _⟩ := chain_middle.mp hchain
  have hnode : L.schedulerEnd + extent xs + AllocNode.size - AllocNode.size =
      L.schedulerEnd + extent xs := Nat.add_sub_cancel _ _
  have hrange : ¬ (L.schedulerEnd + extent xs + AllocNode.size < L.schedulerEnd ∨
      L.endOfPages ≤ L.schedulerEnd + extent xs + AllocNode.size) := by omega
  have huse : get h.mem (L.schedulerEnd + extent xs) inUse ≠ 0 := by
    rw [hheader.used]
    exact one_ne_zero
  simp only [mydeallocate, hnode]
  rw [if_neg hrange, if_neg (not_not_intro hheader.signature), if_neg huse]
  simp only [freeBlock, Option.map_bind, Option.map_map, Function.comp_def]

/-- `mydeallocate` of a block in the list frees it and merges it with its free neighbours. -/
theorem mydeallocate_spec {L : Layout} {h h' : Arena} {k : ℕ}
    (hsize : extent (xs ++ ⟨k, true⟩ :: ys) < 2 ^ 31)
    (hchain : Chain h.mem L.schedulerEnd (xs ++ ⟨k, true⟩ :: ys) 0)
    (htight : Tight (xs ++ ⟨k, true⟩ :: ys))
    (hin : L.schedulerEnd + extent xs + AllocNode.size < L.endOfPages)
    (hfollows : FollowsExact h.mem L.schedulerEnd (L.schedulerEnd + extent xs))
    (hrun : mydeallocate L fuel h (L.schedulerEnd + extent xs + AllocNode.size) = some h') :
    ∃ bs, Chain h'.mem L.schedulerEnd bs 0 ∧ Tight bs ∧
      payloads L.schedulerEnd bs = payloads L.schedulerEnd xs ++
        payloads (L.schedulerEnd + extent xs + (⟨k, true⟩ : Block).span) ys ∧
      extent bs ≤ extent (xs ++ ⟨k, true⟩ :: ys) ∧
      Touches h.mem h'.mem (starts L.schedulerEnd (xs ++ ⟨k, true⟩ :: ys)) ∧
      (bs = [] → get h'.mem L.schedulerEnd signature ≠ valid) ∧ h'.pagesLeft = h.pagesLeft ∧
      (∃ zs c d us, MergedBefore xs ⟨k, false⟩ zs c ∧ MergedBehind c ys d us ∧
        bs = if us = [] then zs else zs ++ d :: us) ∧
      ∀ y ∈ starts L.schedulerEnd bs, get h'.mem y prev = get h.mem y prev := by
  obtain ⟨hs, hend, hregion⟩ := L.schedulerEnd_bound
  rw [mydeallocate_eq hchain hin] at hrun
  obtain ⟨m', hfree, rfl⟩ := Option.map_eq_some_iff.mp hrun
  obtain ⟨m, bs, hreturns, hbs, htightbs, hpayloads, hle, htouch, hempty, hblocks, hlinks, _⟩ :=
    freeBlock_spec hs (by omega) (by omega) hchain htight hfollows
  obtain rfl := freeBlock_unique hreturns hfree
  exact ⟨bs, hbs, htightbs, hpayloads, hle, htouch, hempty, rfl, hblocks, hlinks⟩

end SimpleOs.Heap
