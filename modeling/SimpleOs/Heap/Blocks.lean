import Mathlib.Algebra.BigOperators.Group.List.Basic
import SimpleOs.Heap.Allocator

/-!
# Adjacent blocks

The blocks of a region are adjacent, and each header points to the next one. This
file describes such a region by the list of its blocks, and says what a change of
one header does to it.
-/

namespace SimpleOs.Heap

open Bytes AllocNode

/-- A block of a list: its capacity, and whether it is in use. -/
structure Block where
  /-- The length of the payload. -/
  cap : ℕ
  /-- Whether the block is in use. -/
  used : Bool
  deriving DecidableEq

/-- The length of a block with its header. -/
def Block.span (b : Block) : ℕ := AllocNode.size + b.cap

/-- The length of adjacent blocks. -/
def extent (bs : List Block) : ℕ := (bs.map Block.span).sum

@[simp] theorem extent_nil : extent [] = 0 := rfl

@[simp] theorem extent_cons (b : Block) (bs : List Block) :
    extent (b :: bs) = b.span + extent bs := by simp [extent]

@[simp] theorem extent_append (xs ys : List Block) :
    extent (xs ++ ys) = extent xs + extent ys := by simp [extent]

/-- The header at `a` is that of block `b`, with the next header at `n`. -/
structure Header (m : Memory) (a : ℕ) (b : Block) (n : ℕ) : Prop where
  /-- Whether the block is in use. -/
  used : get m a inUse = b.used.toNat
  /-- The length of the payload. -/
  cap : get m a capacity = b.cap
  /-- The `next` link of the header is `n`. -/
  next : get m a next = n
  /-- The header is marked as one. -/
  signature : get m a signature = valid

/-- The blocks `bs` begin at `a`; the last one points to `stop`. -/
def Chain (m : Memory) : ℕ → List Block → ℕ → Prop
  | _, [], _ => True
  | a, b :: bs, stop =>
    Header m a b (if bs = [] then stop else a + b.span) ∧ Chain m (a + b.span) bs stop

/-- The addresses of the headers of a list of blocks that begins at `a`. -/
def starts : ℕ → List Block → List ℕ
  | _, [] => []
  | a, b :: bs => a :: starts (a + b.span) bs

/-- The payloads in use, with their lengths. -/
def payloads : ℕ → List Block → List (ℕ × ℕ)
  | _, [] => []
  | a, b :: bs => (if b.used then [(a + AllocNode.size, b.cap)] else []) ++
    payloads (a + b.span) bs

variable {m m' m'' : Memory} {a n q stop : ℕ} {b : Block} {bs xs ys : List Block}

/-! ## Positions -/

/-- The headers of a concatenation are those of the first part, and those of the second behind it.
-/
theorem starts_append : starts a (xs ++ ys) = starts a xs ++ starts (a + extent xs) ys := by
  induction xs generalizing a with
  | nil => simp [starts]
  | cons b xs ih => simp [starts, ih, Nat.add_assoc]

/-- The payloads of a concatenation are those of the first part, and those of the second behind it.
-/
theorem payloads_append :
    payloads a (xs ++ ys) = payloads a xs ++ payloads (a + extent xs) ys := by
  induction xs generalizing a with
  | nil => simp [payloads]
  | cons b xs ih => simp [payloads, ih, Nat.add_assoc]

/-- A header is within the blocks. -/
theorem mem_starts {y : ℕ} (h : y ∈ starts a bs) :
    a ≤ y ∧ y + AllocNode.size ≤ a + extent bs := by
  induction bs generalizing a with
  | nil => exact absurd h (by simp [starts])
  | cons b bs ih =>
    rw [extent_cons]
    unfold Block.span
    rcases List.mem_cons.mp h with rfl | h
    · omega
    · have := ih h
      unfold Block.span at this
      omega

/-- Two headers are the same or have no byte in common. -/
theorem starts_apart {x y : ℕ} (hx : x ∈ starts a bs) (hy : y ∈ starts a bs) :
    x = y ∨ x + AllocNode.size ≤ y ∨ y + AllocNode.size ≤ x := by
  induction bs generalizing a with
  | nil => exact absurd hx (by simp [starts])
  | cons b bs ih =>
    rcases List.mem_cons.mp hx with rfl | hx <;> rcases List.mem_cons.mp hy with rfl | hy
    · exact Or.inl rfl
    · have hpos := (mem_starts hy).1
      unfold Block.span at hpos
      omega
    · have hpos := (mem_starts hx).1
      unfold Block.span at hpos
      omega
    · exact ih hx hy

/-- A payload is within the blocks, behind the first header. -/
theorem mem_payloads {p k : ℕ} (h : (p, k) ∈ payloads a bs) :
    a + AllocNode.size ≤ p ∧ p + k ≤ a + extent bs := by
  induction bs generalizing a with
  | nil => exact absurd h (by simp [payloads])
  | cons b bs ih =>
    rw [extent_cons]
    unfold Block.span
    rcases List.mem_append.mp h with h | h
    · split at h
      · obtain ⟨rfl, rfl⟩ := Prod.mk.inj (List.mem_singleton.mp h)
        omega
      · exact absurd h (by simp)
    · have := ih h
      unfold Block.span at this
      omega

/-- A payload has no byte in common with a header. -/
theorem payload_apart {p k y : ℕ} (h : (p, k) ∈ payloads a bs) (hy : y ∈ starts a bs) :
    y + AllocNode.size ≤ p ∨ p + k ≤ y := by
  induction bs generalizing a with
  | nil => exact absurd h (by simp [payloads])
  | cons b bs ih =>
    rcases List.mem_cons.mp hy with rfl | hy
    · exact Or.inl (mem_payloads h).1
    · rcases List.mem_append.mp h with h | h
      · have hlow := (mem_starts hy).1
        split at h
        · obtain ⟨rfl, rfl⟩ := Prod.mk.inj (List.mem_singleton.mp h)
          right
          unfold Block.span at hlow
          omega
        · exact absurd h (by simp)
      · exact ih h hy

/-- Two payloads, and each of them and the other's header, have no byte in common. -/
def Apart (x y : ℕ × ℕ) : Prop :=
  (x.1 + x.2 + AllocNode.size ≤ y.1 ∨ y.1 + y.2 + AllocNode.size ≤ x.1)

/-- The payloads of a region are apart. -/
theorem payloads_apart : (payloads a bs).Pairwise Apart := by
  induction bs generalizing a with
  | nil => exact List.Pairwise.nil
  | cons b bs ih =>
    refine List.pairwise_append.mpr ⟨?_, ih, fun x hx y hy => ?_⟩
    · split <;> simp
    · split at hx
      · have hlow := (mem_payloads (p := y.1) (k := y.2) hy).1
        rw [List.mem_singleton.mp hx]
        left
        unfold Block.span at hlow
        simp only
        omega
      · exact absurd hx (by simp)

/-- When a payload is erased that stands between others, the others are left. -/
theorem erase_middle_perm {x : ℕ × ℕ} {before behind : List (ℕ × ℕ)} :
    ((before ++ x :: behind).erase x).Perm (before ++ behind) := by
  have hmiddle : (before ++ x :: behind).Perm (x :: (before ++ behind)) := List.perm_middle
  have hperm := hmiddle.erase x
  rwa [List.erase_cons_head] at hperm

/-- A payload in use is that of a block. -/
theorem exists_block {p k : ℕ} (h : (p, k) ∈ payloads a bs) :
    ∃ xs ys, bs = xs ++ ⟨k, true⟩ :: ys ∧ p = a + extent xs + AllocNode.size := by
  induction bs generalizing a with
  | nil => exact absurd h (by simp [payloads])
  | cons b bs ih =>
    rcases List.mem_append.mp h with h | h
    · split at h
      · rename_i hused
        obtain ⟨rfl, rfl⟩ := Prod.mk.inj (List.mem_singleton.mp h)
        exact ⟨[], bs, by rw [← hused]; rfl, by simp⟩
      · exact absurd h (by simp)
    · obtain ⟨xs, ys, rfl, hp⟩ := ih h
      exact ⟨b :: xs, ys, rfl, by rw [hp, extent_cons]; omega⟩

/-! ## Changes of headers -/

/-- All changes are in the headers at `nodes`. -/
def Touches (m m' : Memory) (nodes : List ℕ) : Prop :=
  ∀ c, (∀ y ∈ nodes, c < y ∨ y + AllocNode.size ≤ c) → m' c = m c

theorem Touches.refl (m : Memory) (nodes : List ℕ) : Touches m m nodes := fun _ _ => rfl

theorem Touches.trans {nodes : List ℕ} (h : Touches m m' nodes) (h' : Touches m' m'' nodes) :
    Touches m m'' nodes := fun c hc => (h' c hc).trans (h c hc)

/-- Bytes outside of more headers are outside of fewer, so they are unchanged there, too. -/
theorem Touches.mono {nodes nodes' : List ℕ} (h : Touches m m' nodes)
    (hsub : ∀ y ∈ nodes, y ∈ nodes') : Touches m m' nodes' :=
  fun c hc => h c fun y hy => hc y (hsub y hy)

/-- A write to a field of a header. -/
theorem touches_set {f : Field} {v : ℕ} (hf : f.offset + f.width ≤ AllocNode.size) :
    Touches m (set m a f v) [a] := by
  intro c hc
  have := hc a (by simp)
  exact set_apply (by omega)

/-- A header that is not touched has the same fields. -/
theorem Touches.get {nodes : List ℕ} (h : Touches m m' nodes) {f : Field}
    (hf : f.offset + f.width ≤ AllocNode.size)
    (ha : ∀ y ∈ nodes, a + AllocNode.size ≤ y ∨ y + AllocNode.size ≤ a) :
    get m' a f = get m a f := by
  refine load_congr fun c hc hlt => h c fun y hy => ?_
  have := ha y hy
  omega

/-- The same headers describe the same blocks. -/
theorem Chain.congr (h : Chain m a bs stop)
    (hsame : ∀ y ∈ starts a bs, ∀ f : Field, f.offset + f.width ≤ AllocNode.size →
      get m' y f = get m y f) : Chain m' a bs stop := by
  induction bs generalizing a with
  | nil => exact trivial
  | cons b bs ih =>
    obtain ⟨hheader, hrest⟩ := h
    have hfirst := hsame a (by simp [starts])
    exact ⟨⟨(hfirst inUse (by decide)).trans hheader.used,
      (hfirst capacity (by decide)).trans hheader.cap,
      (hfirst next (by decide)).trans hheader.next,
      (hfirst signature (by decide)).trans hheader.signature⟩,
      ih hrest fun y hy => hsame y (List.mem_cons_of_mem _ hy)⟩

/-- Blocks whose headers are not touched are still chained. -/
theorem Touches.chain {nodes : List ℕ} (h : Touches m m' nodes) (hc : Chain m a bs stop)
    (ha : ∀ x ∈ starts a bs, ∀ y ∈ nodes,
      x + AllocNode.size ≤ y ∨ y + AllocNode.size ≤ x) : Chain m' a bs stop :=
  hc.congr fun x hx _ hf => h.get hf (ha x hx)

/-- A chain over two parts is a chain over each of them, one behind the other. -/
theorem chain_append (hys : ys ≠ []) :
    Chain m a (xs ++ ys) stop ↔
      Chain m a xs (a + extent xs) ∧ Chain m (a + extent xs) ys stop := by
  induction xs generalizing a with
  | nil => simp [Chain]
  | cons b xs ih =>
    have hnil : xs ++ ys ≠ [] := by simp [hys]
    simp only [List.cons_append, Chain, ih, hnil, if_false, extent_cons, ← Nat.add_assoc]
    by_cases hxs : xs = []
    · subst hxs
      simp [Chain]
    · simp only [hxs, if_false, and_assoc]

/-- The block between two parts of a region. -/
theorem chain_middle :
    Chain m a (xs ++ b :: ys) stop ↔
      Chain m a xs (a + extent xs) ∧
        Header m (a + extent xs) b (if ys = [] then stop else a + extent xs + b.span) ∧
          Chain m (a + extent xs + b.span) ys stop :=
  chain_append (by simp)

/-- The first header of blocks is marked as one. -/
theorem Chain.signature_eq (h : Chain m a bs stop) (hbs : bs ≠ []) :
    get m a signature = valid := by
  cases bs with
  | nil => exact absurd rfl hbs
  | cons b bs => exact h.1.signature

/-- Marking a block as free or as in use. -/
theorem chain_setUse {k : ℕ} {u v : Bool} (hchain : Chain m a (xs ++ ⟨k, u⟩ :: ys) stop) :
    Chain (set m (a + extent xs) inUse v.toNat) a (xs ++ ⟨k, v⟩ :: ys) stop := by
  obtain ⟨hxs, hheader, hys⟩ := chain_middle.mp hchain
  have htouch : Touches m (set m (a + extent xs) inUse v.toNat) [a + extent xs] :=
    touches_set (by decide)
  refine chain_middle.mpr ⟨htouch.chain hxs fun y hy z hz => ?_, ⟨?_, ?_, ?_, ?_⟩,
    htouch.chain hys fun y hy z hz => ?_⟩
  · have hpos := mem_starts hy
    rw [List.mem_singleton.mp hz]
    omega
  · rw [get_set_self]
    cases v <;> rfl
  · exact (get_set_of_disjoint (by decide)).trans hheader.cap
  · exact (get_set_of_disjoint (by decide)).trans hheader.next
  · exact (get_set_of_disjoint (by decide)).trans hheader.signature
  · have hpos := mem_starts hy
    rw [List.mem_singleton.mp hz]
    simp only [Block.span] at hpos
    omega

/-! ## Links back -/

/-- The `prev` of each block is the block before it, and that of the first one is `q`. -/
def Linked (m : Memory) : ℕ → ℕ → List Block → Prop
  | _, _, [] => True
  | q, a, b :: bs => get m a prev = q ∧ Linked m a (a + b.span) bs

/-- The last of the blocks, or `q`. -/
def lastStart : ℕ → ℕ → List Block → ℕ
  | q, _, [] => q
  | _, a, b :: bs => lastStart a (a + b.span) bs

/-- In a concatenation with one more block, the last start is that of this block. -/
theorem lastStart_concat : lastStart q a (xs ++ [b]) = a + extent xs := by
  induction xs generalizing q a with
  | nil => simp [lastStart]
  | cons c xs ih => simp [lastStart, ih, Nat.add_assoc]

/-- Links back are right in a concatenation if they are so in both parts, where the second part
begins behind the last block of the first. -/
theorem linked_append :
    Linked m q a (xs ++ ys) ↔ Linked m q a xs ∧ Linked m (lastStart q a xs) (a + extent xs) ys := by
  induction xs generalizing q a with
  | nil => simp [Linked, lastStart]
  | cons b xs ih => simp [Linked, lastStart, ih, Nat.add_assoc, and_assoc]

/-- Links back stay right if the `prev` of every header is the same. -/
theorem Linked.congr (h : Linked m q a bs)
    (hsame : ∀ y ∈ starts a bs, get m' y prev = get m y prev) : Linked m' q a bs := by
  induction bs generalizing q a with
  | nil => trivial
  | cons b bs ih =>
    obtain ⟨hprev, hrest⟩ := h
    exact ⟨(hsame a (by simp [starts])).trans hprev,
      ih hrest fun y hy => hsame y (List.mem_cons_of_mem _ hy)⟩

/-- Whether a block is in use does not matter. -/
theorem linked_mark {k : ℕ} {u v : Bool} (h : Linked m q a (xs ++ ⟨k, u⟩ :: ys)) :
    Linked m q a (xs ++ ⟨k, v⟩ :: ys) := by
  obtain ⟨hxs, hrest⟩ := linked_append.mp h
  exact linked_append.mpr ⟨hxs, hrest⟩

/-! ## Layouts -/

/-- The regions are in the address space. -/
theorem Layout.schedulerEnd_bound (L : Layout) :
    0 < L.schedulerEnd ∧ L.endOfPages + L.PAGE_SIZE < 2 ^ 63 ∧
      L.endOfPages ≤ L.schedulerEnd + 8000000 := by
  have hpositive := L.positive
  have hfits := L.fits
  have hbound := L.bound
  unfold Layout.endOfPages Layout.schedulerEnd Layout.kernalEnd
  omega

end SimpleOs.Heap
