import SimpleOs.Heap.Allocator
import SimpleOs.Paging.Fault

/-!
# The page nodes in memory

The 5500 page nodes are laid out from `MEMSPACE` on, 16 bytes each. The fault handler reads
the table that they encode, and writes the nodes that it changes.
-/

namespace SimpleOs.Kernal

open Bytes Heap
open Paging (PageNode Table State)

variable {Page : Type*} {L : Layout} {m m' : Memory} {t : Table} {node : PageNode} {f : Field}
  {a c i k n : ℕ}

/-! ## The layout -/

namespace Node

/-- The field `int threadid` of a page node, the thread that the page belongs to. -/
def threadid : Field := ⟨0, 4⟩

/-- The field `int offset_p` of a page node, the number of its place. -/
def offset_p : Field := ⟨4, 4⟩

/-- The field `int retAddr` of a page node, the home of the page. -/
def retAddr : Field := ⟨8, 4⟩

/-- The field `char reference_bit` of a page node. -/
def reference_bit : Field := ⟨12, 1⟩

/-- The number of bytes of a page node, `sizeof(PageNode)`. -/
def size : ℕ := 16

/-- The fields of a page node. -/
def fields : List Field := [threadid, offset_p, retAddr, reference_bit]

end Node

/-- The number of page nodes: those of the frames, and those of the swap file. -/
def nodeCount : ℕ := 5500

/-- The address of a page node. -/
def nodeAddr (L : Layout) (i : ℕ) : ℕ := L.MEMSPACE + Node.size * i

/-- The page nodes in the order of their addresses. -/
def nodeOf (t : Table) (i : ℕ) : PageNode :=
  if i < Paging.frameCount then t.frames i else t.slots (i - Paging.frameCount)

/-- The bits of an `int`. -/
def word (z : ℤ) : ℕ := (z % 2 ^ 32).toNat

/-- The stores to the fields of a page node. -/
def writeNode (m : Memory) (a : ℕ) (node : PageNode) : Memory :=
  let m := set m a Node.threadid node.threadid
  let m := set m a Node.offset_p node.offset_p
  let m := set m a Node.retAddr (word node.retAddr)
  set m a Node.reference_bit node.reference_bit.toNat

/-- The stores to the first `n` page nodes. -/
def writeNodes (L : Layout) (t : Table) : ℕ → Memory → Memory
  | 0, m => m
  | n + 1, m => writeNode (writeNodes L t n m) (nodeAddr L n) (nodeOf t n)

/-- The memory with the page nodes of a table. -/
def writeTable (L : Layout) (t : Table) (m : Memory) : Memory := writeNodes L t nodeCount m

/-- `buildKernalSpace`: the loops over the nodes of the frames and of the swap file. -/
def buildKernalSpace (L : Layout) (m : Memory) : Memory :=
  writeTable L (Paging.buildKernalSpace (fun _ => ()) ⟨fun _ => (), 436⟩ fun _ => ()).table m

/-- The bytes at `a` are those of a page node. -/
structure IsNode (m : Memory) (a : ℕ) (node : PageNode) : Prop where
  /-- The bytes give the thread of the page. -/
  threadid : get m a Node.threadid = node.threadid
  /-- The number of the page. -/
  offset_p : get m a Node.offset_p = node.offset_p
  /-- The home of the page. -/
  retAddr : get m a Node.retAddr = word node.retAddr
  /-- The home is an `int`. -/
  home : -2 ^ 31 ≤ node.retAddr ∧ node.retAddr < 2 ^ 31
  /-- The byte gives the reference bit. -/
  reference_bit : get m a Node.reference_bit = node.reference_bit.toNat

/-- The page nodes in memory are those of the table. -/
def Encodes (L : Layout) (m : Memory) (t : Table) : Prop :=
  ∀ i < nodeCount, IsNode m (nodeAddr L i) (nodeOf t i)

/-! ## Writing nodes -/

/-- Other bytes than those of the node do not change. -/
theorem writeNode_apply (h : c < a ∨ a + Node.size ≤ c) : writeNode m a node c = m c := by
  unfold Node.size at h
  have hset {m : Memory} {f : Field} {v : ℕ} (hf : f.offset + f.width ≤ 16) :
      set m a f v c = m c := set_apply (by omega)
  unfold writeNode
  rw [hset (by decide), hset (by decide), hset (by decide), hset (by decide)]

/-- A node that is there already is written without a change. -/
theorem writeNode_of_isNode (h : IsNode m a node) : writeNode m a node = m := by
  have hmod {f : Field} {v : ℕ} (hv : get m a f = v) : set m a f v = m := by
    apply set_of_get
    rw [Nat.mod_eq_of_lt]
    · exact hv
    · exact hv ▸ get_lt
  simp only [writeNode, hmod h.threadid, hmod h.offset_p, hmod h.retAddr, hmod h.reference_bit]

/-- A node is there after it was written. -/
theorem isNode_writeNode (hthread : node.threadid < 2 ^ 32) (hoffset : node.offset_p < 2 ^ 32)
    (hhome : -2 ^ 31 ≤ node.retAddr ∧ node.retAddr < 2 ^ 31) :
    IsNode (writeNode m a node) a node := by
  have hbit : node.reference_bit.toNat < 256 := by
    have hle := Bool.toNat_le node.reference_bit
    omega
  have hword : word node.retAddr < 2 ^ 32 := by
    unfold word
    omega
  constructor
  · refine (get_set_of_disjoint (by decide)).trans ((get_set_of_disjoint (by decide)).trans
      ((get_set_of_disjoint (by decide)).trans (get_set_self.trans ?_)))
    exact Nat.mod_eq_of_lt hthread
  · refine (get_set_of_disjoint (by decide)).trans ((get_set_of_disjoint (by decide)).trans
      (get_set_self.trans ?_))
    exact Nat.mod_eq_of_lt hoffset
  · refine (get_set_of_disjoint (by decide)).trans (get_set_self.trans ?_)
    exact Nat.mod_eq_of_lt hword
  · exact hhome
  · exact get_set_self.trans (Nat.mod_eq_of_lt hbit)

/-- The same bytes are those of the same node. -/
theorem IsNode.congr (h : IsNode m a node) (hsame : ∀ c, a ≤ c → c < a + Node.size → m' c = m c) :
    IsNode m' a node := by
  have hget {f : Field} (hf : f.offset + f.width ≤ Node.size) : get m' a f = get m a f :=
    load_congr fun c _ _ => hsame c (by omega) (by omega)
  constructor
  · rw [hget (by decide)]
    exact h.threadid
  · rw [hget (by decide)]
    exact h.offset_p
  · rw [hget (by decide)]
    exact h.retAddr
  · exact h.home
  · rw [hget (by decide)]
    exact h.reference_bit

/-! ## Writing the table -/

/-- Each of the nodes that were written reads back as the node it was. -/
theorem writeNodes_isNode (hthread : ∀ i < n, (nodeOf t i).threadid < 2 ^ 32)
    (hhome : ∀ i < n, -2 ^ 31 ≤ (nodeOf t i).retAddr ∧ (nodeOf t i).retAddr < 2 ^ 31)
    (hn : n ≤ nodeCount) (hi : i < n) :
    IsNode (writeNodes L t n m) (nodeAddr L i) (nodeOf t i) := by
  have hoffset (i : ℕ) (hi : i < nodeCount) : (nodeOf t i).offset_p < 2 ^ 32 := by
    unfold nodeCount at hi
    unfold nodeOf
    split <;> simp <;> omega
  induction n with
  | zero => omega
  | succ n ih =>
    rw [writeNodes]
    by_cases heq : i = n
    · subst heq
      exact isNode_writeNode (hthread i hi) (hoffset i (by omega)) (hhome i hi)
    · refine (ih (fun i hi => hthread i (by omega)) (fun i hi => hhome i (by omega)) (by omega)
        (by omega)).congr fun c hc hlt => writeNode_apply ?_
      unfold nodeAddr Node.size at *
      omega

/-- A table that is written is encoded. -/
theorem encodes_writeTable (hthread : ∀ i < nodeCount, (nodeOf t i).threadid < 2 ^ 32)
    (hhome : ∀ i < nodeCount, -2 ^ 31 ≤ (nodeOf t i).retAddr ∧ (nodeOf t i).retAddr < 2 ^ 31) :
    Encodes L (writeTable L t m) t :=
  fun _ hi => writeNodes_isNode hthread hhome le_rfl hi

/-- The nodes of a new table are encoded by the bytes that are written for it. -/
theorem encodes_buildKernalSpace :
    Encodes L (buildKernalSpace L m)
      (Paging.buildKernalSpace (fun _ => ()) ⟨fun _ => (), 436⟩ fun _ => ()).table := by
  apply encodes_writeTable
  all_goals
    intro i _
    unfold nodeOf
    split <;> simp [Paging.buildKernalSpace]

/-- Bytes behind node `k` do not change, if the nodes from there on are there already. -/
theorem writeNodes_apply (hnodes : ∀ i, k ≤ i → i < n → IsNode m (nodeAddr L i) (nodeOf t i))
    (hc : nodeAddr L k ≤ c) : writeNodes L t n m c = m c := by
  induction n generalizing c with
  | zero => rfl
  | succ n ih =>
    have hbefore {c : ℕ} (hc : nodeAddr L k ≤ c) : writeNodes L t n m c = m c :=
      ih (fun i hk hi => hnodes i hk (by omega)) hc
    rw [writeNodes]
    by_cases hin : nodeAddr L n ≤ c ∧ c < nodeAddr L n + Node.size
    · have hk : k ≤ n := by
        unfold nodeAddr Node.size at *
        omega
      have hnode : IsNode (writeNodes L t n m) (nodeAddr L n) (nodeOf t n) :=
        (hnodes n hk (by omega)).congr
          fun c hc _ => hbefore (by unfold nodeAddr Node.size at *; omega)
      rw [writeNode_of_isNode hnode]
      exact hbefore hc
    · rw [writeNode_apply (by omega)]
      exact hbefore hc

end SimpleOs.Kernal
