import SimpleOs.Heap.Coalescing

/-!
# Allocating a block

`myallocate` makes a first block, reuses a free block of the right size, or puts a
new block behind the last one.
-/

namespace SimpleOs.Heap

open Bytes AllocNode

variable {m m' : Memory} {s fuel size : ℕ} {bs xs ys : List Block} {b : Block}

/-! ## The search -/

/-- The capacity of a block that is not too large. -/
theorem Header.capacityOf {a n : ℕ} (h : Header m a b n) (hcap : b.cap < 2 ^ 31) :
    capacityOf m a = b.cap := by
  unfold Heap.capacityOf
  rw [h.cap, if_pos hcap]

/-- The search finds a free block of the right size, or the last block. -/
theorem search_spec {r : ℕ ⊕ ℕ} (hs : 0 < s) (hsize : extent (xs ++ b :: ys) < 2 ^ 31)
    (hchain : Chain m s (xs ++ b :: ys) 0)
    (hrun : search m size fuel (s + extent xs) = some r) :
    (∃ ws us, xs ++ b :: ys = ws ++ ⟨size, false⟩ :: us ∧ r = .inl (s + extent ws)) ∨
      ∃ ws c, xs ++ b :: ys = ws ++ [c] ∧ r = .inr (s + extent ws) ∧
        ⟨size, false⟩ ∉ b :: ys := by
  induction fuel generalizing xs b ys with
  | zero => exact absurd hrun (by simp [search])
  | succ fuel ih =>
    obtain ⟨_, hheader, _⟩ := chain_middle.mp hchain
    have hcap : capacityOf m (s + extent xs) = b.cap := by
      refine hheader.capacityOf ?_
      simp only [extent_append, extent_cons, Block.span] at hsize
      omega
    simp only [search, hheader.used, hcap] at hrun
    split at hrun
    · rename_i hfound
      left
      refine ⟨xs, ys, ?_, (Option.some.inj hrun).symm⟩
      have hfree : b.used = false := by
        cases hb : b.used
        · rfl
        · rw [hb] at hfound
          exact absurd hfound.1 (by simp)
      rw [← hfound.2, ← hfree]
    · rename_i hother
      have hne : ⟨size, false⟩ ≠ b := by
        rintro rfl
        exact hother ⟨rfl, rfl⟩
      cases ys with
      | nil =>
        have hnext : get m (s + extent xs) next = 0 := hheader.next
        rw [if_pos hnext] at hrun
        exact Or.inr ⟨xs, b, rfl, (Option.some.inj hrun).symm, by simp [hne]⟩
      | cons c ys =>
        have hnext : get m (s + extent xs) next = s + extent xs + b.span := hheader.next
        have hlist : xs ++ b :: c :: ys = xs ++ [b] ++ c :: ys := by simp
        have haddr : s + extent xs + b.span = s + extent (xs ++ [b]) := by simp [Nat.add_assoc]
        rw [hnext, if_neg (by omega), haddr] at hrun
        rw [hlist] at hchain hsize ⊢
        refine (ih hsize hchain hrun).imp id ?_
        rintro ⟨ws, d, hws, hr, hnot⟩
        exact ⟨ws, d, hws, hr, fun hmem => hnot ((List.mem_cons.mp hmem).resolve_left hne)⟩

/-! ## The ways of a call -/

/-- The address behind the last block is the end of the blocks. -/
theorem behind_last (hsize : extent (xs ++ [b]) < 2 ^ 31) (hbound : s < 2 ^ 63)
    (hchain : Chain m s (xs ++ [b]) 0) : behind m (s + extent xs) = s + extent (xs ++ [b]) := by
  obtain ⟨_, hheader, _⟩ := chain_middle.mp hchain
  simp only [extent_append, extent_cons, extent_nil, Block.span] at hsize ⊢
  unfold behind
  rw [hheader.capacityOf (by omega), Nat.mod_eq_of_lt (by omega)]
  omega

/-- A header of the list is that of a block. -/
theorem Listed.header {a : ℕ} (h : Listed m s a) (hsize : extent bs < 2 ^ 31)
    (hchain : Chain m s bs 0) (hbs : bs ≠ []) :
    ∃ xs b ys, bs = xs ++ b :: ys ∧ a = s + extent xs ∧
      Header m a b (if ys = [] then 0 else a + b.span) ∧ capacityOf m a = b.cap := by
  obtain ⟨xs, b, ys, rfl, rfl⟩ := h.block hchain hbs
  have hheader := (chain_middle.mp hchain).2.1
  refine ⟨xs, b, ys, rfl, rfl, hheader, hheader.capacityOf ?_⟩
  simp only [extent_append, extent_cons, Block.span] at hsize
  omega

/-- The list has a free header of a size exactly if there is a free block of that size. -/
theorem exists_free_iff (hs : 0 < s) (hsize : extent bs < 2 ^ 31) (hchain : Chain m s bs 0)
    (hbs : bs ≠ []) :
    (∃ a, Listed m s a ∧ get m a inUse = 0 ∧ capacityOf m a = size) ↔ ⟨size, false⟩ ∈ bs := by
  constructor
  · rintro ⟨a, ha, hfree, hcap⟩
    obtain ⟨xs, ⟨k, used⟩, ys, rfl, rfl, hheader, hcap'⟩ := ha.header hsize hchain hbs
    have hused := hheader.used
    rw [hfree] at hused
    obtain rfl : k = size := hcap'.symm.trans hcap
    cases used with
    | true => exact absurd hused (by simp)
    | false => simp
  · intro hmem
    obtain ⟨xs, ys, rfl⟩ := List.append_of_mem hmem
    have hheader := (chain_middle.mp hchain).2.1
    simp only [extent_append, extent_cons, Block.span] at hsize
    exact ⟨_, listed_of_chain hs hchain, hheader.used,
      hheader.capacityOf (show size < 2 ^ 31 by omega)⟩

/-- What holds behind the last header of the list holds behind the blocks. -/
theorem forall_last_iff {P : ℕ → Prop} (hs : 0 < s) (hbound : s < 2 ^ 63)
    (hsize : extent bs < 2 ^ 31) (hchain : Chain m s bs 0) (hbs : bs ≠ []) :
    (∀ last, Listed m s last → get m last next = 0 → P (behind m last)) ↔ P (s + extent bs) := by
  constructor
  · intro hlast
    obtain ⟨xs, b, rfl⟩ := (List.eq_nil_or_concat bs).resolve_left hbs
    rw [List.concat_eq_append] at hsize hchain ⊢
    have hheader := (chain_middle.mp hchain).2.1
    have hend := hlast _ (listed_of_chain hs hchain) hheader.next
    rwa [behind_last hsize hbound hchain] at hend
  · intro hend last ha hnext
    obtain ⟨xs, b, ys, rfl, rfl, hheader, _⟩ := ha.header hsize hchain hbs
    have hys : ys = [] := by
      by_contra hys
      have hbehind := hheader.next
      rw [if_neg hys, hnext] at hbehind
      omega
    subst hys
    rwa [behind_last hsize hbound hchain]

/-- The ways in which `myallocate` returns: refused, or with a first, a reused or a last block. -/
theorem myallocate_cases {L : Layout} {tid : ℕ} {h h' : Arena} {r : Option ℕ}
    (hpos : 0 < size) (hsize : extent bs < 2 ^ 31)
    (hchain : ∀ h₁, chargeFirst L tid h size = some h₁ → Chain h₁.mem L.schedulerEnd bs 0)
    (hempty : ∀ h₁, chargeFirst L tid h size = some h₁ → bs = [] →
      get h₁.mem L.schedulerEnd signature ≠ valid)
    (hrun : myallocate L tid fuel h size = some (h', r)) :
    (chargeFirst L tid h size = none ∧ h' = h ∧ r = none) ∨
      ∃ h₁, chargeFirst L tid h size = some h₁ ∧
        ((bs = [] ∧ h' = { h₁ with mem := initHead h₁.mem L.schedulerEnd size } ∧
            r = some (L.schedulerEnd + AllocNode.size)) ∨
          (∃ xs ys, bs = xs ++ ⟨size, false⟩ :: ys ∧
            h' = { h₁ with mem := set h₁.mem (L.schedulerEnd + extent xs) inUse 1 } ∧
            r = some (L.schedulerEnd + extent xs + AllocNode.size)) ∨
          ∃ xs b, bs = xs ++ [b] ∧ ⟨size, false⟩ ∉ bs ∧
            append L tid h₁ (L.schedulerEnd + extent xs) size = (h', r)) := by
  obtain ⟨hs, _, _⟩ := L.schedulerEnd_bound
  unfold myallocate at hrun
  rw [if_neg (by omega)] at hrun
  cases hcharge : chargeFirst L tid h size with
  | none =>
    rw [hcharge] at hrun
    obtain ⟨rfl, rfl⟩ := Prod.mk.inj (Option.some.inj hrun)
    exact Or.inl ⟨rfl, rfl, rfl⟩
  | some h₁ =>
    refine Or.inr ⟨h₁, rfl, ?_⟩
    simp only [hcharge] at hrun
    replace hchain := hchain h₁ hcharge
    replace hempty := hempty h₁ hcharge
    cases bs with
    | nil =>
      rw [if_pos (hempty rfl)] at hrun
      obtain ⟨rfl, rfl⟩ := Prod.mk.inj (Option.some.inj hrun)
      exact Or.inl ⟨rfl, rfl, rfl⟩
    | cons b bs =>
      rw [if_neg (by rw [hchain.1.signature]; simp)] at hrun
      obtain ⟨found, hsearch, heq⟩ := Option.map_eq_some_iff.mp hrun
      right
      have hfirst : search h₁.mem size fuel (L.schedulerEnd + extent []) = some found := hsearch
      rcases search_spec hs hsize hchain hfirst with ⟨ws, us, hlist, rfl⟩ |
        ⟨ws, c, hlist, rfl, hnot⟩
      · obtain ⟨rfl, rfl⟩ := Prod.mk.inj heq
        exact Or.inl ⟨ws, us, hlist, rfl, rfl⟩
      · exact Or.inr ⟨ws, c, hlist, hnot, heq⟩

/-- The ways in which a new last block is made. -/
theorem append_cases {L : Layout} {tid prevAddr newNode : ℕ} {h h' : Arena} {r : Option ℕ}
    (hnew : behind h.mem prevAddr = newNode) (hrun : append L tid h prevAddr size = (h', r)) :
    (h' = h ∧ r = none ∧ (newNode + AllocNode.size + size < L.endOfPages →
        charge L tid h (countPages L.PAGE_SIZE
          (L.PAGE_SIZE - (newNode + AllocNode.size) % L.PAGE_SIZE) size (size + 1) 0) = none)) ∨
      ∃ h₁, newNode + AllocNode.size + size < L.endOfPages ∧
        charge L tid h (countPages L.PAGE_SIZE
          (L.PAGE_SIZE - (newNode + AllocNode.size) % L.PAGE_SIZE) size (size + 1) 0) = some h₁ ∧
        h' = { h₁ with mem := linkNode h₁.mem prevAddr newNode size } ∧
        r = some (newNode + AllocNode.size) := by
  simp only [append, hnew] at hrun
  split at hrun
  · rename_i hfull
    obtain ⟨rfl, rfl⟩ := Prod.mk.inj hrun
    exact Or.inl ⟨rfl, rfl, fun hfits => by omega⟩
  · rename_i hfits
    split at hrun
    · rename_i hcharge
      obtain ⟨rfl, rfl⟩ := Prod.mk.inj hrun
      exact Or.inl ⟨rfl, rfl, fun _ => hcharge⟩
    · rename_i h₁ hcharge
      obtain ⟨rfl, rfl⟩ := Prod.mk.inj hrun
      exact Or.inr ⟨h₁, by omega, hcharge, rfl, rfl⟩

/-! ## The new headers -/

/-- A first header makes a list of one block. -/
theorem chain_initHead (hsize : size < 2 ^ 31) : Chain (initHead m s size) s [⟨size, true⟩] 0 := by
  refine ⟨⟨?_, ?_, ?_, ?_⟩, trivial⟩
  · exact (get_set_of_disjoint (by decide)).trans get_set_self
  · exact get_set_self.trans (Nat.mod_eq_of_lt (by simp only [capacity]; omega))
  · rw [if_pos rfl]
    exact (get_set_of_disjoint (by decide)).trans ((get_set_of_disjoint (by decide)).trans
      ((get_set_of_disjoint (by decide)).trans get_set_self))
  · exact (get_set_of_disjoint (by decide)).trans ((get_set_of_disjoint (by decide)).trans
      ((get_set_of_disjoint (by decide)).trans ((get_set_of_disjoint (by decide)).trans
        get_set_self)))

/-- A first block touches its own header. -/
theorem touches_initHead : Touches m (initHead m s size) [s] :=
  ((((touches_set (by decide)).trans (touches_set (by decide))).trans
    (touches_set (by decide))).trans (touches_set (by decide))).trans (touches_set (by decide))

/-- A new last block touches its own header and the one before. -/
theorem touches_linkNode {p n : ℕ} : Touches m (linkNode m p n size) [p, n] := by
  have htouch {a v : ℕ} {f : Field} {k : Memory} (ha : a ∈ [p, n])
      (hf : f.offset + f.width ≤ AllocNode.size) : Touches k (set k a f v) [p, n] :=
    (touches_set hf).mono fun y hy => by rwa [List.mem_singleton.mp hy]
  exact (((((htouch (by simp) (by decide)).trans (htouch (by simp) (by decide))).trans
    (htouch (by simp) (by decide))).trans (htouch (by simp) (by decide))).trans
    (htouch (by simp) (by decide))).trans (htouch (by simp) (by decide))

/-- The headers after a new last block. -/
theorem chain_linkNode (hsize : size < 2 ^ 31) (hbound : s + extent (xs ++ [b]) < 2 ^ 64)
    (hchain : Chain m s (xs ++ [b]) 0) :
    Chain (linkNode m (s + extent xs) (s + extent (xs ++ [b])) size) s
      (xs ++ [b] ++ [⟨size, true⟩]) 0 := by
  obtain ⟨hxs, hheader, _⟩ := chain_middle.mp hchain
  have haddr : s + extent (xs ++ [b]) = s + extent xs + b.span := by simp [Nat.add_assoc]
  rw [haddr] at hbound ⊢
  generalize hp : s + extent xs = p at *
  generalize hn : p + b.span = n at *
  have hapart : p + AllocNode.size ≤ n := by
    rw [← hn]
    simp [Block.span]
  have htouch : Touches m (linkNode m p n size) [p, n] := touches_linkNode
  have hpkeep (f : Field) (hf : f.offset + f.width ≤ AllocNode.size) (hd : next.Disjoint f) :
      get (linkNode m p n size) p f = get m p f :=
    (get_set_of_apart (Or.inr hapart) (by decide) hf).trans ((get_set_of_disjoint hd).trans
      ((get_set_of_apart (Or.inr hapart) (by decide) hf).trans
        ((get_set_of_apart (Or.inr hapart) (by decide) hf).trans
          ((get_set_of_apart (Or.inr hapart) (by decide) hf).trans
            (get_set_of_apart (Or.inr hapart) (by decide) hf)))))
  have hnkeep (v : ℕ) (k : Memory) (f : Field) (hf : f.offset + f.width ≤ AllocNode.size)
      (hd : prev.Disjoint f) (hd' : next.Disjoint f) :
      get (set (set (set k n prev v) p next n) n next 0) n f = get k n f :=
    (get_set_of_disjoint hd').trans ((get_set_of_apart (Or.inl hapart) (by decide) hf).trans
      (get_set_of_disjoint hd))
  rw [List.append_assoc]
  refine chain_middle.mpr ⟨htouch.chain (hp ▸ hxs) fun y hy z hz => ?_, ⟨?_, ?_, ?_, ?_⟩,
    ⟨?_, ?_, ?_, ?_⟩, trivial⟩
  · have hpos := mem_starts hy
    simp only [List.mem_cons, List.not_mem_nil, or_false] at hz
    omega
  · rw [hp]
    exact (hpkeep inUse (by decide) (by decide)).trans hheader.used
  · rw [hp]
    exact (hpkeep capacity (by decide) (by decide)).trans hheader.cap
  · rw [hp, if_neg (by simp), hn]
    refine (get_set_of_apart (Or.inr hapart) (by decide) (by decide)).trans
      (get_set_self.trans (Nat.mod_eq_of_lt hbound))
  · rw [hp]
    exact (hpkeep signature (by decide) (by decide)).trans hheader.signature
  · rw [hp, hn]
    exact (hnkeep _ _ inUse (by decide) (by decide) (by decide)).trans get_set_self
  · rw [hp, hn]
    exact (hnkeep _ _ capacity (by decide) (by decide) (by decide)).trans
      ((get_set_of_disjoint (by decide)).trans
        (get_set_self.trans (Nat.mod_eq_of_lt (by simp only [capacity]; omega))))
  · rw [hp, hn, if_pos rfl]
    exact get_set_self
  · rw [hp, hn]
    exact (hnkeep _ _ signature (by decide) (by decide) (by decide)).trans
      ((get_set_of_disjoint (by decide)).trans ((get_set_of_disjoint (by decide)).trans
        get_set_self))

/-! ## The new links back -/

/-- The first block's `prev` is `NULL`, as nothing is before it. -/
theorem linked_initHead : Linked (initHead m s size) 0 s [⟨size, true⟩] := by
  refine ⟨?_, trivial⟩
  exact (get_set_of_disjoint (by decide)).trans ((get_set_of_disjoint (by decide)).trans
    get_set_self)

/-- A new last block has a link to the one before it, and the other links stay. -/
theorem linked_linkNode {q : ℕ} (hbound : s + extent (xs ++ [b]) < 2 ^ 64)
    (h : Linked m q s (xs ++ [b])) :
    Linked (linkNode m (s + extent xs) (s + extent (xs ++ [b])) size) q s
      (xs ++ [b] ++ [⟨size, true⟩]) := by
  have hlast : s + extent xs ∈ starts s (xs ++ [b]) := by simp [starts_append, starts]
  have hend (y : ℕ) (hy : y ∈ starts s (xs ++ [b])) :
      y + AllocNode.size ≤ s + extent (xs ++ [b]) := (mem_starts hy).2
  have hbefore : lastStart q s (xs ++ [b]) = s + extent xs := lastStart_concat
  rw [linked_append, Linked, hbefore]
  generalize s + extent (xs ++ [b]) = n at *
  generalize s + extent xs = p at *
  refine ⟨h.congr fun y hy => ?_, ?_, trivial⟩
  · have hn : n + AllocNode.size ≤ y ∨ y + AllocNode.size ≤ n := Or.inr (hend y hy)
    have hp (k : Memory) : Bytes.get (set k p next n) y prev = Bytes.get k y prev := by
      rcases starts_apart hlast hy with rfl | hapart
      · exact get_set_of_disjoint (by decide)
      · exact get_set_of_apart hapart (by decide) (by decide)
    exact (get_set_of_apart hn (by decide) (by decide)).trans ((hp _).trans
      ((get_set_of_apart hn (by decide) (by decide)).trans
        ((get_set_of_apart hn (by decide) (by decide)).trans
          ((get_set_of_apart hn (by decide) (by decide)).trans
            (get_set_of_apart hn (by decide) (by decide))))))
  · have hp := hend p hlast
    exact (get_set_of_disjoint (by decide)).trans
      ((get_set_of_apart (Or.inl hp) (by decide) (by decide)).trans
        (get_set_self.trans (Nat.mod_eq_of_lt (by simp only [prev]; omega))))

end SimpleOs.Heap
