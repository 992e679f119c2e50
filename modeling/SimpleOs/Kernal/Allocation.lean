import SimpleOs.Heap.Allocation

/-!
# Allocation of the scheduler and of shared memory

`schedulerallocate` and `shalloc` are the same but for their regions. The bound that they test
leaves out the header of the new block, and the header of a first block is marked before its
size is checked.
-/

namespace SimpleOs.Kernal

open Bytes Heap AllocNode

variable {m m' : Memory} {fuel size p : ℕ} {bs : List Block}

/-! ## The regions -/

/-- The end of the page counts and the beginning of the shared region. -/
def threadPagesCountEnd (L : Layout) : ℕ := L.endOfPages + L.PAGE_SIZE

/-- The end of the shared region. -/
def shallocEnd (L : Layout) : ℕ := threadPagesCountEnd L + 4 * L.PAGE_SIZE

/-- A region with a list of blocks. -/
structure Region where
  /-- The address of the first header. -/
  head : ℕ
  /-- The address behind the region. -/
  regionEnd : ℕ
  /-- `NULL` is not in it. -/
  positive : 0 < head
  /-- It is in the address space. -/
  bound : regionEnd < 2 ^ 63
  /-- Its size is an `int`. -/
  small : regionEnd < head + 2 ^ 31

/-- The region of the scheduler, between `kernalEnd` and `schedulerEnd`. -/
def schedulerRegion (L : Layout) : Region where
  head := L.kernalEnd
  regionEnd := L.schedulerEnd
  positive := Nat.add_pos_right _ (Nat.mul_pos (by decide) L.positive)
  bound := by
    have hbound := L.bound
    have hfits := L.fits
    unfold Layout.schedulerEnd Layout.kernalEnd
    omega
  small := by
    have hfits := L.fits
    unfold Layout.schedulerEnd
    omega

/-- The region that threads share, between `thread_pages_count_end` and `shallocEnd`. -/
def sharedRegion (L : Layout) : Region where
  head := threadPagesCountEnd L
  regionEnd := shallocEnd L
  positive := Nat.add_pos_right _ L.positive
  bound := by
    have hbound := L.bound
    have hfits := L.fits
    unfold shallocEnd threadPagesCountEnd Layout.endOfPages Layout.schedulerEnd Layout.kernalEnd
    omega
  small := by
    have hfits := L.fits
    unfold shallocEnd
    omega

/-! ## The allocators -/

/-- The first fields of the header of a first block. -/
def markHead (m : Memory) (head : ℕ) : Memory :=
  let m := set m head signature valid
  let m := set m head next 0
  set m head prev 0

/-- The text that the two allocators share. The header of a first block is marked before its
size is checked. -/
def regionAllocate (r : Region) (fuel : ℕ) (m : Memory) (size : ℕ) :
    Option (Memory × Option ℕ) :=
  if get m r.head signature ≠ valid then
    let m := markHead m r.head
    if (r.head + size) % 2 ^ 64 ≥ r.regionEnd then some (m, none)
    else
      let m := set m r.head inUse 1
      let m := set m r.head capacity size
      some (m, some (r.head + AllocNode.size))
  else (search m size fuel r.head).map fun
    | .inl temp => (set m temp inUse 1, some (temp + AllocNode.size))
    | .inr prevAddr =>
      let newNode := behind m prevAddr
      if (newNode + size) % 2 ^ 64 ≥ r.regionEnd then (m, none)
      else (linkNode m prevAddr newNode size, some (newNode + AllocNode.size))

/-- `schedulerallocate`, which looks for a block in the scheduler's region. -/
def schedulerallocate (L : Layout) (fuel : ℕ) (m : Memory) (size : ℕ) :
    Option (Memory × Option ℕ) := regionAllocate (schedulerRegion L) fuel m size

/-- `shalloc`, when the regions are set up. -/
def shalloc (L : Layout) (fuel : ℕ) (m : Memory) (size : ℕ) :
    Option (Memory × Option ℕ) := regionAllocate (sharedRegion L) fuel m size

/-! ## Refused requests -/

/-- No byte of the region changes. -/
def Region.Kept (r : Region) (m m' : Memory) : Prop :=
  ∀ c, r.head ≤ c → c < r.regionEnd → m' c = m c

/-- The signature after the header was marked. -/
theorem markHead_signature {head : ℕ} : get (markHead m head) head signature = valid :=
  (get_set_of_disjoint (by decide)).trans ((get_set_of_disjoint (by decide)).trans get_set_self)

/-- A refused request changes nothing but an unmarked head, which it marks. -/
theorem regionAllocate_none {r : Region} (h : regionAllocate r fuel m size = some (m', none)) :
    m' = if get m r.head signature = valid then m else markHead m r.head := by
  unfold regionAllocate at h
  by_cases hsignature : get m r.head signature = valid
  · rw [if_neg (not_not_intro hsignature)] at h
    rw [if_pos hsignature]
    obtain ⟨temp | prevAddr, _, heq⟩ := Option.map_eq_some_iff.mp h
    · exact absurd (Prod.mk.inj heq).2 (by simp)
    · simp only at heq
      split at heq
      · exact (Prod.mk.inj heq).1.symm
      · exact absurd (Prod.mk.inj heq).2 (by simp)
  · rw [if_pos hsignature] at h
    rw [if_neg hsignature]
    simp only at h
    split at h
    · exact (Prod.mk.inj (Option.some.inj h)).1.symm
    · exact absurd (Prod.mk.inj (Option.some.inj h)).2 (by simp)

/-- A refused request changes no byte of the region exactly if the first header was there
before. -/
theorem regionAllocate_kept_iff {r : Region} (hheader : r.head + AllocNode.size ≤ r.regionEnd)
    (h : regionAllocate r fuel m size = some (m', none)) :
    r.Kept m m' ↔ get m r.head signature = valid := by
  rw [regionAllocate_none h]
  constructor
  · intro hkept
    by_contra hsignature
    rw [if_neg hsignature] at hkept
    apply hsignature
    have hmarked : get (markHead m r.head) r.head signature = valid := markHead_signature
    rw [← hmarked]
    refine (load_congr fun c hc hlt => hkept c ?_ ?_).symm
    · simp only [signature] at hc
      omega
    · simp only [signature] at hlt
      unfold AllocNode.size at hheader
      omega
  · intro hsignature c _ _
    rw [if_pos hsignature]

/-- The request is refused: no free block has its size, and it would end behind the region. -/
def Region.Refuses (r : Region) (m : Memory) (size : ℕ) : Prop :=
  if get m r.head signature ≠ valid then r.regionEnd ≤ (r.head + size) % 2 ^ 64
  else (∀ a, Listed m r.head a → ¬(get m a inUse = 0 ∧ capacityOf m a = size)) ∧
    ∀ last, Listed m r.head last → get m last next = 0 →
      r.regionEnd ≤ (behind m last + size) % 2 ^ 64

/-- A list from its second header on. -/
theorem listed_of_next {a b : ℕ} (hne : get m a next ≠ 0) (h : Listed m (get m a next) b) :
    Listed m a b := by
  induction h with
  | head => exact .next .head hne
  | next _ hnext ih => exact .next ih hnext

/-- A header of a list is the first one, or in the rest of the list. -/
theorem listed_cases {a b : ℕ} (h : Listed m a b) :
    b = a ∨ get m a next ≠ 0 ∧ Listed m (get m a next) b := by
  induction h with
  | head => exact Or.inl rfl
  | next _ hnext ih =>
    rcases ih with rfl | ⟨hne, hrest⟩
    · exact Or.inr ⟨hnext, .head⟩
    · exact Or.inr ⟨hne, .next hrest hnext⟩

/-- A block that the search finds is free and of the right size. -/
theorem search_inl {a temp : ℕ} (h : search m size fuel a = some (.inl temp)) :
    Listed m a temp ∧ get m temp inUse = 0 ∧ capacityOf m temp = size := by
  induction fuel generalizing a with
  | zero => exact absurd h (by simp [search])
  | succ fuel ih =>
    unfold search at h
    split at h
    · rename_i hfound
      obtain rfl : a = temp := by simpa using h
      exact ⟨.head, hfound⟩
    · split at h
      · exact absurd h (by simp)
      · rename_i hne
        obtain ⟨hlisted, hfound⟩ := ih h
        exact ⟨listed_of_next hne hlisted, hfound⟩

/-- If the search ends at the last header, no block is free and of the right size. -/
theorem search_inr {a last : ℕ} (h : search m size fuel a = some (.inr last)) :
    (Listed m a last ∧ get m last next = 0) ∧
      ∀ b, Listed m a b → ¬(get m b inUse = 0 ∧ capacityOf m b = size) ∧
        (get m b next = 0 → b = last) := by
  induction fuel generalizing a with
  | zero => exact absurd h (by simp [search])
  | succ fuel ih =>
    unfold search at h
    split at h
    · exact absurd h (by simp)
    · rename_i hother
      split at h
      · rename_i hnext
        obtain rfl : a = last := by simpa using h
        refine ⟨⟨.head, hnext⟩, fun b hb => ?_⟩
        rcases listed_cases hb with rfl | ⟨hne, _⟩
        · exact ⟨hother, fun _ => rfl⟩
        · exact absurd hnext hne
      · rename_i hne
        obtain ⟨⟨hlisted, hlast⟩, hrest⟩ := ih h
        refine ⟨⟨listed_of_next hne hlisted, hlast⟩, fun b hb => ?_⟩
        rcases listed_cases hb with rfl | ⟨_, hb⟩
        · exact ⟨hother, fun hnext => absurd hnext hne⟩
        · exact hrest b hb

/-- The answer to a request is `NULL` exactly if it is refused. -/
theorem regionAllocate_eq_none_iff {r : Region} {result : Option ℕ}
    (h : regionAllocate r fuel m size = some (m', result)) : result = none ↔ r.Refuses m size := by
  unfold regionAllocate at h
  unfold Region.Refuses
  by_cases hsignature : get m r.head signature = valid
  · rw [if_neg (not_not_intro hsignature)] at h ⊢
    obtain ⟨temp | prevAddr, hsearch, heq⟩ := Option.map_eq_some_iff.mp h
    · obtain ⟨_, rfl⟩ := Prod.mk.inj heq
      obtain ⟨hlisted, hfound⟩ := search_inl hsearch
      exact iff_of_false (by simp) fun hrefused => hrefused.1 temp hlisted hfound
    · obtain ⟨⟨hlisted, hlast⟩, hall⟩ := search_inr hsearch
      simp only at heq
      split at heq
      · rename_i hend
        obtain ⟨_, rfl⟩ := Prod.mk.inj heq
        refine iff_of_true rfl ⟨fun a ha => (hall a ha).1, fun last ha hnext => ?_⟩
        rw [(hall last ha).2 hnext]
        exact hend
      · rename_i hend
        obtain ⟨_, rfl⟩ := Prod.mk.inj heq
        exact iff_of_false (by simp) fun hrefused => hend (hrefused.2 prevAddr hlisted hlast)
  · rw [if_pos hsignature] at h ⊢
    simp only at h
    split at h
    · rename_i hend
      obtain ⟨_, rfl⟩ := Prod.mk.inj (Option.some.inj h)
      exact iff_of_true rfl hend
    · rename_i hend
      obtain ⟨_, rfl⟩ := Prod.mk.inj (Option.some.inj h)
      exact iff_of_false (by simp) hend

/-! ## Regions that hold blocks -/

/-- The region holds the blocks `bs`. -/
structure Region.Holds (r : Region) (m : Memory) (bs : List Block) : Prop where
  /-- The headers from the first one on are those of the blocks, but for their links back. -/
  chain : Chain m r.head bs 0
  /-- No two free blocks are adjacent, and the last one is in use. -/
  tight : Tight bs
  /-- The first header tells whether there is a block. -/
  empty : bs = [] → get m r.head signature ≠ valid
  /-- The blocks are within the region. -/
  fits : r.head + extent bs ≤ r.regionEnd

/-- The condition on a request that makes a new block: its header and its payload are within
the region. -/
def Region.RoomFor (r : Region) (m : Memory) (size : ℕ) : Prop :=
  if get m r.head signature ≠ valid then r.head + AllocNode.size + size ≤ r.regionEnd
  else (∃ a, Listed m r.head a ∧ get m a inUse = 0 ∧ capacityOf m a = size) ∨
    ∀ last, Listed m r.head last → get m last next = 0 →
      behind m last + AllocNode.size + size ≤ r.regionEnd

variable {r : Region}

/-- The blocks of a region are together shorter than 2^31 bytes. -/
theorem Region.Holds.extent_lt (h : r.Holds m bs) : extent bs < 2 ^ 31 := by
  have hfits := h.fits
  have hsmall := r.small
  omega

/-- The condition, if there are no blocks. -/
theorem Region.Holds.roomFor_nil (h : r.Holds m []) :
    r.RoomFor m size ↔ r.head + AllocNode.size + size ≤ r.regionEnd := by
  unfold RoomFor
  rw [if_pos (h.empty rfl)]

/-- If there are blocks, there is room exactly if a free one suits or a new one fits behind them. -/
theorem Region.Holds.roomFor_iff (h : r.Holds m bs) (hbs : bs ≠ []) :
    r.RoomFor m size ↔ (⟨size, false⟩ ∉ bs →
      r.head + extent bs + AllocNode.size + size ≤ r.regionEnd) := by
  have hstart : r.head < 2 ^ 63 := by
    have hfits := h.fits
    have hbound := r.bound
    omega
  unfold RoomFor
  rw [if_neg (not_not_intro (h.chain.signature_eq hbs)),
    exists_free_iff r.positive h.extent_lt h.chain hbs,
    forall_last_iff (P := fun a => a + AllocNode.size + size ≤ r.regionEnd) r.positive hstart
      h.extent_lt h.chain hbs, or_iff_not_imp_left]

/-- From any block of a list on, the search returns when it has a step for each block behind. -/
theorem search_returns {s : ℕ} {b : Block} {xs ys : List Block}
    (hchain : Chain m s (xs ++ b :: ys) 0) (hfuel : ys.length < fuel) :
    ∃ found, search m size fuel (s + extent xs) = some found := by
  induction fuel generalizing xs b ys with
  | zero => exact absurd hfuel (Nat.not_lt_zero _)
  | succ fuel ih =>
    have hheader := (chain_middle.mp hchain).2.1
    unfold search
    split
    · exact ⟨_, rfl⟩
    · split
      · exact ⟨_, rfl⟩
      · rename_i hne
        cases ys with
        | nil => exact absurd hheader.next hne
        | cons c ys =>
          have hnext : get m (s + extent xs) next = s + extent (xs ++ [b]) := by
            rw [hheader.next, if_neg (by simp), extent_append, extent_cons, extent_nil]
            omega
          have hlist : xs ++ b :: c :: ys = xs ++ [b] ++ c :: ys := by simp
          rw [hnext]
          rw [hlist] at hchain
          exact ih hchain (Nat.lt_of_succ_lt_succ hfuel)

/-- An allocation in a region with a list of blocks returns. -/
theorem regionAllocate_returns (hchain : Chain m r.head bs 0)
    (hempty : bs = [] → get m r.head signature ≠ valid) (hfuel : bs.length ≤ fuel) :
    ∃ m' result, regionAllocate r fuel m size = some (m', result) := by
  unfold regionAllocate
  cases bs with
  | nil =>
    rw [if_pos (hempty rfl)]
    dsimp only
    split <;> exact ⟨_, _, rfl⟩
  | cons b bs =>
    rw [if_neg (not_not_intro hchain.1.signature)]
    have hfound : ∃ found, search m size fuel (r.head + extent []) = some found :=
      search_returns hchain hfuel
    obtain ⟨found, hfound⟩ := hfound
    rw [extent_nil, Nat.add_zero] at hfound
    rw [hfound]
    exact ⟨_, _, rfl⟩

/-- The ways in which a request succeeds: it makes a first block, reuses a free block, or puts
a new block behind the last one. -/
theorem regionAllocate_cases (hstart : r.head < 2 ^ 63) (hextent : extent bs < 2 ^ 31)
    (hchain : Chain m r.head bs 0) (hempty : bs = [] → get m r.head signature ≠ valid)
    (hrun : regionAllocate r fuel m size = some (m', some p)) :
    (bs = [] ∧ m' = initHead m r.head size ∧ p = r.head + AllocNode.size ∧
        (r.head + size) % 2 ^ 64 < r.regionEnd) ∨
      (∃ ws us, bs = ws ++ ⟨size, false⟩ :: us ∧ m' = set m (r.head + extent ws) inUse 1 ∧
        p = r.head + extent ws + AllocNode.size) ∨
      ∃ ws c, bs = ws ++ [c] ∧ ⟨size, false⟩ ∉ bs ∧
        m' = linkNode m (r.head + extent ws) (r.head + extent bs) size ∧
        p = r.head + extent bs + AllocNode.size ∧
        (r.head + extent bs + size) % 2 ^ 64 < r.regionEnd := by
  unfold regionAllocate at hrun
  cases bs with
  | nil =>
    rw [if_pos (hempty rfl)] at hrun
    simp only at hrun
    split at hrun
    · exact absurd (Prod.mk.inj (Option.some.inj hrun)).2 (by simp)
    · rename_i hend
      obtain ⟨rfl, hp⟩ := Prod.mk.inj (Option.some.inj hrun)
      exact Or.inl ⟨rfl, rfl, (Option.some.inj hp).symm, Nat.lt_of_not_le hend⟩
  | cons b bs =>
    have hsignature : get m r.head signature = valid := hchain.1.signature
    rw [if_neg (not_not_intro hsignature)] at hrun
    obtain ⟨found, hsearch, heq⟩ := Option.map_eq_some_iff.mp hrun
    have hfirst : search m size fuel (r.head + extent []) = some found := hsearch
    right
    rcases search_spec r.positive hextent hchain hfirst with ⟨ws, us, hlist, rfl⟩ |
      ⟨ws, c, hlist, rfl, hnot⟩
    · obtain ⟨rfl, hp⟩ := Prod.mk.inj heq
      exact Or.inl ⟨ws, us, hlist, rfl, (Option.some.inj hp).symm⟩
    · rw [List.nil_append] at hlist
      have hnew : behind m (r.head + extent ws) = r.head + extent (b :: bs) := by
        rw [hlist] at hchain hextent ⊢
        exact behind_last hextent hstart hchain
      simp only [hnew] at heq
      split at heq
      · exact absurd (Prod.mk.inj heq).2 (by simp)
      · rename_i hend
        obtain ⟨rfl, hp⟩ := Prod.mk.inj heq
        exact Or.inr ⟨ws, c, hlist, hnot, rfl, (Option.some.inj hp).symm, Nat.lt_of_not_le hend⟩

/-- A block that is reused adds its payload. -/
theorem payloads_reuse {s : ℕ} {ws us : List Block} :
    (payloads s (ws ++ ⟨size, true⟩ :: us)).Perm
      ((s + extent ws + AllocNode.size, size) :: payloads s (ws ++ ⟨size, false⟩ :: us)) := by
  simp only [payloads_append, payloads, if_true, Bool.false_eq_true, if_false, List.nil_append,
    List.singleton_append]
  exact List.perm_middle

/-- A new last block adds its payload. -/
theorem payloads_concat {s : ℕ} :
    (payloads s (bs ++ [⟨size, true⟩])).Perm
      ((s + extent bs + AllocNode.size, size) :: payloads s bs) := by
  rw [payloads_append]
  exact List.perm_append_singleton _ _

/-- A request that succeeds adds a payload. The blocks are within the region exactly if the
condition holds, and then only their headers are touched. -/
theorem Region.Holds.allocate (h : r.Holds m bs) (hsize : size < 2 ^ 31)
    (hrun : regionAllocate r fuel m size = some (m', some p)) :
    ∃ bs', Chain m' r.head bs' 0 ∧ Tight bs' ∧ bs' ≠ [] ∧
      (payloads r.head bs').Perm ((p, size) :: payloads r.head bs) ∧
      Touches m m' (starts r.head bs') ∧
      (p + size ≤ r.regionEnd ↔ r.RoomFor m size) ∧
      (r.RoomFor m size → r.head + extent bs' ≤ r.regionEnd) := by
  have hstart : r.head < 2 ^ 63 := by
    have hfits := h.fits
    have hbound := r.bound
    omega
  have hfits := h.fits
  have hbound := r.bound
  rcases regionAllocate_cases hstart h.extent_lt h.chain h.empty hrun with ⟨rfl, rfl, rfl, _⟩ |
    ⟨ws, us, rfl, rfl, rfl⟩ | ⟨ws, c, rfl, hnot, rfl, rfl, _⟩
  · refine ⟨[⟨size, true⟩], chain_initHead hsize, ⟨List.isChain_singleton _, by simp⟩, by simp,
      by simp [payloads], touches_initHead, h.roomFor_nil.symm, fun hroom => ?_⟩
    have := h.roomFor_nil.mp hroom
    simp only [extent_cons, extent_nil, Block.span]
    omega
  · have hroom : r.RoomFor m size := (h.roomFor_iff (by simp)).mpr fun hnot => absurd (by simp) hnot
    have hextent : extent (ws ++ ⟨size, true⟩ :: us) = extent (ws ++ ⟨size, false⟩ :: us) := by
      simp [Block.span]
    refine ⟨ws ++ ⟨size, true⟩ :: us, chain_setUse (v := true) h.chain, h.tight.reuse, by simp,
      payloads_reuse, ?_, iff_of_true ?_ hroom, fun _ => by omega⟩
    · exact (touches_set (by decide)).mono (by simp [starts_append, starts])
    · simp only [extent_append, extent_cons, Block.span] at hfits
      omega
  · have hroom : r.RoomFor m size ↔ _ := h.roomFor_iff (by simp)
    have hend : r.RoomFor m size ↔
        r.head + extent (ws ++ [c]) + AllocNode.size + size ≤ r.regionEnd :=
      ⟨fun hh => hroom.mp hh hnot, fun hh => hroom.mpr fun _ => hh⟩
    refine ⟨ws ++ [c] ++ [⟨size, true⟩], chain_linkNode hsize (by omega) h.chain,
      h.tight.concat, by simp, payloads_concat, ?_, hend.symm, fun hh => ?_⟩
    · exact touches_linkNode.mono (by simp [starts_append, starts, Nat.add_assoc])
    · have := hend.mp hh
      simp only [extent_append, extent_cons, extent_nil, Block.span] at this ⊢
      omega

end SimpleOs.Kernal
