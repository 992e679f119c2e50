import SimpleOs.Heap.Interference

/-!
# Pages charged for the heap

A thread may touch the pages it has been charged for. The charge is right when a
first block is made for the first time, but a first block that is made again is not
charged, and a new last block is charged as if the page in which its payload begins
had been paid for.
-/

namespace SimpleOs.Heap

open Bytes AllocNode

variable {L : Layout} {tid fuel size : ℕ} {bs : List Block} {h h' : Arena}

/-! ## Runs of a thread among others -/

/-- What happens to the pages of a thread. -/
inductive ChargeEvent where
  /-- The thread calls `myallocate` with a size. -/
  | allocate (size : ℕ)
  /-- The thread calls `mydeallocate` with a pointer. -/
  | free (ptr : ℕ)
  /-- A write to a byte of a block in use. -/
  | write (a : ℕ) (v : UInt8)
  /-- Other threads are charged for pages or exit. -/
  | others (pagesLeft : ℕ)

/-- The pages at the start, `int pagesLeft = 5500`. -/
def pagesAtStart : ℕ := 5500

/-- There is a block at `a`, if the first header is marked as one. -/
def HasBlock (L : Layout) (m : Memory) (a : ℕ) : Prop :=
  get m L.schedulerEnd signature = valid ∧ Listed m L.schedulerEnd a

/-- One event. The pages that all threads together have been charged for, and those
left, are those at the start. -/
def ChargeStep (L : Layout) (tid : ℕ) (h : Arena) (e : ChargeEvent) (h' : Arena) : Prop :=
  match e with
  | .allocate size => size < L.regionSize ∧ ∃ fuel r, myallocate L tid fuel h size = some (h', r)
  | .free ptr => ∃ fuel, mydeallocate L fuel h ptr = some h'
  | .write a v => (∃ node, HasBlock L h.mem node ∧ get h.mem node inUse ≠ 0 ∧
      InPayload (node + AllocNode.size, capacityOf h.mem node) a) ∧
      h' = { h with mem := Function.update h.mem a v }
  | .others pagesLeft => pageCount L tid h.mem + pagesLeft ≤ pagesAtStart ∧
      h' = { h with pagesLeft := pagesLeft }

/-- Every byte of every block is in a page that the thread has been charged for. -/
def Covered (L : Layout) (tid : ℕ) (m : Memory) : Prop :=
  ∀ a, HasBlock L m a → ∀ c, a ≤ c → c < a + AllocNode.size + capacityOf m a →
    c < L.schedulerEnd + pageCount L tid m * L.PAGE_SIZE

/-- The condition on an allocation that makes a first block again: it fits in the pages
charged before. -/
def FirstCovered (L : Layout) (tid : ℕ) (h : Arena) (size : ℕ) : Prop :=
  pageCount L tid h.mem ≠ 0 → get h.mem L.schedulerEnd signature ≠ valid →
    AllocNode.size + size ≤ pageCount L tid h.mem * L.PAGE_SIZE

/-- The condition on an allocation that makes a new last block, if no free block has
the right size, the new one fits in the region and enough pages are left: the page in
which its payload begins has been charged, or the block ends where a page ends. -/
def LastCovered (L : Layout) (tid : ℕ) (h : Arena) (size : ℕ) : Prop :=
  (∃ a, HasBlock L h.mem a ∧ get h.mem a inUse = 0 ∧ capacityOf h.mem a = size) ∨
    ∀ last, HasBlock L h.mem last → get h.mem last next = 0 →
      let payload := behind h.mem last + AllocNode.size
      payload + size < L.endOfPages →
        countPages L.PAGE_SIZE (L.PAGE_SIZE - payload % L.PAGE_SIZE) size (size + 1) 0 ≤
          h.pagesLeft →
        payload < L.schedulerEnd + pageCount L tid h.mem * L.PAGE_SIZE ∨
          L.PAGE_SIZE ∣ payload + size

/-- The condition on a free: the code refuses it, or it frees a block of the list and
follows right links. -/
def FreeExact (L : Layout) (m : Memory) (ptr : ℕ) : Prop :=
  (ptr < L.schedulerEnd ∨ L.endOfPages ≤ ptr ∨ get m (ptr - AllocNode.size) signature ≠ valid ∨
    get m (ptr - AllocNode.size) inUse = 0) ∨
    HasBlock L m (ptr - AllocNode.size) ∧
      FollowsExact m L.schedulerEnd (ptr - AllocNode.size)

/-- The condition on an event. -/
def ChargeSafe (L : Layout) (tid : ℕ) (h : Arena) : ChargeEvent → Prop
  | .allocate size => 0 < size → FirstCovered L tid h size ∧ LastCovered L tid h size
  | .free ptr => FreeExact L h.mem ptr
  | .write a _ => a < L.countAddr tid ∨ L.countAddr tid + threadPageCount.width ≤ a
  | .others _ => True

/-- The states reached by events that meet `ok`, from one in which the thread has no
pages and its first page reads as zero. -/
def ChargeReach (L : Layout) (tid : ℕ) (ok : Arena → ChargeEvent → Prop) : Arena → Prop :=
  Runs.Reach (fun h => pageCount L tid h.mem = 0 ∧ h.pagesLeft ≤ pagesAtStart ∧
    ∀ c, L.schedulerEnd ≤ c → c < L.schedulerEnd + L.PAGE_SIZE → h.mem c = 0)
    (ChargeStep L tid) ok

/-! ## Counting pages -/

/-- The loops that count pages stop at the first number of pages that is enough. -/
theorem countPages_spec {PAGE_SIZE space n : ℕ}
    (hfuel : size < (n + fuel) * PAGE_SIZE + space) :
    n ≤ countPages PAGE_SIZE space size fuel n ∧
      size < countPages PAGE_SIZE space size fuel n * PAGE_SIZE + space ∧
      (countPages PAGE_SIZE space size fuel n = n ∨
        (countPages PAGE_SIZE space size fuel n - 1) * PAGE_SIZE + space ≤ size) := by
  induction fuel generalizing n with
  | zero => exact ⟨le_rfl, hfuel, Or.inl rfl⟩
  | succ fuel ih =>
    unfold countPages
    split
    · rename_i hle
      have hnext := ih (n := n + 1) (by rwa [Nat.add_right_comm, Nat.add_assoc])
      refine ⟨by omega, hnext.2.1, Or.inr ?_⟩
      rcases hnext.2.2 with heq | hlt
      · rw [heq, Nat.add_sub_cancel]
        exact hle
      · exact hlt
    · rename_i hlt
      exact ⟨le_rfl, by omega, Or.inl rfl⟩

/-- The pages for a payload, counted from the page behind the one in which it begins. -/
theorem lastPages_spec {PAGE_SIZE : ℕ} (hpositive : 0 < PAGE_SIZE) (payload size : ℕ) :
    size < countPages PAGE_SIZE (PAGE_SIZE - payload % PAGE_SIZE) size (size + 1) 0 * PAGE_SIZE +
        (PAGE_SIZE - payload % PAGE_SIZE) ∧
      (countPages PAGE_SIZE (PAGE_SIZE - payload % PAGE_SIZE) size (size + 1) 0 = 0 ∨
        (countPages PAGE_SIZE (PAGE_SIZE - payload % PAGE_SIZE) size (size + 1) 0 - 1) *
          PAGE_SIZE + (PAGE_SIZE - payload % PAGE_SIZE) ≤ size) := by
  have hfuel : size + 1 ≤ (size + 1) * PAGE_SIZE := Nat.le_mul_of_pos_right _ hpositive
  exact (countPages_spec (by rw [Nat.zero_add]; omega)).2

/-- The pages for a first block, at least one. -/
theorem firstPages_spec {PAGE_SIZE : ℕ} (hpositive : 0 < PAGE_SIZE) (size : ℕ) :
    size < countPages PAGE_SIZE 0 size (size + 1) 1 * PAGE_SIZE ∧
      countPages PAGE_SIZE 0 size (size + 1) 1 * PAGE_SIZE ≤ size + PAGE_SIZE := by
  have hfuel : 1 + (size + 1) ≤ (1 + (size + 1)) * PAGE_SIZE := Nat.le_mul_of_pos_right _ hpositive
  obtain ⟨hpos, hfits, hleast⟩ := countPages_spec
    (show size < (1 + (size + 1)) * PAGE_SIZE + 0 by omega)
  generalize countPages PAGE_SIZE 0 size (size + 1) 1 = n at *
  obtain ⟨k, rfl⟩ := Nat.exists_eq_add_of_le' hpos
  rw [Nat.add_mul, Nat.one_mul] at hfits ⊢
  refine ⟨by omega, ?_⟩
  rcases hleast with hone | hle
  · obtain rfl : k = 0 := by omega
    omega
  · rw [Nat.add_sub_cancel] at hle
    omega

/-- What a charge does to the counts. -/
theorem charge_counts {n : ℕ} (hrun : charge L tid h n = some h') :
    pageCount L tid h'.mem = (pageCount L tid h.mem + n) % 2 ^ 32 ∧
      h'.pagesLeft = h.pagesLeft - n ∧ 0 ≤ h'.pagesLeft := by
  unfold charge at hrun
  split at hrun
  · exact absurd hrun (by simp)
  · rename_i hleft
    rw [← Option.some.inj hrun]
    refine ⟨get_set_self, rfl, ?_⟩
    simp only
    omega

/-! ## The invariant -/

/-- The invariant of the runs: the thread has been charged for the pages of its blocks `bs`. -/
structure Charged (L : Layout) (tid : ℕ) (h : Arena) (bs : List Block) : Prop where
  /-- The region holds the blocks. -/
  formed : Formed L h.mem bs
  /-- The blocks are within the pages charged. -/
  covered : extent bs ≤ pageCount L tid h.mem * L.PAGE_SIZE
  /-- The thread has not been charged for more than there is. -/
  total : pageCount L tid h.mem + h.pagesLeft ≤ pagesAtStart

/-- A header of the list is that of a block. -/
theorem Formed.block {m : Memory} {a : ℕ} (hformed : Formed L m bs) (ha : HasBlock L m a) :
    ∃ xs b ys, bs = xs ++ b :: ys ∧ a = L.schedulerEnd + extent xs ∧
      Header m a b (if ys = [] then 0 else a + b.span) ∧ capacityOf m a = b.cap := by
  have hbs : bs ≠ [] := fun hnil => hformed.empty hnil ha.1
  exact ha.2.header hformed.fits.bounds.1 hformed.chain hbs

/-- Every block of the region is one of the list. -/
theorem Formed.hasBlock {m : Memory} {b : Block} {xs ys : List Block}
    (hformed : Formed L m (xs ++ b :: ys)) : HasBlock L m (L.schedulerEnd + extent xs) :=
  ⟨hformed.chain.signature_eq (by simp),
    listed_of_chain L.schedulerEnd_bound.1 hformed.chain⟩

/-- The blocks are covered exactly if they are within the pages charged. -/
theorem Formed.covered_iff {m : Memory} (hformed : Formed L m bs) :
    Covered L tid m ↔ extent bs ≤ pageCount L tid m * L.PAGE_SIZE := by
  constructor
  · intro hcovered
    rcases List.eq_nil_or_concat bs with rfl | ⟨xs, b, rfl⟩
    · exact Nat.zero_le _
    · rw [List.concat_eq_append] at hformed ⊢
      have hblock := hformed.hasBlock
      obtain ⟨ws, d, us, hlist, haddr, _, hcap⟩ := hformed.block hblock
      have hsame : xs = ws := prefix_unique hlist (by omega)
      subst hsame
      obtain ⟨rfl, _⟩ := List.cons.inj (List.append_cancel_left hlist)
      have hlast := hcovered _ hblock (L.schedulerEnd + extent (xs ++ [b]) - 1)
      rw [hcap] at hlast
      simp only [extent_append, extent_cons, extent_nil, Block.span, AllocNode.size] at hlast ⊢
      omega
  · intro hle a ha c hac hc
    obtain ⟨xs, b, ys, rfl, rfl, _, hcap⟩ := hformed.block ha
    rw [hcap] at hc
    simp only [extent_append, extent_cons, Block.span] at hle
    omega

/-- The first condition says something if there are no blocks. -/
theorem Formed.firstCovered_iff (hformed : Formed L h.mem bs) :
    FirstCovered L tid h size ↔
      (bs = [] → pageCount L tid h.mem ≠ 0 →
        AllocNode.size + size ≤ pageCount L tid h.mem * L.PAGE_SIZE) := by
  constructor
  · intro hfirst hbs hcount
    exact hfirst hcount (hformed.empty hbs)
  · intro hfirst hcount hsignature
    refine hfirst ?_ hcount
    by_contra hbs
    exact hsignature (hformed.chain.signature_eq hbs)

/-- What a request asks of the address of the payload of a new last block, if no free block
has the right size, the new one fits in the region and enough pages are left. -/
def OnLast (L : Layout) (h : Arena) (size : ℕ) (R : ℕ → Prop) : Prop :=
  (∃ a, HasBlock L h.mem a ∧ get h.mem a inUse = 0 ∧ capacityOf h.mem a = size) ∨
    ∀ last, HasBlock L h.mem last → get h.mem last next = 0 →
      let payload := behind h.mem last + AllocNode.size
      payload + size < L.endOfPages →
        countPages L.PAGE_SIZE (L.PAGE_SIZE - payload % L.PAGE_SIZE) size (size + 1) 0 ≤
          h.pagesLeft →
        R payload

/-- In a region with blocks the new one is made behind them. -/
theorem Formed.onLast_iff {R : ℕ → Prop} (hformed : Formed L h.mem bs) (hbs : bs ≠ []) :
    OnLast L h size R ↔
      (⟨size, false⟩ ∉ bs → L.schedulerEnd + extent bs + AllocNode.size + size < L.endOfPages →
        countPages L.PAGE_SIZE (L.PAGE_SIZE - (L.schedulerEnd + extent bs + AllocNode.size) %
          L.PAGE_SIZE) size (size + 1) 0 ≤ h.pagesLeft →
        R (L.schedulerEnd + extent bs + AllocNode.size)) := by
  obtain ⟨hextent, _, hstart⟩ := hformed.fits.bounds
  have hsignature := hformed.chain.signature_eq hbs
  have hpositive := L.schedulerEnd_bound.1
  simp only [OnLast, HasBlock, hsignature, true_and]
  rw [exists_free_iff hpositive hextent hformed.chain hbs,
    forall_last_iff (P := fun a => a + AllocNode.size + size < L.endOfPages →
      countPages L.PAGE_SIZE (L.PAGE_SIZE - (a + AllocNode.size) % L.PAGE_SIZE) size (size + 1) 0 ≤
        h.pagesLeft → R (a + AllocNode.size)) hpositive hstart hextent hformed.chain hbs,
    or_iff_not_imp_left]

/-- In a region without blocks nothing is asked. -/
theorem Formed.onLast_nil {R : ℕ → Prop} (hformed : Formed L h.mem bs) (hbs : bs = []) :
    OnLast L h size R :=
  Or.inr fun _ hblock => absurd hblock.1 (hformed.empty hbs)

/-- The second condition says something if no free block has the right size. -/
theorem Formed.lastCovered_iff (hformed : Formed L h.mem bs) (hbs : bs ≠ []) :
    LastCovered L tid h size ↔
      (⟨size, false⟩ ∉ bs → L.schedulerEnd + extent bs + AllocNode.size + size < L.endOfPages →
        countPages L.PAGE_SIZE (L.PAGE_SIZE - (L.schedulerEnd + extent bs + AllocNode.size) %
          L.PAGE_SIZE) size (size + 1) 0 ≤ h.pagesLeft →
        L.schedulerEnd + extent bs + AllocNode.size <
            L.schedulerEnd + pageCount L tid h.mem * L.PAGE_SIZE ∨
          L.PAGE_SIZE ∣ L.schedulerEnd + extent bs + AllocNode.size + size) :=
  hformed.onLast_iff (R := fun payload =>
    payload < L.schedulerEnd + pageCount L tid h.mem * L.PAGE_SIZE ∨
      L.PAGE_SIZE ∣ payload + size) hbs

/-- The second condition says nothing if there are no blocks. -/
theorem Formed.lastCovered_nil (hformed : Formed L h.mem bs) (hbs : bs = []) :
    LastCovered L tid h size :=
  hformed.onLast_nil (R := fun payload =>
    payload < L.schedulerEnd + pageCount L tid h.mem * L.PAGE_SIZE ∨
      L.PAGE_SIZE ∣ payload + size) hbs

/-! ## Allocation -/

/-- A thread with blocks has been charged before. -/
theorem Charged.count_ne_zero (hc : Charged L tid h bs) (hbs : bs ≠ []) :
    pageCount L tid h.mem ≠ 0 := by
  intro hzero
  have hcovered := hc.covered
  rw [hzero] at hcovered
  cases bs with
  | nil => exact hbs rfl
  | cons b bs =>
    simp only [extent_cons, Block.span, AllocNode.size] at hcovered
    omega

/-- A thread that has been charged is not charged at the beginning of a call. -/
theorem chargeFirst_eq (hcount : pageCount L tid h.mem ≠ 0) :
    chargeFirst L tid h size = some h := if_neg hcount

/-- A charge raises the thread's count, and the count with the pages left stays within the total. -/
theorem charge_total {n : ℕ} (htotal : pageCount L tid h.mem + h.pagesLeft ≤ pagesAtStart)
    (hrun : charge L tid h n = some h') :
    pageCount L tid h'.mem = pageCount L tid h.mem + n ∧
      pageCount L tid h'.mem + h'.pagesLeft ≤ pagesAtStart := by
  obtain ⟨hcount, hpages, hleft⟩ := charge_counts hrun
  unfold pagesAtStart at htotal ⊢
  rw [Nat.mod_eq_of_lt (by omega)] at hcount
  omega

/-- The first charge holds the block, and at most one page more. -/
theorem chargeFirst_total (hcount : pageCount L tid h.mem = 0)
    (htotal : pageCount L tid h.mem + h.pagesLeft ≤ pagesAtStart)
    (hrun : chargeFirst L tid h size = some h') :
    AllocNode.size + size < pageCount L tid h'.mem * L.PAGE_SIZE ∧
      pageCount L tid h'.mem * L.PAGE_SIZE ≤ AllocNode.size + size + L.PAGE_SIZE ∧
      pageCount L tid h'.mem + h'.pagesLeft ≤ pagesAtStart := by
  have hzero : get h.mem (L.countAddr tid) threadPageCount = 0 := hcount
  unfold chargeFirst at hrun
  rw [if_pos hzero] at hrun
  split at hrun
  · exact absurd hrun (by simp)
  · obtain ⟨hcount', htotal'⟩ := charge_total htotal hrun
    rw [hcount, Nat.zero_add] at hcount'
    obtain ⟨hfits, hover⟩ := firstPages_spec L.positive (size + AllocNode.size)
    have hpages : pageCount L tid h'.mem =
        countPages L.PAGE_SIZE 0 (size + AllocNode.size) (size + AllocNode.size + 1) 1 := hcount'
    rw [hpages] at htotal' ⊢
    exact ⟨by omega, by omega, htotal'⟩

/-- The end of a new last block in the pages charged before and for it: the pages are
whole, and those charged for it are counted from the page behind the one in which its
payload begins. -/
theorem last_covered_iff {start E count n : ℕ} (haligned : 4096 ∣ start)
    (hcovered : E ≤ count * 4096) (hpos : 0 < size)
    (hfits : size < n * 4096 + (4096 - (start + E + AllocNode.size) % 4096))
    (hleast : n = 0 ∨ (n - 1) * 4096 + (4096 - (start + E + AllocNode.size) % 4096) ≤ size) :
    E + AllocNode.size + size ≤ (count + n) * 4096 ↔
      start + E + AllocNode.size < start + count * 4096 ∨
        4096 ∣ start + E + AllocNode.size + size := by
  unfold AllocNode.size at *
  omega

/-- The region begins where a page begins. -/
theorem Layout.schedulerEnd_aligned (L : Layout) : L.PAGE_SIZE ∣ L.schedulerEnd := by
  unfold schedulerEnd kernalEnd
  exact Nat.dvd_add (Nat.dvd_add L.aligned (Nat.dvd_mul_left _ _)) (Nat.dvd_mul_left _ _)

/-- A call that makes no block changes nothing. Either there are no blocks and the first
charge is refused, or a new last block does not fit in the region, or too few pages are left. -/
theorem Formed.refused (hformed : Formed L h.mem bs)
    (hcharged : bs ≠ [] → pageCount L tid h.mem ≠ 0) (hpos : 0 < size)
    (hrun : myallocate L tid fuel h size = some (h', none)) :
    h' = h ∧ (bs = [] ∧ pageCount L tid h.mem = 0 ∨ bs ≠ [] ∧
      (L.schedulerEnd + extent bs + AllocNode.size + size < L.endOfPages →
        ¬ (countPages L.PAGE_SIZE (L.PAGE_SIZE - (L.schedulerEnd + extent bs + AllocNode.size) %
          L.PAGE_SIZE) size (size + 1) 0 : ℕ) ≤ h.pagesLeft)) := by
  obtain ⟨hextent, _, hstart⟩ := hformed.fits.bounds
  have hformed₁ (h₁ : Arena) (hcharge : chargeFirst L tid h size = some h₁) :
      Formed L h₁.mem bs := hformed.of_count (chargeFirst_touches hcharge)
  rcases myallocate_cases hpos hextent (fun h₁ hh => (hformed₁ h₁ hh).chain)
    (fun h₁ hh => (hformed₁ h₁ hh).empty) hrun with ⟨hcharge, heq, _⟩ | ⟨h₁, hcharge, hways⟩
  · have hcount : pageCount L tid h.mem = 0 := by
      by_contra hcount
      exact absurd (hcharge.symm.trans (chargeFirst_eq hcount)) (by simp)
    have hbs : bs = [] := by
      by_contra hbs
      exact hcharged hbs hcount
    exact ⟨heq, Or.inl ⟨hbs, hcount⟩⟩
  rcases hways with ⟨_, _, hp⟩ | ⟨_, _, _, _, hp⟩ | ⟨xs, b, rfl, _, happend⟩
  · exact absurd hp (by simp)
  · exact absurd hp (by simp)
  have hne : xs ++ [b] ≠ [] := by simp
  obtain rfl := Option.some.inj ((chargeFirst_eq (hcharged hne)).symm.trans hcharge)
  rcases append_cases (behind_last hextent hstart hformed.chain) happend with
    ⟨heq, _, hfull⟩ | ⟨_, _, _, _, hp⟩
  · refine ⟨heq, Or.inr ⟨hne, fun hfits hleft => ?_⟩⟩
    have hcharge := hfull hfits
    unfold charge at hcharge
    rw [if_neg (by omega)] at hcharge
    exact absurd hcharge (by simp)
  · exact absurd hp (by simp)

/-- The conditions on a call that makes no block say nothing. -/
theorem Charged.allocate_null (hc : Charged L tid h bs)
    (hrun : myallocate L tid fuel h size = some (h', none)) :
    h' = h ∧ ChargeSafe L tid h (.allocate size) := by
  by_cases hzero : size = 0
  · rw [myallocate, if_pos hzero] at hrun
    exact ⟨(Prod.mk.inj (Option.some.inj hrun)).1.symm, fun hpos => absurd hzero (by omega)⟩
  obtain ⟨heq, hways⟩ := hc.formed.refused hc.count_ne_zero (Nat.pos_of_ne_zero hzero) hrun
  refine ⟨heq, fun _ => ?_⟩
  rcases hways with ⟨hnil, hcount⟩ | ⟨hne, hfull⟩
  · exact ⟨fun hpos => absurd hcount hpos, hc.formed.lastCovered_nil hnil⟩
  · refine ⟨hc.formed.firstCovered_iff.mpr fun hnil => absurd hnil hne, ?_⟩
    apply (hc.formed.lastCovered_iff hne).mpr
    exact fun _ hfits hleft => absurd hleft (hfull hfits)

/-- After a call of `myallocate` the blocks are within the pages charged exactly if the
conditions on the call hold. -/
theorem Charged.allocate {r : Option ℕ} (hpage : L.PAGE_SIZE = 4096) (hc : Charged L tid h bs)
    (hsize : size < L.regionSize) (hrun : myallocate L tid fuel h size = some (h', r)) :
    ∃ bs', Formed L h'.mem bs' ∧ pageCount L tid h'.mem + h'.pagesLeft ≤ pagesAtStart ∧
      (extent bs' ≤ pageCount L tid h'.mem * L.PAGE_SIZE ↔
        ChargeSafe L tid h (.allocate size)) := by
  cases r with
  | none =>
    obtain ⟨rfl, hsafe⟩ := hc.allocate_null hrun
    exact ⟨bs, hc.formed, hc.total, iff_of_true hc.covered hsafe⟩
  | some p =>
    have hpos := myallocate_pos hrun
    have hsafe : ChargeSafe L tid h (.allocate size) ↔
        FirstCovered L tid h size ∧ LastCovered L tid h size := ⟨fun hh => hh hpos, fun hh _ => hh⟩
    obtain ⟨bs', hformed', _, _, hplaced, _⟩ := hc.formed.allocate hsize hrun
    refine ⟨bs', hformed', ?_⟩
    rw [hsafe]
    cases hplaced with
    | first h₁ hnil hextent hcharge hcount hpages =>
      rw [hextent, hcount, hpages, hc.formed.firstCovered_iff,
        and_iff_left (hc.formed.lastCovered_nil hnil)]
      by_cases hzero : pageCount L tid h.mem = 0
      · obtain ⟨hfits, _, htotal⟩ := chargeFirst_total hzero hc.total hcharge
        exact ⟨htotal, iff_of_true hfits.le fun _ hne => absurd hzero hne⟩
      · obtain rfl := Option.some.inj ((chargeFirst_eq hzero).symm.trans hcharge)
        exact ⟨hc.total, fun hfits _ _ => hfits, fun hfirst => hfirst hnil hzero⟩
    | reused h₁ hmem hextent hcharge hcount hpages =>
      have hne : bs ≠ [] := List.ne_nil_of_mem hmem
      obtain rfl := Option.some.inj
        ((chargeFirst_eq (hc.count_ne_zero hne)).symm.trans hcharge)
      rw [hextent, hcount, hpages, hc.formed.firstCovered_iff, hc.formed.lastCovered_iff hne]
      exact ⟨hc.total, iff_of_true hc.covered
        ⟨fun hnil => absurd hnil hne, fun hnot => absurd hmem hnot⟩⟩
    | last h₁ h₂ hne hnot hfits hextent hcharge hcharge₂ hcount hpages =>
      obtain rfl := Option.some.inj
        ((chargeFirst_eq (hc.count_ne_zero hne)).symm.trans hcharge)
      obtain ⟨_, hpages₂, hleft⟩ := charge_counts hcharge₂
      obtain ⟨hcount₂, htotal⟩ := charge_total hc.total hcharge₂
      rw [hextent, hcount, hpages, hc.formed.firstCovered_iff, hc.formed.lastCovered_iff hne]
      refine ⟨htotal, ?_⟩
      have hcovered := hc.covered
      rw [hpage] at hcount₂ hpages₂ hcovered ⊢
      obtain ⟨hlt, hleast⟩ := lastPages_spec (show 0 < 4096 by decide)
        (L.schedulerEnd + extent bs + AllocNode.size) size
      rw [hcount₂, last_covered_iff (hpage ▸ L.schedulerEnd_aligned) hcovered hpos hlt hleast]
      constructor
      · exact fun hend => ⟨fun hnil => absurd hnil hne, fun _ _ _ => hend⟩
      · exact fun hend => hend.2 hnot hfits (by omega)

/-! ## The other events -/

/-- Writes outside the page count do not change it. -/
theorem pageCount_congr {m m' : Memory}
    (h : ∀ c, L.countAddr tid ≤ c → c < L.countAddr tid + threadPageCount.width → m' c = m c) :
    pageCount L tid m' = pageCount L tid m := load_congr h

/-- The payload behind a header of the list that is in use. -/
theorem Formed.mem_payloads {m : Memory} {node : ℕ} (hformed : Formed L m bs)
    (hblock : HasBlock L m node) (hused : get m node inUse ≠ 0) :
    (node + AllocNode.size, capacityOf m node) ∈ payloads L.schedulerEnd bs := by
  obtain ⟨xs, b, ys, rfl, rfl, hheader, hcap⟩ := hformed.block hblock
  have hb : b.used = true := by
    cases hb : b.used
    · exact absurd (by rw [hheader.used, hb]; rfl) hused
    · rfl
  rw [hcap, payloads_append, payloads, if_pos hb]
  simp

/-- A free that meets the condition is refused, or it is that of a block of the list. -/
theorem FreeExact.cases {ptr : ℕ} (hok : FreeExact L h.mem ptr)
    (hrun : mydeallocate L fuel h ptr = some h') :
    h' = h ∨ HasBlock L h.mem (ptr - AllocNode.size) ∧
      FollowsExact h.mem L.schedulerEnd (ptr - AllocNode.size) ∧
      get h.mem (ptr - AllocNode.size) inUse ≠ 0 := by
  simp only [mydeallocate] at hrun
  split at hrun
  · exact Or.inl (Option.some.inj hrun).symm
  split at hrun
  · exact Or.inl (Option.some.inj hrun).symm
  split at hrun
  · exact Or.inl (Option.some.inj hrun).symm
  · rename_i hregion hsignature huse
    obtain ⟨hblock, hfollows⟩ := hok.resolve_left (by tauto)
    exact Or.inr ⟨hblock, hfollows, huse⟩

/-- Freeing keeps the region, if the call is refused or follows right links. -/
theorem Formed.free {ptr : ℕ} (hformed : Formed L h.mem bs) (hok : FreeExact L h.mem ptr)
    (hrun : mydeallocate L fuel h ptr = some h') :
    ∃ bs', Formed L h'.mem bs' ∧ extent bs' ≤ extent bs ∧ h'.pagesLeft = h.pagesLeft ∧
      Touches h.mem h'.mem (starts L.schedulerEnd bs) ∧ (bs = [] → bs' = []) := by
  rcases hok.cases hrun with rfl | ⟨hblock, hfollows, huse⟩
  · exact ⟨bs, hformed, le_rfl, rfl, Touches.refl _ _, id⟩
  · have hp := hformed.mem_payloads hblock huse
    have hptr : ptr - AllocNode.size + AllocNode.size = ptr := by
      obtain ⟨_, _, _, _, haddr, _, _⟩ := hformed.block hblock
      have hstart := L.schedulerEnd_bound.1
      omega
    rw [hptr] at hp
    obtain ⟨bs', hformed', _, hextent, hpages, htouch⟩ := hformed.deallocate hp hfollows hrun
    refine ⟨bs', hformed', hextent, hpages, htouch, fun hbs => ?_⟩
    rw [hbs] at hp
    exact absurd hp (by simp [payloads])

/-- Freeing a block keeps the blocks within the pages charged. -/
theorem Charged.free {ptr : ℕ} (hc : Charged L tid h bs) (hok : FreeExact L h.mem ptr)
    (hrun : mydeallocate L fuel h ptr = some h') : ∃ bs', Charged L tid h' bs' := by
  obtain ⟨bs', hformed', hextent, hpages, htouch, _⟩ := hc.formed.free hok hrun
  have hcount : pageCount L tid h'.mem = pageCount L tid h.mem :=
    pageCount_touches htouch fun _ hy => hc.formed.fits.header_le hy
  refine ⟨bs', hformed', ?_, ?_⟩
  · rw [hcount]
    exact hextent.trans hc.covered
  · rw [hcount, hpages]
    exact hc.total

/-- A write to a block in use keeps the region, and the page count if it is elsewhere. -/
theorem Formed.write_used {m : Memory} {node a : ℕ} {v : UInt8} (hformed : Formed L m bs)
    (hblock : HasBlock L m node) (hused : get m node inUse ≠ 0)
    (ha : InPayload (node + AllocNode.size, capacityOf m node) a)
    (hok : a < L.countAddr tid ∨ L.countAddr tid + threadPageCount.width ≤ a) :
    Formed L (Function.update m a v) bs ∧
      pageCount L tid (Function.update m a v) = pageCount L tid m := by
  refine ⟨hformed.write (hformed.mem_payloads hblock hused) ha v, pageCount_congr fun c _ _ => ?_⟩
  exact Function.update_of_ne (by omega) _ _

/-- A write keeps the blocks within the pages charged. -/
theorem Charged.write {node a : ℕ} {v : UInt8} (hc : Charged L tid h bs)
    (hblock : HasBlock L h.mem node) (hused : get h.mem node inUse ≠ 0)
    (ha : InPayload (node + AllocNode.size, capacityOf h.mem node) a)
    (hok : a < L.countAddr tid ∨ L.countAddr tid + threadPageCount.width ≤ a) :
    Charged L tid { h with mem := Function.update h.mem a v } bs := by
  obtain ⟨hformed, hcount⟩ := hc.formed.write_used (v := v) hblock hused ha hok
  refine ⟨hformed, ?_, ?_⟩
  · rw [hcount]
    exact hc.covered
  · rw [hcount]
    exact hc.total

/-! ## Runs -/

/-- An event that meets the condition leaves blocks that are within the pages charged. -/
theorem Charged.step {e : ChargeEvent} (hpage : L.PAGE_SIZE = 4096) (hc : Charged L tid h bs)
    (hok : ChargeSafe L tid h e) (hstep : ChargeStep L tid h e h') :
    ∃ bs', Charged L tid h' bs' := by
  cases e with
  | allocate size =>
    obtain ⟨hsize, fuel, r, hrun⟩ := hstep
    obtain ⟨bs', hformed, htotal, hcovered⟩ := hc.allocate hpage hsize hrun
    exact ⟨bs', hformed, hcovered.mpr hok, htotal⟩
  | free ptr =>
    obtain ⟨fuel, hrun⟩ := hstep
    exact hc.free hok hrun
  | write a v =>
    obtain ⟨⟨node, hblock, hused, ha⟩, rfl⟩ := hstep
    exact ⟨bs, hc.write hblock hused ha hok⟩
  | others pagesLeft =>
    obtain ⟨htotal, rfl⟩ := hstep
    refine ⟨bs, hc.formed, hc.covered, ?_⟩
    change (pageCount L tid h.mem : ℤ) + (pagesLeft : ℤ) ≤ pagesAtStart
    exact_mod_cast htotal

/-- A thread whose first page reads as zero has no first header. -/
theorem signature_of_zero {m : Memory}
    (hzero : ∀ c, L.schedulerEnd ≤ c → c < L.schedulerEnd + L.PAGE_SIZE → m c = 0)
    (hpage : AllocNode.size ≤ L.PAGE_SIZE) : get m L.schedulerEnd signature ≠ valid := by
  have hload : get m L.schedulerEnd signature = 0 := by
    apply load_zero
    intro c hc hlt
    simp only [signature, AllocNode.size] at hc hlt hpage
    exact hzero c (by omega) (by omega)
  rw [hload]
  decide

/-- A header fits in a page of 4096 bytes. -/
theorem Layout.header_le_page (hpage : L.PAGE_SIZE = 4096) : AllocNode.size ≤ L.PAGE_SIZE := by
  rw [hpage]
  decide

/-- In every state that such a run reaches, the blocks are within the pages charged. -/
theorem chargeReach_charged (hpage : L.PAGE_SIZE = 4096)
    (h : ChargeReach L tid (ChargeSafe L tid) h') : ∃ bs, Charged L tid h' bs := by
  refine Runs.Reach.invariant (P := fun h => ∃ bs, Charged L tid h bs) ?_
    (fun _ _ _ ⟨_, hc⟩ hok hstep => hc.step hpage hok hstep) h
  rintro h ⟨hcount, hleft, hzero⟩
  have hsignature := signature_of_zero hzero (Layout.header_le_page hpage)
  refine ⟨[], formed_nil hsignature, ?_, ?_⟩
  · exact Nat.zero_le _
  · rw [hcount]
    simpa using hleft

/-- In every run whose events meet the condition, every byte of every block is in a page
that the thread has been charged for. For a call of `myallocate` after such a run the
condition is exact. -/
theorem charged_pages_cover (L : Layout) (tid : ℕ) (hpage : L.PAGE_SIZE = 4096) :
    (∀ h, ChargeReach L tid (ChargeSafe L tid) h → Covered L tid h.mem) ∧
      ∀ h size h', ChargeReach L tid (ChargeSafe L tid) h →
        ChargeStep L tid h (.allocate size) h' →
          (Covered L tid h'.mem ↔ ChargeSafe L tid h (.allocate size)) := by
  refine ⟨fun h hh => ?_, fun h size h' hh hstep => ?_⟩
  · obtain ⟨bs, hc⟩ := chargeReach_charged hpage hh
    exact hc.formed.covered_iff.mpr hc.covered
  · obtain ⟨bs, hc⟩ := chargeReach_charged hpage hh
    obtain ⟨hsize, fuel, r, hrun⟩ := hstep
    obtain ⟨bs', hformed, _, hcovered⟩ := hc.allocate hpage hsize hrun
    rw [hformed.covered_iff, hcovered]

/-! ## Runs on given inputs -/

/-- Before its first call a thread has not been charged. -/
theorem chargeReach_fresh {ok : Arena → ChargeEvent → Prop} :
    ChargeReach sampleLayout 1 ok freshState.heap :=
  .start ⟨by decide +kernel, by decide, fun _ _ _ => rfl⟩

/-- The theorem at two calls of `myallocate`. -/
theorem charged_pages_cover_twoBlocks : ∃ h h',
    ChargeReach sampleLayout 1 (ChargeSafe sampleLayout 1) h ∧
      ChargeStep sampleLayout 1 h (.allocate 200) h' ∧ pageCount sampleLayout 1 h'.mem = 1 ∧
      Covered sampleLayout 1 h.mem ∧
      (Covered sampleLayout 1 h'.mem ↔ ChargeSafe sampleLayout 1 h (.allocate 200)) := by
  have hrun : ((myallocate sampleLayout 1 10 freshState.heap 100).bind fun r =>
      (myallocate sampleLayout 1 10 r.1 200).map fun r =>
        pageCount sampleLayout 1 r.1.mem) = some 1 := by
    decide +kernel
  obtain ⟨⟨h, r⟩, hfirst, hrun⟩ := Option.bind_eq_some_iff.mp hrun
  obtain ⟨⟨h', r'⟩, hsecond, hcount⟩ := Option.map_eq_some_iff.mp hrun
  have hreach : ChargeReach sampleLayout 1 (ChargeSafe sampleLayout 1) h := by
    refine .step chargeReach_fresh (e := .allocate 100) (fun _ => ⟨fun hne => ?_, ?_⟩)
      ⟨by decide, 10, r, hfirst⟩
    · exact absurd (by decide +kernel) hne
    · exact Or.inr fun _ hblock => absurd hblock.1 (by decide +kernel)
  have hstep : ChargeStep sampleLayout 1 h (.allocate 200) h' := ⟨by decide, 10, r', hsecond⟩
  obtain ⟨hcovered, hexact⟩ := charged_pages_cover sampleLayout 1 rfl
  exact ⟨h, h', hreach, hstep, hcount, hcovered h hreach, hexact h 200 h' hreach hstep⟩

/-- A first block of two pages is freed, and one of five pages is made in its place. The
thread is not charged again. -/
theorem block_outside_charged_pages :
    ∃ h, ChargeReach sampleLayout 1 (fun _ e => ∀ a v, e ≠ .write a v) h ∧
      ¬ Covered sampleLayout 1 h.mem := by
  have hrun : ((myallocate sampleLayout 1 10 freshState.heap 5000).bind fun r =>
      (mydeallocate sampleLayout 10 r.1 897056).bind fun h =>
        (myallocate sampleLayout 1 10 h 20000).map fun r =>
          (get r.1.mem sampleLayout.schedulerEnd signature,
            capacityOf r.1.mem sampleLayout.schedulerEnd, pageCount sampleLayout 1 r.1.mem)) =
      some (valid, 20000, 2) := by
    decide +kernel
  obtain ⟨⟨h₁, r₁⟩, hfirst, hrun⟩ := Option.bind_eq_some_iff.mp hrun
  obtain ⟨h₂, hfree, hrun⟩ := Option.bind_eq_some_iff.mp hrun
  obtain ⟨⟨h₃, r₃⟩, hagain, heq⟩ := Option.map_eq_some_iff.mp hrun
  simp only [Prod.mk.injEq] at heq
  obtain ⟨hsignature, hcap, hcount⟩ := heq
  refine ⟨h₃, .step (.step (.step chargeReach_fresh (e := .allocate 5000) (by simp)
    ⟨by decide, 10, r₁, hfirst⟩) (e := .free 897056) (by simp) ⟨10, hfree⟩)
    (e := .allocate 20000) (by simp) ⟨by decide, 10, r₃, hagain⟩, fun hcovered => ?_⟩
  have hlast := hcovered sampleLayout.schedulerEnd ⟨hsignature, .head⟩ 917055 (by decide) ?_
  · rw [hcount] at hlast
    exact absurd hlast (by decide)
  · rw [hcap]
    decide

end SimpleOs.Heap
