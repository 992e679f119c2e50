import SimpleOs.Heap.Representation

/-!
# Requests of every size

A request is a `size_t`. Sums of a pointer and a size wrap at 2^64, the numbers of pages are
counted in an `int`, and a header keeps the size as an `int`. This file describes `myallocate`
for all sizes, and says for which of them the block is inside the region.
-/

namespace SimpleOs.Heap

open Bytes AllocNode

variable {L : Layout} {tid fuel size p : ℕ} {bs : List Block} {h h' h₁ : Arena}

/-! ## Allocation -/

/-- An `int`, given by its value modulo 2^32 at least, as a `size_t`. -/
def sizeOfInt (x : ℕ) : ℕ :=
  if x % 2 ^ 32 < 2 ^ 31 then x % 2 ^ 32 else x % 2 ^ 32 + (2 ^ 64 - 2 ^ 32)

/-- The loops `for (n = ...; n * PAGE_SIZE + space <= size; n++);`, where the sum is an
`int`. They do not end if `n` runs through all of them. -/
def countPages64 (PAGE_SIZE space size : ℕ) : ℕ → ℕ → Option ℕ
  | 0, _ => none
  | fuel + 1, n =>
    if sizeOfInt (n * PAGE_SIZE + space) ≤ size then
      countPages64 PAGE_SIZE space size fuel (n + 1)
    else some n

/-- The charge for the first pages of a thread, which may be refused. -/
def chargeFirst64 (L : Layout) (currThread : ℕ) (h : Arena) (size : ℕ) : Option (Option Arena) :=
  if get h.mem (L.countAddr currThread) threadPageCount = 0 then
    if (L.schedulerEnd + AllocNode.size + size) % 2 ^ 64 ≥ L.endOfPages then some none
    else (countPages64 L.PAGE_SIZE 0 ((size + AllocNode.size) % 2 ^ 64) (2 ^ 31) 1).map
      (charge L currThread h)
  else some (some h)

/-- A new block behind the last one. -/
def append64 (L : Layout) (currThread : ℕ) (h : Arena) (prevAddr size : ℕ) :
    Option (Arena × Option ℕ) :=
  let newNode := behind h.mem prevAddr
  if (newNode + AllocNode.size + size) % 2 ^ 64 ≥ L.endOfPages then some (h, none)
  else
    let spaceLeftInPage := L.PAGE_SIZE - (newNode + AllocNode.size) % L.PAGE_SIZE
    (countPages64 L.PAGE_SIZE spaceLeftInPage size (2 ^ 31) 0).map fun num_pages_allocating =>
      match charge L currThread h num_pages_allocating with
      | none => (h, none)
      | some h =>
        ({ h with mem := linkNode h.mem prevAddr newNode size }, some (newNode + AllocNode.size))

/-- `myallocate` for a thread and a request of any size. -/
def myallocate64 (L : Layout) (currThread fuel : ℕ) (h : Arena) (size : ℕ) :
    Option (Arena × Option ℕ) :=
  if size = 0 then some (h, none)
  else (chargeFirst64 L currThread h size).bind fun
    | none => some (h, none)
    | some h =>
      if get h.mem L.schedulerEnd signature ≠ valid then
        some ({ h with mem := initHead h.mem L.schedulerEnd size },
          some (L.schedulerEnd + AllocNode.size))
      else (search h.mem size fuel L.schedulerEnd).bind fun
        | .inl temp => some ({ h with mem := set h.mem temp inUse 1 }, some (temp + AllocNode.size))
        | .inr prevAddr => append64 L currThread h prevAddr size

/-! ## Runs -/

/-- One event, in which the sizes of requests are numbers of 64 bits. -/
def SizeStep (L : Layout) (tid : ℕ) (h : Arena) (e : ChargeEvent) (h' : Arena) : Prop :=
  match e with
  | .allocate size => size < 2 ^ 64 ∧ ∃ fuel r, myallocate64 L tid fuel h size = some (h', r)
  | e => ChargeStep L tid h e h'

/-- The condition on a request that makes a first block: if the thread has no pages, the size
of the block with its header is a `size_t`, or no page is left; if it has been charged before,
the block is within the region. -/
def FirstWithin (L : Layout) (tid : ℕ) (h : Arena) (size : ℕ) : Prop :=
  get h.mem L.schedulerEnd signature ≠ valid →
    if pageCount L tid h.mem = 0 then size + AllocNode.size < 2 ^ 64 ∨ h.pagesLeft < 1
    else AllocNode.size + size ≤ L.regionSize

/-- The condition on an event. -/
def SizeSafe (L : Layout) (tid : ℕ) (h : Arena) : ChargeEvent → Prop
  | .allocate size => FirstWithin L tid h size
  | .free ptr => FreeExact L h.mem ptr
  | _ => True

/-- The states reached by events that meet `ok`, from one in which the thread has no pages and
its first page reads as zero. -/
def SizeReach (L : Layout) (tid : ℕ) (ok : Arena → ChargeEvent → Prop) : Arena → Prop :=
  Runs.Reach (fun h => pageCount L tid h.mem = 0 ∧ h.pagesLeft ≤ pagesAtStart ∧
    ∀ c, L.schedulerEnd ≤ c → c < L.schedulerEnd + L.PAGE_SIZE → h.mem c = 0)
    (SizeStep L tid) ok

/-- The block that a call returns, if any, is inside the region, and its header has the size
that was asked for. -/
def ReturnsWithin (L : Layout) (h' : Arena) (size : ℕ) (r : Option ℕ) : Prop :=
  ∀ p, r = some p → L.schedulerEnd + AllocNode.size ≤ p ∧ p + size ≤ L.endOfPages ∧
    capacityOf h'.mem (p - AllocNode.size) = size

/-! ## Counting pages -/

/-- An `int` below 2^31 is the same number as a `size_t`. -/
theorem sizeOfInt_of_lt {x : ℕ} (hx : x < 2 ^ 31) : sizeOfInt x = x := by
  unfold sizeOfInt
  rw [Nat.mod_eq_of_lt (by omega), if_pos hx]

/-- For small sizes the loops end, with the number of pages that is enough. -/
theorem countPages64_eq (fuel : ℕ) {PAGE_SIZE space n fuel' : ℕ} (hint : size + PAGE_SIZE < 2 ^ 31)
    (hn : n * PAGE_SIZE + space ≤ size + PAGE_SIZE) (hfuel : size < (n + fuel) * PAGE_SIZE + space)
    (hfuel' : size < (n + fuel') * PAGE_SIZE + space) :
    countPages64 PAGE_SIZE space size (fuel + 1) n =
      some (countPages PAGE_SIZE space size fuel' n) := by
  induction fuel generalizing n fuel' with
  | zero =>
    rw [Nat.add_zero] at hfuel
    rw [countPages64, sizeOfInt_of_lt (by omega), if_neg (by omega)]
    cases fuel' with
    | zero => rfl
    | succ fuel' => rw [countPages, if_neg (by omega)]
  | succ fuel ih =>
    rw [countPages64, sizeOfInt_of_lt (by omega)]
    split
    · rename_i hle
      have hnext : (n + 1) * PAGE_SIZE + space = n * PAGE_SIZE + space + PAGE_SIZE := by
        rw [Nat.succ_mul]
        omega
      cases fuel' with
      | zero =>
        rw [Nat.add_zero] at hfuel'
        omega
      | succ fuel' =>
        rw [countPages, if_pos hle]
        apply ih
        · omega
        · rwa [Nat.add_right_comm, Nat.add_assoc]
        · rwa [Nat.add_right_comm, Nat.add_assoc]
    · rename_i hlt
      cases fuel' with
      | zero => rfl
      | succ fuel' => rw [countPages, if_neg hlt]

/-- The loops do not end before the first number of pages that is enough. -/
theorem le_countPages64 {PAGE_SIZE space n N r : ℕ}
    (hle : ∀ k, n ≤ k → k < N → sizeOfInt (k * PAGE_SIZE + space) ≤ size)
    (hr : countPages64 PAGE_SIZE space size fuel n = some r) : N ≤ r := by
  induction fuel generalizing n with
  | zero => cases hr
  | succ fuel ih =>
    rw [countPages64] at hr
    split at hr
    · exact ih (fun k hk => hle k (by omega)) hr
    · rename_i hlt
      obtain rfl := Option.some.inj hr
      by_contra hn
      exact hlt (hle _ le_rfl (by omega))

/-- For large sizes they end, if at all, with more pages than there are. -/
theorem pages_lt_countPages64 {space n r : ℕ} (hspace : space ≤ 4096) (hsize : 2 ^ 31 ≤ size)
    (hr : countPages64 4096 space size fuel n = some r) : pagesAtStart < r := by
  have hN : 524287 ≤ r := by
    apply le_countPages64 (fun k _ hk => ?_) hr
    rw [sizeOfInt_of_lt (by omega)]
    omega
  unfold pagesAtStart
  omega

/-- The loop that counts pages ends at once if the next page would be too much. -/
theorem countPages64_stop {PAGE_SIZE space n : ℕ} (hfuel : 0 < fuel)
    (hlt : size < sizeOfInt (n * PAGE_SIZE + space)) :
    countPages64 PAGE_SIZE space size fuel n = some n := by
  obtain ⟨fuel, rfl⟩ := Nat.exists_eq_add_of_le' hfuel
  rw [countPages64, if_neg (by omega)]

/-! ## Small sizes -/

/-- The size of the region, if pages have 4096 bytes. -/
theorem Layout.regionSize_eq (hpage : L.PAGE_SIZE = 4096) : L.regionSize = 6553600 := by
  unfold regionSize
  rw [hpage]

/-- For sizes below that of the region the first charge is as described before. -/
theorem chargeFirst64_eq (hpage : L.PAGE_SIZE = 4096) (hsize : size < L.regionSize) :
    chargeFirst64 L tid h size = some (chargeFirst L tid h size) := by
  obtain ⟨_, hend, hregion⟩ := L.schedulerEnd_bound
  have hends := L.endOfPages_eq
  rw [L.regionSize_eq hpage] at hsize hends
  have hsum : (L.schedulerEnd + AllocNode.size + size) % 2 ^ 64 =
      L.schedulerEnd + AllocNode.size + size := by
    apply Nat.mod_eq_of_lt
    unfold AllocNode.size
    omega
  have hblock : (size + AllocNode.size) % 2 ^ 64 = size + AllocNode.size := by
    apply Nat.mod_eq_of_lt
    unfold AllocNode.size
    omega
  have hcount : countPages64 4096 0 (size + AllocNode.size) (2 ^ 31) 1 =
      some (countPages 4096 0 (size + AllocNode.size) (size + 33) 1) := by
    unfold AllocNode.size
    exact countPages64_eq 2147483647 (by omega) (by omega) (by omega) (by omega)
  unfold chargeFirst64 chargeFirst
  rw [hsum, hblock, hpage, hcount]
  split_ifs
  · rfl
  · rfl
  · rfl

/-- So is the whole call, in a region that holds blocks. -/
theorem Formed.myallocate64_eq (hpage : L.PAGE_SIZE = 4096) (hformed : Formed L h.mem bs)
    (hsize : size < L.regionSize) :
    myallocate64 L tid fuel h size = myallocate L tid fuel h size := by
  obtain ⟨hs, hend, hregion⟩ := L.schedulerEnd_bound
  obtain ⟨hextent, _, hstart⟩ := hformed.fits.bounds
  unfold myallocate64 myallocate
  by_cases hzero : size = 0
  · rw [if_pos hzero, if_pos hzero]
  rw [if_neg hzero, if_neg hzero, chargeFirst64_eq hpage hsize, Option.bind_some]
  cases hcharge : chargeFirst L tid h size with
  | none => rfl
  | some h₁ =>
    have hformed₁ := hformed.of_count (chargeFirst_touches hcharge)
    simp only
    cases bs with
    | nil => rw [if_pos (hformed₁.empty rfl), if_pos (hformed₁.empty rfl)]
    | cons b bs =>
      have hvalid := not_not_intro hformed₁.chain.1.signature
      rw [if_neg hvalid, if_neg hvalid]
      cases hsearch : search h₁.mem size fuel L.schedulerEnd with
      | none => rfl
      | some found =>
        rw [Option.bind_some, Option.map_some]
        have hfirst : search h₁.mem size fuel (L.schedulerEnd + extent []) = some found := hsearch
        rcases search_spec hs hextent hformed₁.chain hfirst with ⟨ws, us, hlist, rfl⟩ |
          ⟨ws, c, hlist, rfl, _⟩
        · rfl
        · rw [List.nil_append] at hlist
          rw [hlist] at hformed₁ hextent
          have hnew : behind h₁.mem (L.schedulerEnd + extent ws) =
              L.schedulerEnd + extent (ws ++ [c]) :=
            behind_last hextent hstart hformed₁.chain
          rw [L.regionSize_eq hpage] at hsize
          have hsum : (L.schedulerEnd + extent (ws ++ [c]) + AllocNode.size + size) % 2 ^ 64 =
              L.schedulerEnd + extent (ws ++ [c]) + AllocNode.size + size := by
            apply Nat.mod_eq_of_lt
            unfold AllocNode.size
            omega
          simp only [append64, append, hnew, hsum, hpage]
          generalize hspace : 4096 - (L.schedulerEnd + extent (ws ++ [c]) + AllocNode.size) % 4096 =
            space
          have hcount : countPages64 4096 space size (2 ^ 31) 0 =
              some (countPages 4096 space size (size + 1) 0) :=
            countPages64_eq 2147483647 (by omega) (by omega) (by omega) (by omega)
          rw [hcount, Option.map_some]
          split_ifs
          · rfl
          · rfl

/-! ## Large sizes -/

/-- What a charge that is not refused does. -/
theorem charge_pagesLeft {n : ℕ} (hrun : charge L tid h n = some h₁) :
    Touches h.mem h₁.mem [L.countAddr tid] ∧ h₁.pagesLeft ≤ h.pagesLeft ∧ n ≤ h.pagesLeft := by
  obtain ⟨_, hpages, hleft⟩ := charge_counts hrun
  exact ⟨charge_touches hrun, by omega, by omega⟩

/-- The first charge changes the page count at most, and leaves no more pages. -/
theorem chargeFirst64_kept (hrun : chargeFirst64 L tid h size = some (some h₁)) :
    Touches h.mem h₁.mem [L.countAddr tid] ∧ h₁.pagesLeft ≤ h.pagesLeft := by
  unfold chargeFirst64 at hrun
  split at hrun
  · split at hrun
    · exact absurd (Option.some.inj hrun) (by simp)
    · obtain ⟨n, _, hcharge⟩ := Option.map_eq_some_iff.mp hrun
      obtain ⟨htouch, hle, _⟩ := charge_pagesLeft hcharge
      exact ⟨htouch, hle⟩
  · obtain rfl := Option.some.inj (Option.some.inj hrun)
    exact ⟨Touches.refl _ _, le_rfl⟩

/-- A first charge for more bytes than the region has is not refused exactly if the size of
the block with its header is no `size_t` and a page is left. -/
theorem chargeFirst64_large {o : Option Arena} (hpage : L.PAGE_SIZE = 4096)
    (hcount : pageCount L tid h.mem = 0) (hleft : h.pagesLeft ≤ pagesAtStart)
    (hlarge : L.regionSize ≤ size) (hsize : size < 2 ^ 64)
    (hrun : chargeFirst64 L tid h size = some o) :
    o = none ↔ size + AllocNode.size < 2 ^ 64 ∨ h.pagesLeft < 1 := by
  obtain ⟨hs, hend, hregion⟩ := L.schedulerEnd_bound
  have hends := L.endOfPages_eq
  rw [L.regionSize_eq hpage] at hlarge hends
  have hzero : get h.mem (L.countAddr tid) threadPageCount = 0 := hcount
  unfold chargeFirst64 at hrun
  rw [if_pos hzero] at hrun
  unfold AllocNode.size at *
  by_cases hwrap : size + 32 < 2 ^ 64
  · refine iff_of_true ?_ (Or.inl hwrap)
    split at hrun
    · exact (Option.some.inj hrun).symm
    · rename_i hfits
      obtain ⟨n, hn, hcharge⟩ := Option.map_eq_some_iff.mp hrun
      rw [hpage, Nat.mod_eq_of_lt hwrap] at hn
      have hmany := pages_lt_countPages64 (Nat.zero_le _) (by omega) hn
      unfold charge at hcharge
      rw [if_pos (by omega)] at hcharge
      exact hcharge.symm
  · have hfits : ¬ (L.schedulerEnd + 32 + size) % 2 ^ 64 ≥ L.endOfPages := by omega
    have hone : countPages64 4096 0 ((size + 32) % 2 ^ 64) (2 ^ 31) 1 = some 1 := by
      apply countPages64_stop (by decide)
      rw [sizeOfInt_of_lt (by decide)]
      omega
    rw [if_neg hfits, hpage, hone, Option.map_some] at hrun
    obtain rfl := Option.some.inj hrun
    unfold charge
    split
    · rename_i hnone
      exact iff_of_true rfl (Or.inr (by omega))
    · rename_i hsome
      exact iff_of_false (by simp) (by omega)

/-- There is no new last block of more bytes than the region has. -/
theorem append64_large {r : Option ℕ} {xs : List Block} {b : Block} (hpage : L.PAGE_SIZE = 4096)
    (hformed : Formed L h.mem (xs ++ [b])) (hleft : h.pagesLeft ≤ pagesAtStart)
    (hinside : L.schedulerEnd + extent (xs ++ [b]) ≤ L.endOfPages)
    (hlarge : L.regionSize ≤ size)
    (hrun : append64 L tid h (L.schedulerEnd + extent xs) size = some (h', r)) :
    h' = h ∧ r = none := by
  obtain ⟨hs, hend, hregion⟩ := L.schedulerEnd_bound
  obtain ⟨hextent, _, hstart⟩ := hformed.fits.bounds
  have hends := L.endOfPages_eq
  have hnew : behind h.mem (L.schedulerEnd + extent xs) = L.schedulerEnd + extent (xs ++ [b]) :=
    behind_last hextent hstart hformed.chain
  rw [L.regionSize_eq hpage] at hlarge hends
  simp only [append64, hnew, hpage] at hrun
  split at hrun
  · obtain ⟨rfl, rfl⟩ := Prod.mk.inj (Option.some.inj hrun)
    exact ⟨rfl, rfl⟩
  · rename_i hfits
    unfold AllocNode.size at hfits
    obtain ⟨n, hn, hcharge⟩ := Option.map_eq_some_iff.mp hrun
    have hmany := pages_lt_countPages64 (Nat.sub_le _ _) (by omega) hn
    have hrefused : charge L tid h n = none := by
      unfold charge
      exact if_pos (by omega)
    rw [hrefused] at hcharge
    obtain ⟨rfl, rfl⟩ := Prod.mk.inj hcharge
    exact ⟨rfl, rfl⟩

/-! ## The invariant -/

/-- The invariant of the runs: the headers are those of the blocks `bs`, which end within the
region. -/
structure Bounded (L : Layout) (h : Arena) (bs : List Block) : Prop where
  /-- The region holds the blocks. -/
  formed : Formed L h.mem bs
  /-- The blocks are within the region. -/
  inside : L.schedulerEnd + extent bs ≤ L.endOfPages
  /-- No more pages are left than at the start. -/
  left : h.pagesLeft ≤ pagesAtStart

/-- A charge, which writes the page count only, keeps the invariant. -/
theorem Bounded.of_count (hb : Bounded L h bs) (htouch : Touches h.mem h₁.mem [L.countAddr tid])
    (hle : h₁.pagesLeft ≤ h.pagesLeft) : Bounded L h₁ bs :=
  ⟨hb.formed.of_count htouch, hb.inside, hle.trans hb.left⟩

/-- With blocks there is a first header, and the condition says nothing. -/
theorem Bounded.firstWithin (hb : Bounded L h bs) (hbs : bs ≠ []) : FirstWithin L tid h size := by
  intro hsignature
  cases bs with
  | nil => exact absurd rfl hbs
  | cons b bs => exact absurd hb.formed.chain.1.signature hsignature

/-- A call leaves no more pages. -/
theorem myallocate_pagesLeft {r : Option ℕ} (hrun : myallocate L tid fuel h size = some (h', r)) :
    h'.pagesLeft ≤ h.pagesLeft := by
  unfold myallocate at hrun
  split at hrun
  · rw [(Prod.mk.inj (Option.some.inj hrun)).1]
  cases hcharge : chargeFirst L tid h size with
  | none =>
    rw [hcharge] at hrun
    rw [(Prod.mk.inj (Option.some.inj hrun)).1]
  | some h₁ =>
    have hfirst : h₁.pagesLeft ≤ h.pagesLeft := by
      unfold chargeFirst at hcharge
      split at hcharge
      · split at hcharge
        · exact absurd hcharge (by simp)
        · exact (charge_pagesLeft hcharge).2.1
      · rw [Option.some.inj hcharge]
    simp only [hcharge] at hrun
    split at hrun
    · obtain ⟨rfl, _⟩ := Prod.mk.inj (Option.some.inj hrun)
      exact hfirst
    obtain ⟨temp | prevAddr, _, heq⟩ := Option.map_eq_some_iff.mp hrun
    · obtain ⟨rfl, _⟩ := Prod.mk.inj heq
      exact hfirst
    · rcases append_cases rfl heq with ⟨rfl, _, _⟩ | ⟨h₂, _, hcharge₂, rfl, _⟩
      · exact hfirst
      · exact (charge_pagesLeft hcharge₂).2.1.trans hfirst

/-- The step lemma for requests of fewer bytes than the region has. -/
theorem Bounded.allocate_small {r : Option ℕ} (hpage : L.PAGE_SIZE = 4096) (hb : Bounded L h bs)
    (hsize : size < L.regionSize) (hrun : myallocate64 L tid fuel h size = some (h', r)) :
    (ReturnsWithin L h' size r ↔ FirstWithin L tid h size) ∧
      (FirstWithin L tid h size → ∃ bs', Bounded L h' bs') := by
  rw [hb.formed.myallocate64_eq hpage hsize] at hrun
  have hleft := (myallocate_pagesLeft hrun).trans hb.left
  have hregion := L.regionSize_eq hpage
  have hends := L.endOfPages_eq
  cases r with
  | none =>
    have hok : FirstWithin L tid h size := by
      intro hsignature
      split
      · left
        unfold AllocNode.size
        omega
      · rename_i hcount
        rw [myallocate, chargeFirst_eq hcount] at hrun
        simp only [if_pos hsignature] at hrun
        split at hrun
        · unfold AllocNode.size
          omega
        · exact absurd (Prod.mk.inj (Option.some.inj hrun)).2 (by simp)
    refine ⟨iff_of_true (fun p hp => absurd hp (by simp)) hok, fun _ => ⟨bs, ?_, hb.inside, hleft⟩⟩
    exact hb.formed.of_count (hb.formed.allocate_null hrun)
  | some p =>
    obtain ⟨bs', hformed', hperm, _, hplaced, _⟩ := hb.formed.allocate hsize hrun
    have hp : (p, size) ∈ payloads L.schedulerEnd bs' := hperm.mem_iff.mpr List.mem_cons_self
    obtain ⟨hlow, hhigh⟩ := mem_payloads hp
    have hcap : capacityOf h'.mem (p - AllocNode.size) = size := by
      obtain ⟨xs, ys, rfl, rfl⟩ := exists_block hp
      rw [Nat.add_sub_cancel]
      exact (chain_middle.mp hformed'.chain).2.1.capacityOf (show size < 2 ^ 31 by omega)
    have hwithin : ReturnsWithin L h' size (some p) ↔ p + size ≤ L.endOfPages := by
      constructor
      · exact fun hr => (hr p rfl).2.1
      · rintro hle q hq
        obtain rfl := Option.some.inj hq
        exact ⟨hlow, hle, hcap⟩
    have hbounded (hend : L.schedulerEnd + extent bs' ≤ L.endOfPages) : ∃ bs', Bounded L h' bs' :=
      ⟨bs', hformed', hend, hleft⟩
    rw [hwithin]
    cases hplaced with
    | first h₁ hnil hextent hcharge _ _ =>
      obtain rfl : p = L.schedulerEnd + AllocNode.size := by omega
      have hsignature := hb.formed.empty hnil
      by_cases hcount : pageCount L tid h.mem = 0
      · -- the bound was tested
        have hzero : get h.mem (L.countAddr tid) threadPageCount = 0 := hcount
        have hfits : L.schedulerEnd + AllocNode.size + size < L.endOfPages := by
          unfold chargeFirst at hcharge
          rw [if_pos hzero] at hcharge
          split at hcharge
          · exact absurd hcharge (by simp)
          · omega
        have hok : FirstWithin L tid h size := by
          intro _
          rw [if_pos hcount]
          left
          unfold AllocNode.size
          omega
        exact ⟨iff_of_true (by omega) hok, fun _ => hbounded (by omega)⟩
      · have hok : FirstWithin L tid h size ↔ AllocNode.size + size ≤ L.regionSize := by
          unfold FirstWithin
          rw [if_neg hcount]
          exact ⟨fun hh => hh hsignature, fun hh _ => hh⟩
        rw [hok]
        exact ⟨by omega, fun hle => hbounded (by omega)⟩
    | reused h₁ hmem hextent _ _ _ =>
      have hinside := hb.inside
      exact ⟨iff_of_true (by omega) (hb.firstWithin (List.ne_nil_of_mem hmem)),
        fun _ => hbounded (by omega)⟩
    | last h₁ h₂ hne _ hfits hextent _ _ _ _ =>
      exact ⟨iff_of_true (by omega) (hb.firstWithin hne), fun _ => hbounded (by omega)⟩

/-- The step lemma for requests of as many bytes as the region has, or more. -/
theorem Bounded.allocate_large {r : Option ℕ} (hpage : L.PAGE_SIZE = 4096) (hb : Bounded L h bs)
    (hlarge : L.regionSize ≤ size) (hsize : size < 2 ^ 64)
    (hrun : myallocate64 L tid fuel h size = some (h', r)) :
    (ReturnsWithin L h' size r ↔ FirstWithin L tid h size) ∧
      (FirstWithin L tid h size → ∃ bs', Bounded L h' bs') := by
  have hregion := L.regionSize_eq hpage
  have hends := L.endOfPages_eq
  have hnone : ReturnsWithin L h' size none := fun p hp => absurd hp (by simp)
  unfold myallocate64 at hrun
  rw [if_neg (by omega)] at hrun
  obtain ⟨o, hcharge, hrun⟩ := Option.bind_eq_some_iff.mp hrun
  by_cases hbs : bs = []
  · -- a first block
    have hsignature := hb.formed.empty hbs
    have hok : FirstWithin L tid h size ↔ o = none := by
      unfold FirstWithin
      by_cases hcount : pageCount L tid h.mem = 0
      · rw [if_pos hcount, chargeFirst64_large hpage hcount hb.left hlarge hsize hcharge]
        exact ⟨fun hh => hh hsignature, fun hh _ => hh⟩
      · have ho : o = some h := by
          have hnonzero : get h.mem (L.countAddr tid) threadPageCount ≠ 0 := hcount
          unfold chargeFirst64 at hcharge
          rw [if_neg hnonzero] at hcharge
          exact (Option.some.inj hcharge).symm
        rw [if_neg hcount, ho]
        refine iff_of_false (fun hh => ?_) (by simp)
        have hle := hh hsignature
        unfold AllocNode.size at hle
        omega
    rw [hok]
    cases o with
    | none =>
      obtain ⟨rfl, rfl⟩ := Prod.mk.inj (Option.some.inj hrun)
      exact ⟨iff_of_true hnone rfl, fun _ => ⟨bs, hb⟩⟩
    | some h₁ =>
      obtain ⟨htouch, _⟩ := chargeFirst64_kept hcharge
      simp only [if_pos ((hb.formed.of_count htouch).empty hbs)] at hrun
      obtain ⟨_, rfl⟩ := Prod.mk.inj (Option.some.inj hrun)
      refine ⟨iff_of_false (fun hr => ?_) (by simp), fun ho => absurd ho (by simp)⟩
      have hend := (hr _ rfl).2.1
      unfold AllocNode.size at hend
      omega
  · have hok : FirstWithin L tid h size := hb.firstWithin hbs
    cases o with
    | none =>
      obtain ⟨rfl, rfl⟩ := Prod.mk.inj (Option.some.inj hrun)
      exact ⟨iff_of_true hnone hok, fun _ => ⟨bs, hb⟩⟩
    | some h₁ =>
      obtain ⟨htouch, hle⟩ := chargeFirst64_kept hcharge
      have hb₁ := hb.of_count htouch hle
      have hinside := hb.inside
      obtain ⟨b, us, rfl⟩ := List.exists_cons_of_ne_nil hbs
      simp only [if_neg (not_not_intro hb₁.formed.chain.1.signature)] at hrun
      obtain ⟨found, hsearch, hrun⟩ := Option.bind_eq_some_iff.mp hrun
      have hfirst : search h₁.mem size fuel (L.schedulerEnd + extent []) = some found := hsearch
      rcases
        search_spec L.schedulerEnd_bound.1 hb₁.formed.fits.bounds.1 hb₁.formed.chain hfirst with
        ⟨ws, us, hlist, rfl⟩ | ⟨ws, c, hlist, rfl, _⟩
      · -- no free block is that large
        rw [List.nil_append] at hlist
        rw [hlist] at hinside
        simp only [extent_append, extent_cons, Block.span, AllocNode.size] at hinside
        omega
      · rw [List.nil_append] at hlist
        rw [hlist] at hb₁
        obtain ⟨rfl, rfl⟩ := append64_large hpage hb₁.formed hb₁.left hb₁.inside hlarge hrun
        exact ⟨iff_of_true hnone hok, fun _ => ⟨_, hb₁⟩⟩

/-! ## The result -/

/-- A request leaves the blocks bounded, and is within the region exactly if its first block is. -/
theorem Bounded.allocate {r : Option ℕ} (hpage : L.PAGE_SIZE = 4096) (hb : Bounded L h bs)
    (hsize : size < 2 ^ 64) (hrun : myallocate64 L tid fuel h size = some (h', r)) :
    (ReturnsWithin L h' size r ↔ FirstWithin L tid h size) ∧
      (FirstWithin L tid h size → ∃ bs', Bounded L h' bs') := by
  by_cases hsmall : size < L.regionSize
  · exact hb.allocate_small hpage hsmall hrun
  · exact hb.allocate_large hpage (Nat.not_lt.mp hsmall) hsize hrun

/-- An event that meets the condition keeps the blocks inside of the region. -/
theorem Bounded.step {e : ChargeEvent} (hpage : L.PAGE_SIZE = 4096) (hb : Bounded L h bs)
    (hok : SizeSafe L tid h e) (hstep : SizeStep L tid h e h') : ∃ bs', Bounded L h' bs' := by
  have hinside := hb.inside
  cases e with
  | allocate size =>
    obtain ⟨hsize, fuel, r, hrun⟩ := hstep
    exact (hb.allocate hpage hsize hrun).2 hok
  | free ptr =>
    obtain ⟨fuel, hrun⟩ := hstep
    obtain ⟨bs', hformed', hextent, hpages, _, _⟩ := hb.formed.free hok hrun
    exact ⟨bs', hformed', by omega, hpages ▸ hb.left⟩
  | write a v =>
    obtain ⟨⟨node, hblock, hused, ha⟩, rfl⟩ := hstep
    exact ⟨bs, hb.formed.write (hb.formed.mem_payloads hblock hused) ha v, hinside, hb.left⟩
  | others pagesLeft =>
    obtain ⟨htotal, rfl⟩ := hstep
    exact ⟨bs, hb.formed, hinside, Int.ofNat_le.mpr (by omega)⟩

/-- In every state that such a run reaches, the blocks are inside of the region. -/
theorem sizeReach_bounded (hpage : L.PAGE_SIZE = 4096) (h : SizeReach L tid (SizeSafe L tid) h') :
    ∃ bs, Bounded L h' bs := by
  apply Runs.Reach.invariant (P := fun h => ∃ bs, Bounded L h bs) ?_ ?_ h
  · rintro h ⟨_, hleft, hzero⟩
    exact ⟨[], formed_nil (signature_of_zero hzero (Layout.header_le_page hpage)),
      Nat.le_add_right _ _, hleft⟩
  · rintro h e h' ⟨bs, hb⟩ hok hstep
    exact hb.step hpage hok hstep

/-- After every run whose events meet the condition, the block that a request of any size
returns is inside the region, with this size in its header, exactly if the request meets the
condition too. -/
theorem allocations_within_region (L : Layout) (tid : ℕ) (hpage : L.PAGE_SIZE = 4096) :
    ∀ (h : Arena) (size fuel : ℕ) (h' : Arena) (r : Option ℕ), SizeReach L tid (SizeSafe L tid) h →
      size < 2 ^ 64 → myallocate64 L tid fuel h size = some (h', r) →
        (ReturnsWithin L h' size r ↔ SizeSafe L tid h (.allocate size)) := by
  intro h size fuel h' r hreach hsize hrun
  obtain ⟨bs, hb⟩ := sizeReach_bounded hpage hreach
  exact (hb.allocate hpage hsize hrun).1

/-! ## Runs on given inputs -/

/-- Before its first request a thread has no pages. -/
theorem sizeReach_fresh {ok : Arena → ChargeEvent → Prop} :
    SizeReach sampleLayout 1 ok freshState.heap :=
  .start ⟨by decide +kernel, by decide, fun _ _ _ => rfl⟩

/-- The theorem at the second request of a thread. -/
theorem allocations_within_region_secondBlock : ∃ h h',
    SizeReach sampleLayout 1 (SizeSafe sampleLayout 1) h ∧
      myallocate64 sampleLayout 1 10 h 200 = some (h', some 897188) ∧
      ReturnsWithin sampleLayout h' 200 (some 897188) := by
  have hrun : ((myallocate64 sampleLayout 1 10 freshState.heap 100).bind fun r =>
      (myallocate64 sampleLayout 1 10 r.1 200).map fun r' =>
        (get r.1.mem sampleLayout.schedulerEnd signature, r'.2)) = some (valid, some 897188) := by
    decide +kernel
  obtain ⟨⟨h, r⟩, hfirst, hrun⟩ := Option.bind_eq_some_iff.mp hrun
  obtain ⟨⟨h', r'⟩, hsecond, heq⟩ := Option.map_eq_some_iff.mp hrun
  obtain ⟨hsignature, rfl⟩ := Prod.mk.inj heq
  have hreach : SizeReach sampleLayout 1 (SizeSafe sampleLayout 1) h := by
    apply Runs.Reach.step sizeReach_fresh (e := .allocate 100)
    · intro _
      rw [if_pos (by decide +kernel)]
      exact Or.inl (by decide)
    · exact ⟨by decide, 10, r, hfirst⟩
  have hok : SizeSafe sampleLayout 1 h (.allocate 200) := fun hne => absurd hsignature hne
  have hexact :=
    allocations_within_region sampleLayout 1 rfl h 200 10 h' _ hreach (by decide) hsecond
  exact ⟨h, h', hreach, hsecond, hexact.mpr hok⟩

/-- The first request of a thread for the largest size succeeds. -/
theorem largest_size_succeeds : ∃ h h', SizeReach sampleLayout 1 (fun _ _ => True) h ∧
    myallocate64 sampleLayout 1 10 h (2 ^ 64 - 1) = some (h', some 897056) ∧
      ¬ ReturnsWithin sampleLayout h' (2 ^ 64 - 1) (some 897056) := by
  have hrun : (myallocate64 sampleLayout 1 10 freshState.heap (2 ^ 64 - 1)).map Prod.snd =
      some (some 897056) := by
    decide +kernel
  obtain ⟨⟨h', r⟩, hfirst, rfl⟩ := Option.map_eq_some_iff.mp hrun
  refine ⟨freshState.heap, h', sizeReach_fresh, hfirst, fun hwithin => ?_⟩
  have hend := (hwithin 897056 rfl).2.1
  exact absurd hend (by decide)

end SimpleOs.Heap
