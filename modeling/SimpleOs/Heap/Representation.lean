import SimpleOs.Heap.Charging

/-!
# The list of headers

The headers that are reached from the first one describe adjacent blocks, of which no
two neighbours are free, with links in both directions. Joining blocks does not change
the link back from the block behind them, so this is kept as long as no block is joined
to another that has a block behind it.
-/

namespace SimpleOs.Heap

open Bytes AllocNode

variable {L : Layout} {tid fuel size : ℕ} {m m' : Memory} {s a q stop : ℕ} {b c : Block}
  {bs xs ys : List Block} {h h' : Arena}

/-! ## Determined blocks -/

/-- A header determines the block and the next header. -/
theorem Header.unique {n n' : ℕ} (h : Header m a b n) (h' : Header m a c n') : b = c ∧ n = n' := by
  obtain ⟨hused, hcap, hnext, _⟩ := h
  obtain ⟨hused', hcap', hnext', _⟩ := h'
  refine ⟨?_, hnext.symm.trans hnext'⟩
  obtain ⟨bcap, bused⟩ := b
  obtain ⟨ccap, cused⟩ := c
  have hsame := hused.symm.trans hused'
  obtain rfl : bcap = ccap := hcap.symm.trans hcap'
  cases bused <;> cases cused <;> simp_all

/-- The headers in memory determine the list of blocks. -/
theorem chain_unique {bs' : List Block} (ha : 0 < a) (h : Chain m a bs 0) (h' : Chain m a bs' 0)
    (hne : bs ≠ []) (hne' : bs' ≠ []) : bs = bs' := by
  induction bs generalizing a bs' with
  | nil => exact absurd rfl hne
  | cons b bs ih =>
    cases bs' with
    | nil => exact absurd rfl hne'
    | cons c bs' =>
      obtain ⟨hb, hrest⟩ := h
      obtain ⟨hc, hrest'⟩ := h'
      obtain ⟨rfl, hnext⟩ := hb.unique hc
      by_cases hbs : bs = [] <;> by_cases hbs' : bs' = []
      · rw [hbs, hbs']
      · rw [if_pos hbs, if_neg hbs'] at hnext
        omega
      · rw [if_neg hbs, if_pos hbs'] at hnext
        omega
      · rw [ih (by omega) hrest hrest' hbs hbs']

/-- The headers and the first signature determine the blocks. -/
theorem Formed.unique {bs' : List Block} (h : Formed L m bs) (hchain : Chain m L.schedulerEnd bs' 0)
    (hempty : bs' = [] → get m L.schedulerEnd signature ≠ valid) : bs' = bs := by
  have hvalid {zs : List Block} (hne : zs ≠ []) (hzs : Chain m L.schedulerEnd zs 0) :
      get m L.schedulerEnd signature = valid := by
    cases zs with
    | nil => exact absurd rfl hne
    | cons b zs => exact hzs.1.signature
  by_cases hbs : bs = [] <;> by_cases hbs' : bs' = []
  · rw [hbs, hbs']
  · exact absurd (hvalid hbs' hchain) (h.empty hbs)
  · exact absurd (hvalid hbs h.chain) (hempty hbs')
  · exact chain_unique L.schedulerEnd_bound.1 hchain h.chain hbs' hbs

/-! ## The invariant -/

/-- The headers that the list from `head` reaches are as they should be. -/
structure Represented (m : Memory) (head : ℕ) : Prop where
  /-- Every header that the list reaches has the signature. -/
  signed : ∀ a, Listed m head a → get m a signature = valid
  /-- The next header is behind the payload. -/
  adjacent : ∀ a, Listed m head a → get m a next ≠ 0 →
    get m a next = a + AllocNode.size + capacityOf m a
  /-- Nothing is before the first header. -/
  first : get m head prev = 0
  /-- The link back is to the header before. -/
  back : ∀ a, Listed m head a → get m a next ≠ 0 → get m (get m a next) prev = a
  /-- Of two neighbours one is in use. -/
  apart : ∀ a, Listed m head a → get m a next ≠ 0 →
    get m a inUse ≠ 0 ∨ get m (get m a next) inUse ≠ 0
  /-- There is a last header, and its block is in use. -/
  last : ∃ a, Listed m head a ∧ get m a next = 0 ∧ get m a inUse ≠ 0

/-- If there is a first header, the list is as it should be. -/
def HeapInvariant (L : Layout) (m : Memory) : Prop :=
  get m L.schedulerEnd signature = valid → Represented m L.schedulerEnd

/-- The links back, block by block. -/
theorem linked_iff :
    Linked m q a bs ↔
      ∀ xs b ys, bs = xs ++ b :: ys → get m (a + extent xs) prev = lastStart q a xs := by
  constructor
  · rintro h xs b ys rfl
    exact (linked_append.mp h).2.1
  · intro h
    induction bs generalizing q a with
    | nil => trivial
    | cons b bs ih =>
      refine ⟨h [] b bs rfl, ih fun xs c ys hbs => ?_⟩
      have hprev := h (b :: xs) c ys (by rw [hbs]; rfl)
      rwa [extent_cons, ← Nat.add_assoc] at hprev

/-- The header of a block in use. -/
theorem Header.inUse_ne {n : ℕ} (h : Header m a b n) (hb : b.used = true) : get m a inUse ≠ 0 := by
  rw [h.used, hb]
  decide

/-- In a well-formed region, the list is as it should be exactly if the links back are. -/
theorem Formed.invariant_iff (hformed : Formed L m bs) :
    HeapInvariant L m ↔ Linked m 0 L.schedulerEnd bs := by
  obtain ⟨hextent, _, _⟩ := hformed.fits.bounds
  have hs := L.schedulerEnd_bound.1
  constructor
  · intro hinv
    refine linked_iff.mpr fun xs b ys hbs => ?_
    subst hbs
    have hrep := hinv hformed.hasBlock.1
    rcases List.eq_nil_or_concat xs with rfl | ⟨ws, p, rfl⟩
    · exact hrep.first
    · rw [List.concat_eq_append] at *
      have hlist : ws ++ [p] ++ b :: ys = ws ++ p :: b :: ys := by simp
      rw [hlist] at hformed
      have hheader := (chain_middle.mp hformed.chain).2.1.next
      rw [if_neg (by simp)] at hheader
      have haddr : L.schedulerEnd + extent (ws ++ [p]) = L.schedulerEnd + extent ws + p.span := by
        simp [Nat.add_assoc]
      have hback := hrep.back _ (listed_of_chain hs hformed.chain) (by rw [hheader]; omega)
      rw [lastStart_concat, haddr, ← hheader]
      exact hback
  · intro hlinked hsignature
    have hne : bs ≠ [] := fun hnil => hformed.empty hnil hsignature
    -- every header of the list is that of a block, with its neighbour behind it
    have hblock (a : ℕ) (ha : Listed m L.schedulerEnd a) : ∃ xs b ys, bs = xs ++ b :: ys ∧
        a = L.schedulerEnd + extent xs ∧ Header m a b (if ys = [] then 0 else a + b.span) ∧
        ∀ c us, ys = c :: us → get m a next = L.schedulerEnd + extent (xs ++ [b]) ∧
          Header m (get m a next) c (if us = [] then 0 else get m a next + c.span) := by
      obtain ⟨xs, b, ys, rfl, rfl⟩ := ha.block hformed.chain hne
      obtain ⟨_, hheader, hrest⟩ := chain_middle.mp hformed.chain
      refine ⟨xs, b, ys, rfl, rfl, hheader, fun c us hys => ?_⟩
      subst hys
      have hnext : get m (L.schedulerEnd + extent xs) next = L.schedulerEnd + extent xs + b.span :=
        hheader.next
      rw [hnext]
      exact ⟨by simp [Nat.add_assoc], hrest.1⟩
    have hcap {xs ys : List Block} {b : Block} (hbs : bs = xs ++ b :: ys) : b.cap < 2 ^ 31 := by
      rw [hbs] at hextent
      simp only [extent_append, extent_cons, Block.span] at hextent
      omega
    constructor
    · intro a ha
      obtain ⟨_, _, _, _, _, hheader, _⟩ := hblock a ha
      exact hheader.signature
    · intro a ha hnext
      obtain ⟨xs, b, ys, hbs, rfl, hheader, _⟩ := hblock a ha
      rw [hheader.next] at hnext ⊢
      rw [hheader.capacityOf (hcap hbs)]
      split at hnext
      · exact absurd rfl hnext
      · rename_i hys
        rw [if_neg hys, Block.span, ← Nat.add_assoc]
    · cases bs with
      | nil => exact absurd rfl hne
      | cons b bs => exact hlinked.1
    · intro a ha hnext
      obtain ⟨xs, b, ys, hbs, rfl, hheader, hbehind⟩ := hblock a ha
      cases ys with
      | nil => exact absurd hheader.next hnext
      | cons c us =>
        have hprev := linked_iff.mp hlinked (xs ++ [b]) c us (by simp [hbs])
        rw [lastStart_concat] at hprev
        rw [(hbehind c us rfl).1]
        exact hprev
    · intro a ha hnext
      obtain ⟨xs, b, ys, hbs, rfl, hheader, hbehind⟩ := hblock a ha
      cases ys with
      | nil => exact absurd hheader.next hnext
      | cons c us =>
        obtain ⟨hchain, _⟩ := hformed.tight
        rw [hbs] at hchain
        obtain ⟨_, hpair, _⟩ := List.isChain_append.mp hchain
        rcases (List.isChain_cons_cons.mp hpair).1 with hb | hc
        · exact Or.inl (hheader.inUse_ne hb)
        · exact Or.inr ((hbehind c us rfl).2.inUse_ne hc)
    · rcases List.eq_nil_or_concat bs with rfl | ⟨xs, b, rfl⟩
      · exact absurd rfl hne
      · rw [List.concat_eq_append] at *
        have hheader := (chain_middle.mp hformed.chain).2.1
        refine ⟨_, listed_of_chain hs hformed.chain, hheader.next, ?_⟩
        exact hheader.inUse_ne (hformed.tight.2 b (by simp))

/-! ## Freeing -/

/-- No block that has one behind it is joined to another when the block at `node` is freed. -/
def FreesAlone (m : Memory) (node : ℕ) : Prop :=
  get m node next = 0 ∨
    (get m node prev ≠ 0 → get m (get m node prev) inUse ≠ 0) ∧ get m (get m node next) inUse ≠ 0

/-- The links of some blocks and one more. -/
theorem linked_concat : Linked m q a (xs ++ [b]) ↔
    Linked m q a xs ∧ get m (a + extent xs) prev = lastStart q a xs := by
  simp [linked_append, Linked]

/-- The blocks `ws` become others of the same length, the last of which is at `s + extent zs`,
and the links in the headers stay. -/
theorem linked_behind {ws zs vs : List Block} {d e : Block}
    (hold : Linked m 0 s (ws ++ e :: vs)) (hzs : Linked m 0 s (zs ++ [d]))
    (hextent : extent (zs ++ [d]) = extent ws)
    (hsame : ∀ y ∈ starts s (zs ++ d :: e :: vs), get m' y prev = get m y prev) :
    Linked m' 0 s (zs ++ d :: e :: vs) ↔ lastStart 0 s ws = s + extent zs := by
  have hlist : zs ++ d :: e :: vs = zs ++ [d] ++ e :: vs := by simp
  rw [hlist] at hsame ⊢
  obtain ⟨_, hlink, hvs⟩ := linked_append.mp hold
  rw [starts_append] at hsame
  have hkeep : Linked m' 0 s (zs ++ [d]) :=
    hzs.congr fun y hy => hsame y (List.mem_append_left _ hy)
  have hprev : get m' (s + extent (zs ++ [d])) prev = lastStart 0 s ws := by
    rw [hsame _ (List.mem_append_right _ List.mem_cons_self), hextent, hlink]
  rw [linked_append, Linked, lastStart_concat, hprev]
  constructor
  · rintro ⟨_, heq, _⟩
    exact heq
  · intro heq
    refine ⟨hkeep, heq, ?_⟩
    rw [hextent] at hsame ⊢
    exact hvs.congr fun y hy =>
      hsame y (List.mem_append_right _ (List.mem_cons_of_mem _ hy))

/-- The links after a free are right exactly if no block was joined, or none is behind. -/
theorem linked_freed {k : ℕ} {zs us : List Block} {d : Block}
    (hold : Linked m 0 s (xs ++ ⟨k, true⟩ :: ys)) (htight : Tight (xs ++ ⟨k, true⟩ :: ys))
    (hbefore : MergedBefore xs ⟨k, false⟩ zs c) (hbehind : MergedBehind c ys d us)
    (hsame : ∀ y ∈ starts s (if us = [] then zs else zs ++ d :: us),
      get m' y prev = get m y prev) :
    Linked m' 0 s (if us = [] then zs else zs ++ d :: us) ↔
      ys = [] ∨ (∀ p ∈ xs.getLast?, p.used = true) ∧ ∀ e ∈ ys.head?, e.used = true := by
  have hzs : Linked m 0 s (zs ++ [d]) := by
    have hxs := (linked_append.mp hold).1
    have hx := linked_iff.mp hold xs ⟨k, true⟩ ys rfl
    rcases hbefore with ⟨rfl, _, _⟩ | ⟨p, rfl, _, _⟩
    · exact linked_concat.mpr ⟨hxs, hx⟩
    · exact linked_concat.mpr (linked_concat.mp hxs)
  cases us with
  | nil =>
    have hys : ys = [] := by
      rcases hbehind with ⟨_, rfl, _⟩ | ⟨f, rfl, hf, _⟩
      · rfl
      · have hused := htight.2 f (by simp)
        exact absurd (hf.symm.trans hused) (by simp)
    refine iff_of_true ?_ (Or.inl hys)
    rw [if_pos rfl] at hsame ⊢
    exact (linked_concat.mp hzs).1.congr hsame
  | cons e vs =>
    rw [if_neg (by simp)] at hsame ⊢
    have hspan (p f : Block) (u : Bool) :
        (⟨p.cap + AllocNode.size + f.cap, u⟩ : Block).span = p.span + f.span := by
      simp only [Block.span]
      omega
    have hpos (p : Block) : 0 < p.span := by
      simp only [Block.span, AllocNode.size]
      omega
    have hmark : (⟨k, true⟩ : Block).span = (⟨k, false⟩ : Block).span := rfl
    rcases hbehind with ⟨rfl, rfl, hy⟩ | ⟨f, rfl, hf, rfl⟩
    · -- the block behind is in use, and its link is to the block that is freed
      have hlist : xs ++ ⟨k, true⟩ :: e :: vs = xs ++ [⟨k, true⟩] ++ e :: vs := by simp
      rw [hlist] at hold
      have hextent : extent (zs ++ [d]) = extent (xs ++ [⟨k, true⟩]) := by
        rcases hbefore with ⟨rfl, rfl, _⟩ | ⟨p, rfl, _, rfl⟩
        · simp [hmark]
        · simp only [extent_append, extent_cons, extent_nil, Block.span]
          omega
      rw [linked_behind hold hzs hextent hsame, lastStart_concat]
      rcases hbefore with ⟨rfl, _, hx⟩ | ⟨p, rfl, hp, _⟩
      · exact iff_of_true rfl (Or.inr ⟨hx, hy⟩)
      · refine iff_of_false ?_ ?_
        · have := hpos p
          simp only [extent_append, extent_cons, extent_nil]
          omega
        · simp [hp]
    · -- the block behind was free, and the link behind it is to its header
      have hlist : xs ++ ⟨k, true⟩ :: f :: e :: vs = xs ++ [⟨k, true⟩, f] ++ e :: vs := by simp
      rw [hlist] at hold
      have hextent : extent (zs ++ [⟨c.cap + AllocNode.size + f.cap, c.used⟩]) =
          extent (xs ++ [⟨k, true⟩, f]) := by
        rcases hbefore with ⟨rfl, rfl, _⟩ | ⟨p, rfl, _, rfl⟩
        · simp [hspan ⟨k, false⟩ f, hmark]
        · simp only [extent_append, extent_cons, extent_nil, Block.span]
          omega
      have hlast : xs ++ [⟨k, true⟩, f] = xs ++ [⟨k, true⟩] ++ [f] := by simp
      rw [linked_behind hold hzs hextent hsame, hlast, lastStart_concat]
      refine iff_of_false ?_ ?_
      · have hle : extent zs ≤ extent xs := by
          rcases hbefore with ⟨rfl, _, _⟩ | ⟨p, rfl, _, _⟩ <;> simp
        have := hpos ⟨k, true⟩
        simp only [extent_append, extent_cons, extent_nil]
        omega
      · simp [hf]

/-- Where links back lead: to the block before. -/
theorem linked_prev (hlinked : Linked m 0 s (xs ++ b :: ys)) :
    get m (s + extent xs) prev = prevOf s xs := by
  have hprev := linked_iff.mp hlinked xs b ys rfl
  rcases List.eq_nil_or_concat xs with rfl | ⟨ws, p, rfl⟩
  · exact hprev
  · rw [List.concat_eq_append] at *
    rw [hprev, lastStart_concat, prevOf_concat]

/-- Links back that are right lead to the header before in the list. -/
theorem backExact_of_linked (hs : 0 < s) (hchain : Chain m s (xs ++ b :: ys) 0)
    (hlinked : Linked m 0 s (xs ++ b :: ys)) : BackExact m s (s + extent xs) := by
  have hprev := linked_prev hlinked
  unfold BackExact
  rcases List.eq_nil_or_concat xs with rfl | ⟨ws, p, rfl⟩
  · rw [if_pos (by simp)]
    exact hprev
  · rw [List.concat_eq_append] at *
    rw [prevOf_concat] at hprev
    rw [if_neg (by simp [Block.span, AllocNode.size]), hprev]
    rw [List.append_assoc] at hchain
    have hheader := (chain_middle.mp hchain).2.1.next
    rw [if_neg (by simp)] at hheader
    refine ⟨listed_of_chain hs hchain, ?_⟩
    rw [hheader]
    simp [Nat.add_assoc]

/-- The links that a free follows are among those that are right. -/
theorem followsExact_of_linked (hs : 0 < s) (hchain : Chain m s (xs ++ b :: ys) 0)
    (hlinked : Linked m 0 s (xs ++ b :: ys)) : FollowsExact m s (s + extent xs) := by
  have hprev := linked_prev hlinked
  have hfirst := backExact_of_linked hs hchain hlinked
  unfold FollowsExact
  rw [hprev]
  apply And.intro hfirst
  rcases List.eq_nil_or_concat xs with rfl | ⟨ws, p, rfl⟩
  · exact fun hne => absurd prevOf_nil hne
  · rw [List.concat_eq_append] at *
    have hlist : ws ++ [p] ++ b :: ys = ws ++ p :: b :: ys := by simp
    rw [hlist] at hchain hlinked
    rw [prevOf_concat]
    exact fun _ _ => backExact_of_linked hs hchain hlinked

/-- The condition on a free, in terms of the blocks. -/
theorem freesAlone_iff (hs : 0 < s) (hchain : Chain m s (xs ++ b :: ys) 0)
    (hlinked : Linked m 0 s (xs ++ b :: ys)) :
    FreesAlone m (s + extent xs) ↔
      ys = [] ∨ (∀ p ∈ xs.getLast?, p.used = true) ∧ ∀ e ∈ ys.head?, e.used = true := by
  have hprev := linked_prev hlinked
  have hnext := (chain_middle.mp hchain).2.1.next
  have huse {a n : ℕ} {d : Block} (hd : Header m a d n) :
      get m a inUse ≠ 0 ↔ d.used = true := by
    rw [hd.used]
    cases d.used <;> simp
  unfold FreesAlone
  rw [hprev, hnext]
  cases ys with
  | nil => exact iff_of_true (Or.inl rfl) (Or.inl rfl)
  | cons e vs =>
    have hbehind := (chain_middle.mp hchain).2.2.1
    rw [if_neg (List.cons_ne_nil e vs), huse hbehind]
    have hnext : s + extent xs + b.span ≠ 0 := by omega
    have hys : e :: vs ≠ [] := List.cons_ne_nil e vs
    rw [or_iff_right hnext, or_iff_right hys]
    refine and_congr ?_ (by simp)
    rcases List.eq_nil_or_concat xs with rfl | ⟨ws, p, rfl⟩
    · simp
    · rw [List.concat_eq_append] at *
      rw [List.append_assoc] at hchain
      have hbefore := (chain_middle.mp hchain).2.1
      rw [prevOf_concat, huse hbefore]
      simp [hs.ne']

/-- Freeing a live block keeps the links right exactly if it is not joined to another,
or has none behind it. -/
theorem Formed.deallocate_linked {p k : ℕ} (hformed : Formed L h.mem bs)
    (hlinked : Linked h.mem 0 L.schedulerEnd bs) (hp : (p, k) ∈ payloads L.schedulerEnd bs)
    (hrun : mydeallocate L fuel h p = some h') :
    ∃ bs', Formed L h'.mem bs' ∧
      (payloads L.schedulerEnd bs').Perm ((payloads L.schedulerEnd bs).erase (p, k)) ∧
      (Linked h'.mem 0 L.schedulerEnd bs' ↔ FreesAlone h.mem (p - AllocNode.size)) := by
  obtain ⟨hextent, _, _⟩ := hformed.fits.bounds
  have hs := L.schedulerEnd_bound.1
  obtain ⟨xs, ys, rfl, rfl⟩ := exists_block hp
  have hin : L.schedulerEnd + extent xs + AllocNode.size < L.endOfPages :=
    hformed.header_lt
  have hfollows := followsExact_of_linked hs hformed.chain hlinked
  obtain ⟨bs', hformed', hpayloads, _⟩ := hformed.deallocate hp (by simpa using hfollows) hrun
  obtain ⟨bs, hchain, _, _, _, _, hempty, _, ⟨zs, c, d, us, hbefore, hbehind, rfl⟩, hkeep⟩ :=
    mydeallocate_spec hextent hformed.chain hformed.tight hin hfollows hrun
  obtain rfl := hformed'.unique hchain hempty
  refine ⟨_, hformed', hpayloads, ?_⟩
  rw [Nat.add_sub_cancel, freesAlone_iff hs hformed.chain hlinked]
  exact linked_freed hlinked hformed.tight hbefore hbehind hkeep

/-! ## Runs -/

variable {σ σ' : State} {e : HeapEvent}

/-- One event; a call of `myallocate` may also fail. -/
def AnyHeapStep (L : Layout) (tid : ℕ) (σ : State) (e : HeapEvent) (σ' : State) : Prop :=
  HeapStep L tid σ e σ' ∨ ∃ size fuel, e = .allocate size ∧ size < L.regionSize ∧
    myallocate L tid fuel σ.heap size = some (σ'.heap, none) ∧ σ'.live = σ.live

/-- The condition on an event: a block that is freed is the last one, or is not joined to
another. -/
def Alone (σ : State) : HeapEvent → Prop
  | .free p => FreesAlone σ.heap.mem (p - AllocNode.size)
  | _ => True

/-- The states reached by events that meet `ok`, from one in which nothing is
allocated. -/
def AnyHeapReach (L : Layout) (tid : ℕ) (ok : State → HeapEvent → Prop) : State → Prop :=
  Runs.Reach (fun σ => σ.live = [] ∧ get σ.heap.mem L.schedulerEnd signature ≠ valid)
    (AnyHeapStep L tid) ok

/-- The region is well-formed, with the links back. -/
def State.Linked (L : Layout) (σ : State) : Prop :=
  ∃ bs, Formed L σ.heap.mem bs ∧ σ.live.Perm (payloads L.schedulerEnd bs) ∧
    Heap.Linked σ.heap.mem 0 L.schedulerEnd bs

/-- In a state with the links back the list is as it should be. -/
theorem State.Linked.invariant (h : σ.Linked L) : HeapInvariant L σ.heap.mem := by
  obtain ⟨bs, hformed, _, hlinked⟩ := h
  exact hformed.invariant_iff.mpr hlinked

/-- A call of `myallocate` that fails changes the page count at most. -/
theorem Formed.allocate_null (hformed : Formed L h.mem bs)
    (hrun : myallocate L tid fuel h size = some (h', none)) :
    Touches h.mem h'.mem [L.countAddr tid] := by
  by_cases hzero : size = 0
  · rw [myallocate, if_pos hzero] at hrun
    rw [(Prod.mk.inj (Option.some.inj hrun)).1]
    exact Touches.refl _ _
  obtain ⟨hextent, _, hstart⟩ := hformed.fits.bounds
  have hformed₁ (h₁ : Arena) (hcharge : chargeFirst L tid h size = some h₁) :
      Formed L h₁.mem bs := hformed.of_count (chargeFirst_touches hcharge)
  rcases myallocate_cases (Nat.pos_of_ne_zero hzero) hextent
    (fun h₁ hh => (hformed₁ h₁ hh).chain) (fun h₁ hh => (hformed₁ h₁ hh).empty) hrun with
    ⟨_, heq, _⟩ | ⟨h₁, hcharge, hways⟩
  · rw [heq]
    exact Touches.refl _ _
  have htouch := chargeFirst_touches hcharge
  rcases hways with ⟨_, _, hp⟩ | ⟨_, _, _, _, hp⟩ | ⟨xs, b, rfl, _, happend⟩
  · exact absurd hp (by simp)
  · exact absurd hp (by simp)
  · rcases append_cases (behind_last hextent hstart (hformed₁ h₁ hcharge).chain) happend with
      ⟨heq, _⟩ | ⟨_, _, _, _, hp⟩
    · rw [heq]
      exact htouch
    · exact absurd hp (by simp)

/-- The step lemma: after an event the list is as it should be exactly if the event meets
the condition. -/
theorem State.Linked.step (h : σ.Linked L) (hstep : AnyHeapStep L tid σ e σ') :
    (HeapInvariant L σ'.heap.mem ↔ Alone σ e) ∧ (Alone σ e → σ'.Linked L) := by
  obtain ⟨bs, hformed, hlive, hlinked⟩ := h
  -- it is enough to name the blocks after the event
  have hresult (bs' : List Block) (hformed' : Formed L σ'.heap.mem bs')
      (hlive' : σ'.live.Perm (payloads L.schedulerEnd bs'))
      (hiff : Heap.Linked σ'.heap.mem 0 L.schedulerEnd bs' ↔ Alone σ e) :
      (HeapInvariant L σ'.heap.mem ↔ Alone σ e) ∧ (Alone σ e → σ'.Linked L) :=
    ⟨hformed'.invariant_iff.trans hiff, fun hok => ⟨bs', hformed', hlive', hiff.mpr hok⟩⟩
  rcases hstep with hstep | ⟨size, fuel, rfl, _, hrun, hlive'⟩
  · cases e with
    | allocate size =>
      obtain ⟨hsize, fuel, p, hrun, hlive'⟩ := hstep
      obtain ⟨bs', hformed', hperm, _, _, hlinked', _⟩ := hformed.allocate hsize hrun
      apply hresult bs' hformed'
      · rw [hlive']
        exact (hlive.cons _).trans hperm.symm
      · exact iff_of_true (hlinked' hlinked) trivial
    | free p =>
      obtain ⟨fuel, size, hp, hrun, hlive'⟩ := hstep
      obtain ⟨bs', hformed', hperm, hiff⟩ :=
        hformed.deallocate_linked hlinked (hlive.mem_iff.mp hp) hrun
      apply hresult bs' hformed' _ hiff
      rw [hlive']
      exact (hlive.erase _).trans hperm.symm
    | write a v =>
      obtain ⟨⟨x, hx, ha⟩, rfl⟩ := hstep
      have hx := hlive.mem_iff.mp hx
      apply hresult bs (hformed.write hx ha v) hlive
      refine iff_of_true (hlinked.congr fun y hy => load_congr fun c hc hlt => ?_) trivial
      have hpos := payload_unchanged hx ha y hy
      simp only [prev] at hc hlt
      unfold AllocNode.size at hpos
      exact Function.update_of_ne (by omega) _ _
  · have htouch := hformed.allocate_null hrun
    apply hresult bs (hformed.of_count htouch)
    · rw [hlive']
      exact hlive
    · exact iff_of_true (hformed.fits.linked_of_count htouch hlinked) trivial

/-- In every state that a run of such events reaches, the links back are right. -/
theorem anyHeapReach_linked (h : AnyHeapReach L tid Alone σ) : σ.Linked L := by
  apply Runs.Reach.invariant (P := State.Linked L) ?_ ?_ h
  · rintro σ ⟨hlive, hsignature⟩
    refine ⟨[], formed_nil hsignature, ?_, trivial⟩
    rw [hlive]
    exact List.Perm.refl _
  · exact fun σ e σ' hσ hok hstep => (hσ.step hstep).2 hok

/-- In every run whose frees meet the condition the list of headers is as it should be.
After the next event it is so exactly if that event meets the condition too. -/
theorem headers_represented (L : Layout) (tid : ℕ) :
    (∀ σ : State, AnyHeapReach L tid Alone σ → HeapInvariant L σ.heap.mem) ∧
      ∀ (σ : State) (e : HeapEvent) (σ' : State), AnyHeapReach L tid Alone σ →
        AnyHeapStep L tid σ e σ' → (HeapInvariant L σ'.heap.mem ↔ Alone σ e) :=
  ⟨fun _ h => (anyHeapReach_linked h).invariant, fun _ _ _ h hstep =>
    ((anyHeapReach_linked h).step hstep).1⟩

/-! ## Runs on given inputs -/

/-- A sequence of events that all meet `ok` in every state is a run. -/
theorem anyHeapReach_execHeapEvents {ok : State → HeapEvent → Prop} {es : List HeapEvent}
    (hes : ∀ e ∈ es, ∀ σ, ok σ e)
    (h : execHeapEvents sampleLayout 1 10 es freshState = some σ) :
    AnyHeapReach sampleLayout 1 ok σ :=
  (heapReach_execHeapEvents hes heapReach_fresh h).weaken fun _ _ _ => Or.inl

/-- The theorem at the free of the first of two blocks. -/
theorem headers_represented_firstFree :
    ∃ σ σ' : State, σ.live = [(897188, 50), (897056, 100)] ∧
      AnyHeapStep sampleLayout 1 σ (.free 897056) σ' ∧
      HeapInvariant sampleLayout σ.heap.mem ∧ HeapInvariant sampleLayout σ'.heap.mem := by
  have hrun : (execHeapEvents sampleLayout 1 10 [.allocate 100, .allocate 50] freshState).map
      (fun σ => (σ.live, get σ.heap.mem 897024 prev, get σ.heap.mem 897024 next,
        get σ.heap.mem 897156 inUse, (σ.exec sampleLayout 1 10 (.free 897056)).isSome)) =
      some ([(897188, 50), (897056, 100)], 0, 897156, 1, true) := by
    decide +kernel
  obtain ⟨σ, hσ, heq⟩ := Option.map_eq_some_iff.mp hrun
  simp only [Prod.mk.injEq] at heq
  obtain ⟨hlive, hprev, hnext, huse, hfree⟩ := heq
  obtain ⟨σ', hσ'⟩ := Option.isSome_iff_exists.mp hfree
  have hreach : AnyHeapReach sampleLayout 1 Alone σ :=
    anyHeapReach_execHeapEvents (by simp [Alone]) hσ
  have hok : Alone σ (.free 897056) := by
    refine Or.inr ⟨fun hne => absurd hprev hne, ?_⟩
    change get σ.heap.mem (get σ.heap.mem 897024 next) inUse ≠ 0
    rw [hnext, huse]
    decide
  have hstep : AnyHeapStep sampleLayout 1 σ (.free 897056) σ' := Or.inl (State.exec_step hσ')
  obtain ⟨hinvariant, hexact⟩ := headers_represented sampleLayout 1
  exact ⟨σ, σ', hlive, hstep, hinvariant σ hreach, (hexact σ _ σ' hreach hstep).mpr hok⟩

/-- Of three blocks the first and the second are freed. The `prev` of the third one still
leads to the second header, which is gone. -/
theorem third_link_stale :
    ∃ σ, AnyHeapReach sampleLayout 1 (fun _ _ => True) σ ∧
      ¬ HeapInvariant sampleLayout σ.heap.mem := by
  have hrun : (execHeapEvents sampleLayout 1 10 [.allocate 100, .allocate 100, .allocate 100,
      .free 897056, .free 897188] freshState).map (fun σ => (get σ.heap.mem 897024 signature,
        get σ.heap.mem 897024 next, get σ.heap.mem 897288 prev)) =
      some (valid, 897288, 897156) := by
    decide +kernel
  obtain ⟨σ, hσ, heq⟩ := Option.map_eq_some_iff.mp hrun
  simp only [Prod.mk.injEq] at heq
  obtain ⟨hsignature, hnext, hprev⟩ := heq
  refine ⟨σ, anyHeapReach_execHeapEvents (fun _ _ _ => trivial) hσ, fun hinvariant => ?_⟩
  have hhead : sampleLayout.schedulerEnd = 897024 := by decide
  have hback := (hinvariant hsignature).back _ .head
  rw [hhead, hnext, hprev] at hback
  exact absurd (hback (by decide)) (by decide)

end SimpleOs.Heap
