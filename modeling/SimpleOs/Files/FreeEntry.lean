import SimpleOs.Files.Bytemap

/-!
# The search for a free entry ends

From any position the search comes to every entry but the first within 9999 steps. So it
ends if an entry is free. If none is, it goes on until a read fails, and does not end
without errors.
-/

namespace SimpleOs.Files

open Bytes

variable {type : MapType} {s s' : Sfs} {kept : Option (ℕ × Memory)} {fuel n k e rand : ℕ}
  {r : Option (ℕ × ℕ × Memory) × Sfs}

/-! ## Positions -/

/-- The search goes up to the end of the map. -/
theorem iterate_nextPosition (h : n + k ≤ 4999) : nextPosition^[k] n = n + k := by
  induction k with
  | zero => rfl
  | succ k ih =>
    rw [Function.iterate_succ_apply', ih (by omega), nextPosition, if_neg (by omega)]
    rfl

/-- What the search sees: the entries behind the first, and the one where it begins. -/
theorem iterate_nextPosition_seen (n k : ℕ) :
    1 ≤ nextPosition^[k] n ∨ nextPosition^[k] n = n := by
  cases k with
  | zero => exact Or.inr rfl
  | succ k =>
    rw [Function.iterate_succ_apply', nextPosition]
    split <;> omega

/-- The search comes to every entry behind the first, and to the one where it begins. -/
theorem exists_iterate_nextPosition (hn : n < 5000) (he : 1 ≤ e ∨ e = n) (hlt : e < 5000) :
    ∃ k < 9999, nextPosition^[k] n = e := by
  rcases he with he | rfl
  · refine ⟨(e - 1) + (1 + (4999 - n)), by omega, ?_⟩
    have hend : nextPosition^[4999 - n] n = 4999 := by
      rw [iterate_nextPosition (by omega)]
      omega
    have hfirst : nextPosition^[1] 4999 = 1 := rfl
    rw [Function.iterate_add_apply, Function.iterate_add_apply, hend, hfirst,
      iterate_nextPosition (by omega)]
    omega
  · exact ⟨0, by decide, rfl⟩

/-- From every position the search comes to another block within two turns. -/
theorem exists_leaves_block (hn : n < 5000) (block_in : ℕ) :
    ∃ k < 9999, nextPosition^[k] n / BLOCK_SIZE ≠ block_in := by
  by_cases hzero : block_in = 0
  · obtain ⟨k, hk, heq⟩ := exists_iterate_nextPosition hn (e := 4999) (by omega) (by omega)
    refine ⟨k, hk, ?_⟩
    rw [heq, hzero]
    decide
  · obtain ⟨k, hk, heq⟩ := exists_iterate_nextPosition hn (e := 1) (by omega) (by omega)
    refine ⟨k, hk, ?_⟩
    rw [heq]
    exact Ne.symm hzero

/-! ## Steps of the search -/

/-- At the beginning no block is kept. -/
theorem none_holds {disk : Memory} :
    ∀ x ∈ (none : Option (ℕ × Memory)), HoldsBlock disk type x.1 x.2 := by
  simp

/-- One step of the search reads the block it needs, unless it is the one kept, and tests its entry.
-/
theorem findFree_succ (hn : n < 5000) : findFree type (fuel + 1) n kept s =
    match keepBlock type kept (n / BLOCK_SIZE) s with
    | (none, s) => some (none, s)
    | (some temp, s) =>
      if temp (n % BLOCK_SIZE) = 1 then
        findFree type fuel (nextPosition n) (some (n / BLOCK_SIZE, temp)) s
      else some (some (n, n / BLOCK_SIZE, temp), s) := by
  rw [findFree, findBlockForBitmap_entry hn]
  rfl

/-- A search that ends does the same with more steps. -/
theorem findFree_mono (hn : n < 5000) (h : findFree type fuel n kept s = some r) :
    findFree type (fuel + k) n kept s = some r := by
  induction fuel generalizing n kept s with
  | zero => exact absurd h (by simp [findFree])
  | succ fuel ih =>
    rw [Nat.succ_add, findFree_succ hn]
    rw [findFree_succ hn] at h
    rcases hread : keepBlock type kept (n / BLOCK_SIZE) s with ⟨_ | temp, s₁⟩
    · rw [hread] at h
      exact h
    · rw [hread] at h
      simp only at h ⊢
      split at h
      · rename_i hused
        rw [if_pos hused]
        exact ih (nextPosition_lt hn) h
      · rename_i hfree
        rw [if_neg hfree]
        exact h

/-- Without errors the search ends at a free entry. -/
theorem findFree_isSome (hs : s.errors = []) (hn : n < 5000)
    (hkept : ∀ x ∈ kept, HoldsBlock s.disk type x.1 x.2)
    (hfree : ∃ k < fuel, s.disk (type.entry (nextPosition^[k] n)) ≠ 1) :
    (findFree type fuel n kept s).isSome := by
  induction fuel generalizing n kept with
  | zero =>
    obtain ⟨k, hk, _⟩ := hfree
    omega
  | succ fuel ih =>
    obtain ⟨temp, htemp, hread⟩ := keepBlock_spec hs hn hkept
    have hbyte : temp (n % BLOCK_SIZE) = s.disk (type.entry n) := by
      rw [htemp _ (Nat.mod_lt _ (by decide)), MapType.entry_eq]
    rw [findFree_succ hn, hread]
    simp only [hbyte]
    split
    · rename_i hused
      apply ih (nextPosition_lt hn) (by simpa using htemp)
      obtain ⟨_ | k, hk, hfree⟩ := hfree
      · exact absurd hused hfree
      · exact ⟨k, by omega, hfree⟩
    · rfl

/-! ## Enough steps -/

/-- A block that is there was kept or has been read. -/
theorem keepBlock_cases {temp : Memory}
    (h : keepBlock type kept (n / BLOCK_SIZE) s = (some temp, s')) (hn : n < 5000) :
    (kept = some (n / BLOCK_SIZE, temp) ∧ s' = s) ∨
      (s' = { s with errors := s.errors.tail } ∧ HoldsBlock s.disk type (n / BLOCK_SIZE) temp) := by
  have hread (h : blockRead (type.offset + n / BLOCK_SIZE) s = (some temp, s')) :
      s' = { s with errors := s.errors.tail } ∧ HoldsBlock s.disk type (n / BLOCK_SIZE) temp := by
    rw [blockRead, type.blockOffset_eq hn] at h
    obtain ⟨htemp, rfl⟩ := Prod.mk.inj h
    split at htemp
    · exact absurd htemp (by simp)
    · obtain rfl := Option.some.inj htemp
      exact ⟨rfl, fun _ _ => rfl⟩
  rcases kept with _ | ⟨currBlock, temp'⟩
  · exact Or.inr (hread h)
  · by_cases heq : n / BLOCK_SIZE = currBlock
    · rw [keepBlock, if_neg (not_not.mpr heq)] at h
      obtain ⟨htemp, rfl⟩ := Prod.mk.inj h
      rw [heq, Option.some.inj htemp]
      exact Or.inl ⟨rfl, rfl⟩
    · rw [keepBlock, if_pos heq] at h
      exact Or.inr (hread h)

/-- A search without errors that ends at all ends within 9999 steps. -/
theorem findFree_isSome_calm (hs : s.errors = []) (hn : n < 5000)
    (hkept : ∀ x ∈ kept, HoldsBlock s.disk type x.1 x.2)
    (h : (findFree type fuel n kept s).isSome) : (findFree type 9999 n kept s).isSome := by
  obtain ⟨⟨found, s'⟩, hrun⟩ := Option.isSome_iff_exists.mp h
  obtain ⟨_, m, _, _, hm, ⟨k, rfl, hfree, _⟩, _⟩ := findFree_spec hs hn hkept hrun
  apply findFree_isSome hs hn hkept
  obtain ⟨k', hk', heq⟩ := exists_iterate_nextPosition hn (iterate_nextPosition_seen n k) hm
  exact ⟨k', hk', heq ▸ hfree⟩

/-- A search that ends also ends with more fuel. -/
theorem findFree_isSome_mono {fuel' : ℕ} (hn : n < 5000) (hle : fuel ≤ fuel')
    (h : (findFree type fuel n kept s).isSome) : (findFree type fuel' n kept s).isSome := by
  obtain ⟨r, hr⟩ := Option.isSome_iff_exists.mp h
  obtain ⟨k, rfl⟩ := Nat.exists_eq_add_of_le hle
  rw [findFree_mono hn hr]
  rfl

/-- With other numbers of steps a search ends if it does so after the first one. -/
theorem findFree_isSome_step {fuel' : ℕ} (hn : n < 5000)
    (h : (findFree type fuel n kept s).isSome)
    (hnext : ∀ fuel temp s', keepBlock type kept (n / BLOCK_SIZE) s = (some temp, s') →
      (findFree type fuel (nextPosition n) (some (n / BLOCK_SIZE, temp)) s').isSome →
      (findFree type fuel' (nextPosition n) (some (n / BLOCK_SIZE, temp)) s').isSome) :
    (findFree type (fuel' + 1) n kept s).isSome := by
  rcases fuel with _ | fuel
  · exact absurd h (by simp [findFree])
  rw [findFree_succ hn] at h ⊢
  rcases hread : keepBlock type kept (n / BLOCK_SIZE) s with ⟨_ | temp, s'⟩
  · rfl
  · rw [hread] at h
    simp only at h ⊢
    split at h
    · rename_i hused
      rw [if_pos hused]
      exact hnext fuel temp s' hread h
    · rename_i hfree
      rw [if_neg hfree]
      rfl

/-- A search that ends at all ends within 10000 steps for every error that can come and
10000 more: in 10000 steps it reads a block. -/
theorem findFree_isSome_enough {count : ℕ} (hcount : s.errors.length ≤ count) (hn : n < 5000)
    (hkept : ∀ x ∈ kept, HoldsBlock s.disk type x.1 x.2)
    (h : (findFree type fuel n kept s).isSome) :
    (findFree type (10000 * (count + 1)) n kept s).isSome := by
  induction count generalizing n kept s fuel with
  | zero =>
    have hs : s.errors = [] := List.length_eq_zero_iff.mp (Nat.le_zero.mp hcount)
    exact findFree_isSome_mono hn (by omega) (findFree_isSome_calm hs hn hkept h)
  | succ count ih =>
    have hrest {n block_in fuel : ℕ} {temp : Memory} (hn : n < 5000)
        (hholds : HoldsBlock s.disk type block_in temp)
        (h : (findFree type fuel n (some (block_in, temp))
          { s with errors := s.errors.tail }).isSome) :
        (findFree type (10000 * (count + 1)) n (some (block_in, temp))
          { s with errors := s.errors.tail }).isSome := by
      apply ih ?_ hn (by simpa using hholds) h
      rw [List.length_tail]
      omega
    -- The block that is kept is left after `k` steps.
    have hsteps (k : ℕ) : ∀ {n fuel : ℕ}, n < 5000 →
        (∀ x ∈ kept, nextPosition^[k] n / BLOCK_SIZE ≠ x.1) →
        (findFree type fuel n kept s).isSome →
        (findFree type (10000 * (count + 1) + k + 1) n kept s).isSome := by
      induction k with
      | zero =>
        intro n fuel hn hleaves h
        apply findFree_isSome_step hn h
        intro fuel temp s' hkeep hagain
        rcases keepBlock_cases hkeep hn with ⟨hsome, _⟩ | ⟨rfl, hholds⟩
        · exact absurd rfl (hleaves _ hsome)
        · exact hrest (nextPosition_lt hn) hholds hagain
      | succ k ihk =>
        intro n fuel hn hleaves h
        apply findFree_isSome_step hn h
        intro fuel temp s' hkeep hagain
        rcases keepBlock_cases hkeep hn with ⟨hsome, rfl⟩ | ⟨rfl, hholds⟩
        · rw [← hsome] at hagain ⊢
          exact ihk (nextPosition_lt hn) hleaves hagain
        · exact findFree_isSome_mono (nextPosition_lt hn) (by omega)
            (hrest (nextPosition_lt hn) hholds hagain)
    rcases kept with _ | ⟨currBlock, temp⟩
    · exact findFree_isSome_mono hn (by omega) (hsteps 0 hn (by simp) h)
    · obtain ⟨k, hk, hleaves⟩ := exists_leaves_block hn currBlock
      exact findFree_isSome_mono hn (by omega) (hsteps k hn (by simpa using hleaves) h)

/-- The numbers of steps with which the search is modelled are enough. -/
theorem findFree_enough (hn : n < 5000) (h : findFree type fuel n none s = some r) :
    findFree type (10000 * (s.errors.length + 1)) n none s = some r := by
  have hsome : (findFree type fuel n none s).isSome := by
    rw [h]
    rfl
  obtain ⟨r', hr'⟩ := Option.isSome_iff_exists.mp
    (findFree_isSome_enough le_rfl hn none_holds hsome)
  have hsame := findFree_mono hn (k := fuel) hr'
  rw [Nat.add_comm, findFree_mono hn h] at hsame
  rw [hr', hsame]

/-- `getFreeBitMapEntry` does not return exactly if the search never ends. -/
theorem getFreeBitMapEntry_eq_none : getFreeBitMapEntry type rand s = none ↔
    ∀ fuel, findFree type fuel (rand % 5000) none s = none := by
  constructor
  · intro h fuel
    cases hfind : findFree type fuel (rand % 5000) none s with
    | none => rfl
    | some r =>
      rw [getFreeBitMapEntry, findFree_enough (Nat.mod_lt _ (by decide)) hfind] at h
      obtain ⟨_ | ⟨position, currBlock, temp⟩, s₁⟩ := r
      · exact absurd h (by simp)
      · simp only [Option.bind_eq_bind, Option.bind_some] at h
        split at h <;> exact absurd h (by simp)
  · intro h
    rw [getFreeBitMapEntry, h]
    rfl

/-! ## Calls without errors -/

/-- Without errors a free entry is found, if there is one that the search comes to. -/
theorem getFreeBitMapEntry_eq (rand : ℕ) (hs : s.errors = []) (he : 1 ≤ e ∨ e = rand % 5000)
    (hlt : e < 5000) (hfree : s.disk (type.entry e) ≠ 1) :
    ∃ m < 5000, FirstFree s.disk type (rand % 5000) m ∧
      getFreeBitMapEntry type rand s =
        some (some m, { s with disk := Function.update s.disk (type.entry m) 1 }) := by
  cases hrun : getFreeBitMapEntry type rand s with
  | none =>
    rw [getFreeBitMapEntry_eq_none] at hrun
    obtain ⟨k, hk, heq⟩ := exists_iterate_nextPosition (Nat.mod_lt rand (by decide)) he hlt
    have hsome := findFree_isSome hs (Nat.mod_lt rand (by decide)) none_holds ⟨k, hk, heq ▸ hfree⟩
    rw [hrun] at hsome
    exact absurd hsome (by simp)
  | some r =>
    obtain ⟨found, s'⟩ := r
    obtain ⟨m, rfl, hm, hfirst, rfl⟩ := getFreeBitMapEntry_spec hrun hs
    exact ⟨m, hm, hfirst, rfl⟩

/-- If some entry but the first is free, `getFreeBitMapEntry` returns the first free one
from the random position on, sets its byte to 1 and changes nothing else. As long as the
byte is 1, no call returns the entry again. -/
theorem getFreeBitMapEntry_firstFree (type : MapType) (rand : ℕ) (s : Sfs) (hs : s.errors = [])
    (hfree : ∃ e, 1 ≤ e ∧ e < 5000 ∧ s.disk (type.entry e) ≠ 1) :
    ∃ m < 5000, FirstFree s.disk type (rand % 5000) m ∧
      getFreeBitMapEntry type rand s =
        some (some m, { s with disk := Function.update s.disk (type.entry m) 1 }) ∧
      ∀ (t t' : Sfs) (rand' m' : ℕ), t.errors = [] → t.disk (type.entry m) = 1 →
        getFreeBitMapEntry type rand' t = some (some m', t') → m' ≠ m := by
  obtain ⟨e, he, hlt, hfree⟩ := hfree
  obtain ⟨m, hm, hfirst, hrun⟩ := getFreeBitMapEntry_eq rand hs (.inl he) hlt hfree
  refine ⟨m, hm, hfirst, hrun, ?_⟩
  rintro t t' rand' m' ht hused hagain rfl
  obtain ⟨_, hsome, _, ⟨_, _, hfree', _⟩, _⟩ := getFreeBitMapEntry_spec hagain ht
  obtain rfl := Option.some.inj hsome
  exact hfree' hused

/-- A disk on which entries 4990 to 4999 and 1 to 3 of the data map are in use. -/
def wrapDisk : Memory := fun c =>
  if 10110 ≤ c ∧ c < 10120 ∨ 5121 ≤ c ∧ c < 5124 then 1 else 0

/-- The search from entry 4990 passes the end of the map, which is in its last block, goes on
with entry 1 in its first block, although entry 0 is free, and returns entry 4. No later call
returns it again. -/
theorem getFreeBitMapEntry_firstFree_wraps :
    FirstFree wrapDisk .data 4990 4 ∧
      getFreeBitMapEntry .data 9990 ⟨wrapDisk, [], 0, 0⟩ =
        some (some 4, ⟨Function.update wrapDisk (MapType.data.entry 4) 1, [], 0, 0⟩) ∧
      ∀ (rand m : ℕ) (t : Sfs), getFreeBitMapEntry .data rand
        ⟨Function.update wrapDisk (MapType.data.entry 4) 1, [], 0, 0⟩ = some (some m, t) →
          m ≠ 4 := by
  have hfour : FirstFree wrapDisk .data 4990 4 := ⟨13, by decide, by decide, by decide⟩
  obtain ⟨m, _, hfirst, hrun, hagain⟩ :=
    getFreeBitMapEntry_firstFree .data 9990 ⟨wrapDisk, [], 0, 0⟩ rfl ⟨4, by decide⟩
  obtain rfl : m = 4 := hfirst.unique hfour
  exact ⟨hfour, hrun, fun rand m' t ht => hagain _ t rand m' rfl (by simp) ht⟩

end SimpleOs.Files
