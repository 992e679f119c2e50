import SimpleOs.Threads.Joiners

/-!
# The list of joiners during a call

A call of `my_pthread_join` that is not interrupted keeps the list of joiners a
proper list. Its own block may wait for a thread that has exited already, but only
until the call takes it out again.
-/

namespace SimpleOs.Threads

open LinkedList

/-- A block is done if the thread it waits for has begun to exit. -/
def Woken (s : Library) (begun : List ℕ) (b : Addr) : Prop :=
  ∀ blk, s.join_block b = some blk → blk.thread_waiting_for ∈ begun → blk.done = true

/-- The list of joiners is a proper list, and every block that waits for an exited
thread is done. -/
def Settled (s : Library) (begun : List ℕ) (l : List Addr) : Prop :=
  s.Joiners l ∧ ∀ b ∈ l, Woken s begun b

/-! ## The list of joiners during a call -/

/-- The block of a call is filled in and allocated. -/
def Join.Owns (s : Library) (j : Join) : Prop :=
  ∃ b, s.join_block j.block = some b ∧ b.thread_waiting_for = j.thread

/-- The block of a call is the first joiner, and the others are settled. -/
def Join.First (s : Library) (begun : List ℕ) (j : Join) (l : List Addr) : Prop :=
  ∃ l', l = j.block :: l' ∧ s.Joiners l ∧ j.Owns s ∧ ∀ b ∈ l', Woken s begun b

/-- Where the loop that takes a block out stands: `prev` is before `ptr`. -/
structure Join.Trail (s : Library) (j : Join) (l : List Addr) (prev ptr : Option Addr) : Prop where
  /-- An allocated `prev` points to `ptr`. -/
  next : ∀ p x, prev = some p → s.joinLink p = some x → ptr = x
  /-- As long as the block is there, the loop is in the list. -/
  mem : j.freed = false → (prev = none ∧ ptr = s.join_LL) ∨ ∃ p ∈ l, prev = some p
  /-- A freed block is not in the list. -/
  gone : j.freed = true → j.block ∉ l

/-- What holds of the joiners `l` before each step of a call. -/
def Join.Before (s : Library) (begun : List ℕ) (l : List Addr) (j : Join) : Prop :=
  match j.pc with
  | .insertTest | .insertNext =>
    Settled s begun l ∧ j.Owns s ∧ j.block ∉ l ∧ j.foundT = false ∧ j.freed = false
  | .insertFirst => Settled s begun l ∧ l = [] ∧ j.Owns s ∧ j.foundT = false ∧ j.freed = false
  | .insertFirstNext =>
    s.join_LL = some j.block ∧ l = [] ∧ j.Owns s ∧ j.foundT = false ∧ j.freed = false
  | .insertHead =>
    Settled s begun l ∧ j.Owns s ∧ j.block ∉ l ∧ s.joinLink j.block = some s.join_LL ∧
      j.foundT = false ∧ j.freed = false
  | .scanStart _ | .scan _ _ | .scanNext _ _ =>
    (if j.foundT then Settled s begun l else j.First s begun l) ∧ j.freed = false
  | .waitTest | .waitYield => Settled s begun l ∧ j.foundT = true ∧ j.freed = false
  | .unlinkStart => (Settled s begun l ∨ j.First s begun l) ∧ j.freed = false
  | .unlinkHead => ∃ l', l = j.block :: l' ∧ s.Joiners l ∧ ∀ b ∈ l', Woken s begun b
  | .unlinkHeadFree => Settled s begun l ∧ j.block ∉ l
  | .unlink prev ptr => Settled s begun l ∧ j.Trail s l prev ptr
  | .unlinkStore prev => Settled s begun l ∧ j.Trail s l prev (some j.block)
  | .unlinkFree => Settled s begun l ∧ j.block ∉ l
  | .unlinkNext a => Settled s begun l ∧ (j.freed = false → a ∈ l) ∧ (j.freed = true → j.block ∉ l)
  | _ => Settled s begun l

variable {s s' : Library} {begun : List ℕ} {l : List Addr} {j : Join}

/-- A store to a join block outside the list. -/
theorem Settled.update (h : Settled s begun l) {a : Addr} (ha : a ∉ l) (b : Option JoinBlock) :
    Settled { s with join_block := Function.update s.join_block a b } begun l := by
  have hsame (c : Addr) (hc : c ∈ l) : Function.update s.join_block a b c = s.join_block c := by
    refine Function.update_of_ne ?_ _ _
    rintro rfl
    exact ha hc
  refine ⟨h.1.congr fun c hc => ?_, fun c hc blk hblk => h.2 c hc blk ?_⟩
  · exact congrArg (Option.map (·.next)) (hsame c hc)
  · rw [← hsame c hc]
    exact hblk

/-- The return values do not matter to the joiners. -/
theorem Settled.retval (h : Settled s begun l) {block : Addr → Option RetvalBlock}
    {head : Option Addr} : Settled { s with retval_block := block, retval_LL := head } begun l :=
  ⟨h.1, h.2⟩

/-- What holds after a step: of the call, or of the joiners when it has returned. -/
def Join.After (s : Library) (begun : List ℕ) (l : List Addr) : Option Join → Prop
  | some j => j.Before s begun l
  | none => Settled s begun l

/-- The steps that put the block of the call in the list of joiners. -/
theorem Join.step_insert {garbage : Option Addr} {j' : Option Join}
    (hpc : j.pc = .insertTest ∨ j.pc = .insertFirst ∨ j.pc = .insertFirstNext ∨
      j.pc = .insertNext ∨ j.pc = .insertHead)
    (h : j.Before s begun l) (hstep : j.step s garbage = some (s', j')) :
    ∃ l', Join.After s' begun l' j' := by
  rcases hpc with hpc | hpc | hpc | hpc | hpc <;>
    simp only [Join.step, hpc] at hstep <;> simp only [Join.Before, hpc] at h
  · obtain ⟨hsettled, howns, hl, hfound, hfreed⟩ := h
    obtain ⟨rfl, rfl⟩ := Prod.mk.inj (Option.some.inj hstep)
    refine ⟨l, ?_⟩
    by_cases hnull : s.join_LL = none
    · have hempty : l = [] := by
        cases l with
        | nil => rfl
        | cons a l => exact absurd (hnull.symm.trans hsettled.1.1) (by simp)
      simp only [Join.After, Join.Before, hnull, if_true, Join.goto_pc]
      exact ⟨hsettled, hempty, howns, hfound, hfreed⟩
    · simp only [Join.After, Join.Before, hnull, if_false, Join.goto_pc]
      exact ⟨hsettled, howns, hl, hfound, hfreed⟩
  · obtain ⟨hsettled, rfl, howns, hfound, hfreed⟩ := h
    obtain ⟨rfl, rfl⟩ := Prod.mk.inj (Option.some.inj hstep)
    exact ⟨[], rfl, rfl, howns, hfound, hfreed⟩
  · obtain ⟨hhead, rfl, ⟨b, hb, hthread⟩, hfound, hfreed⟩ := h
    obtain ⟨s₁, hset, heq⟩ := Option.map_eq_some_iff.mp hstep
    obtain ⟨rfl, rfl⟩ := Prod.mk.inj heq
    obtain ⟨b', hb', rfl⟩ := Option.map_eq_some_iff.mp hset
    obtain rfl := Option.some.inj (hb.symm.trans hb')
    refine ⟨[j.block], ?_⟩
    simp only [Join.After, Join.Before, Join.goto_pc, Join.goto_foundT, hfound, Join.goto_freed]
    refine ⟨⟨[], rfl, ⟨hhead, none, ?_, rfl⟩, ⟨_, Function.update_self _ _ _, hthread⟩, ?_⟩, hfreed⟩
    · simp [Library.joinLink]
    · exact fun _ hmem => absurd hmem (by simp)
  · obtain ⟨hsettled, ⟨b, hb, hthread⟩, hl, hfound, hfreed⟩ := h
    obtain ⟨s₁, hset, heq⟩ := Option.map_eq_some_iff.mp hstep
    obtain ⟨rfl, rfl⟩ := Prod.mk.inj heq
    obtain ⟨b', hb', rfl⟩ := Option.map_eq_some_iff.mp hset
    obtain rfl := Option.some.inj (hb.symm.trans hb')
    refine ⟨l, hsettled.update hl _, ⟨_, Function.update_self _ _ _, hthread⟩, hl, ?_, hfound,
      hfreed⟩
    simp [Library.joinLink]
  · obtain ⟨hsettled, howns, hl, hlink, hfound, hfreed⟩ := h
    obtain ⟨rfl, rfl⟩ := Prod.mk.inj (Option.some.inj hstep)
    refine ⟨j.block :: l, ?_⟩
    simp only [Join.After, Join.Before, Join.goto_pc, Join.goto_foundT, hfound, Join.goto_freed]
    exact ⟨⟨l, rfl, ⟨rfl, s.join_LL, hlink, hsettled.1⟩, howns, hsettled.2⟩, hfreed⟩

/-- A call that has found its target alive need not be woken yet. -/
theorem Join.First.settled (h : j.First s begun l) (halive : j.thread ∉ begun) :
    Settled s begun l := by
  obtain ⟨l', rfl, hlist, ⟨b, hb, hthread⟩, hwoken⟩ := h
  refine ⟨hlist, fun c hc => ?_⟩
  rcases List.mem_cons.mp hc with rfl | hc
  · intro blk hblk hbegun
    obtain rfl := Option.some.inj (hb.symm.trans hblk)
    exact absurd (hthread ▸ hbegun) halive
  · exact hwoken c hc

/-- The steps that look for the target in the queues. -/
theorem Join.step_scan {garbage : Option Addr} {j' : Option Join}
    (hpc : (∃ k, j.pc = .scanStart k) ∨ (∃ k temp, j.pc = .scan k temp) ∨
      ∃ k a, j.pc = .scanNext k a)
    (halive : ∀ a t, s.queues.idAt a = some t → t ∉ begun)
    (h : j.Before s begun l) (hstep : j.step s garbage = some (s', j')) :
    ∃ l', Join.After s' begun l' j' := by
  rcases hpc with ⟨k, hpc⟩ | ⟨k, temp, hpc⟩ | ⟨k, a, hpc⟩ <;> simp only [Join.Before, hpc] at h
  · simp only [Join.step, hpc] at hstep
    obtain ⟨rfl, rfl⟩ := Prod.mk.inj (Option.some.inj hstep)
    exact ⟨l, h⟩
  · obtain ⟨rfl, ⟨_, rfl⟩ | ⟨a, n, rfl, hfound, hn, rfl⟩⟩ := Join.scan_cases hpc hstep
    · refine ⟨l, ?_⟩
      unfold Join.afterScan
      split
      · exact h
      · cases hfound : j.foundT with
        | true =>
          simp only [hfound, if_true] at h
          exact ⟨h.1, hfound, h.2⟩
        | false =>
          simp only [hfound, Bool.false_eq_true, if_false] at h
          exact ⟨Or.inr h.1, h.2⟩
    · simp only [hfound] at h
      obtain ⟨hfirst, hfreed⟩ := h
      replace hfirst : j.First s begun l := hfirst
      refine ⟨l, ?_, hfreed⟩
      by_cases hid : j.thread = n.thread_id
      · simp only [hid, decide_true, if_true]
        refine hfirst.settled (halive a _ ?_)
        simp [Queues.idAt, hn, hid]
      · simp only [hid, decide_false, Bool.false_eq_true, if_false]
        exact hfirst
  · simp only [Join.step, hpc] at hstep
    obtain ⟨rfl, rfl⟩ := Prod.mk.inj (Option.some.inj hstep)
    exact ⟨l, h⟩

/-- Reading the `next` of an allocated block. -/
theorem Library.joinNext_of_link {a : Addr} {x garbage : Option Addr}
    (h : s.joinLink a = some x) : s.joinNext a garbage = x := by
  obtain ⟨b, hb, rfl⟩ := Option.map_eq_some_iff.mp h
  simp [Library.joinNext, hb]

/-- As long as the block is there, the node that the loop looks at is in the list. -/
theorem Join.Trail.mem_ptr {prev : Option Addr} {a : Addr} (h : j.Trail s l prev (some a))
    (hlist : s.Joiners l) (hfreed : j.freed = false) : a ∈ l := by
  rcases h.mem hfreed with ⟨_, hhead⟩ | ⟨p, hp, rfl⟩
  · cases l with
    | nil => exact absurd (hhead.trans hlist) (by simp)
    | cons b l =>
      obtain rfl := Option.some.inj (hhead.trans hlist.1)
      simp
  · obtain ⟨x, hx⟩ := Option.isSome_iff_exists.mp (Segment.isSome hlist hp)
    obtain rfl := h.next p x rfl hx
    exact Segment.mem_of_link hlist hp hx

/-- Taking the block out of the middle of the list of joiners. -/
theorem Join.Trail.store {p : Addr} {garbage : Option Addr}
    (h : j.Trail s l (some p) (some j.block)) (hsettled : Settled s begun l)
    (hset : s.setJoinNext p (s.joinNext j.block garbage) = some s') :
    ∃ l', Join.After s' begun l' (some (j.goto .unlinkFree)) := by
  obtain ⟨b, hb, rfl⟩ := Option.map_eq_some_iff.mp hset
  by_cases hp : p ∈ l
  · have hlink : s.joinLink p = some (some j.block) := by
      have hnext : s.joinLink p = some b.next := by simp [Library.joinLink, hb]
      rw [hnext, ← h.next p _ rfl hnext]
    have hmem : j.block ∈ l := Segment.mem_of_link hsettled.1 hp hlink
    obtain ⟨x, hx⟩ := Option.isSome_iff_exists.mp (Segment.isSome hsettled.1 hmem)
    obtain ⟨l', hl', hgone, hsub⟩ := Segment.unlink hsettled.1 hp hlink hx
    refine ⟨l', ⟨?_, fun c hc blk hblk => ?_⟩, hgone⟩
    · refine hl'.congr fun c _ => ?_
      rw [Library.joinNext_of_link hx]
      by_cases hcp : c = p
      · subst hcp
        simp [Library.joinLink]
      · simp [Library.joinLink, hcp]
    · by_cases hcp : c = p
      · subst hcp
        simp only [Function.update_self, Option.some.injEq] at hblk
        rw [← hblk]
        exact hsettled.2 c (hsub c hc) b hb
      · simp only [Function.update_of_ne hcp] at hblk
        exact hsettled.2 c (hsub c hc) blk hblk
  · refine ⟨l, hsettled.update hp _, ?_⟩
    cases hfreed : j.freed with
    | true => exact h.gone hfreed
    | false =>
      rcases h.mem hfreed with ⟨hnone, _⟩ | ⟨p', hp', heq⟩
      · exact absurd hnone (by simp)
      · exact absurd (Option.some.inj heq ▸ hp') hp

/-- The steps that take the block of the call out of the list of joiners. -/
theorem Join.step_unlink {garbage : Option Addr} {j' : Option Join}
    (hpc : j.pc = .waitTest ∨ j.pc = .unlinkStart ∨ j.pc = .unlinkHead ∨ j.pc = .unlinkHeadFree ∨
      (∃ prev ptr, j.pc = .unlink prev ptr) ∨ (∃ prev, j.pc = .unlinkStore prev) ∨
      j.pc = .unlinkFree ∨ ∃ a, j.pc = .unlinkNext a)
    (h : j.Before s begun l) (hstep : j.step s garbage = some (s', j')) :
    ∃ l', Join.After s' begun l' j' := by
  rcases hpc with hpc | hpc | hpc | hpc | ⟨prev, ptr, hpc⟩ | ⟨prev, hpc⟩ | hpc | ⟨a, hpc⟩ <;>
    simp only [Join.step, hpc] at hstep <;> simp only [Join.Before, hpc] at h
  · obtain ⟨b, _, heq⟩ := Option.map_eq_some_iff.mp hstep
    obtain ⟨rfl, rfl⟩ := Prod.mk.inj heq
    refine ⟨l, ?_⟩
    split
    · exact ⟨Or.inl h.1, h.2.2⟩
    · exact h
  · obtain ⟨rfl, rfl⟩ := Prod.mk.inj (Option.some.inj hstep)
    obtain ⟨h, hfreed⟩ := h
    refine ⟨l, ?_⟩
    rcases h with hsettled | hfirst
    · split
      · rename_i hhead
        cases l with
        | nil => exact absurd (hhead.symm.trans hsettled.1) (by simp)
        | cons a l =>
          obtain rfl : a = j.block := Option.some.inj (hsettled.1.1.symm.trans hhead)
          exact ⟨l, rfl, hsettled.1, fun b hb => hsettled.2 b (List.mem_cons_of_mem _ hb)⟩
      · refine ⟨hsettled, ?_, fun _ => Or.inl ⟨rfl, rfl⟩, fun hf => ?_⟩
        · exact fun p x hp => absurd hp (by simp)
        · exact absurd (hfreed.symm.trans hf) (by simp)
    · obtain ⟨l', rfl, hlist, _, hwoken⟩ := hfirst
      rw [if_pos hlist.1]
      exact ⟨l', rfl, hlist, hwoken⟩
  · obtain ⟨l', rfl, hlist, hwoken⟩ := h
    obtain ⟨rfl, rfl⟩ := Prod.mk.inj (Option.some.inj hstep)
    have hnodup := Segment.nodup hlist
    obtain ⟨_, next, hnext, hl'⟩ := hlist
    refine ⟨l', ⟨?_, hwoken⟩, (List.nodup_cons.mp hnodup).1⟩
    unfold Library.Joiners
    rw [Library.joinNext_of_link hnext]
    exact hl'
  · obtain ⟨hsettled, hl⟩ := h
    obtain ⟨s₁, hfree, heq⟩ := Option.map_eq_some_iff.mp hstep
    obtain ⟨rfl, rfl⟩ := Prod.mk.inj heq
    obtain ⟨_, _, rfl⟩ := Option.map_eq_some_iff.mp hfree
    exact ⟨l, hsettled.update hl none⟩
  · obtain ⟨hsettled, htrail⟩ := h
    cases ptr with
    | none =>
      obtain ⟨rfl, rfl⟩ := Prod.mk.inj (Option.some.inj hstep)
      exact ⟨l, hsettled⟩
    | some a =>
      obtain ⟨rfl, rfl⟩ := Prod.mk.inj (Option.some.inj hstep)
      refine ⟨l, ?_⟩
      split
      · rename_i ha
        subst ha
        exact ⟨hsettled, htrail.next, htrail.mem, htrail.gone⟩
      · exact ⟨hsettled, fun hfreed => htrail.mem_ptr hsettled.1 hfreed, htrail.gone⟩
  · obtain ⟨hsettled, htrail⟩ := h
    obtain ⟨p, rfl, hstep⟩ := Option.bind_eq_some_iff.mp hstep
    obtain ⟨s₁, hset, heq⟩ := Option.map_eq_some_iff.mp hstep
    obtain ⟨rfl, rfl⟩ := Prod.mk.inj heq
    exact htrail.store hsettled hset
  · obtain ⟨hsettled, hl⟩ := h
    obtain ⟨s₁, hfree, heq⟩ := Option.map_eq_some_iff.mp hstep
    obtain ⟨rfl, rfl⟩ := Prod.mk.inj heq
    obtain ⟨_, _, rfl⟩ := Option.map_eq_some_iff.mp hfree
    exact ⟨l, hsettled.update hl none, fun hfreed => absurd hfreed (by simp), fun _ => hl⟩
  · obtain ⟨hsettled, hmem, hgone⟩ := h
    obtain ⟨rfl, rfl⟩ := Prod.mk.inj (Option.some.inj hstep)
    refine ⟨l, hsettled, ?_, fun hfreed => Or.inr ⟨a, hmem hfreed, rfl⟩, hgone⟩
    intro p x hp hx
    obtain rfl := Option.some.inj hp
    exact Library.joinNext_of_link hx

/-- The steps that look for a return value leave the joiners alone. -/
theorem Join.step_retval {garbage : Option Addr} {j' : Option Join}
    (hpc : j.pc = .retvalStart ∨ (∃ prev ptr, j.pc = .retval prev ptr) ∨
      (∃ prev a, j.pc = .retvalTake prev a) ∨ (∃ prev a, j.pc = .retvalUnlink prev a) ∨
      (∃ a, j.pc = .retvalFree a) ∨ (∃ a, j.pc = .retvalNext a) ∨ j.pc = .return_)
    (h : j.Before s begun l) (hstep : j.step s garbage = some (s', j')) :
    ∃ l', Join.After s' begun l' j' := by
  rcases hpc with hpc | ⟨prev, ptr, hpc⟩ | ⟨prev, a, hpc⟩ | ⟨prev, a, hpc⟩ | ⟨a, hpc⟩ | ⟨a, hpc⟩ |
    hpc <;> simp only [Join.step, hpc] at hstep <;> simp only [Join.Before, hpc] at h <;>
    refine ⟨l, ?_⟩
  · obtain ⟨rfl, rfl⟩ := Prod.mk.inj (Option.some.inj hstep)
    split <;> exact h
  · cases ptr with
    | none =>
      obtain ⟨rfl, rfl⟩ := Prod.mk.inj (Option.some.inj hstep)
      exact h
    | some a =>
      obtain ⟨b, _, heq⟩ := Option.map_eq_some_iff.mp hstep
      obtain ⟨rfl, rfl⟩ := Prod.mk.inj heq
      split <;> exact h
  · obtain ⟨b, _, heq⟩ := Option.map_eq_some_iff.mp hstep
    obtain ⟨rfl, rfl⟩ := Prod.mk.inj heq
    exact h
  · obtain ⟨b, _, hstep⟩ := Option.bind_eq_some_iff.mp hstep
    cases prev with
    | none =>
      obtain ⟨rfl, rfl⟩ := Prod.mk.inj (Option.some.inj hstep)
      exact h.retval
    | some p =>
      obtain ⟨s₁, hset, heq⟩ := Option.map_eq_some_iff.mp hstep
      obtain ⟨rfl, rfl⟩ := Prod.mk.inj heq
      obtain ⟨c, _, rfl⟩ := Option.map_eq_some_iff.mp hset
      exact h.retval
  · obtain ⟨b, _, heq⟩ := Option.map_eq_some_iff.mp hstep
    obtain ⟨rfl, rfl⟩ := Prod.mk.inj heq
    exact h.retval
  · obtain ⟨b, _, heq⟩ := Option.map_eq_some_iff.mp hstep
    obtain ⟨rfl, rfl⟩ := Prod.mk.inj heq
    exact h
  · obtain ⟨rfl, rfl⟩ := Prod.mk.inj (Option.some.inj hstep)
    exact h

/-- Every step of a call keeps what holds of the joiners. -/
theorem Join.step_before {garbage : Option Addr} {j' : Option Join}
    (halive : ∀ a t, s.queues.idAt a = some t → t ∉ begun)
    (h : j.Before s begun l) (hstep : j.step s garbage = some (s', j')) :
    ∃ l', Join.After s' begun l' j' := by
  cases hpc : j.pc with
  | insertTest => exact Join.step_insert (by simp [hpc]) h hstep
  | insertFirst => exact Join.step_insert (by simp [hpc]) h hstep
  | insertFirstNext => exact Join.step_insert (by simp [hpc]) h hstep
  | insertNext => exact Join.step_insert (by simp [hpc]) h hstep
  | insertHead => exact Join.step_insert (by simp [hpc]) h hstep
  | scanStart k => exact Join.step_scan (by simp [hpc]) halive h hstep
  | scan k temp => exact Join.step_scan (by simp [hpc]) halive h hstep
  | scanNext k a => exact Join.step_scan (by simp [hpc]) halive h hstep
  | waitTest => exact Join.step_unlink (by simp [hpc]) h hstep
  | waitYield => exact absurd hstep (by simp [Join.step, hpc])
  | unlinkStart => exact Join.step_unlink (by simp [hpc]) h hstep
  | unlinkHead => exact Join.step_unlink (by simp [hpc]) h hstep
  | unlinkHeadFree => exact Join.step_unlink (by simp [hpc]) h hstep
  | unlink prev ptr => exact Join.step_unlink (by simp [hpc]) h hstep
  | unlinkStore prev => exact Join.step_unlink (by simp [hpc]) h hstep
  | unlinkFree => exact Join.step_unlink (by simp [hpc]) h hstep
  | unlinkNext a => exact Join.step_unlink (by simp [hpc]) h hstep
  | retvalStart => exact Join.step_retval (by simp [hpc]) h hstep
  | retval prev ptr => exact Join.step_retval (by simp [hpc]) h hstep
  | retvalTake prev a => exact Join.step_retval (by simp [hpc]) h hstep
  | retvalUnlink prev a => exact Join.step_retval (by simp [hpc]) h hstep
  | retvalFree a => exact Join.step_retval (by simp [hpc]) h hstep
  | retvalNext a => exact Join.step_retval (by simp [hpc]) h hstep
  | return_ => exact Join.step_retval (by simp [hpc]) h hstep

end SimpleOs.Threads
