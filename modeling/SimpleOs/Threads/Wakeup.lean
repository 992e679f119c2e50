import SimpleOs.Library.Runs
import SimpleOs.Threads.Waiting

/-!
# Joiners of an exited thread

When library calls are interrupted only at their yields, the list of joiners is
a proper list whenever another thread can see it, and a joiner that waits has a
live target. The loop in `my_pthread_exit` stops at the first joiner it finds, so
all of them are woken only if there is at most one.
-/

namespace SimpleOs.Threads

open LinkedList

variable {s s' : Library} {begun : List ℕ} {l : List Addr}

/-! ## Thread ids -/

/-- The live threads have distinct ids that no exited thread had, and the next id
is new. -/
structure Identified (s : Library) (begun : List ℕ) : Prop where
  /-- No thread has exited whose node is still there. -/
  exited : ∀ a, ¬ s.queues.ExitedAt a
  /-- A live thread has not begun to exit. -/
  alive : ∀ a t, s.queues.idAt a = some t → t ∉ begun
  /-- Two live threads have different ids. -/
  distinct : ∀ a b t, s.queues.idAt a = some t → s.queues.idAt b = some t → a = b
  /-- The next id is new. -/
  fresh : ∀ t, (t ∈ begun ∨ ∃ a, s.queues.idAt a = some t) → t < s.nextThreadId
  /-- Before the first scheduler call there are no threads. -/
  start : s.queues.running_queue_head = none →
    (∀ a, s.queues.idAt a = none) ∧ begun = [] ∧ 2 ≤ s.nextThreadId

/-- The condition on a creation: thread ids have not wrapped around. -/
def IdsLeft (s : Library) : Prop := s.nextThreadId + 1 < 2 ^ 32

/-- A call that creates no thread keeps the ids distinct. -/
theorem Identified.of_ids {begun' : List ℕ} (h : Identified s begun) (original : Addr)
    (hexited : ∀ a, ¬ s'.queues.ExitedAt a) (hrunning : s'.queues.running_queue_head ≠ none)
    (hnext : s'.nextThreadId = s.nextThreadId)
    (hid : ∀ a t, s'.queues.idAt a = some t →
      (s.queues.running_queue_head = none ∧ a = original ∧ t = 1) ∨
        (s.queues.idAt a = some t ∧ t ∉ begun'))
    (hbegun : ∀ t ∈ begun', t ∈ begun ∨ ∃ a, s.queues.idAt a = some t) :
    Identified s' begun' := by
  have hstart := h.start
  refine ⟨hexited, fun a t ha => ?_, fun a b t ha hb => ?_, fun t ht => ?_,
    fun hnone => absurd hnone hrunning⟩
  · rcases hid a t ha with ⟨hnone, rfl, rfl⟩ | ⟨_, hout⟩
    · intro hmem
      rcases hbegun 1 hmem with hold | ⟨b, hb⟩
      · simp [(hstart hnone).2.1] at hold
      · simp [(hstart hnone).1 b] at hb
    · exact hout
  · rcases hid a t ha with ⟨hnone, haeq, rfl⟩ | ⟨hold, _⟩ <;>
      rcases hid b _ hb with ⟨hnone', hbeq, _⟩ | ⟨hold', _⟩
    · rw [haeq, hbeq]
    · exact absurd hold' (by simp [(hstart hnone).1 b])
    · exact absurd hold (by simp [(hstart hnone').1 a])
    · exact h.distinct a b t hold hold'
  · rw [hnext]
    rcases ht with ht | ⟨a, ha⟩
    · exact h.fresh t (hbegun t ht)
    · rcases hid a t ha with ⟨hnone, _, rfl⟩ | ⟨hold, _⟩
      · have := (hstart hnone).2.2
        omega
      · exact h.fresh t (Or.inr ⟨a, hold⟩)

/-- The ids behind the nodes after a creation. -/
theorem Call.idsAfter_create {newNode original a : Addr} {t : ℕ}
    (h : (Call.create newNode original).idsAfter s a = some t) :
    (s.queues.running_queue_head = none ∧ a = original ∧ t = 1) ∨
      (a = newNode ∧ t = s.nextThreadId) ∨ s.queues.idAt a = some t := by
  unfold Call.idsAfter at h
  split at h
  · rename_i hfirst
    exact Or.inl ⟨hfirst.1, hfirst.2, (Option.some.inj h).symm⟩
  · simp only at h
    split at h
    · rename_i hnew
      exact Or.inr (Or.inl ⟨hnew, (Option.some.inj h).symm⟩)
    · exact Or.inr (Or.inr h)

/-- A creation gives its thread an id that no thread had. -/
theorem Identified.create {v : Version} {fuel : ℕ} {newNode original : Addr}
    (h : Identified s begun) (hids : IdsLeft s)
    (hexec : (Call.create newNode original).exec v fuel s = some s') : Identified s' begun := by
  obtain ⟨hid, hexited, hnext, hrunning⟩ := Call.exec_same h.exited hexec
  replace hnext : s'.nextThreadId = s.nextThreadId + 1 := hnext.trans (Nat.mod_eq_of_lt hids)
  have hcases (a : Addr) (t : ℕ) (ha : s'.queues.idAt a = some t) :=
    Call.idsAfter_create ((hid a).symm.trans ha)
  have hstart := h.start
  have hnew (c : Addr) : s.queues.idAt c ≠ some s.nextThreadId := fun hc =>
    absurd (h.fresh _ (Or.inr ⟨c, hc⟩)) (lt_irrefl _)
  refine ⟨hexited, fun a t ha => ?_, fun a b t ha hb => ?_, fun t ht => ?_,
    fun hnone => absurd hnone hrunning⟩
  · rcases hcases a t ha with ⟨hnone, rfl, rfl⟩ | ⟨rfl, rfl⟩ | hold
    · simp [(hstart hnone).2.1]
    · exact fun hmem => absurd (h.fresh _ (Or.inl hmem)) (lt_irrefl _)
    · exact h.alive a t hold
  · rcases hcases a t ha with ⟨hnone, haeq, rfl⟩ | ⟨haeq, rfl⟩ | hold <;>
      rcases hcases b _ hb with ⟨hnone', hbeq, hteq⟩ | ⟨hbeq, hteq⟩ | hold'
    · rw [haeq, hbeq]
    · have := (hstart hnone).2.2
      omega
    · exact absurd hold' (by simp [(hstart hnone).1 b])
    · have := (hstart hnone').2.2
      omega
    · rw [haeq, hbeq]
    · exact absurd hold' (hnew b)
    · exact absurd hold (by simp [(hstart hnone').1 a])
    · subst hteq
      exact absurd hold (hnew a)
    · exact h.distinct a b t hold hold'
  · rw [hnext]
    rcases ht with ht | ⟨a, ha⟩
    · have := h.fresh t (Or.inl ht)
      omega
    · rcases hcases a t ha with ⟨hnone, _, rfl⟩ | ⟨_, rfl⟩ | hold
      · have := (hstart hnone).2.2
        omega
      · omega
      · have := h.fresh t (Or.inr ⟨a, hold⟩)
        omega

/-- The ids behind the nodes after a call that neither creates a thread nor ends
one. -/
theorem Identified.quiet {v : Version} {fuel : ℕ} {call : Call} (h : Identified s begun)
    (hcall : (∃ original, call = .yield original) ∨ ∃ original, call = .timer original)
    (hexec : call.exec v fuel s = some s') : Identified s' begun := by
  obtain ⟨hid, hexited, hnext, hrunning⟩ := Call.exec_same h.exited hexec
  refine h.of_ids call.original hexited hrunning ?_ (fun a t ha => ?_)
    (fun t ht => Or.inl ht)
  · rcases hcall with ⟨original, rfl⟩ | ⟨original, rfl⟩ <;> exact hnext
  · rw [hid] at ha
    unfold Call.idsAfter at ha
    split at ha
    · rename_i hfirst
      exact Or.inl ⟨hfirst.1, hfirst.2, (Option.some.inj ha).symm⟩
    · right
      have hold : s.queues.idAt a = some t := by
        rcases hcall with ⟨original, rfl⟩ | ⟨original, rfl⟩ <;> exact ha
      exact ⟨hold, h.alive a t hold⟩

/-- A call keeps the ids distinct. -/
theorem Identified.exec {v : Version} {fuel : ℕ} {call : Call} {m : Machine}
    (h : Identified m.lib m.begun)
    (hids : ∀ newNode original, call = .create newNode original → IdsLeft m.lib)
    (hexec : call.exec v fuel m.lib = some s') : Identified s' (m.begunAfter call) := by
  cases call with
  | create newNode original => exact h.create (hids _ _ rfl) hexec
  | yield original => exact h.quiet (Or.inl ⟨original, rfl⟩) hexec
  | timer original => exact h.quiet (Or.inr ⟨original, rfl⟩) hexec
  | exit value_ptr block original =>
    obtain ⟨hid, hexited, hnext, hrunning⟩ := Call.exec_same h.exited hexec
    obtain ⟨t₀, hrun, _⟩ := Call.exec_exit_joins hexec
    obtain ⟨ptr, hptr, hid₀⟩ := Option.bind_eq_some_iff.mp hrun
    refine h.of_ids original hexited hrunning hnext (fun a t ha => ?_)
      fun t ht => ?_
    · rw [hid] at ha
      simp only [Call.idsAfter, hptr, reduceCtorEq, false_and, if_false, Option.some.injEq] at ha
      split at ha
      · exact absurd ha (by simp)
      · rename_i hne
        refine Or.inr ⟨ha, ?_⟩
        simp only [Machine.begunAfter, hrun, Option.toList_some, List.singleton_append,
          List.mem_cons, not_or]
        refine ⟨?_, h.alive a t ha⟩
        rintro rfl
        exact hne (h.distinct ptr a t hid₀ ha)
    · simp only [Machine.begunAfter, hrun, Option.toList_some, List.singleton_append,
        List.mem_cons] at ht
      rcases ht with rfl | ht
      · exact Or.inr ⟨ptr, hid₀⟩
      · exact Or.inl ht

/-- A creation that fails keeps the ids distinct. -/
theorem Identified.createFails (h : Identified s begun) (hids : IdsLeft s)
    (failure : AllocFailure) :
    Identified { s with queues := createFails s.queues failure } begun := by
  obtain ⟨hnode, hrunning, hcount⟩ := createFails_same s.queues failure
  have hle : s.nextThreadId ≤
      Library.nextThreadId { s with queues := Threads.createFails s.queues failure } := by
    rcases hcount with heq | heq
    · exact le_of_eq heq.symm
    · refine le_trans (Nat.le_succ _) (le_of_eq ?_)
      exact (heq.trans (Nat.mod_eq_of_lt hids)).symm
  have hid (a : Addr) : (Threads.createFails s.queues failure).idAt a = s.queues.idAt a := by
    simp only [Queues.idAt, hnode]
  refine ⟨fun a hex => h.exited a ?_, fun a t ha => ?_, fun a b t ha hb => ?_, fun t ht => ?_,
    fun hnone => ?_⟩
  · unfold Queues.ExitedAt at hex
    rw [hnode] at hex
    exact hex
  · exact h.alive a t ((hid a).symm.trans ha)
  · exact h.distinct a b t ((hid a).symm.trans ha) ((hid b).symm.trans hb)
  · refine lt_of_lt_of_le (h.fresh t ?_) hle
    refine ht.imp_right fun hnode => ?_
    obtain ⟨a, ha⟩ := hnode
    exact ⟨a, (hid a).symm.trans ha⟩
  · obtain ⟨hempty, hbegun, hstart⟩ := h.start (hrunning.symm.trans hnone)
    exact ⟨fun a => (hid a).trans (hempty a), hbegun, le_trans hstart hle⟩

/-- The ids depend on the queues only. -/
theorem Identified.of_queues (h : Identified s begun) (hq : s'.queues = s.queues) :
    Identified s' begun := by
  obtain ⟨hexited, halive, hdistinct, hfresh, hstart⟩ := h
  unfold Library.nextThreadId at hfresh hstart
  rw [← hq] at hexited halive hdistinct hfresh hstart
  exact ⟨hexited, halive, hdistinct, hfresh, hstart⟩

/-! ## The machine -/

/-- The call of `my_pthread_join` that the running thread is in. -/
def Machine.current (m : Machine) : Option Join := m.lib.queues.running_queue_head.bind m.joining

/-- No library call is in the middle: the running thread is outside
`my_pthread_join` or at its yield. -/
def Machine.AtBoundary (m : Machine) : Prop :=
  ∀ j, m.current = some j → j.pc = .waitTest ∨ j.pc = .waitYield

/-- Every block of `join_LL` that waits for an exited thread is done. -/
def Machine.NoLostWakeup (m : Machine) : Prop := ∃ l, Settled m.lib m.begun l

/-- One event, when library calls are interrupted only at their yields. -/
def YieldStep (v : Version) (m : Machine) (e : MachineEvent) (m' : Machine) : Prop :=
  MachineStep v m e m' ∧ (e = .timer → m.current = none)

/-- At most one block of `join_LL` waits for the running thread. -/
def Machine.OneWaiter (m : Machine) : Prop :=
  ∀ l t, m.lib.Joiners l → m.lib.runningId = some t → ∀ a ∈ l, ∀ b ∈ l,
    ∀ blk blk', m.lib.join_block a = some blk → m.lib.join_block b = some blk' →
      blk.thread_waiting_for = t → blk'.thread_waiting_for = t → a = b

/-- The condition on an event: an exit has at most one joiner to wake, and a creation
has a new thread id to give. -/
def WakeupSafe (m : Machine) : MachineEvent → Prop
  | .call (.exit _ _ _) => m.OneWaiter
  | .call (.create _ _) => IdsLeft m.lib
  | .createFails _ => IdsLeft m.lib
  | _ => True

/-- A call of `my_pthread_join` whose thread does not run is waiting. -/
def Join.Waiting (j : Join) : Prop := j.pc = .waitTest ∧ j.foundT = true ∧ j.freed = false

/-- The invariant of the runs: no block of the list waits for a thread that has exited, but for what
the running thread is in the middle of. -/
structure Machine.Calm (m : Machine) : Prop where
  /-- The ids of the live threads are distinct and new. -/
  ids : Identified m.lib m.begun
  /-- Only the blocks of joiners of exited threads are done. -/
  done : ∀ b blk, m.lib.join_block b = some blk → blk.done = true → blk.thread_waiting_for ∈ m.begun
  /-- The threads that do not run are waiting, if they are in `my_pthread_join`. -/
  waiting : ∀ a j, m.joining a = some j → m.lib.queues.running_queue_head ≠ some a → j.Waiting
  /-- The list of joiners is as the running thread needs it. -/
  current : ∃ l, Join.After m.lib m.begun l m.current

variable {m m' : Machine} {v : Version}

/-- If all calls are waiting, the list of joiners need only be settled. -/
theorem Machine.Calm.of_settled (hids : Identified m.lib m.begun)
    (hdone : ∀ b blk, m.lib.join_block b = some blk → blk.done = true →
      blk.thread_waiting_for ∈ m.begun)
    (hwaiting : ∀ a j, m.joining a = some j → j.Waiting) (hsettled : m.NoLostWakeup) : m.Calm := by
  obtain ⟨l, hl⟩ := hsettled
  refine ⟨hids, hdone, fun a j hj _ => hwaiting a j hj, l, ?_⟩
  cases hcurrent : m.current with
  | none => exact hl
  | some j =>
    obtain ⟨a, _, hj⟩ := Option.bind_eq_some_iff.mp hcurrent
    obtain ⟨hpc, hfound, hfreed⟩ := hwaiting a j hj
    simp only [Join.After, Join.Before, hpc]
    exact ⟨hl, hfound, hfreed⟩

/-- At a boundary nobody waits for an exited thread. -/
theorem Machine.Calm.settled (h : m.Calm) (hboundary : m.AtBoundary) : m.NoLostWakeup := by
  obtain ⟨l, hl⟩ := h.current
  refine ⟨l, ?_⟩
  cases hcurrent : m.current with
  | none =>
    rw [hcurrent] at hl
    exact hl
  | some j =>
    rw [hcurrent] at hl
    rcases hboundary j hcurrent with hpc | hpc <;>
      simp only [Join.After, Join.Before, hpc] at hl <;> exact hl.1

/-- Outside `my_pthread_join` there is no current call. -/
theorem Machine.Outside.current (h : m.Outside) : m.current = none := by
  unfold Machine.current
  cases hhead : m.lib.queues.running_queue_head with
  | none => rfl
  | some a => exact h a hhead

/-- If the running thread is in no call, all calls are waiting. -/
theorem Machine.Calm.all_waiting (h : m.Calm) (hcurrent : m.current = none) (a : Addr) (j : Join)
    (hj : m.joining a = some j) : j.Waiting := by
  refine h.waiting a j hj fun hhead => ?_
  simp only [Machine.current, hhead, Option.bind_some] at hcurrent
  exact absurd (hcurrent.symm.trans hj) (by simp)

/-- A boundary without a current call. -/
theorem Machine.atBoundary_of_none (h : m.current = none) : m.AtBoundary := fun j hj =>
  absurd (h.symm.trans hj) (by simp)

/-- The joiners are settled after a call that does not end a thread. -/
theorem Settled.exec {fuel : ℕ} {call : Call} (h : Settled s begun l)
    (hexit : call.exiting = false) (hexec : call.exec v fuel s = some s') :
    Settled s' begun l := by
  obtain ⟨hblock, hhead⟩ := Call.exec_joins hexit hexec
  refine ⟨?_, fun b hb => ?_⟩
  · unfold Library.Joiners Library.joinLink
    rw [hblock, hhead]
    exact h.1
  · unfold Woken
    rw [hblock]
    exact h.2 b hb

/-- The links of the joiners do not depend on whether they are done. -/
theorem joinLink_done {a : Addr} {b : JoinBlock} (hb : s.join_block a = some b)
    (hblock : s'.join_block = Function.update s.join_block a (some { b with done := true })) :
    s'.joinLink = s.joinLink := by
  funext c
  unfold Library.joinLink
  rw [hblock]
  by_cases hc : c = a
  · subst hc
    simp [hb]
  · simp [hc]

/-- After an exit all joiners of the exited thread are done exactly if there was at
most one. -/
theorem Machine.Calm.exit_iff {fuel value_ptr : ℕ} {block original : Addr} (h : m.Calm)
    (hcurrent : m.current = none)
    (hexec : (Call.exit value_ptr block original).exec v fuel m.lib = some s') :
    (∃ l, Settled s' (m.begunAfter (.exit value_ptr block original)) l) ↔ m.OneWaiter := by
  obtain ⟨l, hlist, hwoken⟩ := h.settled (Machine.atBoundary_of_none hcurrent)
  obtain ⟨t, hrun, hhead, hwake⟩ := Call.exec_exit_joins hexec
  have hbegun : m.begunAfter (.exit value_ptr block original) = t :: m.begun := by
    simp [Machine.begunAfter, hrun]
  obtain ⟨ptr, _, hid⟩ := Option.bind_eq_some_iff.mp hrun
  have hnew : t ∉ m.begun := h.ids.alive ptr t hid
  rw [hbegun]
  rcases wakeJoiner_spec hlist hwake with ⟨hsame, hnone⟩ | ⟨x, hx, b, hb, hwaits, hblock⟩
  · refine iff_of_true ⟨l, ?_, fun c hc blk hblk hmem => ?_⟩ ?_
    · unfold Library.Joiners Library.joinLink
      rw [hsame, hhead]
      exact hlist
    · rw [hsame] at hblk
      rcases List.mem_cons.mp hmem with heq | hmem
      · exact absurd heq (hnone c hc blk hblk)
      · exact hwoken c hc blk hblk hmem
    · intro l₂ t' hl₂ hrun' a ha _ _ blk _ hblk _ hwaits
      obtain rfl := Option.some.inj (hrun.symm.trans hrun')
      obtain rfl := Segment.unique hlist hl₂
      exact absurd hwaits (hnone a ha blk hblk)
  · have hlinks := joinLink_done hb hblock
    have hlist' : s'.Joiners l := by
      unfold Library.Joiners
      rw [hlinks, hhead]
      exact hlist
    constructor
    · rintro ⟨l', hl', hwoken'⟩ l₂ t' hl₂ hrun' a ha c hc blk blk' hblk hblk' hwait hwait'
      obtain rfl := Option.some.inj (hrun.symm.trans hrun')
      obtain rfl := Segment.unique hlist hl₂
      obtain rfl := Segment.unique hlist' hl'
      -- a second waiter would have been done before its target began to exit
      have honly (y : Addr) (hy : y ∈ l) (bk : JoinBlock) (hbk : m.lib.join_block y = some bk)
          (hyt : bk.thread_waiting_for = t) : y = x := by
        by_contra hne
        have hbk' : s'.join_block y = some bk := by
          rw [hblock, Function.update_of_ne hne]
          exact hbk
        have hdone := hwoken' y hy bk hbk' (by simp [hyt])
        exact hnew (hyt ▸ h.done y bk hbk hdone)
      rw [honly a ha blk hblk hwait, honly c hc blk' hblk' hwait']
    · intro hone
      refine ⟨l, hlist', fun c hc blk hblk hmem => ?_⟩
      rw [hblock] at hblk
      by_cases hcx : c = x
      · subst hcx
        rw [Function.update_self] at hblk
        rw [← Option.some.inj hblk]
      · rw [Function.update_of_ne hcx] at hblk
        rcases List.mem_cons.mp hmem with heq | hmem
        · exact absurd (hone l t hlist hrun c hc x hx blk b hblk hb heq hwaits) hcx
        · exact hwoken c hc blk hblk hmem

/-- After an exit, still only blocks of joiners of exited threads are done. -/
theorem done_exit {fuel value_ptr : ℕ} {block original : Addr}
    (hdone : ∀ b blk, m.lib.join_block b = some blk → blk.done = true →
      blk.thread_waiting_for ∈ m.begun) (hlist : m.lib.Joiners l)
    (hexec : (Call.exit value_ptr block original).exec v fuel m.lib = some s')
    (b : Addr) (blk : JoinBlock) (hb : s'.join_block b = some blk) (hd : blk.done = true) :
    blk.thread_waiting_for ∈ m.begunAfter (.exit value_ptr block original) := by
  obtain ⟨t, hrun, _, hwake⟩ := Call.exec_exit_joins hexec
  simp only [Machine.begunAfter, hrun, Option.toList_some, List.singleton_append, List.mem_cons]
  rcases wakeJoiner_spec hlist hwake with ⟨hsame, _⟩ | ⟨x, _, c, hc, hwaits, hblock⟩
  · rw [hsame] at hb
    exact Or.inr (hdone b blk hb hd)
  · rw [hblock] at hb
    by_cases hbx : b = x
    · subst hbx
      rw [Function.update_self] at hb
      rw [← Option.some.inj hb]
      exact Or.inl hwaits
    · rw [Function.update_of_ne hbx] at hb
      exact Or.inr (hdone b blk hb hd)

/-- Every event whose exits have one waiter at most keeps the invariant. -/
theorem Machine.Calm.step {e : MachineEvent} (h : m.Calm) (hok : WakeupSafe m e)
    (hstep : YieldStep v m e m') : m'.Calm := by
  obtain ⟨hstep, htimer⟩ := hstep
  cases e with
  | call call =>
    obtain ⟨hout, fuel, lib, hexec, rfl⟩ := hstep
    have hcurrent := hout.current
    have hsettled := h.settled (Machine.atBoundary_of_none hcurrent)
    have hids := h.ids.exec (v := v) (fun newNode original heq => by subst heq; exact hok) hexec
    cases hexit : call.exiting with
    | false =>
      have hbegun : m.begunAfter call = m.begun := by
        cases call <;> first | rfl | exact absurd hexit (by simp [Call.exiting])
      rw [hbegun] at hids ⊢
      refine Machine.Calm.of_settled hids ?_ (h.all_waiting hcurrent) ?_
      · intro b blk hb
        rw [(Call.exec_joins hexit hexec).1] at hb
        exact h.done b blk hb
      · obtain ⟨l, hl⟩ := hsettled
        exact ⟨l, hl.exec hexit hexec⟩
    | true =>
      cases call with
      | exit value_ptr block original =>
        obtain ⟨l, hl⟩ := hsettled
        exact Machine.Calm.of_settled hids (done_exit h.done hl.1 hexec)
          (h.all_waiting hcurrent) ((h.exit_iff hcurrent hexec).mpr hok)
      | create newNode original => exact absurd hexit (by simp [Call.exiting])
      | yield original => exact absurd hexit (by simp [Call.exiting])
      | timer original => exact absurd hexit (by simp [Call.exiting])
  | createFails failure =>
    obtain ⟨hout, rfl⟩ := hstep
    exact Machine.Calm.of_settled (h.ids.createFails hok failure) h.done
      (h.all_waiting hout.current) (h.settled (Machine.atBoundary_of_none hout.current))
  | timer =>
    obtain ⟨fuel, lib, hexec, rfl⟩ := hstep
    have hcurrent := htimer rfl
    obtain ⟨l, hl⟩ := h.settled (Machine.atBoundary_of_none hcurrent)
    refine Machine.Calm.of_settled (h.ids.quiet (Or.inr ⟨0, rfl⟩) hexec) ?_
      (h.all_waiting hcurrent) ⟨l, hl.exec rfl hexec⟩
    intro b blk hb
    rw [(Call.exec_joins rfl hexec).1] at hb
    exact h.done b blk hb
  | join thread value_ptr block next =>
    obtain ⟨a, hhead, houtside, hfresh, rfl⟩ := hstep
    have hcurrent : m.current = none := by simp [Machine.current, hhead, houtside]
    obtain ⟨l, hl⟩ := h.settled (Machine.atBoundary_of_none hcurrent)
    have hblock : block ∉ l := fun hmem => by
      have := Segment.isSome hl.1 hmem
      simp [Library.joinLink, hfresh] at this
    refine ⟨h.ids.of_queues rfl, fun b blk hb hdone => ?_, fun c j hj hc => ?_, l, ?_⟩
    · by_cases hbb : b = block
      · subst hbb
        simp only [Library.newJoin, Function.update_self, Option.some.injEq] at hb
        rw [← hb] at hdone
        exact absurd hdone (by simp)
      · exact h.done b blk (by simpa [Library.newJoin, hbb] using hb) hdone
    · have hca : c ≠ a := fun heq => hc (heq ▸ hhead)
      exact h.all_waiting hcurrent c j (by simpa [hca] using hj)
    · have hnow : Machine.current { m with
          lib := m.lib.newJoin thread block next
          joining := Function.update m.joining a (m.startJoin thread value_ptr block) } =
          some (m.startJoin thread value_ptr block) := by
        simp [Machine.current, Library.newJoin, hhead]
      rw [hnow]
      exact ⟨hl.update hblock _, ⟨_, Function.update_self _ _ _, rfl⟩, hblock, rfl, rfl⟩
  | step garbage =>
    obtain ⟨a, j, lib, j', hhead, hj, hstep, rfl⟩ := hstep
    have hcurrent : m.current = some j := by simp [Machine.current, hhead, hj]
    obtain ⟨l, hl⟩ := h.current
    rw [hcurrent] at hl
    obtain ⟨hqueues, hsame⟩ := Join.step_same hstep
    obtain ⟨l', hl'⟩ := Join.step_before h.ids.alive hl hstep
    refine ⟨h.ids.of_queues hqueues, fun b blk hb hdone => ?_, fun c i hi hc => ?_, l', ?_⟩
    · obtain ⟨blk', hblk', hd, hw⟩ := hsame.before hb
      rw [hw]
      exact h.done b blk' hblk' (hd ▸ hdone)
    · have hca : c ≠ a := by
        rintro rfl
        exact hc ((congrArg Queues.running_queue_head hqueues).trans hhead)
      refine h.waiting c i (by simpa [hca] using hi) fun hc' => hca ?_
      exact Option.some.inj (hc'.symm.trans hhead)
    · have hnow : Machine.current { m with
          lib := lib
          joining := Function.update m.joining a j'
          returned :=
            if j' = none ∧ j.known then j.thread :: m.returned else m.returned } = j' := by
        simp [Machine.current, hqueues, hhead]
      rw [hnow]
      exact hl'
  | wait =>
    obtain ⟨a, j, fuel, lib, hhead, hj, hpc, hexec, rfl⟩ := hstep
    have hcurrent : m.current = some j := by simp [Machine.current, hhead, hj]
    obtain ⟨l, hl⟩ := h.current
    simp only [hcurrent, Join.After, Join.Before, hpc] at hl
    obtain ⟨hsettled, hfound, hfreed⟩ := hl
    refine Machine.Calm.of_settled (h.ids.quiet (Or.inl ⟨0, rfl⟩) hexec) ?_ (fun c i hi => ?_)
      ⟨l, hsettled.exec rfl hexec⟩
    · intro b blk hb
      rw [(Call.exec_joins rfl hexec).1] at hb
      exact h.done b blk hb
    · by_cases hca : c = a
      · subst hca
        simp only [Function.update_self, Option.some.injEq] at hi
        subst hi
        exact ⟨rfl, hfound, hfreed⟩
      · refine h.waiting c i (by simpa [hca] using hi) fun hc => hca ?_
        exact Option.some.inj (hc.symm.trans hhead)

/-- Before the first call nobody waits. -/
theorem calm_zero : Machine.zero.Calm := by
  refine Machine.Calm.of_settled ⟨?_, ?_, ?_, ?_, ?_⟩ ?_ ?_ ⟨[], rfl, ?_⟩
  · simp [Machine.zero, Library.zero, Queues.zero, Queues.ExitedAt]
  · simp [Machine.zero]
  · simp [Machine.zero, Library.zero, Queues.zero, Queues.idAt]
  · simp [Machine.zero, Library.zero, Queues.zero, Queues.idAt]
  · intro _
    exact ⟨by simp [Machine.zero, Library.zero, Queues.zero, Queues.idAt], rfl, by decide⟩
  · simp [Machine.zero, Library.zero]
  · simp [Machine.zero]
  · simp

/-- The states reached by events that meet `ok`, when library calls are interrupted
only at their yields. -/
def YieldReach (v : Version) (ok : Machine → MachineEvent → Prop) : Machine → Prop :=
  Runs.Reach (fun m => m = Machine.zero) (YieldStep v) ok

/-- A sequence of events other than the timer is a run, if they all meet `ok`. -/
theorem yieldReach_execEvents {ok : Machine → MachineEvent → Prop} {fuel : ℕ}
    {es : List MachineEvent} (hes : ∀ e ∈ es, e ≠ .timer ∧ ∀ m, ok m e) (hm : YieldReach v ok m)
    (h : execEvents v fuel es m = some m') : YieldReach v ok m' := by
  rw [execEvents_eq] at h
  refine hm.execAll (fun e he m m' hexec => ?_) h
  obtain ⟨htimer, hok⟩ := hes e he
  exact ⟨hok m, Machine.exec_step hexec, fun heq => absurd heq htimer⟩

/-- The invariant holds in every state that such events reach. -/
theorem yieldReach_calm (h : YieldReach v WakeupSafe m) : m.Calm := by
  refine Runs.Reach.invariant (P := Machine.Calm) ?_ (fun _ _ _ hm hok hstep => hm.step hok hstep) h
  rintro _ rfl
  exact calm_zero

/-- In every run in which exiting threads have at most one joiner to wake no joiner of
an exited thread is left waiting, and the first exit of a thread with more joiners
leaves one. -/
theorem no_lost_wakeup (v : Version) :
    (∀ m : Machine, YieldReach v WakeupSafe m → m.AtBoundary → m.NoLostWakeup) ∧
      ∀ (m : Machine) (value_ptr : ℕ) (block original : Addr) (m' : Machine),
        YieldReach v WakeupSafe m →
          YieldStep v m (.call (.exit value_ptr block original)) m' →
            (m'.NoLostWakeup ↔ m.OneWaiter) := by
  refine ⟨fun m h hboundary => (yieldReach_calm h).settled hboundary, ?_⟩
  rintro m value_ptr block original _ h ⟨⟨hout, fuel, lib, hexec, rfl⟩, _⟩
  exact (yieldReach_calm h).exit_iff hout.current hexec

/-- A call of `my_pthread_join` by a thread that finds its target in the fourth scan,
up to its return from the first yield. -/
def joinUntilYield (thread : ℕ) (block : Addr) : List MachineEvent :=
  .join thread false block none :: List.replicate 16 (.step none) ++ [.wait]

/-- The theorem at the exit of thread 2, for which thread 1 waits. -/
theorem no_lost_wakeup_oneJoiner :
    ∃ m m' : Machine, m.lib.Joiners [10] ∧ YieldStep .Pthreads m (.call (.exit 0 0 0)) m' ∧
      m'.begun = [2] ∧ m'.NoLostWakeup := by
  have hcreate : (Machine.zero.exec .Pthreads 10 (.call (.create 2 1))).isSome := by decide
  obtain ⟨m₁, hm₁⟩ := Option.isSome_iff_exists.mp hcreate
  have hrun : ((Machine.zero.exec .Pthreads 10 (.call (.create 2 1))).bind
      (execEvents .Pthreads 10 (joinUntilYield 2 10))).map (fun m =>
        (m.lib.join_LL, m.lib.join_block 10, m.lib.runningId, m.begun)) =
      some (some 10, some ⟨false, 2, none⟩, some 2, []) := rfl
  obtain ⟨m₂, hm₂, heq⟩ := Option.map_eq_some_iff.mp hrun
  rw [hm₁, Option.bind_some] at hm₂
  simp only [Prod.mk.injEq] at heq
  obtain ⟨hhead, hblock, hid, hbegun⟩ := heq
  have hexit : (((Machine.zero.exec .Pthreads 10 (.call (.create 2 1))).bind
      (execEvents .Pthreads 10 (joinUntilYield 2 10))).bind fun m =>
        m.exec .Pthreads 10 (.call (.exit 0 0 0))).isSome := by decide
  rw [hm₁, Option.bind_some, hm₂, Option.bind_some] at hexit
  obtain ⟨m₃, hm₃⟩ := Option.isSome_iff_exists.mp hexit
  have hreach : YieldReach .Pthreads WakeupSafe m₂ := by
    refine yieldReach_execEvents ?_ (.step (.start rfl) (e := .call (.create 2 1)) ?_
      ⟨Machine.exec_step hm₁, by simp⟩) hm₂
    · simp [joinUntilYield, WakeupSafe]
    · simp [WakeupSafe, IdsLeft, Machine.zero, Library.zero, Library.nextThreadId, createQueues,
        Queues.zero]
  have hlist : m₂.lib.Joiners [10] := ⟨hhead, none, by simp [Library.joinLink, hblock], rfl⟩
  have hstep : YieldStep .Pthreads m₂ (.call (.exit 0 0 0)) m₃ :=
    ⟨Machine.exec_step hm₃, by simp⟩
  refine ⟨m₂, m₃, hlist, hstep, ?_, ((no_lost_wakeup .Pthreads).2 m₂ 0 0 0 m₃ hreach hstep).mpr ?_⟩
  · obtain ⟨_, fuel, lib, _, rfl⟩ := hstep.1
    simp [Machine.begunAfter, hid, hbegun]
  · intro l t hl _ a ha b hb _ _ _ _ _ _
    obtain rfl := Segment.unique hlist hl
    simp only [List.mem_singleton] at ha hb
    rw [ha, hb]

/-- Two threads join thread 1, which then exits: only the one whose block is first in
the list is woken. -/
def twoJoiners : List MachineEvent :=
  [.call (.create 2 1), .call (.create 3 0)] ++ joinUntilYield 1 10 ++ joinUntilYield 1 11 ++
    [.call (.exit 0 0 0)]

/-- The other joiner waits for a thread that has exited. -/
theorem joiner_not_woken :
    (∃ m, YieldReach .Pthreads (fun _ _ => True) m ∧ m.AtBoundary ∧ ¬ m.NoLostWakeup) ∧
      ∃ m, YieldReach .Memory_Manager (fun _ _ => True) m ∧ m.AtBoundary ∧ ¬ m.NoLostWakeup := by
  have hlost (v : Version) :
      ∃ m, YieldReach v (fun _ _ => True) m ∧ m.AtBoundary ∧ ¬ m.NoLostWakeup := by
    have hrun : (execEvents v 10 twoJoiners Machine.zero).map (fun m =>
        (m.begun, m.lib.join_LL, [11, 10].map m.lib.join_block, m.current.map (·.pc))) =
        some ([1], some 11, [some ⟨true, 1, some 10⟩, some ⟨false, 1, none⟩], some .waitTest) := by
      cases v <;> rfl
    obtain ⟨m, hm, heq⟩ := Option.map_eq_some_iff.mp hrun
    simp only [Prod.mk.injEq, List.map_cons, List.map_nil, List.cons.injEq, and_true] at heq
    obtain ⟨hbegun, hhead, ⟨h11, h10⟩, hpc⟩ := heq
    refine ⟨m, yieldReach_execEvents ?_ (.start rfl) hm, fun j hj => ?_, ?_⟩
    · simp [twoJoiners, joinUntilYield]
    · rw [hj] at hpc
      exact Or.inl (Option.some.inj hpc)
    · rintro ⟨l, hlist, hwoken⟩
      have hboth : m.lib.Joiners [11, 10] :=
        ⟨hhead, some 10, by simp [Library.joinLink, h11], rfl, none,
          by simp [Library.joinLink, h10], rfl⟩
      obtain rfl := Segment.unique hlist hboth
      exact absurd (hwoken 10 (by simp) _ h10 (by simp [hbegun])) (by simp)
  exact ⟨hlost _, hlost _⟩

end SimpleOs.Threads
