import SimpleOs.Threads.Identity

/-!
# Aging and demotion

Each scheduler call charges the running thread for its slice, demotes it if the
slice ran out, and puts it back to priority 0 once it has been charged for 375
milliseconds. The runs here interleave the scheduler calls with the calls' work
before them in any order.
-/

namespace SimpleOs.Threads

open Runs

variable {s s' : Queues}

/-- What happens to the queues. -/
inductive SchedulerEvent where
  /-- What a call does before it reaches the scheduler. -/
  | enter (call : Call)
  /-- A call of `my_pthread_create` that fails. -/
  | createFails (failure : AllocFailure)
  /-- The scheduler runs, with the node `newNode` for the original thread if there is none yet. -/
  | schedule (newNode : Addr) (ranWholeTimeSlice : Bool)

/-- One event on the queues, computed with `fuel` for the loops of a refill. -/
def SchedulerEvent.exec (v : Version) (fuel : ℕ) (s : Queues) : SchedulerEvent → Option Queues
  | .enter call => call.enterQueues s
  | .createFails failure => some (Threads.createFails s failure)
  | .schedule newNode ranWholeTimeSlice => scheduler v fuel newNode ranWholeTimeSlice s

/-- One event changes the queues from `s` to `s'`, with some fuel. -/
def SchedulerStep (v : Version) (s : Queues) (e : SchedulerEvent) (s' : Queues) : Prop :=
  ∃ fuel, e.exec v fuel s = some s'

/-- An event of the library is a run of at most two events here. -/
theorem LibraryStep.path {v : Version} {τ τ' : Tracked} {e : Event} (h : LibraryStep v τ e τ') :
    ∃ turns, Path (SchedulerStep v) τ.lib.queues turns τ'.lib.queues := by
  cases e with
  | call call =>
    obtain ⟨fuel, hexec, _⟩ := h
    simp only [Call.exec, Option.bind_eq_bind] at hexec
    obtain ⟨lib, henter, hexec⟩ := Option.bind_eq_some_iff.mp hexec
    obtain ⟨queues, hrun, hexec⟩ := Option.bind_eq_some_iff.mp hexec
    have hentered : SchedulerStep v τ.lib.queues (.enter call) lib.queues :=
      ⟨fuel, Call.enter_queues henter⟩
    have hscheduled : SchedulerStep v lib.queues
        (.schedule call.original call.ranWholeTimeSlice) queues := ⟨fuel, hrun⟩
    rw [← Option.some.inj hexec]
    exact ⟨_, .cons hentered (.cons hscheduled (.nil _))⟩
  | createFails failure =>
    have hfailed : SchedulerStep v τ.lib.queues (.createFails failure)
        (createFails τ.lib.queues failure) := ⟨0, rfl⟩
    rw [h]
    exact ⟨_, .cons hfailed (.nil _)⟩

/-- The runs of the library are among the runs here. -/
theorem LibraryReach.path {v : Version} {ok : Tracked → Event → Prop} {τ : Tracked}
    (h : LibraryReach v ok τ) :
    ∃ turns, Path (SchedulerStep v) Queues.zero turns τ.lib.queues := by
  refine Reach.invariant
    (P := fun τ => ∃ turns, Path (SchedulerStep v) Queues.zero turns τ.lib.queues) ?_ ?_ h
  · rintro _ rfl
    exact ⟨[], .nil _⟩
  · rintro τ e τ' ⟨turns, hpath⟩ _ hstep
    obtain ⟨more, hmore⟩ := hstep.path
    exact ⟨turns ++ more, hpath.append hmore⟩

/-! ## One scheduler call -/

/-- The priority of a thread and the time it has been charged for. -/
def Node.account (n : Node) : ℕ × ℕ := (n.priority, n.time_ran)

/-- The account of the thread behind an allocated node. -/
def Queues.account (s : Queues) (a : Addr) : Option (ℕ × ℕ) := (s.node a).map Node.account

/-- The account of a thread after its slice. -/
def Node.served (n : Node) (ranWholeTimeSlice : Bool) : ℕ × ℕ :=
  (demote (charge n).1 ranWholeTimeSlice (charge n).2).account

/-- The accounts that the scheduler allows. -/
def AccountBounded (x : ℕ × ℕ) : Prop := x.1 ≤ 2 ∧ x.2 < 375

/-- The cases of a slice: the thread ages and goes back to priority 0, or it is
charged and its priority number grows by one at most, if the slice ran out. -/
theorem Node.served_cases (n : Node) (ran : Bool) :
    n.served ran = (0, 0) ∨
      (n.served ran).2 = n.time_ran + timeCharge n.priority ∧ (n.served ran).2 < 375 ∧
        ((n.served ran).1 = n.priority ∨
          ran = true ∧ n.priority < 2 ∧ (n.served ran).1 = n.priority + 1) := by
  unfold served charge
  by_cases haged : 375 ≤ n.time_ran + timeCharge n.priority
  · left
    simp only [if_pos haged, demote, Bool.not_true, Bool.and_false, Bool.false_and,
      Bool.false_eq_true, if_false, account]
  · right
    simp only [if_neg haged, demote, Bool.not_false, Bool.and_true, Bool.and_eq_true,
      decide_eq_true_eq]
    split
    · rename_i hdemoted
      exact ⟨rfl, Nat.lt_of_not_le haged, Or.inr ⟨hdemoted.1, hdemoted.2, rfl⟩⟩
    · exact ⟨rfl, Nat.lt_of_not_le haged, Or.inl rfl⟩

/-- A slice costs at least 25 milliseconds. -/
theorem le_timeCharge (priority : ℕ) : 25 ≤ timeCharge priority := by
  unfold timeCharge
  split_ifs <;> omega

/-- The bounds on an account still hold after a slice. -/
theorem Node.served_bounded {n : Node} (h : AccountBounded n.account) (ran : Bool) :
    AccountBounded (n.served ran) := by
  obtain ⟨hpriority, _⟩ := h
  change n.priority ≤ 2 at hpriority
  rcases n.served_cases ran with haged | ⟨_, htime, hsame | ⟨_, hlt, hmore⟩⟩
  · rw [haged]
    exact ⟨Nat.zero_le _, by omega⟩
  · exact ⟨by omega, htime⟩
  · exact ⟨by omega, htime⟩

/-- Links, heads and tails do not matter to the accounts. -/
theorem Relinked.account (h : Relinked s s') (a : Addr) : s'.account a = s.account a := by
  have hthread := congrArg (Option.map Node.account) (h.threads a)
  rw [Option.map_map, Option.map_map] at hthread
  exact hthread

/-- The accounts after the running thread has left the processor. -/
theorem descheduleHead_account {ptr : Addr} {ran : Bool}
    (h : descheduleHead s ptr ran = some s') (a : Addr) :
    s'.account a =
      if a = ptr then if s.ExitedAt ptr then none else (s.node ptr).map (·.served ran)
      else s.account a := by
  obtain ⟨n, hn, hcases⟩ := descheduleHead_cases h
  have hexited : s.ExitedAt ptr ↔ n.status = .THREAD_EXITED := by simp [Queues.ExitedAt, hn]
  rcases hcases with ⟨hstatus, rfl⟩ | ⟨hstatus, m, rfl, hrequeue⟩
  · by_cases ha : a = ptr
    · simp [Queues.account, ha, hexited, hstatus]
    · simp [Queues.account, ha]
  · rw [(requeue_relinked hrequeue).account a]
    by_cases ha : a = ptr
    · simp [Queues.account, ha, hexited, hstatus, hn, Node.served]
    · simp [Queues.account, ha]

/-- Running the next thread changes no account. -/
theorem dispatch_account (h : dispatch s = some s') (a : Addr) : s'.account a = s.account a := by
  obtain ⟨ptr, n, _, hn, rfl⟩ := dispatch_eq_some h
  by_cases ha : a = ptr
  · simp [Queues.account, ha, hn, Node.account]
  · simp [Queues.account, ha]

/-- Up to the refill only two accounts change: that of the thread whose slice ended, and that of the
original thread when it is registered. -/
theorem beforeRefill_account {newNode : Addr} {ran : Bool}
    (h : beforeRefill newNode ran s = some s') (a : Addr) :
    s'.account a =
      if s.running_queue_head = some a then
        if s.ExitedAt a then none else (s.node a).map (·.served ran)
      else if s.running_queue_head = none ∧ a = newNode then some (0, 0) else s.account a := by
  unfold beforeRefill at h
  split at h
  · rename_i hhead
    obtain ⟨_, rfl⟩ := registerOriginal_eq_some h
    rw [hhead]
    by_cases ha : a = newNode
    · simp [Queues.account, ha, Node.account]
    · simp [Queues.account, ha]
  · rename_i ptr hhead
    rw [descheduleHead_account h a, hhead]
    by_cases ha : a = ptr
    · simp [ha]
    · simp [ha, Ne.symm ha]

/-- The accounts after a scheduler call: only the running thread's changes, and the
first call opens one for the original thread. -/
theorem scheduler_account {v : Version} {fuel : ℕ} {newNode : Addr} {ran : Bool}
    (h : scheduler v fuel newNode ran s = some s') (a : Addr) :
    s'.account a =
      if s.running_queue_head = some a then
        if s.ExitedAt a then none else (s.node a).map (·.served ran)
      else if s.running_queue_head = none ∧ a = newNode then some (0, 0) else s.account a := by
  rw [scheduler_eq] at h
  obtain ⟨s₁, hbefore, h⟩ := Option.bind_eq_some_iff.mp h
  obtain ⟨s₂, hrefill, hdispatch⟩ := Option.bind_eq_some_iff.mp h
  have hsame : s₂.account a = s₁.account a := by
    split at hrefill
    · exact (createRunningQueue_relinked hrefill).account a
    · rw [← Option.some.inj hrefill]
  rw [dispatch_account hdispatch a, hsame, beforeRefill_account hbefore a]

/-! ## One event -/

/-- What a call does before it reaches the scheduler opens an account for a new
thread and leaves the others. -/
theorem Call.enterQueues_account {call : Call} (h : call.enterQueues s = some s') (a : Addr) :
    s'.account a = s.account a ∨ s.account a = none ∧ s'.account a = some (0, 0) := by
  cases call with
  | create newNode original =>
    obtain ⟨hnode, _, _, _⟩ := createQueues_spec s
    simp only [Call.enterQueues, createNode, hnode] at h
    split at h
    · rename_i hfresh
      rw [(enqueueNew_relinked h).1.account a]
      by_cases ha : a = newNode
      · right
        simp [Queues.account, ha, hfresh, takeThreadId, Node.account]
      · left
        simp [Queues.account, ha, takeThreadId]
    · exact absurd h (by simp)
  | yield original =>
    obtain rfl := Option.some.inj h
    exact Or.inl rfl
  | timer original =>
    obtain rfl := Option.some.inj h
    exact Or.inl rfl
  | exit value_ptr block original =>
    obtain ⟨ptr, _, hstore⟩ := Option.bind_eq_some_iff.mp h
    obtain ⟨n, hn, rfl⟩ := Option.map_eq_some_iff.mp hstore
    left
    by_cases ha : a = ptr
    · simp [Queues.account, ha, hn, Node.account]
    · simp [Queues.account, ha]

/-- A failed creation changes no account. -/
theorem createFails_account (s : Queues) (failure : AllocFailure) (a : Addr) :
    (createFails s failure).account a = s.account a := by
  obtain ⟨hnode, _, _, _⟩ := createQueues_spec s
  cases failure
  · rfl
  · simp [createFails, Queues.account, hnode]
  · simp [createFails, Queues.account, takeThreadId, hnode]

/-- The scheduler call charges the thread at `a`: it was running and has not exited. -/
def Charges (a : Addr) (t : Turn Queues SchedulerEvent) : Prop :=
  t.before.running_queue_head = some a ∧ ¬ t.before.ExitedAt a ∧
    match t.event with
    | .schedule _ _ => True
    | _ => False

instance (a : Addr) (t : Turn Queues SchedulerEvent) : Decidable (Charges a t) := by
  unfold Charges
  cases t.event <;> infer_instance

/-- What an event does to the account of the node at `a`. -/
inductive AccountTurn (a : Addr) (t : Turn Queues SchedulerEvent) : Prop
  /-- The account is not touched. -/
  | kept : ¬ Charges a t → t.after.account a = t.before.account a → AccountTurn a t
  /-- The node is allocated, with priority 0 and no time charged. -/
  | opened : t.before.account a = none → t.after.account a = some (0, 0) → AccountTurn a t
  /-- The node is freed, since its thread has exited. -/
  | closed : t.after.account a = none → AccountTurn a t
  /-- The thread is charged for its slice. -/
  | served (newNode : Addr) (ran : Bool) (n : Node) : Charges a t →
      t.event = .schedule newNode ran → t.before.node a = some n →
      t.after.account a = some (n.served ran) → AccountTurn a t

/-- The first run of the scheduler allocates its node. -/
theorem scheduler_fresh {v : Version} {fuel : ℕ} {newNode : Addr} {ran : Bool}
    (h : scheduler v fuel newNode ran s = some s') (hhead : s.running_queue_head = none) :
    s.node newNode = none := by
  rw [scheduler_eq] at h
  obtain ⟨s₁, hbefore, _⟩ := Option.bind_eq_some_iff.mp h
  unfold beforeRefill at hbefore
  rw [hhead] at hbefore
  exact (registerOriginal_eq_some hbefore).1

/-- One event does to an account only what `AccountTurn` lists. -/
theorem SchedulerStep.accountTurn {v : Version} {e : SchedulerEvent}
    (h : SchedulerStep v s e s') (a : Addr) : AccountTurn a ⟨s, e, s'⟩ := by
  obtain ⟨fuel, hexec⟩ := h
  cases e with
  | enter call =>
    rcases Call.enterQueues_account hexec a with hsame | ⟨hnone, hnew⟩
    · exact .kept (fun hcharges => hcharges.2.2) hsame
    · exact .opened hnone hnew
  | createFails failure =>
    obtain rfl := Option.some.inj hexec
    exact .kept (fun hcharges => hcharges.2.2) (createFails_account s failure a)
  | schedule newNode ran =>
    have haccount := scheduler_account hexec a
    by_cases hhead : s.running_queue_head = some a
    · rw [if_pos hhead] at haccount
      by_cases hexited : s.ExitedAt a
      · rw [if_pos hexited] at haccount
        exact .closed haccount
      · rw [if_neg hexited] at haccount
        cases hn : s.node a with
        | none =>
          rw [hn] at haccount
          exact .closed haccount
        | some n =>
          rw [hn] at haccount
          exact .served newNode ran n ⟨hhead, hexited, trivial⟩ rfl hn haccount
    · rw [if_neg hhead] at haccount
      split at haccount
      · rename_i hfirst
        obtain ⟨hnone, rfl⟩ := hfirst
        have hfresh := scheduler_fresh hexec hnone
        exact .opened (by simp [Queues.account, hfresh]) haccount
      · exact .kept (fun hcharges => hhead hcharges.1) haccount

/-! ## Runs -/

/-- Every thread's account is within the bounds. -/
def Queues.AccountsBounded (s : Queues) : Prop :=
  ∀ a x, s.account a = some x → AccountBounded x

/-- Every event keeps the bounds on all accounts. -/
theorem SchedulerStep.accountsBounded {v : Version} {e : SchedulerEvent}
    (hs : s.AccountsBounded) (h : SchedulerStep v s e s') : s'.AccountsBounded := by
  intro a x hx
  cases h.accountTurn a with
  | kept _ hsame => exact hs a x (hsame.symm.trans hx)
  | opened _ hnew =>
    obtain rfl := Option.some.inj (hnew.symm.trans hx)
    exact ⟨Nat.zero_le _, by omega⟩
  | closed hnone => exact absurd (hnone.symm.trans hx) (by simp)
  | served newNode ran n _ _ hn hserved =>
    obtain rfl := Option.some.inj (hserved.symm.trans hx)
    have hbefore : s.node a = some n := hn
    exact Node.served_bounded (hs a n.account (by simp [Queues.account, hbefore])) ran

/-- Before the first call there are no accounts. -/
theorem accountsBounded_zero : Queues.zero.AccountsBounded := by
  intro a x hx
  exact absurd hx (by simp [Queues.account, Queues.zero])

/-- The thread at `a` lives through a stretch of a run: its node is never freed. -/
def Lives (a : Addr) (w : List (Turn Queues SchedulerEvent)) : Prop :=
  ∀ t ∈ w, (t.before.node a).isSome ∧ (t.after.node a).isSome

/-- The calls of a stretch of a run that charge the thread at `a`. -/
def charges (a : Addr) (w : List (Turn Queues SchedulerEvent)) :
    List (Turn Queues SchedulerEvent) :=
  w.filter (Charges a)

/-- A call that charges a thread sends it back to priority 0 or adds 25 milliseconds at
least. -/
theorem AccountTurn.time {a : Addr} {t : Turn Queues SchedulerEvent} (h : AccountTurn a t)
    {n n' : Node} (hn : t.before.node a = some n) (hn' : t.after.node a = some n')
    (hreset : Charges a t → t.after.account a ≠ some (0, 0)) :
    n.time_ran + (if Charges a t then 25 else 0) ≤ n'.time_ran := by
  have hbefore : t.before.account a = some n.account := by simp [Queues.account, hn]
  have hafter : t.after.account a = some n'.account := by simp [Queues.account, hn']
  cases h with
  | kept hidle hsame =>
    have htime : n'.account.2 = n.account.2 :=
      congrArg Prod.snd (Option.some.inj (hafter.symm.trans (hsame.trans hbefore)))
    rw [if_neg hidle]
    exact le_of_eq htime.symm
  | opened hnone _ => exact absurd (hnone.symm.trans hbefore) (by simp)
  | closed hnone => exact absurd (hnone.symm.trans hafter) (by simp)
  | served newNode ran m hcharges _ hm hserved =>
    obtain rfl := Option.some.inj (hn.symm.trans hm)
    have hsame : n'.account = n.served ran := Option.some.inj (hafter.symm.trans hserved)
    rw [if_pos hcharges]
    rcases n.served_cases ran with haged | ⟨htime, _, _⟩
    · rw [haged] at hserved
      exact absurd hserved (hreset hcharges)
    · have hcost := le_timeCharge n.priority
      have hn'time : n'.time_ran = (n.served ran).2 := congrArg Prod.snd hsame
      omega

/-- The run lemma: without a return to priority 0 every charge adds to the time. -/
theorem charged_time {v : Version} {a : Addr} {w : List (Turn Queues SchedulerEvent)} {n : Node}
    (h : Path (SchedulerStep v) s w s') (hn : s.node a = some n) (hlives : Lives a w)
    (hreset : ∀ t ∈ charges a w, t.after.account a ≠ some (0, 0)) :
    ∃ n', s'.node a = some n' ∧ n.time_ran + 25 * (charges a w).length ≤ n'.time_ran := by
  induction h generalizing n with
  | nil s => exact ⟨n, hn, by simp [charges]⟩
  | @cons s s₁ s' e l hstep _ ih =>
    obtain ⟨n₁, hn₁⟩ := Option.isSome_iff_exists.mp (hlives _ List.mem_cons_self).2
    have hfirst := (hstep.accountTurn a).time hn hn₁ fun hcharges =>
      hreset _ (by simp [charges, hcharges])
    obtain ⟨n', hn', htime⟩ := ih hn₁ (fun t ht => hlives t (List.mem_cons_of_mem _ ht))
      fun t ht => hreset t (by
        simp only [charges, List.mem_filter, List.mem_cons] at ht ⊢
        exact ⟨Or.inr ht.1, ht.2⟩)
    refine ⟨n', hn', ?_⟩
    by_cases hcharges : Charges a ⟨s, e, s₁⟩
    · have hlength : (charges a (⟨s, e, s₁⟩ :: l)).length = (charges a l).length + 1 := by
        simp [charges, hcharges]
      rw [if_pos hcharges] at hfirst
      omega
    · have hlength : (charges a (⟨s, e, s₁⟩ :: l)).length = (charges a l).length := by
        simp [charges, hcharges]
      rw [if_neg hcharges] at hfirst
      omega

/-- A priority number grows by one at most, and only when the running thread's slice
has run out. -/
theorem AccountTurn.rise {a : Addr} {t : Turn Queues SchedulerEvent} (h : AccountTurn a t)
    {n n' : Node} (hn : t.before.node a = some n) (hn' : t.after.node a = some n') :
    n'.priority ≤ n.priority + 1 ∧ (n.priority < n'.priority →
      t.before.running_queue_head = some a ∧ ∃ newNode, t.event = .schedule newNode true) := by
  have hbefore : t.before.account a = some n.account := by simp [Queues.account, hn]
  have hafter : t.after.account a = some n'.account := by simp [Queues.account, hn']
  cases h with
  | kept _ hsame =>
    have hpriority : n'.priority = n.priority :=
      congrArg Prod.fst (Option.some.inj (hafter.symm.trans (hsame.trans hbefore)))
    exact ⟨by omega, fun hrise => by omega⟩
  | opened hnone _ => exact absurd (hnone.symm.trans hbefore) (by simp)
  | closed hnone => exact absurd (hnone.symm.trans hafter) (by simp)
  | served newNode ran m hcharges hevent hm hserved =>
    obtain rfl := Option.some.inj (hn.symm.trans hm)
    have hpriority : n'.priority = (n.served ran).1 :=
      congrArg Prod.fst (Option.some.inj (hafter.symm.trans hserved))
    rcases n.served_cases ran with haged | ⟨_, _, hsame | ⟨rfl, _, hmore⟩⟩
    · rw [haged] at hpriority
      exact ⟨by omega, fun hrise => by omega⟩
    · exact ⟨by omega, fun hrise => by omega⟩
    · exact ⟨by omega, fun _ => ⟨hcharges.1, newNode, hevent⟩⟩

/-- Fifteen charges from a state within the bounds send the thread back to priority 0. -/
theorem charges_reset {v : Version} {a : Addr} {w : List (Turn Queues SchedulerEvent)}
    (hs : s.AccountsBounded) (h : Path (SchedulerStep v) s w s') (hlives : Lives a w)
    (hcount : (charges a w).length = 15) :
    ∃ t ∈ charges a w, t.after.account a = some (0, 0) := by
  by_contra hnever
  have hreset : ∀ t ∈ charges a w, t.after.account a ≠ some (0, 0) :=
    fun t ht hzero => hnever ⟨t, ht, hzero⟩
  obtain ⟨n, hn⟩ : ∃ n, s.node a = some n := by
    cases h with
    | nil => simp [charges] at hcount
    | cons _ _ => exact Option.isSome_iff_exists.mp (hlives _ List.mem_cons_self).1
  obtain ⟨n', hn', htime⟩ := charged_time h hn hlives hreset
  have hs' : s'.AccountsBounded :=
    (h.invariant (fun _ _ _ hs hstep => hstep.accountsBounded hs) hs).1
  have hbound : n'.time_ran < 375 := (hs' a n'.account (by simp [Queues.account, hn'])).2
  omega

/-- In every run the threads' priorities and times stay within their bounds, a priority
number grows by one at most and only when the running thread's slice has run out,
and of any fifteen consecutive calls that charge a thread one sends it back to
priority 0 with no time charged. -/
theorem aging_and_demotion {v : Version} {turns : List (Turn Queues SchedulerEvent)}
    (h : Path (SchedulerStep v) Queues.zero turns s) :
    (∀ t ∈ turns, ∀ a n, t.after.node a = some n → n.priority ≤ 2 ∧ n.time_ran < 375) ∧
      (∀ t ∈ turns, ∀ a n n', t.before.node a = some n → t.after.node a = some n' →
        n'.priority ≤ n.priority + 1 ∧ (n.priority < n'.priority →
          t.before.running_queue_head = some a ∧ ∃ newNode, t.event = .schedule newNode true)) ∧
      ∀ a w, w <:+: turns → Lives a w → (charges a w).length = 15 →
        ∃ t ∈ charges a w, ∃ n, t.after.node a = some n ∧ n.priority = 0 ∧ n.time_ran = 0 := by
  have hkeeps : ∀ s e s', s.AccountsBounded → SchedulerStep v s e s' → s'.AccountsBounded :=
    fun _ _ _ hs hstep => hstep.accountsBounded hs
  obtain ⟨_, hbounds⟩ := h.invariant hkeeps accountsBounded_zero
  refine ⟨fun t ht a n hn => ?_, fun t ht a n n' => ?_, fun a w hw hlives hcount => ?_⟩
  · exact (hbounds t ht).2 a n.account (by simp [Queues.account, hn])
  · exact ((h.step_of_mem ht).accountTurn a).rise
  · obtain ⟨s₁, s₂, hs₁, hpath⟩ := h.stretch hkeeps accountsBounded_zero hw
    obtain ⟨t, ht, hzero⟩ := charges_reset hs₁ hpath hlives hcount
    obtain ⟨n, hn, haccount⟩ := Option.map_eq_some_iff.mp hzero
    exact ⟨t, ht, n, hn, congrArg Prod.fst haccount, congrArg Prod.snd haccount⟩

/-- A creation, and then thirty scheduler calls that two threads make in turn. -/
def thirtySlices : List SchedulerEvent :=
  [.enter (.create 2 1), .schedule 1 false] ++ List.replicate 30 (.schedule 0 false)

/-- The theorem at that run: the original thread is sent back to priority 0. -/
theorem aging_and_demotion_thirtySlices :
    ∃ turns s, Path (SchedulerStep .Pthreads) Queues.zero turns s ∧
      (charges 1 (turns.drop 2)).length = 15 ∧
      ∃ t ∈ charges 1 (turns.drop 2), ∃ n,
        t.after.node 1 = some n ∧ n.priority = 0 ∧ n.time_ran = 0 := by
  have hrun : (turns (fun s e => e.exec .Pthreads 10 s) thirtySlices Queues.zero).map
      (fun l => ((charges 1 (l.drop 2)).length, (l.drop 2).all fun t =>
        (t.before.node 1).isSome && (t.after.node 1).isSome)) = some (15, true) := by
    decide +kernel
  obtain ⟨l, hl, heq⟩ := Option.map_eq_some_iff.mp hrun
  obtain ⟨hcount, hall⟩ := Prod.mk.inj heq
  have hlives : Lives 1 (l.drop 2) := by
    intro t ht
    have := List.all_eq_true.mp hall t ht
    exact Bool.and_eq_true_iff.mp this
  have hreached : ∃ s, Path (SchedulerStep .Pthreads) Queues.zero l s :=
    path_turns (fun _ _ _ hexec => ⟨10, hexec⟩) hl
  obtain ⟨s, hpath⟩ := hreached
  exact ⟨l, s, hpath, hcount, (aging_and_demotion hpath).2.2 1 (l.drop 2)
    (List.drop_suffix 2 l).isInfix hlives hcount⟩

end SimpleOs.Threads
