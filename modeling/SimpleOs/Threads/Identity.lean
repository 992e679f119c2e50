import SimpleOs.Threads.Partition

/-!
# The threads behind the nodes

Whatever the lists look like, a scheduler call frees the running thread's node
if that thread has exited, allocates a node for the original thread on its first
run, and leaves every other node allocated to the same thread.
-/

namespace SimpleOs.Threads

variable {s s' : Queues}

/-- A store of a link changes nothing else. -/
theorem store_relinked {a : Addr} {next : Option Addr}
    (h : s.store a (fun n => { n with next := next }) = some s') : Relinked s s' := by
  obtain ⟨n, hn, rfl⟩ := Option.map_eq_some_iff.mp h
  refine ⟨fun b => ?_, rfl, rfl, rfl⟩
  by_cases hb : b = a
  · subst hb
    simp [hn, Node.thread]
  · simp [hb]

/-- Linking a node to the running queue. -/
theorem linkRunning_relinked {head : Option Addr} (h : linkRunning s head = some s') :
    Relinked s s' := by
  unfold linkRunning at h
  split at h
  · rw [← Option.some.inj h]
    exact ⟨fun _ => rfl, rfl, rfl, rfl⟩
  · obtain ⟨tail, _, h⟩ := Option.bind_eq_some_iff.mp h
    obtain ⟨s₁, hstore, rfl⟩ := Option.map_eq_some_iff.mp h
    have hrel := store_relinked hstore
    exact ⟨hrel.threads, hrel.flag, hrel.count, hrel.created⟩

/-- Loading one node into the running queue changes only links, heads and tails. -/
theorem loadOne_relinked {c : Fin 3} (h : loadOne s c = some s') : Relinked s s' := by
  simp only [loadOne, Option.bind_eq_bind] at h
  obtain ⟨s₁, hlink, h⟩ := Option.bind_eq_some_iff.mp h
  obtain ⟨a, _, h⟩ := Option.bind_eq_some_iff.mp h
  obtain ⟨next, _, h⟩ := Option.bind_eq_some_iff.mp h
  have hrel := linkRunning_relinked hlink
  split at h <;> rw [← Option.some.inj h] <;>
    exact ⟨hrel.threads, hrel.flag, hrel.count, hrel.created⟩

/-- Loading any number of nodes into the running queue changes only links, heads and tails. -/
theorem load_relinked {c : Fin 3} {n : ℕ} (h : load c n s = some s') : Relinked s s' := by
  induction n generalizing s with
  | zero =>
    rw [← Option.some.inj h]
    exact Relinked.refl s
  | succ n ih =>
    obtain ⟨s₁, hone, hrest⟩ := Option.bind_eq_some_iff.mp h
    exact (loadOne_relinked hone).trans (ih hrest)

/-- A refill changes no thread, only links, heads and tails, and the flag that it sets. -/
theorem createRunningQueue_relinked {v : Version} {fuel : ℕ}
    (h : createRunningQueue v fuel s = some s') :
    Relinked { s with empty_running_queue := s'.empty_running_queue } s' := by
  simp only [createRunningQueue, Option.bind_eq_bind] at h
  obtain ⟨p, _, h⟩ := Option.bind_eq_some_iff.mp h
  obtain ⟨s₁, h₁, h⟩ := Option.bind_eq_some_iff.mp h
  obtain ⟨s₂, h₂, h₃⟩ := Option.bind_eq_some_iff.mp h
  have hrel := ((load_relinked h₁).trans (load_relinked h₂)).trans (load_relinked h₃)
  exact ⟨hrel.threads, rfl, hrel.count, hrel.created⟩

/-- Appending a node to a priority queue. -/
theorem requeue_relinked {c : Fin 3} {ptr : Addr} (h : requeue s c ptr = some s') :
    Relinked s s' := by
  simp only [requeue, Option.bind_eq_bind] at h
  split at h
  · have hrel := store_relinked h
    exact ⟨hrel.threads, hrel.flag, hrel.count, hrel.created⟩
  · obtain ⟨s₁, h₁, h⟩ := Option.bind_eq_some_iff.mp h
    have hrel := store_relinked h
    exact (store_relinked h₁).trans ⟨hrel.threads, hrel.flag, hrel.count, hrel.created⟩

/-- The id of the thread behind an allocated node. -/
def Queues.idAt (s : Queues) (a : Addr) : Option ℕ := (s.node a).map (·.thread_id)

/-- Whether the thread behind an allocated node has exited. -/
def Queues.ExitedAt (s : Queues) (a : Addr) : Prop :=
  (s.node a).map (·.status) = some .THREAD_EXITED

instance (s : Queues) (a : Addr) : Decidable (s.ExitedAt a) :=
  inferInstanceAs (Decidable ((s.node a).map (·.status) = some .THREAD_EXITED))

/-- Relinked states have the same threads. -/
theorem Relinked.same (h : Relinked s s') (a : Addr) :
    s'.idAt a = s.idAt a ∧ (s'.ExitedAt a ↔ s.ExitedAt a) := by
  have hthread := h.threads a
  unfold Queues.idAt Queues.ExitedAt
  cases hn : s.node a with
  | none =>
    rw [hn] at hthread
    have hn' : s'.node a = none := Option.map_eq_none_iff.mp hthread
    simp [hn']
  | some n =>
    rw [hn] at hthread
    obtain ⟨n', hn', hsame⟩ := Option.map_eq_some_iff.mp hthread
    have hid : n'.thread.thread_id = n.thread.thread_id := congrArg Node.thread_id hsame
    have hstatus : n'.thread.status = n.thread.status := congrArg Node.status hsame
    change n'.thread_id = n.thread_id at hid
    change n'.status = n.status at hstatus
    simp [hn', hid, hstatus]

/-- The threads after the running thread has left the processor. -/
theorem descheduleHead_same {ptr : Addr} {ran : Bool}
    (h : descheduleHead s ptr ran = some s') (a : Addr) :
    (s'.idAt a = if a = ptr ∧ s.ExitedAt ptr then none else s.idAt a) ∧
      (s'.ExitedAt a ↔ a ≠ ptr ∧ s.ExitedAt a) := by
  obtain ⟨n, hn, hcases⟩ := descheduleHead_cases h
  rcases hcases with ⟨hstatus, rfl⟩ | ⟨hstatus, m, rfl, hrequeue⟩
  · by_cases ha : a = ptr
    · subst ha
      simp [Queues.idAt, Queues.ExitedAt, hn, hstatus]
    · simp [Queues.idAt, Queues.ExitedAt, ha]
  · obtain ⟨hid, hsame⟩ := (requeue_relinked hrequeue).same a
    rw [hid, hsame]
    by_cases ha : a = ptr
    · subst ha
      simp [Queues.idAt, Queues.ExitedAt, hn, hstatus]
    · simp [Queues.idAt, Queues.ExitedAt, ha]

/-- Running the next thread changes no identity. -/
theorem dispatch_same (h : dispatch s = some s') (a : Addr) :
    s'.idAt a = s.idAt a ∧ (s'.ExitedAt a → s.ExitedAt a) := by
  obtain ⟨ptr, n, _, hn, rfl⟩ := dispatch_eq_some h
  by_cases ha : a = ptr
  · subst ha
    simp [Queues.idAt, Queues.ExitedAt, hn]
  · simp [Queues.idAt, Queues.ExitedAt, ha]

/-- Up to the refill only two nodes change their thread: that of an exited thread is freed, and the
original thread is given one. -/
theorem beforeRefill_same {newNode : Addr} {ran : Bool}
    (h : beforeRefill newNode ran s = some s') (a : Addr) :
    (s'.idAt a =
      if s.running_queue_head = some a ∧ s.ExitedAt a then none
      else if s.running_queue_head = none ∧ a = newNode then some 1 else s.idAt a) ∧
      (s'.ExitedAt a → s.running_queue_head ≠ some a ∧ s.ExitedAt a) := by
  unfold beforeRefill at h
  split at h
  · rename_i hhead
    obtain ⟨_, rfl⟩ := registerOriginal_eq_some h
    rw [hhead]
    by_cases ha : a = newNode
    · subst ha
      simp [Queues.idAt, Queues.ExitedAt]
    · simp [Queues.idAt, Queues.ExitedAt, ha]
  · rename_i ptr hhead
    obtain ⟨hid, hexited⟩ := descheduleHead_same h a
    rw [hid, hexited, hhead]
    by_cases ha : a = ptr
    · subst ha
      simp
    · simp [ha, Ne.symm ha]

/-- A scheduler call changes the threads of two nodes only: that of an exited thread is freed, and
the original thread is given one. -/
theorem scheduler_same {v : Version} {fuel : ℕ} {newNode : Addr} {ran : Bool}
    (h : scheduler v fuel newNode ran s = some s') (a : Addr) :
    (s'.idAt a =
      if s.running_queue_head = some a ∧ s.ExitedAt a then none
      else if s.running_queue_head = none ∧ a = newNode then some 1 else s.idAt a) ∧
      (s'.ExitedAt a → s.running_queue_head ≠ some a ∧ s.ExitedAt a) := by
  rw [scheduler_eq] at h
  obtain ⟨s₁, hbefore, h⟩ := Option.bind_eq_some_iff.mp h
  obtain ⟨s₂, hrefill, hdispatch⟩ := Option.bind_eq_some_iff.mp h
  obtain ⟨hid, hexited⟩ := beforeRefill_same hbefore a
  obtain ⟨hid', hexited'⟩ := dispatch_same hdispatch a
  have hsame : s₂.idAt a = s₁.idAt a ∧ (s₂.ExitedAt a ↔ s₁.ExitedAt a) := by
    split at hrefill
    · exact (createRunningQueue_relinked hrefill).same a
    · rw [← Option.some.inj hrefill]
      exact ⟨rfl, Iff.rfl⟩
  rw [hid', hsame.1, hid]
  exact ⟨rfl, fun hex => hexited (hsame.2.mp (hexited' hex))⟩

/-- The id that `my_pthread_create` would hand out depends on two globals. -/
theorem createQueues_count (hcount : s'.thread_count1 = s.thread_count1)
    (hcreated : s'.priority_Queue = s.priority_Queue) :
    (createQueues s').thread_count1 = (createQueues s).thread_count1 := by
  unfold createQueues
  rw [hcreated]
  split
  · exact hcount
  · rfl

/-- A scheduler call gives out no thread id, and some thread runs afterwards. -/
theorem scheduler_count {v : Version} {fuel : ℕ} {newNode : Addr} {ran : Bool}
    (h : scheduler v fuel newNode ran s = some s') :
    (s'.thread_count1 = s.thread_count1 ∧ s'.priority_Queue = s.priority_Queue) ∧
      s'.running_queue_head ≠ none := by
  rw [scheduler_eq] at h
  obtain ⟨s₁, hbefore, h⟩ := Option.bind_eq_some_iff.mp h
  obtain ⟨s₂, hrefill, hdispatch⟩ := Option.bind_eq_some_iff.mp h
  have hcount₁ : s₁.thread_count1 = s.thread_count1 ∧ s₁.priority_Queue = s.priority_Queue := by
    unfold beforeRefill at hbefore
    split at hbefore
    · obtain ⟨_, rfl⟩ := registerOriginal_eq_some hbefore
      exact ⟨rfl, rfl⟩
    · obtain ⟨n, _, hcases⟩ := descheduleHead_cases hbefore
      rcases hcases with ⟨_, rfl⟩ | ⟨_, m, _, hrequeue⟩
      · exact ⟨rfl, rfl⟩
      · exact ⟨(requeue_relinked hrequeue).count, (requeue_relinked hrequeue).created⟩
  have hcount₂ : s₂.thread_count1 = s₁.thread_count1 ∧ s₂.priority_Queue = s₁.priority_Queue := by
    split at hrefill
    · exact ⟨(createRunningQueue_relinked hrefill).count,
        (createRunningQueue_relinked hrefill).created⟩
    · rw [← Option.some.inj hrefill]
      exact ⟨rfl, rfl⟩
  obtain ⟨ptr, n, hptr, _, rfl⟩ := dispatch_eq_some hdispatch
  exact ⟨⟨hcount₂.1.trans hcount₁.1, hcount₂.2.trans hcount₁.2⟩, by simp [hptr]⟩

/-- The threads after the running thread has been marked as exited and has left. -/
theorem exited_same {v : Version} {fuel : ℕ} {newNode ptr : Addr} {ran : Bool} {s₁ : Queues}
    (hnone : ∀ a, ¬ s.ExitedAt a) (hhead : s.running_queue_head = some ptr)
    (hstore : s.store ptr (fun n => { n with status := .THREAD_EXITED }) = some s₁)
    (hrun : scheduler v fuel newNode ran s₁ = some s') :
    (∀ a, s'.idAt a = if a = ptr then none else s.idAt a) ∧ (∀ a, ¬ s'.ExitedAt a) ∧
      (s'.thread_count1 = s.thread_count1 ∧ s'.priority_Queue = s.priority_Queue) ∧
      s'.running_queue_head ≠ none := by
  obtain ⟨n, hn, hs₁⟩ := Option.map_eq_some_iff.mp hstore
  have hmarked : s₁.running_queue_head = s.running_queue_head ∧
      (s₁.thread_count1 = s.thread_count1 ∧ s₁.priority_Queue = s.priority_Queue) ∧
      ∀ a, s₁.idAt a = s.idAt a ∧ (s₁.ExitedAt a ↔ a = ptr) := by
    rw [← hs₁]
    refine ⟨rfl, ⟨rfl, rfl⟩, fun a => ?_⟩
    by_cases ha : a = ptr
    · subst ha
      simp [Queues.idAt, Queues.ExitedAt, hn]
    · have hold := hnone a
      unfold Queues.ExitedAt at hold
      simp [Queues.idAt, Queues.ExitedAt, ha, hold]
  obtain ⟨hhead₁, ⟨hcount₁, hcreated₁⟩, hthread⟩ := hmarked
  obtain ⟨⟨hcount, hcreated⟩, hrunning⟩ := scheduler_count hrun
  have hsame := scheduler_same hrun
  refine ⟨fun a => ?_, fun a hex => ?_, ⟨hcount.trans hcount₁, hcreated.trans hcreated₁⟩, hrunning⟩
  · rw [(hsame a).1, hhead₁, hhead, (hthread a).1]
    by_cases ha : a = ptr
    · have hex := (hthread a).2.mpr ha
      rw [if_pos ⟨congrArg some ha.symm, hex⟩, if_pos ha]
    · simp [ha, Ne.symm ha]
  · obtain ⟨hne, hex'⟩ := (hsame a).2 hex
    rw [hhead₁, hhead, (hthread a).2.mp hex'] at hne
    exact hne rfl

/-! ## Calls -/

/-- The append of `my_pthread_create` changes no thread. -/
theorem enqueueNew_relinked {newNode : Addr} (h : enqueueNew s newNode = some s') :
    Relinked s s' ∧ s'.running_queue_head = s.running_queue_head := by
  simp only [enqueueNew, Option.bind_eq_bind] at h
  split at h
  · rw [← Option.some.inj h]
    exact ⟨⟨fun _ => rfl, rfl, rfl, rfl⟩, rfl⟩
  · obtain ⟨s₁, h₁, h⟩ := Option.bind_eq_some_iff.mp h
    obtain ⟨tail, _, hstore⟩ := Option.bind_eq_some_iff.mp h₁
    have hrel := store_relinked hstore
    obtain ⟨n, _, rfl⟩ := Option.map_eq_some_iff.mp hstore
    rw [← Option.some.inj h]
    exact ⟨⟨hrel.threads, hrel.flag, hrel.count, hrel.created⟩, rfl⟩

/-- The threads after a new one has been enqueued. -/
theorem createNode_same {newNode : Addr} (h : createNode s newNode = some s') :
    s.node newNode = none ∧ s'.running_queue_head = s.running_queue_head ∧
      (s'.thread_count1 = ((createQueues s).thread_count1 + 1) % 2 ^ 32 ∧
        s'.priority_Queue = true) ∧
      ∀ a, (s'.idAt a = if a = newNode then some (createQueues s).thread_count1 else s.idAt a) ∧
        (s'.ExitedAt a → a ≠ newNode ∧ s.ExitedAt a) := by
  obtain ⟨hnode, _, _, hrunning⟩ := createQueues_spec s
  simp only [createNode, hnode] at h
  split at h
  · rename_i hfresh
    obtain ⟨hrel, hhead⟩ := enqueueNew_relinked h
    have hcreated : (createQueues s).priority_Queue = true := by
      unfold createQueues
      split
      · assumption
      · rfl
    refine ⟨hfresh, hhead.trans hrunning, ⟨hrel.count, hrel.created.trans hcreated⟩, fun a => ?_⟩
    obtain ⟨hid, hexited⟩ := hrel.same a
    rw [hid, hexited]
    by_cases ha : a = newNode
    · subst ha
      simp [Queues.idAt, Queues.ExitedAt, takeThreadId]
    · simp [Queues.idAt, Queues.ExitedAt, takeThreadId, ha]
  · exact absurd h (by simp)

/-- A creation that fails changes no thread, but it may have taken an id. -/
theorem createFails_same (s : Queues) (failure : AllocFailure) :
    (createFails s failure).node = s.node ∧
      (createFails s failure).running_queue_head = s.running_queue_head ∧
      ((createQueues (createFails s failure)).thread_count1 = (createQueues s).thread_count1 ∨
        (createQueues (createFails s failure)).thread_count1 =
          ((createQueues s).thread_count1 + 1) % 2 ^ 32) := by
  obtain ⟨hnode, _, _, hrunning⟩ := createQueues_spec s
  have hcreated : (createQueues s).priority_Queue = true := by
    unfold createQueues
    split
    · assumption
    · rfl
  cases failure with
  | queue => exact ⟨rfl, rfl, Or.inl rfl⟩
  | context =>
    refine ⟨hnode, hrunning, Or.inl ?_⟩
    change (createQueues (createQueues s)).thread_count1 = _
    rw [createQueues, if_pos hcreated]
  | node =>
    refine ⟨hnode, hrunning, Or.inr ?_⟩
    change (createQueues (takeThreadId (createQueues s))).thread_count1 = _
    rw [createQueues, if_pos (show (takeThreadId (createQueues s)).priority_Queue = true from
      hcreated)]
    rfl

/-- The ids behind the nodes after a call. -/
def Call.idsAfter (s : Library) (call : Call) (a : Addr) : Option ℕ :=
  if s.queues.running_queue_head = none ∧ a = call.original then some 1
  else match call with
    | .create newNode _ => if a = newNode then some s.nextThreadId else s.queues.idAt a
    | .yield _ => s.queues.idAt a
    | .timer _ => s.queues.idAt a
    | .exit _ _ _ => if s.queues.running_queue_head = some a then none else s.queues.idAt a

/-- The next thread id after a call. -/
def Call.countAfter (s : Library) : Call → ℕ
  | .create _ _ => (s.nextThreadId + 1) % 2 ^ 32
  | _ => s.nextThreadId

/-- What a call does to the threads, whatever the lists look like. -/
theorem Call.exec_same {v : Version} {fuel : ℕ} {call : Call} {s s' : Library}
    (hnone : ∀ a, ¬ s.queues.ExitedAt a) (h : call.exec v fuel s = some s') :
    (∀ a, s'.queues.idAt a = call.idsAfter s a) ∧ (∀ a, ¬ s'.queues.ExitedAt a) ∧
      s'.nextThreadId = call.countAfter s ∧ s'.queues.running_queue_head ≠ none := by
  simp only [Call.exec, Option.bind_eq_bind] at h
  obtain ⟨s₁, henter, h⟩ := Option.bind_eq_some_iff.mp h
  obtain ⟨queues, hrun, h⟩ := Option.bind_eq_some_iff.mp h
  rw [← Option.some.inj h]
  have henterq := Call.enter_queues henter
  obtain ⟨⟨hcount, hcreated⟩, hrunning⟩ := scheduler_count hrun
  have hsame := scheduler_same hrun
  have hnext : (createQueues queues).thread_count1 = (createQueues s₁.queues).thread_count1 :=
    createQueues_count hcount hcreated
  cases call with
  | create newNode original =>
    obtain ⟨hfresh, hhead, ⟨hcount₁, hcreated₁⟩, hid⟩ := createNode_same henterq
    have hnone₁ (a : Addr) : ¬ s₁.queues.ExitedAt a := fun hex => hnone a ((hid a).2 hex).2
    refine ⟨fun a => ?_, fun a hex => hnone₁ a ((hsame a).2 hex).2, ?_, hrunning⟩
    · rw [(hsame a).1, hhead, (hid a).1]
      simp [hnone₁, Call.idsAfter, Call.original, Library.nextThreadId]
    · refine hnext.trans ?_
      rw [createQueues, if_pos hcreated₁]
      exact hcount₁
  | yield original =>
    obtain rfl := Option.some.inj henter
    refine ⟨fun a => ?_, fun a hex => hnone a ((hsame a).2 hex).2, hnext, hrunning⟩
    rw [(hsame a).1]
    simp [hnone, Call.idsAfter, Call.original]
  | timer original =>
    obtain rfl := Option.some.inj henter
    refine ⟨fun a => ?_, fun a hex => hnone a ((hsame a).2 hex).2, hnext, hrunning⟩
    rw [(hsame a).1]
    simp [hnone, Call.idsAfter, Call.original]
  | exit value_ptr block original =>
    obtain ⟨ptr, hptr, hstore⟩ := Option.bind_eq_some_iff.mp henterq
    obtain ⟨hid, hexited, ⟨hcount', hcreated'⟩, hrunning'⟩ := exited_same hnone hptr hstore hrun
    refine ⟨fun a => ?_, hexited, createQueues_count hcount' hcreated', hrunning'⟩
    rw [hid a]
    simp only [Call.idsAfter, hptr, reduceCtorEq, false_and, if_false, Option.some.injEq,
      eq_comm]

end SimpleOs.Threads
