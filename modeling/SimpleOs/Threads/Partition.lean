import SimpleOs.Library.Runs
import SimpleOs.Threads.Queues

/-!
# The queues partition the threads

The running queue and the priority queues together should hold every live thread
once. Each call takes the running thread off its queue and appends it to
another, and only a refill can break the partition: when it leaves threads
behind in the queue it loads from last.
-/

namespace SimpleOs.Threads

open LinkedList

variable {s s' : Queues} {r : List Addr} {q : Fin 3 → List Addr}

/-- The four lists are disjoint and contain each live thread exactly once and no
other node, and the tails are right. -/
def Queues.Partition (s : Queues) (live : List Addr) : Prop :=
  ∃ r q, Queued s r q ∧ Tails s q ∧ (allNodes r q).Perm live

/-! ## The refill -/

/-- The nodes that a refill loads, together with those it leaves. -/
theorem allNodes_load (q : Fin 3 → List Addr) (n : Fin 3 → ℕ) :
    (allNodes ((q 0).take (n 0) ++ (q 1).take (n 1) ++ (q 2).take (n 2))
      (fun c => (q c).drop (n c))).Perm (allNodes [] q) := by
  rw [List.perm_iff_count]
  intro b
  have hcount (c : Fin 3) :
      ((q c).take (n c)).count b + ((q c).drop (n c)).count b = (q c).count b := by
    rw [← List.count_append, List.take_append_drop]
  have h0 := hcount 0
  have h1 := hcount 1
  have h2 := hcount 2
  simp only [allNodes, List.count_append, List.nil_append]
  omega

/-- After a refill the tails are right. -/
theorem createRunningQueue_tails {v : Version} {fuel : ℕ} (h : Queued s [] q)
    (ht : LooseTails s q) (hrefill : createRunningQueue v fuel s = some s') :
    Tails s' fun c => (q c).drop (quota (fun c => (q c).length) c) := by
  intro c
  obtain ⟨_, htail, _, _⟩ := createRunningQueue_spec h.running h.list h.nodup hrefill
  rw [htail c]
  have hle := quota_le (fun c => (q c).length) c
  have hzero := quota_eq_zero (fun c => (q c).length) c
  change _ = ((q c).drop (quota (fun c => (q c).length) c)).getLast?
  generalize quota (fun c => (q c).length) c = n at *
  split
  · rename_i hn
    rw [hn.2, List.drop_length]
    rfl
  · rename_i hn
    have hlt : n < (q c).length ∨ (q c).length = 0 := by omega
    rcases hlt with hlt | hnil
    · have htc : s.priority_tail c = (q c).getLast? := (ht c).resolve_right (by omega)
      rw [htc, List.getLast?_drop, if_neg (by omega)]
    · have htc : s.priority_tail c = (q c).getLast? := (ht c).resolve_right (by omega)
      rw [htc, List.length_eq_zero_iff.mp hnil]
      simp

/-- A refill keeps the lists disjoint when the lengths are right. -/
theorem createRunningQueue_partition {v : Version} {fuel : ℕ} (h : Queued s [] q)
    (ht : LooseTails s q) (hrefill : createRunningQueue v fuel s = some s')
    (hlength : RefillExhausts fun c => (q c).length) :
    ∃ r' q', Queued s' r' q' ∧ Tails s' q' ∧ (allNodes r' q').Perm (allNodes [] q) := by
  obtain ⟨hloading, _, _, _⟩ := createRunningQueue_spec h.running h.list h.nodup hrefill
  rw [(leftover_eq_none q).mpr hlength] at hloading
  exact ⟨_, _, ⟨hloading.running, hloading.list, hloading.nodup⟩,
    createRunningQueue_tails h ht hrefill, allNodes_load q _⟩

/-- A refill that leaves threads of the last queue behind breaks the partition: the
running queue runs on into that queue. -/
theorem createRunningQueue_overlap {v : Version} {fuel : ℕ} (h : Queued s [] q)
    (hrefill : createRunningQueue v fuel s = some s')
    (hlength : ¬ RefillExhausts fun c => (q c).length) {r' : List Addr}
    {q' : Fin 3 → List Addr} : ¬ Queued s' r' q' := by
  intro hq'
  obtain ⟨hloading, _, _, _⟩ := createRunningQueue_spec h.running h.list h.nodup hrefill
  rw [← leftover_eq_none] at hlength
  obtain ⟨c, hc⟩ : ∃ c, leftover q = ((q c).drop (quota (fun c => (q c).length) c)).head? :=
    ⟨_, rfl⟩
  have hleft := hloading.list c
  cases hrest : (q c).drop (quota (fun c => (q c).length) c) with
  | nil =>
    rw [hc, hrest] at hlength
    exact hlength rfl
  | cons a l =>
    have hhead : s'.priority_head c = leftover q := by
      rw [hc]
      exact Segment.eq_head? hleft
    -- The node `a` is on both lists.
    have hqueue : q' c = a :: l := by
      rw [← hrest]
      exact Segment.unique (hq'.list c) hleft
    have hrunning := hloading.running
    rw [← hhead] at hrunning
    have hlist := Segment.unique hq'.running (hrunning.append hleft)
    refine allNodes_disjoint hq'.nodup (a := a) ?_ c (by rw [hqueue]; simp)
    rw [hlist, hrest]
    simp

/-! ## A whole call -/

/-- Running the next thread changes no list. -/
theorem dispatch_spec (h : dispatch s = some s') :
    s'.link = s.link ∧ s'.priority_head = s.priority_head ∧
      s'.priority_tail = s.priority_tail ∧ s'.running_queue_head = s.running_queue_head ∧
      ∀ a n, s'.node a = some n → ∃ m, s.node a = some m ∧
        (n.status = .THREAD_EXITED → m.status = .THREAD_EXITED) := by
  obtain ⟨ptr, k, _, hk, rfl⟩ := dispatch_eq_some h
  refine ⟨?_, rfl, rfl, rfl, fun a n hn => ?_⟩
  · rw [Queues.link_update]
    funext a
    by_cases ha : a = ptr
    · subst ha
      simp [Queues.link, hk]
    · rw [Function.update_of_ne ha]
  · by_cases ha : a = ptr
    · subst ha
      refine ⟨k, hk, ?_⟩
      simp only [Function.update_self, Option.some.injEq] at hn
      rw [← hn]
      simp
    · exact ⟨n, by simpa [ha] using hn, id⟩

/-- The condition on a scheduler call: if it refills the running queue, the lengths
of the priority queues at that moment are right. -/
def RefillSafe (newNode : Addr) (ranWholeTimeSlice : Bool) (s : Queues) : Prop :=
  ∀ (s₁ : Queues) (q : Fin 3 → List Addr),
    beforeRefill newNode ranWholeTimeSlice s = some s₁ → s₁.running_queue_head = none →
    (∀ c, s₁.IsList (s₁.priority_head c) (q c)) → RefillExhausts fun c => (q c).length

/-- The lists before the refill, whichever way the scheduler gets there. -/
theorem beforeRefill_spec {newNode : Addr} {ran exiting : Bool} (h : Entry s r q exiting)
    (hrun : beforeRefill newNode ran s = some s') :
    ∃ r' q', Queued s' r' q' ∧ LooseTails s' q' ∧ (r' ≠ [] → Tails s' q') ∧
      (allNodes r' q').Perm (liveAfter s newNode exiting (allNodes r q)) ∧
      ∀ a n, s'.node a = some n → n.status ≠ .THREAD_EXITED := by
  unfold beforeRefill at hrun
  cases r with
  | nil =>
    have hhead : s.running_queue_head = none := h.queued.running
    rw [hhead] at hrun
    obtain ⟨hqueued, htails, hstatus⟩ := registerOriginal_spec h hrun
    refine ⟨_, _, hqueued, htails, fun hr => absurd rfl hr, ?_, hstatus⟩
    simp [liveAfter, hhead, allNodes, Function.update]
  | cons ptr r =>
    have hhead : s.running_queue_head = some ptr := h.queued.running.1
    rw [hhead] at hrun
    obtain ⟨q', hqueued, htails, hperm, hstatus⟩ := descheduleHead_spec h hrun
    refine ⟨r, q', hqueued, fun c => Or.inl (htails c), fun _ => htails, ?_, hstatus⟩
    simpa [liveAfter, hhead] using hperm

/-- The partition after a scheduler call is right exactly when the refill, if there
is one, finds the right lengths. -/
theorem scheduler_partition {v : Version} {fuel : ℕ} {newNode : Addr} {ran exiting : Bool}
    {live : List Addr} (h : Entry s r q exiting) (hlive : (allNodes r q).Perm live)
    (hrun : scheduler v fuel newNode ran s = some s') :
    (s'.Partition (liveAfter s newNode exiting live) ↔ RefillSafe newNode ran s) ∧
      ∀ a n, s'.node a = some n → n.status ≠ .THREAD_EXITED := by
  rw [scheduler_eq] at hrun
  obtain ⟨s₁, hbefore, hrun⟩ := Option.bind_eq_some_iff.mp hrun
  obtain ⟨s₂, hrefill, hdispatch⟩ := Option.bind_eq_some_iff.mp hrun
  obtain ⟨r₁, q₁, hq₁, hloose, htails, hperm, hstatus⟩ := beforeRefill_spec h hbefore
  obtain ⟨hlink, hheads, htails', hrunning, hstatus'⟩ := dispatch_spec hdispatch
  replace hperm : (allNodes r₁ q₁).Perm (liveAfter s newNode exiting live) := by
    refine hperm.trans ?_
    unfold liveAfter
    split
    · exact hlive.cons _
    · split
      · exact hlive.erase _
      · exact hlive
  split at hrefill
  · rename_i hempty
    obtain rfl : r₁ = [] := by
      cases r₁ with
      | nil => rfl
      | cons a l => exact absurd (hempty.symm.trans hq₁.running.1) (by simp)
    refine ⟨⟨fun hpart => ?_, fun hsafe => ?_⟩, fun a n hn hexited => ?_⟩
    · obtain ⟨r', q', hq', _, _⟩ := hpart
      intro s₁' q hbefore' _ hlist
      obtain rfl := Option.some.inj (hbefore.symm.trans hbefore')
      obtain rfl : q = q₁ := funext fun c => Segment.unique (hlist c) (hq₁.list c)
      by_contra hlength
      exact createRunningQueue_overlap hq₁ hrefill hlength
        (hq'.of_link (fun a _ => (congrFun hlink a).symm) hrunning.symm hheads.symm)
    · obtain ⟨r', q', hq', ht', hperm'⟩ :=
        createRunningQueue_partition hq₁ hloose hrefill (hsafe s₁ q₁ hbefore hempty hq₁.list)
      refine ⟨r', q', hq'.of_link (fun a _ => congrFun hlink a) hrunning hheads, fun c => ?_,
        hperm'.trans hperm⟩
      rw [htails']
      exact ht' c
    · obtain ⟨m, hm, hmstatus⟩ := hstatus' a n hn
      obtain ⟨_, _, _, hrel⟩ := createRunningQueue_spec hq₁.running hq₁.list hq₁.nodup hrefill
      obtain ⟨k, hk, hthread⟩ := hrel.node hm
      have hsame : m.thread.status = k.thread.status := congrArg Node.status hthread
      exact hstatus a k hk (hsame.symm.trans (hmstatus hexited))
  · rename_i hempty
    obtain rfl := Option.some.inj hrefill
    have hr₁ : r₁ ≠ [] := by
      rintro rfl
      exact hempty hq₁.running
    refine ⟨iff_of_true ?_ ?_, fun a n hn hexited => ?_⟩
    · refine ⟨r₁, q₁, hq₁.of_link (fun a _ => congrFun hlink a) hrunning hheads, fun c => ?_, hperm⟩
      rw [htails']
      exact htails hr₁ c
    · intro s₁' q hbefore' hnone _
      obtain rfl := Option.some.inj (hbefore.symm.trans hbefore')
      exact absurd hnone hempty
    · obtain ⟨m, hm, hmstatus⟩ := hstatus' a n hn
      exact hstatus a m hm (hmstatus hexited)

/-! ## Before the scheduler is called -/

/-- The queues when a call reaches the scheduler. -/
def Call.enterQueues (s : Queues) : Call → Option Queues
  | .create newNode _ => createNode s newNode
  | .yield _ => some s
  | .timer _ => some s
  | .exit _ _ _ => s.running_queue_head.bind fun ptr =>
      s.store ptr fun n => { n with status := .THREAD_EXITED }

/-- Whether the running thread leaves for good. -/
def Call.exiting : Call → Bool
  | .exit _ _ _ => true
  | _ => false

/-- The live threads when a call reaches the scheduler. -/
def Call.enterLive (live : List Addr) : Call → List Addr
  | .create newNode _ => newNode :: live
  | _ => live

/-- The joiners and the return values do not matter to the queues. -/
theorem Call.enter_queues {call : Call} {fuel : ℕ} {s s' : Library}
    (h : call.enter fuel s = some s') : call.enterQueues s.queues = some s'.queues := by
  cases call with
  | create newNode original =>
    obtain ⟨queues, hqueues, rfl⟩ := Option.map_eq_some_iff.mp h
    exact hqueues
  | yield original => exact congrArg (Option.map Library.queues) h
  | timer original => exact congrArg (Option.map Library.queues) h
  | exit value_ptr block original =>
    simp only [Call.enter, markExited, Option.bind_eq_bind] at h
    obtain ⟨ptr, hptr, h⟩ := Option.bind_eq_some_iff.mp h
    obtain ⟨n, hn, h⟩ := Option.bind_eq_some_iff.mp h
    obtain ⟨join_block, _, h⟩ := Option.bind_eq_some_iff.mp h
    obtain ⟨s₁, hpush, h⟩ := Option.bind_eq_some_iff.mp h
    obtain ⟨queues, hstore, h⟩ := Option.bind_eq_some_iff.mp h
    have hqueues : s₁.queues = s.queues := by
      unfold pushRetval at hpush
      split at hpush
      · rw [← Option.some.inj hpush]
      · split at hpush
        · rw [← Option.some.inj hpush]
        · exact absurd hpush (by simp)
    rw [hqueues] at hstore
    rw [← Option.some.inj h]
    simp only [Call.enterQueues, hptr, Option.bind_some]
    exact hstore

/-- Allocating the priority queues does not change the lists. -/
theorem createQueues_spec (s : Queues) :
    (createQueues s).node = s.node ∧ (createQueues s).priority_head = s.priority_head ∧
      (createQueues s).priority_tail = s.priority_tail ∧
      (createQueues s).running_queue_head = s.running_queue_head := by
  unfold createQueues
  split <;> exact ⟨rfl, rfl, rfl, rfl⟩

/-- Creating a thread appends its node to priority queue 0. -/
theorem createNode_spec {newNode : Addr} (hq : Queued s r q) (ht : Tails s q)
    (hstatus : ∀ a n, s.node a = some n → n.status ≠ .THREAD_EXITED)
    (h : createNode s newNode = some s') :
    Queued s' r (Function.update q 0 (q 0 ++ [newNode])) ∧
      Tails s' (Function.update q 0 (q 0 ++ [newNode])) ∧
      s'.running_queue_head = s.running_queue_head ∧
      ∀ a n, s'.node a = some n → n.status ≠ .THREAD_EXITED := by
  obtain ⟨hnode, hhead, htail, hrunning⟩ := createQueues_spec s
  simp only [createNode, hnode] at h
  split at h
  · rename_i hfresh
    generalize hn : (⟨.THREAD_READY, 0, 0, (createQueues s).thread_count1, none⟩ : Node) = n at h
    have hnull : n.next = none := by rw [← hn]
    have hready : n.status = .THREAD_READY := by rw [← hn]
    generalize hs₁ : takeThreadId
      { createQueues s with node := Function.update s.node newNode (some n) } = s₁ at h
    have hnode₁ : s₁.node = Function.update s.node newNode (some n) := by rw [← hs₁]; rfl
    have hnew : newNode ∉ allNodes r q := by
      intro hmem
      obtain ⟨m, hm⟩ := hq.allocated hmem
      exact absurd (hfresh.symm.trans hm) (by simp)
    have hq₁ : Queued s₁ r q := by
      refine hq.of_link (fun a ha => ?_) ?_ ?_
      · have hne : a ≠ newNode := by
          rintro rfl
          exact hnew ha
        simp [Queues.link, hnode₁, hne]
      · rw [← hs₁]
        exact hrunning
      · rw [← hs₁]
        exact hhead
    have ht₁ : Tails s₁ q := fun c => by
      rw [← hs₁]
      exact (congrFun htail c).trans (ht c)
    obtain ⟨_, hdone, happended⟩ := enqueueNew_appended (hq₁.list 0) (ht₁ 0)
      (fun hmem => hnew (mem_allNodes.mpr (Or.inr ⟨0, hmem⟩)))
      (by simp [Queues.link, hnode₁, hnull])
    obtain rfl := Option.some.inj (hdone.symm.trans h)
    refine ⟨happended.queued hq₁ hnew, happended.tails ht₁, ?_, fun a k hk => ?_⟩
    · rw [happended.running, ← hs₁]
      exact hrunning
    · obtain ⟨k', hk', hthread⟩ := happended.relinked.node hk
      have hsame : k.thread.status = k'.thread.status := congrArg Node.status hthread
      change k.thread.status ≠ _
      rw [hsame]
      change k'.status ≠ _
      rw [hnode₁] at hk'
      by_cases ha : a = newNode
      · subst ha
        obtain rfl : n = k' := by simpa using hk'
        rw [hready]
        simp
      · exact hstatus a k' (by simpa [ha] using hk')
  · exact absurd h (by simp)

/-- When no thread has exited, the lists are ready for the scheduler. -/
theorem Call.enterQueues_entry {call : Call} {live : List Addr} (hq : Queued s r q)
    (ht : Tails s q) (hlive : (allNodes r q).Perm live)
    (hstatus : ∀ a n, s.node a = some n → n.status ≠ .THREAD_EXITED)
    (h : call.enterQueues s = some s') :
    ∃ q', Entry s' r q' call.exiting ∧ (allNodes r q').Perm (call.enterLive live) ∧
      s'.running_queue_head = s.running_queue_head := by
  have hidle : Entry s r q false :=
    ⟨hq, ht, fun a n hn => iff_of_false (hstatus a n hn) (by simp)⟩
  cases call with
  | create newNode original =>
    obtain ⟨hq', ht', hrunning, hstatus'⟩ := createNode_spec hq ht hstatus h
    exact ⟨_, ⟨hq', ht', fun a n hn => iff_of_false (hstatus' a n hn) (by simp [Call.exiting])⟩,
      (allNodes_append r q 0 newNode).trans (hlive.cons _), hrunning⟩
  | yield original =>
    obtain rfl := Option.some.inj h
    exact ⟨q, hidle, hlive, rfl⟩
  | timer original =>
    obtain rfl := Option.some.inj h
    exact ⟨q, hidle, hlive, rfl⟩
  | exit value_ptr block original =>
    obtain ⟨ptr, hptr, hstore⟩ := Option.bind_eq_some_iff.mp h
    obtain ⟨n, hn, rfl⟩ := Option.map_eq_some_iff.mp hstore
    refine ⟨q, ⟨hq.of_link (fun a _ => ?_) rfl rfl, ht, fun a m hm => ?_⟩, hlive, rfl⟩
    · rw [Queues.link_update]
      by_cases ha : a = ptr
      · subst ha
        simp [Queues.link, hn]
      · rw [Function.update_of_ne ha]
    · simp only [Call.exiting, hptr, true_and, Option.some.injEq]
      by_cases ha : a = ptr
      · subst ha
        simp only [Function.update_self, Option.some.injEq] at hm
        rw [← hm]
        simp
      · simp only [Function.update_of_ne ha] at hm
        exact iff_of_false (hstatus a m hm) fun heq => ha heq.symm

/-! ## Runs -/

/-- The library together with the nodes of its live threads. -/
structure Tracked where
  /-- The globals of the library. -/
  lib : Library
  /-- The node of each thread that was created or registered and has not exited. -/
  live : List Addr

/-- What the running thread, or the timer, does. -/
inductive Event where
  /-- A call that reaches the scheduler. -/
  | call (call : Call)
  /-- A call of `my_pthread_create` that fails. -/
  | createFails (failure : AllocFailure)

/-- One event changes the library, and with it the list of live threads. -/
def LibraryStep (v : Version) (τ : Tracked) : Event → Tracked → Prop
  | .call call, τ' => ∃ fuel, call.exec v fuel τ.lib = some τ'.lib ∧
      τ'.live = liveAfter τ.lib.queues call.original call.exiting (call.enterLive τ.live)
  | .createFails failure, τ' =>
      τ' = { τ with lib := { τ.lib with queues := createFails τ.lib.queues failure } }

/-- The states reached from the first library call by events that meet `ok`. -/
def LibraryReach (v : Version) (ok : Tracked → Event → Prop) : Tracked → Prop :=
  Runs.Reach (fun τ => τ = ⟨Library.zero, []⟩) (LibraryStep v) ok

/-- The condition on an event: a refill that it makes finds queues of the right
lengths. -/
def RefillsExhaust (τ : Tracked) : Event → Prop
  | .call call => ∀ s, call.enterQueues τ.lib.queues = some s →
      RefillSafe call.original call.ranWholeTimeSlice s
  | .createFails _ => True

/-- The partition, with no thread left that has exited. -/
def Tracked.Sound (τ : Tracked) : Prop :=
  τ.lib.queues.Partition τ.live ∧
    ∀ a n, τ.lib.queues.node a = some n → n.status ≠ .THREAD_EXITED

/-- The step lemma: from a sound state, the partition after an event is right
exactly when the event meets the condition. -/
theorem Tracked.Sound.step {v : Version} {τ τ' : Tracked} {e : Event} (h : τ.Sound)
    (hstep : LibraryStep v τ e τ') :
    (τ'.lib.queues.Partition τ'.live ↔ RefillsExhaust τ e) ∧
      ∀ a n, τ'.lib.queues.node a = some n → n.status ≠ .THREAD_EXITED := by
  obtain ⟨⟨r, q, hq, ht, hlive⟩, hstatus⟩ := h
  cases e with
  | call call =>
    obtain ⟨fuel, hexec, hlive'⟩ := hstep
    simp only [Call.exec, Option.bind_eq_bind] at hexec
    obtain ⟨s₁, henter, hexec⟩ := Option.bind_eq_some_iff.mp hexec
    obtain ⟨queues, hrun, hexec⟩ := Option.bind_eq_some_iff.mp hexec
    have henterq := Call.enter_queues henter
    obtain ⟨q₁, hentry, hperm, hhead⟩ := Call.enterQueues_entry hq ht hlive hstatus henterq
    obtain ⟨hiff, hstatus'⟩ := scheduler_partition hentry hperm hrun
    have hqueues : τ'.lib.queues = queues := by rw [← Option.some.inj hexec]
    have hlive₁ : τ'.live =
        liveAfter s₁.queues call.original call.exiting (call.enterLive τ.live) := by
      rw [hlive']
      unfold liveAfter
      rw [hhead]
    rw [hqueues, hlive₁]
    refine ⟨hiff.trans ⟨fun hsafe s hs => ?_, fun hsafe => hsafe _ henterq⟩, hstatus'⟩
    obtain rfl := Option.some.inj (henterq.symm.trans hs)
    exact hsafe
  | createFails failure =>
    obtain rfl := hstep
    obtain ⟨hnode, hhead, htail, hrunning⟩ := createQueues_spec τ.lib.queues
    have hsame : (createFails τ.lib.queues failure).node = τ.lib.queues.node ∧
        (createFails τ.lib.queues failure).priority_head = τ.lib.queues.priority_head ∧
        (createFails τ.lib.queues failure).priority_tail = τ.lib.queues.priority_tail ∧
        (createFails τ.lib.queues failure).running_queue_head =
          τ.lib.queues.running_queue_head := by
      cases failure
      · exact ⟨rfl, rfl, rfl, rfl⟩
      · exact createQueues_spec _
      · exact createQueues_spec _
    obtain ⟨hnode, hhead, htail, hrunning⟩ := hsame
    refine ⟨iff_of_true ⟨r, q, hq.of_link (fun a _ => ?_) hrunning hhead, fun c => ?_, hlive⟩
      trivial, fun a n hn => hstatus a n ?_⟩
    · simp [Queues.link, hnode]
    · exact (congrFun htail c).trans (ht c)
    · rw [← hnode]
      exact hn

/-- Before the first call the queues are empty. -/
theorem sound_zero : Tracked.Sound ⟨Library.zero, []⟩ := by
  refine ⟨⟨[], fun _ => [], ⟨rfl, fun _ => rfl, by simp [allNodes]⟩, fun _ => rfl, ?_⟩, ?_⟩
  · simp [allNodes]
  · exact fun a n hn => absurd hn (by simp [Library.zero, Queues.zero])

/-- Runs whose refills find the right lengths are sound. -/
theorem libraryReach_sound {v : Version} {τ : Tracked} (h : LibraryReach v RefillsExhaust τ) :
    τ.Sound := by
  refine Runs.Reach.invariant (P := Tracked.Sound) ?_ ?_ h
  · rintro _ rfl
    exact sound_zero
  · intro τ e τ' hτ hok hstep
    obtain ⟨hiff, hstatus⟩ := hτ.step hstep
    exact ⟨hiff.mpr hok, hstatus⟩

/-- In every run whose refills all find the right queue lengths the queues
partition the live threads, and after such a run the next event keeps the
partition only if its refill finds the right lengths. -/
theorem queues_partition (v : Version) :
    (∀ τ : Tracked, LibraryReach v RefillsExhaust τ → τ.lib.queues.Partition τ.live) ∧
      ∀ (τ : Tracked) (e : Event) (τ' : Tracked), LibraryReach v RefillsExhaust τ →
        LibraryStep v τ e τ' → (τ'.lib.queues.Partition τ'.live ↔ RefillsExhaust τ e) :=
  ⟨fun _ h => (libraryReach_sound h).1, fun _ _ _ h hstep => ((libraryReach_sound h).step hstep).1⟩

/-- With at most three live threads every refill finds the right lengths. -/
theorem Tracked.Sound.refillsExhaust {τ : Tracked} (h : τ.Sound) {call : Call}
    (hfew : (liveAfter τ.lib.queues call.original call.exiting
      (call.enterLive τ.live)).length ≤ 3) : RefillsExhaust τ (.call call) := by
  obtain ⟨⟨r, q, hq, ht, hlive⟩, hstatus⟩ := h
  intro s henter s₁ p hbefore hempty hlist
  obtain ⟨q₁, hentry, hperm, hhead⟩ := Call.enterQueues_entry hq ht hlive hstatus henter
  obtain ⟨r', q', hq', _, _, hperm', _⟩ := beforeRefill_spec hentry hbefore
  obtain rfl : p = q' := funext fun c => Segment.unique (hlist c) (hq'.list c)
  have hlength : (allNodes r' p).length ≤ 3 := by
    have hsame : liveAfter s call.original call.exiting = liveAfter τ.lib.queues call.original
        call.exiting := by
      unfold liveAfter
      rw [hhead]
    rw [hsame] at hperm'
    refine le_trans (le_of_eq ?_) hfew
    rw [hperm'.length_eq]
    unfold liveAfter
    split
    · simp [hperm.length_eq]
    · split
      · exact (hperm.erase _).length_eq
      · exact hperm.length_eq
  left
  change 25 * (p 0).length + 50 * (p 1).length + 100 * (p 2).length ≤ refillMax
  simp only [allNodes, List.length_append] at hlength
  unfold refillMax
  omega

/-- The theorem at the first creation, which registers the original thread: both
threads are on a queue. -/
theorem queues_partition_firstCreate :
    ∃ lib, (Call.create 2 1).exec .Pthreads 10 Library.zero = some lib ∧
      lib.queues.Partition [1, 2] := by
  have hrun : ((Call.create 2 1).exec .Pthreads 10 Library.zero).isSome := by decide
  obtain ⟨lib, hlib⟩ := Option.isSome_iff_exists.mp hrun
  have hok : RefillsExhaust ⟨Library.zero, []⟩ (.call (.create 2 1)) :=
    sound_zero.refillsExhaust (by decide)
  exact ⟨lib, hlib, (queues_partition .Pthreads).1 ⟨lib, [1, 2]⟩
    (.step (.start rfl) hok ⟨10, hlib, rfl⟩)⟩

/-- The calls of a list are made one after another. -/
def execCalls (v : Version) (fuel : ℕ) : List Call → Library → Option Library
  | [], s => some s
  | call :: calls, s => (call.exec v fuel s).bind (execCalls v fuel calls)

/-- A sequence of calls is a run. -/
theorem libraryReach_execCalls {v : Version} {fuel : ℕ} {calls : List Call} {τ : Tracked}
    {lib : Library} (hτ : LibraryReach v (fun _ _ => True) τ)
    (h : execCalls v fuel calls τ.lib = some lib) :
    ∃ live, LibraryReach v (fun _ _ => True) ⟨lib, live⟩ := by
  induction calls generalizing τ with
  | nil =>
    obtain rfl := Option.some.inj h
    exact ⟨τ.live, hτ⟩
  | cons call calls ih =>
    obtain ⟨lib', hexec, hrest⟩ := Option.bind_eq_some_iff.mp h
    have hnext : LibraryReach v (fun _ _ => True) ⟨lib', liveAfter τ.lib.queues call.original
        call.exiting (call.enterLive τ.live)⟩ :=
      .step hτ (e := .call call) trivial ⟨fuel, hexec, rfl⟩
    exact ih hnext hrest

/-- Three creations, and then eight time slices that run out, so that four threads
have priority 2 when the running queue is refilled. -/
def demotions : List Call :=
  [.create 2 1, .create 3 0, .create 4 0, .timer 0, .timer 0, .timer 0, .timer 0, .timer 0,
    .timer 0, .timer 0, .timer 0]

/-- After that refill the running queue runs on into priority queue 2. -/
theorem execCalls_demotions (v : Version) :
    ∃ lib, execCalls v 10 demotions Library.zero = some lib ∧
      lib.queues.running_queue_head = some 3 ∧ lib.queues.priority_head 2 = some 2 ∧
      [3, 1, 4, 2].map lib.queues.link =
        [some (some 1), some (some 4), some (some 2), some none] := by
  have hrun : (execCalls v 10 demotions Library.zero).map (fun lib =>
      (lib.queues.running_queue_head, lib.queues.priority_head 2,
        [3, 1, 4, 2].map lib.queues.link)) =
      some (some 3, some 2, [some (some 1), some (some 4), some (some 2), some none]) := by
    cases v <;> rfl
  obtain ⟨lib, hlib, heq⟩ := Option.map_eq_some_iff.mp hrun
  simp only [Prod.mk.injEq] at heq
  exact ⟨lib, hlib, heq⟩

/-- Four threads of priority 2 do not fit in one refill: one of them is left in its
queue and is on the running queue as well. -/
theorem queues_not_partition :
    (∃ τ, LibraryReach .Pthreads (fun _ _ => True) τ ∧ ¬ τ.lib.queues.Partition τ.live) ∧
      ∃ τ, LibraryReach .Memory_Manager (fun _ _ => True) τ ∧
        ¬ τ.lib.queues.Partition τ.live := by
  have hoverlap (v : Version) :
      ∃ τ, LibraryReach v (fun _ _ => True) τ ∧ ¬ τ.lib.queues.Partition τ.live := by
    obtain ⟨lib, hlib, hrunning, hhead, hlinks⟩ := execCalls_demotions v
    obtain ⟨live, hreach⟩ := libraryReach_execCalls (.start rfl) hlib
    refine ⟨_, hreach, ?_⟩
    rintro ⟨r, q, hq, _, _⟩
    simp only [List.map_cons, List.map_nil, List.cons.injEq, and_true] at hlinks
    obtain ⟨h3, h1, h4, h2⟩ := hlinks
    have hr : Segment lib.queues.link lib.queues.running_queue_head [3, 1, 4, 2] none :=
      ⟨hrunning, _, h3, rfl, _, h1, rfl, _, h4, rfl, _, h2, rfl⟩
    have hq2 : Segment lib.queues.link (lib.queues.priority_head 2) [2] none :=
      ⟨hhead, _, h2, rfl⟩
    obtain rfl := Segment.unique hq.running hr
    have hmem : 2 ∈ q 2 := by
      rw [Segment.unique (hq.list 2) hq2]
      simp
    exact allNodes_disjoint hq.nodup (a := 2) (by simp) 2 hmem
  exact ⟨hoverlap _, hoverlap _⟩

end SimpleOs.Threads
