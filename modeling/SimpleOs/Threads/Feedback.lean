import SimpleOs.Threads.Aging
import SimpleOs.Threads.Partition
import SimpleOs.Threads.Policy

/-!
# The scheduler as a multilevel feedback queue

What the scheduler is for can be said with lists: a running list, a waiting list for each
priority, and an account for each thread. This file states the multilevel feedback queue
in these terms and shows that the linked lists, the tails, the links left behind by
refills and the nodes of the library follow it event by event, in every run whose refills
find the right lengths.
-/

namespace SimpleOs.Threads

open Runs LinkedList

variable {s s' : Queues} {r : List Addr} {q : Fin 3 → List Addr}

/-! ## The abstract scheduler -/

/-- The lists of a multilevel feedback queue. -/
structure MultiLevel where
  /-- The threads that are run in turn. The first one has the processor. -/
  running : List Addr
  /-- The threads that wait, by priority. -/
  waiting : Fin 3 → List Addr
  /-- The priority of each thread and the time it has been charged for. -/
  account : Addr → Option (ℕ × ℕ)

/-- Before the first event there are no threads. -/
def MultiLevel.zero : MultiLevel := ⟨[], fun _ => [], fun _ => none⟩

/-- The waiting list to which a thread belongs. -/
def MultiLevel.level (m : MultiLevel) (a : Addr) : Fin 3 :=
  queueOf ((m.account a).elim 0 Prod.fst)

/-- The account of a thread after a slice: after 375 milliseconds the thread is back at
priority 0, and otherwise it loses a priority if it used its slice up. -/
def slicedAccount (ranWholeTimeSlice : Bool) (x : ℕ × ℕ) : ℕ × ℕ :=
  let time := x.2 + timeCharge x.1
  if 375 ≤ time then (0, 0)
  else (if ranWholeTimeSlice = true ∧ x.1 < 2 then x.1 + 1 else x.1, time)

/-- A new thread waits at priority 0. -/
def MultiLevel.arrive (m : MultiLevel) (a : Addr) : MultiLevel :=
  { m with
    waiting := Function.update m.waiting 0 (m.waiting 0 ++ [a])
    account := Function.update m.account a (some (0, 0)) }

/-- The original thread is put in front of the others. -/
def MultiLevel.register (m : MultiLevel) (a : Addr) : MultiLevel :=
  { m with
    waiting := Function.update m.waiting 0 (a :: m.waiting 0)
    account := Function.update m.account a (some (0, 0)) }

/-- Thread `a` gives the processor back, with `r` behind it: it leaves for good, or its
account is charged and it waits again. -/
def MultiLevel.serve (m : MultiLevel) (a : Addr) (r : List Addr)
    (ranWholeTimeSlice exiting : Bool) : MultiLevel :=
  if exiting then { m with running := r, account := Function.update m.account a none }
  else
    let m : MultiLevel :=
      { m with
        running := r
        account := Function.update m.account a
          ((m.account a).map (slicedAccount ranWholeTimeSlice)) }
    { m with
      waiting := Function.update m.waiting (m.level a) (m.waiting (m.level a) ++ [a]) }

/-- When no thread is left to run, the quota of each priority is loaded. -/
def MultiLevel.refill (m : MultiLevel) : MultiLevel :=
  if m.running = [] then
    let n := quota fun c => (m.waiting c).length
    { m with
      running := (m.waiting 0).take (n 0) ++ (m.waiting 1).take (n 1) ++ (m.waiting 2).take (n 2)
      waiting := fun c => (m.waiting c).drop (n c) }
  else m

/-- What a call does before it reaches the scheduler. -/
def MultiLevel.enter (m : MultiLevel) : Call → MultiLevel
  | .create newNode _ => m.arrive newNode
  | _ => m

/-- The scheduler up to the refill. -/
def MultiLevel.leave (m : MultiLevel) (original : Addr) (ranWholeTimeSlice exiting : Bool) :
    MultiLevel :=
  match m.running with
  | [] => m.register original
  | a :: r => m.serve a r ranWholeTimeSlice exiting

/-- A call enters, leaves the processor to the scheduler, and the running queue is refilled if it is
empty. A failed creation changes nothing. -/
def MultiLevel.step (m : MultiLevel) : Event → MultiLevel
  | .call call =>
    ((m.enter call).leave call.original call.ranWholeTimeSlice call.exiting).refill
  | .createFails _ => m

/-- The queues of the library show the lists and accounts, and no thread that has exited
is left. -/
structure Shows (s : Queues) (m : MultiLevel) : Prop where
  /-- The linked lists of the queues are those of the abstract queues. -/
  queued : Queued s m.running m.waiting
  /-- The tail pointers fit the waiting threads. -/
  tails : Tails s m.waiting
  /-- The priorities and charged times in the nodes are those of the abstract queues. -/
  account : s.account = m.account
  /-- No node that is left has the status of an exited thread. -/
  status : ∀ a n, s.node a = some n → n.status ≠ .THREAD_EXITED

/-! ## Before the scheduler is called -/

/-- The account after a slice does not depend on the rest of the node. -/
theorem served_eq_slicedAccount (n : Node) (ran : Bool) :
    n.served ran = slicedAccount ran n.account := by
  unfold Node.served slicedAccount charge demote Node.account
  by_cases haged : 375 ≤ n.time_ran + timeCharge n.priority
  · simp [haged]
  · cases ran
    · simp [haged]
    · by_cases hlow : n.priority < 2
      · simp [haged, hlow]
      · simp [haged, hlow]

/-- A store to a status changes no link and no account. -/
theorem store_status {ptr : Addr} {status : Status}
    (h : s.store ptr (fun n => { n with status := status }) = some s') :
    s'.link = s.link ∧ s'.account = s.account ∧ s'.priority_head = s.priority_head ∧
      s'.priority_tail = s.priority_tail ∧ s'.running_queue_head = s.running_queue_head ∧
      ∃ n, s.node ptr = some n ∧
        s'.node = Function.update s.node ptr (some { n with status := status }) := by
  obtain ⟨n, hn, rfl⟩ := Option.map_eq_some_iff.mp h
  refine ⟨?_, ?_, rfl, rfl, rfl, n, hn, rfl⟩
  · rw [Queues.link_update]
    funext a
    by_cases ha : a = ptr
    · subst ha
      simp [Queues.link, hn]
    · rw [Function.update_of_ne ha]
  · funext a
    by_cases ha : a = ptr
    · subst ha
      simp [Queues.account, hn, Node.account]
    · simp [Queues.account, ha]

/-- The accounts after a creation up to its yield. -/
theorem createNode_account {newNode : Addr} (h : createNode s newNode = some s') :
    s'.account = Function.update s.account newNode (some (0, 0)) := by
  obtain ⟨hnode, _, _, _⟩ := createQueues_spec s
  simp only [createNode, hnode] at h
  split at h
  · funext a
    rw [(enqueueNew_relinked h).1.account a]
    by_cases ha : a = newNode
    · simp [Queues.account, ha, takeThreadId, Node.account]
    · simp [Queues.account, ha, takeThreadId]
  · exact absurd h (by simp)

/-- What a call does before it reaches the scheduler, shown. -/
theorem Shows.enter {m : MultiLevel} {call : Call} (h : Shows s m)
    (hrun : call.enterQueues s = some s') :
    Entry s' (m.enter call).running (m.enter call).waiting call.exiting ∧
      s'.account = (m.enter call).account := by
  have hidle : Entry s m.running m.waiting false :=
    ⟨h.queued, h.tails, fun a n hn => iff_of_false (h.status a n hn) (by simp)⟩
  cases call with
  | create newNode original =>
    obtain ⟨hqueued, htails, _, hstatus⟩ := createNode_spec h.queued h.tails h.status hrun
    refine ⟨⟨hqueued, htails, fun a n hn => ?_⟩, ?_⟩
    · exact iff_of_false (hstatus a n hn) (by simp [Call.exiting])
    · rw [createNode_account hrun, h.account]
      rfl
  | yield original =>
    obtain rfl := Option.some.inj hrun
    exact ⟨hidle, h.account⟩
  | timer original =>
    obtain rfl := Option.some.inj hrun
    exact ⟨hidle, h.account⟩
  | exit value_ptr block original =>
    obtain ⟨ptr, hptr, hstore⟩ := Option.bind_eq_some_iff.mp hrun
    obtain ⟨hlink, haccount, hhead, htail, hrunning, n, _, hnode⟩ := store_status hstore
    refine ⟨⟨?_, fun c => ?_, fun a k hk => ?_⟩, haccount.trans h.account⟩
    · exact h.queued.of_link (fun a _ => congrFun hlink a) hrunning hhead
    · rw [htail]
      exact h.tails c
    · rw [hrunning, hptr]
      simp only [Call.exiting, true_and, Option.some.injEq]
      rw [hnode] at hk
      by_cases ha : a = ptr
      · subst ha
        obtain rfl := Option.some.inj (by simpa using hk)
        simp
      · rw [Function.update_of_ne ha] at hk
        exact iff_of_false (h.status a k hk) (Ne.symm ha)

/-! ## The scheduler -/

/-- The running thread goes back to the queue of its priority, or leaves all queues. -/
theorem descheduleHead_lists {ptr : Addr} {ran exiting : Bool} (h : Entry s (ptr :: r) q exiting)
    (hrun : descheduleHead s ptr ran = some s') :
    let q' := if exiting then q else
      let c := queueOf ((s'.account ptr).elim 0 Prod.fst)
      Function.update q c (q c ++ [ptr])
    Queued s' r q' ∧ Tails s' q' := by
  obtain ⟨n, hn, hcases⟩ := descheduleHead_cases hrun
  have hexited : n.status = .THREAD_EXITED ↔ exiting = true := by
    rw [h.status ptr n hn, h.queued.running.1]
    simp
  have hrest := h.queued.running.link_eq
  have hnext : n.next = r.head? := by
    have hlink := hrest.1
    simpa [Queues.link, hn] using hlink
  obtain ⟨hptr, hnodup⟩ : ptr ∉ allNodes r q ∧ (allNodes r q).Nodup := by
    have := h.queued.nodup
    simpa only [allNodes, List.cons_append, List.nodup_cons] using this
  -- With the head taken off, the lists do not mention `ptr` any more.
  have hpopped (m : Option Node) : Queued
      { s with running_queue_head := n.next, node := Function.update s.node ptr m } r q := by
    have hlists : Queued { s with running_queue_head := n.next } r q :=
      ⟨by rw [hnext]; exact hrest.2, h.queued.list, hnodup⟩
    refine hlists.of_link (fun a ha => ?_) rfl rfl
    have hne : a ≠ ptr := by
      rintro rfl
      exact hptr ha
    simp [Queues.link, hne]
  rcases hcases with ⟨hstatus, rfl⟩ | ⟨hstatus, m, hm, hrequeue⟩
  · rw [if_pos (hexited.mp hstatus)]
    exact ⟨hpopped none, h.tails⟩
  · have hqueue : ptr ∉ q (queueOf m.priority) :=
      fun hmem => hptr (mem_allNodes.mpr (Or.inr ⟨_, hmem⟩))
    obtain ⟨s₁, hdone, happended⟩ := requeue_appended (n := m)
      ((hpopped (some m)).list (queueOf m.priority)) (h.tails _) hqueue (by simp)
    obtain rfl : s₁ = s' := Option.some.inj (hdone.symm.trans hrequeue)
    have haccount : (s₁.account ptr).elim 0 Prod.fst = m.priority := by
      rw [happended.relinked.account ptr]
      simp [Queues.account, Node.account]
    rw [if_neg (fun hex => hstatus (hexited.mpr hex)), haccount]
    exact ⟨happended.queued (hpopped (some m)) hptr, happended.tails h.tails⟩

/-- The lists and accounts before a refill. -/
theorem Entry.leave {m : MultiLevel} {newNode : Addr} {ran exiting : Bool}
    (h : Entry s m.running m.waiting exiting) (haccount : s.account = m.account)
    (hrun : beforeRefill newNode ran s = some s') :
    Queued s' (m.leave newNode ran exiting).running (m.leave newNode ran exiting).waiting ∧
      LooseTails s' (m.leave newNode ran exiting).waiting ∧
      ((m.leave newNode ran exiting).running ≠ [] →
        Tails s' (m.leave newNode ran exiting).waiting) ∧
      s'.account = (m.leave newNode ran exiting).account := by
  have haccount' := beforeRefill_account hrun
  cases hm : m.running with
  | nil =>
    have hhead : s.running_queue_head = none := by
      have hrunning := h.queued.running
      rw [hm] at hrunning
      exact hrunning
    rw [hm] at h
    unfold beforeRefill at hrun
    rw [hhead] at hrun
    obtain ⟨hqueued, htails, _⟩ := registerOriginal_spec h hrun
    simp only [MultiLevel.leave, hm, MultiLevel.register]
    refine ⟨hqueued, htails, fun hne => absurd rfl hne, funext fun a => ?_⟩
    rw [haccount' a, hhead, haccount]
    by_cases ha : a = newNode
    · simp [ha]
    · simp [ha]
  | cons ptr r =>
    rw [hm] at h
    have hhead : s.running_queue_head = some ptr := h.queued.running.1
    unfold beforeRefill at hrun
    rw [hhead] at hrun
    obtain ⟨n, hn, _⟩ := descheduleHead_cases hrun
    have hexited : s.ExitedAt ptr ↔ exiting = true := by
      have hstatus := h.status ptr n hn
      rw [hhead] at hstatus
      simpa [Queues.ExitedAt, hn] using hstatus
    have hserved : (s.node ptr).map (·.served ran) = (m.account ptr).map (slicedAccount ran) := by
      rw [← haccount]
      simp [Queues.account, hn, served_eq_slicedAccount]
    have hsame : s'.account = (m.leave newNode ran exiting).account := by
      funext a
      rw [haccount' a, hhead, haccount]
      by_cases ha : a = ptr
      · cases exiting <;> simp [MultiLevel.leave, hm, MultiLevel.serve, ha, hexited, hserved]
      · cases exiting <;> simp [MultiLevel.leave, hm, MultiLevel.serve, ha, Ne.symm ha]
    obtain ⟨hqueued, htails⟩ := descheduleHead_lists h hrun
    rw [hsame] at hqueued htails
    cases exiting
    · simp only [MultiLevel.leave, hm, MultiLevel.serve] at hqueued htails ⊢
      exact ⟨hqueued, fun c => Or.inl (htails c), fun _ => htails, by
        simpa [MultiLevel.leave, hm, MultiLevel.serve] using hsame⟩
    · simp only [MultiLevel.leave, hm, MultiLevel.serve] at hqueued htails ⊢
      exact ⟨hqueued, fun c => Or.inl (htails c), fun _ => htails, by
        simpa [MultiLevel.leave, hm, MultiLevel.serve] using hsame⟩

/-- A refill that finds the right lengths loads the quotas. -/
theorem refill_lists {v : Version} {fuel : ℕ} {m : MultiLevel}
    (hq : Queued s m.running m.waiting) (hloose : LooseTails s m.waiting)
    (htails : m.running ≠ [] → Tails s m.waiting) (haccount : s.account = m.account)
    (hlength : m.running = [] → RefillExhausts fun c => (m.waiting c).length)
    (hrun : (if s.running_queue_head = none then createRunningQueue v fuel s else some s) =
      some s') :
    Queued s' m.refill.running m.refill.waiting ∧ Tails s' m.refill.waiting ∧
      s'.account = m.refill.account := by
  cases hm : m.running with
  | nil =>
    rw [hm] at hq
    have hhead : s.running_queue_head = none := hq.running
    rw [if_pos hhead] at hrun
    obtain ⟨hloading, _, _, hrel⟩ := createRunningQueue_spec hq.running hq.list hq.nodup hrun
    rw [(leftover_eq_none m.waiting).mpr (hlength hm)] at hloading
    unfold MultiLevel.refill
    rw [if_pos hm]
    refine ⟨⟨hloading.running, hloading.list, hloading.nodup⟩,
      createRunningQueue_tails hq hloose hrun, funext fun a => ?_⟩
    rw [hrel.account a]
    exact congrFun haccount a
  | cons a r =>
    have hhead : s.running_queue_head ≠ none := by
      have hrunning := hq.running
      rw [hm] at hrunning
      rw [hrunning.1]
      simp
    rw [if_neg hhead] at hrun
    obtain rfl := Option.some.inj hrun
    unfold MultiLevel.refill
    rw [if_neg (by simp [hm])]
    exact ⟨hq, htails (by simp [hm]), haccount⟩

/-- The step lemma: an event of the library does to the lists what it does to the queues. -/
theorem Shows.step {v : Version} {m : MultiLevel} {τ τ' : Tracked} {e : Event}
    (h : Shows τ.lib.queues m) (hok : RefillsExhaust τ e) (hstep : LibraryStep v τ e τ') :
    Shows τ'.lib.queues (m.step e) := by
  cases e with
  | call call =>
    obtain ⟨fuel, hexec, _⟩ := hstep
    simp only [Call.exec, Option.bind_eq_bind] at hexec
    obtain ⟨lib, henter, hexec⟩ := Option.bind_eq_some_iff.mp hexec
    obtain ⟨queues, hrun, hexec⟩ := Option.bind_eq_some_iff.mp hexec
    have hqueues : τ'.lib.queues = queues := by rw [← Option.some.inj hexec]
    have henterq := Call.enter_queues henter
    obtain ⟨hentry, haccount⟩ := h.enter henterq
    obtain ⟨_, hstatus⟩ := scheduler_partition hentry (List.Perm.refl _) hrun
    rw [scheduler_eq] at hrun
    obtain ⟨s₁, hbefore, hrun⟩ := Option.bind_eq_some_iff.mp hrun
    obtain ⟨s₂, hrefill, hdispatch⟩ := Option.bind_eq_some_iff.mp hrun
    obtain ⟨hq₁, hloose, htails, haccount₁⟩ := hentry.leave haccount hbefore
    have hlength : ((m.enter call).leave call.original call.ranWholeTimeSlice
        call.exiting).running = [] → RefillExhausts fun c => (((m.enter call).leave call.original
          call.ranWholeTimeSlice call.exiting).waiting c).length := by
      intro hempty
      apply hok _ henterq s₁ _ hbefore ?_ hq₁.list
      have hrunning := hq₁.running
      rw [hempty] at hrunning
      exact hrunning
    obtain ⟨hq₂, htails₂, haccount₂⟩ :=
      refill_lists hq₁ hloose htails haccount₁ hlength hrefill
    obtain ⟨hlink, hheads, htails', hrunning, _⟩ := dispatch_spec hdispatch
    rw [hqueues]
    refine ⟨hq₂.of_link (fun a _ => congrFun hlink a) hrunning hheads, fun c => ?_, ?_, hstatus⟩
    · rw [htails']
      exact htails₂ c
    · exact (funext (dispatch_account hdispatch)).trans haccount₂
  | createFails failure =>
    obtain rfl := hstep
    obtain ⟨hnode, hhead, htail, hrunning⟩ : (createFails τ.lib.queues failure).node =
        τ.lib.queues.node ∧ (createFails τ.lib.queues failure).priority_head =
        τ.lib.queues.priority_head ∧ (createFails τ.lib.queues failure).priority_tail =
        τ.lib.queues.priority_tail ∧ (createFails τ.lib.queues failure).running_queue_head =
        τ.lib.queues.running_queue_head := by
      cases failure
      · exact ⟨rfl, rfl, rfl, rfl⟩
      · exact createQueues_spec _
      · exact createQueues_spec _
    refine ⟨h.queued.of_link (fun a _ => ?_) hrunning hhead, fun c => ?_, ?_, fun a n hn => ?_⟩
    · simp [Queues.link, hnode]
    · exact (congrFun htail c).trans (h.tails c)
    · exact (funext (createFails_account _ failure)).trans h.account
    · exact h.status a n (by rw [← hnode]; exact hn)

/-- Before the first event both are empty. -/
theorem shows_zero : Shows Queues.zero .zero where
  queued := ⟨rfl, fun _ => rfl, by simp [allNodes, MultiLevel.zero]⟩
  tails := fun _ => rfl
  account := rfl
  status := fun a n hn => absurd hn (by simp [Queues.zero])

/-! ## Runs -/

/-- The steps of runs whose refills all find the right lengths. -/
def ExhaustingStep (v : Version) (τ : Tracked) (e : Event) (τ' : Tracked) : Prop :=
  RefillsExhaust τ e ∧ LibraryStep v τ e τ'

/-- A run of the library is shown by the abstract run of the same events, if all its refills find
the right lengths. -/
theorem Shows.run {v : Version} {m : MultiLevel} {τ τ' : Tracked} {w : List (Turn Tracked Event)}
    (h : Shows τ.lib.queues m) (hpath : Path (ExhaustingStep v) τ w τ') :
    Shows τ'.lib.queues ((w.map Turn.event).foldl MultiLevel.step m) := by
  induction hpath generalizing m with
  | nil => exact h
  | cons hstep _ ih => exact ih (h.step hstep.1 hstep.2)

/-- In every run whose refills find the right lengths, the queues, tails, priorities and
charged times of the library are those of the multilevel feedback queue after the same
events. -/
theorem scheduler_refines {v : Version} {τ : Tracked} {w : List (Turn Tracked Event)}
    (h : Path (ExhaustingStep v) ⟨Library.zero, []⟩ w τ) :
    Shows τ.lib.queues ((w.map Turn.event).foldl MultiLevel.step .zero) :=
  Shows.run shows_zero h

/-- One event, computed, that leaves three threads at most. -/
def Tracked.exec (v : Version) (fuel : ℕ) (τ : Tracked) : Event → Option Tracked
  | .call call =>
    let live := liveAfter τ.lib.queues call.original call.exiting (call.enterLive τ.live)
    if live.length ≤ 3 then (call.exec v fuel τ.lib).map fun lib => ⟨lib, live⟩ else none
  | .createFails failure =>
    some { τ with lib := { τ.lib with queues := createFails τ.lib.queues failure } }

/-- With three threads at most every refill finds the right lengths. -/
theorem exhaustingPath_turns {v : Version} {fuel : ℕ} {τ : Tracked} {es : List Event}
    {w : List (Turn Tracked Event)} (hτ : τ.Sound)
    (h : turns (fun τ e => τ.exec v fuel e) es τ = some w) :
    ∃ τ', Path (ExhaustingStep v) τ w τ' := by
  induction es generalizing τ w with
  | nil =>
    obtain rfl := Option.some.inj h
    exact ⟨τ, .nil τ⟩
  | cons e es ih =>
    obtain ⟨τ₁, hexec, hrest⟩ := Option.bind_eq_some_iff.mp h
    obtain ⟨w₁, hw₁, rfl⟩ := Option.map_eq_some_iff.mp hrest
    have hstep : ExhaustingStep v τ e τ₁ := by
      cases e with
      | call call =>
        simp only [Tracked.exec] at hexec
        split at hexec
        · rename_i hfew
          obtain ⟨lib, hlib, rfl⟩ := Option.map_eq_some_iff.mp hexec
          exact ⟨hτ.refillsExhaust hfew, fuel, hlib, rfl⟩
        · exact absurd hexec (by simp)
      | createFails failure => exact ⟨trivial, (Option.some.inj hexec).symm⟩
    obtain ⟨hpartition, hstatus⟩ := hτ.step hstep.2
    obtain ⟨τ', hpath⟩ := ih ⟨hpartition.mpr hstep.1, hstatus⟩ hw₁
    exact ⟨τ', .cons hstep hpath⟩

/-- Two creations, four slices that run out, a creation that fails, and an exit. -/
def twoThreads : List Event :=
  [.call (.create 2 1), .call (.create 3 0), .call (.timer 0), .call (.timer 0),
    .createFails .node, .call (.timer 0), .call (.timer 0), .call (.exit 0 0 0)]

/-- The theorem at that run, in which the thread that was created last has exited. -/
theorem scheduler_refines_twoThreads : ∃ τ w,
    Path (ExhaustingStep .Pthreads) ⟨Library.zero, []⟩ w τ ∧ w.map Turn.event = twoThreads ∧
      Shows τ.lib.queues (twoThreads.foldl MultiLevel.step .zero) := by
  have hrun : (turns (fun τ e => Tracked.exec .Pthreads 10 τ e) twoThreads
      ⟨Library.zero, []⟩).isSome := by decide +kernel
  obtain ⟨w, hw⟩ := Option.isSome_iff_exists.mp hrun
  obtain ⟨τ, hpath⟩ := exhaustingPath_turns sound_zero hw
  have hevents : w.map Turn.event = twoThreads := turns_events hw
  refine ⟨τ, w, hpath, hevents, ?_⟩
  rw [← hevents]
  exact scheduler_refines hpath

end SimpleOs.Threads
