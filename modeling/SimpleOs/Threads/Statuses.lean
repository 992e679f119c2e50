import SimpleOs.Threads.Feedback

/-!
# One thread runs

The library writes the status of a thread in five places. Together they keep the statuses
truthful in every run, also in those whose refills mix the queues up: the head of the
running queue is the one thread that runs, and all other threads are ready.
-/

namespace SimpleOs.Threads

open Runs

variable {s s' : Queues}

/-- Every thread other than the head of the running queue is ready. -/
def Queues.OthersReady (s : Queues) : Prop :=
  ∀ a n, s.node a = some n → s.running_queue_head ≠ some a → n.status = .THREAD_READY

/-- Every thread that has a node is ready. -/
def Queues.AllReady (s : Queues) : Prop := ∀ a n, s.node a = some n → n.status = .THREAD_READY

/-- The head of the running queue runs, and every other thread is ready. -/
def Queues.OneRunning (s : Queues) : Prop :=
  ∀ a n, s.node a = some n →
    n.status = if s.running_queue_head = some a then .THREAD_RUNNING else .THREAD_READY

/-- Links do not matter to the statuses. -/
theorem Relinked.status {a : Addr} {n : Node} (h : Relinked s s') (hn : s'.node a = some n) :
    ∃ k, s.node a = some k ∧ n.status = k.status := by
  obtain ⟨k, hk, hthread⟩ := h.node hn
  have hstatus : n.thread.status = k.thread.status := congrArg Node.status hthread
  exact ⟨k, hk, hstatus⟩

/-- A call may mark the running thread as exited before it reaches the scheduler, and adds
ready threads only. -/
theorem Queues.OthersReady.enter {call : Call} (h : s.OthersReady)
    (hrun : call.enterQueues s = some s') : s'.OthersReady := by
  cases call with
  | create newNode original =>
    obtain ⟨hnode, _, _, hhead⟩ := createQueues_spec s
    simp only [Call.enterQueues, createNode, hnode] at hrun
    split at hrun
    · obtain ⟨hrel, hsame⟩ := enqueueNew_relinked hrun
      intro a n hn hne
      obtain ⟨k, hk, hstatus⟩ := hrel.status hn
      rw [hsame] at hne
      rw [hstatus]
      by_cases ha : a = newNode
      · simp only [takeThreadId, ha, Function.update_self, Option.some.injEq] at hk
        rw [← hk]
      · simp only [takeThreadId, Function.update_of_ne ha] at hk
        exact h a k hk (by rw [← hhead]; exact hne)
    · exact absurd hrun (by simp)
  | yield original =>
    obtain rfl := Option.some.inj hrun
    exact h
  | timer original =>
    obtain rfl := Option.some.inj hrun
    exact h
  | exit value_ptr block original =>
    obtain ⟨ptr, hptr, hstore⟩ := Option.bind_eq_some_iff.mp hrun
    obtain ⟨_, _, _, _, hrunning, k, _, hnode⟩ := store_status hstore
    intro a n hn hne
    rw [hrunning, hptr] at hne
    have ha : a ≠ ptr := fun heq => hne (by rw [heq])
    rw [hnode, Function.update_of_ne ha] at hn
    exact h a n hn (by rw [hptr]; exact hne)

/-- Before a refill all threads are ready. -/
theorem Queues.OthersReady.leave {newNode : Addr} {ran : Bool} (h : s.OthersReady)
    (hrun : beforeRefill newNode ran s = some s') : s'.AllReady := by
  unfold beforeRefill at hrun
  split at hrun
  · rename_i hhead
    obtain ⟨_, rfl⟩ := registerOriginal_eq_some hrun
    intro a n hn
    by_cases ha : a = newNode
    · simp only [ha, Function.update_self, Option.some.injEq] at hn
      rw [← hn]
    · exact h a n (by simpa [ha] using hn) (by simp [hhead])
  · rename_i ptr hhead
    have hother (a : Addr) (n : Node) (ha : a ≠ ptr) (hn : s.node a = some n) :
        n.status = .THREAD_READY :=
      h a n hn (by rw [hhead]; exact fun heq => ha (Option.some.inj heq).symm)
    obtain ⟨k, _, ⟨_, rfl⟩ | ⟨_, m, rfl, hrequeue⟩⟩ := descheduleHead_cases hrun
    · intro a n hn
      have ha : a ≠ ptr := by
        rintro rfl
        simp at hn
      exact hother a n ha (by simpa [ha] using hn)
    · intro a n hn
      obtain ⟨k', hk', hstatus⟩ := (requeue_relinked hrequeue).status hn
      rw [hstatus]
      by_cases ha : a = ptr
      · simp only [ha, Function.update_self, Option.some.injEq] at hk'
        rw [← hk']
        exact demote_status _ _ _
      · exact hother a k' ha (by simpa [ha] using hk')

/-- A scheduler call ends with one thread running. -/
theorem Queues.OthersReady.scheduler {v : Version} {fuel : ℕ} {newNode : Addr} {ran : Bool}
    (h : s.OthersReady) (hrun : scheduler v fuel newNode ran s = some s') : s'.OneRunning := by
  rw [scheduler_eq] at hrun
  obtain ⟨s₁, hbefore, hrun⟩ := Option.bind_eq_some_iff.mp hrun
  obtain ⟨s₂, hrefill, hdispatch⟩ := Option.bind_eq_some_iff.mp hrun
  have hready := h.leave hbefore
  have hready₂ : s₂.AllReady := by
    split at hrefill
    · intro a n hn
      obtain ⟨k, hk, hstatus⟩ := (createRunningQueue_relinked hrefill).status hn
      rw [hstatus]
      exact hready a k hk
    · rw [← Option.some.inj hrefill]
      exact hready
  obtain ⟨ptr, k, hptr, _, rfl⟩ := dispatch_eq_some hdispatch
  intro a n hn
  by_cases ha : a = ptr
  · simp only [ha, Function.update_self, Option.some.injEq] at hn
    rw [← hn, ha, if_pos hptr]
  · rw [if_neg (by rw [hptr]; exact fun heq => ha (Option.some.inj heq).symm)]
    exact hready₂ a n (by simpa [ha] using hn)

/-- The other threads of a state with one thread running are ready. -/
theorem Queues.OneRunning.others (h : s.OneRunning) : s.OthersReady := by
  intro a n hn hne
  have hstatus := h a n hn
  rwa [if_neg hne] at hstatus

/-- In every state that is reached between two calls, whatever the refills find, the head of
the running queue is the one thread whose status is `THREAD_RUNNING`, and all others are
`THREAD_READY`. -/
theorem one_thread_running (v : Version) (τ : Tracked)
    (h : LibraryReach v (fun _ _ => True) τ) : τ.lib.queues.OneRunning := by
  refine Reach.invariant (P := fun τ : Tracked => τ.lib.queues.OneRunning) ?_ ?_ h
  · rintro _ rfl a n hn
    exact absurd hn (by simp [Library.zero, Queues.zero])
  · intro τ e τ' hone _ hstep
    cases e with
    | call call =>
      obtain ⟨fuel, hexec, _⟩ := hstep
      simp only [Call.exec, Option.bind_eq_bind] at hexec
      obtain ⟨lib, henter, hexec⟩ := Option.bind_eq_some_iff.mp hexec
      obtain ⟨queues, hrun, hexec⟩ := Option.bind_eq_some_iff.mp hexec
      rw [← Option.some.inj hexec]
      exact (hone.others.enter (Call.enter_queues henter)).scheduler hrun
    | createFails failure =>
      obtain rfl := hstep
      have hsame : (createFails τ.lib.queues failure).node = τ.lib.queues.node ∧
          (createFails τ.lib.queues failure).running_queue_head =
            τ.lib.queues.running_queue_head := by
        obtain ⟨hnode, _, _, hhead⟩ := createQueues_spec τ.lib.queues
        cases failure
        · exact ⟨rfl, rfl⟩
        · exact ⟨hnode, hhead⟩
        · exact ⟨hnode, hhead⟩
      intro a n hn
      rw [hsame.2]
      exact hone a n (by rw [← hsame.1]; exact hn)

/-- The theorem after three creations and eight slices that run out, when the refill has
left one thread in two queues. -/
theorem one_thread_running_demotions : ∃ lib,
    execCalls .Pthreads 10 demotions Library.zero = some lib ∧ lib.queues.OneRunning := by
  obtain ⟨lib, hlib, _⟩ := execCalls_demotions .Pthreads
  obtain ⟨live, hreach⟩ := libraryReach_execCalls (.start rfl) hlib
  exact ⟨lib, hlib, one_thread_running .Pthreads ⟨lib, live⟩ hreach⟩

end SimpleOs.Threads
