import SimpleOs.Threads.Joiners
import SimpleOs.Threads.Policy

/-!
# Every call returns

The library follows pointers without asking whether they are `NULL`, and it loops over lists.
In the runs whose refills find the right lengths every call returns all the same, until the
last thread exits. Then `scheduler` ends the process.
-/

namespace SimpleOs.Threads

open LinkedList

variable {s s' : Queues} {lib : Library} {r l live : List Addr} {q : Fin 3 → List Addr}
  {v : Version} {ptr newNode : Addr} {ran exiting : Bool} {fuel : ℕ} {call : Call} {τ : Tracked}

/-! ## Before the scheduler -/

/-- A call can be made: the priority queues are there if the original thread has to be put into
them, and only a running thread exits. -/
def Call.Valid (s : Queues) : Call → Prop
  | .create _ _ => True
  | .yield _ => s.running_queue_head = none → s.priority_Queue = true
  | .timer _ => s.running_queue_head = none → s.priority_Queue = true
  | .exit _ _ _ => s.running_queue_head ≠ none

/-- The addresses that `malloc` returns are those of no other block. -/
def Call.Fresh (s : Library) : Call → Prop
  | .create newNode original => s.queues.node newNode = none ∧
      (s.queues.running_queue_head = none → s.queues.node original = none ∧ original ≠ newNode)
  | .yield original => s.queues.running_queue_head = none → s.queues.node original = none
  | .timer original => s.queues.running_queue_head = none → s.queues.node original = none
  | .exit value_ptr block _ => value_ptr ≠ 0 → s.retval_block block = none

/-- A new node at a fresh address is always enqueued. -/
theorem createNode_returns (hq : Queued s r q) (ht : Tails s q) (hfresh : s.node newNode = none) :
    ∃ s', createNode s newNode = some s' := by
  obtain ⟨hnode, hhead, htail, _⟩ := createQueues_spec s
  simp only [createNode, hnode, if_pos hfresh]
  rcases List.eq_nil_or_concat' (q 0) with hnil | ⟨l, t, hl⟩
  · have hnull : s.priority_head 0 = none := by
      rw [Segment.eq_head? (hq.list 0), hnil, List.head?_nil]
    simp [enqueueNew, takeThreadId, hhead, hnull]
  · have hlast : s.priority_tail 0 = some t := by
      rw [ht 0, hl, List.getLast?_concat]
    obtain ⟨a, hfirst⟩ : ∃ a, s.priority_head 0 = some a := by
      rw [Segment.eq_head? (hq.list 0), hl]
      cases l <;> simp
    obtain ⟨m, hm⟩ := hq.allocated (a := t) (mem_allNodes.mpr (Or.inr ⟨0, by simp [hl]⟩))
    have hne : t ≠ newNode := by
      rintro rfl
      exact absurd (hfresh.symm.trans hm) (by simp)
    simp [enqueueNew, takeThreadId, hhead, htail, hfirst, hlast, Queues.store, hne, hm]

/-- The loop over the joiners ends. -/
theorem wakeJoiner_returns {block : Addr → Option JoinBlock} {p : Option Addr} (thread_id : ℕ)
    (h : Segment (fun a => (block a).map (·.next)) p l none) (hfuel : l.length < fuel) :
    ∃ block', wakeJoiner block thread_id fuel p = some block' := by
  induction l generalizing p fuel with
  | nil =>
    obtain ⟨fuel, rfl⟩ := Nat.exists_eq_succ_of_ne_zero (Nat.ne_of_gt hfuel)
    obtain rfl : p = none := h
    exact ⟨block, rfl⟩
  | cons a l ih =>
    obtain ⟨rfl, next, hnext, hrest⟩ := h
    obtain ⟨b, hb, rfl⟩ := Option.map_eq_some_iff.mp hnext
    rw [List.length_cons] at hfuel
    obtain ⟨fuel, rfl⟩ := Nat.exists_eq_add_of_le' (show 1 ≤ fuel by omega)
    rw [wakeJoiner, hb, Option.bind_some]
    split
    · exact ⟨_, rfl⟩
    · exact ih hrest (by omega)

/-- The part of a call before the scheduler returns. -/
theorem Call.enter_returns (hq : Queued lib.queues r q) (ht : Tails lib.queues q)
    (hjoin : lib.Joiners l) (hfuel : l.length < fuel) (hvalid : call.Valid lib.queues)
    (hfresh : call.Fresh lib) : ∃ lib', call.enter fuel lib = some lib' := by
  cases call with
  | create newNode original =>
    obtain ⟨queues, hqueues⟩ := createNode_returns hq ht hfresh.1
    exact ⟨{ lib with queues := queues }, by simp [Call.enter, hqueues]⟩
  | yield original => exact ⟨lib, rfl⟩
  | timer original => exact ⟨lib, rfl⟩
  | exit value_ptr block original =>
    obtain ⟨ptr, hptr⟩ := Option.ne_none_iff_exists'.mp hvalid
    have hmem : ptr ∈ r := by
      have hhead := Segment.eq_head? hq.running
      rw [hptr] at hhead
      exact List.mem_of_head? hhead.symm
    obtain ⟨n, hn⟩ := hq.allocated (mem_allNodes.mpr (Or.inl hmem))
    obtain ⟨join_block, hwake⟩ := wakeJoiner_returns n.thread_id hjoin hfuel
    obtain ⟨lib₁, hpush, hqueues⟩ : ∃ lib₁, pushRetval { lib with join_block := join_block }
        n.thread_id value_ptr block = some lib₁ ∧ lib₁.queues = lib.queues := by
      unfold pushRetval
      by_cases hvalue : value_ptr = 0
      · exact ⟨_, if_pos hvalue, rfl⟩
      · rw [if_neg hvalue, if_pos (hfresh hvalue)]
        exact ⟨_, rfl, rfl⟩
    simp [Call.enter, markExited, hptr, hn, hwake, hpush, hqueues, Queues.store]

/-! ## The scheduler -/

/-- The running thread is appended to a priority queue. -/
theorem requeue_returns {c : Fin 3} {n : Node} (hn : s.node ptr = some n)
    (htail : ∀ t, s.priority_tail c = some t → ∃ m, s.node t = some m) :
    ∃ s', requeue s c ptr = some s' := by
  cases htc : s.priority_tail c with
  | none => simp [requeue, htc, Queues.store, hn]
  | some t =>
    obtain ⟨m, hm⟩ := htail t htc
    by_cases hptr : ptr = t
    · subst hptr
      simp [requeue, htc, Queues.store, hn]
    · simp [requeue, htc, Queues.store, hm, hn, hptr]

/-- What the scheduler does before the refill. -/
theorem beforeRefill_returns (h : Entry s r q exiting)
    (hregister : s.running_queue_head = none → s.priority_Queue = true ∧ s.node newNode = none) :
    ∃ s', beforeRefill newNode ran s = some s' := by
  unfold beforeRefill
  cases r with
  | nil =>
    have hhead : s.running_queue_head = none := h.queued.running
    rw [hhead]
    exact ⟨_, if_pos (hregister hhead)⟩
  | cons ptr r =>
    rw [h.queued.running.1]
    obtain ⟨n, hn⟩ := h.queued.allocated (a := ptr) (by simp [allNodes])
    simp only [descheduleHead, hn, Option.bind_eq_bind, Option.bind_some]
    split
    · exact ⟨_, rfl⟩
    · apply requeue_returns (n := demote (charge n).1 ran (charge n).2)
      · simp
      · intro t ht
        by_cases hptr : t = ptr
        · exact ⟨_, by rw [hptr]; exact Function.update_self _ _ _⟩
        · have hmem : t ∈ allNodes (ptr :: r) q :=
            mem_allNodes.mpr (Or.inr ⟨_, List.mem_of_getLast? ((h.tails _).symm.trans ht)⟩)
          obtain ⟨m, hm⟩ := h.queued.allocated hmem
          exact ⟨m, by simp [hptr, hm]⟩

/-- It leaves the flag for an empty running queue. -/
theorem beforeRefill_flag (h : beforeRefill newNode ran s = some s') :
    s'.empty_running_queue = s.empty_running_queue := by
  unfold beforeRefill at h
  split at h
  · obtain ⟨_, rfl⟩ := registerOriginal_eq_some h
    rfl
  · obtain ⟨n, _, hcases⟩ := descheduleHead_cases h
    rcases hcases with ⟨_, rfl⟩ | ⟨_, m, _, hrequeue⟩
    · rfl
    · exact (requeue_relinked hrequeue).flag

/-- The first thread of the running queue is run. -/
theorem dispatch_returns {p : Option Addr}
    (h : Segment s.link s.running_queue_head (ptr :: r) p)
    (hflag : s.empty_running_queue = false) : ∃ s', dispatch s = some s' := by
  obtain ⟨hhead, next, hnext, _⟩ := h
  obtain ⟨n, hn, _⟩ := Queues.node_of_link hnext
  simp [dispatch, hflag, hhead, Queues.store, hn]

/-- `scheduler` ends the process, for its refill has found no thread. -/
def SchedulerExits (v : Version) (fuel : ℕ) (newNode : Addr) (ranWholeTimeSlice : Bool)
    (s : Queues) : Prop :=
  ∃ s₁ s₂, beforeRefill newNode ranWholeTimeSlice s = some s₁ ∧ s₁.running_queue_head = none ∧
    createRunningQueue v fuel s₁ = some s₂ ∧ s₂.empty_running_queue = true

/-- The refill of the scheduler ends, if there is one. -/
def RefillReturns (v : Version) (newNode : Addr) (ranWholeTimeSlice : Bool) (s : Queues) : Prop :=
  ∀ (s₁ : Queues) (q : Fin 3 → List Addr), beforeRefill newNode ranWholeTimeSlice s = some s₁ →
    s₁.running_queue_head = none → (∀ c, s₁.IsList (s₁.priority_head c) (q c)) →
      RefillEnds v fun c => (q c).length

/-- After a refill there is a thread to run, or none anywhere. -/
theorem refill_returns (hq : Queued s [] q) (hends : RefillEnds v fun c => (q c).length) :
    ∃ s', (∀ fuel, (allNodes [] q).length < fuel → createRunningQueue v fuel s = some s') ∧
      if allNodes [] q = [] then s'.empty_running_queue = true
      else ∃ s'', dispatch s' = some s'' := by
  obtain ⟨s', hrun⟩ := createRunningQueue_ends hq.running hq.list hq.nodup hends
  have hrefill := hrun _ (length_lt_total q)
  obtain ⟨hloading, _, hflag, _⟩ := createRunningQueue_spec hq.running hq.list hq.nodup hrefill
  refine ⟨s', fun fuel hfuel => hrun fuel fun c => ?_, ?_⟩
  · have := length_lt_total q c
    omega
  by_cases hnone : ∀ c, q c = []
  · rw [if_pos (by simp [allNodes, hnone]), hflag, decide_eq_true hnone]
  · have hall : allNodes [] q ≠ [] := fun hnil => hnone fun c =>
      List.eq_nil_iff_forall_not_mem.mpr fun a ha => by
        have hmem : a ∈ allNodes [] q := mem_allNodes.mpr (Or.inr ⟨c, ha⟩)
        rw [hnil] at hmem
        exact absurd hmem (by simp)
    rw [if_neg hall]
    have hloaded : (q 0).take (quota (fun c => (q c).length) 0) ++
        (q 1).take (quota (fun c => (q c).length) 1) ++
          (q 2).take (quota (fun c => (q c).length) 2) ≠ [] := by
      intro hnil
      simp only [List.append_eq_nil_iff, List.take_eq_nil_iff, quota_eq_zero,
        List.length_eq_zero_iff, or_self] at hnil
      exact hnone (by simpa [Fin.forall_fin_succ] using ⟨hnil.1.1, hnil.1.2, hnil.2⟩)
    obtain ⟨ptr, r, hr⟩ := List.exists_cons_of_ne_nil hloaded
    have hrunning := hloading.running
    rw [hr] at hrunning
    exact dispatch_returns hrunning (by rw [hflag, decide_eq_false hnone])

/-- In which order the threads are does not matter. -/
theorem liveAfter_perm {live' : List Addr} (h : live.Perm live') :
    (liveAfter s newNode exiting live).Perm (liveAfter s newNode exiting live') := by
  unfold liveAfter
  split
  · exact h.cons _
  · split
    · exact h.erase _
    · exact h

/-- A call of the scheduler returns, unless there is no thread left. -/
theorem scheduler_returns (h : Entry s r q exiting) (hlive : (allNodes r q).Perm live)
    (hflag : s.empty_running_queue = false)
    (hregister : s.running_queue_head = none → s.priority_Queue = true ∧ s.node newNode = none)
    (hends : RefillReturns v newNode ran s) :
    ∃ n, ∀ fuel, n ≤ fuel → if liveAfter s newNode exiting live = []
      then SchedulerExits v fuel newNode ran s
      else ∃ s', scheduler v fuel newNode ran s = some s' := by
  obtain ⟨s₁, hbefore⟩ : ∃ s₁, beforeRefill newNode ran s = some s₁ :=
    beforeRefill_returns h hregister
  obtain ⟨r₁, q₁, hq₁, _, _, hperm, _⟩ := beforeRefill_spec h hbefore
  replace hperm := hperm.trans (liveAfter_perm hlive)
  have hflag₁ := (beforeRefill_flag hbefore).trans hflag
  cases r₁ with
  | nil =>
    have hempty : s₁.running_queue_head = none := hq₁.running
    obtain ⟨s₂, hrefill, hend⟩ := refill_returns hq₁ (hends s₁ q₁ hbefore hempty hq₁.list)
    refine ⟨(allNodes [] q₁).length + 1, fun fuel hfuel => ?_⟩
    by_cases hnone : allNodes [] q₁ = []
    · rw [if_pos hnone] at hend
      rw [hnone] at hperm
      rw [if_pos hperm.nil_eq.symm]
      exact ⟨s₁, s₂, hbefore, hempty, hrefill fuel hfuel, hend⟩
    · rw [if_neg hnone] at hend
      obtain ⟨s', hdispatch⟩ := hend
      rw [if_neg fun hnil => hnone (hnil ▸ hperm).eq_nil]
      refine ⟨s', ?_⟩
      rw [scheduler_eq, hbefore, Option.bind_some, if_pos hempty, hrefill fuel hfuel,
        Option.bind_some, hdispatch]
  | cons ptr r₁ =>
    obtain ⟨s', hdispatch⟩ := dispatch_returns hq₁.running hflag₁
    refine ⟨0, fun fuel _ => ?_⟩
    rw [if_neg fun hnil => absurd (hnil ▸ hperm).eq_nil (by simp [allNodes])]
    refine ⟨s', ?_⟩
    rw [scheduler_eq, hbefore, Option.bind_some, if_neg (by rw [hq₁.running.1]; simp),
      Option.bind_some, hdispatch]

/-! ## Every call -/

/-- A call ends the process in `scheduler`. -/
def Call.Exits (v : Version) (fuel : ℕ) (s : Library) (call : Call) : Prop :=
  ∃ s', call.enter fuel s = some s' ∧
    SchedulerExits v fuel call.original call.ranWholeTimeSlice s'.queues

/-- The priority queues are allocated once, and the flag stays. -/
theorem createQueues_flags : (createQueues s).empty_running_queue = s.empty_running_queue := by
  unfold createQueues
  split <;> rfl

/-- What a call has done when it gets to the scheduler. -/
theorem Call.enterQueues_ready (h : call.enterQueues lib.queues = some s')
    (hvalid : call.Valid lib.queues) (hfresh : call.Fresh lib) :
    s'.empty_running_queue = lib.queues.empty_running_queue ∧
      (s'.running_queue_head = none →
        s'.priority_Queue = true ∧ s'.node call.original = none) := by
  cases call with
  | create newNode original =>
    obtain ⟨_, hhead, ⟨_, hcreated⟩, hid⟩ := createNode_same h
    simp only [Call.enterQueues, createNode] at h
    split at h
    · refine ⟨(enqueueNew_relinked h).1.flag.trans createQueues_flags, fun hnone => ⟨hcreated, ?_⟩⟩
      obtain ⟨horiginal, hne⟩ := hfresh.2 (hhead ▸ hnone)
      have hsame := (hid original).1
      rw [if_neg hne, Queues.idAt, Queues.idAt, horiginal] at hsame
      exact Option.map_eq_none_iff.mp hsame
    · exact absurd h (by simp)
  | yield original =>
    obtain rfl := Option.some.inj h
    exact ⟨rfl, fun hnone => ⟨hvalid hnone, hfresh hnone⟩⟩
  | timer original =>
    obtain rfl := Option.some.inj h
    exact ⟨rfl, fun hnone => ⟨hvalid hnone, hfresh hnone⟩⟩
  | exit value_ptr block original =>
    obtain ⟨ptr, hptr, hstore⟩ := Option.bind_eq_some_iff.mp h
    obtain ⟨n, hn, rfl⟩ := Option.map_eq_some_iff.mp hstore
    exact ⟨rfl, fun hnone => absurd hnone hvalid⟩

/-- When a thread is run the flag is not set. -/
theorem dispatch_flag (h : dispatch s = some s') : s'.empty_running_queue = false := by
  obtain ⟨ptr, n, _, _, rfl⟩ := dispatch_eq_some h
  unfold dispatch at h
  split at h
  · exact absurd h (by simp)
  · rename_i hflag
    simpa using hflag

/-- In every state that is reached the flag is not set. -/
theorem libraryReach_flag {ok : Tracked → Event → Prop} (h : LibraryReach v ok τ) :
    τ.lib.queues.empty_running_queue = false := by
  refine Runs.Reach.invariant
    (P := fun τ : Tracked => τ.lib.queues.empty_running_queue = false) ?_ ?_ h
  · rintro _ rfl
    rfl
  · intro τ e τ' hτ _ hstep
    cases e with
    | call call =>
      obtain ⟨fuel, hexec, _⟩ := hstep
      simp only [Call.exec, Option.bind_eq_bind] at hexec
      obtain ⟨lib, _, hexec⟩ := Option.bind_eq_some_iff.mp hexec
      obtain ⟨queues, hrun, hexec⟩ := Option.bind_eq_some_iff.mp hexec
      rw [scheduler_eq] at hrun
      obtain ⟨s₁, _, hrun⟩ := Option.bind_eq_some_iff.mp hrun
      obtain ⟨s₂, _, hdispatch⟩ := Option.bind_eq_some_iff.mp hrun
      rw [← Option.some.inj hexec]
      exact dispatch_flag hdispatch
    | createFails failure =>
      obtain rfl := hstep
      cases failure with
      | queue => exact hτ
      | context => exact createQueues_flags.trans hτ
      | node => exact createQueues_flags.trans hτ

/-- Every call returns. In each state that is reached by a run whose refills have found the right
lengths, whatever joiners and return values there are, each call by a thread that runs comes
back to a thread that is alive. If none is left, the process ends in `scheduler`. No call
follows `NULL`, and no loop runs for ever; only in the `Pthreads` version the refill must be one
that ends. -/
theorem calls_return (call : Call) (hreach : LibraryReach v RefillsExhaust τ)
    (hlib : lib.queues = τ.lib.queues) (hjoin : ∃ l, lib.Joiners l)
    (hvalid : call.Valid lib.queues) (hfresh : call.Fresh lib)
    (hends : v = .Pthreads → ∀ s, call.enterQueues lib.queues = some s →
      RefillReturns v call.original call.ranWholeTimeSlice s) :
    ∃ n, ∀ fuel, n ≤ fuel →
      if liveAfter lib.queues call.original call.exiting (call.enterLive τ.live) = []
      then call.Exits v fuel lib
      else ∃ lib', call.exec v fuel lib = some lib' := by
  obtain ⟨⟨r, q, hq, ht, hlive⟩, hstatus⟩ := libraryReach_sound hreach
  have hflag := libraryReach_flag hreach
  rw [← hlib] at hq ht hstatus hflag
  obtain ⟨l, hl⟩ := hjoin
  -- the part before the scheduler does not depend on how often its loop may run
  obtain ⟨lib₁, hfirst⟩ := Call.enter_returns hq ht hl (Nat.lt_succ_self _) hvalid hfresh
  have hqueues := Call.enter_queues hfirst
  obtain ⟨q₁, hentry, hperm, hhead⟩ := Call.enterQueues_entry hq ht hlive hstatus hqueues
  obtain ⟨hflag₁, hregister⟩ := Call.enterQueues_ready hqueues hvalid hfresh
  have hrefill : RefillReturns v call.original call.ranWholeTimeSlice lib₁.queues := by
    cases v with
    | Pthreads => exact hends rfl _ hqueues
    | Memory_Manager => exact fun s₁ q₁ _ _ _ => refillEnds_memoryManager _
  obtain ⟨n, hscheduler⟩ :=
    scheduler_returns hentry hperm (hflag₁.trans hflag) hregister hrefill
  have hsame : liveAfter lib₁.queues call.original call.exiting =
      liveAfter lib.queues call.original call.exiting := by
    unfold liveAfter
    rw [hhead]
  rw [hsame] at hscheduler
  refine ⟨max n (l.length + 1), fun fuel hfuel => ?_⟩
  obtain ⟨lib₂, henter⟩ := Call.enter_returns hq ht hl
    ((Nat.lt_succ_self _).trans_le ((Nat.le_max_right _ _).trans hfuel)) hvalid hfresh
  have hqueues₂ : lib₂.queues = lib₁.queues :=
    Option.some.inj ((Call.enter_queues henter).symm.trans hqueues)
  have hrun := hscheduler fuel ((Nat.le_max_left _ _).trans hfuel)
  rw [← hqueues₂] at hrun
  by_cases hnone : liveAfter lib.queues call.original call.exiting (call.enterLive τ.live) = []
  · rw [if_pos hnone] at hrun ⊢
    exact ⟨lib₂, henter, hrun⟩
  · rw [if_neg hnone] at hrun ⊢
    obtain ⟨queues, hrun⟩ := hrun
    exact ⟨{ lib₂ with queues := queues }, by simp [Call.exec, henter, hrun]⟩

/-- The theorem for the second of two exits, behind which there is no thread. -/
theorem calls_return_lastThread : ∃ lib,
    execCalls .Memory_Manager 10 [.create 2 1, .exit 0 0 0] Library.zero = some lib ∧
      ∃ n, ∀ fuel, n ≤ fuel → (Call.exit 0 0 0).Exits .Memory_Manager fuel lib := by
  have hrun : (((Call.create 2 1).exec .Memory_Manager 10 Library.zero).bind fun lib₁ =>
      ((Call.exit 0 0 0).exec .Memory_Manager 10 lib₁).map fun lib₂ =>
        (lib₁.queues.running_queue_head, lib₂.queues.running_queue_head, lib₂.join_LL)) =
      some (some 1, some 2, none) := by
    decide +kernel
  obtain ⟨lib₁, hcreate, hrest⟩ := Option.bind_eq_some_iff.mp hrun
  obtain ⟨lib₂, hexit, heq⟩ := Option.map_eq_some_iff.mp hrest
  simp only [Prod.mk.injEq] at heq
  obtain ⟨hhead₁, hhead₂, hjoin⟩ := heq
  have hok₁ : RefillsExhaust ⟨Library.zero, []⟩ (.call (.create 2 1)) :=
    sound_zero.refillsExhaust (by decide)
  have hreach₁ : LibraryReach .Memory_Manager RefillsExhaust ⟨lib₁, [1, 2]⟩ :=
    .step (.start rfl) hok₁ ⟨10, hcreate, rfl⟩
  have hlive₁ : liveAfter lib₁.queues 0 true [1, 2] = [2] := by simp [liveAfter, hhead₁]
  have hok₂ : RefillsExhaust ⟨lib₁, [1, 2]⟩ (.call (.exit 0 0 0)) :=
    (libraryReach_sound hreach₁).refillsExhaust
      (le_of_eq_of_le (congrArg List.length hlive₁) (by decide))
  have hreach₂ : LibraryReach .Memory_Manager RefillsExhaust ⟨lib₂, [2]⟩ :=
    .step hreach₁ hok₂ ⟨10, hexit, hlive₁.symm⟩
  have hnone : liveAfter lib₂.queues 0 true [2] = [] := by simp [liveAfter, hhead₂]
  obtain ⟨n, hreturns⟩ := calls_return (.exit 0 0 0) hreach₂ rfl ⟨[], hjoin⟩
    (by simp [Call.Valid, hhead₂]) (fun hvalue => absurd rfl hvalue) (fun hv => by cases hv)
  refine ⟨lib₂, by simp [execCalls, hcreate, hexit], n, fun fuel hfuel => ?_⟩
  have hends : if liveAfter lib₂.queues 0 true [2] = []
      then (Call.exit 0 0 0).Exits .Memory_Manager fuel lib₂ else _ := hreturns fuel hfuel
  rwa [if_pos hnone] at hends

end SimpleOs.Threads
