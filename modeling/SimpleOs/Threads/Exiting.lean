import SimpleOs.Threads.Joiners

/-!
# `my_pthread_exit`, statement by statement

A call of `my_pthread_exit` marks the block of a joiner, puts its return value in a
list and then gives the processor away for good. The signal handler may run between
any two of its statements, and between any two of `my_pthread_join`. This file adds
the calls of `my_pthread_exit` in progress to the machine, and what the joins return.
-/

namespace SimpleOs.Threads

open LinkedList

/-- Where a call of `my_pthread_exit` stands: its next access to shared memory. -/
inductive ExitPc where
  /-- `ptr1 = join_LL`, before the loop over the joiners. -/
  | wakeStart
  /-- The test of the loop over the joiners, and of the block at `ptr1`. -/
  | wake (ptr1 : Option Addr)
  /-- `ptr1 -> data -> done = 1`. -/
  | wakeDone (ptr1 : Addr)
  /-- `ptr1 = ptr1 -> next`. -/
  | wakeNext (ptr1 : Addr)
  /-- The test `value_ptr != NULL`, and the block of the return value. -/
  | value
  /-- The test `retval_LL == NULL`. -/
  | pushTest (block : Addr)
  /-- `block -> next = NULL`. -/
  | pushFirstNext (block : Addr)
  /-- `retval_LL = block`, for an empty list. -/
  | pushFirst (block : Addr)
  /-- `block -> next = retval_LL`. -/
  | pushNext (block : Addr)
  /-- `retval_LL = block`, for a list that is not empty. -/
  | pushHead (block : Addr)
  /-- `ptr -> data -> status = THREAD_EXITED`, and the call of `my_pthread_yield`. -/
  | status
  deriving DecidableEq

/-- A call of `my_pthread_exit` in progress. -/
structure Exit where
  /-- The value to be returned, a pointer. -/
  value_ptr : ℕ
  /-- Whether a joiner has been marked. The code does not keep this. -/
  woken : Bool
  /-- Where the call stands: its next access to shared memory. -/
  pc : ExitPc

/-- The call at its next step. -/
def Exit.goto (e : Exit) (pc : ExitPc) : Exit := { e with pc := pc }

@[simp] theorem Exit.goto_pc (e : Exit) (pc : ExitPc) : (e.goto pc).pc = pc := rfl

@[simp] theorem Exit.goto_value_ptr (e : Exit) (pc : ExitPc) :
    (e.goto pc).value_ptr = e.value_ptr := rfl

@[simp] theorem Exit.goto_woken (e : Exit) (pc : ExitPc) : (e.goto pc).woken = e.woken := rfl

/-- One step of a call by thread `thread_id`. The block of the return value is at the
address `block` that `malloc` returned; its `next` is filled in later. The step
`status` goes through the scheduler and is not taken here. -/
def Exit.step (s : Library) (e : Exit) (thread_id : ℕ) (block : Addr) (garbage : Option Addr) :
    Option (Library × Exit) :=
  match e.pc with
  | .wakeStart => some (s, e.goto (.wake s.join_LL))
  | .wake ptr1 =>
    match ptr1 with
    | none => some (s, e.goto .value)
    | some a => (s.join_block a).map fun b =>
        (s, e.goto (if b.thread_waiting_for = thread_id then .wakeDone a else .wakeNext a))
  | .wakeDone a => (s.join_block a).map fun b =>
      ({ s with join_block := Function.update s.join_block a (some { b with done := true }) },
        { e with woken := true, pc := .value })
  | .wakeNext a => some (s, e.goto (.wake (s.joinNext a garbage)))
  | .value =>
    if e.value_ptr = 0 then some (s, e.goto .status)
    else if s.retval_block block = none then
      some
        ({ s with
            retval_block := Function.update s.retval_block block
              (some ⟨thread_id, e.value_ptr, garbage⟩) },
          e.goto (.pushTest block))
    else none
  | .pushTest b => some (s, e.goto (if s.retval_LL = none then .pushFirstNext b else .pushNext b))
  | .pushFirstNext b => (s.setRetvalNext b none).map fun s => (s, e.goto (.pushFirst b))
  | .pushFirst b => some ({ s with retval_LL := b }, e.goto .status)
  | .pushNext b => (s.setRetvalNext b s.retval_LL).map fun s => (s, e.goto (.pushHead b))
  | .pushHead b => some ({ s with retval_LL := b }, e.goto .status)
  | .status => none

/-- From pointer `p` the links of the list nodes lead to a node of thread `t`. -/
def Queues.Ahead (s : Queues) (t : ℕ) (p : Option Addr) : Prop :=
  ∃ l a, Segment s.link p l (some a) ∧ s.idAt a = some t

/-- Thread `t` is in one of the queues. -/
def Queues.InQueues (s : Queues) (t : ℕ) : Prop := ∃ k, s.Ahead t (scanHead s k)

/-- A call of `my_pthread_join` that has returned. -/
structure Delivered where
  /-- The id of the thread joined. -/
  thread : ℕ
  /-- Whether `value_ptr` is not `NULL`. -/
  value_ptr : Bool
  /-- Whether the target was in one of the queues when the call was made. -/
  live : Bool
  /-- What was stored through `value_ptr`. -/
  result : Option ℕ

/-- The machine with the calls of `my_pthread_exit` in progress, and what has happened
so far. -/
structure Delivery where
  /-- The library with the calls of `my_pthread_join` in progress. -/
  machine : Machine
  /-- The call of `my_pthread_exit` of the thread at a node. -/
  exiting : Addr → Option Exit
  /-- Whether the target of the join of the thread at a node was in a queue at the call. -/
  live : Addr → Bool
  /-- The ids of the threads that are gone. -/
  gone : List ℕ
  /-- The calls of `my_pthread_exit`: the thread and the value. -/
  exits : List (ℕ × ℕ)
  /-- The targets of the calls of `my_pthread_join` that ask for the value. -/
  joins : List ℕ
  /-- The calls of `my_pthread_join` that have returned. -/
  delivered : List Delivered

/-- Before the first library call. -/
def Delivery.zero : Delivery := ⟨Machine.zero, fun _ => none, fun _ => false, [], [], [], []⟩

/-- The library state under the calls in progress. -/
abbrev Delivery.lib (d : Delivery) : Library := d.machine.lib

/-- What happens next: an event of the machine, or a part of `my_pthread_exit`. -/
inductive DeliveryEvent where
  /-- An event of the machine other than a call of `my_pthread_exit`; `live` says of a new
  join whether its target is in a queue. -/
  | machine (e : MachineEvent) (live : Bool)
  /-- The running thread calls `my_pthread_exit`. -/
  | exit (value_ptr : ℕ)
  /-- The running thread takes a step in `my_pthread_exit`. -/
  | exitStep (block : Addr) (garbage : Option Addr)
  /-- The running thread is marked as exited and leaves the processor, by its yield or
  because the signal handler runs first. -/
  | leave (ranWholeTimeSlice : Bool)

/-- The events of the machine in which a whole call of `my_pthread_exit` is one step. -/
def MachineEvent.endsThread : MachineEvent → Bool
  | .call (.exit _ _ _) => true
  | _ => false

/-- The signal handler runs, which it may do during any call. -/
def MachineEvent.isTimer : MachineEvent → Bool
  | .timer => true
  | _ => false

/-- The calls that had live targets, after an event of the machine. -/
def Delivery.liveAfter (d : Delivery) (e : MachineEvent) (live : Bool) : Addr → Bool :=
  match e, d.lib.queues.running_queue_head with
  | .join _ _ _ _, some a => Function.update d.live a live
  | _, _ => d.live

/-- The targets of the joins for a value, after an event of the machine. -/
def Delivery.joinsAfter (d : Delivery) : MachineEvent → List ℕ
  | .join thread true _ _ => thread :: d.joins
  | _ => d.joins

/-- The joins that have returned, after an event of the machine. -/
def Delivery.deliveredAfter (d : Delivery) (e : MachineEvent) : List Delivered :=
  match e, d.lib.queues.running_queue_head with
  | .step _, some a =>
    match d.machine.joining a with
    | some j =>
      if j.pc = .return_ then ⟨j.thread, j.value_ptr, d.live a, j.result⟩ :: d.delivered
      else d.delivered
    | none => d.delivered
  | _, _ => d.delivered

/-- After an event of the machine. -/
def Delivery.advance (d : Delivery) (e : MachineEvent) (live : Bool) (m : Machine) : Delivery :=
  { d with
    machine := m
    live := d.liveAfter e live
    joins := d.joinsAfter e
    delivered := d.deliveredAfter e }

/-- The running thread, with id `t`, calls `my_pthread_exit`. -/
def Delivery.startExit (d : Delivery) (a : Addr) (t value_ptr : ℕ) : Delivery :=
  { d with
    machine := { d.machine with begun := t :: d.machine.begun }
    exiting := Function.update d.exiting a (some ⟨value_ptr, false, .wakeStart⟩)
    exits := (t, value_ptr) :: d.exits }

/-- The call of `my_pthread_exit` at a node is at another step. -/
def Delivery.stepExit (d : Delivery) (a : Addr) (lib : Library) (e : Exit) : Delivery :=
  { d with
    machine := { d.machine with lib := lib }
    exiting := Function.update d.exiting a (some e) }

/-- The thread at a node, with id `t`, is gone. -/
def Delivery.endExit (d : Delivery) (a : Addr) (t : ℕ) (queues : Queues) : Delivery :=
  { d with
    machine := { d.machine with lib := { d.lib with queues := queues } }
    exiting := Function.update d.exiting a none
    gone := t :: d.gone }

/-- The store of the status of the running thread, and the scheduler. -/
def Queues.leave (s : Queues) (v : Version) (fuel : ℕ) (ranWholeTimeSlice : Bool) :
    Option Queues := do
  let ptr ← s.running_queue_head
  let s ← s.store ptr fun n => { n with status := .THREAD_EXITED }
  scheduler v fuel 0 ranWholeTimeSlice s

/-- The call of `my_pthread_exit` of the running thread. -/
def Delivery.leaving (d : Delivery) : Option Exit :=
  d.lib.queues.running_queue_head.bind d.exiting

/-- One event. A thread in `my_pthread_exit` makes no other call. -/
def DeliveryStep (v : Version) (d : Delivery) (e : DeliveryEvent) (d' : Delivery) : Prop :=
  match e with
  | .machine e live => e.endsThread = false ∧ (e.isTimer = true ∨ d.leaving = none) ∧
      (∀ thread value_ptr block next, e = .join thread value_ptr block next →
        (live = true ↔ d.lib.queues.InQueues thread)) ∧
      ∃ m, MachineStep v d.machine e m ∧ d' = d.advance e live m
  | .exit value_ptr => ∃ a t, d.lib.queues.running_queue_head = some a ∧
      d.lib.runningId = some t ∧ d.machine.joining a = none ∧ d.exiting a = none ∧
      d' = d.startExit a t value_ptr
  | .exitStep block garbage => ∃ a t e lib e', d.lib.queues.running_queue_head = some a ∧
      d.lib.runningId = some t ∧ d.exiting a = some e ∧
      e.step d.lib t block garbage = some (lib, e') ∧ d' = d.stepExit a lib e'
  | .leave ran => ∃ a t e fuel queues, d.lib.queues.running_queue_head = some a ∧
      d.lib.runningId = some t ∧ d.exiting a = some e ∧ e.pc = .status ∧
      d.lib.queues.leave v fuel ran = some queues ∧ d' = d.endExit a t queues

/-- One event, computed with `fuel` for the scheduler's loops. -/
def Delivery.exec (v : Version) (fuel : ℕ) (d : Delivery) : DeliveryEvent → Option Delivery
  | .machine e live =>
    if e.endsThread = false ∧ (e.isTimer = true ∨ d.leaving.isNone) then
      (d.machine.exec v fuel e).map (d.advance e live)
    else none
  | .exit value_ptr => d.lib.queues.running_queue_head.bind fun a => d.lib.runningId.bind fun t =>
    if (d.machine.joining a).isNone ∧ (d.exiting a).isNone then some (d.startExit a t value_ptr)
    else none
  | .exitStep block garbage => d.lib.queues.running_queue_head.bind fun a =>
    d.lib.runningId.bind fun t => (d.exiting a).bind fun e =>
      (e.step d.lib t block garbage).map fun next => d.stepExit a next.1 next.2
  | .leave ran => d.lib.queues.running_queue_head.bind fun a => d.lib.runningId.bind fun t =>
    (d.exiting a).bind fun e =>
      if e.pc = .status then (d.lib.queues.leave v fuel ran).map (d.endExit a t) else none

/-- What is computed is an event, if it is not a join. -/
theorem Delivery.exec_step {v : Version} {fuel : ℕ} {d d' : Delivery} {e : DeliveryEvent}
    (hjoin : ∀ thread value_ptr block next live,
      e = .machine (.join thread value_ptr block next) live →
        (live = true ↔ d.lib.queues.InQueues thread))
    (h : d.exec v fuel e = some d') : DeliveryStep v d e d' := by
  cases e with
  | machine e live =>
    simp only [Delivery.exec] at h
    split at h
    · rename_i hguard
      obtain ⟨m, hm, rfl⟩ := Option.map_eq_some_iff.mp h
      refine ⟨hguard.1, hguard.2.imp_right Option.isNone_iff_eq_none.mp, ?_, m,
        Machine.exec_step hm, rfl⟩
      rintro thread value_ptr block next rfl
      exact hjoin thread value_ptr block next live rfl
    · exact absurd h (by simp)
  | exit value_ptr =>
    obtain ⟨a, ha, h⟩ := Option.bind_eq_some_iff.mp h
    obtain ⟨t, ht, h⟩ := Option.bind_eq_some_iff.mp h
    split at h
    · rename_i hnone
      refine ⟨a, t, ha, ht, ?_, ?_, (Option.some.inj h).symm⟩
      · exact Option.isNone_iff_eq_none.mp hnone.1
      · exact Option.isNone_iff_eq_none.mp hnone.2
    · exact absurd h (by simp)
  | exitStep block garbage =>
    obtain ⟨a, ha, h⟩ := Option.bind_eq_some_iff.mp h
    obtain ⟨t, ht, h⟩ := Option.bind_eq_some_iff.mp h
    obtain ⟨e, he, h⟩ := Option.bind_eq_some_iff.mp h
    obtain ⟨⟨lib, e'⟩, hstep, rfl⟩ := Option.map_eq_some_iff.mp h
    exact ⟨a, t, e, lib, e', ha, ht, he, hstep, rfl⟩
  | leave ran =>
    obtain ⟨a, ha, h⟩ := Option.bind_eq_some_iff.mp h
    obtain ⟨t, ht, h⟩ := Option.bind_eq_some_iff.mp h
    obtain ⟨e, he, h⟩ := Option.bind_eq_some_iff.mp h
    split at h
    · obtain ⟨queues, hleave, rfl⟩ := Option.map_eq_some_iff.mp h
      exact ⟨a, t, e, fuel, queues, ha, ht, he, ‹_›, hleave, rfl⟩
    · exact absurd h (by simp)

end SimpleOs.Threads
