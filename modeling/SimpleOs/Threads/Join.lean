import Mathlib.Data.Fin.VecNotation
import SimpleOs.Library.Runs
import SimpleOs.Threads.Calls

/-!
# `my_pthread_join`, statement by statement

A call of `my_pthread_join` puts a block in the list of joiners, looks for its
target in the four queues, waits if it found it, and takes its block out again.
The signal handler may run between any two of its statements, so the call is a
program with a counter. A step makes at most one access to shared memory, with
the tests of locals around it; filling in a block that no other thread has seen
is one step.
-/

namespace SimpleOs.Threads

/-- There are four queues to scan. -/
instance fourQueues : NeZero 4 := ⟨by decide⟩

/-- Where a call of `my_pthread_join` stands: its next access to shared memory. -/
inductive JoinPc where
  /-- The test `join_LL == NULL`. -/
  | insertTest
  /-- `join_LL = block`, for an empty list. -/
  | insertFirst
  /-- `block -> next = NULL`. -/
  | insertFirstNext
  /-- `block -> next = join_LL`. -/
  | insertNext
  /-- `join_LL = block`, for a list that is not empty. -/
  | insertHead
  /-- Read the head of queue `k`. -/
  | scanStart (k : Fin 4)
  /-- The test of the loop over queue `k`, and of the thread at `temp`. -/
  | scan (k : Fin 4) (temp : Option Addr)
  /-- `temp = temp -> next`. -/
  | scanNext (k : Fin 4) (temp : Addr)
  /-- The test `cond_var -> done == 0`. -/
  | waitTest
  /-- The call of `my_pthread_yield` in the waiting loop. -/
  | waitYield
  /-- `ptr = join_LL` and the test `ptr == block`. -/
  | unlinkStart
  /-- `join_LL = ptr -> next`. -/
  | unlinkHead
  /-- Free the block, which was the head. -/
  | unlinkHeadFree
  /-- The tests of the loop over the joiners. -/
  | unlink (prev ptr : Option Addr)
  /-- `prev -> next = ptr -> next`, where `ptr` is the block. -/
  | unlinkStore (prev : Option Addr)
  /-- Free the block, which was not the head. -/
  | unlinkFree
  /-- `prev = ptr; ptr = ptr -> next`. -/
  | unlinkNext (ptr : Addr)
  /-- Read the head of the return values. -/
  | retvalStart
  /-- The tests of the loop over the return values. -/
  | retval (prev1 ptr1 : Option Addr)
  /-- `*value_ptr = ptr1 -> data -> retval`. -/
  | retvalTake (prev1 : Option Addr) (ptr1 : Addr)
  /-- Take the return value out of its list. -/
  | retvalUnlink (prev1 : Option Addr) (ptr1 : Addr)
  /-- Free the block of the return value. -/
  | retvalFree (ptr1 : Addr)
  /-- `prev1 = ptr1; ptr1 = ptr1 -> next`. -/
  | retvalNext (ptr1 : Addr)
  /-- `return 0`, behind everything else. -/
  | return_
  deriving DecidableEq

/-- A call of `my_pthread_join` in progress. -/
structure Join where
  /-- The id of the thread to be joined. -/
  thread : ℕ
  /-- Whether `value_ptr` is not `NULL`. -/
  value_ptr : Bool
  /-- The block of this call. -/
  block : Addr
  /-- Whether the target was found in a queue. -/
  foundT : Bool
  /-- What was stored through `value_ptr`. -/
  result : Option ℕ
  /-- Whether the block has been freed. The code does not keep this. -/
  freed : Bool
  /-- Whether the target had been created before the call. The code does not keep this. -/
  known : Bool
  /-- Where the call stands: its next access to shared memory. -/
  pc : JoinPc

/-- The heads of the four queues, in the order of the scans. -/
def scanHead (s : Queues) : Fin 4 → Option Addr :=
  ![s.priority_head 0, s.priority_head 1, s.priority_head 2, s.running_queue_head]

/-- The `next` of a list node. What a freed node reads as is left open. -/
def Queues.nextOf (s : Queues) (a : Addr) (garbage : Option Addr) : Option Addr :=
  match s.node a with
  | some n => n.next
  | none => garbage

/-- The `next` of a join block. What a freed block reads as is left open. -/
def Library.joinNext (s : Library) (a : Addr) (garbage : Option Addr) : Option Addr :=
  match s.join_block a with
  | some b => b.next
  | none => garbage

/-- A store to the `next` of an allocated join block. -/
def Library.setJoinNext (s : Library) (a : Addr) (next : Option Addr) : Option Library :=
  (s.join_block a).map fun b =>
    { s with join_block := Function.update s.join_block a (some { b with next := next }) }

/-- Free an allocated join block. -/
def Library.freeJoin (s : Library) (a : Addr) : Option Library :=
  (s.join_block a).map fun _ => { s with join_block := Function.update s.join_block a none }

/-- A store to the `next` of an allocated return value. -/
def Library.setRetvalNext (s : Library) (a : Addr) (next : Option Addr) : Option Library :=
  (s.retval_block a).map fun b =>
    { s with retval_block := Function.update s.retval_block a (some { b with next := next }) }

/-- What follows the scan of queue `k`. -/
def Join.afterScan (j : Join) (k : Fin 4) : JoinPc :=
  if k ≠ 3 then .scanStart (k + 1) else if j.foundT then .waitTest else .unlinkStart

/-- The call at its next step. -/
def Join.goto (j : Join) (pc : JoinPc) : Join := { j with pc := pc }

@[simp] theorem Join.goto_pc (j : Join) (pc : JoinPc) : (j.goto pc).pc = pc := rfl

@[simp] theorem Join.goto_thread (j : Join) (pc : JoinPc) : (j.goto pc).thread = j.thread := rfl

@[simp] theorem Join.goto_block (j : Join) (pc : JoinPc) : (j.goto pc).block = j.block := rfl

@[simp] theorem Join.goto_foundT (j : Join) (pc : JoinPc) : (j.goto pc).foundT = j.foundT := rfl

@[simp] theorem Join.goto_freed (j : Join) (pc : JoinPc) : (j.goto pc).freed = j.freed := rfl

@[simp] theorem Join.goto_known (j : Join) (pc : JoinPc) : (j.goto pc).known = j.known := rfl

/-- One step of a call, with the call afterwards, or nothing when it has returned.
The step `waitYield` goes through the scheduler and is not taken here. Reading a
freed node, block or return value has no result, except where the value read is
not used or `garbage` stands for it. -/
def Join.step (s : Library) (j : Join) (garbage : Option Addr) : Option (Library × Option Join) :=
  match j.pc with
  | .insertTest => some (s, j.goto (if s.join_LL = none then .insertFirst else .insertNext))
  | .insertFirst => some ({ s with join_LL := j.block }, j.goto .insertFirstNext)
  | .insertFirstNext => (s.setJoinNext j.block none).map fun s => (s, j.goto (.scanStart 0))
  | .insertNext => (s.setJoinNext j.block s.join_LL).map fun s => (s, j.goto .insertHead)
  | .insertHead => some ({ s with join_LL := j.block }, j.goto (.scanStart 0))
  | .scanStart k => some (s, j.goto (.scan k (scanHead s.queues k)))
  | .scan k temp =>
    match temp, j.foundT with
    | some a, false => (s.queues.node a).map fun n =>
        (s, some { j with foundT := decide (j.thread = n.thread_id), pc := .scanNext k a })
    | _, _ => some (s, j.goto (j.afterScan k))
  | .scanNext k a => some (s, j.goto (.scan k (s.queues.nextOf a garbage)))
  | .waitTest => (s.join_block j.block).map fun b =>
      (s, j.goto (if b.done then .unlinkStart else .waitYield))
  | .waitYield => none
  | .unlinkStart =>
    some (s, j.goto (if s.join_LL = some j.block then .unlinkHead else .unlink none s.join_LL))
  | .unlinkHead =>
    some ({ s with join_LL := s.joinNext j.block garbage }, j.goto .unlinkHeadFree)
  | .unlinkHeadFree => (s.freeJoin j.block).map fun s =>
      (s, some { j with freed := true, pc := .retvalStart })
  | .unlink prev ptr =>
    match ptr with
    | none => some (s, j.goto .retvalStart)
    | some a => some (s, j.goto (if a = j.block then .unlinkStore prev else .unlinkNext a))
  | .unlinkStore prev => prev.bind fun p =>
      (s.setJoinNext p (s.joinNext j.block garbage)).map fun s => (s, j.goto .unlinkFree)
  | .unlinkFree => (s.freeJoin j.block).map fun s =>
      (s, some { j with freed := true, pc := .unlinkNext j.block })
  | .unlinkNext a => some (s, j.goto (.unlink (some a) (s.joinNext a garbage)))
  | .retvalStart => some (s, j.goto (if j.value_ptr then .retval none s.retval_LL else .return_))
  | .retval prev1 ptr1 =>
    match ptr1 with
    | none => some (s, j.goto .return_)
    | some a => (s.retval_block a).map fun b =>
        (s, j.goto (if b.thread_id = j.thread then .retvalTake prev1 a else .retvalNext a))
  | .retvalTake prev1 a => (s.retval_block a).map fun b =>
      (s, some { j with result := some b.retval, pc := .retvalUnlink prev1 a })
  | .retvalUnlink prev1 a => (s.retval_block a).bind fun b =>
      match prev1 with
      | none => some ({ s with retval_LL := b.next }, j.goto (.retvalFree a))
      | some p => (s.setRetvalNext p b.next).map fun s => (s, j.goto (.retvalFree a))
  | .retvalFree a => (s.retval_block a).map fun _ =>
      ({ s with retval_block := Function.update s.retval_block a none }, j.goto .return_)
  | .retvalNext a => (s.retval_block a).map fun b => (s, j.goto (.retval (some a) b.next))
  | .return_ => some (s, none)

/-- The library with the calls of `my_pthread_join` in progress, and what has
happened so far. -/
structure Machine where
  /-- The globals of the library. -/
  lib : Library
  /-- The call in progress of the thread at a node. -/
  joining : Addr → Option Join
  /-- The thread ids handed out by `my_pthread_create`. -/
  handed : List ℕ
  /-- The thread ids whose threads have begun `my_pthread_exit`. -/
  begun : List ℕ
  /-- The targets of the calls that have returned, if they had been created before the call. -/
  returned : List ℕ

/-- Before the first library call. -/
def Machine.zero : Machine := ⟨Library.zero, fun _ => none, [], [], []⟩

/-- What happens next: the timer, or a step of the running thread. -/
inductive MachineEvent where
  /-- The running thread, outside `my_pthread_join`, makes another call. -/
  | call (call : Call)
  /-- The running thread, outside `my_pthread_join`, makes a call of `my_pthread_create`
  that fails. -/
  | createFails (failure : AllocFailure)
  /-- The signal handler runs, at the end of a slice. -/
  | timer
  /-- The running thread calls `my_pthread_join`; its block is at address `block`, whose
  `next` still holds what the memory held before. -/
  | join (thread : ℕ) (value_ptr : Bool) (block : Addr) (next : Option Addr)
  /-- The running thread takes a step in `my_pthread_join`. -/
  | step (garbage : Option Addr)
  /-- The running thread yields in `my_pthread_join`. -/
  | wait

/-- The id of the running thread. -/
def Library.runningId (s : Library) : Option ℕ :=
  s.queues.running_queue_head.bind fun a => (s.queues.node a).map (·.thread_id)

/-- The ids handed out after a call. -/
def Machine.handedAfter (m : Machine) : Call → List ℕ
  | .create _ _ => m.lib.nextThreadId :: m.handed
  | _ => m.handed

/-- The ids that have begun to exit after a call. -/
def Machine.begunAfter (m : Machine) : Call → List ℕ
  | .exit _ _ _ => m.lib.runningId.toList ++ m.begun
  | _ => m.begun

/-- The block of a new call of `my_pthread_join`. -/
def Library.newJoin (s : Library) (thread : ℕ) (block : Addr) (next : Option Addr) : Library :=
  { s with join_block := Function.update s.join_block block (some ⟨false, thread, next⟩) }

/-- A new call of `my_pthread_join` by a thread. -/
def Machine.startJoin (m : Machine) (thread : ℕ) (value_ptr : Bool) (block : Addr) : Join where
  thread := thread
  value_ptr := value_ptr
  block := block
  foundT := false
  result := none
  freed := false
  known := decide (thread ∈ m.handed)
  pc := .insertTest

/-- The running thread is in no call of `my_pthread_join`. -/
def Machine.Outside (m : Machine) : Prop :=
  ∀ a, m.lib.queues.running_queue_head = some a → m.joining a = none

/-- One event. A thread in `my_pthread_join` makes no other call, and so a node is
freed, and handed out again, only while its thread is not in one. -/
def MachineStep (v : Version) (m : Machine) (e : MachineEvent) (m' : Machine) : Prop :=
  match e with
  | .call call => m.Outside ∧ ∃ fuel lib, call.exec v fuel m.lib = some lib ∧
      m' = { m with lib := lib, handed := m.handedAfter call, begun := m.begunAfter call }
  | .createFails failure => m.Outside ∧
      m' = { m with lib := { m.lib with queues := createFails m.lib.queues failure } }
  | .timer => ∃ fuel lib, (Call.timer 0).exec v fuel m.lib = some lib ∧ m' = { m with lib := lib }
  | .join thread value_ptr block next => ∃ a, m.lib.queues.running_queue_head = some a ∧
      m.joining a = none ∧ m.lib.join_block block = none ∧
      m' = { m with
        lib := m.lib.newJoin thread block next
        joining := Function.update m.joining a (m.startJoin thread value_ptr block) }
  | .step garbage => ∃ a j lib j', m.lib.queues.running_queue_head = some a ∧
      m.joining a = some j ∧ j.step m.lib garbage = some (lib, j') ∧
      m' = { m with
        lib := lib
        joining := Function.update m.joining a j'
        returned := if j' = none ∧ j.known then j.thread :: m.returned else m.returned }
  | .wait => ∃ a j fuel lib, m.lib.queues.running_queue_head = some a ∧
      m.joining a = some j ∧ j.pc = .waitYield ∧ (Call.yield 0).exec v fuel m.lib = some lib ∧
      m' = { m with
        lib := lib
        joining := Function.update m.joining a (j.goto .waitTest) }

/-- One event, computed with `fuel` for the scheduler's loops. -/
def Machine.exec (v : Version) (fuel : ℕ) (m : Machine) : MachineEvent → Option Machine
  | .call call =>
    if (m.lib.queues.running_queue_head.bind m.joining).isNone then
      (call.exec v fuel m.lib).map fun lib =>
        { m with lib := lib, handed := m.handedAfter call, begun := m.begunAfter call }
    else none
  | .createFails failure =>
    if (m.lib.queues.running_queue_head.bind m.joining).isNone then
      some { m with lib := { m.lib with queues := createFails m.lib.queues failure } }
    else none
  | .timer => ((Call.timer 0).exec v fuel m.lib).map fun lib => { m with lib := lib }
  | .join thread value_ptr block next => m.lib.queues.running_queue_head.bind fun a =>
    if (m.joining a).isNone ∧ m.lib.join_block block = none then
      some
        { m with
          lib := m.lib.newJoin thread block next
          joining := Function.update m.joining a (m.startJoin thread value_ptr block) }
    else none
  | .step garbage => m.lib.queues.running_queue_head.bind fun a => (m.joining a).bind fun j =>
    (j.step m.lib garbage).map fun next =>
      { m with
        lib := next.1
        joining := Function.update m.joining a next.2
        returned := if next.2.isNone ∧ j.known then j.thread :: m.returned else m.returned }
  | .wait => m.lib.queues.running_queue_head.bind fun a => (m.joining a).bind fun j =>
    if j.pc = .waitYield then
      ((Call.yield 0).exec v fuel m.lib).map fun lib =>
        { m with lib := lib, joining := Function.update m.joining a (j.goto .waitTest) }
    else none

/-- What is computed is an event. -/
theorem Machine.exec_step {v : Version} {fuel : ℕ} {m m' : Machine} {e : MachineEvent}
    (h : m.exec v fuel e = some m') : MachineStep v m e m' := by
  have houtside (hnone : (m.lib.queues.running_queue_head.bind m.joining).isNone) :
      m.Outside := fun a ha => by simpa [ha] using hnone
  cases e with
  | call call =>
    simp only [Machine.exec] at h
    split at h
    · rename_i hnone
      obtain ⟨lib, hlib, rfl⟩ := Option.map_eq_some_iff.mp h
      exact ⟨houtside hnone, fuel, lib, hlib, rfl⟩
    · exact absurd h (by simp)
  | createFails failure =>
    simp only [Machine.exec] at h
    split at h
    · rename_i hnone
      exact ⟨houtside hnone, (Option.some.inj h).symm⟩
    · exact absurd h (by simp)
  | timer =>
    obtain ⟨lib, hlib, rfl⟩ := Option.map_eq_some_iff.mp h
    exact ⟨fuel, lib, hlib, rfl⟩
  | join thread value_ptr block next =>
    obtain ⟨a, ha, h⟩ := Option.bind_eq_some_iff.mp h
    split at h
    · rename_i hfree
      exact ⟨a, ha, Option.isNone_iff_eq_none.mp hfree.1, hfree.2, (Option.some.inj h).symm⟩
    · exact absurd h (by simp)
  | step garbage =>
    obtain ⟨a, ha, h⟩ := Option.bind_eq_some_iff.mp h
    obtain ⟨j, hj, h⟩ := Option.bind_eq_some_iff.mp h
    obtain ⟨⟨lib, j'⟩, hnext, rfl⟩ := Option.map_eq_some_iff.mp h
    refine ⟨a, j, lib, j', ha, hj, hnext, ?_⟩
    simp only [Option.isNone_iff_eq_none]
  | wait =>
    obtain ⟨a, ha, h⟩ := Option.bind_eq_some_iff.mp h
    obtain ⟨j, hj, h⟩ := Option.bind_eq_some_iff.mp h
    split at h
    · rename_i hpc
      obtain ⟨lib, hlib, rfl⟩ := Option.map_eq_some_iff.mp h
      exact ⟨a, j, fuel, lib, ha, hj, hpc, hlib, rfl⟩
    · exact absurd h (by simp)

/-- A sequence of events, computed. -/
def execEvents (v : Version) (fuel : ℕ) : List MachineEvent → Machine → Option Machine
  | [], m => some m
  | e :: es, m => (m.exec v fuel e).bind (execEvents v fuel es)

/-- It is computed as every sequence of events is. -/
theorem execEvents_eq {v : Version} {fuel : ℕ} {es : List MachineEvent} {m : Machine} :
    execEvents v fuel es m = Runs.execAll (fun m e => m.exec v fuel e) es m :=
  Runs.eq_execAll (fun _ => rfl) fun _ _ _ => rfl

end SimpleOs.Threads
