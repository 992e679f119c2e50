import Mathlib.Algebra.GroupWithZero.Nat
import Mathlib.Data.Fin.VecNotation
import Mathlib.Logic.Function.Basic

/-!
# The scheduler and its queues

`my_pthread.c` keeps its threads in four intrusive lists: a running queue and
three priority queues. This file models the heap of list nodes, the refill of
the running queue in both versions of the library, and `scheduler`. A result
`none` means that the process exits, crashes, or does not come back.
-/

namespace SimpleOs.Threads

/-- The address of an allocated block. A pointer is an `Option Addr`, `NULL` being `none`. -/
abbrev Addr := ℕ

/-- The two copies of the library. -/
inductive Version where
  /-- The user-level library of `src/Pthreads/my_pthread.c`. -/
  | Pthreads
  /-- The library of `src/Memory_Manager/my_pthread.c`, which also protects pages. -/
  | Memory_Manager
  deriving DecidableEq

/-- The thread status codes, of which the library uses three. -/
inductive Status where
  | THREAD_RUNNING
  | THREAD_READY
  | THREAD_SUSPENDED
  | THREAD_BLOCKED
  | THREAD_EXITED
  | THREAD_MISSED_DEADLINE
  deriving DecidableEq

/-- A `tcb_list` node with its `tcb`, which is allocated and freed with it. -/
structure Node where
  /-- The status of the thread. -/
  status : Status
  /-- The priority, `0` being the highest. -/
  priority : ℕ
  /-- The time charged to the thread, in milliseconds. -/
  time_ran : ℕ
  /-- The thread id, a 32-bit number. -/
  thread_id : ℕ
  /-- The next node of the list. -/
  next : Option Addr
  deriving DecidableEq

/-- There are three priority queues. -/
instance threePriorities : NeZero 3 := ⟨by decide⟩

/-- The scheduler's part of the library state. -/
structure Queues where
  /-- The list nodes that are allocated, by address. -/
  node : Addr → Option Node
  /-- The heads of the priority queues, `priority0_head` to `priority2_head`. -/
  priority_head : Fin 3 → Option Addr
  /-- The tails of the priority queues, `priority0_tail` to `priority2_tail`. -/
  priority_tail : Fin 3 → Option Addr
  /-- The first node of the running queue, whose thread has the processor. -/
  running_queue_head : Option Addr
  /-- The node that was loaded last, and so the end of the running queue. -/
  running_queue_tail : Option Addr
  /-- Set by a refill that found nothing to load. -/
  empty_running_queue : Bool
  /-- The id that the next new thread is given. -/
  thread_count1 : ℕ
  /-- Whether `priority_Queue` has been allocated. -/
  priority_Queue : Bool

/-- Before the first library call all globals are zero. -/
def Queues.zero : Queues where
  node := fun _ => none
  priority_head := fun _ => none
  priority_tail := fun _ => none
  running_queue_head := none
  running_queue_tail := none
  empty_running_queue := false
  thread_count1 := 0
  priority_Queue := false

/-- The link of an allocated node. -/
def Queues.link (s : Queues) (a : Addr) : Option (Option Addr) := (s.node a).map (·.next)

/-- A store to an allocated node. -/
def Queues.store (s : Queues) (a : Addr) (f : Node → Node) : Option Queues :=
  (s.node a).map fun n => { s with node := Function.update s.node a (some (f n)) }

/-! ## The refill of the running queue -/

/-- `max` in the source: the milliseconds that a refill may load. -/
def refillMax : ℕ := 300

/-- The locals of a counting loop: the running total, the number of threads
counted, and the cursor. -/
structure Cursor where
  count : ℕ
  p : ℕ
  temp : Option Addr

/-- The attempt to count one thread of priority 2. -/
def countOne (s : Queues) : Option Cursor :=
  match s.priority_head 2 with
  | none => some ⟨0, 0, none⟩
  | some a => (s.link a).map fun next => ⟨100, 1, next⟩

/-- The loop that counts up to two threads of priority 1. -/
def countTwo (s : Queues) : ℕ → Cursor → Option Cursor
  | 0, _ => none
  | fuel + 1, c =>
    match c.temp with
    | none => some c
    | some a => (s.link a).bind fun next =>
      let c : Cursor := ⟨c.count + 50, c.p + 1, next⟩
      if c.p = 2 then some c else countTwo s fuel c

/-- The loop that counts threads of priority 0 while there is room. -/
def countRest (s : Queues) : ℕ → Cursor → Option Cursor
  | 0, _ => none
  | fuel + 1, c =>
    match c.temp with
    | none => some c
    | some a =>
      if c.count < refillMax then
        (s.link a).bind fun next => countRest s fuel ⟨c.count + 25, c.p + 1, next⟩
      else some c

/-- The loops that fill the room left over. They pass over a thread whose quantum
does not fit: in the `Memory_Manager` version the cursor moves on, in the
`Pthreads` version it stays and the loop never ends. -/
def fillUp (v : Version) (s : Queues) (quantum : ℕ) : ℕ → Cursor → Option Cursor
  | 0, _ => none
  | fuel + 1, c =>
    match c.temp with
    | none => some c
    | some a =>
      if c.count < refillMax then
        if c.count + quantum ≤ refillMax then
          (s.link a).bind fun next =>
            fillUp v s quantum fuel ⟨c.count + quantum, c.p + 1, next⟩
        else
          match v with
          | .Pthreads => fillUp v s quantum fuel c
          | .Memory_Manager => (s.link a).bind fun next =>
              fillUp v s quantum fuel { c with temp := next }
      else some c

/-- How many threads of each priority the refill loads. -/
def tally (v : Version) (fuel : ℕ) (s : Queues) : Option (Fin 3 → ℕ) := do
  let c2 ← countOne s
  let c1 ← countTwo s fuel ⟨c2.count, 0, s.priority_head 1⟩
  let c0 ← countRest s fuel ⟨c1.count, 0, s.priority_head 0⟩
  if c0.count < refillMax then
    let c1 ← fillUp v s 50 fuel { c1 with count := c0.count }
    let c2 ← fillUp v s 100 fuel { c2 with count := c1.count }
    some ![c0.p, c1.p, c2.p]
  else
    some ![c0.p, c1.p, c2.p]

/-- Link the head of priority queue `c` to the end of the running queue. -/
def linkRunning (s : Queues) (head : Option Addr) : Option Queues :=
  match s.running_queue_head with
  | none => some { s with running_queue_head := head, running_queue_tail := head }
  | some _ => s.running_queue_tail.bind fun tail =>
      (s.store tail fun n => { n with next := head }).map fun s =>
        { s with running_queue_tail := head }

/-- One iteration of a loading loop: move the head of priority queue `c` to the
running queue. The `next` of the moved node is left as it is. -/
def loadOne (s : Queues) (c : Fin 3) : Option Queues := do
  let s ← linkRunning s (s.priority_head c)
  let a ← s.priority_head c
  let next ← s.link a
  let s := { s with priority_head := Function.update s.priority_head c next }
  if next = none then
    some { s with priority_tail := Function.update s.priority_tail c none }
  else some s

/-- The loading loop for priority `c`. -/
def load (c : Fin 3) : ℕ → Queues → Option Queues
  | 0, s => some s
  | p + 1, s => (loadOne s c).bind (load c p)

/-- `createRunningQueue`: count how many threads of each priority fit, then load them by priority.
-/
def createRunningQueue (v : Version) (fuel : ℕ) (s : Queues) : Option Queues := do
  let empty := decide (s.priority_head 0 = none ∧ s.priority_head 1 = none ∧
    s.priority_head 2 = none)
  let s := { s with empty_running_queue := empty }
  let p ← tally v fuel s
  let s ← load 0 (p 0) s
  let s ← load 1 (p 1) s
  load 2 (p 2) s

/-! ## The scheduler -/

/-- The time charged for a slice of a thread, in the order of the source's tests. -/
def timeCharge (priority : ℕ) : ℕ :=
  if priority = 2 then 100 else if priority = 1 then 50 else 25

/-- Charge the thread for its slice. A thread that has run for 375 milliseconds
goes back to priority 0; the flag says so. -/
def charge (n : Node) : Node × Bool :=
  let n := { n with time_ran := n.time_ran + timeCharge n.priority }
  if 375 ≤ n.time_ran then ({ n with priority := 0, time_ran := 0 }, true) else (n, false)

/-- The status and priority of a thread that goes back to a priority queue. -/
def demote (n : Node) (ranWholeTimeSlice aging_flag : Bool) : Node :=
  let n := { n with status := .THREAD_READY }
  if ranWholeTimeSlice && !aging_flag && decide (n.priority < 2) then
    { n with priority := n.priority + 1 }
  else n

/-- The queue of a priority, in the order of the source's tests. -/
def queueOf (priority : ℕ) : Fin 3 :=
  if priority = 2 then 2 else if priority = 1 then 1 else 0

/-- Append node `ptr` to priority queue `c`, as the scheduler does. -/
def requeue (s : Queues) (c : Fin 3) (ptr : Addr) : Option Queues := do
  let s ← match s.priority_tail c with
    | none => some { s with priority_head := Function.update s.priority_head c (some ptr) }
    | some tail => s.store tail fun n => { n with next := some ptr }
  let s := { s with priority_tail := Function.update s.priority_tail c (some ptr) }
  s.store ptr fun n => { n with next := none }

/-- The scheduler's work when the running queue is not empty: take its head off,
free it if the thread has exited, and put it in a priority queue otherwise. -/
def descheduleHead (s : Queues) (ptr : Addr) (ranWholeTimeSlice : Bool) : Option Queues := do
  let n ← s.node ptr
  let (n, aging_flag) := charge n
  let s := { s with running_queue_head := n.next }
  if n.status = .THREAD_EXITED then
    some { s with node := Function.update s.node ptr none }
  else
    let n := demote n ranWholeTimeSlice aging_flag
    requeue { s with node := Function.update s.node ptr (some n) } (queueOf n.priority) ptr

/-- The first run of the scheduler: a node for the original thread, at the
address `newNode` that `malloc` returned, in front of priority queue 0. -/
def registerOriginal (s : Queues) (newNode : Addr) : Option Queues :=
  if s.priority_Queue ∧ s.node newNode = none then
    some
      { s with
        node := Function.update s.node newNode (some
          { status := .THREAD_READY, priority := 0, time_ran := 0, thread_id := 1,
            next := s.priority_head 0 })
        priority_head := Function.update s.priority_head 0 (some newNode) }
  else none

/-- The end of `scheduler`: exit when the refill found no thread, and otherwise
run the head of the running queue. -/
def dispatch (s : Queues) : Option Queues :=
  if s.empty_running_queue then none
  else s.running_queue_head.bind fun ptr =>
    s.store ptr fun n => { n with status := .THREAD_RUNNING }

/-- `scheduler`. The address `newNode` is used by the first run only. -/
def scheduler (v : Version) (fuel : ℕ) (newNode : Addr) (ranWholeTimeSlice : Bool)
    (s : Queues) : Option Queues := do
  let s ← match s.running_queue_head with
    | none => (registerOriginal s newNode).bind (createRunningQueue v fuel)
    | some ptr => do
      let s ← descheduleHead s ptr ranWholeTimeSlice
      if s.running_queue_head = none then createRunningQueue v fuel s else some s
  dispatch s

end SimpleOs.Threads
