import SimpleOs.Threads.Scheduler

/-!
# The library calls

The calls that reach the scheduler: creation, yield, the timer signal and exit.
Besides the queues the library keeps a list of waiting joiners and a list of
return values, which `my_pthread_exit` updates.
-/

namespace SimpleOs.Threads

/-- A `join_var_block` with its `join_var`. -/
structure JoinBlock where
  /-- Set when the thread waited for has exited. -/
  done : Bool
  /-- The id of the thread that the joiner waits for. -/
  thread_waiting_for : ℕ
  /-- The next block of `join_LL`. -/
  next : Option Addr
  deriving DecidableEq

/-- A `retval_block` with its `retval_elem`. -/
structure RetvalBlock where
  /-- The thread that returned the value. -/
  thread_id : ℕ
  /-- The value that the thread passed to `my_pthread_exit`, a pointer. -/
  retval : ℕ
  /-- The next block of `retval_LL`. -/
  next : Option Addr
  deriving DecidableEq

/-- The globals of the library. -/
structure Library where
  /-- The list nodes, the queues and the next thread id. -/
  queues : Queues
  /-- The join blocks that are allocated, by address. -/
  join_block : Addr → Option JoinBlock
  /-- The head of the list of joiners. -/
  join_LL : Option Addr
  /-- The blocks of return values that are allocated, by address. -/
  retval_block : Addr → Option RetvalBlock
  /-- The list of return values. -/
  retval_LL : Option Addr

/-- Before the first library call all globals are zero. -/
def Library.zero : Library := ⟨Queues.zero, fun _ => none, none, fun _ => none, none⟩

/-- The part of `my_pthread_create` that allocates the priority queues, once. -/
def createQueues (s : Queues) : Queues :=
  if s.priority_Queue then s else { s with priority_Queue := true, thread_count1 := 2 }

/-- `my_pthread_create` takes the next thread id, a `uint`. -/
def takeThreadId (s : Queues) : Queues :=
  { s with thread_count1 := (s.thread_count1 + 1) % 2 ^ 32 }

/-- The id that the next `my_pthread_create` hands out. -/
def Library.nextThreadId (s : Library) : ℕ := (createQueues s.queues).thread_count1

/-- Append the new node to priority queue 0, as `my_pthread_create` does. -/
def enqueueNew (s : Queues) (newNode : Addr) : Option Queues := do
  let s ← match s.priority_head 0 with
    | none => some { s with priority_head := Function.update s.priority_head 0 (some newNode) }
    | some _ =>
      (s.priority_tail 0).bind fun tail => s.store tail fun n => { n with next := some newNode }
  some { s with priority_tail := Function.update s.priority_tail 0 (some newNode) }

/-- `my_pthread_create` up to its yield, when all allocations succeed. The new
blocks are zero-filled, so the `next` of the new node is `NULL`. -/
def createNode (s : Queues) (newNode : Addr) : Option Queues :=
  let s := createQueues s
  if s.node newNode = none then
    let node : Node :=
      { status := .THREAD_READY, priority := 0, time_ran := 0, thread_id := s.thread_count1,
        next := none }
    enqueueNew (takeThreadId { s with node := Function.update s.node newNode (some node) }) newNode
  else none

/-- The allocations of `my_pthread_create` whose failure it reports. -/
inductive AllocFailure where
  /-- The array of the priority queues, in the first call. -/
  | queue
  /-- The context of the new thread or its stack. -/
  | context
  /-- The list node, after the thread id was taken. -/
  | node
  deriving DecidableEq

/-- A call of `my_pthread_create` that returns `EAGAIN`. -/
def createFails (s : Queues) : AllocFailure → Queues
  | .queue => s
  | .context => createQueues s
  | .node => takeThreadId (createQueues s)

/-- The loop of `my_pthread_exit` over the joiners: the first one that waits for
`thread_id` is done, and the loop stops there. -/
def wakeJoiner (block : Addr → Option JoinBlock) (thread_id : ℕ) :
    ℕ → Option Addr → Option (Addr → Option JoinBlock)
  | 0, _ => none
  | _ + 1, none => some block
  | fuel + 1, some a => (block a).bind fun b =>
    if b.thread_waiting_for = thread_id then
      some (Function.update block a (some { b with done := true }))
    else wakeJoiner block thread_id fuel b.next

/-- `my_pthread_exit` hands a return value other than `NULL` to a later join. The
block is at the address that `malloc` returned. -/
def pushRetval (s : Library) (thread_id value_ptr : ℕ) (block : Addr) : Option Library :=
  if value_ptr = 0 then some s
  else if s.retval_block block = none then
    some
      { s with
        retval_block := Function.update s.retval_block block
          (some ⟨thread_id, value_ptr, s.retval_LL⟩)
        retval_LL := some block }
  else none

/-- `my_pthread_exit` up to its yield. -/
def markExited (fuel : ℕ) (value_ptr : ℕ) (block : Addr) (s : Library) : Option Library := do
  let ptr ← s.queues.running_queue_head
  let n ← s.queues.node ptr
  let join_block ← wakeJoiner s.join_block n.thread_id fuel s.join_LL
  let s ← pushRetval { s with join_block := join_block } n.thread_id value_ptr block
  let queues ← s.queues.store ptr fun n => { n with status := .THREAD_EXITED }
  some { s with queues := queues }

/-- A call that reaches the scheduler. The addresses are those that `malloc`
returns, and `original` is used by the first run of the scheduler only. -/
inductive Call where
  /-- `my_pthread_create`, whose new node is at `newNode`. -/
  | create (newNode original : Addr)
  /-- `my_pthread_yield`, a slice not used up. -/
  | yield (original : Addr)
  /-- `sig_handler`, at the end of a whole slice. -/
  | timer (original : Addr)
  /-- `my_pthread_exit` with its argument and the block for the return value. -/
  | exit (value_ptr : ℕ) (block original : Addr)

/-- The address for the original thread's node. -/
def Call.original : Call → Addr
  | .create _ original => original
  | .yield original => original
  | .timer original => original
  | .exit _ _ original => original

/-- The argument of `scheduler`: only `sig_handler` passes 1. -/
def Call.ranWholeTimeSlice : Call → Bool
  | .timer _ => true
  | _ => false

/-- What a call does before it reaches the scheduler. -/
def Call.enter (fuel : ℕ) (s : Library) : Call → Option Library
  | .create newNode _ => (createNode s.queues newNode).map fun queues => { s with queues := queues }
  | .yield _ => some s
  | .timer _ => some s
  | .exit value_ptr block _ => markExited fuel value_ptr block s

/-- A call up to the moment when the next thread runs. -/
def Call.exec (v : Version) (fuel : ℕ) (s : Library) (call : Call) : Option Library := do
  let s ← call.enter fuel s
  let queues ← scheduler v fuel call.original call.ranWholeTimeSlice s.queues
  some { s with queues := queues }

end SimpleOs.Threads
