import SimpleOs.Threads.Partition

/-!
# A new thread in recycled memory

`my_pthread_create` does not set the `next` of the new node, and the memory that the
allocator hands out need not be zero. What the list says behind the new node is what
that memory held before.
-/

namespace SimpleOs.Threads

open LinkedList

variable {s s' : Queues} {l : List Addr} {newNode : Addr} {garbage : Node}

/-- The new node and its `tcb`, in memory that held `garbage`. The `next` is not set. -/
def newThread (garbage : Node) (thread_id : ℕ) : Node :=
  { garbage with status := .THREAD_READY, priority := 0, time_ran := 0, thread_id := thread_id }

/-- `my_pthread_create` up to its yield, when all allocations succeed and the memory
that they hand out held `garbage`. -/
def createOver (s : Queues) (newNode : Addr) (garbage : Node) : Option Queues :=
  let s := createQueues s
  if s.node newNode = none then
    let node := newThread garbage s.thread_count1
    enqueueNew (takeThreadId { s with node := Function.update s.node newNode (some node) }) newNode
  else none

/-- In memory with a `NULL` in the right place this is the creation that the runs have. -/
theorem createOver_eq_createNode (s : Queues) (newNode : Addr) (h : garbage.next = none) :
    createOver s newNode garbage = createNode s newNode := by
  unfold createOver createNode newThread
  rw [h]

/-- Priority queue 0 is the list `l`, and its tail is the last node. -/
structure PriorityZero (s : Queues) (l : List Addr) : Prop where
  /-- From the head the links visit the nodes of `l` and end at `NULL`. -/
  list : s.IsList (s.priority_head 0) l
  /-- The tail, which does not matter if the queue is empty. -/
  tail : l ≠ [] → s.priority_tail 0 = l.getLast?

/-- Creating a thread returns. From the head the links visit the old nodes and the new
one, and then go where the memory of the new node pointed before. -/
theorem createOver_spec (h : PriorityZero s l) (hfresh : s.node newNode = none) :
    ∃ s', createOver s newNode garbage = some s' ∧
      Segment s'.link (s'.priority_head 0) (l ++ [newNode]) garbage.next ∧
      s'.priority_tail 0 = some newNode := by
  obtain ⟨hnode, hhead, htail, _⟩ := createQueues_spec s
  have hnodup : l.Nodup := Segment.nodup h.list
  have hnew : newNode ∉ l := by
    intro hmem
    have hsome := Segment.isSome h.list hmem
    simp [Queues.link, hfresh] at hsome
  simp only [createOver, hnode, if_pos hfresh]
  generalize hn : newThread garbage (createQueues s).thread_count1 = n
  have hnext : n.next = garbage.next := by
    rw [← hn]
    rfl
  generalize hs₁ : takeThreadId
    { createQueues s with node := Function.update s.node newNode (some n) } = s₁
  have hlink₁ : s₁.link = Function.update s.link newNode (some garbage.next) := by
    rw [← hs₁, ← hnext]
    exact Queues.link_update _ newNode (some n)
  have hhead₁ : s₁.priority_head = s.priority_head := by rw [← hs₁, ← hhead]; rfl
  have htail₁ : s₁.priority_tail = s.priority_tail := by rw [← hs₁, ← htail]; rfl
  rcases List.eq_nil_or_concat' l with rfl | ⟨l, t, rfl⟩
  · have hempty : s₁.priority_head 0 = none := by
      rw [hhead₁]
      exact h.list
    have hrun : enqueueNew s₁ newNode = some
        { s₁ with
          priority_head := Function.update s₁.priority_head 0 (some newNode)
          priority_tail := Function.update s₁.priority_tail 0 (some newNode) } := by
      simp [enqueueNew, hempty]
    refine ⟨_, hrun, ⟨by simp, garbage.next, ?_, rfl⟩, by simp⟩
    change s₁.link newNode = _
    rw [hlink₁, Function.update_self]
  · have hlast : s₁.priority_tail 0 = some t := by
      rw [htail₁, h.tail (by simp)]
      simp
    obtain ⟨a, ha⟩ : ∃ a, s₁.priority_head 0 = some a := by
      rw [hhead₁, Segment.head? h.list (by simp)]
      cases l <;> simp
    have htnew : t ≠ newNode := by
      rintro rfl
      exact hnew (by simp)
    obtain ⟨_, ht⟩ := segment_concat.mp h.list
    have ht₁ : s₁.link t = some none := by
      rw [hlink₁, Function.update_of_ne htnew]
      exact ht
    obtain ⟨m, hm, _⟩ := Queues.node_of_link ht₁
    have hrun : enqueueNew s₁ newNode = some
        { s₁ with
          node := Function.update s₁.node t (some { m with next := some newNode })
          priority_tail := Function.update s₁.priority_tail 0 (some newNode) } := by
      simp [enqueueNew, ha, hlast, Queues.store_eq hm]
    refine ⟨_, hrun, ?_, by simp⟩
    have hlink : Queues.link { s₁ with
        node := Function.update s₁.node t (some { m with next := some newNode })
        priority_tail := Function.update s₁.priority_tail 0 (some newNode) } =
        Function.update s₁.link t (some (some newNode)) :=
      Queues.link_update s₁ t (some { m with next := some newNode })
    have hextended : Segment (Function.update s₁.link t (some (some newNode)))
        (if l ++ [t] = [] then some newNode else s.priority_head 0) (l ++ [t] ++ [newNode])
        garbage.next := by
      apply Segment.snoc_link h.list hnodup
      · rw [Function.update_of_ne htnew.symm, hlink₁, Function.update_self]
      · intro b hb
        obtain rfl : t = b := by simpa using hb
        exact Function.update_self _ _ _
      · intro b hb hne
        have hbt : b ≠ t := by
          rintro rfl
          exact hne (by simp)
        have hbnew : b ≠ newNode := by
          rintro rfl
          exact hnew hb
        rw [Function.update_of_ne hbt, hlink₁, Function.update_of_ne hbnew]
    rw [if_neg (by simp)] at hextended
    rw [hlink]
    change Segment _ (s₁.priority_head 0) _ _
    rw [hhead₁]
    exact hextended

/-- Creating a thread keeps priority queue 0 a list, with the new node at its end,
exactly if the memory of the new node held `NULL` where its `next` is. -/
theorem createOver_priorityZero_iff (h : PriorityZero s l) (hfresh : s.node newNode = none) :
    ∃ s', createOver s newNode garbage = some s' ∧
      (PriorityZero s' (l ++ [newNode]) ↔ garbage.next = none) := by
  obtain ⟨s', hrun, hsegment, htail⟩ := createOver_spec h hfresh
  refine ⟨s', hrun, fun hzero => ?_, fun hnull => ⟨?_, fun _ => ?_⟩⟩
  · obtain ⟨_, hlink⟩ := segment_concat.mp hsegment
    obtain ⟨_, hend⟩ := segment_concat.mp hzero.list
    exact Option.some.inj (hlink.symm.trans hend)
  · rw [hnull] at hsegment
    exact hsegment
  · rw [htail]
    simp

/-- The queues behind the first creation, before the new thread is enqueued. -/
def noThreads : Queues := createQueues Queues.zero

/-- A queue of one thread. -/
def oneThread : Queues :=
  { noThreads with
    node := fun a => if a = 1 then some ⟨.THREAD_READY, 0, 0, 1, none⟩ else none
    priority_head := ![some 1, none, none]
    priority_tail := ![some 1, none, none] }

/-- Memory that held a pointer where the `next` of the new node is. -/
def recycled (next : Option Addr) : Node := ⟨.THREAD_EXITED, 9, 9, 9, next⟩

/-- The theorem at a queue of one thread and memory with a `NULL`. -/
theorem createOver_priorityZero_iff_oneThread :
    ∃ s', createOver oneThread 2 (recycled none) = some s' ∧ PriorityZero s' [1, 2] := by
  have hzero : PriorityZero oneThread [1] := ⟨⟨rfl, none, rfl, rfl⟩, fun _ => rfl⟩
  have hcreated : ∃ s', createOver oneThread 2 (recycled none) = some s' ∧
      (PriorityZero s' ([1] ++ [2]) ↔ (recycled none).next = none) :=
    createOver_priorityZero_iff hzero rfl
  obtain ⟨s', hrun, hiff⟩ := hcreated
  exact ⟨s', hrun, hiff.mpr rfl⟩

/-- In memory with another pointer the new node is not the last one, and the next refill
follows the pointer: here it leads to no node. -/
theorem createOver_not_priorityZero : ∃ s',
    createOver noThreads 2 (recycled (some 7)) = some s' ∧ PriorityZero noThreads [] ∧
      ¬ PriorityZero s' [2] ∧ ∀ v fuel, createRunningQueue v fuel s' = none := by
  have hzero : PriorityZero noThreads [] := ⟨rfl, fun h => absurd rfl h⟩
  have hcreated : ∃ s', createOver noThreads 2 (recycled (some 7)) = some s' ∧
      Segment s'.link (s'.priority_head 0) ([] ++ [2]) (recycled (some 7)).next ∧
      s'.priority_tail 0 = some 2 := createOver_spec hzero rfl
  obtain ⟨s', hrun, hsegment, _⟩ := hcreated
  refine ⟨s', hrun, hzero, fun hlist => ?_, fun v fuel => ?_⟩
  · obtain ⟨_, next, hlink, hnext⟩ := hsegment
    obtain ⟨_, next', hlink', hnext'⟩ := hlist.list
    obtain rfl := Option.some.inj (hlink.symm.trans hlink')
    exact absurd (hnext.symm.trans hnext') (by simp [recycled])
  · obtain rfl := Option.some.inj hrun
    rcases fuel with _ | _ | fuel <;> cases v <;> rfl

end SimpleOs.Threads
