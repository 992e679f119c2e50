import Mathlib.Data.Int.Notation
import SimpleOs.Library.Bytes

/-!
# The allocator of the thread region

`myallocate` and `mydeallocate` for requests of threads, in the byte memory that
the running thread sees. Blocks are adjacent, each with a header before its
payload, and the headers form a list. The pages that a thread has been charged
for are counted behind the region.
-/

namespace SimpleOs.Heap

open Bytes

/-! ## The regions -/

/-- The regions in the 8000000 bytes that `buildKernalSpace` allocates. -/
structure Layout where
  /-- The beginning of the memory. -/
  MEMSPACE : ℕ
  /-- The size of a page. -/
  PAGE_SIZE : ℕ
  /-- A page has at least one byte. -/
  positive : 0 < PAGE_SIZE
  /-- The memory begins at a page boundary. -/
  aligned : PAGE_SIZE ∣ MEMSPACE
  /-- The regions fit in the memory. -/
  fits : 1823 * PAGE_SIZE ≤ 8000000
  /-- The memory is in the address space. -/
  bound : MEMSPACE + 8000000 < 2 ^ 63

/-- The end of the space for the page nodes. -/
def Layout.kernalEnd (L : Layout) : ℕ := L.MEMSPACE + 18 * L.PAGE_SIZE

/-- The end of the scheduler's region and the beginning of the thread's. -/
def Layout.schedulerEnd (L : Layout) : ℕ := L.kernalEnd + 200 * L.PAGE_SIZE

/-- The end of the thread's region, in the source `end`. -/
def Layout.endOfPages (L : Layout) : ℕ := L.schedulerEnd + 1600 * L.PAGE_SIZE

/-! ## Block headers -/

namespace AllocNode

/-- The field `short inUse` of a header. -/
def inUse : Field := ⟨0, 2⟩

/-- The field `int capacity` of a header, the size of its payload. -/
def capacity : Field := ⟨4, 4⟩

/-- The field `struct AllocNodeN* prev` of a header, the header before it. -/
def prev : Field := ⟨8, 8⟩

/-- The field `struct AllocNodeN* next` of a header, the one behind it. -/
def next : Field := ⟨16, 8⟩

/-- The field `short signature` of a header, which marks it as one. -/
def signature : Field := ⟨24, 2⟩

/-- The number of bytes of a header, `sizeof(AllocNode)`. -/
def size : ℕ := 32

/-- The signature of a header. -/
def valid : ℕ := 3233

end AllocNode

open AllocNode

/-- The capacity of a block, an `int`, as a `size_t`. -/
def capacityOf (m : Memory) (node : ℕ) : ℕ :=
  if get m node capacity < 2 ^ 31 then get m node capacity
  else get m node capacity + (2 ^ 64 - 2 ^ 32)

/-- The address behind a block. -/
def behind (m : Memory) (node : ℕ) : ℕ := (node + AllocNode.size + capacityOf m node) % 2 ^ 64

/-- The memory, and the pages that no thread has been charged for. -/
structure Arena where
  /-- The bytes that the thread sees. -/
  mem : Memory
  /-- The pages that can still be charged, the global `pagesLeft`. -/
  pagesLeft : ℤ

/-- The element of `int thread_page_count[]`, which begins at `end`. -/
def threadPageCount : Field := ⟨0, 4⟩

/-- The address of a thread's page count. -/
def Layout.countAddr (L : Layout) (currThread : ℕ) : ℕ := L.endOfPages + 4 * currThread

/-! ## Allocation -/

/-- The loops `for (n = ...; n * PAGE_SIZE + space <= size; n++);`. -/
def countPages (PAGE_SIZE space size : ℕ) : ℕ → ℕ → ℕ
  | 0, n => n
  | fuel + 1, n =>
    if n * PAGE_SIZE + space ≤ size then countPages PAGE_SIZE space size fuel (n + 1) else n

/-- Charge the running thread for pages, unless too few are left. -/
def charge (L : Layout) (currThread : ℕ) (h : Arena) (num_pages_allocating : ℕ) : Option Arena :=
  if h.pagesLeft - num_pages_allocating < 0 then none
  else
    some
      { mem := set h.mem (L.countAddr currThread) threadPageCount
          (get h.mem (L.countAddr currThread) threadPageCount + num_pages_allocating)
        pagesLeft := h.pagesLeft - num_pages_allocating }

/-- The charge for the first pages of a thread. -/
def chargeFirst (L : Layout) (currThread : ℕ) (h : Arena) (size : ℕ) : Option Arena :=
  if get h.mem (L.countAddr currThread) threadPageCount = 0 then
    if L.schedulerEnd + AllocNode.size + size ≥ L.endOfPages then none
    else charge L currThread h (countPages L.PAGE_SIZE 0 (size + AllocNode.size) (size + 33) 1)
  else some h

/-- The header of a first block. -/
def initHead (m : Memory) (head size : ℕ) : Memory :=
  let m := set m head signature valid
  let m := set m head next 0
  let m := set m head prev 0
  let m := set m head inUse 1
  set m head capacity size

/-- The search for a free block of the right size: the block, or the last one. -/
def search (m : Memory) (size : ℕ) : ℕ → ℕ → Option (ℕ ⊕ ℕ)
  | 0, _ => none
  | fuel + 1, temp =>
    if get m temp inUse = 0 ∧ capacityOf m temp = size then some (.inl temp)
    else if get m temp next = 0 then some (.inr temp)
    else search m size fuel (get m temp next)

/-- The header of a new last block. -/
def linkNode (m : Memory) (prevAddr newNode size : ℕ) : Memory :=
  let m := set m newNode signature valid
  let m := set m newNode capacity size
  let m := set m newNode inUse 1
  let m := set m newNode prev prevAddr
  let m := set m prevAddr next newNode
  set m newNode next 0

/-- A new block behind the last one. -/
def append (L : Layout) (currThread : ℕ) (h : Arena) (prevAddr size : ℕ) : Arena × Option ℕ :=
  let newNode := behind h.mem prevAddr
  if newNode + AllocNode.size + size ≥ L.endOfPages then (h, none)
  else
    let spaceLeftInPage := L.PAGE_SIZE - (newNode + AllocNode.size) % L.PAGE_SIZE
    match charge L currThread h (countPages L.PAGE_SIZE spaceLeftInPage size (size + 1) 0) with
    | none => (h, none)
    | some h =>
      ({ h with mem := linkNode h.mem prevAddr newNode size }, some (newNode + AllocNode.size))

/-- `myallocate` for a thread, when the regions are set up. It returns the payload of
the block, or `NULL`. -/
def myallocate (L : Layout) (currThread fuel : ℕ) (h : Arena) (size : ℕ) :
    Option (Arena × Option ℕ) :=
  if size = 0 then some (h, none)
  else
    match chargeFirst L currThread h size with
    | none => some (h, none)
    | some h =>
      if get h.mem L.schedulerEnd signature ≠ valid then
        some ({ h with mem := initHead h.mem L.schedulerEnd size },
          some (L.schedulerEnd + AllocNode.size))
      else (search h.mem size fuel L.schedulerEnd).map fun
        | .inl temp => ({ h with mem := set h.mem temp inUse 1 }, some (temp + AllocNode.size))
        | .inr prevAddr => append L currThread h prevAddr size

/-! ## Deallocation -/

/-- The loop over the blocks before: as long as the block before is free, it takes the
current block in. -/
def mergePrev : ℕ → Memory → ℕ → Option (Memory × ℕ)
  | 0, _, _ => none
  | fuel + 1, m, currNode =>
    if get m currNode prev = 0 then some (m, currNode)
    else if get m (get m currNode prev) inUse = 0 then
      let m := set m currNode signature 0
      let m := set m (get m currNode prev) next (get m currNode next)
      let m := set m (get m currNode prev) capacity
        (get m (get m currNode prev) capacity + AllocNode.size + get m currNode capacity)
      mergePrev fuel m (get m currNode prev)
    else some (m, currNode)

/-- The loop over the blocks behind: the current block takes in those that are free. -/
def mergeNext : ℕ → Memory → ℕ → Option Memory
  | 0, _, _ => none
  | fuel + 1, m, currNode =>
    if get m currNode next = 0 then some m
    else if get m (get m currNode next) inUse = 0 then
      let m := set m (get m currNode next) signature 0
      let m := set m currNode capacity
        (get m (get m currNode next) capacity + AllocNode.size + get m currNode capacity)
      let m := set m currNode next (get m (get m currNode next) next)
      mergeNext fuel m currNode
    else some m

/-- If there is nothing after the freed block, it is deleted. -/
def deleteLast (m : Memory) (currNode : ℕ) : Memory :=
  if get m currNode next = 0 then
    let m := set m currNode signature 0
    let m := set m currNode capacity 0
    let m := if get m currNode prev ≠ 0 then set m (get m currNode prev) next 0 else m
    set m currNode prev 0
  else m

/-- `mydeallocate` for a thread, when the regions are set up. -/
def mydeallocate (L : Layout) (fuel : ℕ) (h : Arena) (ptr : ℕ) : Option Arena :=
  let currNode := ptr - AllocNode.size
  if ptr < L.schedulerEnd ∨ L.endOfPages ≤ ptr then some h
  else if get h.mem currNode signature ≠ valid then some h
  else if get h.mem currNode inUse = 0 then some h
  else (mergePrev fuel (set h.mem currNode inUse 0) currNode).bind fun (m, currNode) =>
    (mergeNext fuel m currNode).map fun m => { h with mem := deleteLast m currNode }

end SimpleOs.Heap
