import Mathlib.Data.Finset.Card
import Mathlib.Data.Finset.Range
import Mathlib.Logic.Function.Basic

/-!
# The page table and its exchanges

`totalrecall.c` lays 1600 frame nodes and 3900 swap nodes out from `MEMSPACE`.
A node says which thread holds the page and, when the page is away from home,
where it should return to. This file models the table, the frames, the swap
file, and the two functions that exchange pages between them.
-/

namespace SimpleOs.Paging

/-- The number of thread pages in memory, `1600` in the source. -/
def frameCount : ℕ := 1600

/-- The number of pages in the swap file, `3900` in the source. -/
def slotCount : ℕ := 3900

/-- `struct PageNodeN`. Thread id `0` marks a free page, and `retAddr = -1`
marks a frame that holds its own page. -/
structure PageNode where
  /-- The thread the page belongs to. -/
  threadid : ℕ
  /-- The index of the node in its part of the table. -/
  offset_p : ℕ
  /-- The frame a displaced or swapped page returns to. -/
  retAddr : ℤ
  /-- The second-chance bit, only ever set to 0 or 1. -/
  reference_bit : Bool
  deriving DecidableEq

/-- A node that nobody uses has its own index. -/
theorem free_offset : ∀ n : ℕ, (⟨0, n, -1, false⟩ : PageNode).offset_p = n := fun _ => rfl

/-- The nodes from `MEMSPACE` on. `buildKernalSpace` stores every `offset_p`
once and no other statement changes it, so the table carries that fact. -/
structure Table where
  /-- The frame nodes, from `MEMSPACE`. -/
  frames : ℕ → PageNode
  /-- The swap nodes, from `MEMSPACE + 1600`. -/
  slots : ℕ → PageNode
  /-- A frame node stores its own index. -/
  frame_offset : ∀ n, (frames n).offset_p = n
  /-- A swap node stores its own index. -/
  slot_offset : ∀ k, (slots k).offset_p = k

attribute [simp] Table.frame_offset Table.slot_offset

/-- Store to the fields of frame node `n` other than `offset_p`. -/
def Table.setFrame (t : Table) (n : ℕ) (store : PageNode → PageNode) : Table where
  frames := Function.update t.frames n { store (t.frames n) with offset_p := n }
  slots := t.slots
  frame_offset m := by
    by_cases h : m = n
    · subst h; simp
    · simp [h]
  slot_offset := t.slot_offset

/-- Store to the fields of swap node `k` other than `offset_p`. -/
def Table.setSlot (t : Table) (k : ℕ) (store : PageNode → PageNode) : Table where
  frames := t.frames
  slots := Function.update t.slots k { store (t.slots k) with offset_p := k }
  frame_offset := t.frame_offset
  slot_offset m := by
    by_cases h : m = k
    · subst h; simp
    · simp [h]

/-- A store to a frame node changes that node only. -/
@[simp] theorem Table.setFrame_frames (t : Table) (n m : ℕ) (store : PageNode → PageNode) :
    (t.setFrame n store).frames m =
      if m = n then { store (t.frames n) with offset_p := n } else t.frames m := by
  simp [Table.setFrame, Function.update_apply]

@[simp] theorem Table.setFrame_slots (t : Table) (n : ℕ) (store : PageNode → PageNode) :
    (t.setFrame n store).slots = t.slots := rfl

@[simp] theorem Table.setSlot_frames (t : Table) (k : ℕ) (store : PageNode → PageNode) :
    (t.setSlot k store).frames = t.frames := rfl

/-- A store to a swap node changes that node only. -/
@[simp] theorem Table.setSlot_slots (t : Table) (k m : ℕ) (store : PageNode → PageNode) :
    (t.setSlot k store).slots m =
      if m = k then { store (t.slots k) with offset_p := k } else t.slots m := by
  simp [Table.setSlot, Function.update_apply]

/-- The file `swap_space`, page by page. -/
structure SwapFile (Page : Type*) where
  /-- The pages. One behind the end is what a write further on turns it into, the bytes
  that were there followed by zeros. -/
  pages : ℕ → Page
  /-- The number of pages that are whole in the file. -/
  size : ℕ

/-- `lseek` and `read` of page `k` into a buffer. Behind the end the read is short, which the
source does not check; the buffer then holds `temp`, the few bytes that were read and behind
them what it held before. -/
def SwapFile.read {Page : Type*} (f : SwapFile Page) (k : ℕ) (temp : Page) : Page :=
  if k < f.size then f.pages k else temp

/-- `lseek` and `write` of page `k`, which extend the file to the end of that page. -/
def SwapFile.write {Page : Type*} (f : SwapFile Page) (k : ℕ) (page : Page) : SwapFile Page where
  pages := Function.update f.pages k page
  size := max f.size (k + 1)

/-- A page that was written is read back. -/
@[simp] theorem SwapFile.read_write_self {Page : Type*} (f : SwapFile Page) (k : ℕ)
    (page temp : Page) : (f.write k page).read k temp = page := by
  have hk : k < max f.size (k + 1) := lt_max_of_lt_right (Nat.lt_succ_self k)
  simp [SwapFile.read, SwapFile.write, hk]

/-- A write keeps the other pages of the file. -/
theorem SwapFile.read_write_of_ne {Page : Type*} (f : SwapFile Page) {j k : ℕ} (hjk : j ≠ k)
    (hj : j < f.size) (page temp temp' : Page) :
    (f.write k page).read j temp = f.read j temp' := by
  have hj' : j < max f.size (k + 1) := lt_max_of_lt_left hj
  simp [SwapFile.read, SwapFile.write, hj, hj', hjk]

/-- The two protections the source asks `mprotect` for. -/
inductive Prot where
  | PROT_NONE
  | PROT_READ_WRITE
  deriving DecidableEq

/-- The memory manager's state. `Page` is the type of a page's contents. -/
structure State (Page : Type*) where
  /-- The frame and swap nodes. -/
  table : Table
  /-- The contents of the thread pages, from `schedulerEnd`. -/
  memory : ℕ → Page
  /-- The swap file, `swap_space`, which ends where nothing was written yet. -/
  swapFile : SwapFile Page
  /-- What the buffer of `swapFileGrab` holds when the next reads come back short. It is a
  local array that the source does not initialise, so any earlier page may show up here. -/
  stack : ℕ → Page
  /-- The protection of every thread page. -/
  prot : ℕ → Prot
  /-- The clock hand of the second-chance scan, as a frame index. -/
  free_list_position : ℕ
  /-- The id of the running thread. -/
  currThread : ℕ
  /-- The counters from `end`: how many pages each thread may touch. -/
  thread_page_count : ℕ → ℤ
  /-- The number of pages not charged to any thread. -/
  pagesLeft : ℤ

variable {Page : Type*}

/-- `buildKernalSpace`: all nodes free and at home, all thread pages protected. What the pages
hold at that time is left open, and so is the swap file. The source writes 8000000 bytes to it
twice, but both writes stop at the first protected page, so that a new file has 436 whole pages
and one byte; a file that an earlier run left behind keeps its length. -/
def buildKernalSpace (memory : ℕ → Page) (swapFile : SwapFile Page) (stack : ℕ → Page) :
    State Page where
  table :=
    { frames := fun n => ⟨0, n, -1, false⟩
      slots := fun k => ⟨0, k, -1, false⟩
      frame_offset := free_offset
      slot_offset := free_offset }
  memory := memory
  swapFile := swapFile
  stack := stack
  prot := fun _ => .PROT_NONE
  free_list_position := 0
  currThread := 1
  thread_page_count := fun _ => 0
  pagesLeft := 5500

/-- A successful `mprotect` of page `n`. -/
def State.mprotect (s : State Page) (n : ℕ) (p : Prot) : State Page :=
  { s with prot := Function.update s.prot n p }

/-- `swapPage`: exchange two frames. The page that leaves `offset_out` is
labelled with that frame, whatever label it carried before. -/
def swapPage (s : State Page) (offset_out offset_in type : ℕ) : State Page :=
  let s := s.mprotect offset_out .PROT_READ_WRITE
  let s := s.mprotect offset_in .PROT_READ_WRITE
  let temp := s.memory offset_out
  let memory := Function.update s.memory offset_out (s.memory offset_in)
  let memory := Function.update memory offset_in temp
  let temp1 := (s.table.frames offset_in).threadid
  let temp2 := (s.table.frames offset_in).reference_bit
  let temp3 := (s.table.frames offset_in).retAddr
  let ptr_swapped_in := s.table.frames offset_out
  let table := s.table.setFrame offset_in fun node =>
    { node with
      threadid := ptr_swapped_in.threadid
      reference_bit := ptr_swapped_in.reference_bit
      retAddr := ptr_swapped_in.offset_p }
  let table := table.setFrame offset_out fun node =>
    { node with
      retAddr := if type = 1 then temp3 else -1
      threadid := temp1
      reference_bit := temp2 }
  { s with table := table, memory := memory }.mprotect offset_in .PROT_NONE

/-- `swapFileGrab`: exchange a frame with a page of the swap file. No call fails, otherwise
the process exits, but the read comes back short for a page behind the end of the file. -/
def swapFileGrab (s : State Page) (offset_out offset_in : ℕ) : State Page :=
  let temp := s.swapFile.read offset_in (s.stack 0)
  let s := s.mprotect offset_out .PROT_READ_WRITE
  let swapFile := s.swapFile.write offset_in (s.memory offset_out)
  let memory := Function.update s.memory offset_out temp
  let ptr_swapped_in := s.table.frames offset_out
  let temp2 := (s.table.slots offset_in).threadid
  let table := s.table.setSlot offset_in fun node =>
    { node with retAddr := ptr_swapped_in.offset_p, threadid := ptr_swapped_in.threadid }
  let table := table.setFrame offset_out fun node =>
    { node with retAddr := -1, threadid := temp2 }
  { s with
    table := table
    memory := memory
    swapFile := swapFile
    stack := fun n => s.stack (n + 1) }

/-- The frame nodes after an exchange of two frames. -/
theorem swapPage_frames (s : State Page) (a b type n : ℕ) :
    (swapPage s a b type).table.frames n =
      if n = a then
        { s.table.frames b with
          offset_p := a, retAddr := if type = 1 then (s.table.frames b).retAddr else -1 }
      else if n = b then { s.table.frames a with offset_p := b, retAddr := a }
      else s.table.frames n := by
  simp only [swapPage, State.mprotect, Table.setFrame_frames, Table.frame_offset]

/-- The pages in memory after an exchange of two frames. -/
theorem swapPage_memory (s : State Page) (a b type n : ℕ) :
    (swapPage s a b type).memory n =
      if n = b then s.memory a else if n = a then s.memory b else s.memory n := by
  simp only [swapPage, State.mprotect, Function.update_apply]

@[simp] theorem swapPage_swapFile (s : State Page) (a b type : ℕ) :
    (swapPage s a b type).swapFile = s.swapFile := rfl

@[simp] theorem swapPage_stack (s : State Page) (a b type : ℕ) :
    (swapPage s a b type).stack = s.stack := rfl

@[simp] theorem swapPage_slots (s : State Page) (a b type : ℕ) :
    (swapPage s a b type).table.slots = s.table.slots := rfl

@[simp] theorem swapPage_currThread (s : State Page) (a b type : ℕ) :
    (swapPage s a b type).currThread = s.currThread := rfl

/-- The step of the clock hand, which wraps after the last frame. -/
def Table.nextPosition (t : Table) (n : ℕ) : ℕ :=
  if (t.frames n).offset_p = 1599 then 0 else n + 1

/-- The first test of an iteration of `evictPage`: pass over one frame of the
running thread. -/
def State.skipOwn (s : State Page) : ℕ :=
  if (s.table.frames s.free_list_position).threadid = s.currThread then
    s.table.nextPosition s.free_list_position
  else s.free_list_position

/-- The loop of `evictPage`, cut after `fuel` iterations. -/
def evictLoop : ℕ → State Page → Option (ℕ × State Page)
  | 0, _ => none
  | fuel + 1, s =>
    let position := s.skipOwn
    if (s.table.frames position).reference_bit then
      evictLoop fuel
        { s with
          table := s.table.setFrame position fun node => { node with reference_bit := false }
          free_list_position := s.table.nextPosition position }
    else
      some ((s.table.frames position).offset_p,
        { s with free_list_position := s.table.nextPosition position })

/-- `evictPage`. An iteration that does not return clears a reference bit, so
one more iteration than there are frames is enough. -/
def evictPage (s : State Page) : Option (ℕ × State Page) := evictLoop (frameCount + 1) s

end SimpleOs.Paging
