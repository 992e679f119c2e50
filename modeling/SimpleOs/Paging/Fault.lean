import SimpleOs.Paging.Table

/-!
# The page fault handler and the protection scan

`pageFaultHandler` serves an access of the running thread, and `protectPages`
closes the frames of a thread when it leaves the processor or exits. A result
`none` means that the process has exited.
-/

namespace SimpleOs.Paging

/-- The page size for which the regions are laid out. -/
def PAGE_SIZE : ℕ := 4096

variable {Page : Type*}

/-- A scan of the frame nodes: the first of the 1600 that passes the test. -/
def State.findFrame (s : State Page) (test : PageNode → Bool) : Option ℕ :=
  (List.range frameCount).find? fun n => test (s.table.frames n)

/-- A scan of the swap nodes: the first of the 3900 that passes the test. -/
def State.findSlot (s : State Page) (test : PageNode → Bool) : Option ℕ :=
  (List.range slotCount).find? fun k => test (s.table.slots k)

/-- The test of both scans for a page of the running thread whose home is
the wanted frame. -/
def State.returnsTo (s : State Page) (offset_p : ℕ) (node : PageNode) : Bool :=
  decide (node.threadid = s.currThread ∧ node.retAddr = offset_p)

/-- The test of both scans for a free node. -/
def isFree (node : PageNode) : Bool := decide (node.threadid = 0)

/-- Bring a page of the swap file to frame `offset_p` after a victim was chosen.
A victim elsewhere is put in the wanted frame first. -/
def exchangeVictim (s : State Page) (offset_p offsetToEvict slot : ℕ) : State Page :=
  if offset_p = offsetToEvict then
    swapFileGrab s offset_p slot
  else
    swapFileGrab (swapPage s offset_p offsetToEvict 1) offset_p slot

/-- The store `reference_bit = 1` that marks a frame as accessed. -/
def State.touchFrame (s : State Page) (n : ℕ) : State Page :=
  { s with table := s.table.setFrame n fun node => { node with reference_bit := true } }

/-- The store `reference_bit = 1` on a swap node. -/
def State.touchSlot (s : State Page) (k : ℕ) : State Page :=
  { s with table := s.table.setSlot k fun node => { node with reference_bit := true } }

/-- The stores that give a free frame to the running thread. -/
def State.claimFrame (s : State Page) (n : ℕ) : State Page :=
  { s with table := s.table.setFrame n fun node =>
      { node with threadid := s.currThread, reference_bit := true } }

/-- The stores that give a free page of the swap file to the running thread. -/
def State.claimSlot (s : State Page) (k : ℕ) : State Page :=
  { s with table := s.table.setSlot k fun node =>
      { node with threadid := s.currThread, reference_bit := true } }

/-- The last resort of the handler: evict a victim to a free page of the swap
file. When there is none, the handler returns with only the clock moved. -/
def serveByEviction (s : State Page) (ptr : PageNode) : Option (State Page) :=
  (evictPage s).map fun (offsetToEvict, s) =>
    match s.findSlot isFree with
    | some slot => exchangeVictim (s.claimSlot slot) ptr.offset_p offsetToEvict slot
    | none => s

/-- The handler for a page the thread has nowhere: take the wanted frame, or
any free frame, or evict. -/
def serveNewPage (s : State Page) (ptr : PageNode) : Option (State Page) :=
  if ptr.threadid = 0 then
    some ((s.mprotect ptr.offset_p .PROT_READ_WRITE).claimFrame ptr.offset_p)
  else
    match s.findFrame isFree with
    | some n => some (swapPage (s.claimFrame n) ptr.offset_p n 0)
    | none => serveByEviction s ptr

/-- The handler from the check of the page count on, for a fault in page
`page`; the loop counter `i` is then `page + 1`. -/
def servePage (s : State Page) (page : ℕ) : Option (State Page) :=
  let ptr := s.table.frames page
  if s.thread_page_count s.currThread < (page + 1 : ℕ) then none
  else if ptr.threadid = s.currThread ∧ ptr.retAddr = -1 then
    some ((s.touchFrame page).mprotect ptr.offset_p .PROT_READ_WRITE)
  else
    match s.findFrame (s.returnsTo ptr.offset_p) with
    | some n => some (swapPage (s.touchFrame n) ptr.offset_p n 0)
    | none =>
      match s.findSlot (s.returnsTo ptr.offset_p) with
      | some slot =>
        (evictPage (s.touchSlot slot)).map fun (offsetToEvict, s) =>
          exchangeVictim s ptr.offset_p offsetToEvict slot
      | none => serveNewPage s ptr

/-- The loop that finds the page of a fault: the first `i` whose page starts
after the address. -/
def faultIndex (seg_fault_addr : ℕ) : Option ℕ :=
  (List.range (frameCount + 1)).find? fun i => decide (seg_fault_addr < i * PAGE_SIZE)

/-- `pageFaultHandler`, for an address given as its offset from
`schedulerEnd`. An address outside the thread pages ends the process. The
address `end` itself lies in no page and is left out. -/
def pageFaultHandler (s : State Page) (seg_fault_addr : ℕ) : Option (State Page) :=
  match faultIndex seg_fault_addr with
  | some (page + 1) => servePage s page
  | _ => none

/-- The body of the scan in `protectPages` for a frame of the thread. An exiting
thread's page is zeroed and its node freed. -/
def protectFrame [Zero Page] (s : State Page) (n : ℕ) (exiting : Bool) : State Page :=
  let s := s.mprotect n .PROT_READ_WRITE
  let s :=
    if exiting then
      { s with
        memory := Function.update s.memory n 0
        table := s.table.setFrame n fun node => { node with threadid := 0, retAddr := -1 } }
    else s
  s.mprotect n .PROT_NONE

/-- The scan of `protectPages` over `remaining` frames from frame `i` on. It
stops at the first free frame. -/
def protectFrom [Zero Page] (s : State Page) (threadID : ℕ) (exiting : Bool) :
    (i remaining : ℕ) → State Page
  | _, 0 => s
  | i, remaining + 1 =>
    if (s.table.frames i).threadid ≠ 0 then
      let s := if (s.table.frames i).threadid = threadID then protectFrame s i exiting else s
      protectFrom s threadID exiting (i + 1) remaining
    else s

/-- `protectPages`: the scan, and for an exiting thread the return of its pages. -/
def protectPages [Zero Page] (s : State Page) (threadID : ℕ) (exiting : Bool) : State Page :=
  let s := protectFrom s threadID exiting 0 frameCount
  if exiting then
    { s with
      pagesLeft := s.pagesLeft + s.thread_page_count threadID
      thread_page_count := Function.update s.thread_page_count threadID 0 }
  else s

/-- An address inside the thread pages faults in the page that contains it. -/
theorem pageFaultHandler_eq (s : State Page) {page offset : ℕ} (hpage : page < frameCount)
    (hoffset : offset < PAGE_SIZE) :
    pageFaultHandler s (page * PAGE_SIZE + offset) = servePage s page := by
  have hnext : page * PAGE_SIZE + offset < (page + 1) * PAGE_SIZE := by
    rw [Nat.succ_mul]
    omega
  have hindex : faultIndex (page * PAGE_SIZE + offset) = some (page + 1) := by
    refine List.find?_range_eq_some.mpr ⟨decide_eq_true hnext, ?_, fun j hj => ?_⟩
    · exact List.mem_range.mpr (by omega)
    · have hle : j * PAGE_SIZE ≤ page * PAGE_SIZE := Nat.mul_le_mul_right _ (by omega)
      simpa using hle.trans (Nat.le_add_right _ offset)
  unfold pageFaultHandler
  rw [hindex]

/-- A successful scan of the frames returns the first frame that passes. -/
theorem State.findFrame_eq_some {s : State Page} {test : PageNode → Bool} {n : ℕ} :
    s.findFrame test = some n ↔
      test (s.table.frames n) = true ∧ n < frameCount ∧
        ∀ m < n, test (s.table.frames m) = false := by
  simp [State.findFrame, List.find?_range_eq_some]

/-- A scan of the frames fails exactly when no frame passes. -/
theorem State.findFrame_eq_none {s : State Page} {test : PageNode → Bool} :
    s.findFrame test = none ↔ ∀ n < frameCount, test (s.table.frames n) = false := by
  simp [State.findFrame]

/-- A successful scan of the swap nodes returns the first slot that passes. -/
theorem State.findSlot_eq_some {s : State Page} {test : PageNode → Bool} {k : ℕ} :
    s.findSlot test = some k ↔
      test (s.table.slots k) = true ∧ k < slotCount ∧
        ∀ m < k, test (s.table.slots m) = false := by
  simp [State.findSlot, List.find?_range_eq_some]

/-- A scan of the swap nodes fails exactly when no slot passes. -/
theorem State.findSlot_eq_none {s : State Page} {test : PageNode → Bool} :
    s.findSlot test = none ↔ ∀ k < slotCount, test (s.table.slots k) = false := by
  simp [State.findSlot]

/-- A page the thread has nowhere is served from its own frame when that is free. -/
theorem servePage_eq_claim {s : State Page} {p : ℕ}
    (hcount : (p + 1 : ℕ) ≤ s.thread_page_count s.currThread)
    (hfree : (s.table.frames p).threadid = 0) (hcurr : s.currThread ≠ 0)
    (hframes : ∀ n < frameCount, s.returnsTo p (s.table.frames n) = false)
    (hslots : ∀ k < slotCount, s.returnsTo p (s.table.slots k) = false) :
    servePage s p = some ((s.mprotect p .PROT_READ_WRITE).claimFrame p) := by
  have hown : ¬ ((s.table.frames p).threadid = s.currThread ∧
      (s.table.frames p).retAddr = -1) := by
    rintro ⟨heq, _⟩
    exact hcurr (by rw [← heq, hfree])
  have hframe : s.findFrame (s.returnsTo p) = none := State.findFrame_eq_none.mpr hframes
  have hslot : s.findSlot (s.returnsTo p) = none := State.findSlot_eq_none.mpr hslots
  simp only [servePage, Table.frame_offset, if_neg (not_lt.mpr hcount), if_neg hown, hframe, hslot,
    serveNewPage, if_pos hfree]

/-- A page the thread has nowhere displaces the page of its frame to the first
free frame. -/
theorem servePage_eq_displace {s : State Page} {p q : ℕ}
    (hcount : (p + 1 : ℕ) ≤ s.thread_page_count s.currThread)
    (hocc : (s.table.frames p).threadid ≠ 0)
    (hother : (s.table.frames p).threadid ≠ s.currThread)
    (hframes : ∀ n < frameCount, s.returnsTo p (s.table.frames n) = false)
    (hslots : ∀ k < slotCount, s.returnsTo p (s.table.slots k) = false)
    (hq : s.findFrame isFree = some q) :
    servePage s p = some (swapPage (s.claimFrame q) p q 0) := by
  have hframe : s.findFrame (s.returnsTo p) = none := State.findFrame_eq_none.mpr hframes
  have hslot : s.findSlot (s.returnsTo p) = none := State.findSlot_eq_none.mpr hslots
  simp only [servePage, Table.frame_offset, if_neg (not_lt.mpr hcount), hother, false_and,
    if_false, hframe, hslot, serveNewPage, if_neg hocc, hq]

end SimpleOs.Paging
