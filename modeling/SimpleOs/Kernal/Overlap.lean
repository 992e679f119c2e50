import SimpleOs.Heap.Interference
import SimpleOs.Kernal.Allocation
import SimpleOs.Kernal.Nodes
import SimpleOs.Library.Runs
import SimpleOs.Paging.Labels

/-!
# The page nodes and the scheduler's region

The page nodes take 88000 bytes from `MEMSPACE` on, but the scheduler's region begins behind
18 pages. The swap nodes from number 3008 on are in the region, and the first allocation of
the scheduler writes its header over two of them.
-/

namespace SimpleOs.Kernal

open Bytes Heap AllocNode
open Paging (PageNode Table State)

variable {Page : Type*} {L : Layout} {m m' : Memory} {t : Table} {s s' : State Page}
  {a c i j p n size fuel : ℕ}

/-! ## Allocation of the scheduler -/

/-- `myallocate` with `LIBRARYREQ`, when the regions are set up. The protection of the pages of
the running thread is left out. -/
def myallocate (L : Layout) (fuel : ℕ) (m : Memory) (size : ℕ) : Option (Memory × Option ℕ) :=
  if size = 0 then some (m, none) else schedulerallocate L fuel m size

/-- The checks of `mydeallocate` with `LIBRARYREQ` that turn a pointer away. -/
def TurnedAway (L : Layout) (m : Memory) (ptr : ℕ) : Prop :=
  (ptr < L.kernalEnd ∨ L.schedulerEnd ≤ ptr) ∨ get m (ptr - AllocNode.size) signature ≠ valid ∨
    get m (ptr - AllocNode.size) inUse = 0

instance (L : Layout) (m : Memory) (ptr : ℕ) : Decidable (TurnedAway L m ptr) :=
  inferInstanceAs (Decidable (_ ∨ _ ∨ _))

/-- `mydeallocate` with `LIBRARYREQ`, when the regions are set up. -/
def mydeallocate (L : Layout) (fuel : ℕ) (m : Memory) (ptr : ℕ) : Option Memory :=
  let currNode := ptr - AllocNode.size
  if TurnedAway L m ptr then some m
  else (mergePrev fuel (set m currNode inUse 0) currNode).bind fun (m, currNode) =>
    (mergeNext fuel m currNode).map fun m => deleteLast m currNode

/-! ## Runs -/

/-- The bytes from `MEMSPACE` to `schedulerEnd`, and the blocks that the scheduler has. -/
structure KernalSpace where
  /-- The bytes of the memory with the page nodes and the scheduler's region. -/
  mem : Memory
  /-- The payloads that were returned and not freed, with their sizes. -/
  payloads : List (ℕ × ℕ)

/-- What is done in the two regions. -/
inductive KernalEvent (Page : Type*) where
  /-- A call of `myallocate` with `LIBRARYREQ`. -/
  | allocate (size : ℕ)
  /-- A call of `mydeallocate` with `LIBRARYREQ`. -/
  | deallocate (ptr : ℕ)
  /-- A write into a payload. -/
  | write (a : ℕ) (v : UInt8)
  /-- A page fault, with the pages, the counters, the hand and the running thread at that
  time. -/
  | fault (s : State Page) (seg_fault_addr : ℕ)

/-- One event. The fault handler reads the table that the page nodes encode. -/
def KernalStep (L : Layout) (k : KernalSpace) (e : KernalEvent Page) (k' : KernalSpace) : Prop :=
  match e with
  | .allocate size => ∃ fuel result, myallocate L fuel k.mem size = some (k'.mem, result) ∧
      k'.payloads = (result.map fun ptr => (ptr, size)).toList ++ k.payloads
  | .deallocate ptr => ∃ fuel, mydeallocate L fuel k.mem ptr = some k'.mem ∧
      k'.payloads = k.payloads.filter fun block => block.1 ≠ ptr
  | .write a v => (∃ block ∈ k.payloads, block.1 ≤ a ∧ a < block.1 + block.2) ∧
      k' = { k with mem := Function.update k.mem a v }
  | .fault s seg_fault_addr => Encodes L k.mem s.table ∧
      ∃ s', Paging.pageFaultHandler s seg_fault_addr = some s' ∧
        k' = { k with mem := writeTable L s'.table k.mem }

/-- The memory after `buildKernalSpace`, with no block of the scheduler yet. -/
def KernalStart (L : Layout) (k : KernalSpace) : Prop := ∃ m, k = ⟨buildKernalSpace L m, []⟩

/-- No field of any of the page nodes changes. -/
def NodesKept (L : Layout) (m m' : Memory) : Prop :=
  ∀ i < nodeCount, ∀ f ∈ Node.fields, get m' (nodeAddr L i) f = get m (nodeAddr L i) f

/-- No byte of the scheduler's region changes. -/
def RegionKept (L : Layout) (m m' : Memory) : Prop :=
  ∀ c, L.kernalEnd ≤ c → c < L.schedulerEnd → m' c = m c

/-- The page nodes are not changed by the scheduler, nor its region by the fault handler. -/
def KeepsApart (L : Layout) (m : Memory) (e : KernalEvent Page) (m' : Memory) : Prop :=
  match e with
  | .fault _ _ => RegionKept L m m'
  | _ => NodesKept L m m'

/-- The page of the swap file that the fault handler exchanges with a frame: one of the
running thread, or a free one if the thread has the page nowhere and no frame is free. -/
def slotOf (s : State Page) (page : ℕ) : Option ℕ :=
  let ptr := s.table.frames page
  if ptr.threadid = s.currThread ∧ ptr.retAddr = -1 then none
  else if (s.findFrame (s.returnsTo ptr.offset_p)).isSome then none
  else if (s.findSlot (s.returnsTo ptr.offset_p)).isSome then
    s.findSlot (s.returnsTo ptr.offset_p)
  else if ptr.threadid = 0 ∨ (s.findFrame Paging.isFree).isSome then none
  else s.findSlot Paging.isFree

/-- The condition: the scheduler allocates nothing, and frees nothing, and the fault handler
uses the swap nodes before its region only. -/
def StaysOut (L : Layout) (k : KernalSpace) (e : KernalEvent Page) : Prop :=
  match e with
  | .allocate size => size = 0
  | .deallocate ptr => TurnedAway L k.mem ptr
  | .write _ _ => True
  | .fault s seg_fault_addr => ∀ page, Paging.faultIndex seg_fault_addr = some (page + 1) →
      ∀ slot, slotOf s page = some slot → slot < 3008

/-- The states reached by events that meet `ok`. -/
def KernalReach (L : Layout) (ok : KernalSpace → KernalEvent Page → Prop) : KernalSpace → Prop :=
  Runs.Reach (KernalStart L) (KernalStep L) ok

/-! ## The fault handler -/

/-- The swap nodes that are not exchanged do not change. -/
theorem servePage_slots (h : Paging.servePage s p = some s') (hn : slotOf s p ≠ some n) :
    s'.table.slots n = s.table.slots n := by
  have hevict {s s' : State Page} {e : ℕ} (h : Paging.evictPage s = some (e, s')) :
      s'.table.slots = s.table.slots := by
    obtain ⟨_, bit, rfl, _⟩ := Paging.evictPage_eq_some h
    rfl
  have hexchange {s : State Page} {e slot : ℕ} (hslot : n ≠ slot) :
      (Paging.exchangeVictim s p e slot).table.slots n = s.table.slots n := by
    rw [Paging.exchangeVictim_slots, if_neg hslot]
  unfold Paging.servePage at h
  unfold slotOf at hn
  simp only [Table.frame_offset] at h hn
  split at h
  · cases h
  split at h
  · cases h
    rfl
  rename_i hown
  rw [if_neg hown] at hn
  split at h
  · cases h
    rfl
  rename_i hframe
  rw [hframe] at hn
  split at h
  · rename_i slot hslot
    obtain ⟨⟨e, s₁⟩, hs₁, rfl⟩ := Option.map_eq_some_iff.mp h
    rw [hslot] at hn
    have hne : n ≠ slot := fun heq => hn (by simp [heq])
    rw [hexchange hne, hevict hs₁]
    simp [State.touchSlot, hne]
  rename_i hslot
  rw [hslot] at hn
  unfold Paging.serveNewPage at h
  split at h
  · cases h
    rfl
  rename_i hocc
  split at h
  · cases h
    rfl
  rename_i hfull
  rw [hfull] at hn
  obtain ⟨⟨e, s₁⟩, hs₁, h⟩ := Option.map_eq_some_iff.mp h
  have hfind : s₁.findSlot Paging.isFree = s.findSlot Paging.isFree := by
    unfold State.findSlot
    rw [hevict hs₁]
  dsimp only at h
  rw [hfind] at h
  cases hfree : s.findSlot Paging.isFree with
  | none =>
    rw [hfree] at h
    rw [← h, hevict hs₁]
  | some slot =>
    rw [hfree] at h
    have hne : n ≠ slot := by
      rintro rfl
      exact hn (by simp [hocc, hfree])
    rw [← h, Table.frame_offset, hexchange hne]
    simp [State.claimSlot, hne, hevict hs₁]

/-- The scheduler's region begins with page node 4608. -/
theorem kernalEnd_eq (hpage : L.PAGE_SIZE = 4096) : L.kernalEnd = nodeAddr L 4608 := by
  unfold Layout.kernalEnd nodeAddr Node.size
  omega

/-- A fault that uses other swap nodes does not change the scheduler's region. -/
theorem writeTable_region (hpage : L.PAGE_SIZE = 4096) (hencodes : Encodes L m s.table)
    (h : Paging.servePage s p = some s') (hslot : ∀ slot, slotOf s p = some slot → slot < 3008) :
    RegionKept L m (writeTable L s'.table m) := by
  intro c hc _
  rw [kernalEnd_eq hpage] at hc
  refine writeNodes_apply (fun i hi hlt => ?_) hc
  have hframe : ¬ i < Paging.frameCount := by
    unfold Paging.frameCount
    omega
  have hnode := hencodes i hlt
  have hother : slotOf s p ≠ some (i - Paging.frameCount) := by
    intro heq
    have hlow := hslot _ heq
    unfold Paging.frameCount at hlow
    omega
  rw [nodeOf, if_neg hframe] at hnode ⊢
  rwa [servePage_slots h hother]

/-! ## The scheduler -/

/-- The first byte of the signature that `schedulerallocate` reads first. It belongs to the
home in page node 4609. -/
def signatureAddr (L : Layout) : ℕ := L.kernalEnd + signature.offset

/-- The signature is not that of a header. -/
theorem signature_invalid (h : m (signatureAddr L) = 255) :
    get m L.kernalEnd signature ≠ valid := by
  have hload : get m L.kernalEnd signature =
      (m (signatureAddr L)).toNat + 256 * load m (signatureAddr L + 1) 1 := rfl
  rw [hload, h]
  change 255 + 256 * _ ≠ 3233
  omega

/-- Where the signature is in page node 4609. -/
theorem signatureAddr_eq (hpage : L.PAGE_SIZE = 4096) :
    signatureAddr L = nodeAddr L 4609 + Node.retAddr.offset := by
  rw [signatureAddr, kernalEnd_eq hpage]
  rfl

/-- A home of -1 has no other bytes than 255. -/
theorem signature_of_home (hpage : L.PAGE_SIZE = 4096)
    (h : get m (nodeAddr L 4609) Node.retAddr = word (-1)) : m (signatureAddr L) = 255 := by
  have hones : load m (nodeAddr L 4609 + 8) 4 = load (fun _ => (255 : UInt8)) 0 4 := h.trans rfl
  rw [signatureAddr_eq hpage]
  have hshift : load (fun _ => (255 : UInt8)) 0 4 =
      load (fun _ => (255 : UInt8)) (nodeAddr L 4609 + 8) 4 := load_eq_of_eq fun _ _ => rfl
  exact eq_of_load_eq (hones.trans hshift) le_rfl (Nat.lt_add_of_pos_right (by decide))

/-- The first allocation writes the signature of its header over a page node. -/
theorem allocate_changes (hpage : L.PAGE_SIZE = 4096) (hbyte : m (signatureAddr L) = 255)
    {result : Option ℕ} (hsize : size ≠ 0)
    (h : myallocate L fuel m size = some (m', result)) : ¬ NodesKept L m m' := by
  have hinvalid : get m (schedulerRegion L).head signature ≠ valid := signature_invalid hbyte
  have hsignature : get m' L.kernalEnd signature = valid := by
    rw [myallocate, if_neg hsize, schedulerallocate, regionAllocate, if_pos hinvalid] at h
    simp only at h
    split at h
    · obtain ⟨rfl, _⟩ := Prod.mk.inj (Option.some.inj h)
      exact markHead_signature
    · obtain ⟨rfl, _⟩ := Prod.mk.inj (Option.some.inj h)
      exact (get_set_of_disjoint (by decide)).trans ((get_set_of_disjoint (by decide)).trans
        markHead_signature)
  intro hkept
  have hhome := hkept 4609 (by decide) Node.retAddr (by decide)
  refine signature_invalid ?_ hsignature
  rw [← hbyte]
  rw [signatureAddr_eq hpage]
  exact eq_of_load_eq hhome le_rfl (Nat.lt_add_of_pos_right (by decide))

/-! ## The result -/

/-- The scheduler has no blocks, and its region was not changed where its first header will
be. -/
structure Untouched (L : Layout) (k : KernalSpace) : Prop where
  /-- The scheduler has no blocks yet. -/
  payloads : k.payloads = []
  /-- The first byte of the signature. -/
  byte : k.mem (signatureAddr L) = 255

/-- After `buildKernalSpace` the scheduler's region is untouched. -/
theorem KernalStart.untouched {k : KernalSpace} (hpage : L.PAGE_SIZE = 4096)
    (h : KernalStart L k) : Untouched L k := by
  obtain ⟨m, rfl⟩ := h
  refine ⟨rfl, signature_of_home hpage ?_⟩
  have hnode : IsNode (buildKernalSpace L m) (nodeAddr L 4609) _ :=
    encodes_buildKernalSpace 4609 (by decide)
  exact hnode.retAddr

/-- An event that meets the condition keeps the page nodes and the scheduler's region apart. -/
theorem KernalStep.untouched {k k' : KernalSpace} {e : KernalEvent Page}
    (hpage : L.PAGE_SIZE = 4096) (h : Untouched L k) (hok : StaysOut L k e)
    (hstep : KernalStep L k e k') : KeepsApart L k.mem e k'.mem ∧ Untouched L k' := by
  have hsignature : L.kernalEnd ≤ signatureAddr L ∧ signatureAddr L < L.schedulerEnd := by
    unfold signatureAddr Layout.schedulerEnd
    simp only [signature]
    omega
  cases e with
  | allocate size =>
    obtain ⟨fuel, result, hrun, hpayloads⟩ := hstep
    obtain rfl : size = 0 := hok
    rw [myallocate, if_pos rfl] at hrun
    obtain ⟨hmem, rfl⟩ := Prod.mk.inj (Option.some.inj hrun)
    constructor
    · intro i _ f _
      rw [hmem]
    · refine ⟨?_, hmem ▸ h.byte⟩
      rw [hpayloads, h.payloads]
      rfl
  | deallocate ptr =>
    obtain ⟨fuel, hrun, hpayloads⟩ := hstep
    have haway : TurnedAway L k.mem ptr := hok
    rw [mydeallocate, if_pos haway] at hrun
    have hmem := Option.some.inj hrun
    constructor
    · intro i _ f _
      rw [hmem]
    · refine ⟨?_, hmem ▸ h.byte⟩
      rw [hpayloads, h.payloads]
      rfl
  | write a v =>
    obtain ⟨⟨block, hblock, _⟩, _⟩ := hstep
    rw [h.payloads] at hblock
    exact absurd hblock (by simp)
  | fault s seg_fault_addr =>
    obtain ⟨hencodes, s', hrun, rfl⟩ := hstep
    unfold Paging.pageFaultHandler at hrun
    split at hrun
    · rename_i page hindex
      have hkept : RegionKept L k.mem (writeTable L s'.table k.mem) :=
        writeTable_region hpage hencodes hrun (hok page hindex)
      refine ⟨hkept, h.payloads, ?_⟩
      rw [← h.byte]
      exact hkept _ hsignature.1 hsignature.2
    · exact absurd hrun (by simp)

/-- The page nodes and the scheduler's region are kept apart in every run in which the scheduler
has no blocks and the fault handler uses the swap nodes before the region only; and in such a
run the next allocation of the scheduler changes no page node only if it is for no bytes. -/
theorem regions_apart (L : Layout) (hpage : L.PAGE_SIZE = 4096) (k : KernalSpace)
    (h : KernalReach L (@StaysOut Page L) k) :
    (∀ (e : KernalEvent Page) (k' : KernalSpace), StaysOut L k e → KernalStep L k e k' →
      KeepsApart L k.mem e k'.mem) ∧
    ∀ size k', KernalStep L k (.allocate size : KernalEvent Page) k' →
      (NodesKept L k.mem k'.mem ↔ size = 0) := by
  have hk : Untouched L k :=
    h.invariant (fun _ hs => hs.untouched hpage) fun _ _ _ hs hok hstep =>
      (hstep.untouched hpage hs hok).2
  refine ⟨fun e k' hok hstep => (hstep.untouched hpage hk hok).1, fun size k' hstep => ?_⟩
  constructor
  · intro hkept
    by_contra hsize
    obtain ⟨fuel, result, hrun, _⟩ := hstep
    exact allocate_changes hpage hk.byte hsize hrun hkept
  · intro hsize
    have hok : StaysOut L k (.allocate size : KernalEvent Page) := hsize
    exact (hstep.untouched hpage hk hok).1

/-! ## Runs on given inputs -/

/-- The memory after `buildKernalSpace`, when all bytes were zero. -/
def builtSpace : KernalSpace := ⟨buildKernalSpace sampleLayout fun _ => 0, []⟩

/-- Thread 1 may use one page. -/
def builtPages : State Unit :=
  { Paging.buildKernalSpace (fun _ => ()) ⟨fun _ => (), 436⟩ fun _ => () with
    thread_page_count := fun _ => 1 }

/-- The first fault of thread 1 gives it page 0. -/
theorem builtPages_fault : Paging.pageFaultHandler builtPages 0 =
    some ((builtPages.mprotect 0 .PROT_READ_WRITE).claimFrame 0) := by
  have hfault : Paging.pageFaultHandler builtPages (0 * Paging.PAGE_SIZE + 0) =
      Paging.servePage builtPages 0 := Paging.pageFaultHandler_eq builtPages (by decide) (by decide)
  rw [Nat.zero_mul, Nat.zero_add] at hfault
  rw [hfault]
  exact Paging.servePage_eq_claim (by decide) rfl (by decide) (fun _ _ => rfl) fun _ _ => rfl

/-- No page of the swap file is used. -/
theorem builtPages_slotOf (page : ℕ) : slotOf builtPages page = none := by
  have hslot : builtPages.findSlot (builtPages.returnsTo page) = none :=
    State.findSlot_eq_none.mpr fun _ _ => rfl
  have hframe : builtPages.findFrame (builtPages.returnsTo page) = none :=
    State.findFrame_eq_none.mpr fun _ _ => rfl
  have hfree : (builtPages.table.frames page).threadid = 0 := rfl
  unfold slotOf
  simp only [Table.frame_offset, hslot, hframe, hfree, true_or, if_true]
  simp

/-- The theorem after the first fault of thread 1. -/
theorem regions_apart_firstFault : ∃ k : KernalSpace,
    KernalReach sampleLayout (@StaysOut Unit sampleLayout) k ∧
      get k.mem (nodeAddr sampleLayout 0) Node.threadid = 1 ∧
      ∀ size k', KernalStep sampleLayout k (.allocate size : KernalEvent Unit) k' →
        (NodesKept sampleLayout k.mem k'.mem ↔ size = 0) := by
  have hstep : KernalStep sampleLayout builtSpace (.fault builtPages 0)
      ⟨writeTable sampleLayout
        ((builtPages.mprotect 0 .PROT_READ_WRITE).claimFrame 0).table builtSpace.mem, []⟩ :=
    ⟨encodes_buildKernalSpace, _, builtPages_fault, rfl⟩
  have hok : StaysOut sampleLayout builtSpace (.fault builtPages 0) := by
    intro page _ slot hslot
    rw [builtPages_slotOf] at hslot
    exact absurd hslot (by simp)
  have hreach : KernalReach sampleLayout (@StaysOut Unit sampleLayout) _ :=
    .step (.start ⟨_, rfl⟩) hok hstep
  refine ⟨_, hreach, ?_, (regions_apart sampleLayout rfl _ hreach).2⟩
  have hnode : IsNode (writeTable sampleLayout
      ((builtPages.mprotect 0 .PROT_READ_WRITE).claimFrame 0).table builtSpace.mem)
      (nodeAddr sampleLayout 0) _ :=
    encodes_writeTable (fun i _ => ?_) (fun i _ => ?_) 0 (by decide)
  · exact hnode.threadid
  all_goals
    unfold nodeOf
    simp only [State.claimFrame, State.mprotect, builtPages, Paging.buildKernalSpace]
    split <;> simp
    split <;> simp

/-- The first allocation of the scheduler changes page node 4609. -/
theorem page_node_overwritten : ∃ k k' : KernalSpace, KernalStart sampleLayout k ∧
    KernalStep sampleLayout k (.allocate 8 : KernalEvent Unit) k' ∧
    ¬ NodesKept sampleLayout k.mem k'.mem := by
  have hbyte :=
    (KernalStart.untouched rfl ⟨fun _ => 0, rfl⟩ : Untouched sampleLayout builtSpace).byte
  have hrun : ∃ m' result, myallocate sampleLayout 0 builtSpace.mem 8 = some (m', result) := by
    have hinvalid : get builtSpace.mem (schedulerRegion sampleLayout).head signature ≠ valid :=
      signature_invalid hbyte
    rw [myallocate, if_neg (by decide), schedulerallocate, regionAllocate, if_pos hinvalid,
      if_neg (by decide)]
    exact ⟨_, _, rfl⟩
  obtain ⟨m', result, hrun⟩ := hrun
  exact ⟨builtSpace, ⟨m', _⟩, ⟨fun _ => 0, rfl⟩, ⟨0, result, hrun, rfl⟩,
    allocate_changes rfl hbyte (by decide) hrun⟩

end SimpleOs.Kernal
