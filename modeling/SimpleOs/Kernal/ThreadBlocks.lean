import SimpleOs.Kernal.Bounds
import SimpleOs.Threads.Calls

/-!
# The blocks of a new thread

`my_pthread_create` of `Memory_Manager` takes four blocks for a new thread from the
scheduler's region. If the second or the fourth is refused it returns `EAGAIN` and keeps the
ones before, and if the third is refused it writes through `NULL`.
-/

namespace SimpleOs.Kernal

open Bytes Heap AllocNode

variable {L : Layout} {σ σ' : Allocations} {s s' : Threads.Queues} {m m' : Memory}
  {a p k size fuel sizeof_ucontext_t : ℕ} {contents : ℕ → Memory} {bs : List Block}

/-! ## The allocations -/

/-- The size of a stack, `FIBER_STACK`. -/
def FIBER_STACK : ℕ := 1024 * 64

/-- The size of the priority queues, `sizeof(mpq)`: six pointers. -/
def sizeof_mpq : ℕ := 48

/-- The size of a mutex, `sizeof(my_pthread_mutex_t)`: two `int`. -/
def sizeof_my_pthread_mutex_t : ℕ := 8

/-- `sizeof(tcb)`: a pointer and four numbers of 4 bytes, aligned. -/
def sizeof_tcb : ℕ := 32

/-- The size of a list node, `sizeof(tcb_list)`: two pointers. -/
def sizeof_tcb_list : ℕ := 16

/-- `myallocate` with `LIBRARYREQ`. The block is in use from now on. -/
def Allocations.allocate (L : Layout) (fuel : ℕ) (σ : Allocations) (size : ℕ) :
    Option (Allocations × Option ℕ) :=
  (myallocate L fuel σ.mem size).map fun result =>
    ({ σ with
        mem := result.1
        scheduler := (result.2.map fun ptr => (ptr, size)).toList ++ σ.scheduler }, result.2)

/-- The library writes to a block. -/
def Allocations.fill (σ : Allocations) (ptr size : ℕ) (contents : Memory) : Allocations :=
  { σ with mem := fun a => if ptr ≤ a ∧ a < ptr + size then contents a else σ.mem a }

/-- The part of `my_pthread_create` that runs once. It exits if there is no stack for
`return_link`, and it writes to the mutex without a check. The answer is whether the creation
goes on. -/
def createPriorityQueue (L : Layout) (fuel : ℕ) (σ : Allocations) (s : Threads.Queues) :
    Option (Bool × Allocations × Threads.Queues) :=
  if s.priority_Queue then some (true, σ, s)
  else
    (σ.allocate L fuel FIBER_STACK).bind fun (σ, ss_sp) =>
      if ss_sp = none then none
      else
        (σ.allocate L fuel sizeof_mpq).bind fun (σ, priority_Queue) =>
          if priority_Queue = none then some (false, σ, s)
          else
            (σ.allocate L fuel sizeof_my_pthread_mutex_t).bind fun (σ, thread_count_mtx) =>
              if thread_count_mtx = none then none else some (true, σ, Threads.createQueues s)

/-- How the allocations of `my_pthread_create` end. -/
inductive Creation where
  /-- It gives up and returns `EAGAIN`. -/
  | EAGAIN
  /-- It goes on to enqueue the new node. -/
  | enqueue (newNode : ℕ)

/-- `my_pthread_create` up to the enqueueing of the new node. The contexts, the stack and the
control block are filled with `contents`. -/
def my_pthread_create (L : Layout) (sizeof_ucontext_t fuel : ℕ) (contents : ℕ → Memory)
    (σ : Allocations) (s : Threads.Queues) : Option (Creation × Allocations × Threads.Queues) :=
  (createPriorityQueue L fuel σ s).bind fun (created, σ, s) =>
    if created = false then some (.EAGAIN, σ, s)
    else
      (σ.allocate L fuel sizeof_ucontext_t).bind fun (σ, newthread) =>
        match newthread with
        | none => some (.EAGAIN, σ, s)
        | some newthread =>
          let σ := σ.fill newthread sizeof_ucontext_t (contents 0)
          (σ.allocate L fuel FIBER_STACK).bind fun (σ, ss_sp) =>
            match ss_sp with
            | none => some (.EAGAIN, σ, s)
            | some ss_sp =>
              let σ := (σ.fill newthread sizeof_ucontext_t (contents 1)).fill ss_sp FIBER_STACK
                (contents 2)
              (σ.allocate L fuel sizeof_tcb).bind fun (σ, newBlock) =>
                match newBlock with
                -- the result is not checked
                | none => none
                | some newBlock =>
                  let σ := σ.fill newBlock sizeof_tcb (contents 3)
                  let s := Threads.takeThreadId s
                  (σ.allocate L fuel sizeof_tcb_list).bind fun (σ, newNode) =>
                    match newNode with
                    | none => some (.EAGAIN, σ, s)
                    | some newNode => some (.enqueue newNode, σ, s)

/-- A request adds the block that it returns to those of the scheduler, and nothing if refused. -/
theorem Allocations.allocate_eq_some {result : Option ℕ}
    (h : σ.allocate L fuel size = some (σ', result)) :
    myallocate L fuel σ.mem size = some (σ'.mem, result) ∧
      σ'.scheduler = (result.map fun ptr => (ptr, size)).toList ++ σ.scheduler := by
  obtain ⟨⟨m, r⟩, hrun, heq⟩ := Option.map_eq_some_iff.mp h
  obtain ⟨rfl, rfl⟩ := Prod.mk.inj heq
  exact ⟨hrun, rfl⟩

@[simp] theorem Allocations.fill_scheduler {f : Memory} :
    (σ.fill p size f).scheduler = σ.scheduler := rfl

/-- The ways in which a creation returns `EAGAIN`, when the priority queues are there: one of
three requests is refused, after the ones before have been granted. -/
inductive Exhausted (L : Layout) (sizeof_ucontext_t fuel : ℕ) (contents : ℕ → Memory)
    (σ : Allocations) (s : Threads.Queues) : Allocations → Threads.Queues → Prop
  /-- There is no room for the context, the first block. -/
  | context {σ₁ : Allocations} : σ.allocate L fuel sizeof_ucontext_t = some (σ₁, none) →
      Exhausted L sizeof_ucontext_t fuel contents σ s σ₁ s
  /-- There is a context, but no room for the stack. -/
  | stack {σ₁ σ₂ : Allocations} {newthread : ℕ} :
      σ.allocate L fuel sizeof_ucontext_t = some (σ₁, some newthread) →
      (σ₁.fill newthread sizeof_ucontext_t (contents 0)).allocate L fuel FIBER_STACK =
        some (σ₂, none) →
      Exhausted L sizeof_ucontext_t fuel contents σ s σ₂ s
  /-- There are a context, a stack and a control block, but no room for the list node. -/
  | node {σ₁ σ₂ σ₃ σ₄ : Allocations} {newthread ss_sp newBlock : ℕ} :
      σ.allocate L fuel sizeof_ucontext_t = some (σ₁, some newthread) →
      (σ₁.fill newthread sizeof_ucontext_t (contents 0)).allocate L fuel FIBER_STACK =
        some (σ₂, some ss_sp) →
      ((σ₂.fill newthread sizeof_ucontext_t (contents 1)).fill ss_sp FIBER_STACK
        (contents 2)).allocate L fuel sizeof_tcb = some (σ₃, some newBlock) →
      (σ₃.fill newBlock sizeof_tcb (contents 3)).allocate L fuel sizeof_tcb_list =
        some (σ₄, none) →
      Exhausted L sizeof_ucontext_t fuel contents σ s σ₄ (Threads.takeThreadId s)

/-- A creation returns `EAGAIN` in one of these ways. -/
theorem my_pthread_create_exhausted (hqueue : s.priority_Queue = true)
    (hrun : my_pthread_create L sizeof_ucontext_t fuel contents σ s = some (.EAGAIN, σ', s')) :
    Exhausted L sizeof_ucontext_t fuel contents σ s σ' s' := by
  simp only [my_pthread_create, createPriorityQueue, hqueue, if_true, Option.bind_some,
    Bool.true_eq_false, if_false] at hrun
  obtain ⟨⟨σ₁, newthread⟩, hcontext, hrun⟩ := Option.bind_eq_some_iff.mp hrun
  cases newthread with
  | none =>
    obtain ⟨_, hrun⟩ := Prod.mk.inj (Option.some.inj hrun)
    obtain ⟨rfl, rfl⟩ := Prod.mk.inj hrun
    exact .context hcontext
  | some newthread =>
    obtain ⟨⟨σ₂, ss_sp⟩, hstack, hrun⟩ := Option.bind_eq_some_iff.mp hrun
    cases ss_sp with
    | none =>
      obtain ⟨_, hrun⟩ := Prod.mk.inj (Option.some.inj hrun)
      obtain ⟨rfl, rfl⟩ := Prod.mk.inj hrun
      exact .stack hcontext hstack
    | some ss_sp =>
      obtain ⟨⟨σ₃, newBlock⟩, hblock, hrun⟩ := Option.bind_eq_some_iff.mp hrun
      cases newBlock with
      | none => exact absurd hrun (by simp)
      | some newBlock =>
        obtain ⟨⟨σ₄, newNode⟩, hnode, hrun⟩ := Option.bind_eq_some_iff.mp hrun
        cases newNode with
        | none =>
          obtain ⟨_, hrun⟩ := Prod.mk.inj (Option.some.inj hrun)
          obtain ⟨rfl, rfl⟩ := Prod.mk.inj hrun
          exact .node hcontext hstack hblock hnode
        | some newNode => exact absurd hrun (by simp)

/-- To the queues such a creation is one of those that the runs have. -/
theorem Exhausted.createFails (h : Exhausted L sizeof_ucontext_t fuel contents σ s σ' s')
    (hqueue : s.priority_Queue = true) :
    s' = Threads.createFails s .context ∨ s' = Threads.createFails s .node := by
  have hcreated : Threads.createQueues s = s := if_pos hqueue
  cases h with
  | context => exact Or.inl hcreated.symm
  | stack => exact Or.inl hcreated.symm
  | node =>
    right
    rw [Threads.createFails, hcreated]

/-! ## The headers that are marked in use -/

/-- The headers of the scheduler's list that are marked in use. -/
def blocksInUse (L : Layout) (m : Memory) : Set ℕ :=
  {a | get m L.kernalEnd signature = valid ∧ Listed m L.kernalEnd a ∧ get m a inUse ≠ 0}

/-- The scheduler's list is that of the blocks `bs`. The last one may reach behind the region. -/
structure Intact (L : Layout) (m : Memory) (bs : List Block) : Prop where
  /-- The headers are those of the blocks, but for their links back. -/
  chain : Chain m L.kernalEnd bs 0
  /-- The first header tells whether there is a block. -/
  empty : bs = [] → get m L.kernalEnd signature ≠ valid
  /-- The end of the blocks. -/
  reach : L.kernalEnd + extent bs < L.schedulerEnd + AllocNode.size

/-- A region that holds its blocks is intact. -/
theorem Region.Holds.intact (h : (schedulerRegion L).Holds m bs) : Intact L m bs := by
  refine ⟨h.chain, h.empty, ?_⟩
  have hfits : L.kernalEnd + extent bs ≤ L.schedulerEnd := h.fits
  unfold AllocNode.size
  omega

/-- The blocks and their addresses are small enough for the code's numbers. -/
theorem Intact.bounds (h : Intact L m bs) :
    extent bs < 2 ^ 31 ∧ L.kernalEnd < 2 ^ 63 := by
  have hreach := h.reach
  have hfits := L.fits
  have hbound := L.bound
  unfold AllocNode.size at hreach
  unfold Layout.schedulerEnd at hreach
  unfold Layout.kernalEnd at hreach ⊢
  omega

/-- A header is marked in use exactly if its payload is one of those in use. -/
theorem Intact.mem_blocksInUse (h : Intact L m bs) :
    a ∈ blocksInUse L m ↔ ∃ k, (a + AllocNode.size, k) ∈ payloads L.kernalEnd bs := by
  have hpositive : 0 < L.kernalEnd := (schedulerRegion L).positive
  constructor
  · rintro ⟨hsignature, hlisted, hused⟩
    have hbs : bs ≠ [] := fun hnil => h.empty hnil hsignature
    obtain ⟨xs, b, ys, rfl, rfl⟩ := hlisted.block h.chain hbs
    have hheader := (chain_middle.mp h.chain).2.1.used
    cases hb : b.used with
    | false =>
      rw [hb] at hheader
      exact absurd hheader hused
    | true => exact ⟨b.cap, by simp [payloads_append, payloads, hb]⟩
  · rintro ⟨k, hk⟩
    obtain ⟨xs, ys, rfl, ha⟩ := exists_block hk
    obtain rfl : a = L.kernalEnd + extent xs := by omega
    have hheader := (chain_middle.mp h.chain).2.1.used
    refine ⟨h.chain.signature_eq (by simp), listed_of_chain hpositive h.chain, ?_⟩
    rw [hheader]
    exact one_ne_zero

/-- A request that is granted adds a payload. -/
theorem Intact.granted (h : Intact L m bs) (hsize : size < 2 ^ 31)
    (hrun : myallocate L fuel m size = some (m', some p)) :
    ∃ bs', Intact L m' bs' ∧
      (payloads L.kernalEnd bs').Perm ((p, size) :: payloads L.kernalEnd bs) := by
  obtain ⟨hextent, hstart⟩ := h.bounds
  have hreach := h.reach
  have hregion : (schedulerRegion L).head = L.kernalEnd := rfl
  have hregionEnd : (schedulerRegion L).regionEnd = L.schedulerEnd := rfl
  unfold myallocate at hrun
  split at hrun
  · exact absurd (Prod.mk.inj (Option.some.inj hrun)).2 (by simp)
  rcases regionAllocate_cases (r := schedulerRegion L) (by omega) hextent h.chain h.empty hrun with
    ⟨rfl, rfl, rfl, hroom⟩ | ⟨ws, us, rfl, rfl, rfl⟩ | ⟨ws, c, rfl, _, rfl, rfl, hroom⟩
  · rw [hregion, hregionEnd, Nat.mod_eq_of_lt (by omega)] at hroom
    refine ⟨[⟨size, true⟩], ⟨chain_initHead hsize, by simp, ?_⟩, by simp [payloads, hregion]⟩
    simp only [extent_cons, extent_nil, Block.span]
    omega
  · have hsame : extent (ws ++ ⟨size, true⟩ :: us) = extent (ws ++ ⟨size, false⟩ :: us) := by
      simp [Block.span]
    exact ⟨ws ++ ⟨size, true⟩ :: us, ⟨chain_setUse (v := true) h.chain, by simp, by omega⟩,
      payloads_reuse⟩
  · rw [hregion, hregionEnd, Nat.mod_eq_of_lt (by omega)] at hroom
    rw [hregion]
    refine ⟨ws ++ [c] ++ [⟨size, true⟩],
      ⟨chain_linkNode hsize (by omega) h.chain, by simp, ?_⟩, payloads_concat⟩
    rw [extent_append]
    simp only [extent_cons, extent_nil, Block.span]
    omega

/-- A request that is refused changes nothing, if there is a block. -/
theorem Intact.refused (h : Intact L m bs) (hbs : bs ≠ [])
    (hrun : myallocate L fuel m size = some (m', none)) : m' = m := by
  unfold myallocate at hrun
  split at hrun
  · exact (Prod.mk.inj (Option.some.inj hrun)).1.symm
  · have hsignature : get m (schedulerRegion L).head signature = valid :=
      h.chain.signature_eq hbs
    have hsame := regionAllocate_none hrun
    rwa [if_pos hsignature] at hsame

/-- In an intact list a request is refused exactly if no free block has its size and a new block
behind the last one would end behind the region. -/
theorem Intact.refuses_iff (h : Intact L m bs) (hbs : bs ≠ []) (hsize : size < 2 ^ 31) :
    (schedulerRegion L).Refuses m size ↔
      ⟨size, false⟩ ∉ bs ∧ L.schedulerEnd ≤ L.kernalEnd + extent bs + size := by
  obtain ⟨hextent, hstart⟩ := h.bounds
  have hregion : (schedulerRegion L).head = L.kernalEnd := rfl
  have hregionEnd : (schedulerRegion L).regionEnd = L.schedulerEnd := rfl
  have hpositive : 0 < L.kernalEnd := (schedulerRegion L).positive
  have hend : L.kernalEnd + extent bs + size < 2 ^ 64 := by omega
  rw [Region.Refuses, hregion, hregionEnd, if_neg (not_not_intro (h.chain.signature_eq hbs)),
    ← exists_free_iff hpositive hextent h.chain hbs,
    forall_last_iff (P := fun a => L.schedulerEnd ≤ (a + size) % 2 ^ 64) hpositive hstart hextent
      h.chain hbs, Nat.mod_eq_of_lt hend]
  simp only [not_exists, not_and]

/-- The contents of a block are not in the headers. -/
theorem Intact.fill {f : Memory} (h : Intact L σ.mem bs)
    (hp : (p, k) ∈ payloads L.kernalEnd bs) : Intact L (σ.fill p k f).mem bs := by
  refine ⟨h.chain.congr fun y hy g hg => load_congr fun c hc hlt => if_neg ?_, fun hbs => ?_,
    h.reach⟩
  · have hapart := payload_apart hp hy
    omega
  · rw [hbs] at hp
    exact absurd hp (by simp [payloads])

/-- A granted request takes a block that was not in use, and those in use stay so. -/
theorem Intact.allocate (h : Intact L σ.mem bs) (hsize : size < 2 ^ 31)
    (hrun : σ.allocate L fuel size = some (σ', some p)) :
    ∃ bs', Intact L σ'.mem bs' ∧ (p, size) ∈ payloads L.kernalEnd bs' ∧
      (∀ x ∈ payloads L.kernalEnd bs, x ∈ payloads L.kernalEnd bs') ∧
      ∀ k, (p, k) ∉ payloads L.kernalEnd bs := by
  obtain ⟨bs', hintact, hperm⟩ := h.granted hsize (Allocations.allocate_eq_some hrun).1
  have hp : (p, size) ∈ payloads L.kernalEnd bs' := hperm.mem_iff.mpr List.mem_cons_self
  refine ⟨bs', hintact, hp, fun x hx => hperm.mem_iff.mpr (List.mem_cons_of_mem _ hx),
    fun k hk => ?_⟩
  have hsymm : ∀ {x y : ℕ × ℕ}, Apart x y → Apart y x := Or.symm
  have hapart := (hperm.pairwise_iff hsymm).mp payloads_apart
  have hnew := (List.pairwise_cons.mp hapart).1 (p, k) hk
  unfold Apart AllocNode.size at hnew
  omega

/-- The answer to a request is `NULL` exactly if it is refused. -/
theorem Allocations.allocate_eq_none_iff {result : Option ℕ} (hsize : 0 < size)
    (h : σ.allocate L fuel size = some (σ', result)) :
    result = none ↔ (schedulerRegion L).Refuses σ.mem size := by
  have hrun := (Allocations.allocate_eq_some h).1
  rw [myallocate, if_neg hsize.ne'] at hrun
  exact regionAllocate_eq_none_iff hrun

/-- A request that is granted is not refused. -/
theorem Allocations.not_refuses (hsize : 0 < size)
    (h : σ.allocate L fuel size = some (σ', some p)) :
    ¬ (schedulerRegion L).Refuses σ.mem size := by
  intro hrefuses
  exact absurd ((allocate_eq_none_iff hsize h).mpr hrefuses) (by simp)

/-! ## Failed creations -/

/-- A creation that returns `EAGAIN` gives back what it took exactly if it took nothing. -/
theorem Exhausted.scheduler_iff (h : Exhausted L sizeof_ucontext_t fuel contents σ s σ' s')
    (hsize : 0 < sizeof_ucontext_t) :
    (σ'.scheduler = σ.scheduler ∧ s' = s) ↔
      (schedulerRegion L).Refuses σ.mem sizeof_ucontext_t := by
  -- what was granted is still there
  have hlonger (l : List (ℕ × ℕ)) (x : ℕ × ℕ) : l ++ x :: σ.scheduler ≠ σ.scheduler := by
    intro heq
    have hlength := congrArg List.length heq
    simp only [List.length_append, List.length_cons] at hlength
    omega
  cases h with
  | context hcontext =>
    exact iff_of_true ⟨(Allocations.allocate_eq_some hcontext).2, rfl⟩
      ((Allocations.allocate_eq_none_iff hsize hcontext).mp rfl)
  | stack hcontext hstack =>
    have hfirst := (Allocations.allocate_eq_some hcontext).2
    have hsecond := (Allocations.allocate_eq_some hstack).2
    rw [Allocations.fill_scheduler, hfirst] at hsecond
    exact iff_of_false (fun hsame => hlonger [] _ (hsecond.symm.trans hsame.1))
      (Allocations.not_refuses hsize hcontext)
  | @node σ₁ σ₂ σ₃ _ newthread ss_sp newBlock hcontext hstack hblock hnode =>
    have hfirst := (Allocations.allocate_eq_some hcontext).2
    have hsecond := (Allocations.allocate_eq_some hstack).2
    have hthird := (Allocations.allocate_eq_some hblock).2
    have hfourth := (Allocations.allocate_eq_some hnode).2
    rw [Allocations.fill_scheduler, hfirst] at hsecond
    rw [Allocations.fill_scheduler, Allocations.fill_scheduler, hsecond] at hthird
    rw [Allocations.fill_scheduler, hthird] at hfourth
    refine iff_of_false (fun hsame => ?_) (Allocations.not_refuses hsize hcontext)
    exact hlonger [(newBlock, sizeof_tcb), (ss_sp, FIBER_STACK)] _
      (hfourth.symm.trans hsame.1)

/-- In an intact list the headers tell the same. -/
theorem Exhausted.blocksInUse_iff (h : Exhausted L sizeof_ucontext_t fuel contents σ s σ' s')
    (hsize : 0 < sizeof_ucontext_t) (hsmall : sizeof_ucontext_t < 2 ^ 31)
    (hintact : Intact L σ.mem bs) (hbs : bs ≠ []) :
    (blocksInUse L σ'.mem = blocksInUse L σ.mem ∧ s' = s) ↔
      (schedulerRegion L).Refuses σ.mem sizeof_ucontext_t := by
  -- the block of the context is in use at the end, and was not before
  have hleaks {σ₁ : Allocations} {p : ℕ} {cs : List Block}
      (hcontext : σ.allocate L fuel sizeof_ucontext_t = some (σ₁, some p))
      (hold : ∀ k, (p, k) ∉ payloads L.kernalEnd bs) (hend : Intact L σ'.mem cs)
      (hp : (p, sizeof_ucontext_t) ∈ payloads L.kernalEnd cs) :
      (blocksInUse L σ'.mem = blocksInUse L σ.mem ∧ s' = s) ↔
        (schedulerRegion L).Refuses σ.mem sizeof_ucontext_t := by
    have hpos := (mem_payloads hp).1
    have hnode : p - AllocNode.size + AllocNode.size = p := by omega
    have hused : p - AllocNode.size ∈ blocksInUse L σ'.mem :=
      hend.mem_blocksInUse.mpr ⟨_, by rwa [hnode]⟩
    refine iff_of_false (fun hsame => ?_) (Allocations.not_refuses hsize hcontext)
    rw [hsame.1] at hused
    obtain ⟨k, hk⟩ := hintact.mem_blocksInUse.mp hused
    rw [hnode] at hk
    exact hold k hk
  have hnonempty {cs : List Block} {x : ℕ × ℕ} (hx : x ∈ payloads L.kernalEnd cs) : cs ≠ [] := by
    rintro rfl
    exact absurd hx (by simp [payloads])
  cases h with
  | context hcontext =>
    have hsame := hintact.refused hbs (Allocations.allocate_eq_some hcontext).1
    rw [hsame]
    exact iff_of_true ⟨rfl, rfl⟩ ((Allocations.allocate_eq_none_iff hsize hcontext).mp rfl)
  | stack hcontext hstack =>
    obtain ⟨cs, hcs, hp, _, hold⟩ := hintact.allocate hsmall hcontext
    have hfilled := hcs.fill (f := contents 0) hp
    have hsame := hfilled.refused (hnonempty hp) (Allocations.allocate_eq_some hstack).1
    exact hleaks hcontext hold (hsame ▸ hfilled) hp
  | node hcontext hstack hblock hnode =>
    obtain ⟨cs, hcs, hp, _, hold⟩ := hintact.allocate hsmall hcontext
    obtain ⟨ds, hds, hstackUsed, hkeep, _⟩ :=
      (hcs.fill (f := contents 0) hp).allocate (by decide) hstack
    have hfilled := (hds.fill (f := contents 1) (hkeep _ hp)).fill (f := contents 2) hstackUsed
    obtain ⟨es, hes, hblockUsed, hkeep', _⟩ := hfilled.allocate (by decide) hblock
    have hlast := hes.fill (f := contents 3) hblockUsed
    have hsame := hlast.refused (hnonempty hblockUsed) (Allocations.allocate_eq_some hnode).1
    exact hleaks hcontext hold (hsame ▸ hlast) (hkeep' _ (hkeep _ hp))

/-- A creation that returns `EAGAIN` once the priority queues are there leaves the blocks in use,
the thread count and the queues as they were exactly if the request for the context was the
one that was refused. The blocks in use are those that were handed out and not freed; where
the list is intact they are also those whose headers are marked. -/
theorem failed_creation_leaks_iff (hsize : 0 < sizeof_ucontext_t)
    (hsmall : sizeof_ucontext_t < 2 ^ 31) (hqueue : s.priority_Queue = true)
    (hrun : my_pthread_create L sizeof_ucontext_t fuel contents σ s = some (.EAGAIN, σ', s')) :
    ((σ'.scheduler = σ.scheduler ∧ s' = s) ↔
        (schedulerRegion L).Refuses σ.mem sizeof_ucontext_t) ∧
      ∀ bs, bs ≠ [] → Intact L σ.mem bs →
        ((blocksInUse L σ'.mem = blocksInUse L σ.mem ∧ s' = s) ↔
          (schedulerRegion L).Refuses σ.mem sizeof_ucontext_t) := by
  have hexhausted := my_pthread_create_exhausted hqueue hrun
  exact ⟨hexhausted.scheduler_iff hsize,
    fun bs hbs hintact => hexhausted.blocksInUse_iff hsize hsmall hintact hbs⟩

/-! ## Runs on given inputs -/

/-- Blocks that are all in use. -/
def AllUsed (bs : List Block) : Prop := ∀ b ∈ bs, b.used = true

/-- If all blocks are in use, no block of any size is free. -/
theorem AllUsed.not_free (h : AllUsed bs) : ⟨size, false⟩ ∉ bs :=
  fun hmem => absurd (h _ hmem) (by simp)

/-- Blocks that are all in use stay so with one more in use behind them. -/
theorem AllUsed.append (h : AllUsed bs) : AllUsed (bs ++ [⟨size, true⟩]) := by
  intro b hb
  rcases List.mem_append.mp hb with hb | hb
  · exact h b hb
  · rw [List.mem_singleton.mp hb]

/-- A new block behind the last one, when no free block has its size. -/
theorem Intact.append (h : Intact L σ.mem bs) (hpos : 0 < size) (hsize : size < 2 ^ 31)
    (hfree : ⟨size, false⟩ ∉ bs)
    (hroom : L.kernalEnd + extent (bs ++ [⟨size, true⟩]) < L.schedulerEnd + AllocNode.size) :
    ∃ σ', σ.allocate L (bs.length + 1) size =
        some (σ', some (L.kernalEnd + extent bs + AllocNode.size)) ∧
      Intact L σ'.mem (bs ++ [⟨size, true⟩]) ∧ σ'.shared = σ.shared := by
  obtain ⟨hextent, hstart⟩ := h.bounds
  have hroom' : L.kernalEnd + extent bs + size < L.schedulerEnd := by
    rw [extent_append] at hroom
    simp only [extent_cons, extent_nil, Block.span] at hroom
    omega
  have hregion : (schedulerRegion L).head = L.kernalEnd := rfl
  have hregionEnd : (schedulerRegion L).regionEnd = L.schedulerEnd := rfl
  have hreturns : ∃ m' result, regionAllocate (schedulerRegion L) (bs.length + 1) σ.mem size =
      some (m', result) := regionAllocate_returns h.chain h.empty (Nat.le_succ _)
  obtain ⟨m', result, hrun⟩ := hreturns
  have hgranted : result ≠ none := by
    intro hnone
    have hrefused := (regionAllocate_eq_none_iff hrun).mp hnone
    cases bs with
    | nil =>
      rw [Region.Refuses, hregion, hregionEnd, if_pos (h.empty rfl),
        Nat.mod_eq_of_lt (by omega)] at hrefused
      rw [extent_nil] at hroom'
      omega
    | cons b bs =>
      have hend := ((h.refuses_iff (List.cons_ne_nil b bs) hsize).mp hrefused).2
      omega
  obtain ⟨p, rfl⟩ := Option.ne_none_iff_exists'.mp hgranted
  have hnew : p = L.kernalEnd + extent bs + AllocNode.size ∧
      Chain m' L.kernalEnd (bs ++ [⟨size, true⟩]) 0 := by
    rcases regionAllocate_cases (by omega) hextent h.chain h.empty hrun with
      ⟨rfl, rfl, hp, _⟩ | ⟨ws, us, rfl, _, _⟩ | ⟨ws, c, rfl, _, rfl, hp, _⟩
    · exact ⟨hp, chain_initHead hsize⟩
    · exact absurd (by simp) hfree
    · exact ⟨hp, chain_linkNode hsize (by omega) h.chain⟩
  obtain ⟨hp, hchain⟩ := hnew
  refine ⟨⟨m', (p, size) :: σ.scheduler, σ.shared⟩, ?_, ⟨hchain, by simp, hroom⟩, rfl⟩
  unfold Allocations.allocate myallocate
  rw [if_neg hpos.ne', schedulerallocate, hrun, ← hp]
  rfl

/-- Blocks of the given sizes, all in use. -/
def taken (sizes : List ℕ) : List Block := sizes.map fun size => ⟨size, true⟩

/-- Requests that fit are all granted, one block behind the other. -/
theorem exists_intact {sizes : List ℕ} (hreach : AllocReach L (fun _ _ => True) σ)
    (h : Intact L σ.mem bs) (hused : AllUsed bs)
    (hsizes : ∀ size ∈ sizes, 0 < size ∧ size < 2 ^ 31)
    (hroom : L.kernalEnd + extent (bs ++ taken sizes) < L.schedulerEnd + AllocNode.size) :
    ∃ σ', AllocReach L (fun _ _ => True) σ' ∧ Intact L σ'.mem (bs ++ taken sizes) := by
  induction sizes generalizing σ bs with
  | nil => exact ⟨σ, hreach, by simpa [taken] using h⟩
  | cons size sizes ih =>
    obtain ⟨hpos, hsize⟩ := hsizes size List.mem_cons_self
    have hlist : bs ++ taken (size :: sizes) = bs ++ [⟨size, true⟩] ++ taken sizes := by
      simp [taken]
    rw [hlist] at hroom ⊢
    have hfirst : L.kernalEnd + extent (bs ++ [⟨size, true⟩]) <
        L.schedulerEnd + AllocNode.size := by
      have hsum : extent (bs ++ [⟨size, true⟩] ++ taken sizes) =
          extent (bs ++ [⟨size, true⟩]) + extent (taken sizes) := extent_append _ _
      omega
    obtain ⟨σ₁, hrun, hintact, hshared⟩ := h.append hpos hsize hused.not_free hfirst
    obtain ⟨hallocate, hscheduler⟩ := Allocations.allocate_eq_some hrun
    have hgranted : schedulerallocate L (bs.length + 1) σ.mem size = some
        (σ₁.mem, some (L.kernalEnd + extent bs + AllocNode.size)) := by
      rwa [myallocate, if_neg hpos.ne'] at hallocate
    have hstep : AllocReach L (fun _ _ => True) σ₁ :=
      hreach.step (e := .schedulerallocate size) trivial
        ⟨hsize, _, _, hgranted, hscheduler, hshared⟩
    exact ih hstep hintact hused.append
      (fun size hmem => hsizes size (List.mem_cons_of_mem _ hmem)) hroom

/-- `sizeof(ucontext_t)` of a usual system. -/
def usualContext : ℕ := 968

/-- The requests of eleven creations in a row. -/
def elevenThreads : List ℕ :=
  [FIBER_STACK, sizeof_mpq, sizeof_my_pthread_mutex_t] ++
    (List.replicate 11 [usualContext, FIBER_STACK, sizeof_tcb, sizeof_tcb_list]).flatten

/-- The scheduler's region of the layout has 200 pages of 4096 bytes. -/
theorem sampleLayout_schedulerEnd :
    sampleLayout.schedulerEnd = sampleLayout.kernalEnd + 819200 := by decide

/-- The heap after those requests and some more for contexts. -/
theorem exists_elevenThreads {contexts : ℕ} (hcontexts : contexts ≤ 20) :
    ∃ σ bs, AllocReach sampleLayout (fun _ _ => True) σ ∧ Intact sampleLayout σ.mem bs ∧
      AllUsed bs ∧ bs ≠ [] ∧ extent bs = 799168 + 1000 * contexts := by
  have hextent : extent (taken (elevenThreads ++ List.replicate contexts usualContext)) =
      799168 + 1000 * contexts := by
    have heleven : extent (taken elevenThreads) = 799168 := by decide
    have hsplit : taken (elevenThreads ++ List.replicate contexts usualContext) =
        taken elevenThreads ++ taken (List.replicate contexts usualContext) := List.map_append
    rw [hsplit, extent_append, heleven]
    simp [taken, extent, Block.span, usualContext, AllocNode.size, Nat.mul_comm]
  have hstart : Intact sampleLayout freshAllocations.mem [] :=
    ⟨trivial, fun _ => by decide, by decide⟩
  have hsizes : ∀ size ∈ elevenThreads ++ List.replicate contexts usualContext,
      0 < size ∧ size < 2 ^ 31 := by
    intro size hmem
    rcases List.mem_append.mp hmem with hmem | hmem
    · have hall : ∀ size ∈ elevenThreads, 0 < size ∧ size < 2 ^ 31 := by decide
      exact hall size hmem
    · rw [List.eq_of_mem_replicate hmem]
      decide
  have hroom : sampleLayout.kernalEnd +
      extent ([] ++ taken (elevenThreads ++ List.replicate contexts usualContext)) <
        sampleLayout.schedulerEnd + AllocNode.size := by
    rw [List.nil_append, hextent, sampleLayout_schedulerEnd]
    unfold AllocNode.size
    omega
  obtain ⟨σ, hreach, hintact⟩ :=
    exists_intact allocReach_fresh hstart (fun b hb => absurd hb (by simp)) hsizes hroom
  refine ⟨σ, _, hreach, hintact, fun b hb => ?_, by simp [taken, elevenThreads], hextent⟩
  obtain ⟨size, _, rfl⟩ := List.mem_map.mp hb
  rfl

/-- A request that does not fit is refused, and nothing changes. -/
theorem Intact.allocate_refused (h : Intact L σ.mem bs) (hbs : bs ≠ [])
    (hused : AllUsed bs) (hpos : 0 < size) (hsize : size < 2 ^ 31)
    (hend : L.schedulerEnd ≤ L.kernalEnd + extent bs + size) (hfuel : bs.length ≤ fuel) :
    σ.allocate L fuel size = some (σ, none) := by
  have hreturns : ∃ m' result, regionAllocate (schedulerRegion L) fuel σ.mem size =
      some (m', result) := regionAllocate_returns h.chain h.empty hfuel
  obtain ⟨m', result, hrun⟩ := hreturns
  obtain rfl := (regionAllocate_eq_none_iff hrun).mpr
    ((h.refuses_iff hbs hsize).mpr ⟨hused.not_free, hend⟩)
  have hmyallocate : myallocate L fuel σ.mem size = some (m', none) := by
    rwa [myallocate, if_neg hpos.ne']
  obtain rfl := h.refused hbs hmyallocate
  rw [Allocations.allocate, hmyallocate]
  rfl

/-- The queues behind the first creation. -/
def createdQueues : Threads.Queues := Threads.createQueues Threads.Queues.zero

/-- After the first creation there are priority queues. -/
theorem createdQueues_priority_Queue : createdQueues.priority_Queue = true := by decide

/-- The theorem where there is no room for a context: nothing is lost. -/
theorem failed_creation_leaks_iff_full : ∃ σ σ' s',
    (∃ fuel, my_pthread_create sampleLayout usualContext fuel (fun _ _ => 0) σ createdQueues =
      some (.EAGAIN, σ', s')) ∧
    σ'.scheduler = σ.scheduler ∧ blocksInUse sampleLayout σ'.mem = blocksInUse sampleLayout σ.mem ∧
      s' = createdQueues := by
  obtain ⟨σ, bs, _, hintact, hused, hbs, hextent⟩ := exists_elevenThreads (le_refl 20)
  have hend : sampleLayout.schedulerEnd ≤ sampleLayout.kernalEnd + extent bs + usualContext := by
    rw [hextent, sampleLayout_schedulerEnd]
    unfold usualContext
    omega
  have hcontext : σ.allocate sampleLayout bs.length usualContext = some (σ, none) :=
    hintact.allocate_refused hbs hused (by decide) (by decide) hend le_rfl
  have hrun : my_pthread_create sampleLayout usualContext bs.length (fun _ _ => 0) σ createdQueues =
      some (.EAGAIN, σ, createdQueues) := by
    simp [my_pthread_create, createPriorityQueue, createdQueues_priority_Queue, hcontext]
  have hrefuses : (schedulerRegion sampleLayout).Refuses σ.mem usualContext :=
    (hintact.refuses_iff hbs (by decide)).mpr ⟨hused.not_free, hend⟩
  obtain ⟨hghost, hheaders⟩ :=
    failed_creation_leaks_iff (by decide) (by decide) createdQueues_priority_Queue hrun
  exact ⟨σ, σ, createdQueues, ⟨bs.length, hrun⟩, (hghost.mpr hrefuses).1,
    ((hheaders bs hbs hintact).mpr hrefuses).1, rfl⟩

/-- Behind eleven threads there is room for a context but not for a stack: the context is
lost. -/
theorem failed_creation_leaks : ∃ σ σ' s', AllocReach sampleLayout (fun _ _ => True) σ ∧
    createdQueues.priority_Queue = true ∧
    (∃ fuel, my_pthread_create sampleLayout usualContext fuel (fun _ _ => 0) σ createdQueues =
      some (.EAGAIN, σ', s')) ∧
    σ'.scheduler ≠ σ.scheduler ∧
      blocksInUse sampleLayout σ'.mem ≠ blocksInUse sampleLayout σ.mem := by
  obtain ⟨σ, bs, hreach, hintact, hused, hbs, hextent⟩ := exists_elevenThreads (Nat.zero_le 20)
  have hnew : extent (bs ++ [⟨usualContext, true⟩]) = 800168 := by
    rw [extent_append, hextent]
    rfl
  have hroom : sampleLayout.kernalEnd + extent (bs ++ [⟨usualContext, true⟩]) <
      sampleLayout.schedulerEnd + AllocNode.size := by
    rw [hnew, sampleLayout_schedulerEnd]
    unfold AllocNode.size
    omega
  obtain ⟨σ₁, hcontext, hintact₁, _⟩ :=
    hintact.append (by decide) (by decide) hused.not_free hroom
  have hp : (sampleLayout.kernalEnd + extent bs + AllocNode.size, usualContext) ∈
      payloads sampleLayout.kernalEnd (bs ++ [⟨usualContext, true⟩]) :=
    payloads_concat.mem_iff.mpr List.mem_cons_self
  generalize sampleLayout.kernalEnd + extent bs + AllocNode.size = p at *
  have hend : sampleLayout.schedulerEnd ≤
      sampleLayout.kernalEnd + extent (bs ++ [⟨usualContext, true⟩]) + FIBER_STACK := by
    rw [hnew, sampleLayout_schedulerEnd]
    unfold FIBER_STACK
    omega
  have hstack : (σ₁.fill p usualContext fun _ => 0).allocate sampleLayout (bs.length + 1)
      FIBER_STACK = some (σ₁.fill p usualContext fun _ => 0, none) :=
    (hintact₁.fill hp).allocate_refused (by simp) hused.append (by decide) (by decide) hend
      (by simp)
  have hexhausted : Exhausted sampleLayout usualContext (bs.length + 1) (fun _ _ => 0) σ
      createdQueues (σ₁.fill p usualContext fun _ => 0) createdQueues := .stack hcontext hstack
  have hrefuses := Allocations.not_refuses (by decide) hcontext
  refine ⟨σ, σ₁.fill p usualContext fun _ => 0, createdQueues, hreach,
    createdQueues_priority_Queue, ⟨bs.length + 1, ?_⟩, fun hsame => ?_, fun hsame => ?_⟩
  · simp [my_pthread_create, createPriorityQueue, createdQueues_priority_Queue, hcontext, hstack]
  · exact hrefuses ((hexhausted.scheduler_iff (by decide)).mp ⟨hsame, rfl⟩)
  · exact hrefuses
      ((hexhausted.blocksInUse_iff (by decide) (by decide) hintact hbs).mp ⟨hsame, rfl⟩)

end SimpleOs.Kernal
