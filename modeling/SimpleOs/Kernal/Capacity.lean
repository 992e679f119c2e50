import SimpleOs.Kernal.ThreadBlocks

/-!
# How many threads there can be

When a thread has exited, `scheduler` of `Memory_Manager` frees its stack, its control block
and its list node, but nothing ever frees its context. So the region of the scheduler bounds
the threads at one time by their stacks, and those of a whole run by their contexts. The ids
of the threads, which are nowhere checked, therefore stay below the number of page counts.
-/

namespace SimpleOs.Kernal

open Bytes Heap AllocNode

variable {L : Layout} {σ σ' σ₁ : Allocations} {s s' : Threads.Queues} {m : Memory}
  {a p k size fuel sizeof_ucontext_t : ℕ} {contents : ℕ → Memory} {bs : List Block}
  {l : List (ℕ × ℕ)}

/-! ## Lists that are kept -/

/-- The scheduler's list is intact, its free blocks are joined, and live blocks are in use. -/
structure Kept (L : Layout) (σ : Allocations) (bs : List Block) : Prop where
  /-- The list of the scheduler is that of the blocks. -/
  intact : Intact L σ.mem bs
  /-- No two free blocks are adjacent, and the last one is in use. -/
  tight : Tight bs
  /-- Every live block is one of those in use. -/
  live : List.Subperm σ.scheduler (payloads L.kernalEnd bs)

/-- A list with a live block has a header. -/
theorem Kept.ne_nil (h : Kept L σ bs) (hlive : σ.scheduler ≠ []) : bs ≠ [] := by
  rintro rfl
  exact hlive (List.subperm_nil.mp h.live)

/-- A request that is granted keeps the blocks in use represented. -/
theorem Kept.granted (h : Kept L σ bs) (hsize : size < 2 ^ 31)
    (hrun : σ.allocate L fuel size = some (σ', some p)) : ∃ bs', Kept L σ' bs' := by
  obtain ⟨hextent, hstart⟩ := h.intact.bounds
  have hreach := h.intact.reach
  have hregion : (schedulerRegion L).head = L.kernalEnd := rfl
  have hregionEnd : (schedulerRegion L).regionEnd = L.schedulerEnd := rfl
  obtain ⟨hgranted, hscheduler⟩ := Allocations.allocate_eq_some hrun
  have hlive : List.Subperm σ'.scheduler ((p, size) :: payloads L.kernalEnd bs) := by
    rw [hscheduler]
    exact (List.subperm_cons _).mpr h.live
  unfold myallocate at hgranted
  split at hgranted
  · exact absurd (Prod.mk.inj (Option.some.inj hgranted)).2 (by simp)
  rcases regionAllocate_cases (r := schedulerRegion L) (by omega) hextent h.intact.chain
    h.intact.empty hgranted with
    ⟨rfl, hmem, rfl, hroom⟩ | ⟨ws, us, rfl, hmem, rfl⟩ | ⟨ws, c, rfl, _, hmem, rfl, hroom⟩
  · rw [hregion, hregionEnd, Nat.mod_eq_of_lt (by omega)] at hroom
    refine ⟨[⟨size, true⟩], ⟨?_, by simp, ?_⟩, ⟨List.isChain_singleton _, by simp⟩, ?_⟩
    · rw [hmem]
      exact chain_initHead hsize
    · simp only [extent_cons, extent_nil, Block.span]
      omega
    · simpa [payloads, hregion] using hlive
  · have hsame : extent (ws ++ ⟨size, true⟩ :: us) = extent (ws ++ ⟨size, false⟩ :: us) := by
      simp [Block.span]
    refine ⟨ws ++ ⟨size, true⟩ :: us, ⟨?_, by simp, by omega⟩, h.tight.reuse,
      hlive.trans payloads_reuse.symm.subperm⟩
    rw [hmem]
    exact chain_setUse (v := true) h.intact.chain
  · rw [hregion, hregionEnd, Nat.mod_eq_of_lt (by omega)] at hroom
    refine ⟨ws ++ [c] ++ [⟨size, true⟩], ⟨?_, by simp, ?_⟩, h.tight.concat,
      hlive.trans payloads_concat.symm.subperm⟩
    · rw [hmem]
      exact chain_linkNode hsize (by omega) h.intact.chain
    · rw [extent_append]
      simp only [extent_cons, extent_nil, Block.span]
      omega

/-- `mydeallocate` on a live block, along right links. -/
structure Allocations.Frees (L : Layout) (σ : Allocations) (ptr size : ℕ) (σ' : Allocations) :
    Prop where
  /-- The block that is freed is live. -/
  live : (ptr, size) ∈ σ.scheduler
  /-- The links that are followed are right. -/
  links : FollowsExact σ.mem L.kernalEnd (ptr - AllocNode.size)
  /-- The call returns and leaves the memory. -/
  call : ∃ fuel, mydeallocate L fuel σ.mem ptr = some σ'.mem
  /-- The block is live no more. -/
  erased : σ'.scheduler = σ.scheduler.erase (ptr, size)

/-- Freeing a live block along right links keeps the list. -/
theorem Kept.freed (h : Kept L σ bs) (hfrees : σ.Frees L p size σ') : ∃ bs', Kept L σ' bs' := by
  obtain ⟨hlive, hlinks, ⟨fuel, hrun⟩, herased⟩ := hfrees
  obtain ⟨hextent, hstart⟩ := h.intact.bounds
  have hpositive : 0 < L.kernalEnd := (schedulerRegion L).positive
  unfold mydeallocate at hrun
  split at hrun
  · refine ⟨bs, ?_, h.tight, ?_⟩
    · rw [← Option.some.inj hrun]
      exact h.intact
    · rw [herased]
      exact (List.erase_subperm _ _).trans h.live
  · have hin := h.live.subset hlive
    obtain ⟨xs, ys, rfl, rfl⟩ := exists_block hin
    rw [Nat.add_sub_cancel] at hlinks hrun
    obtain ⟨m₁, bs', hreturns, hchain, htight, hpayloads, hle, _, hempty, _⟩ :=
      freeBlock_spec hpositive (by omega) (by omega) h.intact.chain h.tight hlinks
    have hmem : m₁ = σ'.mem := freeBlock_unique hreturns hrun
    have hreach := h.intact.reach
    have hlist : payloads L.kernalEnd (xs ++ ⟨size, true⟩ :: ys) = payloads L.kernalEnd xs ++
        (L.kernalEnd + extent xs + AllocNode.size, size) ::
          payloads (L.kernalEnd + extent xs + (⟨size, true⟩ : Block).span) ys := by
      simp [payloads_append, payloads]
    refine ⟨bs', ⟨hmem ▸ hchain, hmem ▸ hempty, by omega⟩, htight, ?_⟩
    have herase := h.live.erase (L.kernalEnd + extent xs + AllocNode.size, size)
    rw [hlist] at herase
    rw [herased, hpayloads]
    exact herase.trans erase_middle_perm.subperm

/-- The bytes that are not the library's: those of a live block, and those outside the region,
with the room for one more header behind it. -/
def Allocations.Writable (L : Layout) (σ : Allocations) (a : ℕ) : Prop :=
  (∃ x ∈ σ.scheduler, InPayload x a) ∨ a < L.kernalEnd ∨ L.schedulerEnd + AllocNode.size ≤ a

/-- A write to bytes that are not the library's keeps the list. -/
theorem Kept.write {v : UInt8} (h : Kept L σ bs) (ha : σ.Writable L a) :
    Kept L { σ with mem := Function.update σ.mem a v } bs := by
  have hapart : ∀ y ∈ starts L.kernalEnd bs, a < y ∨ y + AllocNode.size ≤ a := by
    intro y hy
    rcases ha with ⟨x, hx, hin⟩ | hout
    · have := payload_apart (p := x.1) (k := x.2) (h.live.subset hx) hy
      unfold InPayload at hin
      omega
    · have hpos := mem_starts hy
      have hreach := h.intact.reach
      omega
  have hget {y : ℕ} {f : Field} (hf : f.offset + f.width ≤ AllocNode.size)
      (hy : a < y ∨ y + AllocNode.size ≤ a) :
      get (Function.update σ.mem a v) y f = get σ.mem y f :=
    load_congr fun c hc hlt => Function.update_of_ne (by omega) _ _
  refine ⟨⟨h.intact.chain.congr fun y hy f hf => hget hf (hapart y hy), fun hbs => ?_,
    h.intact.reach⟩, h.tight, h.live⟩
  have hfirst : a < L.kernalEnd ∨ L.kernalEnd + AllocNode.size ≤ a := by
    rcases ha with ⟨x, hx, _⟩ | hout
    · have hin := h.live.subset hx
      rw [hbs] at hin
      exact absurd hin (by simp [payloads])
    · unfold Layout.schedulerEnd at hout
      omega
  rw [hget (by decide) hfirst]
  exact h.intact.empty hbs

/-! ## Blocks of one size -/

/-- The number of live blocks of a size. -/
def Allocations.count (σ : Allocations) (size : ℕ) : ℕ := σ.scheduler.countP fun x => x.2 = size

/-- Blocks of two sizes and their headers are within the blocks. -/
theorem payloads_count_le {n : ℕ} (bs : List Block) (hne : size ≠ n) :
    (payloads a bs).countP (fun x => x.2 = size) * (AllocNode.size + size) +
      (payloads a bs).countP (fun x => x.2 = n) * (AllocNode.size + n) ≤ extent bs := by
  induction bs generalizing a with
  | nil => simp [payloads]
  | cons b bs ih =>
    have hrest := ih (a := a + b.span)
    obtain ⟨k, u⟩ := b
    simp only [payloads, extent_cons, Block.span] at hrest ⊢
    cases u with
    | false =>
      simp only [Bool.false_eq_true, if_false, List.nil_append]
      omega
    | true =>
      simp only [if_true, List.singleton_append, List.countP_cons, decide_eq_true_eq]
      by_cases hsize : k = size
      · subst hsize
        rw [if_pos rfl, if_neg hne, Nat.succ_mul, Nat.add_zero]
        omega
      · by_cases hn : k = n
        · subst hn
          rw [if_pos rfl, if_neg hsize, Nat.succ_mul, Nat.add_zero]
          omega
        · rw [if_neg hsize, if_neg hn, Nat.add_zero, Nat.add_zero]
          omega

/-- So the live blocks of two sizes are bounded by the region. -/
theorem Kept.count_lt {n : ℕ} (h : Kept L σ bs) (hne : size ≠ n) :
    σ.count size * (AllocNode.size + size) + σ.count n * (AllocNode.size + n) <
      200 * L.PAGE_SIZE + AllocNode.size := by
  have hreach := h.intact.reach
  have hregion : L.schedulerEnd = L.kernalEnd + 200 * L.PAGE_SIZE := rfl
  have hcounts := payloads_count_le (a := L.kernalEnd) bs hne
  have hsize := Nat.mul_le_mul_right (AllocNode.size + size)
    (h.live.countP_le fun x => x.2 = size)
  have hn := Nat.mul_le_mul_right (AllocNode.size + n) (h.live.countP_le fun x => x.2 = n)
  unfold Allocations.count
  omega

/-- A free takes a block of its size away. -/
theorem Allocations.Frees.count {n : ℕ} (h : σ.Frees L p size σ') :
    σ'.count n = σ.count n - if size = n then 1 else 0 := by
  unfold Allocations.count
  rw [h.erased, List.countP_erase]
  simp [h.live]

/-! ## Creations -/

/-- The blocks `l` have become live, and the list is kept. -/
structure Grown (L : Layout) (σ σ' : Allocations) (l : List (ℕ × ℕ)) : Prop where
  /-- The new blocks stand before those that were live. -/
  scheduler : σ'.scheduler = l ++ σ.scheduler
  /-- If there was an intact list before, there is one afterwards. -/
  kept : (∃ bs, Kept L σ bs) → ∃ bs, Kept L σ' bs

/-- If nothing happens, no blocks have become live. -/
theorem Grown.refl : Grown L σ σ [] := ⟨rfl, id⟩

/-- What two growths take one after the other is taken by both together. -/
theorem Grown.trans {l' : List (ℕ × ℕ)} (h : Grown L σ σ₁ l) (h' : Grown L σ₁ σ' l') :
    Grown L σ σ' (l' ++ l) :=
  ⟨by rw [h'.scheduler, h.scheduler, List.append_assoc], fun hkept => h'.kept (h.kept hkept)⟩

/-- A request. If it is refused, some block must be live. -/
theorem grown_allocate {result : Option ℕ} (hsize : size < 2 ^ 31)
    (hrun : σ.allocate L fuel size = some (σ', result))
    (hlive : result = none → σ.scheduler ≠ []) :
    Grown L σ σ' (result.map fun ptr => (ptr, size)).toList := by
  obtain ⟨hcall, hscheduler⟩ := Allocations.allocate_eq_some hrun
  refine ⟨hscheduler, ?_⟩
  rintro ⟨bs, hkept⟩
  cases result with
  | some p => exact hkept.granted hsize hrun
  | none =>
    have hsame := hkept.intact.refused (hkept.ne_nil (hlive rfl)) hcall
    refine ⟨bs, hsame ▸ hkept.intact, hkept.tight, ?_⟩
    rw [hscheduler]
    exact hkept.live

/-- The library fills a live block. -/
theorem grown_fill {f : Memory} (hp : (p, k) ∈ σ.scheduler) : Grown L σ (σ.fill p k f) [] := by
  refine ⟨rfl, ?_⟩
  rintro ⟨bs, hkept⟩
  exact ⟨bs, hkept.intact.fill (hkept.live.subset hp), hkept.tight, hkept.live⟩

/-- The number of blocks of a size. -/
theorem Grown.count {n : ℕ} (h : Grown L σ σ' l) :
    σ'.count n = l.countP (fun x => x.2 = n) + σ.count n := by
  unfold Allocations.count
  rw [h.scheduler, List.countP_append]

/-- A block of a size is one of them. -/
theorem one_le_countP (h : (p, k) ∈ l) : 1 ≤ l.countP (fun x => x.2 = k) :=
  List.countP_pos_iff.mpr ⟨(p, k), h, by simp⟩

/-- After it the priority queues are there. -/
theorem createQueues_created : (Threads.createQueues s).priority_Queue = true := by
  unfold Threads.createQueues
  split
  · assumption
  · rfl

/-- The part that runs once takes a stack, unless it is done already. -/
theorem createPriorityQueue_grown {created : Bool}
    (hlive : s.priority_Queue = true → σ.scheduler ≠ [])
    (hrun : createPriorityQueue L fuel σ s = some (created, σ', s')) :
    ∃ l, Grown L σ σ' l ∧ (created = false → s' = s) ∧
      (created = true → s' = Threads.createQueues s ∧ σ'.scheduler ≠ [] ∧
        1 ≤ s.priority_Queue.toNat + l.countP (fun x => x.2 = FIBER_STACK)) := by
  unfold createPriorityQueue at hrun
  by_cases hqueue : s.priority_Queue = true
  · rw [if_pos hqueue] at hrun
    obtain ⟨rfl, heq⟩ := Prod.mk.inj (Option.some.inj hrun)
    obtain ⟨rfl, rfl⟩ := Prod.mk.inj heq
    exact ⟨[], .refl, fun h => absurd h (by simp), fun _ =>
      ⟨(if_pos hqueue).symm, hlive hqueue, by simp [hqueue]⟩⟩
  · rw [if_neg hqueue] at hrun
    obtain ⟨⟨σ₁, ss_sp⟩, hstack, hrun⟩ := Option.bind_eq_some_iff.mp hrun
    dsimp only at hrun
    split at hrun
    · exact absurd hrun (by simp)
    rename_i hgranted
    obtain ⟨ss_sp, rfl⟩ := Option.ne_none_iff_exists'.mp hgranted
    have h₁ := grown_allocate (by decide) hstack fun h => absurd h hgranted
    have hne₁ : σ₁.scheduler ≠ [] := by rw [h₁.scheduler]; simp
    obtain ⟨⟨σ₂, priority_Queue⟩, hqueues, hrun⟩ := Option.bind_eq_some_iff.mp hrun
    have h₂ := grown_allocate (by decide) hqueues fun _ => hne₁
    have hne₂ : σ₂.scheduler ≠ [] := by rw [h₂.scheduler]; simp [hne₁]
    dsimp only at hrun
    split at hrun
    · obtain ⟨rfl, heq⟩ := Prod.mk.inj (Option.some.inj hrun)
      obtain ⟨rfl, rfl⟩ := Prod.mk.inj heq
      exact ⟨_, h₁.trans h₂, fun _ => rfl, fun h => absurd h (by simp)⟩
    obtain ⟨⟨σ₃, thread_count_mtx⟩, hmutex, hrun⟩ := Option.bind_eq_some_iff.mp hrun
    have h₃ := grown_allocate (by decide) hmutex fun _ => hne₂
    dsimp only at hrun
    split at hrun
    · exact absurd hrun (by simp)
    obtain ⟨rfl, heq⟩ := Prod.mk.inj (Option.some.inj hrun)
    obtain ⟨rfl, rfl⟩ := Prod.mk.inj heq
    refine ⟨_, (h₁.trans h₂).trans h₃, fun h => absurd h (by simp), fun _ => ⟨rfl, ?_, ?_⟩⟩
    · rw [h₃.scheduler]
      simp [hne₂]
    · simp only [List.countP_append, Option.map_some, Option.toList_some, List.countP_singleton,
        decide_true, if_true]
      omega

/-- The id of the thread that a call has created, if it has. -/
def Creation.ids (s : Threads.Queues) : Creation → List ℕ
  | .EAGAIN => []
  | .enqueue _ => [(Threads.createQueues s).thread_count1]

/-- What a creation takes: a context and a stack for a thread, and one more stack if the
priority queues are new. -/
structure Takes (s s' : Threads.Queues) (sizeof_ucontext_t n : ℕ) (l : List (ℕ × ℕ)) : Prop where
  /-- There is a new context for each of the `n` threads. -/
  contexts : n ≤ l.countP (fun x => x.2 = sizeof_ucontext_t)
  /-- There is a new stack for each of them, and one for new priority queues. -/
  fiberStacks : s'.priority_Queue.toNat + n ≤
    s.priority_Queue.toNat + l.countP (fun x => x.2 = FIBER_STACK)
  /-- The queues. A thread id is taken behind a context only. -/
  queues : s' = s ∧ n = 0 ∨ s' = Threads.createQueues s ∧ n = 0 ∨
    s' = Threads.takeThreadId (Threads.createQueues s) ∧
      1 ≤ l.countP (fun x => x.2 = sizeof_ucontext_t)

/-- The blocks that a call of `my_pthread_create` takes. -/
theorem my_pthread_create_grown {result : Creation} (hsize : sizeof_ucontext_t < 2 ^ 31)
    (hlive : s.priority_Queue = true → σ.scheduler ≠ [])
    (hrun : my_pthread_create L sizeof_ucontext_t fuel contents σ s = some (result, σ', s')) :
    ∃ l, Grown L σ σ' l ∧ Takes s s' sizeof_ucontext_t (result.ids s).length l := by
  unfold my_pthread_create at hrun
  obtain ⟨⟨created, σ₀, s₀⟩, hqueue, hrun⟩ := Option.bind_eq_some_iff.mp hrun
  obtain ⟨l₀, h₀, hfalse, htrue⟩ := createPriorityQueue_grown hlive hqueue
  dsimp only at hrun
  split at hrun
  · rename_i hcreated
    obtain ⟨rfl, heq⟩ := Prod.mk.inj (Option.some.inj hrun)
    obtain ⟨rfl, rfl⟩ := Prod.mk.inj heq
    obtain rfl := hfalse hcreated
    exact ⟨l₀, h₀, Nat.zero_le _, Nat.le_add_right _ _, Or.inl ⟨rfl, rfl⟩⟩
  rename_i hcreated
  obtain ⟨rfl, hne₀, hstack₀⟩ := htrue (by simpa using hcreated)
  have hs₀ : (Threads.createQueues s).priority_Queue = true := createQueues_created
  -- a request behind the priority queues is refused
  have hfails {σ₁ : Allocations} {l : List (ℕ × ℕ)} (h : Grown L σ₀ σ₁ l) :
      ∃ l, Grown L σ σ₁ l ∧ Takes s (Threads.createQueues s) sizeof_ucontext_t 0 l := by
    refine ⟨_, h₀.trans h, Nat.zero_le _, ?_, Or.inr (Or.inl ⟨rfl, rfl⟩)⟩
    rw [hs₀, List.countP_append, Bool.toNat_true]
    omega
  obtain ⟨⟨σ₁, newthread⟩, hcontext, hrun⟩ := Option.bind_eq_some_iff.mp hrun
  have h₁ := grown_allocate hsize hcontext fun _ => hne₀
  cases newthread with
  | none =>
    obtain ⟨rfl, heq⟩ := Prod.mk.inj (Option.some.inj hrun)
    obtain ⟨rfl, rfl⟩ := Prod.mk.inj heq
    exact hfails h₁
  | some newthread =>
    have hmem₁ : (newthread, sizeof_ucontext_t) ∈ σ₁.scheduler := by rw [h₁.scheduler]; simp
    obtain ⟨⟨σ₂, ss_sp⟩, hstack, hrun⟩ := Option.bind_eq_some_iff.mp hrun
    have h₂ := (h₁.trans (grown_fill hmem₁)).trans
      (grown_allocate (by decide) hstack fun _ hnil => List.ne_nil_of_mem hmem₁ hnil)
    cases ss_sp with
    | none =>
      obtain ⟨rfl, heq⟩ := Prod.mk.inj (Option.some.inj hrun)
      obtain ⟨rfl, rfl⟩ := Prod.mk.inj heq
      exact hfails h₂
    | some ss_sp =>
      have hmem₂ : (newthread, sizeof_ucontext_t) ∈ σ₂.scheduler ∧
          (ss_sp, FIBER_STACK) ∈ σ₂.scheduler := by
        rw [h₂.scheduler]
        simp
      obtain ⟨⟨σ₃, newBlock⟩, hblock, hrun⟩ := Option.bind_eq_some_iff.mp hrun
      have h₃ := ((h₂.trans (grown_fill hmem₂.1)).trans (grown_fill hmem₂.2)).trans
        (grown_allocate (by decide) hblock fun _ hnil => List.ne_nil_of_mem hmem₂.1 hnil)
      cases newBlock with
      | none => exact absurd hrun (by simp)
      | some newBlock =>
        have hmem₃ : (newBlock, sizeof_tcb) ∈ σ₃.scheduler := by rw [h₃.scheduler]; simp
        obtain ⟨⟨σ₄, newNode⟩, hnode, hrun⟩ := Option.bind_eq_some_iff.mp hrun
        have h₄ := (h₃.trans (grown_fill hmem₃)).trans
          (grown_allocate (by decide) hnode fun _ hnil => List.ne_nil_of_mem hmem₃ hnil)
        obtain ⟨l, hl, hcontexts, hstacks⟩ : ∃ l, Grown L σ₀ σ₄ l ∧
            1 ≤ l.countP (fun x => x.2 = sizeof_ucontext_t) ∧
            1 ≤ l.countP (fun x => x.2 = FIBER_STACK) :=
          ⟨_, h₄, one_le_countP (p := newthread) (by simp), one_le_countP (p := ss_sp) (by simp)⟩
        have hqueue : (Threads.takeThreadId (Threads.createQueues s)).priority_Queue.toNat = 1 := by
          rw [Threads.takeThreadId, createQueues_created, Bool.toNat_true]
        have htakes {n : ℕ} (hn : n ≤ 1) : Takes s (Threads.takeThreadId (Threads.createQueues s))
            sizeof_ucontext_t n (l ++ l₀) := by
          refine ⟨?_, ?_, Or.inr (Or.inr ⟨rfl, ?_⟩)⟩ <;> rw [List.countP_append] <;> omega
        cases newNode with
        | none =>
          obtain ⟨rfl, heq⟩ := Prod.mk.inj (Option.some.inj hrun)
          obtain ⟨rfl, rfl⟩ := Prod.mk.inj heq
          exact ⟨_, h₀.trans hl, htakes zero_le_one⟩
        | some newNode =>
          obtain ⟨rfl, heq⟩ := Prod.mk.inj (Option.some.inj hrun)
          obtain ⟨rfl, rfl⟩ := Prod.mk.inj heq
          exact ⟨_, h₀.trans hl, htakes le_rfl⟩

/-! ## Whole runs -/

/-- `sizeof(join_var)`: an `int`, a pointer and an id, aligned. No other block that
`my_pthread_join` and `my_pthread_exit` take is larger. -/
def sizeof_join_var : ℕ := 24

/-- The library's blocks and queues, and the threads that have been created and have exited. -/
structure Lifetimes where
  /-- The live blocks of both regions, and the memory. -/
  allocations : Allocations
  /-- The queues of the scheduler, with the next thread id. -/
  queues : Threads.Queues
  /-- The ids of the threads that `my_pthread_create` has made. -/
  ids : List ℕ
  /-- How many of them are gone. -/
  exited : ℕ

/-- The threads that were made. -/
def Lifetimes.created (φ : Lifetimes) : ℕ := φ.ids.length

/-- What happens to the scheduler's region. -/
inductive LifeEvent where
  /-- A call of `my_pthread_create`, which returns. -/
  | my_pthread_create (contents : ℕ → Memory)
  /-- Another request, which is granted. -/
  | myallocate (size : ℕ)
  /-- `scheduler` takes away a thread that has exited. -/
  | exit (ss_sp data ptr : ℕ)
  /-- `my_pthread_join` frees what it and `my_pthread_exit` have taken. -/
  | mydeallocate (ptr size : ℕ)
  /-- A write to a block or elsewhere. -/
  | write (a : ℕ) (v : UInt8)

/-- No thread is created, and the priority queues stay where they are. -/
structure Lifetimes.Stays (φ φ' : Lifetimes) : Prop where
  /-- The threads that are made. -/
  ids : φ'.ids = φ.ids
  /-- The next thread id is as before. -/
  thread_count1 : φ'.queues.thread_count1 = φ.queues.thread_count1
  /-- The pointer to the priority queues. -/
  priority_Queue : φ'.queues.priority_Queue = φ.queues.priority_Queue

/-- One event. Only created threads exit; frees follow right links. -/
def LifeStep (L : Layout) (sizeof_ucontext_t : ℕ) (φ : Lifetimes) (e : LifeEvent)
    (φ' : Lifetimes) : Prop :=
  match e with
  | .my_pthread_create contents => φ'.exited = φ.exited ∧ ∃ fuel result,
      my_pthread_create L sizeof_ucontext_t fuel contents φ.allocations φ.queues =
        some (result, φ'.allocations, φ'.queues) ∧ φ'.ids = result.ids φ.queues ++ φ.ids
  | .myallocate size => φ.Stays φ' ∧ φ'.exited = φ.exited ∧ size < 2 ^ 31 ∧
      ∃ fuel p, φ.allocations.allocate L fuel size = some (φ'.allocations, some p)
  | .exit ss_sp data ptr => φ.Stays φ' ∧ φ.exited < φ.created ∧ φ'.exited = φ.exited + 1 ∧
      ∃ σ₁ σ₂, φ.allocations.Frees L ss_sp FIBER_STACK σ₁ ∧ σ₁.Frees L data sizeof_tcb σ₂ ∧
        σ₂.Frees L ptr sizeof_tcb_list φ'.allocations
  | .mydeallocate ptr size => φ.Stays φ' ∧ φ'.exited = φ.exited ∧ size ≤ sizeof_join_var ∧
      φ.allocations.Frees L ptr size φ'.allocations
  | .write a v => φ.Stays φ' ∧ φ'.exited = φ.exited ∧ φ.allocations.Writable L a ∧
      φ'.allocations = { φ.allocations with mem := Function.update φ.allocations.mem a v }

/-- The states reached from one in which there is neither a block nor a priority queue. -/
def LifeReach (L : Layout) (sizeof_ucontext_t : ℕ) : Lifetimes → Prop :=
  Runs.Reach (fun φ => φ.allocations.scheduler = [] ∧ φ.queues.priority_Queue = false ∧
    φ.ids = [] ∧ φ.exited = 0 ∧ get φ.allocations.mem L.kernalEnd signature ≠ valid)
    (LifeStep L sizeof_ucontext_t) fun _ _ => True

/-- Each thread that was created has its context, and each that is not gone its stack, next to
that of `return_link`. -/
structure Lifetimes.Held (L : Layout) (sizeof_ucontext_t : ℕ) (φ : Lifetimes) : Prop where
  /-- The list of the scheduler is intact. -/
  kept : ∃ bs, Kept L φ.allocations bs
  /-- There is a live context for every thread that was created. -/
  contexts : φ.created ≤ φ.allocations.count sizeof_ucontext_t
  /-- There is a live stack for every thread that is not gone, and that of `return_link`. -/
  fiberStacks : φ.queues.priority_Queue.toNat + (φ.created - φ.exited) ≤
    φ.allocations.count FIBER_STACK
  /-- There are priority queues if there is a thread. -/
  first : φ.created ≠ 0 → φ.queues.priority_Queue = true

variable {φ φ' : Lifetimes} {e : LifeEvent}

/-- If there are priority queues, then there are blocks. -/
theorem Lifetimes.Held.ne_nil (h : φ.Held L sizeof_ucontext_t)
    (hqueue : φ.queues.priority_Queue = true) : φ.allocations.scheduler ≠ [] := by
  intro hnil
  have hstacks := h.fiberStacks
  rw [hqueue, Allocations.count, hnil, Bool.toNat_true, List.countP_nil] at hstacks
  omega

/-- No event makes the contexts fewer: nothing frees one. -/
theorem Lifetimes.Held.contexts_le (hctx : sizeof_tcb < sizeof_ucontext_t)
    (hne : sizeof_ucontext_t ≠ FIBER_STACK) (hsmall : sizeof_ucontext_t < 2 ^ 31)
    (h : φ.Held L sizeof_ucontext_t) (hstep : LifeStep L sizeof_ucontext_t φ e φ') :
    φ.allocations.count sizeof_ucontext_t ≤ φ'.allocations.count sizeof_ucontext_t := by
  unfold sizeof_tcb at hctx
  cases e with
  | my_pthread_create contents =>
    obtain ⟨_, fuel, result, hrun, _⟩ := hstep
    obtain ⟨l, hgrown, _⟩ := my_pthread_create_grown hsmall h.ne_nil hrun
    rw [hgrown.count]
    exact Nat.le_add_left _ _
  | myallocate size =>
    obtain ⟨_, _, hsize, fuel, p, hrun⟩ := hstep
    rw [(grown_allocate hsize hrun fun hnone => absurd hnone (by simp)).count]
    exact Nat.le_add_left _ _
  | exit ss_sp data ptr =>
    obtain ⟨_, _, _, σ₁, σ₂, hstack, hdata, hnode⟩ := hstep
    rw [hnode.count, hdata.count, hstack.count, if_neg hne.symm,
      if_neg (by unfold sizeof_tcb; omega), if_neg (by unfold sizeof_tcb_list; omega)]
    exact le_rfl
  | mydeallocate ptr size =>
    obtain ⟨_, _, hsize, hfrees⟩ := hstep
    unfold sizeof_join_var at hsize
    rw [hfrees.count, if_neg (by omega)]
    exact le_rfl
  | write a v =>
    obtain ⟨_, _, _, hallocations⟩ := hstep
    rw [hallocations]
    exact le_rfl

/-- A creation leaves the priority queues there. -/
theorem Takes.first {n : ℕ} (h : Takes s s' sizeof_ucontext_t n l)
    (hfirst : s.priority_Queue = true ∨ n ≠ 0) : s'.priority_Queue = true := by
  rcases h.queues with ⟨rfl, hn⟩ | ⟨rfl, _⟩ | ⟨rfl, _⟩
  · exact hfirst.resolve_right fun hne => hne hn
  · exact createQueues_created
  · rw [Threads.takeThreadId]
    exact createQueues_created

/-- Every event keeps the contexts and the stacks of the threads. -/
theorem Lifetimes.Held.step (hctx : sizeof_tcb < sizeof_ucontext_t)
    (hne : sizeof_ucontext_t ≠ FIBER_STACK) (hsmall : sizeof_ucontext_t < 2 ^ 31)
    (h : φ.Held L sizeof_ucontext_t) (hstep : LifeStep L sizeof_ucontext_t φ e φ') :
    φ'.Held L sizeof_ucontext_t := by
  have hle := h.contexts_le hctx hne hsmall hstep
  obtain ⟨⟨bs, hkept⟩, hcontexts, hstacks, hfirst⟩ := h
  cases e with
  | my_pthread_create contents =>
    obtain ⟨hexited, fuel, result, hrun, hids⟩ := hstep
    obtain ⟨l, hgrown, htakes⟩ := my_pthread_create_grown hsmall
      (Lifetimes.Held.ne_nil ⟨⟨bs, hkept⟩, hcontexts, hstacks, hfirst⟩) hrun
    have hcreated : φ'.created = (result.ids φ.queues).length + φ.created := by
      rw [Lifetimes.created, hids, List.length_append, Lifetimes.created]
    have hC := hgrown.count (n := sizeof_ucontext_t)
    have hF := hgrown.count (n := FIBER_STACK)
    have hcontexts' := htakes.contexts
    have hstacks' := htakes.fiberStacks
    refine ⟨hgrown.kept ⟨bs, hkept⟩, by omega, by omega, fun hne => htakes.first ?_⟩
    by_cases hold : φ.created = 0
    · exact Or.inr (by omega)
    · exact Or.inl (hfirst hold)
  | myallocate size =>
    obtain ⟨⟨hids, _, hqueue⟩, hexited, hsize, fuel, p, hrun⟩ := hstep
    have hcreated : φ'.created = φ.created := congrArg List.length hids
    have hgrown := grown_allocate hsize hrun fun hnone => absurd hnone (by simp)
    have hF := hgrown.count (n := FIBER_STACK)
    refine ⟨hgrown.kept ⟨bs, hkept⟩, by omega, ?_, by rwa [hcreated, hqueue]⟩
    rw [hqueue]
    omega
  | exit ss_sp data ptr =>
    obtain ⟨⟨hids, _, hqueue⟩, hlt, hexited, σ₁, σ₂, hstack, hdata, hnode⟩ := hstep
    have hcreated : φ'.created = φ.created := congrArg List.length hids
    obtain ⟨bs₁, hkept₁⟩ := hkept.freed hstack
    obtain ⟨bs₂, hkept₂⟩ := hkept₁.freed hdata
    have hF : φ'.allocations.count FIBER_STACK = φ.allocations.count FIBER_STACK - 1 := by
      rw [hnode.count, hdata.count, hstack.count, if_pos rfl, if_neg (by decide),
        if_neg (by decide)]
      rfl
    refine ⟨hkept₂.freed hnode, by omega, ?_, by rwa [hcreated, hqueue]⟩
    rw [hqueue]
    omega
  | mydeallocate ptr size =>
    obtain ⟨⟨hids, _, hqueue⟩, hexited, hsize, hfrees⟩ := hstep
    have hcreated : φ'.created = φ.created := congrArg List.length hids
    have hF := hfrees.count (n := FIBER_STACK)
    rw [if_neg (by unfold sizeof_join_var at hsize; unfold FIBER_STACK; omega)] at hF
    refine ⟨hkept.freed hfrees, by omega, ?_, by rwa [hcreated, hqueue]⟩
    rw [hqueue]
    omega
  | write a v =>
    obtain ⟨⟨hids, _, hqueue⟩, hexited, hwritable, hallocations⟩ := hstep
    have hcreated : φ'.created = φ.created := congrArg List.length hids
    refine ⟨⟨bs, hallocations ▸ hkept.write hwritable⟩, by omega, ?_, by rwa [hcreated, hqueue]⟩
    rw [hallocations, hcreated, hexited, hqueue]
    exact hstacks

/-- At the start there are no threads, and nothing has to be held. -/
theorem Lifetimes.Held.start (hscheduler : φ.allocations.scheduler = [])
    (hqueue : φ.queues.priority_Queue = false) (hids : φ.ids = [])
    (hsignature : get φ.allocations.mem L.kernalEnd signature ≠ valid) :
    φ.Held L sizeof_ucontext_t := by
  have hcreated : φ.created = 0 := by rw [Lifetimes.created, hids, List.length_nil]
  refine ⟨⟨[], ⟨trivial, fun _ => hsignature, ?_⟩, ⟨List.isChain_nil, by simp⟩, ?_⟩, by omega, ?_,
    fun hne => absurd hcreated hne⟩
  · unfold Layout.schedulerEnd AllocNode.size
    rw [extent_nil]
    omega
  · rw [hscheduler]
    exact List.nil_subperm
  · rw [hqueue, hcreated, Nat.zero_sub]
    exact Nat.zero_le _

/-- In every state that is reached, the blocks of the threads are held in the region. -/
theorem lifeReach_held (hctx : sizeof_tcb < sizeof_ucontext_t)
    (hne : sizeof_ucontext_t ≠ FIBER_STACK) (hsmall : sizeof_ucontext_t < 2 ^ 31)
    (hreach : LifeReach L sizeof_ucontext_t φ) : φ.Held L sizeof_ucontext_t := by
  apply Runs.Reach.invariant (P := Lifetimes.Held L sizeof_ucontext_t) ?_ ?_ hreach
  · rintro φ ⟨hscheduler, hqueue, hids, _, hsignature⟩
    exact .start hscheduler hqueue hids hsignature
  · exact fun φ e φ' hφ _ hstep => hφ.step hctx hne hsmall hstep

/-- The threads are bounded by the region. Nothing frees a context, so all threads that were
ever created have theirs, and those that have not exited have their stacks too. With pages of
4096 bytes at most eleven threads can be there at one time, next to the first one, and only so many
can be created at all as there is room for contexts. -/
theorem threads_bounded (hctx : sizeof_tcb < sizeof_ucontext_t)
    (hne : sizeof_ucontext_t ≠ FIBER_STACK) (hsmall : sizeof_ucontext_t < 2 ^ 31)
    (hreach : LifeReach L sizeof_ucontext_t φ) (hcreated : φ.created ≠ 0) :
    φ.created * (AllocNode.size + sizeof_ucontext_t) +
        (φ.created - φ.exited + 1) * (AllocNode.size + FIBER_STACK) <
      200 * L.PAGE_SIZE + AllocNode.size ∧
    (L.PAGE_SIZE = 4096 → φ.created ≤ φ.exited + 11 ∧
      φ.created * (AllocNode.size + sizeof_ucontext_t) < 753664) := by
  obtain ⟨⟨bs, hkept⟩, hcontexts, hstacks, hfirst⟩ := lifeReach_held hctx hne hsmall hreach
  rw [hfirst hcreated, Bool.toNat_true, Nat.add_comm] at hstacks
  have hbound := hkept.count_lt hne
  have hC := Nat.mul_le_mul_right (AllocNode.size + sizeof_ucontext_t) hcontexts
  have hF := Nat.mul_le_mul_right (AllocNode.size + FIBER_STACK) hstacks
  refine ⟨by omega, fun hpage => ?_⟩
  rw [hpage] at hbound
  unfold AllocNode.size FIBER_STACK at *
  constructor <;> omega

/-- A first creation is a run: it takes the seven blocks of the queues and of the first thread. -/
theorem exists_firstThread : ∃ σ s, LifeReach sampleLayout usualContext ⟨σ, s, [2], 0⟩ ∧
    σ.scheduler.map Prod.snd =
      [sizeof_tcb_list, sizeof_tcb, FIBER_STACK, usualContext, sizeof_my_pthread_mutex_t,
        sizeof_mpq, FIBER_STACK] := by
  have hcreates : (my_pthread_create sampleLayout usualContext 10 (fun _ _ => 0) freshAllocations
      Threads.Queues.zero).map (fun r => (r.1.ids Threads.Queues.zero,
        r.2.1.scheduler.map Prod.snd)) =
        some ([2], [sizeof_tcb_list, sizeof_tcb, FIBER_STACK, usualContext,
          sizeof_my_pthread_mutex_t, sizeof_mpq, FIBER_STACK]) := by
    decide +kernel
  obtain ⟨⟨result, σ, s⟩, hrun, heq⟩ := Option.map_eq_some_iff.mp hcreates
  obtain ⟨hresult, hscheduler⟩ := Prod.mk.inj heq
  have hstart : LifeReach sampleLayout usualContext
      ⟨freshAllocations, Threads.Queues.zero, [], 0⟩ :=
    .start ⟨rfl, rfl, rfl, rfl, by decide⟩
  have hstep : LifeStep sampleLayout usualContext ⟨freshAllocations, Threads.Queues.zero, [], 0⟩
      (.my_pthread_create fun _ _ => 0) ⟨σ, s, [2], 0⟩ :=
    ⟨rfl, 10, result, hrun, by rw [List.append_nil]; exact hresult.symm⟩
  exact ⟨σ, s, hstart.step trivial hstep, hscheduler⟩

/-- The bound for one created thread: its context and the stacks fit in the region. -/
theorem threads_bounded_firstThread : ∃ φ : Lifetimes, φ.ids = [2] ∧ φ.exited = 0 ∧
    φ.allocations.scheduler.map Prod.snd =
      [sizeof_tcb_list, sizeof_tcb, FIBER_STACK, usualContext, sizeof_my_pthread_mutex_t,
        sizeof_mpq, FIBER_STACK] ∧
    1 * (AllocNode.size + usualContext) + (1 + 1) * (AllocNode.size + FIBER_STACK) <
      200 * 4096 + AllocNode.size := by
  obtain ⟨σ, s, hreach, hscheduler⟩ := exists_firstThread
  refine ⟨⟨σ, s, [2], 0⟩, rfl, rfl, hscheduler, ?_⟩
  exact (threads_bounded (by decide) (by decide) (by decide) hreach one_ne_zero).1

/-! ## Thread ids -/

/-- The thread ids are those from 2 on, each taken once, and there is a context for each. -/
structure Lifetimes.Numbered (sizeof_ucontext_t : ℕ) (φ : Lifetimes) : Prop where
  /-- The next id is at most two more than the number of contexts. -/
  next : φ.queues.priority_Queue = true → 2 ≤ φ.queues.thread_count1 ∧
    φ.queues.thread_count1 ≤ φ.allocations.count sizeof_ucontext_t + 2
  /-- Those taken are below it. -/
  taken : ∀ id ∈ φ.ids, 2 ≤ id ∧ id < φ.queues.thread_count1
  /-- No id is taken by two threads. -/
  nodup : φ.ids.Nodup

/-- The id that a creation would take. -/
theorem createQueues_next {n : ℕ} (h : s.priority_Queue = true → 2 ≤ s.thread_count1 ∧
    s.thread_count1 ≤ n + 2) : 2 ≤ (Threads.createQueues s).thread_count1 ∧
      (Threads.createQueues s).thread_count1 ≤ n + 2 := by
  unfold Threads.createQueues
  split
  · exact h ‹_›
  · exact ⟨le_rfl, Nat.le_add_left _ _⟩

/-- The contexts are fewer than there are numbers. -/
theorem Lifetimes.Held.contexts_lt (hne : sizeof_ucontext_t ≠ FIBER_STACK)
    (h : φ.Held L sizeof_ucontext_t) : φ.allocations.count sizeof_ucontext_t < 2 ^ 31 := by
  obtain ⟨bs, hkept⟩ := h.kept
  have hbound := hkept.count_lt hne
  have hfits := L.fits
  have hsize : φ.allocations.count sizeof_ucontext_t ≤
      φ.allocations.count sizeof_ucontext_t * (AllocNode.size + sizeof_ucontext_t) :=
    Nat.le_mul_of_pos_right _ (by unfold AllocNode.size; omega)
  unfold AllocNode.size at *
  omega

/-- Every event keeps the thread ids distinct and below the next one. -/
theorem Lifetimes.Numbered.step (hctx : sizeof_tcb < sizeof_ucontext_t)
    (hne : sizeof_ucontext_t ≠ FIBER_STACK) (hsmall : sizeof_ucontext_t < 2 ^ 31)
    (hheld : φ.Held L sizeof_ucontext_t) (h : φ.Numbered sizeof_ucontext_t)
    (hstep : LifeStep L sizeof_ucontext_t φ e φ') : φ'.Numbered sizeof_ucontext_t := by
  have hle := hheld.contexts_le hctx hne hsmall hstep
  have hstays (hsame : φ.Stays φ') : φ'.Numbered sizeof_ucontext_t := by
    obtain ⟨hids, hcount, hqueue⟩ := hsame
    refine ⟨fun hqueue' => ?_, ?_, hids ▸ h.nodup⟩
    · have := h.next (hqueue ▸ hqueue')
      omega
    · rw [hids, hcount]
      exact h.taken
  cases e with
  | my_pthread_create contents =>
    obtain ⟨hexited, fuel, result, hrun, hids⟩ := hstep
    obtain ⟨l, hgrown, htakes⟩ := my_pthread_create_grown hsmall hheld.ne_nil hrun
    have hcontexts := hheld.contexts_lt hne
    have hC := hgrown.count (n := sizeof_ucontext_t)
    obtain ⟨hlow, hhigh⟩ := createQueues_next h.next
    -- the ids that are taken are below the one that this creation would take
    have hold : ∀ id ∈ φ.ids, 2 ≤ id ∧ id < (Threads.createQueues φ.queues).thread_count1 := by
      intro id hid
      have hqueue : φ.queues.priority_Queue = true :=
        hheld.first fun hzero => List.ne_nil_of_mem hid (List.length_eq_zero_iff.mp hzero)
      rw [Threads.createQueues, if_pos hqueue]
      exact h.taken id hid
    have hnone (hn : (result.ids φ.queues).length = 0) : φ'.ids = φ.ids := by
      rw [hids, List.length_eq_zero_iff.mp hn, List.nil_append]
    rcases htakes.queues with ⟨hsame, hn⟩ | ⟨hcreated, hn⟩ | ⟨htaken, hone⟩
    · exact hstays ⟨hnone hn, by rw [hsame], by rw [hsame]⟩
    · refine ⟨fun _ => ?_, ?_, hnone hn ▸ h.nodup⟩
      · rw [hcreated]
        omega
      · rw [hnone hn, hcreated]
        exact hold
    · have hcount : φ'.queues.thread_count1 =
          (Threads.createQueues φ.queues).thread_count1 + 1 := by
        rw [htaken, Threads.takeThreadId]
        exact Nat.mod_eq_of_lt (by omega)
      refine ⟨fun _ => by omega, ?_, ?_⟩
      · intro id hid
        rw [hids] at hid
        rcases List.mem_append.mp hid with hid | hid
        · cases result with
          | EAGAIN => exact absurd hid (by simp [Creation.ids])
          | enqueue newNode =>
            have := List.mem_singleton.mp hid
            omega
        · have := hold id hid
          omega
      · rw [hids]
        cases result with
        | EAGAIN => exact h.nodup
        | enqueue newNode =>
          exact List.nodup_cons.mpr ⟨fun hid => lt_irrefl _ (hold _ hid).2, h.nodup⟩
  | myallocate size => exact hstays hstep.1
  | exit ss_sp data ptr => exact hstays hstep.1
  | mydeallocate ptr size => exact hstays hstep.1
  | write a v => exact hstays hstep.1

/-- In every state that is reached, moreover, the ids count the threads that were created. -/
theorem lifeReach_numbered (hctx : sizeof_tcb < sizeof_ucontext_t)
    (hne : sizeof_ucontext_t ≠ FIBER_STACK) (hsmall : sizeof_ucontext_t < 2 ^ 31)
    (hreach : LifeReach L sizeof_ucontext_t φ) :
    φ.Held L sizeof_ucontext_t ∧ φ.Numbered sizeof_ucontext_t := by
  apply Runs.Reach.invariant
    (P := fun φ => φ.Held L sizeof_ucontext_t ∧ φ.Numbered sizeof_ucontext_t) ?_ ?_ hreach
  · rintro φ ⟨hscheduler, hqueue, hids, _, hsignature⟩
    refine ⟨.start hscheduler hqueue hids hsignature, ⟨?_, ?_, ?_⟩⟩
    · simp [hqueue]
    · simp [hids]
    · simp [hids]
  · exact fun φ e φ' hφ _ hstep =>
      ⟨hφ.1.step hctx hne hsmall hstep, hφ.2.step hctx hne hsmall hφ.1 hstep⟩

/-- No thread id is used twice, and the page counts of all threads are in the page that is
reserved for them, one behind the other, although no code compares an id with the number of
counts: before the ids reach it the region has no room for another context. -/
theorem page_counts_apart (hctx : 705 ≤ sizeof_ucontext_t)
    (hne : sizeof_ucontext_t ≠ FIBER_STACK) (hsmall : sizeof_ucontext_t < 2 ^ 31)
    (hpage : L.PAGE_SIZE = 4096) (hreach : LifeReach L sizeof_ucontext_t φ) :
    ((1 :: φ.ids).map L.countAddr).Pairwise (fun a b => a + 4 ≤ b ∨ b + 4 ≤ a) ∧
      ∀ id ∈ 1 :: φ.ids, L.endOfPages ≤ L.countAddr id ∧
        L.countAddr id + 4 ≤ threadPagesCountEnd L := by
  have hctx' : sizeof_tcb < sizeof_ucontext_t := by
    unfold sizeof_tcb
    omega
  obtain ⟨hheld, hnext, htaken, hnodup⟩ := lifeReach_numbered hctx' hne hsmall hreach
  have hfirst : 1 ∉ φ.ids := fun hid => absurd (htaken 1 hid).1 (by decide)
  constructor
  · refine List.pairwise_map.mpr ((List.nodup_cons.mpr ⟨hfirst, hnodup⟩).imp ?_)
    intro i j hij
    unfold Layout.countAddr
    omega
  · have hsmallId : ∀ id ∈ 1 :: φ.ids, id < 1024 := by
      intro id hid
      rcases List.mem_cons.mp hid with rfl | hid
      · decide
      · have hqueue : φ.queues.priority_Queue = true :=
          hheld.first fun hzero => List.ne_nil_of_mem hid (List.length_eq_zero_iff.mp hzero)
        have hcount := (hnext hqueue).2
        have hlt := (htaken id hid).2
        have hstacks := hheld.fiberStacks
        rw [hqueue, Bool.toNat_true] at hstacks
        obtain ⟨bs, hkept⟩ := hheld.kept
        have hbound := hkept.count_lt hne
        rw [hpage] at hbound
        have hcontexts := Nat.mul_le_mul_left (φ.allocations.count sizeof_ucontext_t)
          (Nat.add_le_add_left hctx AllocNode.size)
        unfold AllocNode.size FIBER_STACK at *
        omega
    intro id hid
    have := hsmallId id hid
    unfold threadPagesCountEnd Layout.countAddr
    omega

/-- The theorem behind a first creation: the new thread has id 2 and a count of its own. -/
theorem page_counts_apart_firstThread : ∃ φ : Lifetimes, φ.ids = [2] ∧
    ([1, 2].map sampleLayout.countAddr).Pairwise (fun a b => a + 4 ≤ b ∨ b + 4 ≤ a) ∧
    ∀ id ∈ [1, 2], sampleLayout.endOfPages ≤ sampleLayout.countAddr id ∧
      sampleLayout.countAddr id + 4 ≤ threadPagesCountEnd sampleLayout := by
  obtain ⟨σ, s, hreach, _⟩ := exists_firstThread
  exact ⟨⟨σ, s, [2], 0⟩, rfl,
    page_counts_apart (by decide) (by decide) (by decide) rfl hreach⟩

end SimpleOs.Kernal
