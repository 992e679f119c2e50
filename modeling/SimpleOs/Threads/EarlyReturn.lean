import SimpleOs.Library.Runs
import SimpleOs.Threads.Scan

/-!
# Joins that return early

The timer may interrupt a call of `my_pthread_join` anywhere. If it does so while
the call looks for its target, the scheduler moves nodes from queue to queue, and
the call may miss its target and return while the target runs.
-/

namespace SimpleOs.Threads

variable {s s' : Library} {begun begun' handed handed' : List ℕ} {j : Join} {m m' : Machine}
  {v : Version}

/-! ## Calls that are not running -/

/-- What is known of a parked call stays known, as long as its block stays. -/
theorem Join.Guarded.move (h : j.Guarded s begun handed) (hparked : j.Parked begun)
    (hblock : j.freed = false → ∀ b, s.join_block j.block = some b →
      ∃ b', s'.join_block j.block = some b' ∧ b'.thread_waiting_for = b.thread_waiting_for)
    (hbegun : ∀ t ∈ begun, t ∈ begun') (hhanded : ∀ t ∈ handed, t ∈ handed') :
    j.Guarded s' begun' handed' ∧ j.Parked begun' := by
  refine ⟨⟨fun hk => hhanded _ (h.known hk), h.early, fun hf => ?_,
    fun hp hk => hbegun _ (h.past hp hk), fun hscan hk hb => ?_, fun hl hf => ?_⟩, ?_, hparked.2⟩
  · obtain ⟨b, hb, hthread⟩ := h.own hf
    obtain ⟨b', hb', hsame⟩ := hblock hf b hb
    exact ⟨b', hb', hsame.trans hthread⟩
  · exact absurd ⟨hscan, hk, fun hmem => hb (hbegun _ hmem)⟩ hparked.1
  · exact absurd ⟨hl, hf⟩ hparked.2
  · exact fun ⟨hscan, hk, hb⟩ => hparked.1 ⟨hscan, hk, fun hmem => hb (hbegun _ hmem)⟩

/-- The loop of `my_pthread_exit` changes no target and marks only joiners of the
exiting thread, whatever the list looks like. -/
theorem wakeJoiner_same {block block' : Addr → Option JoinBlock} {thread_id fuel : ℕ}
    {p : Option Addr} (h : wakeJoiner block thread_id fuel p = some block') (a : Addr) :
    (∀ b, block a = some b →
      ∃ b', block' a = some b' ∧ b'.thread_waiting_for = b.thread_waiting_for) ∧
    ∀ b', block' a = some b' → b'.done = true →
      b'.thread_waiting_for = thread_id ∨ block a = some b' := by
  induction fuel generalizing p with
  | zero => exact absurd h (by simp [wakeJoiner])
  | succ fuel ih =>
    cases p with
    | none =>
      obtain rfl := Option.some.inj h
      exact ⟨fun b hb => ⟨b, hb, rfl⟩, fun b' hb' _ => Or.inr hb'⟩
    | some c =>
      obtain ⟨b, hb, h⟩ := Option.bind_eq_some_iff.mp h
      split at h
      · rename_i hwaits
        obtain rfl := Option.some.inj h
        by_cases hac : a = c
        · subst hac
          refine ⟨fun b' hb' => ⟨_, Function.update_self _ _ _, ?_⟩, fun b' hb' _ => Or.inl ?_⟩
          · rw [Option.some.inj (hb.symm.trans hb')]
          · rw [Function.update_self] at hb'
            rw [← Option.some.inj hb']
            exact hwaits
        · simp only [Function.update_of_ne hac]
          exact ⟨fun b' hb' => ⟨b', hb', rfl⟩, fun b' hb' _ => Or.inr hb'⟩
      · exact ih h

/-- What a call does to the join blocks. -/
theorem Call.exec_blocks {fuel : ℕ} {call : Call} (h : call.exec v fuel m.lib = some s')
    (a : Addr) :
    (∀ b, m.lib.join_block a = some b →
      ∃ b', s'.join_block a = some b' ∧ b'.thread_waiting_for = b.thread_waiting_for) ∧
    ∀ b', s'.join_block a = some b' → b'.done = true →
      b'.thread_waiting_for ∈ m.begunAfter call ∨ m.lib.join_block a = some b' := by
  cases hexit : call.exiting with
  | false =>
    rw [(Call.exec_joins hexit h).1]
    exact ⟨fun b hb => ⟨b, hb, rfl⟩, fun b' hb' _ => Or.inr hb'⟩
  | true =>
    cases call with
    | exit value_ptr block original =>
      obtain ⟨t, hrun, _, hwake⟩ := Call.exec_exit_joins h
      obtain ⟨hkept, hdone⟩ := wakeJoiner_same hwake a
      refine ⟨hkept, fun b' hb' hd => (hdone b' hb' hd).imp_left fun heq => ?_⟩
      simp [Machine.begunAfter, hrun, heq]
    | create newNode original => exact absurd hexit (by simp [Call.exiting])
    | yield original => exact absurd hexit (by simp [Call.exiting])
    | timer original => exact absurd hexit (by simp [Call.exiting])

/-! ## The queues hold all live threads -/

/-- The queues hold exactly the allocated nodes, and no thread has exited. -/
def Library.Tidy (s : Library) : Prop :=
  ∃ live, Tracked.Sound ⟨s, live⟩ ∧ ∀ a t, s.queues.idAt a = some t → a ∈ live

/-- In a tidy state nobody has exited. -/
theorem Library.Tidy.not_exited (h : s.Tidy) (a : Addr) : ¬ s.queues.ExitedAt a := by
  obtain ⟨live, ⟨_, hstatus⟩, _⟩ := h
  intro hex
  obtain ⟨n, hn, heq⟩ := Option.map_eq_some_iff.mp hex
  exact hstatus a n hn heq

/-- A call whose refill finds queues of the right lengths keeps the queues sound. -/
theorem Tracked.Sound.exec {fuel : ℕ} {call : Call} {live : List Addr}
    (h : Tracked.Sound ⟨s, live⟩) (hok : RefillsExhaust ⟨s, []⟩ (.call call))
    (hexec : call.exec v fuel s = some s') :
    Tracked.Sound
      ⟨s', liveAfter s.queues call.original call.exiting (call.enterLive live)⟩ := by
  have hstep : LibraryStep v ⟨s, live⟩ (.call call)
      ⟨s', liveAfter s.queues call.original call.exiting (call.enterLive live)⟩ :=
    ⟨fuel, hexec, rfl⟩
  obtain ⟨hiff, hstatus⟩ := h.step hstep
  exact ⟨hiff.mpr hok, hstatus⟩

/-- The nodes of live threads are distinct. -/
theorem Tracked.Sound.nodup {τ : Tracked} (h : τ.Sound) : τ.live.Nodup := by
  obtain ⟨⟨r, q, hq, _, hperm⟩, _⟩ := h
  exact hperm.nodup_iff.mp hq.nodup

/-- The threads after a scheduler call are those before it, the original thread on its
first run, and not the one that exits. -/
theorem mem_liveAfter {q : Queues} {original a : Addr} {exiting : Bool} {live : List Addr}
    (ha : a ∈ live) (hstay : exiting = true → q.running_queue_head ≠ some a) :
    a ∈ liveAfter q original exiting live := by
  unfold liveAfter
  split
  · exact List.mem_cons_of_mem _ ha
  · rename_i ptr hhead
    split
    · rename_i hexit
      refine (List.mem_erase_of_ne ?_).mpr ha
      rintro rfl
      exact hstay hexit hhead
    · exact ha

/-- A call whose refill finds queues of the right lengths keeps the state tidy, and
the threads that are there stay there, except for the one that exits. -/
theorem Library.Tidy.exec {fuel : ℕ} {call : Call} (h : s.Tidy)
    (hok : RefillsExhaust ⟨s, []⟩ (.call call)) (hexec : call.exec v fuel s = some s') :
    s'.Tidy ∧
      (∀ newNode original, call = .create newNode original →
        s'.queues.idAt newNode = some s.nextThreadId) ∧
      ∀ a t, s.queues.idAt a = some t → (call.exiting = true ∧ s.runningId = some t) ∨
        s'.queues.idAt a = some t := by
  obtain ⟨hid, _⟩ := Call.exec_same h.not_exited hexec
  obtain ⟨live, hsound, hmem⟩ := h
  have hsound' := hsound.exec hok hexec
  have hnodup : (liveAfter s.queues call.original call.exiting (call.enterLive live)).Nodup :=
    hsound'.nodup
  have hfirst (hnone : s.queues.running_queue_head = none) :
      call.original ∈ liveAfter s.queues call.original call.exiting (call.enterLive live) ∧
        call.original ∉ call.enterLive live := by
    unfold liveAfter at hnodup ⊢
    rw [hnone] at hnodup ⊢
    exact ⟨List.mem_cons_self, (List.nodup_cons.mp hnodup).1⟩
  have hold (a : Addr) (t : ℕ) (ha : s.queues.idAt a = some t) : a ∈ call.enterLive live := by
    cases call with
    | create newNode original => exact List.mem_cons_of_mem _ (hmem a t ha)
    | yield original => exact hmem a t ha
    | timer original => exact hmem a t ha
    | exit value_ptr block original => exact hmem a t ha
  refine ⟨⟨_, hsound', fun a t ha => ?_⟩, fun newNode original hcall => ?_, fun a t ha => ?_⟩
  · rw [hid] at ha
    unfold Call.idsAfter at ha
    split at ha
    · rename_i hnone
      rw [hnone.2]
      exact (hfirst hnone.1).1
    · cases call with
      | create newNode original =>
        refine mem_liveAfter ?_ (by simp [Call.exiting])
        simp only at ha
        split at ha
        · rename_i hnew
          rw [hnew]
          exact List.mem_cons_self
        · exact hold a t ha
      | yield original => exact mem_liveAfter (hold a t ha) (by simp [Call.exiting])
      | timer original => exact mem_liveAfter (hold a t ha) (by simp [Call.exiting])
      | exit value_ptr block original =>
        simp only at ha
        split at ha
        · exact absurd ha (by simp)
        · rename_i hne
          exact mem_liveAfter (hold a t ha) fun _ => hne
  · subst hcall
    have hnew : ¬ (s.queues.running_queue_head = none ∧
        newNode = (Call.create newNode original).original) := by
      rintro ⟨hnone, heq⟩
      exact (hfirst hnone).2 (heq ▸ List.mem_cons_self)
    rw [hid]
    unfold Call.idsAfter
    rw [if_neg hnew]
    exact if_pos rfl
  · have hnew : ¬ (s.queues.running_queue_head = none ∧ a = call.original) := by
      rintro ⟨hnone, rfl⟩
      exact (hfirst hnone).2 (hold _ t ha)
    rw [hid]
    unfold Call.idsAfter
    rw [if_neg hnew]
    cases call with
    | create newNode original =>
      right
      have hne : a ≠ newNode := by
        rintro rfl
        have hlive : (a :: live).Nodup := by
          unfold liveAfter at hnodup
          split at hnodup
          · exact (List.nodup_cons.mp hnodup).2
          · exact hnodup
        exact (List.nodup_cons.mp hlive).1 (hmem a t ha)
      exact (if_neg hne).trans ha
    | yield original => exact Or.inr ha
    | timer original => exact Or.inr ha
    | exit value_ptr block original =>
      simp only
      split
      · rename_i hhead
        left
        refine ⟨rfl, ?_⟩
        simp only [Library.runningId, hhead, Option.bind_some]
        exact ha
      · exact Or.inr ha

/-- A creation that fails keeps the state tidy. -/
theorem Library.Tidy.createFails (h : s.Tidy) (failure : AllocFailure) :
    Library.Tidy { s with queues := createFails s.queues failure } := by
  obtain ⟨live, hsound, hmem⟩ := h
  obtain ⟨hiff, hstatus⟩ := hsound.step (v := .Pthreads) (e := .createFails failure) rfl
  refine ⟨live, ⟨hiff.mpr trivial, hstatus⟩, fun a t ha => hmem a t ?_⟩
  simp only [Queues.idAt, (createFails_same s.queues failure).1] at ha
  exact ha

/-- A tidy state with the created threads that have not exited is complete. -/
theorem Library.Tidy.complete (h : s.Tidy)
    (hhanded : ∀ t ∈ handed, t ∉ begun → ∃ a, s.queues.idAt a = some t) :
    Complete s begun handed := by
  obtain ⟨live, ⟨⟨r, q, hq, _, hperm⟩, _⟩, hmem⟩ := h
  refine ⟨r, q, hq, fun t ht hb => ?_⟩
  obtain ⟨a, ha⟩ := hhanded t ht hb
  exact ⟨a, hperm.mem_iff.mpr (hmem a t ha), ha⟩

/-! ## The machine -/

/-- The condition on an event: the timer does not interrupt a call that is looking for
a live target, or one that walks the list of joiners from its freed block, and a
refill finds queues of the right lengths. -/
def EarlySafe (m : Machine) : MachineEvent → Prop
  | .call call => RefillsExhaust ⟨m.lib, []⟩ (.call call)
  | .timer => (∀ a j, m.lib.queues.running_queue_head = some a → m.joining a = some j →
      j.Parked m.begun) ∧ RefillsExhaust ⟨m.lib, []⟩ (.call (.timer 0))
  | .wait => RefillsExhaust ⟨m.lib, []⟩ (.call (.yield 0))
  | _ => True

/-- The invariant of the runs: every call that is past its search has a target that has begun to
exit, or will wait for it. -/
structure Machine.Faithful (m : Machine) : Prop where
  /-- The queues hold the live threads. -/
  tidy : m.lib.Tidy
  /-- A created thread is live until it begins to exit. -/
  handed : ∀ t ∈ m.handed, t ∉ m.begun → ∃ a, m.lib.queues.idAt a = some t
  /-- Only the blocks of joiners of exited threads are done. -/
  done : ∀ b blk, m.lib.join_block b = some blk → blk.done = true → blk.thread_waiting_for ∈ m.begun
  /-- The calls of `my_pthread_join` in progress are guarded. -/
  guarded : ∀ a j, m.joining a = some j → j.Guarded m.lib m.begun m.handed
  /-- Calls are interrupted where it does no harm. -/
  parked : ∀ a j, m.joining a = some j → m.lib.queues.running_queue_head ≠ some a →
    j.Parked m.begun
  /-- Two calls in progress have different blocks until they free them. -/
  distinct : ∀ a b j k, m.joining a = some j → m.joining b = some k → j.freed = false →
    k.freed = false → j.block = k.block → a = b
  /-- No call has returned early. -/
  returned : ∀ t ∈ m.returned, t ∈ m.begun

/-- A call of the library, made while all calls of `my_pthread_join` are parked. -/
theorem Machine.Faithful.exec {fuel : ℕ} {call : Call} {lib : Library} (h : m.Faithful)
    (hok : RefillsExhaust ⟨m.lib, []⟩ (.call call))
    (hparked : ∀ a j, m.joining a = some j → j.Parked m.begun)
    (hexec : call.exec v fuel m.lib = some lib) :
    Machine.Faithful
      { m with lib := lib, handed := m.handedAfter call, begun := m.begunAfter call } := by
  obtain ⟨htidy, hnew, hold⟩ := h.tidy.exec hok hexec
  have hbegun (t : ℕ) (ht : t ∈ m.begun) : t ∈ m.begunAfter call := by
    cases call <;> simp [Machine.begunAfter, ht]
  have hhanded (t : ℕ) (ht : t ∈ m.handed) : t ∈ m.handedAfter call := by
    cases call <;> simp [Machine.handedAfter, ht]
  have hmove (a : Addr) (j : Join) (hj : m.joining a = some j) :
      j.Guarded lib (m.begunAfter call) (m.handedAfter call) ∧ j.Parked (m.begunAfter call) :=
    (h.guarded a j hj).move (hparked a j hj) (fun _ => (Call.exec_blocks hexec j.block).1)
      hbegun hhanded
  refine ⟨htidy, fun t ht hb => ?_, fun b blk hb hd => ?_, fun a j hj => (hmove a j hj).1,
    fun a j hj _ => (hmove a j hj).2, h.distinct, fun t ht => hbegun t (h.returned t ht)⟩
  · have hlive (ht : t ∈ m.handed) : ∃ a, lib.queues.idAt a = some t := by
      obtain ⟨a, ha⟩ := h.handed t ht fun hmem => hb (hbegun t hmem)
      rcases hold a t ha with ⟨hexit, hrun⟩ | hsame
      · cases call with
        | exit value_ptr block original => exact absurd (by simp [Machine.begunAfter, hrun]) hb
        | create newNode original => exact absurd hexit (by simp [Call.exiting])
        | yield original => exact absurd hexit (by simp [Call.exiting])
        | timer original => exact absurd hexit (by simp [Call.exiting])
      · exact ⟨a, hsame⟩
    cases call with
    | create newNode original =>
      rcases List.mem_cons.mp ht with rfl | ht
      · exact ⟨newNode, hnew newNode original rfl⟩
      · exact hlive ht
    | yield original => exact hlive ht
    | timer original => exact hlive ht
    | exit value_ptr block original => exact hlive ht
  · rcases (Call.exec_blocks hexec b).2 blk hb hd with hmem | hsame
    · exact hmem
    · exact hbegun _ (h.done b blk hsame hd)

/-- All calls are parked, if the one of the running thread is. -/
theorem Machine.Faithful.all_parked (h : m.Faithful)
    (hrunning : ∀ a j, m.lib.queues.running_queue_head = some a → m.joining a = some j →
      j.Parked m.begun) (a : Addr) (j : Join) (hj : m.joining a = some j) : j.Parked m.begun := by
  by_cases hhead : m.lib.queues.running_queue_head = some a
  · exact hrunning a j hhead hj
  · exact h.parked a j hj hhead

/-- Soundness is about the queues only. -/
theorem Tracked.Sound.of_queues {live : List Addr} (h : Tracked.Sound ⟨s, live⟩)
    (hq : s'.queues = s.queues) : Tracked.Sound ⟨s', live⟩ := by
  unfold Tracked.Sound at h ⊢
  simp only [hq]
  exact h

/-- A state with the same queues is as tidy. -/
theorem Library.Tidy.of_queues (h : s.Tidy) (hq : s'.queues = s.queues) : s'.Tidy := by
  obtain ⟨live, hsound, hmem⟩ := h
  rw [← hq] at hmem
  exact ⟨live, hsound.of_queues hq, hmem⟩

/-- The running thread resumes from its yield. -/
theorem Machine.Faithful.resume {a : Addr} (h : m.Faithful) (hj : m.joining a = some j)
    (hpc : j.pc = .waitYield) :
    Machine.Faithful { m with joining := Function.update m.joining a (j.goto .waitTest) } := by
  have hguarded : (j.goto .waitTest).Guarded m.lib m.begun m.handed := by
    refine (h.guarded a j hj).next (j.succ_goto _) rfl (SameBlocks.refl m.lib) ?_ ?_ rfl ?_ <;>
      simp [hpc, JoinPc.past, JoinPc.early, JoinPc.inLoop]
  have hold (c : Addr) (k : Join) (hc : c ≠ a)
      (hk : Function.update m.joining a (some (j.goto .waitTest)) c = some k) :
      m.joining c = some k := by simpa [hc] using hk
  have hnew (k : Join) (hk : Function.update m.joining a (some (j.goto .waitTest)) a = some k) :
      k = j.goto .waitTest := by simpa using hk.symm
  refine ⟨h.tidy, h.handed, h.done, fun c k hk => ?_, fun c k hk hc => ?_,
    fun c d k i hk hi hkf hif heq => ?_, h.returned⟩
  · by_cases hca : c = a
    · subst hca
      rw [hnew k hk]
      exact hguarded
    · exact h.guarded c k (hold c k hca hk)
  · by_cases hca : c = a
    · subst hca
      rw [hnew k hk]
      exact ⟨fun hscan => absurd hscan.1.2 (by simp [JoinPc.midScan]),
        fun hloop => absurd hloop.1 (by simp [JoinPc.inLoop])⟩
    · exact h.parked c k (hold c k hca hk) hc
  · by_cases hca : c = a <;> by_cases hda : d = a
    · rw [hca, hda]
    · subst hca
      obtain rfl := hnew k hk
      exact h.distinct c d j i hj (hold d i hda hi) hkf hif heq
    · subst hda
      obtain rfl := hnew i hi
      exact h.distinct c d k j (hold c k hca hk) hj hkf hif heq
    · exact h.distinct c d k i (hold c k hca hk) (hold d i hda hi) hkf hif heq

/-- A step of one call does not free the block of another. -/
theorem Machine.Faithful.freedNow_ne {a c : Addr} {k : Join} (h : m.Faithful)
    (hj : m.joining a = some j) (hk : m.joining c = some k) (hca : c ≠ a)
    (hkf : k.freed = false) : j.freedNow ≠ some k.block := by
  intro hfreed
  have hblock : j.block = k.block := by
    unfold Join.freedNow at hfreed
    split at hfreed
    · exact Option.some.inj hfreed
    · exact Option.some.inj hfreed
    · exact absurd hfreed (by simp)
  cases hjf : j.freed with
  | false => exact hca (h.distinct c a k j hk hj hkf hjf hblock.symm)
  | true =>
    obtain ⟨b, hb, _⟩ := (h.guarded c k hk).own hkf
    have hpc : j.pc = .unlinkHeadFree ∨ j.pc = .unlinkFree := by
      unfold Join.freedNow at hfreed
      split at hfreed
      · exact Or.inl ‹_›
      · exact Or.inr ‹_›
      · exact absurd hfreed (by simp)
    rcases hpc with hpc | hpc
    · have := (h.guarded a j hj).early (by rw [hpc]; rfl)
      exact absurd (hjf.symm.trans this) (by simp)
    · have hgone := (h.guarded a j hj).gone (by rw [hpc]; rfl) hjf
      rw [hblock, hb] at hgone
      exact absurd hgone (by simp)

/-- A step of the running call keeps the invariant. -/
theorem Machine.Faithful.step_join {a : Addr} {lib : Library} {next : Option Join}
    {garbage : Option Addr} (h : m.Faithful) (hhead : m.lib.queues.running_queue_head = some a)
    (hj : m.joining a = some j) (hstep : j.step m.lib garbage = some (lib, next)) :
    Machine.Faithful
      { m with
        lib := lib
        joining := Function.update m.joining a next
        returned := if next = none ∧ j.known then j.thread :: m.returned else m.returned } := by
  obtain ⟨hqueues, hsame⟩ := Join.step_same hstep
  have hnext := (h.guarded a j hj).step (h.tidy.complete h.handed) h.done hstep
  have hold (c : Addr) (k : Join) (hc : c ≠ a) (hk : Function.update m.joining a next c = some k) :
      m.joining c = some k := by simpa [hc] using hk
  have hnew (k : Join) (hk : Function.update m.joining a next a = some k) :
      j.Succ k ∧ k.Guarded lib m.begun m.handed := by
    rw [Function.update_self] at hk
    rcases hnext with ⟨hnone, _⟩ | ⟨j', hj', hsucc, hguarded⟩
    · exact absurd (hnone.symm.trans hk) (by simp)
    · obtain rfl := Option.some.inj (hj'.symm.trans hk)
      exact ⟨hsucc, hguarded⟩
  have hparked (c : Addr) (k : Join) (hca : c ≠ a) (hk : m.joining c = some k) :
      k.Parked m.begun := by
    refine h.parked c k hk fun hc => hca ?_
    exact Option.some.inj (hc.symm.trans hhead)
  refine ⟨h.tidy.of_queues hqueues, fun t ht hb => ?_, fun b blk hb hd => ?_, fun c k hk => ?_,
    fun c k hk hc => ?_, fun c d k i hk hi hkf hif heq => ?_, fun t ht => ?_⟩
  · rw [hqueues]
    exact h.handed t ht hb
  · obtain ⟨blk', hblk', hdone, hthread⟩ := hsame.before hb
    rw [hthread]
    exact h.done b blk' hblk' (hdone ▸ hd)
  · by_cases hca : c = a
    · subst hca
      exact (hnew k hk).2
    · have hk' := hold c k hca hk
      exact ((h.guarded c k hk').move (hparked c k hca hk') (fun hkf b hb =>
        hsame.after hb (h.freedNow_ne hj hk' hca hkf)) (fun _ => id) fun _ => id).1
  · by_cases hca : c = a
    · subst hca
      exact absurd ((congrArg Queues.running_queue_head hqueues).trans hhead) hc
    · exact hparked c k hca (hold c k hca hk)
  · by_cases hca : c = a <;> by_cases hda : d = a
    · rw [hca, hda]
    · subst hca
      have hsucc := (hnew k hk).1
      exact h.distinct c d j i hj (hold d i hda hi) (hsucc.freed hkf) hif (hsucc.block ▸ heq)
    · subst hda
      have hsucc := (hnew i hi).1
      exact h.distinct c d k j (hold c k hca hk) hj hkf (hsucc.freed hif) (hsucc.block ▸ heq)
    · exact h.distinct c d k i (hold c k hca hk) (hold d i hda hi) hkf hif heq
  · simp only at ht
    split at ht
    · rename_i hreturn
      rcases List.mem_cons.mp ht with rfl | ht
      · rcases hnext with ⟨_, hbegun⟩ | ⟨j', hj', _, _⟩
        · exact hbegun hreturn.2
        · exact absurd (hreturn.1.symm.trans hj') (by simp)
      · exact h.returned t ht
    · exact h.returned t ht

/-- A call of `my_pthread_join` that begins, with a fresh block, keeps the invariant. -/
theorem Machine.Faithful.start_join {a block : Addr} {thread : ℕ} {value_ptr : Bool}
    {next : Option Addr} (h : m.Faithful) (hhead : m.lib.queues.running_queue_head = some a)
    (hnone : m.joining a = none) (hfresh : m.lib.join_block block = none) :
    Machine.Faithful
      { m with
        lib := m.lib.newJoin thread block next
        joining := Function.update m.joining a (m.startJoin thread value_ptr block) } := by
  have hkept (c : Addr) (b : JoinBlock) (hb : m.lib.join_block c = some b) :
      (m.lib.newJoin thread block next).join_block c = some b := by
    have hc : c ≠ block := by
      rintro rfl
      exact absurd (hfresh.symm.trans hb) (by simp)
    simpa [Library.newJoin, hc] using hb
  have hold (c : Addr) (k : Join) (hc : c ≠ a)
      (hk : Function.update m.joining a (some (m.startJoin thread value_ptr block)) c = some k) :
      m.joining c = some k := by simpa [hc] using hk
  have hnew (k : Join)
      (hk : Function.update m.joining a (some (m.startJoin thread value_ptr block)) a = some k) :
      k = m.startJoin thread value_ptr block := by simpa using hk.symm
  have hparked (c : Addr) (k : Join) (hca : c ≠ a) (hk : m.joining c = some k) :
      k.Parked m.begun := by
    refine h.parked c k hk fun hc => hca ?_
    exact Option.some.inj (hc.symm.trans hhead)
  -- an unfreed block of another call is allocated, and so it is not the new one
  have hother (c : Addr) (k : Join) (hk : m.joining c = some k) (hkf : k.freed = false) :
      k.block ≠ block := by
    obtain ⟨b, hb, _⟩ := (h.guarded c k hk).own hkf
    intro heq
    rw [heq, hfresh] at hb
    exact absurd hb (by simp)
  refine ⟨h.tidy.of_queues rfl, h.handed, fun b blk hb hd => ?_, fun c k hk => ?_,
    fun c k hk hc => ?_, fun c d k i hk hi hkf hif heq => ?_, h.returned⟩
  · by_cases hbb : b = block
    · subst hbb
      simp only [Library.newJoin, Function.update_self, Option.some.injEq] at hb
      rw [← hb] at hd
      exact absurd hd (by simp)
    · exact h.done b blk (by simpa [Library.newJoin, hbb] using hb) hd
  · by_cases hca : c = a
    · subst hca
      rw [hnew k hk]
      refine ⟨fun hk => by simpa [Machine.startJoin] using hk, fun _ => rfl,
        fun _ => ⟨_, Function.update_self _ _ _, rfl⟩, fun hp => ?_, fun hscan => ?_, fun hl => ?_⟩
      · exact absurd hp (by simp [Machine.startJoin, JoinPc.past, JoinPc.early])
      · exact absurd hscan.2 (by simp [Machine.startJoin, JoinPc.midScan])
      · exact absurd hl (by simp [Machine.startJoin, JoinPc.inLoop])
    · have hk' := hold c k hca hk
      exact ((h.guarded c k hk').move (hparked c k hca hk')
        (fun _ b hb => ⟨b, hkept _ b hb, rfl⟩) (fun _ => id) fun _ => id).1
  · by_cases hca : c = a
    · subst hca
      exact absurd hhead hc
    · exact hparked c k hca (hold c k hca hk)
  · by_cases hca : c = a <;> by_cases hda : d = a
    · rw [hca, hda]
    · subst hca
      obtain rfl := hnew k hk
      exact absurd heq.symm (hother d i (hold d i hda hi) hif)
    · subst hda
      obtain rfl := hnew i hi
      exact absurd heq (hother c k (hold c k hca hk) hkf)
    · exact h.distinct c d k i (hold c k hca hk) (hold d i hda hi) hkf hif heq

/-- Every event that does not interrupt a search for its target keeps the invariant. -/
theorem Machine.Faithful.step {e : MachineEvent} (h : m.Faithful) (hok : EarlySafe m e)
    (hstep : MachineStep v m e m') : m'.Faithful := by
  cases e with
  | call call =>
    obtain ⟨hout, fuel, lib, hexec, rfl⟩ := hstep
    refine h.exec hok (h.all_parked fun a j ha hj => ?_) hexec
    exact absurd ((hout a ha).symm.trans hj) (by simp)
  | createFails failure =>
    obtain ⟨hout, rfl⟩ := hstep
    have hparked := h.all_parked fun a j ha hj => absurd ((hout a ha).symm.trans hj) (by simp)
    refine ⟨h.tidy.createFails failure, fun t ht hb => ?_, h.done, fun a j hj => ?_,
      fun a j hj _ => hparked a j hj, h.distinct, h.returned⟩
    · obtain ⟨a, ha⟩ := h.handed t ht hb
      refine ⟨a, ?_⟩
      simp only [Queues.idAt, (createFails_same m.lib.queues failure).1]
      exact ha
    · have hsame : SameBlocks m.lib
          { m.lib with queues := Threads.createFails m.lib.queues failure } none := fun _ => by simp
      exact ((h.guarded a j hj).move (hparked a j hj) (fun _ b hb => hsame.after hb (by simp))
        (fun _ => id) fun _ => id).1
  | timer =>
    obtain ⟨fuel, lib, hexec, rfl⟩ := hstep
    exact h.exec hok.2 (h.all_parked hok.1) hexec
  | join thread value_ptr block next =>
    obtain ⟨a, hhead, hnone, hfresh, rfl⟩ := hstep
    exact h.start_join hhead hnone hfresh
  | step garbage =>
    obtain ⟨a, j, lib, j', hhead, hj, hstep, rfl⟩ := hstep
    exact h.step_join hhead hj hstep
  | wait =>
    obtain ⟨a, j, fuel, lib, hhead, hj, hpc, hexec, rfl⟩ := hstep
    refine (h.exec hok (h.all_parked fun b k hb hk => ?_) hexec).resume hj hpc
    obtain rfl := Option.some.inj (hhead.symm.trans hb)
    obtain rfl := Option.some.inj (hj.symm.trans hk)
    exact ⟨fun hscan => absurd hscan.1.2 (by simp [hpc, JoinPc.midScan]),
      fun hloop => absurd hloop.1 (by simp [hpc, JoinPc.inLoop])⟩

/-- Before the first call nothing has happened. -/
theorem faithful_zero : Machine.zero.Faithful := by
  refine ⟨⟨[], sound_zero, ?_⟩, ?_, ?_, ?_, ?_, ?_, ?_⟩
  · simp [Machine.zero, Library.zero, Queues.zero, Queues.idAt]
  all_goals simp [Machine.zero, Library.zero]

/-- The states reached by events that meet `ok`. -/
def JoinReach (v : Version) (ok : Machine → MachineEvent → Prop) : Machine → Prop :=
  Runs.Reach (fun m => m = Machine.zero) (MachineStep v) ok

/-- The invariant holds in every state that such events reach. -/
theorem joinReach_faithful (h : JoinReach v EarlySafe m) : m.Faithful := by
  refine Runs.Reach.invariant (P := Machine.Faithful) ?_
    (fun _ _ _ hm hok hstep => hm.step hok hstep)
    h
  rintro _ rfl
  exact faithful_zero

/-- In every run in which the timer does not interrupt a call that is looking for its
target, a join of a created thread returns only after that thread has begun to exit. -/
theorem join_not_early (v : Version) (m : Machine) (h : JoinReach v EarlySafe m) :
    ∀ t ∈ m.returned, t ∈ m.begun :=
  (joinReach_faithful h).returned

/-! ## Few threads -/

/-- At most three threads are live, and one of them runs. -/
def Library.Few (s : Library) : Prop :=
  s.queues.running_queue_head ≠ none ∧ ∃ live, Tracked.Sound ⟨s, live⟩ ∧ live.length ≤ 3

/-- Few threads stay few, and their refills find queues of the right lengths. -/
theorem Library.Few.exec {fuel : ℕ} {call : Call} (h : s.Few)
    (hcall : ∀ newNode original, call ≠ .create newNode original)
    (hexec : call.exec v fuel s = some s') : RefillsExhaust ⟨s, []⟩ (.call call) ∧ s'.Few := by
  obtain ⟨hrunning, live, hsound, hlength⟩ := h
  have hlive :
      (liveAfter s.queues call.original call.exiting (call.enterLive live)).length ≤ 3 := by
    have henter : call.enterLive live = live := by
      cases call <;> first | rfl | exact absurd rfl (hcall _ _)
    rw [henter]
    unfold liveAfter
    split
    · exact absurd ‹_› hrunning
    · split
      · exact le_trans (List.length_erase_le) hlength
      · exact hlength
  have hok : RefillsExhaust ⟨s, live⟩ (.call call) := hsound.refillsExhaust hlive
  have hnone (a : Addr) : ¬ s.queues.ExitedAt a := by
    intro hex
    obtain ⟨n, hn, heq⟩ := Option.map_eq_some_iff.mp hex
    exact hsound.2 a n hn heq
  exact ⟨hok, (Call.exec_same hnone hexec).2.2.2, _, hsound.exec hok hexec, hlive⟩

/-- The events that neither create a thread nor are the timer. -/
def MachineEvent.shrinks : MachineEvent → Bool
  | .call (.exit _ _ _) => true
  | .join _ _ _ _ => true
  | .step _ => true
  | .wait => true
  | _ => false

/-- One of these events, of few threads. -/
theorem Library.Few.step {e : MachineEvent} (h : m.lib.Few) (he : e.shrinks = true)
    (hstep : MachineStep v m e m') : EarlySafe m e ∧ m'.lib.Few := by
  cases e with
  | call call =>
    obtain ⟨_, fuel, lib, hexec, rfl⟩ := hstep
    refine h.exec ?_ hexec
    rintro newNode original rfl
    exact absurd he (by simp [MachineEvent.shrinks])
  | createFails failure => exact absurd he (by simp [MachineEvent.shrinks])
  | timer => exact absurd he (by simp [MachineEvent.shrinks])
  | join thread value_ptr block next =>
    obtain ⟨a, _, _, _, rfl⟩ := hstep
    exact ⟨trivial, h⟩
  | step garbage =>
    obtain ⟨a, j, lib, j', _, _, hstep, rfl⟩ := hstep
    obtain ⟨hrunning, live, hsound, hlength⟩ := h
    have hqueues := (Join.step_same hstep).1
    refine ⟨trivial, ?_, live, hsound.of_queues hqueues, hlength⟩
    rw [hqueues]
    exact hrunning
  | wait =>
    obtain ⟨a, j, fuel, lib, _, _, _, hexec, rfl⟩ := hstep
    exact h.exec (fun _ _ => by simp) hexec

/-- A sequence of these events, of few threads, is a run. -/
theorem joinReach_few {fuel : ℕ} {es : List MachineEvent} (hes : ∀ e ∈ es, e.shrinks = true)
    (hfew : m.lib.Few) (hm : JoinReach v EarlySafe m) (h : execEvents v fuel es m = some m') :
    JoinReach v EarlySafe m' := by
  rw [execEvents_eq] at h
  refine hm.execAll_invariant (P := fun m => m.lib.Few) ?_ hfew h
  intro e he m m' hfew hexec
  have hstep := Machine.exec_step hexec
  obtain ⟨hok, hfew'⟩ := hfew.step (hes e he) hstep
  exact ⟨hok, hstep, hfew'⟩

/-- Thread 1 joins thread 2, which exits, and then returns from the join. -/
def joinAndExit : List MachineEvent :=
  .join 2 false 10 none :: List.replicate 16 (.step none) ++ [.wait, .call (.exit 0 0 0)] ++
    List.replicate 6 (.step none)

/-- The theorem at that run, in which a join of thread 2 has returned. -/
theorem join_not_early_oneJoiner :
    ∃ m, JoinReach .Pthreads EarlySafe m ∧ m.returned = [2] ∧ 2 ∈ m.begun := by
  have hrun : ((Machine.zero.exec .Pthreads 10 (.call (.create 2 1))).bind
      (execEvents .Pthreads 10 joinAndExit)).map (·.returned) = some [2] := rfl
  obtain ⟨m, hm, hreturned⟩ := Option.map_eq_some_iff.mp hrun
  obtain ⟨m₁, hm₁, hm⟩ := Option.bind_eq_some_iff.mp hm
  have hstep := Machine.exec_step hm₁
  have hok : RefillsExhaust ⟨Library.zero, []⟩ (.call (.create 2 1)) :=
    sound_zero.refillsExhaust (by decide)
  have hfew : m₁.lib.Few := by
    obtain ⟨_, fuel, lib, hexec, rfl⟩ := hstep
    exact ⟨(Call.exec_same faithful_zero.tidy.not_exited hexec).2.2.2, _,
      sound_zero.exec hok hexec, by decide⟩
  have hreach := joinReach_few (by simp [joinAndExit, MachineEvent.shrinks]) hfew
    (.step (.start rfl) (e := .call (.create 2 1)) hok hstep) hm
  exact ⟨m, hreach, hreturned, join_not_early .Pthreads m hreach 2 (by simp [hreturned])⟩

/-! ## The interrupted scan -/

/-- Thread 1 joins thread 2 and has looked at priority queue 0 when the timer fires.
Thread 2 yields twice, and so it is on priority queue 0 when thread 1 goes on. -/
def interruptedScan : List MachineEvent :=
  [.call (.create 2 1), .join 2 false 10 none] ++ List.replicate 5 (.step none) ++
    [.timer, .call (.yield 0), .call (.yield 0)] ++ List.replicate 13 (.step none)

/-- A sequence of events is a run. -/
theorem joinReach_execEvents {fuel : ℕ} {es : List MachineEvent}
    (hm : JoinReach v (fun _ _ => True) m) (h : execEvents v fuel es m = some m') :
    JoinReach v (fun _ _ => True) m' := by
  rw [execEvents_eq] at h
  exact hm.execAll (fun _ _ _ _ hexec => ⟨trivial, Machine.exec_step hexec⟩) h

/-- The join returns while thread 2 is alive. -/
theorem join_returns_early :
    (∃ m, JoinReach .Pthreads (fun _ _ => True) m ∧ ¬ ∀ t ∈ m.returned, t ∈ m.begun) ∧
      ∃ m, JoinReach .Memory_Manager (fun _ _ => True) m ∧ ¬ ∀ t ∈ m.returned, t ∈ m.begun := by
  have hearly (v : Version) :
      ∃ m, JoinReach v (fun _ _ => True) m ∧ ¬ ∀ t ∈ m.returned, t ∈ m.begun := by
    have hrun : (execEvents v 10 interruptedScan Machine.zero).map (fun m =>
        (m.returned, m.begun)) = some ([2], []) := by
      cases v <;> rfl
    obtain ⟨m, hm, heq⟩ := Option.map_eq_some_iff.mp hrun
    obtain ⟨hreturned, hbegun⟩ := Prod.mk.inj heq
    refine ⟨m, joinReach_execEvents (.start rfl) hm, ?_⟩
    simp [hreturned, hbegun]
  exact ⟨hearly _, hearly _⟩

end SimpleOs.Threads
