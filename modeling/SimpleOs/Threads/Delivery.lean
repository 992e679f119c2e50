import SimpleOs.Threads.Walk

/-!
# Return values are delivered

A join gets the value of its target if the exiting thread is not interrupted between
the mark for the joiner and the end of its push, and a joiner not while it walks the
list of return values. Otherwise a joiner that has been marked may come too early.
-/

namespace SimpleOs.Threads

open LinkedList

variable {d d' : Delivery} {j j' : Join} {e e' : Exit} {l l' : List Addr} {a : Addr} {t : ℕ}
  {next : Option Join} {v : Version}

/-! ## What holds after every event -/

/-- What is known of the threads that exit. -/
structure Delivery.Named (d : Delivery) : Prop where
  /-- The ids of the live threads are distinct, and none of them is gone. -/
  ids : Identified d.lib d.gone
  /-- A thread that is gone has exited. -/
  left : ∀ t ∈ d.gone, ∃ v, (t, v) ∈ d.exits
  /-- A call of `my_pthread_exit` is recorded. -/
  named : ∀ a e, d.exiting a = some e →
    ∃ t, d.lib.queues.idAt a = some t ∧ (t, e.value_ptr) ∈ d.exits
  /-- A thread that has called `my_pthread_exit` is in it, or gone. -/
  began : ∀ t v, (t, v) ∈ d.exits →
    t ∈ d.gone ∨ ∃ a e, d.exiting a = some e ∧ d.lib.queues.idAt a = some t
  /-- A thread exits once, so with one value. -/
  once : ∀ t v w, (t, v) ∈ d.exits → (t, w) ∈ d.exits → v = w

/-- What is known of the number of joins. -/
structure Delivery.Counted (d : Delivery) : Prop where
  /-- A call in progress is counted. -/
  joined : ∀ a j, d.machine.joining a = some j → j.value_ptr = true → j.thread ∈ d.joins
  /-- A call that has returned is counted. -/
  returned : ∀ r ∈ d.delivered, r.value_ptr = true → r.thread ∈ d.joins
  /-- If one call is counted, there are not two in progress. -/
  unique : ∀ a c j k, d.machine.joining a = some j → d.machine.joining c = some k →
    j.value_ptr = true → k.value_ptr = true → j.thread = k.thread →
      d.joins.count j.thread ≤ 1 → a = c
  /-- If one call is counted, not one is in progress and another has returned. -/
  single : ∀ a j r, d.machine.joining a = some j → r ∈ d.delivered → j.value_ptr = true →
    r.value_ptr = true → d.joins.count j.thread ≤ 1 → r.thread ≠ j.thread

/-- The blocks of return values that only one thread knows. -/
structure Delivery.Private (d : Delivery) (l : List Addr) : Prop where
  /-- They are not in the list. -/
  outside : ∀ a x, d.holds a = some x → x ∉ l
  /-- Two calls do not hold the same block. -/
  alone : ∀ a c x, d.holds a = some x → d.holds c = some x → a = c
  /-- A block that a call holds is allocated. -/
  allocated : ∀ a x, d.holds a = some x → d.lib.retval_block x ≠ none

/-- No return value is lost. -/
structure Delivery.Stored (d : Delivery) (l : List Addr) : Prop where
  /-- The list of return values is a proper list. -/
  list : d.lib.Returns l
  /-- It holds values of exited threads. -/
  listed : ∀ x ∈ l, ∀ b, d.lib.retval_block x = some b → b.entry ∈ d.exits
  /-- A value is with its thread, in the list, or with a joiner. -/
  kept : ∀ t v, (t, v) ∈ d.exits → v ≠ 0 →
    d.Unpublished t ∨ d.lib.Listed l t ∨ d.Collected t

/-- The invariant of the runs, with the return values `l`: each value is with its thread, in the
list, or with a joiner that has the right one. -/
structure Delivery.Sound (d : Delivery) (l : List Addr) : Prop
    extends d.Named, d.Counted, d.Private l, d.Stored l where
  /-- A thread is in one call at most. -/
  apart : ∀ a e, d.exiting a = some e → d.machine.joining a = none
  /-- The calls of `my_pthread_join` in progress. -/
  join : ∀ a j, d.machine.joining a = some j → j.Sound d d.lib l (d.live a)
  /-- The calls of `my_pthread_exit` in progress. -/
  exit : ∀ a e t, d.exiting a = some e → d.lib.queues.idAt a = some t → e.Sound d.lib t
  /-- Only the blocks of joiners of exited threads are done. -/
  done : ∀ b blk, d.lib.join_block b = some blk → blk.done = true → d.Woke blk.thread_waiting_for
  /-- Two calls of `my_pthread_join` in progress have different blocks until they free them. -/
  distinct : ∀ a c j k, d.machine.joining a = some j → d.machine.joining c = some k →
    j.freed = false → k.freed = false → j.block = k.block → a = c
  /-- Joins are interrupted where it does no harm. -/
  restful : ∀ a j, d.machine.joining a = some j → d.lib.queues.running_queue_head ≠ some a →
    j.Restful d (d.live a)
  /-- Exits are interrupted where it does no harm. -/
  published : ∀ a e, d.exiting a = some e → d.lib.queues.running_queue_head ≠ some a →
    e.publishing = false
  /-- The joins that have returned. -/
  right : ∀ r ∈ d.delivered, r.live = true → d.Right r.thread r.value_ptr r.result

/-! ## Threads -/

/-- A thread that is gone has exited and is not there. -/
theorem Delivery.Named.gone_woke (h : d.Named) (ht : t ∈ d.gone) : d.Woke t :=
  ⟨h.left t ht, fun a _ _ hid => absurd ht (h.ids.alive a t hid)⟩

/-- A thread that is in no call of `my_pthread_exit` has not called it. -/
theorem Delivery.Named.not_exited (h : d.Named) (hid : d.lib.queues.idAt a = some t)
    (hnone : d.exiting a = none) (w : ℕ) : (t, w) ∉ d.exits := by
  intro hw
  rcases h.began t w hw with hgone | ⟨c, e, he, hc⟩
  · exact h.ids.alive a t hid hgone
  · rw [h.ids.distinct a c t hid hc, he] at hnone
    exact absurd hnone (by simp)

/-- The value of the call of a thread. -/
theorem Delivery.Named.value (h : d.Named) (he : d.exiting a = some e)
    (hid : d.lib.queues.idAt a = some t) {w : ℕ} (hw : (t, w) ∈ d.exits) : e.value_ptr = w := by
  obtain ⟨t', hid', hv⟩ := h.named a e he
  obtain rfl := Option.some.inj (hid.symm.trans hid')
  exact h.once _ _ _ hv hw

/-- The exits after an event that keeps the ids of the exiting threads. -/
theorem Delivery.Named.keep (h : d.Named) (hids : Identified d'.lib d'.gone)
    (hid : ∀ a t, d.lib.queues.idAt a = some t → d'.lib.queues.idAt a = some t)
    (hexiting : d'.exiting = d.exiting) (hgone : d'.gone = d.gone) (hexits : d'.exits = d.exits) :
    d'.Named := by
  refine ⟨hids, ?_, fun a e he => ?_, fun t v hv => ?_, ?_⟩
  · rw [hgone, hexits]
    exact h.left
  · rw [hexiting] at he
    obtain ⟨t, ht, hv⟩ := h.named a e he
    rw [hexits]
    exact ⟨t, hid a t ht, hv⟩
  · rw [hexits] at hv
    rw [hgone, hexiting]
    exact (h.began t v hv).imp_right fun ⟨a, e, he, ha⟩ => ⟨a, e, he, hid a t ha⟩
  · rw [hexits]
    exact h.once

/-- After such an event everything that has happened has still happened. -/
theorem Delivery.Named.extends (h : d.Named)
    (hid : ∀ a t, d.lib.queues.idAt a = some t → d'.lib.queues.idAt a = some t)
    (hexiting : d'.exiting = d.exiting) (hgone : d'.gone = d.gone) (hexits : d'.exits = d.exits)
    (hjoins : ∀ t, d.joins.count t ≤ d'.joins.count t) : d.Extends d' := by
  refine ⟨fun t ht => ⟨?_, fun a e he ha => ?_⟩, fun t v _ hv => hexits ▸ hv, hjoins,
    fun t ht => hgone ▸ ht⟩
  · rw [hexits]
    exact ht.1
  · rw [hexiting] at he
    obtain ⟨t', ht', _⟩ := h.named a e he
    obtain rfl := Option.some.inj ((hid a t' ht').symm.trans ha)
    exact ht.2 a e he ht'

/-! ## Blocks of return values -/

/-- The block in the hands of an exiting thread. -/
theorem Delivery.holds_of_exiting (he : d.exiting a = some e) : d.holds a = e.pc.block := by
  unfold Delivery.holds
  rw [he]

/-- The block in the hands of a joiner. -/
theorem Delivery.holds_of_joining (hnone : d.exiting a = none) :
    d.holds a = (d.machine.joining a).bind (·.pc.taken) := by
  unfold Delivery.holds
  rw [hnone]

/-- What is in the hands of a thread depends on its calls only. -/
theorem Delivery.holds_congr {c : Addr} (hexiting : d'.exiting c = d.exiting c)
    (hjoining : d'.machine.joining c = d.machine.joining c) : d'.holds c = d.holds c := by
  unfold Delivery.holds
  rw [hexiting, hjoining]

/-- One thread has taken a step, and the others keep their blocks. -/
theorem Delivery.Private.update (h : d.Private l) (a : Addr)
    (hother : ∀ c, c ≠ a → d'.holds c = d.holds c)
    (hout : ∀ c x, c ≠ a → d.holds c = some x → x ∉ l' ∧ d'.lib.retval_block x ≠ none)
    (hself : ∀ x, d'.holds a = some x → x ∉ l' ∧ d'.lib.retval_block x ≠ none ∧
      ∀ c, c ≠ a → d.holds c ≠ some x) : d'.Private l' := by
  have hboth (c x) (hc : d'.holds c = some x) : x ∉ l' ∧ d'.lib.retval_block x ≠ none := by
    by_cases hca : c = a
    · subst hca
      exact ⟨(hself x hc).1, (hself x hc).2.1⟩
    · exact hout c x hca ((hother c hca).symm.trans hc)
  refine ⟨fun c x hc => (hboth c x hc).1, fun c b x hc hb => ?_, fun c x hc => (hboth c x hc).2⟩
  by_cases hca : c = a <;> by_cases hba : b = a
  · rw [hca, hba]
  · subst hca
    exact absurd ((hother b hba).symm.trans hb) ((hself x hc).2.2 b hba)
  · subst hba
    exact absurd ((hother c hca).symm.trans hc) ((hself x hb).2.2 c hca)
  · exact h.alone c b x ((hother c hca).symm.trans hc) ((hother b hba).symm.trans hb)

/-- The return values after an event that leaves the list alone. -/
theorem Delivery.Stored.keep (h : d.Stored l) (hhead : d'.lib.retval_LL = d.lib.retval_LL)
    (hblock : ∀ x ∈ l, d'.lib.retval_block x = d.lib.retval_block x) (hexits : d'.exits = d.exits)
    (hun : ∀ t v, (t, v) ∈ d.exits → v ≠ 0 → d.Unpublished t → d'.Unpublished t)
    (hcollected : ∀ t, d.Collected t → d'.Collected t) : d'.Stored l := by
  refine ⟨?_, fun x hx b hb => ?_, fun t v hv hne => ?_⟩
  · unfold Library.Returns
    rw [hhead]
    refine h.list.congr fun x hx => ?_
    unfold Library.retvalLink
    rw [hblock x hx]
  · rw [hexits]
    exact h.listed x hx b ((hblock x hx).symm.trans hb)
  · rw [hexits] at hv
    rcases h.kept t v hv hne with hu | hl | hc
    · exact Or.inl (hun t v hv hne hu)
    · exact Or.inr (Or.inl (hl.mono (fun _ => id) hblock))
    · exact Or.inr (Or.inr (hcollected t hc))

/-! ## A step of a join -/

/-- The join of the running thread has changed. -/
structure Delivery.Rejoined (d d' : Delivery) (a : Addr) (next : Option Join) : Prop where
  /-- The nodes and queues have not changed. -/
  queues : d'.lib.queues = d.lib.queues
  /-- The call of the thread. -/
  joining : d'.machine.joining = Function.update d.machine.joining a next
  /-- The calls of `my_pthread_exit` in progress have not changed. -/
  exiting : d'.exiting = d.exiting
  /-- What is known of other calls. -/
  live : ∀ c, c ≠ a → d'.live c = d.live c
  /-- The threads that are gone. -/
  gone : d'.gone = d.gone
  /-- No further call of `my_pthread_exit` has been recorded. -/
  exits : d'.exits = d.exits
  /-- No target of a join has been taken out of the record. -/
  joins : ∀ t, d.joins.count t ≤ d'.joins.count t
  /-- The joins that have returned. -/
  delivered : ∀ r ∈ d.delivered, r ∈ d'.delivered

/-- The joins of the other threads are as before. -/
theorem Delivery.Rejoined.other (h : d.Rejoined d' a next) {c : Addr} (hc : c ≠ a) :
    d'.machine.joining c = d.machine.joining c := by
  rw [h.joining, Function.update_of_ne hc]

/-- The join of the running thread is the new one. -/
theorem Delivery.Rejoined.self (h : d.Rejoined d' a next) : d'.machine.joining a = next := by
  rw [h.joining, Function.update_self]

/-- The other threads hold the blocks that they held before. -/
theorem Delivery.Rejoined.holds (h : d.Rejoined d' a next) {c : Addr} (hc : c ≠ a) :
    d'.holds c = d.holds c :=
  Delivery.holds_congr (congrFun h.exiting c) (h.other hc)

/-- The running thread holds the block that its join has now taken. -/
theorem Delivery.Rejoined.holds_self (h : d.Rejoined d' a next) (hnone : d.exiting a = none) :
    d'.holds a = next.bind (·.pc.taken) := by
  rw [Delivery.holds_of_joining ((congrFun h.exiting a).trans hnone), h.self]

/-- A thread whose value is not yet in the list still has it. -/
theorem Delivery.Rejoined.unpublished (h : d.Rejoined d' a next) (hu : d.Unpublished t) :
    d'.Unpublished t := by
  obtain ⟨c, e, he, hid, hpc⟩ := hu
  refine ⟨c, e, ?_, ?_, hpc⟩
  · rw [h.exiting]
    exact he
  · rw [h.queues]
    exact hid

/-- Collected values, if the thread does not forget its own. -/
theorem Delivery.Rejoined.collected (h : d.Rejoined d' a next)
    (hself : ∀ j, d.machine.joining a = some j → j.value_ptr = true → j.pc.finished = true →
      d'.Collected j.thread) (hc : d.Collected t) : d'.Collected t := by
  rcases hc with ⟨c, k, hk, rfl, hvalue, hfinished⟩ | ⟨r, hr, ht⟩
  · by_cases hca : c = a
    · subst hca
      exact hself k hk hvalue hfinished
    · exact Or.inl ⟨c, k, (h.other hca).trans hk, rfl, hvalue, hfinished⟩
  · exact Or.inr ⟨r, h.delivered r hr, ht⟩

/-- What is left of what has happened. -/
theorem Delivery.Rejoined.extends (h : d.Rejoined d' a next) (hn : d.Named) : d.Extends d' :=
  hn.extends (fun c t hc => by rw [h.queues]; exact hc) h.exiting h.gone h.exits h.joins

/-- The other calls are as they were, and the one that has changed is sound. -/
theorem Delivery.Sound.rejoin (h : d.Sound l) (hre : d.Rejoined d' a next)
    (ha : d.lib.queues.running_queue_head = some a) (hnone : d.exiting a = none)
    (hcounted : d'.Counted) (hprivate : d'.Private l') (hstored : d'.Stored l')
    (hblock : ∀ c k, c ≠ a → d.machine.joining c = some k → k.freed = false →
      ∀ b, d.lib.join_block k.block = some b →
        ∃ b', d'.lib.join_block k.block = some b' ∧ b'.thread_waiting_for = b.thread_waiting_for)
    (hdone : ∀ b blk, d'.lib.join_block b = some blk → blk.done = true →
      d.Woke blk.thread_waiting_for)
    (hheld : ∀ c x, c ≠ a → d.holds c = some x → d'.lib.retval_block x = d.lib.retval_block x)
    (hnext : ∀ j', next = some j' → j'.Sound d d'.lib l' (d'.live a))
    (hdistinct : ∀ j', next = some j' → j'.freed = false → ∀ c k, c ≠ a →
      d.machine.joining c = some k → k.freed = false → j'.block ≠ k.block)
    (hright : ∀ r ∈ d'.delivered, r ∈ d.delivered ∨
      (r.live = true → d.Right r.thread r.value_ptr r.result)) : d'.Sound l' := by
  have hext := hre.extends h.toNamed
  have hnamed : d'.Named := by
    refine h.toNamed.keep ?_ (fun c t hc => ?_) hre.exiting hre.gone hre.exits
    · rw [hre.gone]
      exact h.ids.of_queues hre.queues
    · rw [hre.queues]
      exact hc
  have hrest (c : Addr) (k : Join) (hca : c ≠ a) (hk : d.machine.joining c = some k) :
      k.Restful d (d.live c) := by
    apply h.restful c k hk
    rw [ha]
    exact fun heq => hca (Option.some.inj heq).symm
  have hmove (c : Addr) (k : Join) (hca : c ≠ a) (hk : d'.machine.joining c = some k) :
      k.Sound d' d'.lib l' (d'.live c) ∧ k.Restful d' (d'.live c) := by
    rw [hre.other hca] at hk
    rw [hre.live c hca]
    exact (h.join c k hk).move (hrest c k hca hk) (fun t ht => h.toNamed.gone_woke ht) hext
      (hblock c k hca hk)
  refine ⟨hnamed, hcounted, hprivate, hstored, fun c i hi => ?_, fun c k hk => ?_,
    fun c i u hi hid => ?_, fun b blk hb hd => hext.woke _ (hdone b blk hb hd),
    fun c b k i hk hi hkf hif heq => ?_, fun c k hk hc => ?_, fun c i hi hc => ?_,
    fun r hr hl => ?_⟩
  · rw [hre.exiting] at hi
    have hca : c ≠ a := by
      rintro rfl
      exact absurd (hnone.symm.trans hi) (by simp)
    rw [hre.other hca]
    exact h.apart c i hi
  · by_cases hca : c = a
    · subst hca
      rw [hre.self] at hk
      have hsound := hnext k hk
      refine ⟨hsound.early, hsound.own, fun hl hp => hext.woke _ (hsound.past hl hp),
        fun hl hscan => (hsound.finds hl hscan).imp_left (hext.woke _), hsound.walk,
        fun hl hf => (hsound.right hl hf).extend hext⟩
    · exact (hmove c k hca hk).1
  · rw [hre.exiting] at hi
    rw [hre.queues] at hid
    have hca : c ≠ a := by
      rintro rfl
      exact absurd (hnone.symm.trans hi) (by simp)
    refine (h.exit c i u hi hid).move (h.published c i hi ?_) fun b hb => hheld c b hca ?_
    · rw [ha]
      exact fun heq => hca (Option.some.inj heq).symm
    · rw [Delivery.holds_of_exiting hi]
      exact hb
  · by_cases hca : c = a <;> by_cases hba : b = a
    · rw [hca, hba]
    · subst hca
      rw [hre.self] at hk
      rw [hre.other hba] at hi
      exact absurd heq (hdistinct k hk hkf b i hba hi hif)
    · subst hba
      rw [hre.self] at hi
      rw [hre.other hca] at hk
      exact absurd heq.symm (hdistinct i hi hif c k hca hk hkf)
    · rw [hre.other hca] at hk
      rw [hre.other hba] at hi
      exact h.distinct c b k i hk hi hkf hif heq
  · have hca : c ≠ a := by
      rintro rfl
      rw [hre.queues] at hc
      exact hc ha
    exact (hmove c k hca hk).2
  · rw [hre.exiting] at hi
    rw [hre.queues] at hc
    exact h.published c i hi hc
  · rcases hright r hr with hold | hnew
    · exact (h.right r hold hl).extend hext
    · exact (hnew hl).extend hext

/-- The joins are counted as before, when a call goes on or returns. -/
theorem Delivery.Rejoined.counted (hre : d.Rejoined d' a next) (h : d.Counted)
    (hj : d.machine.joining a = some j) (hjoins : d'.joins = d.joins)
    (hnext : ∀ j', next = some j' → j'.thread = j.thread ∧ j'.value_ptr = j.value_ptr)
    (hdelivered : ∀ r ∈ d'.delivered, r ∈ d.delivered ∨
      (next = none ∧ r.thread = j.thread ∧ r.value_ptr = j.value_ptr)) : d'.Counted := by
  -- a call in progress was in progress before, at the same node
  have hold (c : Addr) (k : Join) (hk : d'.machine.joining c = some k) :
      ∃ k₀, d.machine.joining c = some k₀ ∧ k.thread = k₀.thread ∧ k.value_ptr = k₀.value_ptr := by
    by_cases hca : c = a
    · subst hca
      rw [hre.self] at hk
      exact ⟨j, hj, hnext k hk⟩
    · exact ⟨k, (hre.other hca).symm.trans hk, rfl, rfl⟩
  refine ⟨fun c k hk hv => ?_, fun r hr hv => ?_, fun c b k i hk hi hkv hiv heq hcount => ?_,
    fun c k r hk hr hkv hrv hcount heq => ?_⟩
  · obtain ⟨k₀, hk₀, hthread, hvalue⟩ := hold c k hk
    rw [hjoins, hthread]
    exact h.joined c k₀ hk₀ (hvalue.symm.trans hv)
  · rw [hjoins]
    rcases hdelivered r hr with hr | ⟨_, hthread, hvalue⟩
    · exact h.returned r hr hv
    · rw [hthread]
      exact h.joined a j hj (hvalue.symm.trans hv)
  · obtain ⟨k₀, hk₀, hthread, hvalue⟩ := hold c k hk
    obtain ⟨i₀, hi₀, hthread', hvalue'⟩ := hold b i hi
    rw [hjoins, hthread] at hcount
    exact h.unique c b k₀ i₀ hk₀ hi₀ (hvalue.symm.trans hkv) (hvalue'.symm.trans hiv)
      (hthread.symm.trans (heq.trans hthread')) hcount
  · obtain ⟨k₀, hk₀, hthread, hvalue⟩ := hold c k hk
    rw [hjoins, hthread] at hcount
    rcases hdelivered r hr with hr | ⟨hnone, hthread', hvalue'⟩
    · exact h.single c k₀ r hk₀ hr (hvalue.symm.trans hkv) hrv hcount (heq.trans hthread)
    · have hca : c = a := h.unique c a k₀ j hk₀ hj (hvalue.symm.trans hkv)
        (hvalue'.symm.trans hrv) (hthread.symm.trans (heq.symm.trans hthread')) hcount
      subst hca
      rw [hre.self, hnone] at hk
      exact absurd hk (by simp)

/-- A step of one call does not free the block of another. -/
theorem Delivery.Sound.freedNow_ne {c : Addr} {k : Join} (h : d.Sound l)
    (hj : d.machine.joining a = some j) (hfree : j.pc = .unlinkFree → j.freed = false)
    (hca : c ≠ a) (hk : d.machine.joining c = some k) (hkf : k.freed = false) :
    j.freedNow ≠ some k.block := by
  intro hfreed
  have hboth : j.freed = false ∧ j.block = k.block := by
    unfold Join.freedNow at hfreed
    split at hfreed
    · rename_i hpc
      exact ⟨(h.join a j hj).early (by rw [hpc]; rfl), Option.some.inj hfreed⟩
    · rename_i hpc
      exact ⟨hfree hpc, Option.some.inj hfreed⟩
    · exact absurd hfreed (by simp)
  exact hca (h.distinct c a k j hk hj hkf hboth.1 hboth.2.symm)

/-- A join that has been woken and is the only one finds the value in the list. -/
theorem Delivery.Sound.value_listed (h : d.Sound l)
    (ha : d.lib.queues.running_queue_head = some a) (hnone : d.exiting a = none)
    (hj : d.machine.joining a = some j) (hpast : j.pc.past = true)
    (hfinished : j.pc.finished = false) (hl : d.live a = true) (hvalue : j.value_ptr = true)
    (hcount : d.joins.count j.thread ≤ 1) {w : ℕ} (hw : (j.thread, w) ∈ d.exits) (hne : w ≠ 0) :
    d.lib.Listed l j.thread := by
  have hwoke := (h.join a j hj).past hl hpast
  rcases h.kept _ w hw hne with ⟨c, e, he, hid, hpc⟩ | hlisted | hcollected
  · -- the exiting thread is woken and does not run, so it has published its value
    have hwoken := hwoke.2 c e he hid
    have hlate := (h.exit c e _ he hid).woken hwoken
    have hrest := h.published c e he fun hc => by
      obtain rfl := Option.some.inj (ha.symm.trans hc)
      exact absurd (hnone.symm.trans he) (by simp)
    have hv : e.value_ptr ≠ 0 := by
      rw [h.toNamed.value he hid hw]
      exact hne
    cases hepc : e.pc <;> simp_all [Exit.publishing, ExitPc.late]
  · exact hlisted
  · rcases hcollected with ⟨c, k, hk, hthread, hkv, hkf⟩ | ⟨r, hr, hthread, hrv⟩
    · obtain rfl : a = c := h.unique a c j k hj hk hvalue hkv hthread.symm hcount
      obtain rfl := Option.some.inj (hj.symm.trans hk)
      exact absurd (hfinished.symm.trans hkf) (by simp)
    · exact absurd hthread (h.single a j r hj hr hvalue hrv hcount)

/-- The joins that have returned after a step. -/
theorem Delivery.deliveredAfter_step {garbage : Option Addr}
    (ha : d.lib.queues.running_queue_head = some a) (hj : d.machine.joining a = some j) :
    d.deliveredAfter (.step garbage) =
      if j.pc = .return_ then ⟨j.thread, j.value_ptr, d.live a, j.result⟩ :: d.delivered
      else d.delivered := by
  simp only [Delivery.deliveredAfter, ha, hj]

/-- The condition on a step of a join: it frees its block once, and if it begins to look
for a target that has not exited, the target is in a queue. -/
def Join.Steady (d : Delivery) (live : Bool) (j : Join) : Prop :=
  (j.pc = .unlinkFree → j.freed = false) ∧
    (j.pc = .scanStart 0 → live = true → j.thread ∉ d.gone → d.lib.queues.InQueues j.thread)

/-- A step that takes nothing out of the list of return values. -/
theorem Delivery.Sound.step_onward {lib : Library} {garbage : Option Addr} (h : d.Sound l)
    (ha : d.lib.queues.running_queue_head = some a) (hnone : d.exiting a = none)
    (hj : d.machine.joining a = some j) (hok : j.Steady d (d.live a))
    (hpc : ∀ prev1 ptr1, j.pc ≠ .retvalUnlink prev1 ptr1) (hfinished : j.pc.finished = false)
    (hstep : j.step d.lib garbage = some (lib, next)) (hlib : d'.lib = lib)
    (hre : d.Rejoined d' a next) (hjoins : d'.joins = d.joins)
    (hdelivered : d'.delivered = d.delivered) (hlive : d'.live a = d.live a) : d'.Sound l := by
  subst hlib
  obtain ⟨j', rfl, honward⟩ := Join.step_onward hpc hfinished hstep
  obtain ⟨_, hsame⟩ := Join.step_same hstep
  have hsound := h.join a j hj
  have hnext : j'.Sound d d'.lib l (d.live a) := by
    have henter := fun hpc => hsound.step_enter hpc h.done hstep
    have hscan := fun hpc => hsound.step_scan hpc (fun hl hpc => by
      by_cases hgone : j.thread ∈ d.gone
      · exact Or.inl (h.toNamed.gone_woke hgone)
      · exact Or.inr (hok.2 hpc hl hgone)) hstep
    have hleave := fun hpc => hsound.step_leave hpc hstep
    have hwalk := fun hpast hpc => hsound.step_walk hpc h.list (fun hl hv hnot hcount w hw => by
      by_contra hne
      exact hnot (h.value_listed ha hnone hj hpast hfinished hl hv hcount hw hne)) hstep
    cases hpc' : j.pc with
    | insertTest => exact henter (by simp [hpc'])
    | insertFirst => exact henter (by simp [hpc'])
    | insertFirstNext => exact henter (by simp [hpc'])
    | insertNext => exact henter (by simp [hpc'])
    | insertHead => exact henter (by simp [hpc'])
    | scanStart k => exact hscan (by simp [hpc'])
    | scan k temp => exact hscan (by simp [hpc'])
    | scanNext k b => exact hscan (by simp [hpc'])
    | waitTest => exact henter (by simp [hpc'])
    | waitYield => exact absurd hstep (by simp [Join.step, hpc'])
    | unlinkStart => exact hleave (by simp [hpc'])
    | unlinkHead => exact hleave (by simp [hpc'])
    | unlinkHeadFree => exact hleave (by simp [hpc'])
    | unlink prev ptr => exact hleave (by simp [hpc'])
    | unlinkStore prev => exact hleave (by simp [hpc'])
    | unlinkFree => exact hleave (by simp [hpc'])
    | unlinkNext b => exact hleave (by simp [hpc'])
    | retvalStart => exact hwalk (by rw [hpc']; rfl) (by simp [hpc'])
    | retval prev ptr => exact hwalk (by rw [hpc']; rfl) (by simp [hpc'])
    | retvalTake prev b => exact hwalk (by rw [hpc']; rfl) (by simp [hpc'])
    | retvalUnlink prev b => exact absurd hpc' (hpc prev b)
    | retvalFree b => exact absurd hfinished (by simp [hpc', JoinPc.finished])
    | retvalNext b => exact hwalk (by rw [hpc']; rfl) (by simp [hpc'])
    | return_ => exact absurd hfinished (by simp [hpc', JoinPc.finished])
  refine h.rejoin hre ha hnone ?_ ?_ ?_ (fun c k hca hk hkf b hb => ?_) (fun b blk hb hd => ?_)
    (fun c x _ _ => by rw [honward.retval_block]) (fun i hi => ?_)
    (fun i hi hif c k hca hk hkf heq => ?_)
    fun r hr => ?_
  · refine hre.counted h.toCounted hj hjoins (fun i hi => ?_) fun r hr => Or.inl (hdelivered ▸ hr)
    obtain rfl := Option.some.inj hi
    exact ⟨honward.thread, honward.value_ptr⟩
  · refine h.toPrivate.update a (fun c => hre.holds) (fun c x _ hc => ⟨h.outside c x hc, ?_⟩)
      fun x hx => ?_
    · rw [honward.retval_block]
      exact h.allocated c x hc
    · rw [hre.holds_self hnone, Option.bind_some, honward.taken] at hx
      exact absurd hx (by simp)
  · refine h.toStored.keep honward.retval_LL (fun x _ => by rw [honward.retval_block]) hre.exits
      (fun t w _ _ => hre.unpublished) fun t => hre.collected fun i hi _ hf => ?_
    obtain rfl := Option.some.inj (hj.symm.trans hi)
    exact absurd (hfinished.symm.trans hf) (by simp)
  · exact hsame.after hb (h.freedNow_ne hj hok.1 hca hk hkf)
  · obtain ⟨blk', hblk', hdone, hthread⟩ := hsame.before hb
    rw [hthread]
    exact h.done b blk' hblk' (hdone ▸ hd)
  · obtain rfl := Option.some.inj hi
    rw [hlive]
    exact hnext
  · obtain rfl := Option.some.inj hi
    rw [honward.block] at heq
    exact hca (h.distinct c a k j hk hj hkf (honward.freed hif) heq.symm)
  · rw [hdelivered] at hr
    exact Or.inl hr

/-- The call of the running thread goes on with its block, and the join blocks are as
they were. -/
theorem Delivery.Sound.rejoin_same (h : d.Sound l) (hre : d.Rejoined d' a (some j'))
    (ha : d.lib.queues.running_queue_head = some a) (hnone : d.exiting a = none)
    (hj : d.machine.joining a = some j) (hsucc : j.Succ j') (hvalue : j'.value_ptr = j.value_ptr)
    (hblocks : d'.lib.join_block = d.lib.join_block) (hjoins : d'.joins = d.joins)
    (hdelivered : d'.delivered = d.delivered) (hlive : d'.live a = d.live a)
    (hprivate : d'.Private l') (hstored : d'.Stored l')
    (hheld : ∀ c x, c ≠ a → d.holds c = some x → d'.lib.retval_block x = d.lib.retval_block x)
    (hsound : j'.Sound d d'.lib l' (d.live a)) : d'.Sound l' := by
  refine h.rejoin hre ha hnone ?_ hprivate hstored (fun c k _ _ _ b hb => ⟨b, ?_, rfl⟩)
    (fun b blk hb hd => ?_) hheld (fun i hi => ?_) (fun i hi hif c k hca hk hkf heq => ?_)
    fun r hr => ?_
  · refine hre.counted h.toCounted hj hjoins (fun i hi => ?_) fun r hr => Or.inl (hdelivered ▸ hr)
    obtain rfl := Option.some.inj hi
    exact ⟨hsucc.thread, hvalue⟩
  · rw [hblocks]
    exact hb
  · rw [hblocks] at hb
    exact h.done b blk hb hd
  · obtain rfl := Option.some.inj hi
    rw [hlive]
    exact hsound
  · obtain rfl := Option.some.inj hi
    rw [hsucc.block] at heq
    exact hca (h.distinct c a k j hk hj hkf (hsucc.freed hif) heq.symm)
  · rw [hdelivered] at hr
    exact Or.inl hr

/-- The step that takes a return value out of the list. -/
theorem Delivery.Sound.step_unlink {lib : Library} {garbage prev1 : Option Addr} {x : Addr}
    (h : d.Sound l) (ha : d.lib.queues.running_queue_head = some a) (hnone : d.exiting a = none)
    (hj : d.machine.joining a = some j) (hpc : j.pc = .retvalUnlink prev1 x)
    (hstep : j.step d.lib garbage = some (lib, next)) (hlib : d'.lib = lib)
    (hre : d.Rejoined d' a next) (hjoins : d'.joins = d.joins)
    (hdelivered : d'.delivered = d.delivered) (hlive : d'.live a = d.live a) :
    ∃ l', d'.Sound l' := by
  subst hlib
  obtain ⟨_, hsame⟩ := Join.step_same hstep
  obtain ⟨rfl, hvalue, ⟨b, hb, hid⟩, l₁, l₂, rfl, hlist, hsound, hentry, hother⟩ :=
    (h.join a j hj).step_unlink hpc h.list h.listed h.once hstep
  have hx : x ∈ l₁ ++ x :: l₂ := by simp
  have hgone : x ∉ l₁ ++ l₂ := by
    have hnodup := Segment.nodup h.list
    rw [List.nodup_middle, List.nodup_cons] at hnodup
    exact hnodup.1
  have hsub {y : Addr} (hy : y ∈ l₁ ++ l₂) : y ∈ l₁ ++ x :: l₂ := by
    simp only [List.mem_append, List.mem_cons] at hy ⊢
    tauto
  -- the blocks of the list say the same as before
  have hback {y : Addr} {c : RetvalBlock} (hc : d'.lib.retval_block y = some c) :
      ∃ c₀, d.lib.retval_block y = some c₀ ∧ c₀.entry = c.entry := by
    have heq := hentry y
    rw [hc, Option.map_some] at heq
    exact Option.map_eq_some_iff.mp heq.symm
  have hforth {y : Addr} {c : RetvalBlock} (hc : d.lib.retval_block y = some c) :
      ∃ c', d'.lib.retval_block y = some c' ∧ c'.entry = c.entry := by
    have heq := hentry y
    rw [hc, Option.map_some] at heq
    exact Option.map_eq_some_iff.mp heq
  have hblocks : d'.lib.join_block = d.lib.join_block := by
    simp only [Join.step, hpc] at hstep
    obtain ⟨c, _, hstep⟩ := Option.bind_eq_some_iff.mp hstep
    cases prev1 with
    | none => rw [← (Prod.mk.inj (Option.some.inj hstep)).1]
    | some p =>
      obtain ⟨s₁, hset, heq⟩ := Option.map_eq_some_iff.mp hstep
      rw [← (Prod.mk.inj heq).1]
      exact (setRetvalNext_same hset).2
  refine ⟨l₁ ++ l₂, h.rejoin_same hre ha hnone hj (j.succ_goto _) rfl hblocks hjoins hdelivered
    hlive ?_ ?_ (fun c y _ hc => hother y (h.outside c y hc)) hsound⟩
  · refine h.toPrivate.update a (fun c => hre.holds) (fun c y _ hc => ⟨?_, ?_⟩) fun y hy => ?_
    · exact fun hmem => h.outside c y hc (hsub hmem)
    · rw [hother y (h.outside c y hc)]
      exact h.allocated c y hc
    · obtain rfl : x = y := by
        rw [hre.holds_self hnone] at hy
        exact Option.some.inj hy
      obtain ⟨b', hb', _⟩ := hforth hb
      refine ⟨hgone, ?_, fun c _ hc => h.outside c x hc hx⟩
      rw [hb']
      exact Option.some_ne_none b'
  · refine ⟨hlist, fun y hy c hc => ?_, fun t w hw hne => ?_⟩
    · obtain ⟨c₀, hc₀, heq⟩ := hback hc
      rw [hre.exits, ← heq]
      exact h.listed y (hsub hy) c₀ hc₀
    · rw [hre.exits] at hw
      rcases h.kept t w hw hne with hu | ⟨y, hy, c, hc, ht⟩ | hcollected
      · exact Or.inl (hre.unpublished hu)
      · right
        by_cases hyx : y = x
        · subst hyx
          obtain rfl := Option.some.inj (hb.symm.trans hc)
          exact Or.inr (Or.inl ⟨a, _, hre.self, hid.symm.trans ht, hvalue, rfl⟩)
        · obtain ⟨c', hc', heq⟩ := hforth hc
          refine Or.inl ⟨y, ?_, c', hc', (congrArg Prod.fst heq).trans ht⟩
          simp only [List.mem_append, List.mem_cons] at hy ⊢
          tauto
      · refine Or.inr (Or.inr (hre.collected (fun i hi _ hf => ?_) hcollected))
        obtain rfl := Option.some.inj (hj.symm.trans hi)
        exact absurd hf (by simp [hpc, JoinPc.finished])

/-- The step that frees a return value. -/
theorem Delivery.Sound.step_finish {lib : Library} {garbage : Option Addr} {x : Addr}
    (h : d.Sound l) (ha : d.lib.queues.running_queue_head = some a) (hnone : d.exiting a = none)
    (hj : d.machine.joining a = some j) (hpc : j.pc = .retvalFree x)
    (hstep : j.step d.lib garbage = some (lib, next)) (hlib : d'.lib = lib)
    (hre : d.Rejoined d' a next) (hjoins : d'.joins = d.joins)
    (hdelivered : d'.delivered = d.delivered) (hlive : d'.live a = d.live a) : d'.Sound l := by
  subst hlib
  obtain ⟨rfl, hsound, hhead, hblock⟩ := (h.join a j hj).step_finish hpc hstep
  have hx : d.holds a = some x := by
    rw [Delivery.holds_of_joining hnone, hj, Option.bind_some, hpc]
    rfl
  have hother {y : Addr} (hyx : y ≠ x) : d'.lib.retval_block y = d.lib.retval_block y := by
    rw [hblock, Function.update_of_ne hyx]
  have hheld (c : Addr) (y : Addr) (hca : c ≠ a) (hc : d.holds c = some y) :
      d'.lib.retval_block y = d.lib.retval_block y := by
    apply hother
    rintro rfl
    exact hca (h.alone c a y hc hx)
  have hblocks : d'.lib.join_block = d.lib.join_block := by
    simp only [Join.step, hpc] at hstep
    obtain ⟨c, _, heq⟩ := Option.map_eq_some_iff.mp hstep
    rw [← (Prod.mk.inj heq).1]
  refine h.rejoin_same hre ha hnone hj (j.succ_goto _) rfl hblocks hjoins hdelivered hlive ?_ ?_
    hheld hsound
  · refine h.toPrivate.update a (fun c => hre.holds) (fun c y hca hc => ⟨h.outside c y hc, ?_⟩)
      fun y hy => ?_
    · rw [hheld c y hca hc]
      exact h.allocated c y hc
    · rw [hre.holds_self hnone] at hy
      exact absurd hy (by simp [JoinPc.taken])
  · refine h.toStored.keep hhead (fun y hy => hother ?_) hre.exits (fun t w _ _ => hre.unpublished)
      fun t => hre.collected fun i hi hv _ => ?_
    · rintro rfl
      exact h.outside a y hx hy
    · obtain rfl := Option.some.inj (hj.symm.trans hi)
      exact Or.inl ⟨a, _, hre.self, rfl, hv, rfl⟩

/-- A join that returns, with its result recorded, keeps the invariant. -/
theorem Delivery.Sound.step_return (h : d.Sound l)
    (ha : d.lib.queues.running_queue_head = some a) (hnone : d.exiting a = none)
    (hj : d.machine.joining a = some j) (hpc : j.pc = .return_) (hlib : d'.lib = d.lib)
    (hre : d.Rejoined d' a none) (hjoins : d'.joins = d.joins)
    (hdelivered : d'.delivered = ⟨j.thread, j.value_ptr, d.live a, j.result⟩ :: d.delivered) :
    d'.Sound l := by
  have hself : ⟨j.thread, j.value_ptr, d.live a, j.result⟩ ∈ d'.delivered := by
    rw [hdelivered]
    exact List.mem_cons_self
  refine h.rejoin hre ha hnone ?_ ?_ ?_ (fun c k _ _ _ b hb => ⟨b, ?_, rfl⟩) (fun b blk hb hd => ?_)
    (fun c x _ _ => by rw [hlib]) (fun i hi => absurd hi (by simp))
    (fun i hi => absurd hi (by simp))
    fun r hr => ?_
  · refine hre.counted h.toCounted hj hjoins (fun i hi => absurd hi (by simp)) fun r hr => ?_
    rw [hdelivered] at hr
    rcases List.mem_cons.mp hr with rfl | hr
    · exact Or.inr ⟨rfl, rfl, rfl⟩
    · exact Or.inl hr
  · refine h.toPrivate.update a (fun c => hre.holds) (fun c x _ hc => ⟨h.outside c x hc, ?_⟩)
      fun x hx => ?_
    · rw [hlib]
      exact h.allocated c x hc
    · rw [hre.holds_self hnone] at hx
      exact absurd hx (by simp)
  · refine h.toStored.keep (by rw [hlib]) (fun x _ => by rw [hlib]) hre.exits
      (fun t w _ _ => hre.unpublished) fun t => hre.collected fun i hi hv _ => ?_
    obtain rfl := Option.some.inj (hj.symm.trans hi)
    exact Or.inr ⟨_, hself, rfl, hv⟩
  · rw [hlib]
    exact hb
  · rw [hlib] at hb
    exact h.done b blk hb hd
  · rw [hdelivered] at hr
    rcases List.mem_cons.mp hr with rfl | hr
    · exact Or.inr fun hl => (h.join a j hj).right hl (by rw [hpc]; rfl)
    · exact Or.inl hr

/-- A step of a join keeps the invariant, for some list of return values. -/
theorem Delivery.Sound.step_join {lib : Library} {garbage : Option Addr} {returned : List ℕ}
    {live : Bool} (h : d.Sound l) (ha : d.lib.queues.running_queue_head = some a)
    (hnone : d.exiting a = none) (hj : d.machine.joining a = some j)
    (hok : j.Steady d (d.live a)) (hstep : j.step d.lib garbage = some (lib, next)) :
    ∃ l', Delivery.Sound (d.advance (.step garbage) live
      { d.machine with
        lib := lib
        joining := Function.update d.machine.joining a next
        returned := returned }) l' := by
  have hdelivered : d.deliveredAfter (.step garbage) = _ := Delivery.deliveredAfter_step ha hj
  have hre : d.Rejoined (d.advance (.step garbage) live
      { d.machine with
        lib := lib
        joining := Function.update d.machine.joining a next
        returned := returned }) a next := by
    refine ⟨(Join.step_same hstep).1, rfl, rfl, fun _ _ => rfl, rfl, rfl, fun _ => le_rfl,
      fun r hr => ?_⟩
    change r ∈ d.deliveredAfter (.step garbage)
    rw [hdelivered]
    split
    · exact List.mem_cons_of_mem _ hr
    · exact hr
  by_cases hreturn : j.pc = .return_
  · rw [if_pos hreturn] at hdelivered
    simp only [Join.step, hreturn] at hstep
    obtain ⟨rfl, rfl⟩ := Prod.mk.inj (Option.some.inj hstep)
    exact ⟨l, h.step_return ha hnone hj hreturn rfl hre rfl hdelivered⟩
  · rw [if_neg hreturn] at hdelivered
    by_cases hfree : ∃ x, j.pc = .retvalFree x
    · obtain ⟨x, hpc⟩ := hfree
      exact ⟨l, h.step_finish ha hnone hj hpc hstep rfl hre rfl hdelivered rfl⟩
    · by_cases hunlink : ∃ prev1 x, j.pc = .retvalUnlink prev1 x
      · obtain ⟨prev1, x, hpc⟩ := hunlink
        exact h.step_unlink ha hnone hj hpc hstep rfl hre rfl hdelivered rfl
      · have hfinished : j.pc.finished = false := by
          cases hpc : j.pc <;> simp_all [JoinPc.finished]
        refine ⟨l, h.step_onward ha hnone hj hok (fun prev1 x hpc => ?_) hfinished hstep rfl hre rfl
          hdelivered rfl⟩
        exact hunlink ⟨prev1, x, hpc⟩

/-- The running thread is about to wait again. -/
theorem Delivery.Sound.resume (h : d.Sound l) (hre : d.Rejoined d' a (some (j.goto .waitTest)))
    (ha : d.lib.queues.running_queue_head = some a) (hnone : d.exiting a = none)
    (hj : d.machine.joining a = some j) (hpc : j.pc = .waitYield) (hlib : d'.lib = d.lib)
    (hjoins : d'.joins = d.joins) (hdelivered : d'.delivered = d.delivered)
    (hlive : d'.live a = d.live a) : d'.Sound l := by
  refine h.rejoin_same hre ha hnone hj (j.succ_goto _) rfl (by rw [hlib]) hjoins hdelivered hlive
    ?_ ?_ (fun c x _ _ => by rw [hlib]) ?_
  · refine h.toPrivate.update a (fun c => hre.holds) (fun c x _ hc => ⟨h.outside c x hc, ?_⟩)
      fun x hx => ?_
    · rw [hlib]
      exact h.allocated c x hc
    · rw [hre.holds_self hnone] at hx
      exact absurd hx (by simp [JoinPc.taken])
  · refine h.toStored.keep (by rw [hlib]) (fun x _ => by rw [hlib]) hre.exits
      (fun t w _ _ => hre.unpublished) fun t => hre.collected fun i hi _ hf => ?_
    obtain rfl := Option.some.inj (hj.symm.trans hi)
    exact absurd hf (by simp [hpc, JoinPc.finished])
  · rw [hlib]
    refine (h.join a j hj).goto _ (SameBlocks.refl d.lib) ?_ ?_ rfl rfl rfl <;>
      simp [hpc, JoinPc.past, JoinPc.early]

/-- A call of `my_pthread_join` that begins, with a fresh block, keeps the invariant. -/
theorem Delivery.Sound.start_join {block : Addr} {thread : ℕ} {value_ptr live : Bool}
    {link : Option Addr} (h : d.Sound l) (ha : d.lib.queues.running_queue_head = some a)
    (hnone : d.exiting a = none) (hfree : d.machine.joining a = none)
    (hfresh : d.lib.join_block block = none) :
    Delivery.Sound (d.advance (.join thread value_ptr block link) live
      { d.machine with
        lib := d.lib.newJoin thread block link
        joining := Function.update d.machine.joining a
          (some (d.machine.startJoin thread value_ptr block)) }) l := by
  have hcount (t : ℕ) : d.joins.count t ≤
      (d.joinsAfter (.join thread value_ptr block link)).count t := by
    cases value_ptr with
    | true => exact List.count_le_count_cons
    | false => exact le_rfl
  have hkept (c : Addr) (b : JoinBlock) (hb : d.lib.join_block c = some b) :
      (d.lib.newJoin thread block link).join_block c = some b := by
    have hc : c ≠ block := by
      rintro rfl
      exact absurd (hfresh.symm.trans hb) (by simp)
    simpa [Library.newJoin, hc] using hb
  -- after a call for a value, a thread that was counted before is counted twice
  have htwice (hvalue : value_ptr = true) (hmem : thread ∈ d.joins) :
      ¬ (d.joinsAfter (.join thread value_ptr block link)).count thread ≤ 1 := by
    subst hvalue
    have := List.count_pos_iff.mpr hmem
    simp only [Delivery.joinsAfter, List.count_cons_self]
    omega
  have hmem (t : ℕ) (ht : t ∈ d.joins) :
      t ∈ d.joinsAfter (.join thread value_ptr block link) :=
    List.count_pos_iff.mp (lt_of_lt_of_le (List.count_pos_iff.mpr ht) (hcount t))
  set d' := d.advance (.join thread value_ptr block link) live
    { d.machine with
      lib := d.lib.newJoin thread block link
      joining := Function.update d.machine.joining a
        (some (d.machine.startJoin thread value_ptr block)) } with hd'
  have hlive : d'.live = Function.update d.live a live := by
    change d.liveAfter _ _ = _
    simp only [Delivery.liveAfter, ha]
  have hre : d.Rejoined d' a (some (d.machine.startJoin thread value_ptr block)) := by
    refine ⟨rfl, rfl, rfl, fun c hc => ?_, rfl, rfl, hcount, fun _ => id⟩
    rw [hlive, Function.update_of_ne hc]
  have hnew (k : Join) (hk : d'.machine.joining a = some k) :
      k = d.machine.startJoin thread value_ptr block :=
    (Option.some.inj (hre.self.symm.trans hk)).symm
  have hcounted : d'.Counted := by
    refine ⟨fun c k hk hv => ?_, fun r hr hv => hmem _ (h.returned r hr hv),
      fun c b k i hk hi hkv hiv heq hone => ?_, fun c k r hk hr hkv hrv hone heq => ?_⟩
    · by_cases hca : c = a
      · subst hca
        obtain rfl := hnew k hk
        obtain rfl : value_ptr = true := hv
        exact List.mem_cons_self
      · exact hmem _ (h.joined c k ((hre.other hca).symm.trans hk) hv)
    · by_cases hca : c = a <;> by_cases hba : b = a
      · rw [hca, hba]
      · subst hca
        obtain rfl := hnew k hk
        have hi' := h.joined b i ((hre.other hba).symm.trans hi) hiv
        rw [← heq] at hi'
        exact absurd hone (htwice hkv hi')
      · subst hba
        obtain rfl := hnew i hi
        have hk' := h.joined c k ((hre.other hca).symm.trans hk) hkv
        rw [heq] at hk' hone
        exact absurd hone (htwice hiv hk')
      · exact h.unique c b k i ((hre.other hca).symm.trans hk) ((hre.other hba).symm.trans hi)
          hkv hiv
          heq (le_trans (hcount _) hone)
    · by_cases hca : c = a
      · subst hca
        obtain rfl := hnew k hk
        have hr' := h.returned r hr hrv
        rw [heq] at hr'
        exact htwice hkv hr' hone
      · exact h.single c k r ((hre.other hca).symm.trans hk) hr hkv hrv
          (le_trans (hcount _) hone) heq
  refine h.rejoin hre ha hnone hcounted ?_ ?_ (fun c k _ _ _ b hb => ⟨b, hkept _ b hb, rfl⟩)
    (fun b blk hb hd => ?_) (fun _ _ _ _ => rfl) (fun i hi => ?_)
    (fun i hi _ c k _ hk hkf heq => ?_)
    fun r hr => Or.inl hr
  · refine h.toPrivate.update a (fun c => hre.holds)
      (fun c x _ hc => ⟨h.outside c x hc, h.allocated c x hc⟩) fun x hx => ?_
    rw [hre.holds_self hnone] at hx
    exact absurd hx (by simp [Machine.startJoin, JoinPc.taken])
  · refine h.toStored.keep rfl (fun _ _ => rfl) rfl (fun t w _ _ => hre.unpublished) fun t =>
      hre.collected fun i hi => absurd (hfree.symm.trans hi) (by simp)
  · by_cases hbb : b = block
    · subst hbb
      have hblk : (d.lib.newJoin thread b link).join_block b = some blk := hb
      simp only [Library.newJoin, Function.update_self, Option.some.injEq] at hblk
      rw [← hblk] at hd
      exact absurd hd (by simp)
    · refine h.done b blk ?_ hd
      have hblk : (d.lib.newJoin thread block link).join_block b = some blk := hb
      simpa [Library.newJoin, hbb] using hblk
  · obtain rfl := Option.some.inj hi
    refine ⟨fun _ => rfl, fun _ => ⟨_, Function.update_self _ _ _, rfl⟩, fun _ hp => ?_,
      fun _ hscan => ?_, trivial, fun _ hf => ?_⟩
    · exact absurd hp (by simp [Machine.startJoin, JoinPc.past, JoinPc.early])
    · exact absurd hscan.2 (by simp [Machine.startJoin, JoinPc.midScan])
    · exact absurd hf (by simp [Machine.startJoin, JoinPc.finished])
  · obtain rfl := Option.some.inj hi
    obtain ⟨b, hb, _⟩ := (h.join c k hk).own hkf
    rw [← heq] at hb
    exact absurd (hfresh.symm.trans hb) (by simp)

end SimpleOs.Threads
