import SimpleOs.Library.Runs
import SimpleOs.Threads.Delivery

/-!
# Every run delivers its return values

The calls of `my_pthread_exit` and the scheduler keep what the joins rely on. So in every
run whose interruptions are harmless the only join of a thread gets its return value.
The signal handler that runs between the mark for the joiner and the push is not
harmless: the joiner returns without the value.
-/

namespace SimpleOs.Threads

open LinkedList

variable {d d' : Delivery} {j j' : Join} {e e' : Exit} {l l' : List Addr} {a : Addr} {t : ℕ}
  {next : Option Join} {v : Version}

/-! ## The scheduler -/

/-- The calls in progress have not changed. -/
structure Delivery.SameJoins (d d' : Delivery) : Prop where
  /-- The calls of `my_pthread_join` in progress are the same. -/
  joining : d'.machine.joining = d.machine.joining
  /-- What is known of them. -/
  live : d'.live = d.live
  /-- The joins that are counted. -/
  joins : d'.joins = d.joins
  /-- The joins that have returned. -/
  delivered : d'.delivered = d.delivered

/-- The joins are counted as before. -/
theorem Delivery.SameJoins.counted (hsame : d.SameJoins d') (h : d.Counted) : d'.Counted := by
  obtain ⟨hjoined, hreturned, hunique, hsingle⟩ := h
  rw [← hsame.joining, ← hsame.joins] at hjoined hunique hsingle
  rw [← hsame.joins] at hreturned
  rw [← hsame.delivered] at hreturned hsingle
  exact ⟨hjoined, hreturned, hunique, hsingle⟩

/-- A value that a joiner has collected stays collected. -/
theorem Delivery.SameJoins.collected (hsame : d.SameJoins d') (h : d.Collected t) :
    d'.Collected t := by
  unfold Delivery.Collected
  rw [hsame.joining, hsame.delivered]
  exact h

/-- All joins are interrupted where it does no harm, and the exits are sound. -/
theorem Delivery.Sound.reexit (h : d.Sound l) (hsame : d.SameJoins d') (hext : d.Extends d')
    (hrest : ∀ a j, d.machine.joining a = some j → j.Restful d (d.live a)) (hnamed : d'.Named)
    (hprivate : d'.Private l') (hstored : d'.Stored l')
    (hblock : ∀ a b, d.lib.join_block a = some b →
      ∃ b', d'.lib.join_block a = some b' ∧ b'.thread_waiting_for = b.thread_waiting_for)
    (hdone : ∀ b blk, d'.lib.join_block b = some blk → blk.done = true →
      d'.Woke blk.thread_waiting_for)
    (hexit : ∀ c i, d'.exiting c = some i → d.machine.joining c = none ∧
      (∀ t, d'.lib.queues.idAt c = some t → i.Sound d'.lib t) ∧
      (d'.lib.queues.running_queue_head ≠ some c → i.publishing = false)) : d'.Sound l' := by
  have hmove (c : Addr) (k : Join) (hk : d'.machine.joining c = some k) :
      k.Sound d' d'.lib l' (d'.live c) ∧ k.Restful d' (d'.live c) := by
    rw [hsame.joining] at hk
    rw [hsame.live]
    exact (h.join c k hk).move (hrest c k hk) (fun t ht => h.toNamed.gone_woke ht) hext
      fun _ => hblock k.block
  refine ⟨hnamed, hsame.counted h.toCounted, hprivate, hstored, fun c i hi => ?_,
    fun c k hk => (hmove c k hk).1, fun c i t hi hid => (hexit c i hi).2.1 t hid, hdone, ?_,
    fun c k hk _ => (hmove c k hk).2, fun c i hi => (hexit c i hi).2.2, fun r hr hl => ?_⟩
  · rw [hsame.joining]
    exact (hexit c i hi).1
  · rw [hsame.joining]
    exact h.distinct
  · rw [hsame.delivered] at hr
    exact (h.right r hr hl).extend hext

/-- Only the queues have changed. -/
structure Delivery.Requeued (d d' : Delivery) : Prop extends d.SameJoins d' where
  /-- Of the library only the queues differ. -/
  lib : d'.lib = { d.lib with queues := d'.lib.queues }
  /-- The calls of `my_pthread_exit` in progress are the same. -/
  exiting : d'.exiting = d.exiting
  /-- The threads that are gone. -/
  gone : d'.gone = d.gone
  /-- The recorded calls of `my_pthread_exit` are the same. -/
  exits : d'.exits = d.exits

/-- An event that changes only the queues, while all calls are interrupted where it does
no harm. -/
theorem Delivery.Sound.requeue (h : d.Sound l) (hre : d.Requeued d')
    (hids : Identified d'.lib d.gone)
    (hid : ∀ a t, d.lib.queues.idAt a = some t → d'.lib.queues.idAt a = some t)
    (hrest : ∀ a j, d.machine.joining a = some j → j.Restful d (d.live a))
    (hpublished : ∀ a e, d.exiting a = some e → e.publishing = false) : d'.Sound l := by
  have hext : d.Extends d' := h.toNamed.extends hid hre.exiting hre.gone hre.exits fun t => by
    rw [hre.joins]
  have hblock : d'.lib.join_block = d.lib.join_block := by rw [hre.lib]
  have hretval : d'.lib.retval_block = d.lib.retval_block := by rw [hre.lib]
  have hholds (c : Addr) : d'.holds c = d.holds c :=
    Delivery.holds_congr (congrFun hre.exiting c) (congrFun hre.joining c)
  refine h.reexit hre.toSameJoins hext hrest
    (h.toNamed.keep (hre.gone ▸ hids) hid hre.exiting hre.gone hre.exits) ?_
    (h.toStored.keep (by rw [hre.lib]) (fun x _ => by rw [hretval]) hre.exits ?_
      fun _ => hre.toSameJoins.collected) (fun c b hb => ⟨b, ?_, rfl⟩) (fun b blk hb hd => ?_)
    fun c i hi => ?_
  · refine ⟨fun c x hc => ?_, fun c b x hc hb => ?_, fun c x hc => ?_⟩
    · rw [hholds] at hc
      exact h.outside c x hc
    · rw [hholds] at hc hb
      exact h.alone c b x hc hb
    · rw [hholds] at hc
      rw [hretval]
      exact h.allocated c x hc
  · rintro u w _ _ ⟨c, i, hi, hc, hpc⟩
    refine ⟨c, i, ?_, hid c u hc, hpc⟩
    rw [hre.exiting]
    exact hi
  · rw [hblock]
    exact hb
  · rw [hblock] at hb
    exact hext.woke _ (h.done b blk hb hd)
  · rw [hre.exiting] at hi
    refine ⟨h.apart c i hi, fun u hu => ?_, fun _ => hpublished c i hi⟩
    obtain ⟨t, ht, _⟩ := h.named c i hi
    obtain rfl := Option.some.inj ((hid c t ht).symm.trans hu)
    exact (h.exit c i t hi ht).move (hpublished c i hi) fun b _ => by rw [hretval]

/-- A call of the library that ends no thread keeps the ids of the threads. -/
theorem Identified.exec_keeps {fuel : ℕ} {call : Call} {s s' : Library} {gone : List ℕ}
    (h : Identified s gone) (hexit : call.exiting = false) (hexec : call.exec v fuel s = some s')
    (hid : s.queues.idAt a = some t) : s'.queues.idAt a = some t := by
  obtain ⟨hids, _⟩ := Call.exec_same h.exited hexec
  rw [hids]
  unfold Call.idsAfter
  rw [if_neg]
  · cases call with
    | create newNode original =>
      have hfresh : s.queues.node newNode = none := by
        simp only [Call.exec, Option.bind_eq_bind] at hexec
        obtain ⟨s₁, henter, _⟩ := Option.bind_eq_some_iff.mp hexec
        exact (createNode_same (Call.enter_queues henter)).1
      have hne : a ≠ newNode := by
        rintro rfl
        simp [Queues.idAt, hfresh] at hid
      simp only [if_neg hne]
      exact hid
    | yield original => exact hid
    | timer original => exact hid
    | exit value_ptr block original => exact absurd hexit (by simp [Call.exiting])
  · rintro ⟨hnone, _⟩
    exact absurd ((h.start hnone).1 a ▸ hid) (by simp)

/-- A call of the library that ends no thread keeps the ids distinct. -/
theorem Identified.exec_quiet {fuel : ℕ} {call : Call} {s s' : Library} {gone : List ℕ}
    (h : Identified s gone) (hexit : call.exiting = false)
    (hids : ∀ newNode original, call = .create newNode original → IdsLeft s)
    (hexec : call.exec v fuel s = some s') : Identified s' gone := by
  cases call with
  | create newNode original => exact h.create (hids _ _ rfl) hexec
  | yield original => exact h.quiet (Or.inl ⟨original, rfl⟩) hexec
  | timer original => exact h.quiet (Or.inr ⟨original, rfl⟩) hexec
  | exit value_ptr block original => exact absurd hexit (by simp [Call.exiting])

/-! ## The calls of `my_pthread_exit` -/

/-- All joins are interrupted where it does no harm, if the running thread is in none. -/
theorem Delivery.Sound.all_restful (h : d.Sound l)
    (hrunning : ∀ a j, d.lib.queues.running_queue_head = some a → d.machine.joining a = some j →
      j.Restful d (d.live a)) (a : Addr) (j : Join) (hj : d.machine.joining a = some j) :
    j.Restful d (d.live a) := by
  by_cases hhead : d.lib.queues.running_queue_head = some a
  · exact hrunning a j hhead hj
  · exact h.restful a j hj hhead

/-- All exits are interrupted where it does no harm, if the one of the running thread is. -/
theorem Delivery.Sound.all_published (h : d.Sound l)
    (hrunning : ∀ a e, d.lib.queues.running_queue_head = some a → d.exiting a = some e →
      e.publishing = false) (a : Addr) (e : Exit) (he : d.exiting a = some e) :
    e.publishing = false := by
  by_cases hhead : d.lib.queues.running_queue_head = some a
  · exact hrunning a e hhead he
  · exact h.published a e he hhead

/-- A call of `my_pthread_exit` that begins keeps the invariant. -/
theorem Delivery.Sound.start_exit {value_ptr : ℕ} (h : d.Sound l)
    (ha : d.lib.queues.running_queue_head = some a) (hid : d.lib.queues.idAt a = some t)
    (hj : d.machine.joining a = none) (hnone : d.exiting a = none) :
    (d.startExit a t value_ptr).Sound l := by
  have hnew := h.toNamed.not_exited hid hnone
  have hself : (d.startExit a t value_ptr).exiting a = some ⟨value_ptr, false, .wakeStart⟩ :=
    Function.update_self _ _ _
  have hother {c : Addr} (hca : c ≠ a) : (d.startExit a t value_ptr).exiting c = d.exiting c :=
    Function.update_of_ne hca _ _
  have hne {c : Addr} {i : Exit} (hi : d.exiting c = some i) : c ≠ a := by
    rintro rfl
    exact absurd (hnone.symm.trans hi) (by simp)
  have hcases {u w : ℕ} (hw : (u, w) ∈ (d.startExit a t value_ptr).exits) :
      (u = t ∧ w = value_ptr) ∨ (u, w) ∈ d.exits :=
    (List.mem_cons.mp hw).imp_left Prod.mk.inj
  have hext : d.Extends (d.startExit a t value_ptr) := by
    refine ⟨fun u hu => ⟨?_, fun c i hi hc => ?_⟩, fun u w hu hw => ?_, fun _ => le_rfl,
      fun _ => id⟩
    · obtain ⟨w, hw⟩ := hu.1
      exact ⟨w, List.mem_cons_of_mem _ hw⟩
    · by_cases hca : c = a
      · subst hca
        obtain rfl := Option.some.inj (hid.symm.trans hc)
        obtain ⟨w, hw⟩ := hu.1
        exact absurd hw (hnew w)
      · rw [hother hca] at hi
        exact hu.2 c i hi hc
    · rcases hcases hw with ⟨rfl, _⟩ | hw
      · obtain ⟨w', hw'⟩ := hu.1
        exact absurd hw' (hnew w')
      · exact hw
  have hnamed : (d.startExit a t value_ptr).Named := by
    refine ⟨h.ids, fun u hu => ?_, fun c i hi => ?_, fun u w hw => ?_, fun u w x hw hx => ?_⟩
    · obtain ⟨w, hw⟩ := h.left u hu
      exact ⟨w, List.mem_cons_of_mem _ hw⟩
    · by_cases hca : c = a
      · subst hca
        obtain rfl := Option.some.inj (hself.symm.trans hi)
        exact ⟨t, hid, List.mem_cons_self⟩
      · rw [hother hca] at hi
        obtain ⟨u, hu, hw⟩ := h.named c i hi
        exact ⟨u, hu, List.mem_cons_of_mem _ hw⟩
    · rcases hcases hw with ⟨rfl, _⟩ | hw
      · exact Or.inr ⟨a, _, hself, hid⟩
      · refine (h.began u w hw).imp_right fun hbegan => ?_
        obtain ⟨c, i, hi, hc⟩ := hbegan
        exact ⟨c, i, (hother (hne hi)).trans hi, hc⟩
    · rcases hcases hw with ⟨hut, hwv⟩ | hw' <;> rcases hcases hx with ⟨hut', hxv⟩ | hx'
      · rw [hwv, hxv]
      · exact absurd (hut ▸ hx') (hnew x)
      · exact absurd (hut' ▸ hw') (hnew w)
      · exact h.once u w x hw' hx'
  refine h.reexit ⟨rfl, rfl, rfl, rfl⟩ hext
    (h.all_restful fun c k hc hk => ?_) hnamed ?_ ?_ (fun c b hb => ⟨b, hb, rfl⟩)
    (fun b blk hb hd => hext.woke _ (h.done b blk hb hd)) fun c i hi => ?_
  · obtain rfl := Option.some.inj (ha.symm.trans hc)
    exact absurd (hj.symm.trans hk) (by simp)
  · refine h.toPrivate.update a (fun c hca => Delivery.holds_congr (hother hca) rfl)
      (fun c x _ hc => ⟨h.outside c x hc, h.allocated c x hc⟩) fun x hx => ?_
    rw [Delivery.holds_of_exiting hself] at hx
    exact absurd hx (by simp [ExitPc.block])
  · refine ⟨h.list, fun x hx b hb => List.mem_cons_of_mem _ (h.listed x hx b hb),
      fun u w hw hwne => ?_⟩
    rcases hcases hw with ⟨rfl, _⟩ | hw
    · exact Or.inl ⟨a, _, hself, hid, by simp⟩
    · refine (h.kept u w hw hwne).imp_left fun hkept => ?_
      obtain ⟨c, i, hi, hc, hpc⟩ := hkept
      exact ⟨c, i, (hother (hne hi)).trans hi, hc, hpc⟩
  · by_cases hca : c = a
    · subst hca
      obtain rfl := Option.some.inj (hself.symm.trans hi)
      refine ⟨hj, fun u _ => ⟨fun hw => absurd hw (by simp), fun b hb => ?_, trivial⟩, fun _ => rfl⟩
      exact absurd hb (by simp [ExitPc.block])
    · rw [hother hca] at hi
      exact ⟨h.apart c i hi, fun u hu => h.exit c i u hi hu, h.published c i hi⟩

/-- The blocks and the list after a step of an exit. -/
theorem Delivery.Sound.publishes {lib : Library} (h : d.Sound l) (he : d.exiting a = some e)
    (hid : d.lib.queues.idAt a = some t) (hqueues : lib.queues = d.lib.queues)
    (hsound : e'.Sound lib t) (hpublishes : Exit.Publishes d.lib lib e e') :
    ∃ l', (d.stepExit a lib e').Private l' ∧ (d.stepExit a lib e').Stored l' ∧
      ∀ c x, c ≠ a → d.holds c = some x → lib.retval_block x = d.lib.retval_block x := by
  have hself : (d.stepExit a lib e').exiting a = some e' := Function.update_self _ _ _
  have hother {c : Addr} (hca : c ≠ a) : (d.stepExit a lib e').exiting c = d.exiting c :=
    Function.update_of_ne hca _ _
  have hholds (c : Addr) (hca : c ≠ a) : (d.stepExit a lib e').holds c = d.holds c :=
    Delivery.holds_congr (hother hca) rfl
  have hcollected (u : ℕ) (hu : d.Collected u) : (d.stepExit a lib e').Collected u := hu
  have hun (u : ℕ) (hua : e'.pc = .status → u ≠ t) (hu : d.Unpublished u) :
      (d.stepExit a lib e').Unpublished u := by
    obtain ⟨c, i, hi, hc, hpc⟩ := hu
    rw [← hqueues] at hc
    by_cases hca : c = a
    · subst hca
      refine ⟨c, e', hself, hc, fun hst => hua hst ?_⟩
      rw [hqueues] at hc
      exact Option.some.inj (hc.symm.trans hid)
    · exact ⟨c, i, (hother hca).trans hi, hc, hpc⟩
  cases hpublishes with
  | hold hhead hsame hnew hstatus =>
    -- the block of the call is nobody else's and not in the list
    have hfresh (x : Addr) (hx : e'.pc.block = some x) :
        x ∉ l ∧ ∀ c, c ≠ a → d.holds c ≠ some x := by
      rcases hnew x hx with hold | hfree
      · have hmine : d.holds a = some x := (Delivery.holds_of_exiting he).trans hold
        exact ⟨h.outside a x hmine, fun c hca hc => hca (h.alone c a x hc hmine)⟩
      · refine ⟨fun hmem => ?_, fun c _ hc => h.allocated c x hc hfree⟩
        have := Segment.isSome h.list hmem
        simp [Library.retvalLink, hfree] at this
    have hheld (c : Addr) (x : Addr) (hca : c ≠ a) (hc : d.holds c = some x) :
        lib.retval_block x = d.lib.retval_block x :=
      hsame x fun hx => (hfresh x hx).2 c hca hc
    refine ⟨l,
      h.toPrivate.update a hholds (fun c x hca hc => ⟨h.outside c x hc, ?_⟩) fun x hx => ?_,
      h.toStored.keep hhead (fun x hx => hsame x fun hx' => (hfresh x hx').1 hx) rfl ?_ hcollected,
      hheld⟩
    · refine ne_of_eq_of_ne (hheld c x hca hc) (h.allocated c x hc)
    · rw [Delivery.holds_of_exiting hself] at hx
      obtain ⟨next, hfilled⟩ := hsound.filled x hx
      refine ⟨(hfresh x hx).1, ?_, (hfresh x hx).2⟩
      exact ne_of_eq_of_ne hfilled (Option.some_ne_none _)
    · intro u w hw hne hu
      refine hun u (fun hst hut => hne ?_) hu
      subst hut
      rw [← h.toNamed.value he hid hw]
      exact hstatus hst
  | push b hold hnone hlink hhead hsame =>
    have hmine : d.holds a = some b := (Delivery.holds_of_exiting he).trans hold
    have hlinks : lib.retvalLink = d.lib.retvalLink := by
      funext x
      simp only [Library.retvalLink, hsame]
    obtain ⟨next, hfilled⟩ := (h.exit a e t he hid).filled b hold
    refine ⟨b :: l, h.toPrivate.update a hholds (fun c x hca hc => ⟨?_, ?_⟩) fun x hx => ?_,
      ⟨?_, fun x hx blk hblk => ?_, fun u w hw hne => ?_⟩, fun c x _ _ => by rw [hsame]⟩
    · refine List.not_mem_cons_of_ne_of_not_mem ?_ (h.outside c x hc)
      rintro rfl
      exact hca (h.alone c a x hc hmine)
    · refine ne_of_eq_of_ne ?_ (h.allocated c x hc)
      exact congrFun hsame x
    · rw [Delivery.holds_of_exiting hself, hnone] at hx
      exact absurd hx (by simp)
    · refine ⟨hhead, d.lib.retval_LL, ?_, ?_⟩
      · exact (congrFun hlinks b).trans hlink
      · exact h.list.congr fun x _ => congrFun hlinks x
    · replace hblk : d.lib.retval_block x = some blk := (congrFun hsame x).symm.trans hblk
      rcases List.mem_cons.mp hx with rfl | hx
      · obtain ⟨t', ht', hv⟩ := h.named a e he
        obtain rfl := Option.some.inj (hid.symm.trans ht')
        obtain rfl := Option.some.inj (hfilled.symm.trans hblk)
        exact hv
      · exact h.listed x hx blk hblk
    · by_cases hut : u = t
      · refine Or.inr (Or.inl ⟨b, List.mem_cons_self, _, (congrFun hsame b).trans hfilled, ?_⟩)
        exact hut.symm
      · rcases h.kept u w hw hne with hu | hlisted | hc
        · exact Or.inl (hun u (fun _ => hut) hu)
        · exact Or.inr (Or.inl (hlisted.mono (fun x hx => List.mem_cons_of_mem _ hx)
            fun x _ => congrFun hsame x))
        · exact Or.inr (Or.inr (hcollected u hc))

/-- A step of `my_pthread_exit` that marks a block marks one that waits for its thread. -/
theorem Delivery.Sound.step_exit {lib : Library} {block : Addr} {garbage : Option Addr}
    (h : d.Sound l) (ha : d.lib.queues.running_queue_head = some a)
    (hid : d.lib.queues.idAt a = some t) (he : d.exiting a = some e)
    (hmark : ∀ ptr1, e.pc = .wakeDone ptr1 →
      ∃ b, d.lib.join_block ptr1 = some b ∧ b.thread_waiting_for = t)
    (hstep : e.step d.lib t block garbage = some (lib, e')) :
    ∃ l', (d.stepExit a lib e').Sound l' := by
  obtain ⟨hqueues, hvalue, hwoken, hblock, hdone⟩ := Exit.step_same hmark hstep
  obtain ⟨hsound, hpublishes⟩ := (h.exit a e t he hid).step hstep
  obtain ⟨l', hprivate, hstored, hheld⟩ := h.publishes he hid hqueues hsound hpublishes
  have hself : (d.stepExit a lib e').exiting a = some e' := Function.update_self _ _ _
  have hother {c : Addr} (hca : c ≠ a) : (d.stepExit a lib e').exiting c = d.exiting c :=
    Function.update_of_ne hca _ _
  have hids (c : Addr) : (d.stepExit a lib e').lib.queues.idAt c = d.lib.queues.idAt c := by
    change lib.queues.idAt c = _
    rw [hqueues]
  have hext : d.Extends (d.stepExit a lib e') := by
    refine ⟨fun u hu => ⟨hu.1, fun c i hi hc => ?_⟩, fun u w _ => id, fun _ => le_rfl, fun _ => id⟩
    rw [hids] at hc
    by_cases hca : c = a
    · subst hca
      obtain rfl := Option.some.inj (hself.symm.trans hi)
      exact hwoken (hu.2 c e he hc)
    · rw [hother hca] at hi
      exact hu.2 c i hi hc
  have hnamed : (d.stepExit a lib e').Named := by
    refine ⟨h.ids.of_queues hqueues, h.left, fun c i hi => ?_, fun u w hw => ?_, h.once⟩
    · rw [hids]
      by_cases hca : c = a
      · subst hca
        obtain rfl := Option.some.inj (hself.symm.trans hi)
        rw [hvalue]
        exact h.named c e he
      · rw [hother hca] at hi
        exact h.named c i hi
    · refine (h.began u w hw).imp_right fun ⟨c, i, hi, hc⟩ => ?_
      by_cases hca : c = a
      · subst hca
        exact ⟨c, e', hself, (hids c).trans hc⟩
      · exact ⟨c, i, (hother hca).trans hi, (hids c).trans hc⟩
  have hhead : (d.stepExit a lib e').lib.queues.running_queue_head = some a :=
    (congrArg Queues.running_queue_head hqueues).trans ha
  refine ⟨l', h.reexit ⟨rfl, rfl, rfl, rfl⟩ hext (h.all_restful fun c k hc hk => ?_) hnamed hprivate
    hstored hblock (fun b blk hb hd => ?_) fun c i hi => ?_⟩
  · obtain rfl := Option.some.inj (ha.symm.trans hc)
    exact absurd ((h.apart a e he).symm.trans hk) (by simp)
  · rcases hdone b blk hb hd with hold | ⟨hwaits, hnow⟩
    · exact hext.woke _ (h.done b blk hold hd)
    · obtain ⟨u, hu, hv⟩ := h.named a e he
      obtain rfl := Option.some.inj (hid.symm.trans hu)
      rw [hwaits]
      refine ⟨⟨e.value_ptr, hv⟩, fun c i hi hc => ?_⟩
      rw [hids] at hc
      obtain rfl := h.ids.distinct a c t hid hc
      obtain rfl := Option.some.inj (hself.symm.trans hi)
      exact hnow
  · by_cases hca : c = a
    · subst hca
      obtain rfl := Option.some.inj (hself.symm.trans hi)
      refine ⟨h.apart c e he, fun u hu => ?_, fun hc => absurd hhead hc⟩
      rw [hids] at hu
      obtain rfl := Option.some.inj (hid.symm.trans hu)
      exact hsound
    · rw [hother hca] at hi
      have hrest : i.publishing = false := by
        refine h.published c i hi fun hc => hca ?_
        exact Option.some.inj (hc.symm.trans ha)
      refine ⟨h.apart c i hi, fun u hu => ?_, fun _ => hrest⟩
      rw [hids] at hu
      refine (h.exit c i u hi hu).move hrest fun b hb => hheld c b hca ?_
      rw [Delivery.holds_of_exiting hi]
      exact hb

/-- The running thread leaves the processor for good. -/
theorem Delivery.Sound.end_exit {fuel : ℕ} {ran : Bool} {queues : Queues} (h : d.Sound l)
    (ha : d.lib.queues.running_queue_head = some a) (hid : d.lib.queues.idAt a = some t)
    (he : d.exiting a = some e) (hpc : e.pc = .status)
    (hleave : d.lib.queues.leave v fuel ran = some queues) : (d.endExit a t queues).Sound l := by
  simp only [Queues.leave, Option.bind_eq_bind] at hleave
  obtain ⟨ptr, hptr, hleave⟩ := Option.bind_eq_some_iff.mp hleave
  obtain rfl := Option.some.inj (ha.symm.trans hptr)
  obtain ⟨q, hstore, hrun⟩ := Option.bind_eq_some_iff.mp hleave
  obtain ⟨hids, hexited, ⟨hcount, hcreated⟩, hrunning⟩ := exited_same h.ids.exited ha hstore hrun
  have hself : (d.endExit a t queues).exiting a = none := Function.update_self _ _ _
  have hother {c : Addr} (hca : c ≠ a) : (d.endExit a t queues).exiting c = d.exiting c :=
    Function.update_of_ne hca _ _
  have hkeep {c : Addr} (hca : c ≠ a) : queues.idAt c = d.lib.queues.idAt c := by
    rw [hids, if_neg hca]
  have hne {c : Addr} {i : Exit} (hi : (d.endExit a t queues).exiting c = some i) : c ≠ a := by
    rintro rfl
    exact absurd (hself.symm.trans hi) (by simp)
  have hidentified : Identified { d.lib with queues := queues } (t :: d.gone) := by
    refine h.ids.of_ids 0 hexited hrunning (createQueues_count hcount hcreated) (fun c u hc => ?_)
      fun u hu => ?_
    · have hca : c ≠ a := by
        rintro rfl
        rw [hids, if_pos rfl] at hc
        exact absurd hc (by simp)
      rw [hkeep hca] at hc
      refine Or.inr ⟨hc, List.not_mem_cons_of_ne_of_not_mem ?_ (h.ids.alive c u hc)⟩
      rintro rfl
      exact hca (h.ids.distinct c a u hc hid)
    · rcases List.mem_cons.mp hu with rfl | hu
      · exact Or.inr ⟨a, hid⟩
      · exact Or.inl hu
  have hext : d.Extends (d.endExit a t queues) := by
    refine ⟨fun u hu => ⟨hu.1, fun c i hi hc => ?_⟩, fun u w _ => id, fun _ => le_rfl,
      fun u hu => List.mem_cons_of_mem _ hu⟩
    have hca := hne hi
    rw [hother hca] at hi
    exact hu.2 c i hi ((hkeep hca).symm.trans hc)
  have hnamed : (d.endExit a t queues).Named := by
    refine ⟨hidentified, fun u hu => ?_, fun c i hi => ?_, fun u w hw => ?_, h.once⟩
    · rcases List.mem_cons.mp hu with rfl | hu
      · obtain ⟨u', hu', hv⟩ := h.named a e he
        obtain rfl := Option.some.inj (hid.symm.trans hu')
        exact ⟨_, hv⟩
      · exact h.left u hu
    · have hca := hne hi
      rw [hother hca] at hi
      obtain ⟨u, hu, hv⟩ := h.named c i hi
      exact ⟨u, (hkeep hca).trans hu, hv⟩
    · rcases h.began u w hw with hgone | ⟨c, i, hi, hc⟩
      · exact Or.inl (List.mem_cons_of_mem _ hgone)
      · by_cases hca : c = a
        · subst hca
          obtain rfl := Option.some.inj (hid.symm.trans hc)
          exact Or.inl List.mem_cons_self
        · exact Or.inr ⟨c, i, (hother hca).trans hi, (hkeep hca).trans hc⟩
  refine h.reexit ⟨rfl, rfl, rfl, rfl⟩ hext (h.all_restful fun c k hc hk => ?_) hnamed
    (h.toPrivate.update a (fun c hca => Delivery.holds_congr (hother hca) rfl)
      (fun c x _ hc => ⟨h.outside c x hc, h.allocated c x hc⟩) fun x hx => ?_)
    (h.toStored.keep rfl (fun _ _ => rfl) rfl ?_ fun _ => id) (fun c b hb => ⟨b, hb, rfl⟩)
    (fun b blk hb hd => hext.woke _ (h.done b blk hb hd)) fun c i hi => ?_
  · obtain rfl := Option.some.inj (ha.symm.trans hc)
    exact absurd ((h.apart a e he).symm.trans hk) (by simp)
  · rw [Delivery.holds_of_joining hself] at hx
    change (d.machine.joining a).bind _ = _ at hx
    rw [h.apart a e he] at hx
    exact absurd hx (by simp)
  · rintro u w _ _ ⟨c, i, hi, hc, hst⟩
    have hca : c ≠ a := by
      rintro rfl
      obtain rfl := Option.some.inj (he.symm.trans hi)
      exact hst hpc
    exact ⟨c, i, (hother hca).trans hi, (hkeep hca).trans hc, hst⟩
  · have hca := hne hi
    rw [hother hca] at hi
    have hrest : i.publishing = false := by
      refine h.published c i hi fun hc => hca ?_
      exact Option.some.inj (hc.symm.trans ha)
    refine ⟨h.apart c i hi, fun u hu => ?_, fun _ => hrest⟩
    exact (h.exit c i u hi ((hkeep hca).symm.trans hu)).move hrest fun _ _ => rfl

/-! ## Runs -/

/-- The condition on an event. The signal handler does not run while a join looks for a
target that is there, or walks the list of return values, or while an exiting thread is
between the mark for its joiner and the end of its push. A join frees its block once, and
looks for a target that is in a queue or gone. An exit marks a block that waits for its
thread, and a creation has a new thread id to give. -/
def DeliverySafe (d : Delivery) : DeliveryEvent → Prop
  | .machine (.call (.create _ _)) _ => IdsLeft d.lib
  | .machine (.createFails _) _ => IdsLeft d.lib
  | .machine .timer _ => ∀ a, d.lib.queues.running_queue_head = some a →
      (∀ j, d.machine.joining a = some j → j.Restful d (d.live a)) ∧
        ∀ e, d.exiting a = some e → e.publishing = false
  | .machine (.step _) _ => ∀ a j, d.lib.queues.running_queue_head = some a →
      d.machine.joining a = some j → j.Steady d (d.live a)
  | .exitStep _ _ => ∀ a t e ptr1, d.lib.queues.running_queue_head = some a →
      d.lib.runningId = some t → d.exiting a = some e → e.pc = .wakeDone ptr1 →
        ∃ b, d.lib.join_block ptr1 = some b ∧ b.thread_waiting_for = t
  | _ => True

/-- The only join of a thread for its value gets the value, if the target was in a queue
when the call was made. -/
def Delivery.Delivers (d : Delivery) : Prop :=
  ∀ r ∈ d.delivered, r.live = true → r.value_ptr = true → d.joins.count r.thread = 1 →
    ∀ v, (r.thread, v) ∈ d.exits → v ≠ 0 → r.result = some v

/-- A call of the library that ends no thread. -/
theorem Delivery.Sound.call {fuel : ℕ} {call : Call} {lib : Library} (h : d.Sound l)
    (hre : d.Requeued d') (hlib : d'.lib = lib) (hexit : call.exiting = false)
    (hids : ∀ newNode original, call = .create newNode original → IdsLeft d.lib)
    (hexec : call.exec v fuel d.lib = some lib)
    (hrest : ∀ a j, d.machine.joining a = some j → j.Restful d (d.live a))
    (hpublished : ∀ a e, d.exiting a = some e → e.publishing = false) : d'.Sound l := by
  subst hlib
  exact h.requeue hre (h.ids.exec_quiet hexit hids hexec)
    (fun a t hid => h.ids.exec_keeps hexit hexec hid) hrest hpublished

/-- Every safe event keeps what is known of joins, exits and return values. -/
theorem Delivery.Sound.step {e : DeliveryEvent} (h : d.Sound l) (hok : DeliverySafe d e)
    (hstep : DeliveryStep v d e d') : ∃ l', d'.Sound l' := by
  cases e with
  | machine e live =>
    obtain ⟨hends, hguard, hlive, m, hm, rfl⟩ := hstep
    have hleaving (htimer : e.isTimer = false) (a : Addr)
        (ha : d.lib.queues.running_queue_head = some a) : d.exiting a = none := by
      have hnone := hguard.resolve_left (by simp [htimer])
      rw [Delivery.leaving, ha, Option.bind_some] at hnone
      exact hnone
    have hpublished (htimer : e.isTimer = false) (a : Addr) (i : Exit) (hi : d.exiting a = some i) :
        i.publishing = false := by
      refine h.all_published (fun c k hc hk => ?_) a i hi
      exact absurd ((hleaving htimer c hc).symm.trans hk) (by simp)
    cases e with
    | call call =>
      obtain ⟨hout, fuel, lib, hexec, rfl⟩ := hm
      have hexit : call.exiting = false := by
        cases call <;> first | rfl | exact absurd hends (by simp [MachineEvent.endsThread])
      have hrest := h.all_restful fun a j ha hj =>
        absurd ((hout a ha).symm.trans hj) (by simp)
      refine ⟨l,
        h.call ⟨⟨rfl, rfl, rfl, rfl⟩, Call.exec_queues hexit hexec, rfl, rfl, rfl⟩ rfl hexit
        (fun newNode original heq => ?_) hexec hrest (hpublished rfl)⟩
      subst heq
      exact hok
    | createFails failure =>
      obtain ⟨hout, rfl⟩ := hm
      have hrest := h.all_restful fun a j ha hj =>
        absurd ((hout a ha).symm.trans hj) (by simp)
      refine ⟨l,
        h.requeue ⟨⟨rfl, rfl, rfl, rfl⟩, rfl, rfl, rfl, rfl⟩ (h.ids.createFails hok failure)
        (fun a t hid => ?_) hrest (hpublished rfl)⟩
      change (createFails d.lib.queues failure).idAt a = some t
      simp only [Queues.idAt, (createFails_same d.lib.queues failure).1]
      exact hid
    | timer =>
      obtain ⟨fuel, lib, hexec, rfl⟩ := hm
      have hrest := h.all_restful fun a j ha hj => (hok a ha).1 j hj
      have hpublished := h.all_published fun a i ha hi => (hok a ha).2 i hi
      exact ⟨l, h.call ⟨⟨rfl, rfl, rfl, rfl⟩, Call.exec_queues rfl hexec, rfl, rfl, rfl⟩ rfl rfl
        (by simp) hexec hrest hpublished⟩
    | join thread value_ptr block next =>
      obtain ⟨a, ha, hnone, hfresh, rfl⟩ := hm
      exact ⟨l, h.start_join ha (hleaving rfl a ha) hnone hfresh⟩
    | step garbage =>
      obtain ⟨a, j, lib, next, ha, hj, hstep, rfl⟩ := hm
      exact h.step_join ha (hleaving rfl a ha) hj (hok a j ha hj) hstep
    | wait =>
      obtain ⟨a, j, fuel, lib, ha, hj, hpc, hexec, rfl⟩ := hm
      -- first the call goes on, and then the other threads run
      have hnone := hleaving rfl a ha
      have hresumed : Delivery.Sound { d with machine := { d.machine with
          joining := Function.update d.machine.joining a (some (j.goto .waitTest)) } } l :=
        h.resume ⟨rfl, rfl, rfl, fun _ _ => rfl, rfl, rfl, fun _ => le_rfl, fun _ => id⟩ ha hnone hj
          hpc rfl rfl rfl rfl
      have hrest := hresumed.all_restful fun c k hc hk => by
        obtain rfl := Option.some.inj (ha.symm.trans hc)
        obtain rfl : j.goto .waitTest = k := by simpa using hk
        exact ⟨fun hscan => absurd hscan.2.1.2 (by simp [JoinPc.midScan]), rfl⟩
      exact ⟨l,
        hresumed.call ⟨⟨rfl, rfl, rfl, rfl⟩, Call.exec_queues rfl hexec, rfl, rfl, rfl⟩ rfl rfl
        (by simp) hexec hrest (hpublished rfl)⟩
  | exit value_ptr =>
    obtain ⟨a, t, ha, hid, hj, hnone, rfl⟩ := hstep
    simp only [Library.runningId, ha, Option.bind_some] at hid
    exact ⟨l, h.start_exit ha hid hj hnone⟩
  | exitStep block garbage =>
    obtain ⟨a, t, e, lib, e', ha, hid, he, hstep, rfl⟩ := hstep
    have hmark := fun ptr1 => hok a t e ptr1 ha hid he
    simp only [Library.runningId, ha, Option.bind_some] at hid
    exact h.step_exit ha hid he hmark hstep
  | leave ran =>
    obtain ⟨a, t, e, fuel, queues, ha, hid, he, hpc, hleave, rfl⟩ := hstep
    simp only [Library.runningId, ha, Option.bind_some] at hid
    exact ⟨l, h.end_exit ha hid he hpc hleave⟩

/-- Before the first call nothing has happened. -/
theorem sound_deliveryZero : Delivery.zero.Sound [] := by
  have hno (a : Addr) : Delivery.zero.machine.joining a = none := rfl
  have hids : Identified Delivery.zero.lib Delivery.zero.gone := calm_zero.ids
  refine ⟨⟨hids, ?_, ?_, ?_, ?_⟩, ⟨?_, ?_, ?_, ?_⟩, ⟨?_, ?_, ?_⟩, ⟨rfl, ?_, ?_⟩, ?_, ?_, ?_, ?_, ?_,
    ?_, ?_, ?_⟩
  all_goals simp [Delivery.zero, Machine.zero, Library.zero, Delivery.holds]

/-- The states reached by events that meet `ok`. -/
def DeliveryReach (v : Version) (ok : Delivery → DeliveryEvent → Prop) : Delivery → Prop :=
  Runs.Reach (fun d => d = Delivery.zero) (DeliveryStep v) ok

/-- In every state that safe events reach there is a list of return values for which all this holds.
-/
theorem deliveryReach_sound (h : DeliveryReach v DeliverySafe d) : ∃ l, d.Sound l := by
  refine Runs.Reach.invariant (P := fun d => ∃ l, Delivery.Sound d l) ?_ ?_ h
  · rintro _ rfl
    exact ⟨[], sound_deliveryZero⟩
  · rintro d e d' ⟨l, hl⟩ hok hstep
    exact hl.step hok hstep

/-- In every run whose interruptions are harmless the only join of a thread for its
value returns with the value that the thread passed to `my_pthread_exit`. -/
theorem values_delivered (v : Version) (d : Delivery) (h : DeliveryReach v DeliverySafe d) :
    d.Delivers := by
  obtain ⟨l, hl⟩ := deliveryReach_sound h
  intro r hr hlive hvalue hcount w hw hne
  exact (hl.right r hr hlive).2 hvalue (le_of_eq hcount) w hw hne

/-! ## A value that is delivered, and one that is not -/

/-- Thread `t` is the first of a queue. -/
def Delivery.atHead (d : Delivery) (t : ℕ) : Bool :=
  (List.finRange 4).any fun k =>
    decide ((scanHead d.lib.queues k).bind d.lib.queues.idAt = some t)

/-- The first of a queue is in it. -/
theorem Delivery.inQueues_of_atHead (h : d.atHead t = true) : d.lib.queues.InQueues t := by
  obtain ⟨k, _, hk⟩ := List.any_eq_true.mp h
  obtain ⟨a, ha, hid⟩ := Option.bind_eq_some_iff.mp (of_decide_eq_true hk)
  exact ⟨k, [], a, ha, hid⟩

/-- One event, computed, when all joins are for the first of a queue. -/
def Delivery.execHead (v : Version) (fuel : ℕ) (d : Delivery) (e : DeliveryEvent) :
    Option Delivery :=
  match e with
  | .machine (.join thread _ _ _) live =>
    if live && d.atHead thread then d.exec v fuel e else none
  | _ => d.exec v fuel e

/-- What is computed is an event. -/
theorem Delivery.execHead_step {fuel : ℕ} {e : DeliveryEvent} (h : d.execHead v fuel e = some d') :
    DeliveryStep v d e d' := by
  unfold Delivery.execHead at h
  split at h
  · rename_i thread value_ptr block next live
    split at h
    · rename_i hhead
      simp only [Bool.and_eq_true] at hhead
      refine Delivery.exec_step (fun thread' _ _ _ live' heq => ?_) h
      simp only [DeliveryEvent.machine.injEq, MachineEvent.join.injEq] at heq
      obtain ⟨⟨rfl, _⟩, rfl⟩ := heq
      exact iff_of_true hhead.1 (Delivery.inQueues_of_atHead hhead.2)
    · exact absurd h (by simp)
  · rename_i hjoin
    exact Delivery.exec_step
      (fun thread value_ptr block next live heq => absurd heq (hjoin _ _ _ _ _)) h

/-- A check of the condition on an event that is no timer. -/
def Delivery.harmless (d : Delivery) : DeliveryEvent → Bool
  | .machine (.call (.create _ _)) _ => decide (d.lib.nextThreadId + 1 < 2 ^ 32)
  | .machine (.createFails _) _ => false
  | .machine .timer _ => false
  | .machine (.step _) _ => (d.lib.queues.running_queue_head.bind d.machine.joining).all fun j =>
      decide (j.pc ≠ .unlinkFree) && (decide (j.pc ≠ .scanStart 0) || d.atHead j.thread)
  | .exitStep _ _ => d.leaving.all fun e =>
      match e.pc with
      | .wakeDone ptr1 =>
        decide ((d.lib.join_block ptr1).map (·.thread_waiting_for) = d.lib.runningId)
      | _ => true
  | _ => true

/-- An event that passes the check meets the condition. -/
theorem Delivery.safe_of_harmless {e : DeliveryEvent} (h : d.harmless e = true) :
    DeliverySafe d e := by
  unfold Delivery.harmless at h
  split at h
  · have hids : d.lib.nextThreadId + 1 < 2 ^ 32 := of_decide_eq_true h
    exact hids
  · exact absurd h (by simp)
  · exact absurd h (by simp)
  · intro a j ha hj
    simp only [ha, Option.bind_some, hj, Option.all_some, Bool.and_eq_true, Bool.or_eq_true,
      decide_eq_true_eq] at h
    refine ⟨fun hpc => absurd hpc h.1, fun hpc _ _ => ?_⟩
    exact Delivery.inQueues_of_atHead (h.2.resolve_left (not_not.mpr hpc))
  · intro a t e ptr1 ha ht he hpc
    simp only [Delivery.leaving, ha, Option.bind_some, he, Option.all_some, hpc,
      decide_eq_true_eq, ht] at h
    exact Option.map_eq_some_iff.mp h
  · unfold DeliverySafe
    split <;> first | trivial | simp_all

/-- One event, computed, if it is harmless. -/
def Delivery.execHarmless (v : Version) (fuel : ℕ) (d : Delivery) (e : DeliveryEvent) :
    Option Delivery :=
  if d.harmless e then d.execHead v fuel e else none

/-- Thread 2 joins thread 1, which is the first of its queue, and yields. -/
def joinForValue : List DeliveryEvent :=
  [.machine (.call (.create 2 1)) false, .machine (.call (.yield 0)) false,
    .machine (.join 1 true 10 none) true] ++
    List.replicate 14 (.machine (.step none) false) ++ [.machine .wait false]

/-- Thread 1 exits with value 69, and the join returns. -/
def valueReturned : List DeliveryEvent :=
  joinForValue ++ [.exit 69] ++ List.replicate 7 (.exitStep 20 none) ++ [.leave false] ++
    List.replicate 10 (.machine (.step none) false)

/-- The theorem at that run, in which thread 1 exits with 69 and its joiner returns with it. -/
theorem values_delivered_once :
    ∃ d, DeliveryReach .Pthreads DeliverySafe d ∧ (1, 69) ∈ d.exits ∧
      ∃ r ∈ d.delivered, r.thread = 1 ∧ r.result = some 69 := by
  have hrun : (Runs.execAll (Delivery.execHarmless .Pthreads 10) valueReturned Delivery.zero).map
      (fun d => (d.exits, d.joins, d.delivered.map fun r => (r.thread, r.value_ptr, r.live))) =
      some ([(1, 69)], [1], [(1, true, true)]) := by decide +kernel
  obtain ⟨d, hd, heq⟩ := Option.map_eq_some_iff.mp hrun
  simp only [Prod.mk.injEq] at heq
  obtain ⟨hexits, hjoins, hdelivered⟩ := heq
  have hreach : DeliveryReach .Pthreads DeliverySafe d := by
    refine Runs.Reach.execAll (fun e _ d d' hstep => ?_) (.start rfl) hd
    unfold Delivery.execHarmless at hstep
    split at hstep
    · exact ⟨Delivery.safe_of_harmless ‹_›, Delivery.execHead_step hstep⟩
    · exact absurd hstep (by simp)
  obtain ⟨r, hr, heq⟩ := List.map_eq_singleton_iff.mp hdelivered
  simp only [Prod.mk.injEq] at heq
  obtain ⟨hthread, hvalue, hlive⟩ := heq
  have hexited : (1, 69) ∈ d.exits := by simp [hexits]
  refine ⟨d, hreach, hexited, r, by simp [hr], hthread, ?_⟩
  apply values_delivered .Pthreads d hreach r (by simp [hr]) hlive hvalue
  · simp [hjoins, hthread]
  · rw [hthread]
    exact hexited
  · decide

/-- The signal handler runs between the mark for the joiner and the push, and the join
returns. -/
def interruptedExit : List DeliveryEvent :=
  joinForValue ++ [.exit 69] ++ List.replicate 3 (.exitStep 20 none) ++ [.machine .timer false] ++
    List.replicate 7 (.machine (.step none) false)

/-- A run in which the join returns without the value, in either version. -/
theorem value_not_delivered :
    (∃ d, DeliveryReach .Pthreads (fun _ _ => True) d ∧ ¬ d.Delivers) ∧
      ∃ d, DeliveryReach .Memory_Manager (fun _ _ => True) d ∧ ¬ d.Delivers := by
  have hlost (v : Version) : ∃ d, DeliveryReach v (fun _ _ => True) d ∧ ¬ d.Delivers := by
    have hrun : (Runs.execAll (Delivery.execHead v 10) interruptedExit Delivery.zero).map
        (fun d => (d.exits, d.joins, d.delivered.map fun r =>
          (r.thread, r.value_ptr, r.live, r.result))) =
        some ([(1, 69)], [1], [(1, true, true, none)]) := by
      cases v <;> rfl
    obtain ⟨d, hd, heq⟩ := Option.map_eq_some_iff.mp hrun
    simp only [Prod.mk.injEq] at heq
    obtain ⟨hexits, hjoins, hdelivered⟩ := heq
    refine ⟨d, Runs.Reach.execAll (fun e _ d d' hstep => ⟨trivial, Delivery.execHead_step hstep⟩)
      (.start rfl) hd, fun hdelivers => ?_⟩
    obtain ⟨r, hr, heq⟩ := List.map_eq_singleton_iff.mp hdelivered
    simp only [Prod.mk.injEq] at heq
    obtain ⟨hthread, hvalue, hlive, hresult⟩ := heq
    have hvalued := hdelivers r (by simp [hr]) hlive hvalue (by simp [hjoins, hthread]) 69
      (by simp [hexits, hthread]) (by decide)
    rw [hresult] at hvalued
    exact absurd hvalued (by simp)
  exact ⟨hlost _, hlost _⟩

end SimpleOs.Threads
