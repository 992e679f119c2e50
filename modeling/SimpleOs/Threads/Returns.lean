import SimpleOs.Threads.Exiting
import SimpleOs.Threads.Scan
import SimpleOs.Threads.Wakeup

/-!
# Return values on their way

A return value is first in the hands of the exiting thread, then in the list of return
values, and then in the hands of a joiner. This file says what holds of the calls of
`my_pthread_exit` and `my_pthread_join` on that way, and what each of their steps keeps.
-/

namespace SimpleOs.Threads

open LinkedList

variable {s s' : Library} {d d' : Delivery} {j j' : Join} {l l' : List Addr} {live : Bool}

/-! ## The list of return values -/

/-- The link of an allocated return value. -/
def Library.retvalLink (s : Library) (a : Addr) : Option (Option Addr) :=
  (s.retval_block a).map (·.next)

/-- The list of return values consists of the blocks `l`. -/
def Library.Returns (s : Library) (l : List Addr) : Prop :=
  Segment s.retvalLink s.retval_LL l none

/-- A return value of thread `t` is in `l`. -/
def Library.Listed (s : Library) (l : List Addr) (t : ℕ) : Prop :=
  ∃ x ∈ l, ∃ b, s.retval_block x = some b ∧ b.thread_id = t

/-- A listed block that is kept stays listed. -/
theorem Library.Listed.mono {t : ℕ} (h : s.Listed l t) (hmem : ∀ x ∈ l, x ∈ l')
    (hblock : ∀ x ∈ l, s'.retval_block x = s.retval_block x) : s'.Listed l' t := by
  obtain ⟨x, hx, b, hb, ht⟩ := h
  exact ⟨x, hmem x hx, b, (hblock x hx).trans hb, ht⟩

/-- What a return value says. -/
def RetvalBlock.entry (b : RetvalBlock) : ℕ × ℕ := (b.thread_id, b.retval)

/-- The links after a store of a link of a return value. -/
theorem setRetvalNext_link {a : Addr} {next : Option Addr} (h : s.setRetvalNext a next = some s') :
    s'.retvalLink = Function.update s.retvalLink a (some next) ∧ s'.retval_LL = s.retval_LL ∧
      (∀ x, (s'.retval_block x).map RetvalBlock.entry =
        (s.retval_block x).map RetvalBlock.entry) ∧
      ∀ x, x ≠ a → s'.retval_block x = s.retval_block x := by
  obtain ⟨b, hb, rfl⟩ := Option.map_eq_some_iff.mp h
  refine ⟨?_, rfl, fun x => ?_, fun x hx => Function.update_of_ne hx _ _⟩
  · funext x
    by_cases hx : x = a
    · subst hx
      simp [Library.retvalLink]
    · simp [Library.retvalLink, hx]
  · by_cases hx : x = a
    · subst hx
      simp [hb, RetvalBlock.entry]
    · simp [hx]

/-! ## Where a call stands -/

/-- The call walks the list of return values, or takes a value out of it. -/
def JoinPc.walking : JoinPc → Bool
  | .retval _ _ => true
  | .retvalTake _ _ => true
  | .retvalUnlink _ _ => true
  | .retvalNext _ => true
  | _ => false

/-- The call has its result. -/
def JoinPc.finished : JoinPc → Bool
  | .retvalFree _ => true
  | .return_ => true
  | _ => false

/-- The block that the call has taken out of the list of return values. -/
def JoinPc.taken : JoinPc → Option Addr
  | .retvalFree ptr1 => some ptr1
  | _ => none

/-- The block that the call has not yet put in the list of return values. -/
def ExitPc.block : ExitPc → Option Addr
  | .pushTest block => some block
  | .pushFirstNext block => some block
  | .pushFirst block => some block
  | .pushNext block => some block
  | .pushHead block => some block
  | _ => none

/-- The call has walked the list of joiners. -/
def ExitPc.late : ExitPc → Bool
  | .wakeStart => false
  | .wake _ => false
  | .wakeDone _ => false
  | .wakeNext _ => false
  | _ => true

/-- The call is between the mark for its joiner and the end of the push, or in the
middle of the push. -/
def Exit.publishing (e : Exit) : Bool :=
  match e.pc with
  | .value => e.woken && decide (e.value_ptr ≠ 0)
  | .pushTest _ => e.woken
  | .pushFirstNext _ => true
  | .pushFirst _ => true
  | .pushNext _ => true
  | .pushHead _ => true
  | _ => false

/-! ## What has happened to a thread -/

/-- Thread `t` has called `my_pthread_exit`, and has marked a joiner if it is still there. -/
def Delivery.Woke (d : Delivery) (t : ℕ) : Prop :=
  (∃ v, (t, v) ∈ d.exits) ∧
    ∀ a e, d.exiting a = some e → d.lib.queues.idAt a = some t → e.woken = true

/-- Thread `t` is still in the hands of `my_pthread_exit`. -/
def Delivery.Unpublished (d : Delivery) (t : ℕ) : Prop :=
  ∃ a e, d.exiting a = some e ∧ d.lib.queues.idAt a = some t ∧ e.pc ≠ .status

/-- A join of thread `t` for its value has its result. -/
def Delivery.Collected (d : Delivery) (t : ℕ) : Prop :=
  (∃ a j, d.machine.joining a = some j ∧ j.thread = t ∧ j.value_ptr = true ∧
    j.pc.finished = true) ∨ ∃ r ∈ d.delivered, r.thread = t ∧ r.value_ptr = true

/-- The block of a return value that only the thread at a node knows. -/
def Delivery.holds (d : Delivery) (a : Addr) : Option Addr :=
  match d.exiting a with
  | some e => e.pc.block
  | none => (d.machine.joining a).bind (·.pc.taken)

/-- The target of a join has exited, and the result is its return value if no other
join asks for it. -/
def Delivery.Right (d : Delivery) (thread : ℕ) (value_ptr : Bool) (result : Option ℕ) : Prop :=
  d.Woke thread ∧ (value_ptr = true → d.joins.count thread ≤ 1 →
    ∀ v, (thread, v) ∈ d.exits → v ≠ 0 → result = some v)

/-- What an event leaves of what has happened before. -/
structure Delivery.Extends (d d' : Delivery) : Prop where
  /-- A thread that has exited stays so. -/
  woke : ∀ t, d.Woke t → d'.Woke t
  /-- A thread that has exited does not exit again. -/
  exits : ∀ t v, d.Woke t → (t, v) ∈ d'.exits → (t, v) ∈ d.exits
  /-- No target of a join is taken out of the record. -/
  joins : ∀ t, d.joins.count t ≤ d'.joins.count t
  /-- A thread that is gone stays so. -/
  gone : ∀ t ∈ d.gone, t ∈ d'.gone

/-- A result that is right stays right when more happens. -/
theorem Delivery.Right.extend {thread : ℕ} {value_ptr : Bool} {result : Option ℕ}
    (h : d.Right thread value_ptr result) (hext : d.Extends d') :
    d'.Right thread value_ptr result := by
  refine ⟨hext.woke thread h.1, fun hvalue hcount v hv => ?_⟩
  exact h.2 hvalue (le_trans (hext.joins thread) hcount) v (hext.exits thread v h.1 hv)

/-! ## The search for the target -/

/-- From `NULL` no links lead to a node. -/
theorem Queues.not_ahead_none {s : Queues} {t : ℕ} : ¬ s.Ahead t none := by
  rintro ⟨l, a, hl, _⟩
  cases l with
  | nil => exact absurd hl (by simp)
  | cons b l => exact absurd hl.1 (by simp)

/-- A thread that is ahead of a node of another thread is ahead of the next node. -/
theorem Queues.Ahead.next {s : Queues} {t : ℕ} {a : Addr} {n : Node} (h : s.Ahead t (some a))
    (hn : s.node a = some n) (hid : t ≠ n.thread_id) : s.Ahead t n.next := by
  obtain ⟨l, b, hl, hb⟩ := h
  cases l with
  | nil =>
    obtain rfl := Option.some.inj hl
    simp only [Queues.idAt, hn, Option.map_some, Option.some.injEq] at hb
    exact absurd hb.symm hid
  | cons c l =>
    obtain ⟨hc, next, hnext, hl⟩ := hl
    obtain rfl := Option.some.inj hc
    simp only [Queues.link, hn, Option.map_some, Option.some.injEq] at hnext
    exact ⟨l, b, hnext ▸ hl, hb⟩

/-- The rest of the search leads to the target. -/
def Join.Finds (s : Queues) (j : Join) : Prop :=
  match j.pc with
  | .scanStart k => ∃ i, k ≤ i ∧ s.Ahead j.thread (scanHead s i)
  | .scan k temp => s.Ahead j.thread temp ∨ ∃ i, k < i ∧ s.Ahead j.thread (scanHead s i)
  | .scanNext k a => (∀ garbage, s.Ahead j.thread (s.nextOf a garbage)) ∨
      ∃ i, k < i ∧ s.Ahead j.thread (scanHead s i)
  | _ => True

/-! ## The calls in progress -/

/-- Where a call stands that looks for a return value in the list `l`. -/
def Join.Walk (s : Library) (l : List Addr) (j : Join) : Prop :=
  match j.pc with
  | .retval prev1 ptr1 => j.value_ptr = true ∧ ∃ l₁ l₂, l = l₁ ++ l₂ ∧ prev1 = l₁.getLast? ∧
      Segment s.retvalLink ptr1 l₂ none ∧ ¬ s.Listed l₁ j.thread
  | .retvalTake prev1 ptr1 => j.value_ptr = true ∧ ∃ l₁ l₂, l = l₁ ++ ptr1 :: l₂ ∧
      prev1 = l₁.getLast? ∧ ∃ b, s.retval_block ptr1 = some b ∧ b.thread_id = j.thread
  | .retvalUnlink prev1 ptr1 => j.value_ptr = true ∧ ∃ l₁ l₂, l = l₁ ++ ptr1 :: l₂ ∧
      prev1 = l₁.getLast? ∧ ∃ b, s.retval_block ptr1 = some b ∧ b.thread_id = j.thread ∧
        j.result = some b.retval
  | .retvalNext ptr1 => j.value_ptr = true ∧ ∃ l₁ l₂, l = l₁ ++ ptr1 :: l₂ ∧
      ¬ s.Listed (l₁ ++ [ptr1]) j.thread
  | _ => True

/-- A call that does not walk the list. -/
theorem Join.walk_of_not_walking (h : j.pc.walking = false) : j.Walk s l := by
  unfold Join.Walk
  split <;> first | trivial | exact absurd h (by simp [JoinPc.walking, *])

/-- What holds of a call of `my_pthread_join`. -/
structure Join.Sound (d : Delivery) (s : Library) (l : List Addr) (live : Bool) (j : Join) :
    Prop where
  /-- The block is there until the call comes to free it. -/
  early : j.pc.early = true → j.freed = false
  /-- The block waits for the target. -/
  own : j.freed = false → ∃ b, s.join_block j.block = some b ∧ b.thread_waiting_for = j.thread
  /-- A call does not stop waiting early. -/
  past : live = true → j.pc.past = true → d.Woke j.thread
  /-- The search leads to the target, if it has not exited. -/
  finds : live = true → j.Scanning → d.Woke j.thread ∨ j.Finds s.queues
  /-- The walk has passed what it should have passed. -/
  walk : j.Walk s l
  /-- A call that has finished has the value of its target. -/
  right : live = true → j.pc.finished = true → d.Right j.thread j.value_ptr j.result

/-- A call that is interrupted here does not miss anything. -/
def Join.Restful (d : Delivery) (live : Bool) (j : Join) : Prop :=
  ¬ (live = true ∧ j.Scanning ∧ j.thread ∉ d.gone) ∧ j.pc.walking = false

/-- What holds of a call of `my_pthread_exit` by thread `t`. -/
structure Exit.Sound (s : Library) (t : ℕ) (e : Exit) : Prop where
  /-- A joiner is marked at the end of the walk. -/
  woken : e.woken = true → e.pc.late = true
  /-- The block of the return value is filled in. -/
  filled : ∀ b, e.pc.block = some b → ∃ next, s.retval_block b = some ⟨t, e.value_ptr, next⟩
  /-- What is known of the list during the push. -/
  linked : match e.pc with
    | .pushFirstNext _ => s.retval_LL = none
    | .pushFirst b => s.retval_LL = none ∧ s.retvalLink b = some none
    | .pushHead b => s.retvalLink b = some s.retval_LL
    | _ => True

/-- A call outside the push depends on its block only. -/
theorem Exit.Sound.move {e : Exit} {t : ℕ} (h : e.Sound s t) (hrest : e.publishing = false)
    (hblock : ∀ b, e.pc.block = some b → s'.retval_block b = s.retval_block b) :
    e.Sound s' t := by
  refine ⟨h.woken, fun b hb => ?_, ?_⟩
  · obtain ⟨next, hnext⟩ := h.filled b hb
    exact ⟨next, (hblock b hb).trans hnext⟩
  · cases hpc : e.pc <;> first | trivial | exact absurd hrest (by simp [Exit.publishing, hpc])

/-- What is known of an interrupted call stays known, as long as its block stays. -/
theorem Join.Sound.move (h : j.Sound d s l live) (hrest : j.Restful d live)
    (hgone : ∀ t ∈ d.gone, d.Woke t) (hext : d.Extends d')
    (hblock : j.freed = false → ∀ b, s.join_block j.block = some b →
      ∃ b', s'.join_block j.block = some b' ∧ b'.thread_waiting_for = b.thread_waiting_for) :
    j.Sound d' s' l' live ∧ j.Restful d' live := by
  refine ⟨⟨h.early, fun hf => ?_, fun hl hp => hext.woke _ (h.past hl hp), fun hl hscan => ?_,
    Join.walk_of_not_walking hrest.2, fun hl hf => (h.right hl hf).extend hext⟩,
    fun ⟨hl, hscan, hg⟩ => hrest.1 ⟨hl, hscan, fun hmem => hg (hext.gone _ hmem)⟩, hrest.2⟩
  · obtain ⟨b, hb, hthread⟩ := h.own hf
    obtain ⟨b', hb', hsame⟩ := hblock hf b hb
    exact ⟨b', hb', hsame.trans hthread⟩
  · left
    by_contra hwoke
    exact hrest.1 ⟨hl, hscan, fun hmem => hwoke (hext.woke _ (hgone _ hmem))⟩

/-! ## The steps of an exit -/

/-- What a step of `my_pthread_exit` does with the return value. -/
inductive Exit.Publishes (s s' : Library) (e e' : Exit) : Prop
  /-- The value stays in the block of the call, which is an old one or a new one. -/
  | hold : s'.retval_LL = s.retval_LL →
      (∀ x, e'.pc.block ≠ some x → s'.retval_block x = s.retval_block x) →
      (∀ x, e'.pc.block = some x → e.pc.block = some x ∨ s.retval_block x = none) →
      (e'.pc = .status → e.value_ptr = 0) → Publishes s s' e e'
  /-- The block of the call becomes the first of the list. -/
  | push (b : Addr) : e.pc.block = some b → e'.pc.block = none →
      s.retvalLink b = some s.retval_LL → s'.retval_LL = some b →
      s'.retval_block = s.retval_block → Publishes s s' e e'

variable {e e' : Exit} {t : ℕ}

/-- A step of an exit leaves the queues alone, and marks only a block that waits for
the exiting thread, if it marks a block that waits for that thread at all. -/
theorem Exit.step_same {block : Addr} {garbage : Option Addr}
    (hmark : ∀ a, e.pc = .wakeDone a →
      ∃ b, s.join_block a = some b ∧ b.thread_waiting_for = t)
    (hstep : e.step s t block garbage = some (s', e')) :
    s'.queues = s.queues ∧ e'.value_ptr = e.value_ptr ∧ (e.woken = true → e'.woken = true) ∧
      (∀ a b, s.join_block a = some b →
        ∃ b', s'.join_block a = some b' ∧ b'.thread_waiting_for = b.thread_waiting_for) ∧
      ∀ a b', s'.join_block a = some b' → b'.done = true →
        s.join_block a = some b' ∨ (b'.thread_waiting_for = t ∧ e'.woken = true) := by
  have hkeep {lib : Library} {pc : ExitPc}
      (heq : (lib, e.goto pc) = (s', e'))
      (hlib : lib.queues = s.queues ∧ lib.join_block = s.join_block) :
      s'.queues = s.queues ∧ e'.value_ptr = e.value_ptr ∧ (e.woken = true → e'.woken = true) ∧
        (∀ a b, s.join_block a = some b →
          ∃ b', s'.join_block a = some b' ∧ b'.thread_waiting_for = b.thread_waiting_for) ∧
        ∀ a b', s'.join_block a = some b' → b'.done = true →
          s.join_block a = some b' ∨ (b'.thread_waiting_for = t ∧ e'.woken = true) := by
    obtain ⟨rfl, rfl⟩ := Prod.mk.inj heq
    refine ⟨hlib.1, rfl, id, fun a b hb => ⟨b, ?_, rfl⟩, fun a b' hb' _ => Or.inl ?_⟩
    · rw [hlib.2]
      exact hb
    · rw [← hlib.2]
      exact hb'
  cases hpc : e.pc <;> simp only [Exit.step, hpc] at hstep
  case wakeStart => exact hkeep (Option.some.inj hstep) ⟨rfl, rfl⟩
  case wake ptr1 =>
    cases ptr1 with
    | none => exact hkeep (Option.some.inj hstep) ⟨rfl, rfl⟩
    | some a =>
      obtain ⟨b, _, heq⟩ := Option.map_eq_some_iff.mp hstep
      exact hkeep heq ⟨rfl, rfl⟩
  case wakeDone a =>
    obtain ⟨b, hb, heq⟩ := Option.map_eq_some_iff.mp hstep
    obtain ⟨rfl, rfl⟩ := Prod.mk.inj heq
    obtain ⟨b₀, hb₀, hwaits⟩ := hmark a hpc
    obtain rfl := Option.some.inj (hb.symm.trans hb₀)
    refine ⟨rfl, rfl, fun _ => rfl, fun c blk hblk => ?_, fun c blk hblk _ => ?_⟩
    · by_cases hca : c = a
      · subst hca
        obtain rfl := Option.some.inj (hb.symm.trans hblk)
        exact ⟨_, Function.update_self _ _ _, rfl⟩
      · exact ⟨blk, (Function.update_of_ne hca _ _).trans hblk, rfl⟩
    · by_cases hca : c = a
      · subst hca
        simp only [Function.update_self, Option.some.injEq] at hblk
        rw [← hblk]
        exact Or.inr ⟨hwaits, rfl⟩
      · exact Or.inl ((Function.update_of_ne hca _ _).symm.trans hblk)
  case wakeNext a => exact hkeep (Option.some.inj hstep) ⟨rfl, rfl⟩
  case value =>
    split at hstep
    · exact hkeep (Option.some.inj hstep) ⟨rfl, rfl⟩
    · split at hstep
      · exact hkeep (Option.some.inj hstep) ⟨rfl, rfl⟩
      · exact absurd hstep (by simp)
  case pushTest b => exact hkeep (Option.some.inj hstep) ⟨rfl, rfl⟩
  case pushFirstNext b =>
    obtain ⟨s₁, hset, heq⟩ := Option.map_eq_some_iff.mp hstep
    exact hkeep heq (setRetvalNext_same hset)
  case pushFirst b => exact hkeep (Option.some.inj hstep) ⟨rfl, rfl⟩
  case pushNext b =>
    obtain ⟨s₁, hset, heq⟩ := Option.map_eq_some_iff.mp hstep
    exact hkeep heq (setRetvalNext_same hset)
  case pushHead b => exact hkeep (Option.some.inj hstep) ⟨rfl, rfl⟩
  case status => exact absurd hstep (by simp)

/-- A call that has no block, or the same one, after a step that keeps the return values. -/
theorem Exit.Sound.keep (h : e.Sound s t) (pc : ExitPc)
    (hlinked : match pc with
      | .pushFirstNext _ => s.retval_LL = none
      | .pushFirst _ => False
      | .pushHead _ => False
      | _ => True)
    (hlate : e.pc.late = true → pc.late = true)
    (hblock : ∀ b, pc.block = some b → e.pc.block = some b)
    (hretval : s'.retval_block = s.retval_block)
    (hhead : s'.retval_LL = s.retval_LL) (hstatus : pc = .status → e.value_ptr = 0) :
    (e.goto pc).Sound s' t ∧ Exit.Publishes s s' e (e.goto pc) := by
  refine ⟨⟨fun hw => hlate (h.woken hw), fun b hb => ?_, ?_⟩, .hold hhead (fun x _ => ?_)
    (fun x hx => Or.inl (hblock x hx)) hstatus⟩
  · rw [hretval]
    exact h.filled b (hblock b hb)
  · rw [Exit.goto_pc]
    split <;> simp_all
  · rw [hretval]

/-- A store of the link of the block of a call. -/
theorem Exit.Sound.relink {b : Addr} {next : Option Addr} (h : e.Sound s t) (pc : ExitPc)
    (hlinked : match pc with
      | .pushFirst _ => next = none ∧ s.retval_LL = none
      | .pushHead _ => next = s.retval_LL
      | _ => False)
    (hold : e.pc.block = some b) (hnew : pc.block = some b) (hlate : pc.late = true)
    (hset : s.setRetvalNext b next = some s') :
    (e.goto pc).Sound s' t ∧ Exit.Publishes s s' e (e.goto pc) := by
  obtain ⟨hlink, hhead, hentry, hother⟩ := setRetvalNext_link hset
  have hpc : pc ≠ .status := by
    rintro rfl
    exact absurd hnew (by simp [ExitPc.block])
  refine ⟨⟨fun _ => hlate, fun c hc => ?_, ?_⟩, .hold hhead (fun x hx => hother x ?_)
    (fun x hx => Or.inl ?_) fun hst => absurd hst hpc⟩
  · obtain rfl := Option.some.inj (hnew.symm.trans hc)
    obtain ⟨next₀, hfilled⟩ := h.filled b hold
    have hsame := hentry b
    rw [hfilled] at hsame
    obtain ⟨blk, hblk, heq⟩ := Option.map_eq_some_iff.mp hsame
    obtain ⟨hid, hvalue⟩ : blk.thread_id = t ∧ blk.retval = e.value_ptr := Prod.mk.inj heq
    refine ⟨blk.next, hblk.trans (congrArg some ?_)⟩
    rw [Exit.goto_value_ptr, ← hid, ← hvalue]
  · rw [Exit.goto_pc, hlink, hhead]
    have hself : Function.update s.retvalLink b (some next) b = some next :=
      Function.update_self _ _ _
    cases pc with
    | pushFirst c =>
      obtain rfl := Option.some.inj hnew
      exact ⟨hlinked.2, hself.trans (congrArg some hlinked.1)⟩
    | pushHead c =>
      obtain rfl := Option.some.inj hnew
      exact hself.trans (congrArg some hlinked)
    | _ => exact absurd hlinked id
  · rintro rfl
    exact hx hnew
  · rw [hold, ← hnew]
    exact hx

/-- The block of a call becomes the first of the list. -/
theorem Exit.Sound.push {b : Addr} (hold : e.pc.block = some b)
    (hlink : s.retvalLink b = some s.retval_LL) :
    (e.goto .status).Sound { s with retval_LL := some b } t ∧
      Exit.Publishes s { s with retval_LL := some b } e (e.goto .status) := by
  refine ⟨⟨fun _ => rfl, fun c hc => absurd hc (by simp [ExitPc.block]), trivial⟩, ?_⟩
  exact .push b hold rfl hlink rfl rfl

/-- Every step of an exit keeps what holds of it. -/
theorem Exit.Sound.step {block : Addr} {garbage : Option Addr} (h : e.Sound s t)
    (hstep : e.step s t block garbage = some (s', e')) :
    e'.Sound s' t ∧ Exit.Publishes s s' e e' := by
  have hlinked := h.linked
  cases hpc : e.pc <;> simp only [Exit.step, hpc] at hstep <;> simp only [hpc] at hlinked
  case wakeStart =>
    obtain ⟨rfl, rfl⟩ := Prod.mk.inj (Option.some.inj hstep)
    apply h.keep <;> simp [hpc, ExitPc.late, ExitPc.block]
  case wake ptr1 =>
    cases ptr1 with
    | none =>
      obtain ⟨rfl, rfl⟩ := Prod.mk.inj (Option.some.inj hstep)
      apply h.keep <;> simp [ExitPc.late, ExitPc.block]
    | some a =>
      obtain ⟨b, _, heq⟩ := Option.map_eq_some_iff.mp hstep
      obtain ⟨rfl, rfl⟩ := Prod.mk.inj heq
      split <;> apply h.keep <;> simp [hpc, ExitPc.late, ExitPc.block]
  case wakeDone a =>
    obtain ⟨b, _, heq⟩ := Option.map_eq_some_iff.mp hstep
    obtain ⟨rfl, rfl⟩ := Prod.mk.inj heq
    refine ⟨⟨fun _ => rfl, fun c hc => absurd hc (by simp [ExitPc.block]), trivial⟩, ?_⟩
    apply Exit.Publishes.hold <;> simp [ExitPc.block]
  case wakeNext a =>
    obtain ⟨rfl, rfl⟩ := Prod.mk.inj (Option.some.inj hstep)
    apply h.keep <;> simp [hpc, ExitPc.late, ExitPc.block]
  case value =>
    split at hstep
    · rename_i hnull
      obtain ⟨rfl, rfl⟩ := Prod.mk.inj (Option.some.inj hstep)
      apply h.keep <;> simp [hnull, ExitPc.late, ExitPc.block]
    · split at hstep
      · rename_i hfresh
        obtain ⟨rfl, rfl⟩ := Prod.mk.inj (Option.some.inj hstep)
        refine ⟨⟨fun _ => rfl, fun c hc => ?_, trivial⟩, .hold rfl (fun x hx => ?_) (fun x hx => ?_)
          (by simp)⟩
        · obtain rfl := Option.some.inj hc
          exact ⟨garbage, Function.update_self _ _ _⟩
        · refine Function.update_of_ne ?_ _ _
          rintro rfl
          exact hx rfl
        · obtain rfl := Option.some.inj hx
          exact Or.inr hfresh
      · exact absurd hstep (by simp)
  case pushTest b =>
    obtain ⟨rfl, rfl⟩ := Prod.mk.inj (Option.some.inj hstep)
    split <;> apply h.keep <;> simp_all [ExitPc.late, ExitPc.block]
  case pushFirstNext b =>
    obtain ⟨s₁, hset, heq⟩ := Option.map_eq_some_iff.mp hstep
    obtain ⟨rfl, rfl⟩ := Prod.mk.inj heq
    exact h.relink (.pushFirst b) ⟨rfl, hlinked⟩ (by rw [hpc]; rfl) rfl rfl hset
  case pushFirst b =>
    obtain ⟨rfl, rfl⟩ := Prod.mk.inj (Option.some.inj hstep)
    exact Exit.Sound.push (by rw [hpc]; rfl) (by rw [hlinked.1]; exact hlinked.2)
  case pushNext b =>
    obtain ⟨s₁, hset, heq⟩ := Option.map_eq_some_iff.mp hstep
    obtain ⟨rfl, rfl⟩ := Prod.mk.inj heq
    exact h.relink (.pushHead b) rfl (by rw [hpc]; rfl) rfl rfl hset
  case pushHead b =>
    obtain ⟨rfl, rfl⟩ := Prod.mk.inj (Option.some.inj hstep)
    exact Exit.Sound.push (by rw [hpc]; rfl) hlinked
  case status => exact absurd hstep (by simp)

end SimpleOs.Threads
