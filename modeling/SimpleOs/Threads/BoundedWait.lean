import SimpleOs.Library.FeedbackQueue
import SimpleOs.Threads.Feedback

/-!
# No thread waits for ever

Each refill takes threads from the front of every queue and its slices add up to at most
300 milliseconds. So the slices that are served before a waiting thread are bounded by the
number of threads before it in its own queue, whatever the other threads do and however
many of them there are.
-/

namespace SimpleOs.Threads

open Runs FeedbackQueue

variable {s : Queues} {m : MultiLevel} {c : Fin 3} {a x : Addr}

/-- The timer that `scheduler` sets before it runs the head of the running queue, in
milliseconds. -/
def armedTimer (s : Queues) : ℕ :=
  let priority := match s.running_queue_head with
    | some ptr => (s.node ptr).elim 0 Node.priority
    | none => 0
  if priority = 0 then 25 else if priority = 1 then 50 else 100

/-- The lists as a queueing discipline. -/
def MultiLevel.feedback (m : MultiLevel) : Feedback (Fin 3) Addr := ⟨m.running, m.waiting, m.level⟩

/-- What every event keeps of the lists. -/
structure MultiLevel.Sound (m : MultiLevel) : Prop where
  /-- Priorities are 0, 1 or 2. -/
  bounded : ∀ a x, m.account a = some x → x.1 ≤ 2
  /-- A thread waits in the list of its priority. -/
  level : ∀ c, ∀ a ∈ m.waiting c, m.level a = c
  /-- The slices of the running list fit in a refill. -/
  time : m.feedback.time quantum m.running ≤ refillMax
  /-- Between events a thread runs if there is one. -/
  idle : m.running = [] → ∀ c, m.waiting c = []

/-! ## One event -/

/-- A thread whose account has not changed keeps its level. -/
theorem level_congr {m' : MultiLevel} (h : m'.account a = m.account a) :
    m'.level a = m.level a := by
  unfold MultiLevel.level
  rw [h]

/-- A slice keeps the priorities within their bounds. -/
theorem slicedAccount_le {y : ℕ × ℕ} (h : y.1 ≤ 2) (ran : Bool) : (slicedAccount ran y).1 ≤ 2 := by
  unfold slicedAccount
  dsimp only
  split_ifs <;> dsimp only <;> omega

/-- What a call does before it reaches the scheduler changes no thread that is there. -/
theorem MultiLevel.enter_spec {call : Call}
    (hnodup : (allNodes (m.enter call).running (m.enter call).waiting).Nodup)
    (hbounded : ∀ a x, m.account a = some x → x.1 ≤ 2)
    (hlevel : ∀ c, ∀ a ∈ m.waiting c, m.level a = c) :
    (m.enter call).running = m.running ∧ (∀ c, m.waiting c <+: (m.enter call).waiting c) ∧
      (∀ a ∈ m.running, (m.enter call).account a = m.account a) ∧
      (∀ a x, (m.enter call).account a = some x → x.1 ≤ 2) ∧
      ∀ c, ∀ a ∈ (m.enter call).waiting c, (m.enter call).level a = c := by
  cases call with
  | create newNode original =>
    have hnew : newNode ∉ allNodes m.running m.waiting :=
      (List.nodup_cons.mp ((allNodes_append m.running m.waiting 0 newNode).nodup_iff.mp hnodup)).1
    have hother (b : Addr) (hb : b ∈ allNodes m.running m.waiting) :
        (m.arrive newNode).account b = m.account b := by
      have hne : b ≠ newNode := by
        rintro rfl
        exact hnew hb
      simp [arrive, hne]
    refine ⟨rfl, fun c => ?_, fun b hb => hother b (mem_allNodes.mpr (Or.inl hb)),
      fun b y hy => ?_, fun c b hb => ?_⟩
    · by_cases hc : c = 0
      · subst hc
        simp [enter, arrive]
      · simp [enter, arrive, hc]
    · by_cases hb : b = newNode
      · simp only [enter, arrive, hb, Function.update_self, Option.some.injEq] at hy
        simp [← hy]
      · simp only [enter, arrive, Function.update_of_ne hb] at hy
        exact hbounded b y hy
    · have hcases : b ∈ m.waiting c ∨ c = 0 ∧ b = newNode := by
        by_cases hc : c = 0
        · subst hc
          simpa [enter, arrive] using hb
        · left
          simpa [enter, arrive, hc] using hb
      rcases hcases with hb | ⟨rfl, rfl⟩
      · change (m.arrive newNode).level b = c
        rw [level_congr (hother b (mem_allNodes.mpr (Or.inr ⟨c, hb⟩)))]
        exact hlevel c b hb
      · simp [enter, arrive, level, queueOf]
  | yield original => exact ⟨rfl, fun _ => List.prefix_rfl, fun _ _ => rfl, hbounded, hlevel⟩
  | timer original => exact ⟨rfl, fun _ => List.prefix_rfl, fun _ _ => rfl, hbounded, hlevel⟩
  | exit value_ptr block original =>
    exact ⟨rfl, fun _ => List.prefix_rfl, fun _ _ => rfl, hbounded, hlevel⟩

/-- A thread that does not leave is appended to the list of its new level. -/
theorem MultiLevel.serve_waiting (m : MultiLevel) (x : Addr) (r : List Addr) (ran : Bool) :
    (m.serve x r ran false).waiting =
      Function.update m.waiting ((m.serve x r ran false).level x)
        (m.waiting ((m.serve x r ran false).level x) ++ [x]) := rfl

/-- The thread that gives the processor back joins a list that waits. The others stay where
they are. -/
theorem MultiLevel.serve_spec {r : List Addr} (ran exiting : Bool)
    (hnodup : (allNodes (x :: r) m.waiting).Nodup)
    (hbounded : ∀ a y, m.account a = some y → y.1 ≤ 2)
    (hlevel : ∀ c, ∀ a ∈ m.waiting c, m.level a = c) :
    (m.serve x r ran exiting).running = r ∧
      (∀ c, m.waiting c <+: (m.serve x r ran exiting).waiting c) ∧
      (∀ a ∈ r, (m.serve x r ran exiting).level a = m.level a) ∧
      (∀ a y, (m.serve x r ran exiting).account a = some y → y.1 ≤ 2) ∧
      ∀ c, ∀ a ∈ (m.serve x r ran exiting).waiting c, (m.serve x r ran exiting).level a = c := by
  have hx : x ∉ allNodes r m.waiting := by
    simp only [allNodes, List.cons_append, List.nodup_cons] at hnodup
    exact hnodup.1
  have hother (a : Addr) (ha : a ≠ x) : (m.serve x r ran exiting).account a = m.account a := by
    cases exiting <;> simp [serve, ha]
  have hne {a : Addr} (ha : a ∈ allNodes r m.waiting) : a ≠ x := by
    rintro rfl
    exact hx ha
  refine ⟨?_, fun c => ?_, fun a ha => ?_, fun a y hy => ?_, fun c a ha => ?_⟩
  · cases exiting <;> simp [serve]
  · cases exiting
    · rw [serve_waiting, Function.update_apply]
      split
      · rename_i hc
        rw [hc]
        exact List.prefix_append _ _
      · exact List.prefix_rfl
    · exact List.prefix_rfl
  · exact level_congr (hother a (hne (mem_allNodes.mpr (Or.inl ha))))
  · by_cases ha : a = x
    · cases exiting
      · simp only [serve, Bool.false_eq_true, if_false, ha, Function.update_self,
          Option.map_eq_some_iff] at hy
        obtain ⟨z, hz, rfl⟩ := hy
        exact slicedAccount_le (hbounded x z hz) ran
      · simp [serve, ha] at hy
    · exact hbounded a y (by rw [← hother a ha]; exact hy)
  · by_cases hax : a = x
    · -- The thread itself is in the list of the level that it has now.
      subst hax
      cases exiting
      · by_contra hlevel'
        refine hx (mem_allNodes.mpr (Or.inr ⟨c, ?_⟩))
        rw [serve_waiting, Function.update_of_ne (Ne.symm hlevel')] at ha
        exact ha
      · exact absurd (mem_allNodes.mpr (Or.inr ⟨c, ha⟩)) hx
    · have hmem : a ∈ m.waiting c := by
        cases exiting
        · rw [serve_waiting, Function.update_apply] at ha
          split at ha
          · rename_i hc
            rw [← hc] at ha
            simpa [hax] using ha
          · exact ha
        · exact ha
      rw [level_congr (hother a hax)]
      exact hlevel c a hmem

/-- A thread that is loaded comes from the list of its level, so the slices of a refill are
those of its quota. -/
theorem MultiLevel.refill_time (hempty : m.running = [])
    (hlevel : ∀ c, ∀ a ∈ m.waiting c, m.level a = c) :
    m.refill.feedback.time quantum m.refill.running =
      used (quota fun c => (m.waiting c).length) := by
  have htime (c : Fin 3) (k : ℕ) (hk : k ≤ (m.waiting c).length) :
      m.refill.feedback.time quantum ((m.waiting c).take k) = k * quantum c := by
    have hsame : ∀ b ∈ ((m.waiting c).take k).map fun a => quantum (m.refill.feedback.level a),
        b = quantum c := by
      intro b hb
      obtain ⟨a, ha, rfl⟩ := List.mem_map.mp hb
      have hrefill : m.refill.account = m.account := by
        unfold refill
        split <;> rfl
      change quantum (m.refill.level a) = _
      rw [level_congr (congrFun hrefill a), hlevel c a (List.mem_of_mem_take ha)]
    rw [Feedback.time, List.eq_replicate_of_mem hsame]
    simp [hk]
  have hquota (c : Fin 3) := quota_le (fun c => (m.waiting c).length) c
  have hrunning : m.refill.running = (m.waiting 0).take (quota (fun c => (m.waiting c).length) 0) ++
      (m.waiting 1).take (quota (fun c => (m.waiting c).length) 1) ++
      (m.waiting 2).take (quota (fun c => (m.waiting c).length) 2) := by
    unfold refill
    rw [if_pos hempty]
  rw [hrunning, Feedback.time_append, Feedback.time_append, htime 0 _ (hquota 0),
    htime 1 _ (hquota 1), htime 2 _ (hquota 2)]
  simp only [used, quantum, Matrix.cons_val_zero, Matrix.cons_val_one, Matrix.cons_val]
  omega

/-- A refill loads from every list that is not empty. -/
theorem MultiLevel.refill_refilled (hempty : m.running = [])
    (hlevel : ∀ c, ∀ a ∈ m.waiting c, m.level a = c) :
    m.feedback.Refilled quantum refillMax m.refill.feedback := by
  refine ⟨⟨quota fun c => (m.waiting c).length, fun c hc => ?_, fun c => ?_, fun c a ha => ?_⟩, ?_⟩
  · have hzero := quota_eq_zero (fun c => (m.waiting c).length) c
    have hlength : (m.waiting c).length ≠ 0 := fun hnil => hc (List.length_eq_zero_iff.mp hnil)
    omega
  · simp only [feedback, refill, if_pos hempty]
  · simp only [feedback, refill, if_pos hempty, List.mem_append] at ha ⊢
    fin_cases c
    · exact Or.inl (Or.inl ha)
    · exact Or.inl (Or.inr ha)
    · exact Or.inr ha
  · change m.refill.feedback.time quantum m.refill.running ≤ refillMax
    rw [refill_time hempty hlevel]
    exact used_quota_le _

/-- After the refill the lists are sound again. -/
theorem MultiLevel.refill_sound (hbounded : ∀ a y, m.account a = some y → y.1 ≤ 2)
    (hlevel : ∀ c, ∀ a ∈ m.waiting c, m.level a = c)
    (htime : m.feedback.time quantum m.running ≤ refillMax) : m.refill.Sound := by
  by_cases hempty : m.running = []
  · have hrefilled := refill_refilled hempty hlevel
    have haccount : m.refill.account = m.account := by simp only [refill, if_pos hempty]
    obtain ⟨n, hsome, hdrop, htake⟩ := hrefilled.taken
    refine ⟨fun a y hy => hbounded a y (by rw [← haccount]; exact hy), fun c a ha => ?_,
      hrefilled.time, fun hnone c => ?_⟩
    · rw [level_congr (congrFun haccount a)]
      have hwaiting : m.refill.waiting c = (m.waiting c).drop (n c) := hdrop c
      rw [hwaiting] at ha
      exact hlevel c a (List.mem_of_mem_drop ha)
    · have hwaiting : m.refill.waiting c = (m.waiting c).drop (n c) := hdrop c
      by_contra hne
      have hlist : m.waiting c ≠ [] := by
        intro hnil
        rw [hwaiting, hnil] at hne
        exact hne List.drop_nil
      obtain ⟨a, l, hl⟩ := List.exists_cons_of_ne_nil hlist
      have hloaded : a ∈ m.refill.running := by
        apply htake c a
        change a ∈ (m.waiting c).take (n c)
        rw [hl, List.take_cons (hsome c hlist)]
        exact List.mem_cons_self
      rw [hnone] at hloaded
      exact absurd hloaded List.not_mem_nil
  · have hsame : m.refill = m := by simp only [refill, if_neg hempty]
    rw [hsame]
    exact ⟨hbounded, hlevel, htime, fun hnone => absurd hnone hempty⟩

/-- A scheduler call serves the running thread for its slice. -/
theorem MultiLevel.Sound.call_served {call : Call} {r : List Addr} (h : m.Sound)
    (hnodup : (allNodes (m.enter call).running (m.enter call).waiting).Nodup)
    (hx : m.running = x :: r) :
    (m.step (.call call)).Sound ∧
      m.feedback.Served quantum refillMax (m.step (.call call)).feedback x := by
  obtain ⟨hrunning, hjoins, haccount, hbounded, hlevel⟩ :=
    enter_spec hnodup h.bounded h.level
  rw [hx] at hrunning haccount
  have hnodup' : (allNodes (x :: r) (m.enter call).waiting).Nodup := by
    rw [hrunning] at hnodup
    exact hnodup
  obtain ⟨hrest, hjoins', hsame, hbounded', hlevel'⟩ :=
    serve_spec call.ranWholeTimeSlice call.exiting hnodup' hbounded hlevel
  have hstep : m.step (.call call) =
      ((m.enter call).serve x r call.ranWholeTimeSlice call.exiting).refill := by
    simp only [step, leave, hrunning]
  generalize hserved : (m.enter call).serve x r call.ranWholeTimeSlice call.exiting = m₁ at *
  have hjoined : Feedback.Joined { m.feedback with running := r } m₁.feedback := by
    refine ⟨hrest, fun b hb => ?_, fun c => (hjoins c).trans (hjoins' c)⟩
    change m₁.level b = m.level b
    rw [hsame b hb]
    exact level_congr (haccount b (List.mem_cons_of_mem _ hb))
  have htime : m₁.feedback.time quantum r ≤ refillMax := by
    have htotal := h.time
    rw [hx] at htotal
    have hsplit : m.feedback.time quantum (x :: r) =
        quantum (m.level x) + m.feedback.time quantum r := rfl
    have hcongr : m₁.feedback.time quantum r = m.feedback.time quantum r :=
      Feedback.time_congr hjoined.level
    omega
  rw [hstep]
  constructor
  · apply refill_sound hbounded' hlevel'
    rw [hrest]
    exact htime
  · by_cases hr : r = []
    · subst hr
      exact .last hx m₁.feedback hjoined (refill_refilled hrest hlevel')
    · have hkept : m₁.refill = m₁ := by simp only [refill, hrest, if_neg hr]
      rw [hkept]
      exact .next r hr hx hjoined

/-- The first scheduler call starts with the original thread. -/
theorem MultiLevel.Sound.call_first {call : Call} (h : m.Sound) (hempty : m.running = [])
    (hnodup : (allNodes (m.enter call).running (m.enter call).waiting).Nodup) :
    (m.step (.call call)).Sound := by
  obtain ⟨hrunning, _, _, hbounded, hlevel⟩ := enter_spec hnodup h.bounded h.level
  rw [hempty] at hrunning
  have hstep : m.step (.call call) = ((m.enter call).register call.original).refill := by
    simp only [step, leave, hrunning]
  have honly (c : Fin 3) (hc : c ≠ 0) : (m.enter call).waiting c = [] := by
    cases call <;> simp [enter, arrive, hc, h.idle hempty c]
  have hnew : ((m.enter call).register call.original).level call.original = 0 := by
    simp [register, MultiLevel.level, queueOf]
  have hsame (b : Addr) (hb : b ≠ call.original) :
      ((m.enter call).register call.original).account b = (m.enter call).account b := by
    simp [register, hb]
  rw [hstep]
  apply refill_sound
  · intro b y hy
    by_cases hb : b = call.original
    · simp only [register, hb, Function.update_self, Option.some.injEq] at hy
      simp [← hy]
    · exact hbounded b y (by rw [← hsame b hb]; exact hy)
  · intro c b hb
    have hc : c = 0 := by
      by_contra hc
      simp [register, hc, honly c hc] at hb
    subst hc
    by_cases hb' : b = call.original
    · rw [hb', hnew]
    · rw [level_congr (hsame b hb')]
      exact hlevel 0 b (by simpa [register, hb'] using hb)
  · change Feedback.time quantum _ (m.enter call).running ≤ refillMax
    rw [hrunning]
    exact Nat.zero_le _

/-! ## Runs -/

/-- Lists that are empty and sound hold no thread. -/
theorem MultiLevel.Sound.not_behind {n : ℕ} (h : m.Sound) (hempty : m.running = []) :
    ¬ m.feedback.Behind quantum refillMax a n := by
  intro hbehind
  cases hbehind with
  | running l l' hl =>
    change m.running = _ at hl
    simp [hempty] at hl
  | waiting c l l' hl =>
    change m.waiting c = _ at hl
    simp [h.idle hempty c] at hl

/-- Before the first event the lists are sound. -/
theorem multiLevel_sound_zero : MultiLevel.zero.Sound where
  bounded := fun a x hx => absurd hx (by simp [MultiLevel.zero])
  level := fun c a ha => absurd ha (by simp [MultiLevel.zero])
  time := Nat.zero_le _
  idle := fun _ _ => rfl

/-- Every event of a run keeps the lists sound. -/
theorem MultiLevel.Sound.step {v : Version} {τ τ' : Tracked} {e : Event} (h : m.Sound)
    (hshows : Shows τ.lib.queues m) (hstep : ExhaustingStep v τ e τ') : (m.step e).Sound := by
  cases e with
  | call call =>
    obtain ⟨_, hrun⟩ := hstep
    obtain ⟨fuel, hexec, _⟩ := hrun
    simp only [Call.exec, Option.bind_eq_bind] at hexec
    obtain ⟨lib, henter, _⟩ := Option.bind_eq_some_iff.mp hexec
    have hnodup := (hshows.enter (Call.enter_queues henter)).1.queued.nodup
    cases hm : m.running with
    | nil => exact h.call_first hm hnodup
    | cons x r => exact (h.call_served hnodup hm).1
  | createFails failure => exact h

/-- The timer is set for the slice that the thread's level gives it. -/
theorem Shows.armedTimer {r : List Addr} (h : Shows s m) (hm : m.Sound) (hx : m.running = x :: r) :
    armedTimer s = quantum (m.level x) := by
  have hhead : s.running_queue_head = some x := by
    have hrunning := h.queued.running
    rw [hx] at hrunning
    exact hrunning.1
  obtain ⟨n, hn⟩ := h.queued.allocated (a := x) (by simp [allNodes, hx])
  have haccount : m.account x = some n.account := by
    rw [← h.account]
    simp [Queues.account, hn]
  have hpriority : n.priority ≤ 2 := hm.bounded x n.account haccount
  have hlevel : m.level x = queueOf n.priority := by simp [MultiLevel.level, haccount, Node.account]
  simp only [Threads.armedTimer, hhead, hn, Option.elim_some, hlevel]
  obtain hp | hp | hp : n.priority = 0 ∨ n.priority = 1 ∨ n.priority = 2 := by omega
  all_goals
    rw [hp]
    rfl

/-- What a stretch of a run costs: the timers of the threads that were running when an
event reached the scheduler. -/
def eventTimer (τ : Tracked) : Event → ℕ
  | .call _ => armedTimer τ.lib.queues
  | .createFails _ => 0

/-- The library's queues serve their threads. -/
theorem library_serves (v : Version) :
    Serves quantum refillMax (ExhaustingStep v) eventTimer
      (fun τ => τ.lib.queues.running_queue_head)
      fun τ f => ∃ m : MultiLevel, Shows τ.lib.queues m ∧ m.Sound ∧ f = m.feedback := by
  rintro τ e τ' _ ⟨m, hshows, hm, rfl⟩ hstep ⟨a, n, hbehind⟩
  have hnext : Shows τ'.lib.queues (m.step e) := hshows.step hstep.1 hstep.2
  refine ⟨(m.step e).feedback, ⟨m.step e, hnext, hm.step hshows hstep, rfl⟩, ?_⟩
  cases e with
  | call call =>
    obtain ⟨_, hrun⟩ := hstep
    obtain ⟨fuel, hexec, _⟩ := hrun
    simp only [Call.exec, Option.bind_eq_bind] at hexec
    obtain ⟨lib, henter, _⟩ := Option.bind_eq_some_iff.mp hexec
    have hnodup := (hshows.enter (Call.enter_queues henter)).1.queued.nodup
    cases hx : m.running with
    | nil => exact absurd hbehind (hm.not_behind hx)
    | cons x r =>
      right
      have hrunning := hshows.queued.running
      rw [hx] at hrunning
      exact ⟨x, hrunning.1, hshows.armedTimer hm hx, (hm.call_served hnodup hx).2⟩
  | createFails failure =>
    left
    exact ⟨rfl, rfl, fun _ _ => rfl, fun _ => List.prefix_rfl⟩

/-- A timer is set for 25 milliseconds at least. -/
theorem le_armedTimer (s : Queues) : 25 ≤ armedTimer s := by
  unfold armedTimer
  dsimp only
  split_ifs <;> omega

/-- Whether an event reaches the scheduler. -/
def Event.schedules : Event → Bool
  | .call _ => true
  | .createFails _ => false

/-- The scheduler calls of a stretch of a run cost 25 milliseconds at least. -/
theorem calls_le_timers (w : List (Turn Tracked Event)) :
    25 * (w.filter fun t => t.event.schedules).length ≤
      (w.map fun t => eventTimer t.before t.event).sum := by
  induction w with
  | nil => exact Nat.zero_le _
  | cons t w ih =>
    rw [List.filter_cons, List.map_cons, List.sum_cons]
    cases hevent : t.event with
    | call call =>
      have htimer : 25 ≤ eventTimer t.before (.call call) := le_armedTimer t.before.lib.queues
      have hschedules : (Event.call call).schedules = true := rfl
      rw [if_pos hschedules, List.length_cons]
      omega
    | createFails failure =>
      rw [if_neg (by simp [Event.schedules])]
      omega

/-- The states of runs whose refills find the right lengths show sound lists. -/
theorem libraryReach_shows {v : Version} {τ : Tracked} (h : LibraryReach v RefillsExhaust τ) :
    ∃ m : MultiLevel, Shows τ.lib.queues m ∧ m.Sound := by
  refine Reach.invariant (P := fun τ : Tracked => ∃ m : MultiLevel,
    Shows τ.lib.queues m ∧ m.Sound) ?_ ?_ h
  · rintro _ rfl
    exact ⟨.zero, shows_zero, multiLevel_sound_zero⟩
  · rintro τ e τ' ⟨m, hshows, hm⟩ hok hstep
    exact ⟨m.step e, hshows.step hok hstep, hm.step hshows ⟨hok, hstep⟩⟩

/-- In every run whose refills find the right lengths, a thread with `l` before it in its
priority queue is run before the slices of the others add up to more than 300 milliseconds
for each thread of `l` and 600 more, and so after at most twelve scheduler calls for each
and twenty-four more. -/
theorem bounded_waiting {v : Version} {τ τ' : Tracked} {w : List (Turn Tracked Event)}
    {r l l' : List Addr} {q : Fin 3 → List Addr} {c : Fin 3} {a : Addr}
    (hτ : LibraryReach v RefillsExhaust τ) (h : Path (ExhaustingStep v) τ w τ')
    (hq : Queued τ.lib.queues r q) (ha : q c = l ++ a :: l')
    (hnever : ∀ t ∈ w, t.before.lib.queues.running_queue_head ≠ some a) :
    (w.map fun t => eventTimer t.before t.event).sum ≤ 300 * (l.length + 2) ∧
      (w.filter fun t => t.event.schedules).length ≤ 12 * (l.length + 2) := by
  obtain ⟨m, hshows, hm⟩ := libraryReach_shows hτ
  have hlist : m.waiting c = l ++ a :: l' := by
    rw [← ha]
    exact LinkedList.Segment.unique (hshows.queued.list c) (hq.list c)
  have hbehind : m.feedback.Behind quantum refillMax a
      (m.feedback.time quantum m.running + refillMax * (l.length + 1)) := .waiting c l l' hlist
  have hwaits : (w.map fun t => eventTimer t.before t.event).sum ≤
      m.feedback.time quantum m.running + 300 * (l.length + 1) :=
    (library_serves v).waits h ⟨m, hshows, hm, rfl⟩ hbehind hnever
  have htime : m.feedback.time quantum m.running ≤ 300 := hm.time
  have hcalls := calls_le_timers w
  have htotal : (w.map fun t => eventTimer t.before t.event).sum ≤ 300 * (l.length + 2) :=
    calc (w.map fun t => eventTimer t.before t.event).sum
        ≤ m.feedback.time quantum m.running + 300 * (l.length + 1) := hwaits
      _ ≤ 300 + 300 * (l.length + 1) := Nat.add_le_add_right htime _
      _ = 300 * (l.length + 2) := by rw [Nat.mul_succ 300 (l.length + 1), Nat.add_comm]
  exact ⟨htotal, by omega⟩

/-- Two creations, and then two calls of `my_pthread_yield`. -/
def twoYields : List Event :=
  [.call (.create 2 1), .call (.create 3 0), .call (.yield 0), .call (.yield 0)]

/-- The theorem at that run: after the creations the original thread waits behind the
second new one, and it is run after the two yields. -/
theorem bounded_waiting_twoYields : ∃ τ τ' w q, Path (ExhaustingStep .Pthreads) τ w τ' ∧
    Queued τ.lib.queues [2] q ∧ q 0 = [3, 1] ∧ w.length = 2 ∧
    (w.filter fun t => t.event.schedules).length ≤ 12 * 3 := by
  have hrun : (turns (fun τ e => Tracked.exec .Pthreads 10 τ e) twoYields
      ⟨Library.zero, []⟩).map (fun w => (w.drop 2).map fun t =>
        t.before.lib.queues.running_queue_head) = some [some 2, some 3] := by decide +kernel
  obtain ⟨w, hw, hheads⟩ := Option.map_eq_some_iff.mp hrun
  obtain ⟨τ', hpath⟩ := exhaustingPath_turns sound_zero hw
  have hevents : w.map Turn.event = twoYields := turns_events hw
  rw [← List.take_append_drop 2 w] at hpath
  obtain ⟨τ, hfirst, hsecond⟩ := hpath.of_append
  have hshows : Shows τ.lib.queues ((twoYields.take 2).foldl MultiLevel.step .zero) := by
    rw [← hevents, ← List.map_take]
    exact Shows.run shows_zero hfirst
  have hnever : ∀ t ∈ w.drop 2, t.before.lib.queues.running_queue_head ≠ some 1 := by
    intro t ht
    have hmem := List.mem_map_of_mem (f := fun t : Turn Tracked Event =>
      t.before.lib.queues.running_queue_head) ht
    rw [hheads] at hmem
    intro hone
    rw [hone] at hmem
    exact absurd hmem (by decide)
  have hreach : LibraryReach .Pthreads RefillsExhaust τ := Reach.of_path (.start rfl) hfirst
  have hlength : (w.drop 2).length = 2 := by
    have := congrArg List.length hheads
    simpa using this
  exact ⟨τ, τ', w.drop 2, _, hsecond, hshows.queued, rfl, hlength,
    (bounded_waiting (c := 0) (l := [3]) hreach hsecond hshows.queued rfl hnever).2⟩

end SimpleOs.Threads
