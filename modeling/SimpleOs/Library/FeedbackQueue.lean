import Mathlib.Algebra.BigOperators.Group.List.Basic
import Mathlib.Algebra.GroupWithZero.Nat
import SimpleOs.Library.Runs

/-!
# Feedback queues and the time spent waiting in them

A queueing discipline with one list of jobs that are served in turn and one waiting list
for each level. The job served last goes back to the end of some waiting list or leaves,
and when the served list is empty it is refilled with jobs from the front of every waiting
list, for a limited time in total. The slices served before a waiting job are bounded by
its position in its waiting list alone.
-/

namespace FeedbackQueue

open Runs

/-- The lists of a queueing discipline. -/
structure Feedback (C A : Type*) where
  /-- The jobs that are served, the first one now. -/
  running : List A
  /-- The jobs that wait at each level. -/
  waiting : C → List A
  /-- The level of a job, which decides on its slice. -/
  level : A → C

variable {C A : Type*} {slice : C → ℕ} {budget n : ℕ} {s s' : Feedback C A} {a x : A}

/-- The time that a list of jobs is served. -/
def Feedback.time (slice : C → ℕ) (s : Feedback C A) (l : List A) : ℕ :=
  (l.map fun a => slice (s.level a)).sum

/-- The time of a list depends on the levels of its jobs only. -/
theorem Feedback.time_congr {l : List A} (h : ∀ b ∈ l, s'.level b = s.level b) :
    s'.time slice l = s.time slice l := by
  unfold time
  congr 1
  exact List.map_congr_left fun b hb => by rw [h b hb]

/-- The time of one list after another. -/
theorem Feedback.time_append (l l' : List A) :
    s.time slice (l ++ l') = s.time slice l + s.time slice l' := by
  simp [time]

/-- Jobs join waiting lists at the end, and the list that is served stays. -/
structure Feedback.Joined (s s' : Feedback C A) : Prop where
  /-- The jobs that are served. -/
  running : s'.running = s.running
  /-- The jobs that are served keep their levels. -/
  level : ∀ b ∈ s.running, s'.level b = s.level b
  /-- Each waiting list begins with what it was. -/
  waiting : ∀ c, s.waiting c <+: s'.waiting c

/-- The list that is served is filled from the front of each waiting list. -/
structure Feedback.Refilled (slice : C → ℕ) (budget : ℕ) (s s' : Feedback C A) : Prop where
  /-- Some jobs of each nonempty waiting list are taken. -/
  taken : ∃ n : C → ℕ, (∀ c, s.waiting c ≠ [] → 0 < n c) ∧
    (∀ c, s'.waiting c = (s.waiting c).drop (n c)) ∧
    ∀ c, ∀ b ∈ (s.waiting c).take (n c), b ∈ s'.running
  /-- They are served for a limited time. -/
  time : s'.time slice s'.running ≤ budget

/-- Job `x` has been served: it goes to the end of a waiting list or leaves, and an empty
list is refilled. -/
inductive Feedback.Served (slice : C → ℕ) (budget : ℕ) (s s' : Feedback C A) (x : A) : Prop
  /-- There are more jobs in the list that is served. -/
  | next (r : List A) (hr : r ≠ []) (hx : s.running = x :: r)
      (joined : Joined { s with running := r } s')
  /-- It was the last one. -/
  | last (hx : s.running = [x]) (s₁ : Feedback C A) (joined : Joined { s with running := [] } s₁)
      (refilled : Refilled slice budget s₁ s')

/-- Job `a` is behind at most `n` time units of slices: those of the jobs before it, or, in
a waiting list, those of the list that is served now and a full one for each job before it
and for itself. -/
inductive Feedback.Behind (slice : C → ℕ) (budget : ℕ) (s : Feedback C A) (a : A) : ℕ → Prop
  /-- The job is in the list that is served. -/
  | running (l l' : List A) : s.running = l ++ a :: l' → Behind slice budget s a (s.time slice l)
  /-- The job is in a waiting list, behind the jobs `l`. -/
  | waiting (c : C) (l l' : List A) : s.waiting c = l ++ a :: l' →
      Behind slice budget s a (s.time slice s.running + budget * (l.length + 1))

/-! ## One step -/

/-- Jobs that join behind a job do not delay it. -/
theorem Feedback.Behind.joined (h : s.Behind slice budget a n) (hjoined : Joined s s') :
    s'.Behind slice budget a n := by
  cases h with
  | running l l' hl =>
    have htime : s'.time slice l = s.time slice l :=
      time_congr fun b hb => hjoined.level b (by simp [hl, hb])
    rw [← htime]
    exact .running l l' (hjoined.running.trans hl)
  | waiting c l l' hl =>
    have htime : s'.time slice s'.running = s.time slice s.running := by
      rw [hjoined.running]
      exact time_congr hjoined.level
    obtain ⟨more, hmore⟩ := hjoined.waiting c
    rw [← htime]
    apply Behind.waiting c l (l' ++ more)
    rw [← hmore, hl, List.append_assoc, List.cons_append]

/-- Once another job has been served, its slice is no longer before a job. -/
theorem Feedback.Behind.pop {r : List A} (h : s.Behind slice budget a n) (hx : s.running = x :: r)
    (hne : x ≠ a) :
    ∃ m, Behind slice budget { s with running := r } a m ∧ m + slice (s.level x) = n := by
  cases h with
  | running l l' hl =>
    rw [hx] at hl
    cases l with
    | nil => exact absurd (List.cons.inj hl).1 hne
    | cons y l =>
      obtain ⟨rfl, hr⟩ := List.cons.inj hl
      exact ⟨_, .running l l' hr, by simp [time, Nat.add_comm]⟩
  | waiting c l l' hl =>
    refine ⟨_, .waiting c l l' hl, ?_⟩
    simp only [time, hx, List.map_cons, List.sum_cons]
    omega

/-- A refill serves a waiting job or brings it forward. -/
theorem Feedback.Refilled.behind (h : Refilled slice budget s s') (hempty : s.running = [])
    (hbehind : s.Behind slice budget a n) : ∃ m, s'.Behind slice budget a m ∧ m ≤ n := by
  obtain ⟨number, hsome, hdrop, htake⟩ := h.taken
  cases hbehind with
  | running l l' hl => simp [hempty] at hl
  | waiting c l l' hl =>
    have hpositive : 0 < number c := hsome c (by simp [hl])
    by_cases hlt : l.length < number c
    · -- The job is taken.
      have hmem : a ∈ (s.waiting c).take (number c) := by
        rw [hl, List.take_append, List.mem_append]
        right
        rw [List.take_cons (by omega)]
        exact List.mem_cons_self
      obtain ⟨before, behind, hrunning⟩ := List.append_of_mem (htake c a hmem)
      refine ⟨_, .running before behind hrunning, ?_⟩
      have htime := h.time
      rw [hrunning, time_append] at htime
      calc s'.time slice before ≤ budget := by omega
        _ ≤ budget * (l.length + 1) := Nat.le_mul_of_pos_right budget l.length.succ_pos
        _ ≤ s.time slice s.running + budget * (l.length + 1) := Nat.le_add_left _ _
    · -- At least one job before it is taken.
      have hwaiting : s'.waiting c = l.drop (number c) ++ a :: l' := by
        rw [hdrop c, hl, List.drop_append_of_le_length (by omega)]
      refine ⟨_, .waiting c _ l' hwaiting, ?_⟩
      have htime := h.time
      have hlength : (l.drop (number c)).length + 1 ≤ l.length := by
        rw [List.length_drop]
        omega
      calc s'.time slice s'.running + budget * ((l.drop (number c)).length + 1)
          ≤ budget + budget * l.length :=
            Nat.add_le_add htime (Nat.mul_le_mul_left budget hlength)
        _ = budget * (l.length + 1) := by rw [Nat.mul_succ, Nat.add_comm]
        _ ≤ s.time slice s.running + budget * (l.length + 1) := Nat.le_add_left _ _

/-- The step lemma: while another job is served, a job comes forward by its slice. -/
theorem Feedback.Served.behind (h : Served slice budget s s' x)
    (hbehind : s.Behind slice budget a n) (hne : x ≠ a) :
    ∃ m, s'.Behind slice budget a m ∧ m + slice (s.level x) ≤ n := by
  cases h with
  | next r hr hx joined =>
    obtain ⟨m, hm, hle⟩ := hbehind.pop hx hne
    exact ⟨m, hm.joined joined, Nat.le_of_eq hle⟩
  | last hx s₁ joined refilled =>
    obtain ⟨m, hm, hle⟩ := hbehind.pop hx hne
    obtain ⟨k, hk, hkm⟩ := refilled.behind joined.running (hm.joined joined)
    exact ⟨k, hk, by omega⟩

/-! ## Runs -/

section Runs

variable {S E : Type*} {step : S → E → S → Prop} {cost : S → E → ℕ} {head : S → Option A}
  {Shows : S → Feedback C A → Prop} {σ σ' : S} {w : List (Turn S E)}

/-- A system whose states show feedback queues: each step adds jobs at the end of waiting
lists, or serves the job in front for its slice. -/
def Serves (slice : C → ℕ) (budget : ℕ) (step : S → E → S → Prop) (cost : S → E → ℕ)
    (head : S → Option A) (Shows : S → Feedback C A → Prop) : Prop :=
  ∀ σ e σ' s, Shows σ s → step σ e σ' → (∃ a n, s.Behind slice budget a n) →
    ∃ s', Shows σ' s' ∧ (cost σ e = 0 ∧ s.Joined s' ∨
      ∃ x, head σ = some x ∧ cost σ e = slice (s.level x) ∧ s.Served slice budget s' x)

/-- The run lemma: until a job is in front, the slices served are among those that it was
behind. -/
theorem Serves.waits (hserves : Serves slice budget step cost head Shows)
    (h : Path step σ w σ') (hs : Shows σ s) (hbehind : s.Behind slice budget a n)
    (hnever : ∀ t ∈ w, head t.before ≠ some a) :
    (w.map fun t => cost t.before t.event).sum ≤ n := by
  induction h generalizing s n with
  | nil => exact Nat.zero_le n
  | @cons σ σ₁ σ' e l hstep hpath ih =>
    have hrest : ∀ t ∈ l, head t.before ≠ some a :=
      fun t ht => hnever t (List.mem_cons_of_mem _ ht)
    obtain ⟨s₁, hs₁, ⟨hcost, hjoined⟩ | ⟨x, hx, hcost, hserved⟩⟩ :=
      hserves σ e σ₁ s hs hstep ⟨a, n, hbehind⟩
    · have hlater := ih hs₁ (hbehind.joined hjoined) hrest
      simpa [hcost] using hlater
    · have hne : x ≠ a := by
        rintro rfl
        exact hnever _ List.mem_cons_self hx
      obtain ⟨m, hm, hle⟩ := hserved.behind hbehind hne
      have hlater := ih hs₁ hm hrest
      simp only [List.map_cons, List.sum_cons, hcost]
      omega

end Runs

end FeedbackQueue
