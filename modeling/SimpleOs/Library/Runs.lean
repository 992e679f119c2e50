import Mathlib.Logic.Basic

/-!
# Runs whose steps meet a condition

A system is a set of start states and a step relation labelled by events. A
condition on a state and the event that is about to happen restricts its runs.
States reached by restricted runs are the subject of every safety statement, and a
run taken step by step is the subject of statements about stretches of it.
-/

namespace Runs

variable {S E : Type*}

/-- The states reached from a start state by steps that all meet `ok`. -/
inductive Reach (start : S → Prop) (step : S → E → S → Prop) (ok : S → E → Prop) : S → Prop
  | start {s : S} : start s → Reach start step ok s
  | step {s s' : S} {e : E} : Reach start step ok s → ok s e → step s e s' →
      Reach start step ok s'

variable {start : S → Prop} {step : S → E → S → Prop} {ok : S → E → Prop}

/-- The invariant rule: what holds at the start and is preserved by every step
that meets the condition holds in every state reached. -/
theorem Reach.invariant {P : S → Prop} (hstart : ∀ s, start s → P s)
    (hstep : ∀ s e s', P s → ok s e → step s e s' → P s') {s : S}
    (h : Reach start step ok s) : P s := by
  induction h with
  | start h => exact hstart _ h
  | step _ hok h ih => exact hstep _ _ _ ih hok h

/-- A weaker step relation allows more runs. -/
theorem Reach.weaken {step' : S → E → S → Prop} {s : S} (h : Reach start step ok s)
    (hstep : ∀ s e s', step s e s' → step' s e s') : Reach start step' ok s := by
  induction h with
  | start h => exact .start h
  | step _ hok h ih => exact .step ih hok (hstep _ _ _ h)

/-- A sequence of events, computed. -/
def execAll (exec : S → E → Option S) : List E → S → Option S
  | [], s => some s
  | e :: es, s => (exec s e).bind (execAll exec es)

variable {exec : S → E → Option S} {es : List E} {s s' : S}

/-- A function with these equations computes the sequence. -/
theorem eq_execAll {f : List E → S → Option S} (hnil : ∀ s, f [] s = some s)
    (hcons : ∀ e es s, f (e :: es) s = (exec s e).bind (f es)) : f es s = execAll exec es s := by
  induction es generalizing s with
  | nil => exact hnil s
  | cons e es ih =>
    rw [hcons, execAll]
    congr 1
    funext s₁
    exact ih

/-- What is computed is reached, if in a state with `P` every event that is computed is a step
that meets the condition and preserves `P`. -/
theorem Reach.execAll_invariant {P : S → Prop}
    (hexec : ∀ e ∈ es, ∀ s s', P s → exec s e = some s' → ok s e ∧ step s e s' ∧ P s')
    (hP : P s) (hs : Reach start step ok s) (h : Runs.execAll exec es s = some s') :
    Reach start step ok s' := by
  induction es generalizing s with
  | nil =>
    obtain rfl := Option.some.inj h
    exact hs
  | cons e es ih =>
    obtain ⟨s₁, hfirst, hrest⟩ := Option.bind_eq_some_iff.mp h
    obtain ⟨hok, hstep, hP₁⟩ := hexec e List.mem_cons_self s s₁ hP hfirst
    exact ih (fun e he => hexec e (List.mem_cons_of_mem _ he)) hP₁ (hs.step hok hstep) hrest

/-- What is computed is reached, if every event that is computed is a step that meets
the condition. -/
theorem Reach.execAll (hexec : ∀ e ∈ es, ∀ s s', exec s e = some s' → ok s e ∧ step s e s')
    (hs : Reach start step ok s) (h : Runs.execAll exec es s = some s') :
    Reach start step ok s' := by
  apply hs.execAll_invariant (P := fun _ => True) ?_ trivial h
  intro e he s s' _ hfirst
  obtain ⟨hok, hstep⟩ := hexec e he s s' hfirst
  exact ⟨hok, hstep, trivial⟩

/-- What is computed under the condition is reached. -/
theorem Reach.execAll_guarded [∀ s e, Decidable (ok s e)]
    (hs : Reach start (fun s e s' => exec s e = some s') ok s)
    (h : Runs.execAll (fun s e => if ok s e then exec s e else none) es s = some s') :
    Reach start (fun s e s' => exec s e = some s') ok s' := by
  refine hs.execAll (fun e _ s s' hfirst => ?_) h
  split at hfirst
  · rename_i hok
    exact ⟨hok, hfirst⟩
  · cases hfirst

/-! ## Runs step by step -/

/-- One step of a run, with the states around it. -/
structure Turn (S E : Type*) where
  /-- The state before the step. -/
  before : S
  /-- What happens in the step. -/
  event : E
  /-- The state after the step. -/
  after : S

/-- The runs from one state to another, as the lists of their steps. -/
inductive Path (step : S → E → S → Prop) : S → List (Turn S E) → S → Prop
  | nil (s : S) : Path step s [] s
  | cons {s s₁ s' : S} {e : E} {l : List (Turn S E)} : step s e s₁ → Path step s₁ l s' →
      Path step s (⟨s, e, s₁⟩ :: l) s'

variable {l l₁ l₂ w : List (Turn S E)}

/-- Every entry of the list is a step. -/
theorem Path.step_of_mem (h : Path step s l s') {t : Turn S E} (ht : t ∈ l) :
    step t.before t.event t.after := by
  induction h with
  | nil => exact absurd ht List.not_mem_nil
  | cons hstep _ ih =>
    rcases List.mem_cons.mp ht with rfl | ht
    · exact hstep
    · exact ih ht

/-- A run followed by another is a run. -/
theorem Path.append {s₁ : S} (h : Path step s l₁ s₁) (h' : Path step s₁ l₂ s') :
    Path step s (l₁ ++ l₂) s' := by
  induction h with
  | nil => exact h'
  | cons hstep _ ih => exact .cons hstep (ih h')

/-- A run can be cut anywhere. -/
theorem Path.of_append (h : Path step s (l₁ ++ l₂) s') :
    ∃ s₁, Path step s l₁ s₁ ∧ Path step s₁ l₂ s' := by
  induction l₁ generalizing s with
  | nil => exact ⟨s, .nil s, h⟩
  | cons t l₁ ih =>
    cases h with
    | cons hstep hrest =>
      obtain ⟨s₁, hfirst, hlast⟩ := ih hrest
      exact ⟨s₁, .cons hstep hfirst, hlast⟩

/-- The end of a run whose steps meet the condition is reached. -/
theorem Reach.of_path (hs : Reach start step ok s)
    (h : Path (fun s e s' => ok s e ∧ step s e s') s l s') : Reach start step ok s' := by
  induction h with
  | nil => exact hs
  | cons hstep _ ih => exact ih (hs.step hstep.1 hstep.2)

/-- What every step preserves holds at the end and around each step. -/
theorem Path.invariant {P : S → Prop} (hstep : ∀ s e s', P s → step s e s' → P s')
    (h : Path step s l s') (hs : P s) : P s' ∧ ∀ t ∈ l, P t.before ∧ P t.after := by
  induction h with
  | nil => exact ⟨hs, fun t ht => absurd ht List.not_mem_nil⟩
  | cons hfirst _ ih =>
    have hnext := hstep _ _ _ hs hfirst
    obtain ⟨hlast, hall⟩ := ih hnext
    refine ⟨hlast, fun t ht => ?_⟩
    rcases List.mem_cons.mp ht with rfl | ht
    · exact ⟨hs, hnext⟩
    · exact hall t ht

/-- A preorder that holds across every step of a run holds across the run. -/
theorem Path.relates {R : S → S → Prop} (hrefl : ∀ s, R s s)
    (htrans : ∀ s s₁ s', R s s₁ → R s₁ s' → R s s') (h : Path step s l s')
    (hstep : ∀ t ∈ l, R t.before t.after) : R s s' := by
  induction h with
  | nil => exact hrefl _
  | cons _ _ ih =>
    have hfirst := hstep _ List.mem_cons_self
    exact htrans _ _ _ hfirst (ih fun t ht => hstep t (List.mem_cons_of_mem _ ht))

/-- The simulation rule: when a system with the same events can follow every step of
a related state, it can follow every run. -/
theorem Path.simulates {A : Type*} {step' : A → E → A → Prop} {R : S → A → Prop}
    (hstep : ∀ s e s₁ a, R s a → step s e s₁ → ∃ a₁, step' a e a₁ ∧ R s₁ a₁)
    (h : Path step s l s') {a : A} (hs : R s a) : ∃ (l' : List (Turn A E)) (a' : A),
      Path step' a l' a' ∧ l'.map Turn.event = l.map Turn.event ∧ R s' a' := by
  induction h generalizing a with
  | nil => exact ⟨[], a, .nil a, rfl, hs⟩
  | cons hfirst _ ih =>
    obtain ⟨a₁, hfollow, hnext⟩ := hstep _ _ _ _ hs hfirst
    obtain ⟨l', a', hrest, hevents, hlast⟩ := ih hnext
    exact ⟨_ :: l', a', .cons hfollow hrest, congrArg (List.cons _) hevents, hlast⟩

/-- A stretch of a run is a run, and it starts with the invariant. -/
theorem Path.stretch {P : S → Prop} (hstep : ∀ s e s', P s → step s e s' → P s')
    (h : Path step s l s') (hs : P s) (hw : w <:+: l) : ∃ s₁ s₂, P s₁ ∧ Path step s₁ w s₂ := by
  obtain ⟨l₁, l₂, rfl⟩ := hw
  obtain ⟨s₂, hfirst, _⟩ := h.of_append
  obtain ⟨s₁, hbefore, hpath⟩ := hfirst.of_append
  exact ⟨s₁, s₂, (hbefore.invariant hstep hs).1, hpath⟩

/-- What is computed is a run with these events, if in a state with `P` every event that is
computed is a step that preserves `P`. -/
theorem Path.of_execAll {P : S → Prop}
    (hexec : ∀ s e s', P s → exec s e = some s' → step s e s' ∧ P s') (hP : P s)
    (h : execAll exec es s = some s') :
    ∃ l : List (Turn S E), Path step s l s' ∧ l.map Turn.event = es := by
  induction es generalizing s with
  | nil =>
    obtain rfl := Option.some.inj h
    exact ⟨[], .nil s, rfl⟩
  | cons e es ih =>
    obtain ⟨s₁, hfirst, hrest⟩ := Option.bind_eq_some_iff.mp h
    obtain ⟨hstep, hP₁⟩ := hexec s e s₁ hP hfirst
    obtain ⟨l, hpath, hevents⟩ := ih hP₁ hrest
    exact ⟨⟨s, e, s₁⟩ :: l, .cons hstep hpath, congrArg (List.cons e) hevents⟩

/-- The steps that a sequence of events makes, computed. -/
def turns (exec : S → E → Option S) : List E → S → Option (List (Turn S E))
  | [], _ => some []
  | e :: es, s => (exec s e).bind fun s₁ => (turns exec es s₁).map (⟨s, e, s₁⟩ :: ·)

/-- The turns that are computed have the events of the list. -/
theorem turns_events (h : turns exec es s = some l) : l.map Turn.event = es := by
  induction es generalizing s l with
  | nil =>
    obtain rfl := Option.some.inj h
    rfl
  | cons e es ih =>
    obtain ⟨s₁, _, hrest⟩ := Option.bind_eq_some_iff.mp h
    obtain ⟨l₁, hl₁, rfl⟩ := Option.map_eq_some_iff.mp hrest
    rw [List.map_cons, ih hl₁]

/-- The turns that are computed are those of a run. -/
theorem path_turns (hexec : ∀ s e s', exec s e = some s' → step s e s')
    (h : turns exec es s = some l) : ∃ s', Path step s l s' := by
  induction es generalizing s l with
  | nil =>
    obtain rfl := Option.some.inj h
    exact ⟨s, .nil s⟩
  | cons e es ih =>
    obtain ⟨s₁, hfirst, hrest⟩ := Option.bind_eq_some_iff.mp h
    obtain ⟨l₁, hl₁, rfl⟩ := Option.map_eq_some_iff.mp hrest
    obtain ⟨s', hpath⟩ := ih hl₁
    exact ⟨s', .cons (hexec _ _ _ hfirst) hpath⟩

end Runs
