import Mathlib.Data.List.Basic
import Mathlib.Data.List.Nodup
import Mathlib.Logic.Function.Basic

/-!
# Singly linked lists in a heap

A heap gives each allocated node a link, which is a node or null. A segment is
the list of nodes visited by following the links from one pointer to another.
The rules here split, join, extend and frame segments.
-/

namespace LinkedList

variable {A : Type*} {link link' : A → Option (Option A)} {p q r : Option A} {a b : A}
  {l l' : List A}

/-- From `p` the links visit the nodes of `l` and then point to `q`. -/
def Segment (link : A → Option (Option A)) : Option A → List A → Option A → Prop
  | p, [], q => p = q
  | p, a :: l, q => p = some a ∧ ∃ next, link a = some next ∧ Segment link next l q

@[simp] theorem segment_nil : Segment link p [] q ↔ p = q := Iff.rfl

theorem segment_cons : Segment link p (a :: l) q ↔
    p = some a ∧ ∃ next, link a = some next ∧ Segment link next l q := Iff.rfl

/-- A segment of two parts stops between them at some pointer. -/
theorem segment_append : Segment link p (l ++ l') q ↔
    ∃ r, Segment link p l r ∧ Segment link r l' q := by
  induction l generalizing p with
  | nil => simp
  | cons a l ih =>
    simp only [List.cons_append, segment_cons, ih]
    constructor
    · rintro ⟨hp, next, hnext, r, hl, hl'⟩
      exact ⟨r, ⟨hp, next, hnext, hl⟩, hl'⟩
    · rintro ⟨r, ⟨hp, next, hnext, hl⟩, hl'⟩
      exact ⟨hp, next, hnext, r, hl, hl'⟩

/-- A nonempty segment starts at its first node. -/
theorem Segment.head? (h : Segment link p l q) (hl : l ≠ []) : p = l.head? := by
  cases l with
  | nil => exact absurd rfl hl
  | cons a l => exact h.1

/-- A list that ends at null starts at its first node, or is null. -/
theorem Segment.eq_head? (h : Segment link p l none) : p = l.head? := by
  cases l with
  | nil => exact h
  | cons a l => exact h.1

/-- The pointer after a segment is the link of its last node. -/
theorem segment_concat : Segment link p (l ++ [a]) q ↔
    Segment link p l (some a) ∧ link a = some q := by
  rw [segment_append]
  constructor
  · rintro ⟨r, hl, rfl, next, hnext, rfl⟩
    exact ⟨hl, hnext⟩
  · rintro ⟨hl, hlink⟩
    exact ⟨some a, hl, rfl, q, hlink, rfl⟩

/-- The nodes of a segment are allocated. -/
theorem Segment.isSome (h : Segment link p l q) (ha : a ∈ l) : (link a).isSome := by
  induction l generalizing p with
  | nil => exact absurd ha (List.not_mem_nil)
  | cons b l ih =>
    obtain ⟨_, next, hnext, hl⟩ := h
    rcases List.mem_cons.mp ha with rfl | ha
    · rw [hnext]
      rfl
    · exact ih hl ha

/-- The frame rule: a segment only depends on the links of its nodes. -/
theorem Segment.congr (h : Segment link p l q) (hlink : ∀ a ∈ l, link' a = link a) :
    Segment link' p l q := by
  induction l generalizing p with
  | nil => exact h
  | cons b l ih =>
    obtain ⟨hp, next, hnext, hl⟩ := h
    refine ⟨hp, next, ?_, ih hl fun a ha => hlink a (List.mem_cons_of_mem _ ha)⟩
    rw [hlink b List.mem_cons_self, hnext]

/-- A store to a node outside a segment does not change it. -/
theorem Segment.update [DecidableEq A] (h : Segment link p l q) (hb : b ∉ l)
    (x : Option (Option A)) : Segment (Function.update link b x) p l q := by
  refine h.congr fun a ha => Function.update_of_ne ?_ _ _
  rintro rfl
  exact hb ha

/-- From one pointer, two lists that end at null are equal. -/
theorem Segment.unique (h : Segment link p l none) (h' : Segment link p l' none) : l = l' := by
  induction l generalizing p l' with
  | nil =>
    cases l' with
    | nil => rfl
    | cons a l' => exact absurd (h.symm.trans h'.1) (by simp)
  | cons a l ih =>
    obtain ⟨rfl, next, hnext, hl⟩ := h
    cases l' with
    | nil => exact absurd h' (by simp)
    | cons b l' =>
      obtain ⟨hb, next', hnext', hl'⟩ := h'
      obtain rfl := Option.some.inj hb
      obtain rfl := Option.some.inj (hnext.symm.trans hnext')
      rw [ih hl hl']

/-- A segment that is extended by another one. -/
theorem Segment.append (h : Segment link p l q) (h' : Segment link q l' r) :
    Segment link p (l ++ l') r :=
  segment_append.mpr ⟨q, h, h'⟩

/-- Dropping nodes of a list that ends at null leaves a list that ends at null. -/
theorem Segment.drop (h : Segment link p l none) (n : ℕ) :
    Segment link (l.drop n).head? (l.drop n) none := by
  rw [← List.take_append_drop n l, segment_append] at h
  obtain ⟨r, _, hdrop⟩ := h
  cases hl : l.drop n with
  | nil => rfl
  | cons a l' =>
    rw [hl] at hdrop
    exact ⟨rfl, hdrop.2⟩

/-- Storing `q` in the last node of a segment makes the segment end at `q`. -/
theorem Segment.set_last [DecidableEq A] (h : Segment link p (l ++ [a]) r) (ha : a ∉ l) :
    Segment (Function.update link a (some q)) p (l ++ [a]) q := by
  obtain ⟨hl, _⟩ := segment_concat.mp h
  exact segment_concat.mpr ⟨hl.update ha _, Function.update_self _ _ _⟩

/-- Appending node `b`, whose link is `q`: the last node of the list, if there is one,
points to `b`, and the pointer to the list changes only if the list was empty. -/
theorem Segment.snoc_link (h : Segment link p l none) (hnodup : l.Nodup) (hb : link' b = some q)
    (hlast : ∀ a, l.getLast? = some a → link' a = some (some b))
    (hframe : ∀ a ∈ l, l.getLast? ≠ some a → link' a = link a) :
    Segment link' (if l = [] then some b else p) (l ++ [b]) q := by
  rcases List.eq_nil_or_concat' l with rfl | ⟨l, a, rfl⟩
  · exact ⟨rfl, q, hb, rfl⟩
  · have hal : a ∉ l := fun hmem => by
      rw [List.nodup_append] at hnodup
      exact hnodup.2.2 a hmem a (by simp) rfl
    obtain ⟨hl, _⟩ := segment_concat.mp h
    have hl' : Segment link' p l (some a) := by
      refine hl.congr fun c hc => hframe c (by simp [hc]) ?_
      simp only [List.getLast?_append, List.getLast?_singleton, Option.some_or, ne_eq,
        Option.some.injEq]
      rintro rfl
      exact hal hc
    rw [if_neg (by simp)]
    exact (segment_concat.mpr ⟨hl', hlast a (by simp)⟩).append ⟨rfl, q, hb, rfl⟩

/-- Appending node `b`, whose link is null. -/
theorem Segment.snoc (h : Segment link p l none) (hnodup : l.Nodup) (hnull : link' b = some none)
    (hlast : ∀ a, l.getLast? = some a → link' a = some (some b))
    (hframe : ∀ a ∈ l, l.getLast? ≠ some a → link' a = link a) :
    Segment link' (if l = [] then some b else p) (l ++ [b]) none :=
  h.snoc_link hnodup hnull hlast hframe

/-- A list that ends at null has no node twice. -/
theorem Segment.nodup (h : Segment link p l none) : l.Nodup := by
  induction l generalizing p with
  | nil => exact List.nodup_nil
  | cons a l ih =>
    obtain ⟨rfl, next, hnext, hl⟩ := h
    refine List.nodup_cons.mpr ⟨fun hmem => ?_, ih hl⟩
    -- From a second occurrence of `a` the rest of the list would follow again.
    obtain ⟨l₁, l₂, rfl⟩ := List.append_of_mem hmem
    obtain ⟨r, _, hsuffix⟩ := segment_append.mp hl
    have hr : r = some a := hsuffix.1
    subst hr
    have hwhole : Segment link (some a) (a :: (l₁ ++ a :: l₂)) none := ⟨rfl, next, hnext, hl⟩
    have hlength := congrArg List.length (hsuffix.unique hwhole)
    simp at hlength
    omega

/-- The link of a node of a list points to a node of the list, or to null. -/
theorem Segment.mem_of_link (h : Segment link p l none) (ha : a ∈ l)
    (hlink : link a = some (some b)) : b ∈ l := by
  obtain ⟨l₁, l₂, rfl⟩ := List.append_of_mem ha
  obtain ⟨r, _, _, next, hnext, hl₂⟩ := segment_append.mp h
  obtain rfl := Option.some.inj (hlink.symm.trans hnext)
  cases l₂ with
  | nil => exact absurd hl₂ (by simp)
  | cons c l₂ =>
    obtain rfl := Option.some.inj hl₂.1
    simp

/-- Taking node `b` out of a list: its predecessor `a` gets its link. -/
theorem Segment.skip [DecidableEq A] {l₁ l₂ : List A} (h : Segment link p (l₁ ++ a :: b :: l₂) none)
    (hnext : link b = some q) :
    Segment (Function.update link a (some q)) p (l₁ ++ a :: l₂) none := by
  have hnodup := h.nodup
  obtain ⟨r, hl₁, hr, next, _, _, next', hnext', hl₂⟩ := segment_append.mp h
  obtain rfl := Option.some.inj (hnext.symm.trans hnext')
  have hal₁ : a ∉ l₁ := fun hmem => by
    rw [List.nodup_append] at hnodup
    exact hnodup.2.2 a hmem a (by simp) rfl
  have hal₂ : a ∉ l₂ := by
    simp only [List.nodup_append, List.nodup_cons] at hnodup
    exact fun hmem => hnodup.2.1.1 (List.mem_cons_of_mem _ hmem)
  exact segment_append.mpr ⟨r, hl₁.update hal₁ _, hr, q, Function.update_self _ _ _,
    hl₂.update hal₂ _⟩

/-- Taking node `b` out of a list, when only its predecessor is known. -/
theorem Segment.unlink [DecidableEq A] (h : Segment link p l none) (ha : a ∈ l)
    (hlink : link a = some (some b)) (hnext : link b = some q) :
    ∃ l', Segment (Function.update link a (some q)) p l' none ∧ b ∉ l' ∧ ∀ c ∈ l', c ∈ l := by
  obtain ⟨l₁, l₂, rfl⟩ := List.append_of_mem ha
  obtain ⟨r, _, _, next, hnext', hl₂⟩ := segment_append.mp h
  obtain rfl := Option.some.inj (hlink.symm.trans hnext')
  cases l₂ with
  | nil => exact absurd hl₂ (by simp)
  | cons c l₂ =>
    obtain rfl := Option.some.inj hl₂.1
    have hnodup := h.nodup
    refine ⟨l₁ ++ a :: l₂, h.skip hnext, fun hmem => ?_, fun d hd => ?_⟩
    · rw [List.append_cons, List.nodup_append] at hnodup
      rw [List.append_cons, List.mem_append] at hmem
      rcases hmem with hmem | hmem
      · exact hnodup.2.2 b hmem b (by simp) rfl
      · exact (List.nodup_cons.mp hnodup.2.1).1 hmem
    · simp only [List.mem_append, List.mem_cons] at hd ⊢
      tauto

end LinkedList
