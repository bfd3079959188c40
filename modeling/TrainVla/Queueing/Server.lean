import Mathlib.Data.List.Basic
import Mathlib.Data.Nat.Notation

/-! A server with one place. Clients wait in a line and may give up; the first of the line takes
the place when it is free; the one who had it last may have it back as long as it is free. -/
namespace Queueing

variable {α : Type}

structure Server (α : Type) where
  waiting : List α
  serving : Option α
  last : Option α

inductive Event (α : Type)
  | arrive (a : α)
  | withdraw (a : α)
  | start (a : α)
  | finish (a : α)
  | resume (a : α)

namespace Event

def arrival? : Event α → Option α
  | arrive a => some a
  | _ => none

def start? : Event α → Option α
  | start a => some a
  | _ => none

end Event

def arrivals (es : List (Event α)) : List α := es.filterMap Event.arrival?

def starts (es : List (Event α)) : List α := es.filterMap Event.start?

theorem arrivals_cons (e : Event α) (es : List (Event α)) :
    arrivals (e :: es) = e.arrival?.toList ++ arrivals es := by
  cases e <;> rfl

theorem starts_cons (e : Event α) (es : List (Event α)) :
    starts (e :: es) = e.start?.toList ++ starts es := by
  cases e <;> rfl

theorem arrivals_append (es es' : List (Event α)) :
    arrivals (es ++ es') = arrivals es ++ arrivals es' := List.filterMap_append

namespace Server

def empty : Server α := ⟨[], none, none⟩

/-- Who is served was started last. -/
def Consistent (s : Server α) : Prop := ∀ a, s.serving = some a → s.last = some a

theorem consistent_empty : (empty : Server α).Consistent := by
  intro a ha
  cases ha

variable [DecidableEq α]

def step (s : Server α) : Event α → Option (Server α)
  | .arrive a =>
    if a ∉ s.waiting ∧ s.serving ≠ some a then some { s with waiting := s.waiting ++ [a] } else none
  | .withdraw a =>
    if a ∈ s.waiting then some { s with waiting := s.waiting.filter (· ≠ a) } else none
  | .start a =>
    if s.serving = none ∧ s.waiting.head? = some a then
      some { waiting := s.waiting.tail, serving := some a, last := some a }
    else none
  | .finish a => if s.serving = some a then some { s with serving := none } else none
  | .resume a =>
    if s.serving = none ∧ s.last = some a then some { s with serving := some a } else none

def run : Server α → List (Event α) → Option (Server α)
  | s, [] => some s
  | s, e :: es => (s.step e).bind (run · es)

variable {s s' s₁ : Server α} {a b : α} {e : Event α} {es es' : List (Event α)}

theorem run_cons_eq_some : s.run (e :: es) = some s' ↔ ∃ t, s.step e = some t ∧ t.run es = some s' :=
  Option.bind_eq_some_iff

theorem run_append (h : s.run es = some s₁) (h' : s₁.run es' = some s') :
    s.run (es ++ es') = some s' := by
  induction es generalizing s with
  | nil =>
    obtain rfl := Option.some.inj h
    exact h'
  | cons e es ih =>
    obtain ⟨t, hs, ht⟩ := run_cons_eq_some.mp h
    exact run_cons_eq_some.mpr ⟨t, hs, ih ht⟩

/-- What one step does. -/
inductive Stepped (s : Server α) : Event α → Server α → Prop
  | arrive {a : α} (hwaiting : a ∉ s.waiting) (hserving : s.serving ≠ some a) :
    Stepped s (.arrive a) { s with waiting := s.waiting ++ [a] }
  | withdraw {a : α} (hwaiting : a ∈ s.waiting) :
    Stepped s (.withdraw a) { s with waiting := s.waiting.filter (· ≠ a) }
  | start {a : α} {rest : List α} (hserving : s.serving = none) (hwaiting : s.waiting = a :: rest) :
    Stepped s (.start a) { waiting := rest, serving := some a, last := some a }
  | finish {a : α} (hserving : s.serving = some a) : Stepped s (.finish a) { s with serving := none }
  | resume {a : α} (hserving : s.serving = none) (hlast : s.last = some a) :
    Stepped s (.resume a) { s with serving := some a }

theorem step_eq_some : s.step e = some s' ↔ Stepped s e s' := by
  constructor
  · intro h
    cases e <;> simp only [step, Option.ite_none_right_eq_some, Option.some.injEq] at h
    · obtain ⟨⟨hwaiting, hserving⟩, rfl⟩ := h
      exact .arrive hwaiting hserving
    · obtain ⟨hwaiting, rfl⟩ := h
      exact .withdraw hwaiting
    · obtain ⟨⟨hserving, hhead⟩, rfl⟩ := h
      obtain ⟨rest, hwaiting⟩ := List.head?_eq_some_iff.mp hhead
      rw [hwaiting]
      exact .start hserving hwaiting
    · obtain ⟨hserving, rfl⟩ := h
      exact .finish hserving
    · obtain ⟨⟨hserving, hlast⟩, rfl⟩ := h
      exact .resume hserving hlast
  · intro h
    cases h with
    | arrive hwaiting hserving => exact if_pos ⟨hwaiting, hserving⟩
    | withdraw hwaiting => exact if_pos hwaiting
    | start hserving hwaiting =>
      unfold step
      dsimp only
      rw [hwaiting]
      exact if_pos ⟨hserving, rfl⟩
    | finish hserving => exact if_pos hserving
    | resume hserving hlast => exact if_pos ⟨hserving, hlast⟩

theorem Consistent.step (hc : s.Consistent) (h : s.step e = some s') : s'.Consistent := by
  intro a ha
  cases step_eq_some.mp h with
  | arrive => exact hc a ha
  | withdraw => exact hc a ha
  | start => exact ha
  | finish => cases ha
  | resume hserving hlast => exact hlast.trans ha

theorem Consistent.run (hc : s.Consistent) (h : s.run es = some s') : s'.Consistent := by
  induction es generalizing s with
  | nil =>
    obtain rfl := Option.some.inj h
    exact hc
  | cons e es ih =>
    obtain ⟨t, hs, ht⟩ := run_cons_eq_some.mp h
    exact ih (hc.step hs) ht

/-- Only a start changes who was started last. -/
theorem last_of_step (h : s.step e = some s') (he : e.start? = none) : s'.last = s.last := by
  cases step_eq_some.mp h with
  | start => cases he
  | _ => rfl

/-- The line is served from its front and grows at its end. -/
theorem sublist_of_step (h : s.step e = some s') :
    (e.start?.toList ++ s'.waiting).Sublist (s.waiting ++ e.arrival?.toList) := by
  cases step_eq_some.mp h with
  | arrive => exact .refl _
  | start hserving hwaiting =>
    rw [hwaiting]
    exact List.sublist_append_left _ _
  | withdraw => exact List.filter_sublist.trans (List.sublist_append_left _ _)
  | finish => exact List.sublist_append_left _ _
  | resume => exact List.sublist_append_left _ _

/-- First come, first served: those who were started, and then those who wait, are in the order of
their arrival. -/
theorem served_in_order (h : s.run es = some s') :
    (starts es ++ s'.waiting).Sublist (s.waiting ++ arrivals es) := by
  induction es generalizing s with
  | nil =>
    obtain rfl := Option.some.inj h
    show s.waiting.Sublist (s.waiting ++ [])
    rw [List.append_nil]
  | cons e es ih =>
    obtain ⟨t, hs, ht⟩ := run_cons_eq_some.mp h
    rw [starts_cons, arrivals_cons, List.append_assoc, ← List.append_assoc s.waiting]
    have hrest : (e.start?.toList ++ (starts es ++ s'.waiting)).Sublist
        (e.start?.toList ++ (t.waiting ++ arrivals es)) := (List.Sublist.refl _).append (ih ht)
    rw [← List.append_assoc _ t.waiting] at hrest
    exact hrest.trans ((sublist_of_step hs).append (.refl _))

/-- Who has the place keeps it until it is done. -/
theorem serving_of_run (h : s.run es = some s') (ha : s.serving = some a) (hes : .finish a ∉ es) :
    s'.serving = some a := by
  induction es generalizing s with
  | nil =>
    obtain rfl := Option.some.inj h
    exact ha
  | cons e es ih =>
    obtain ⟨t, hs, ht⟩ := run_cons_eq_some.mp h
    rw [List.mem_cons, not_or] at hes
    have hstep : t.serving = some a := by
      cases step_eq_some.mp hs with
      | arrive => exact ha
      | withdraw => exact ha
      | start hnone => exact absurd (ha.symm.trans hnone) (by simp)
      | finish hb => exact absurd (congrArg Event.finish (Option.some.inj (ha.symm.trans hb))) hes.1
      | resume hnone => exact absurd (ha.symm.trans hnone) (by simp)
    exact ih ht hstep hes.2

theorem run_append_eq_some {h t : List (Event α)} (hr : s.run (h ++ t) = some s') :
    ∃ s₁, s.run h = some s₁ ∧ s₁.run t = some s' := by
  induction h generalizing s with
  | nil => exact ⟨s, rfl, hr⟩
  | cons e h ih =>
    obtain ⟨u, hs, hu⟩ := run_cons_eq_some.mp hr
    obtain ⟨s₁, hh, ht⟩ := ih hu
    exact ⟨s₁, run_cons_eq_some.mpr ⟨u, hs, hh⟩, ht⟩

/-- One at a time: between two starts the first one is done. -/
theorem finish_between {h m t : List (Event α)}
    (hr : s.run (h ++ .start a :: m ++ .start b :: t) = some s') : .finish a ∈ m := by
  by_contra hm
  rw [List.append_assoc] at hr
  obtain ⟨s₁, -, hrest⟩ := run_append_eq_some hr
  rw [List.cons_append] at hrest
  obtain ⟨s₂, hstart, hrest⟩ := run_cons_eq_some.mp hrest
  have hserving : s₂.serving = some a := by
    cases step_eq_some.mp hstart
    rfl
  obtain ⟨s₃, hmiddle, hrest⟩ := run_append_eq_some hrest
  have hstill := serving_of_run hmiddle hserving hm
  obtain ⟨s₄, hagain, -⟩ := run_cons_eq_some.mp hrest
  cases step_eq_some.mp hagain with
  | start hnone => exact absurd (hstill.symm.trans hnone) (by simp)

end Server

end Queueing
