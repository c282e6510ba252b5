import Mathlib

/-!
Objects that several threads call at a time. A call takes effect at one step between its invocation and its return,
and the effects are those of a sequential object that is called in this order.
-/

namespace SystemLevel.Linearization

variable {S C A P : Type}

structure Spec (S C A : Type) where
  init : S
  apply : S → C → S
  answer : S → C → A

inductive Event (P C A : Type)
  | invoked (p : P) (call : C)
  | effected (p : P) (call : C) (answer : A)
  | returned (p : P) (answer : A)

def Event.thread : Event P C A → P
  | invoked p _ | effected p _ _ | returned p _ => p

inductive Phase (C A : Type)
  | idle
  | called (call : C)
  | answered (answer : A)

inductive Explains (spec : Spec S C A) : List (Event P C A) → S → Prop
  | nil : Explains spec [] spec.init
  | invoked {events : List (Event P C A)} {s : S} (h : Explains spec events s) (p : P) (call : C) :
      Explains spec (events ++ [Event.invoked p call]) s
  | effected {events : List (Event P C A)} {s : S} (h : Explains spec events s) (p : P) (call : C) :
      Explains spec (events ++ [Event.effected p call (spec.answer s call)]) (spec.apply s call)
  | returned {events : List (Event P C A)} {s : S} (h : Explains spec events s) (p : P) (answer : A) :
      Explains spec (events ++ [Event.returned p answer]) s

/-- The events of the thread are whole calls, and at most one call that has not returned. A call takes effect once,
and returns what its effect has answered. -/
inductive InPhase (p : P) : List (Event P C A) → Phase C A → Prop
  | nil : InPhase p [] .idle
  | other {events : List (Event P C A)} {phase : Phase C A} (h : InPhase p events phase) (event : Event P C A)
      (hother : event.thread ≠ p) : InPhase p (events ++ [event]) phase
  | invoked {events : List (Event P C A)} (h : InPhase p events .idle) (call : C) :
      InPhase p (events ++ [Event.invoked p call]) (.called call)
  | effected {events : List (Event P C A)} {call : C} (h : InPhase p events (.called call)) (answer : A) :
      InPhase p (events ++ [Event.effected p call answer]) (.answered answer)
  | returned {events : List (Event P C A)} {answer : A} (h : InPhase p events (.answered answer)) :
      InPhase p (events ++ [Event.returned p answer]) .idle

structure Linearized (spec : Spec S C A) (events : List (Event P C A)) (s : S) (phases : P → Phase C A) : Prop where
  explained : Explains spec events s
  inPhase : ∀ p, InPhase p events (phases p)

namespace Linearized

variable {spec : Spec S C A} {events : List (Event P C A)} {s : S} {phases phases' : P → Phase C A} {p : P} {call : C}
  {answer : A}

theorem start (hidle : ∀ p, phases p = .idle) : Linearized (P := P) spec [] spec.init phases := by
  refine ⟨.nil, fun p => ?_⟩
  rw [hidle p]
  exact .nil

theorem inPhase_snoc {phase : Phase C A} (h : Linearized spec events s phases) {event : Event P C A}
    (hown : InPhase event.thread (events ++ [event]) phase) (hphase : phases' event.thread = phase)
    (hothers : ∀ q, q ≠ event.thread → phases' q = phases q) (q : P) : InPhase q (events ++ [event]) (phases' q) := by
  by_cases hq : q = event.thread
  · rw [hq, hphase]
    exact hown
  · rw [hothers q hq]
    exact (h.inPhase q).other event (Ne.symm hq)

theorem invoke (h : Linearized spec events s phases) (hp : phases p = .idle) (hphase : phases' p = .called call)
    (hothers : ∀ q, q ≠ p → phases' q = phases q) :
    Linearized spec (events ++ [Event.invoked p call]) s phases' := by
  have hown := h.inPhase p
  rw [hp] at hown
  exact ⟨h.explained.invoked p call, h.inPhase_snoc (hown.invoked call) hphase hothers⟩

theorem effect (h : Linearized spec events s phases) (hp : phases p = .called call)
    (hphase : phases' p = .answered (spec.answer s call)) (hothers : ∀ q, q ≠ p → phases' q = phases q) :
    Linearized spec (events ++ [Event.effected p call (spec.answer s call)]) (spec.apply s call) phases' := by
  have hown := h.inPhase p
  rw [hp] at hown
  exact ⟨h.explained.effected p call, h.inPhase_snoc (hown.effected _) hphase hothers⟩

theorem finish (h : Linearized spec events s phases) (hp : phases p = .answered answer) (hphase : phases' p = .idle)
    (hothers : ∀ q, q ≠ p → phases' q = phases q) :
    Linearized spec (events ++ [Event.returned p answer]) s phases' := by
  have hown := h.inPhase p
  rw [hp] at hown
  exact ⟨h.explained.returned p answer, h.inPhase_snoc hown.returned hphase hothers⟩

theorem congr (h : Linearized spec events s phases) (hphases : ∀ q, phases' q = phases q) :
    Linearized spec events s phases' := by
  obtain rfl : phases' = phases := funext hphases
  exact h

end Linearized

end SystemLevel.Linearization
