import Mathlib

namespace SystemLevel.Placement

variable {P F : Type} [DecidableEq P] [DecidableEq F]

def Placed (queues : P → List F) (place : F → Option P) : Prop :=
  ∀ p f, (queues p).count f = if place f = some p then 1 else 0

namespace Placed

variable {queues : P → List F} {place : F → Option P} {p : P} {f : F}

theorem mem_iff (h : Placed queues place) : f ∈ queues p ↔ place f = some p := by
  rw [← List.one_le_count_iff, h p f]
  split_ifs with hp
  · simp [hp]
  · simp [hp]

theorem push (h : Placed queues place) (hf : place f = none) (p : P) :
    Placed (Function.update queues p (queues p ++ [f])) (Function.update place f (some p)) := by
  intro q g
  have hg := h q g
  rw [Function.update_apply, Function.update_apply]
  by_cases hq : q = p
  · rw [if_pos hq, List.count_append, ← hq, hg]
    by_cases he : g = f
    · simp [he, hf]
    · simp [he, Ne.symm he]
  · rw [if_neg hq, hg]
    by_cases he : g = f
    · simp [he, hf, Ne.symm hq]
    · simp [he]

theorem pop (h : Placed queues place) {rest : List F} (hp : queues p = f :: rest) :
    Placed (Function.update queues p rest) (Function.update place f none) := by
  have hf : place f = some p := h.mem_iff.mp (hp ▸ List.mem_cons_self)
  intro q g
  have hg := h q g
  rw [Function.update_apply, Function.update_apply]
  by_cases hq : q = p
  · rw [hq, hp, List.count_cons] at hg
    rw [if_pos hq]
    by_cases he : g = f
    · simp only [he, hf, beq_self_eq_true, if_true] at hg
      simp only [he, if_true]
      simpa using hg
    · simpa [he, hq, Ne.symm he] using hg
  · rw [if_neg hq, hg]
    by_cases he : g = f
    · simp [he, hf, Ne.symm hq]
    · simp [he]

end Placed

end SystemLevel.Placement
