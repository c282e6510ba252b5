import SystemLevel.Foundations.Runs

namespace SystemLevel.Potentials

open Runs

/-- Two sums that differ in one share only. -/
theorem sum_add_share {P M : Type} [DecidableEq P] [AddCommMonoid M] {threads : Finset P} {p : P} (hp : p ∈ threads)
    {f g : P → M} (hothers : ∀ q, q ≠ p → f q = g q) :
    ∑ q ∈ threads, f q + g p = ∑ q ∈ threads, g q + f p := by
  have hrest : ∑ q ∈ threads.erase p, f q = ∑ q ∈ threads.erase p, g q :=
    Finset.sum_congr rfl fun q hq => hothers q (Finset.ne_of_mem_erase hq)
  rw [← Finset.add_sum_erase threads f hp, ← Finset.add_sum_erase threads g hp, hrest]
  abel

section Shares

variable {P : Type} [Fintype P] [DecidableEq P] {f g : P → ℕ} {d : ℕ} (p : P)

theorem sum_eq_add (hothers : ∀ q, q ≠ p → f q = g q) (hp : f p = g p + d) : ∑ q, f q = ∑ q, g q + d := by
  have hsum := sum_add_share (Finset.mem_univ p) hothers
  omega

theorem sum_lt_add (hothers : ∀ q, q ≠ p → f q ≤ g q) (hp : f p < g p + d) : ∑ q, f q < ∑ q, g q + d := by
  rw [← Finset.add_sum_erase _ f (Finset.mem_univ p), ← Finset.add_sum_erase _ g (Finset.mem_univ p)]
  have hrest := Finset.sum_le_sum fun q (hq : q ∈ Finset.univ.erase p) => hothers q (Finset.ne_of_mem_erase hq)
  omega

theorem sum_lt (hothers : ∀ q, q ≠ p → f q ≤ g q + d) (hp : f p + Fintype.card P * d < g p) :
    ∑ q, f q < ∑ q, g q := by
  have hrest : ∑ q ∈ Finset.univ.erase p, f q ≤ ∑ q ∈ Finset.univ.erase p, g q + Fintype.card P * d := by
    calc ∑ q ∈ Finset.univ.erase p, f q
        ≤ ∑ q ∈ Finset.univ.erase p, (g q + d) :=
          Finset.sum_le_sum fun q hq => hothers q (Finset.ne_of_mem_erase hq)
      _ = ∑ q ∈ Finset.univ.erase p, g q + (Finset.univ.erase p).card * d := by
          rw [Finset.sum_add_distrib, Finset.sum_const, smul_eq_mul]
      _ ≤ _ := by
          gcongr
          exact Finset.card_le_univ _
  rw [← Finset.add_sum_erase _ f (Finset.mem_univ p), ← Finset.add_sum_erase _ g (Finset.mem_univ p)]
  omega

end Shares

/-- If every step lowers the potential, up to its own cost and what it earns, then a run that earns little and costs
little is short. -/
theorem length_le_of_potential {S O : Type} {step : S → O → S} {init : S} {allowed : S → O → Prop} (Inv : S → Prop)
    (potential earned : S → ℕ) (cost : O → ℕ) (zero : Inv init)
    (succ : ∀ s op, Inv s → allowed s op → Inv (step s op))
    (falls : ∀ s op, Inv s → allowed s op →
      potential (step s op) + earned s < potential s + earned (step s op) + cost op)
    {ops : List O} (h : Lawful (fun past => allowed (run step init past)) ops) :
    ops.length + earned init ≤ potential init + earned (run step init ops) + (ops.map cost).sum := by
  have hbound : Inv (run step init ops) ∧ ops.length + potential (run step init ops) + earned init ≤
      potential init + earned (run step init ops) + (ops.map cost).sum := by
    refine Lawful.induct (motive := fun ops s => Inv s ∧ ops.length + potential s + earned init ≤
      potential init + earned s + (ops.map cost).sum) ⟨zero, by simp⟩ ?_ h
    rintro ops op hop ⟨hinv, hpotential⟩
    refine ⟨succ _ _ hinv hop, ?_⟩
    have hfalls := falls _ _ hinv hop
    rw [List.length_append, List.length_singleton, List.map_append, List.sum_append, List.map_singleton,
      List.sum_singleton]
    omega
  omega

end SystemLevel.Potentials
