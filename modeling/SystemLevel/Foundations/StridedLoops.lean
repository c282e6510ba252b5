import Mathlib

namespace SystemLevel.StridedLoops

variable {S : Type}

/-- `for (; i + last < count; i += last + 1)` over a state, with the index at which the loop ends. -/
def strided (last count : ℕ) (body : ℕ → S → S) (i : ℕ) (s : S) : ℕ × S :=
  if i + last < count then strided last count body (i + (last + 1)) (body i s) else (i, s)
termination_by count - i

variable {last count : ℕ} {body : ℕ → S → S} {i : ℕ} {s : S}

theorem strided_induct (motive : ℕ → S → Prop) (start : motive i s)
    (round : ∀ i s, i + last < count → motive i s → motive (i + (last + 1)) (body i s)) :
    motive (strided last count body i s).1 (strided last count body i s).2 ∧
      count ≤ (strided last count body i s).1 + last := by
  induction i, s using strided.induct last count body with
  | case1 i s hnext ih =>
    rw [strided, if_pos hnext]
    exact ih (round i s hnext start)
  | case2 i s hend =>
    rw [strided, if_neg hend]
    exact ⟨start, not_lt.mp hend⟩

theorem strided_index (last count : ℕ) (body : ℕ → S → S) (s : S) :
    (strided last count body 0 s).1 = (last + 1) * (count / (last + 1)) := by
  obtain ⟨⟨⟨blocks, hblocks⟩, hle⟩, hlast⟩ := @strided_induct S last count body 0 s
    (fun i _ => last + 1 ∣ i ∧ i ≤ count) ⟨dvd_zero _, Nat.zero_le _⟩ (by
      rintro i s hnext ⟨hdvd, -⟩
      exact ⟨hdvd.add (dvd_refl _), by omega⟩)
  rw [hblocks] at hle hlast ⊢
  congr 1
  symm
  apply Nat.div_eq_of_lt_le
  · rw [mul_comm]
    exact hle
  · rw [add_mul, one_mul, mul_comm blocks]
    omega

theorem strided_fill {α : Type} {body : ℕ → (ℕ → α) → ℕ → α} (f : ℕ → α)
    (hbody : ∀ i a j, body i a j = if i ≤ j ∧ j < i + (last + 1) then f j else a j) (i : ℕ) (a : ℕ → α) (j : ℕ) :
    (strided last count body i a).2 j = if i ≤ j ∧ j < (strided last count body i a).1 then f j else a j := by
  have hfilled := @strided_induct _ last count body i a
    (fun r b => i ≤ r ∧ ∀ j, b j = if i ≤ j ∧ j < r then f j else a j)
    ⟨le_rfl, fun j => (if_neg (by omega)).symm⟩ (by
      rintro r b - ⟨hr, hb⟩
      refine ⟨by omega, fun j => ?_⟩
      rw [hbody, hb]
      split_ifs <;> first | rfl | omega)
  exact hfilled.1.2 j

theorem strided_between (hi : i ≤ count) (body : ℕ → S → S) (s : S) :
    i ≤ (strided last count body i s).1 ∧ (strided last count body i s).1 ≤ count := by
  refine (@strided_induct S last count body i s (fun r _ => i ≤ r ∧ r ≤ count) ⟨le_rfl, hi⟩ ?_).1
  rintro r s hnext ⟨hr, -⟩
  omega

theorem strided_tail (hi : i ≤ count) (body : ℕ → S → S) (s : S) : (strided 0 count body i s).1 = count := by
  apply le_antisymm (strided_between hi body s).2
  exact (@strided_induct S 0 count body i s (fun _ _ => True) trivial fun _ _ _ _ => trivial).2

theorem strided_tail_fill {α : Type} (f : ℕ → α) (hi : i ≤ count) (a : ℕ → α) (j : ℕ) :
    (strided 0 count (fun i a => Function.update a i (f i)) i a).2 j = if i ≤ j ∧ j < count then f j else a j := by
  rw [strided_fill f, strided_tail hi]
  intro i a j
  rw [Function.update_apply]
  by_cases hj : j = i
  · subst hj
    rw [if_pos rfl, if_pos (by omega)]
  · rw [if_neg hj, if_neg (by omega)]

end SystemLevel.StridedLoops
