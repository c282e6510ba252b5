import Mathlib

namespace SystemLevel.BitSmearing

/-- Every bit is set that has a set bit of `v` at most `2 ^ k - 1` places above it. -/
def Smears (k v w : ℕ) : Prop := ∀ i, w.testBit i = true ↔ ∃ d < 2 ^ k, v.testBit (i + d) = true

theorem smears_zero (v : ℕ) : Smears 0 v v := by
  intro i
  constructor
  · exact fun h => ⟨0, by decide, h⟩
  · rintro ⟨d, hd, h⟩
    rwa [show d = 0 by omega] at h

theorem Smears.step {k v w : ℕ} (h : Smears k v w) : Smears (k + 1) v (w ||| w >>> 2 ^ k) := by
  intro i
  rw [Nat.testBit_or, Nat.testBit_shiftRight, Bool.or_eq_true, h, h, Nat.pow_succ]
  constructor
  · rintro (⟨d, hd, hbit⟩ | ⟨d, hd, hbit⟩)
    · exact ⟨d, by omega, hbit⟩
    · exact ⟨2 ^ k + d, by omega, by rwa [show i + (2 ^ k + d) = 2 ^ k + i + d by omega]⟩
  · rintro ⟨d, hd, hbit⟩
    by_cases hlt : d < 2 ^ k
    · exact Or.inl ⟨d, hlt, hbit⟩
    · refine Or.inr ⟨d - 2 ^ k, by omega, ?_⟩
      rwa [show 2 ^ k + i + (d - 2 ^ k) = i + d by omega]

theorem Smears.eq {k v w : ℕ} (h : Smears k v w) (hne : v ≠ 0) (hlt : v < 2 ^ 2 ^ k) : w = 2 ^ (v.log2 + 1) - 1 := by
  apply Nat.eq_of_testBit_eq
  intro i
  rw [Nat.testBit_two_pow_sub_one, Bool.eq_iff_iff, h, decide_eq_true_eq, Nat.lt_succ_iff]
  constructor
  · rintro ⟨d, -, hbit⟩
    have hge := Nat.ge_two_pow_of_testBit hbit
    have hle := (Nat.le_log2 hne).mpr hge
    omega
  · intro hi
    have hlog : v.log2 < 2 ^ k := (Nat.log2_lt hne).mpr hlt
    refine ⟨v.log2 - i, by omega, ?_⟩
    rw [Nat.add_sub_cancel' hi]
    exact Nat.testBit_log2 hne

theorem clog_eq_log2 {n : ℕ} (hn : 2 ≤ n) : Nat.clog 2 n = (n - 1).log2 + 1 := by
  have hne : n - 1 ≠ 0 := by omega
  apply eq_of_forall_ge_iff
  intro c
  rw [Nat.clog_le_iff_le_pow (by decide), Nat.succ_le_iff, Nat.log2_lt hne]
  omega

theorem Smears.succ_eq {k v w : ℕ} (h : Smears k (v - 1) w) (hv : 2 ≤ v) (hle : v ≤ 2 ^ 2 ^ k) :
    w + 1 = 2 ^ Nat.clog 2 v := by
  rw [h.eq (by omega) (by omega), clog_eq_log2 hv, Nat.sub_add_cancel Nat.one_le_two_pow]

end SystemLevel.BitSmearing
