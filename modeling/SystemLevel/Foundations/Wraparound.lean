import Mathlib

namespace SystemLevel.Wraparound

/-! Counters that wrap around at `2 ^ 64`, compared by their difference. -/

variable {a b c : ℕ}

theorem toNat_sub_ofNat (h : a ≤ b) (hlt : b - a < 2 ^ 64) : (UInt64.ofNat b - UInt64.ofNat a).toNat = b - a := by
  have hsum : UInt64.ofNat b = UInt64.ofNat (b - a) + UInt64.ofNat a := by
    rw [← UInt64.ofNat_add, Nat.sub_add_cancel h]
  rw [hsum, UInt64.add_sub_cancel, UInt64.toNat_ofNat', Nat.mod_eq_of_lt hlt]

theorem ofNat_length_concat {α : Type*} (xs : List α) (x : α) :
    UInt64.ofNat (xs ++ [x]).length = UInt64.ofNat xs.length + 1 := by
  rw [List.length_append, UInt64.ofNat_add]
  rfl

theorem ofNat_eq_of_le (h : a ≤ b) (hlt : b - a < 2 ^ 64) : UInt64.ofNat a = UInt64.ofNat b ↔ a = b := by
  constructor
  · intro heq
    have hsub := toNat_sub_ofNat h hlt
    rw [heq, UInt64.sub_self] at hsub
    have hzero : b - a = 0 := hsub.symm
    omega
  · rintro rfl
    rfl

theorem ofNat_inj (ha : a < 2 ^ 64) (hb : b < 2 ^ 64) : UInt64.ofNat a = UInt64.ofNat b ↔ a = b := by
  rw [← UInt64.toNat_inj, UInt64.toNat_ofNat', UInt64.toNat_ofNat', Nat.mod_eq_of_lt ha, Nat.mod_eq_of_lt hb]

theorem ofNat_lt_iff (ha : a < 2 ^ 64) (hb : b < 2 ^ 64) : UInt64.ofNat a < UInt64.ofNat b ↔ a < b := by
  rw [UInt64.lt_iff_toNat_lt, UInt64.toNat_ofNat', UInt64.toNat_ofNat', Nat.mod_eq_of_lt ha, Nat.mod_eq_of_lt hb]

theorem toNat_two_pow (hc : c < 64) : (UInt64.ofNat (2 ^ c)).toNat = 2 ^ c := by
  rw [UInt64.toNat_ofNat', Nat.mod_eq_of_lt (Nat.pow_lt_pow_right (by decide) hc)]

theorem toNat_and_mask (hc : c < 64) (t : ℕ) :
    (UInt64.ofNat t &&& (UInt64.ofNat (2 ^ c) - 1)).toNat = t % 2 ^ c := by
  have hone : (1 : UInt64).toNat = 1 := rfl
  have hle : (1 : UInt64) ≤ UInt64.ofNat (2 ^ c) := by
    rw [UInt64.le_iff_toNat_le, toNat_two_pow hc, hone]
    exact Nat.one_le_two_pow
  rw [UInt64.toNat_and, UInt64.toNat_sub_of_le _ _ hle, toNat_two_pow hc, hone, Nat.and_two_pow_sub_one_eq_mod,
    UInt64.toNat_ofNat']
  exact Nat.mod_mod_of_dvd t (Nat.pow_dvd_pow 2 hc.le)

theorem mod_ne {m : ℕ} (hlt : a < b) (hnear : b < a + m) : a % m ≠ b % m := by
  intro hmod
  have hdvd : m ∣ b - a := (Nat.modEq_iff_dvd' hlt.le).mp hmod
  exact absurd (Nat.le_of_dvd (Nat.sub_pos_of_lt hlt) hdvd) (by omega)

theorem two_pow_le_sub_iff (hc : c < 64) (h : a ≤ b) (hnear : b ≤ a + 2 ^ c) :
    UInt64.ofNat (2 ^ c) ≤ UInt64.ofNat b - UInt64.ofNat a ↔ b = a + 2 ^ c := by
  have hpow : 2 ^ c < 2 ^ 64 := Nat.pow_lt_pow_right (by decide) hc
  rw [UInt64.le_iff_toNat_le, toNat_two_pow hc, toNat_sub_ofNat h (by omega)]
  omega

end SystemLevel.Wraparound
