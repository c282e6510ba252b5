import SystemLevel.Foundations.Wraparound

/-! Rings of `2 ^ k` cells between two indices that count modulo `2 ^ 32` and are never reset. -/

namespace SystemLevel.IndexRings

open Wraparound

variable {α : Type*} {k : ℕ} {cells : UInt32 → α} {placed : List α} {start n m : ℕ}

def mask (k : ℕ) : UInt32 := UInt32.ofNat (2 ^ k - 1)

def occupied (cells : UInt32 → α) (k : ℕ) (head tail : UInt32) : List α :=
  (List.range (tail - head).toNat).map fun i => cells ((head + UInt32.ofNat i) &&& mask k)

theorem toNat_sub (h : n ≤ m) (hlt : m - n < 2 ^ 32) : (UInt32.ofNat m - UInt32.ofNat n).toNat = m - n := by
  have hsum : UInt32.ofNat m = UInt32.ofNat (m - n) + UInt32.ofNat n := by
    rw [← UInt32.ofNat_add, Nat.sub_add_cancel h]
  rw [hsum, UInt32.add_sub_cancel, UInt32.toNat_ofNat', Nat.mod_eq_of_lt hlt]

theorem ofNat_inj (h : n ≤ m) (hlt : m - n < 2 ^ 32) : UInt32.ofNat n = UInt32.ofNat m ↔ n = m := by
  constructor
  · intro heq
    have hsub := toNat_sub h hlt
    rw [heq, UInt32.sub_self] at hsub
    have hzero : m - n = 0 := hsub.symm
    omega
  · rintro rfl
    rfl

theorem toNat_and_mask (hk : k ≤ 31) (n : ℕ) : (UInt32.ofNat n &&& mask k).toNat = n % 2 ^ k := by
  have hpow : 2 ^ k ≤ 2 ^ 31 := Nat.pow_le_pow_right (by decide) hk
  have hmask : (mask k).toNat = 2 ^ k - 1 := by
    rw [mask, UInt32.toNat_ofNat', Nat.mod_eq_of_lt (by omega)]
  rw [UInt32.toNat_and, hmask, Nat.and_two_pow_sub_one_eq_mod, UInt32.toNat_ofNat']
  exact Nat.mod_mod_of_dvd n (Nat.pow_dvd_pow 2 (by omega))

theorem and_mask_ne (hk : k ≤ 31) (hlt : n < m) (hnear : m < n + 2 ^ k) :
    UInt32.ofNat n &&& mask k ≠ UInt32.ofNat m &&& mask k := by
  intro heq
  have hmod := congrArg UInt32.toNat heq
  rw [toNat_and_mask hk, toNat_and_mask hk] at hmod
  exact mod_ne hlt hnear hmod

structure Stores (cells : UInt32 → α) (k : ℕ) (placed : List α) (start : ℕ) : Prop where
  length_le : placed.length ≤ start + 2 ^ k
  cell : ∀ i x, start ≤ i → placed[i]? = some x → cells (UInt32.ofNat i &&& mask k) = x

namespace Stores

theorem empty (cells : UInt32 → α) (k : ℕ) : Stores cells k [] 0 where
  length_le := Nat.zero_le _
  cell := by simp

theorem place (h : Stores cells k placed start) (hk : k ≤ 31) (hroom : placed.length < start + 2 ^ k) (x : α) :
    Stores (Function.update cells (UInt32.ofNat placed.length &&& mask k) x) k (placed ++ [x]) start where
  length_le := by simpa using hroom
  cell := by
    intro i y hi hy
    rcases Nat.lt_or_ge i placed.length with hlt | hge
    · rw [List.getElem?_append_left hlt] at hy
      rw [Function.update_of_ne (and_mask_ne hk hlt (by omega)), h.cell i y hi hy]
    · have hlt := (List.getElem?_eq_some_iff.mp hy).1
      rw [List.length_append, List.length_singleton] at hlt
      obtain rfl : i = placed.length := by omega
      rw [List.getElem?_append_right hge, Nat.sub_self] at hy
      rw [Function.update_self]
      exact Option.some.inj hy

theorem release (h : Stores cells k placed start) {later : ℕ} (hle : start ≤ later) : Stores cells k placed later where
  length_le := h.length_le.trans (Nat.add_le_add_right hle _)
  cell := fun i x hi hx => h.cell i x (hle.trans hi) hx

theorem occupied_eq (h : Stores cells k placed start) (hk : k ≤ 31) (hn : start ≤ n) (hle : n ≤ placed.length) :
    occupied cells k (UInt32.ofNat n) (UInt32.ofNat placed.length) = placed.drop n := by
  have hpow : 2 ^ k ≤ 2 ^ 31 := Nat.pow_le_pow_right (by decide) hk
  have hlength := h.length_le
  rw [occupied, toNat_sub hle (by omega)]
  apply List.ext_getElem
  · simp
  · intro i hi hi'
    rw [List.getElem_map, List.getElem_range, ← UInt32.ofNat_add, List.getElem_drop]
    exact h.cell (n + i) _ (by omega) (List.getElem?_eq_getElem _)

theorem room_iff (h : Stores cells k placed start) (hk : k ≤ 31) (hle : start ≤ placed.length) :
    UInt32.ofNat placed.length - UInt32.ofNat start < UInt32.ofNat (2 ^ k) ↔ placed.length < start + 2 ^ k := by
  have hpow : 2 ^ k ≤ 2 ^ 31 := Nat.pow_le_pow_right (by decide) hk
  have hlength := h.length_le
  rw [UInt32.lt_iff_toNat_lt, toNat_sub hle (by omega), UInt32.toNat_ofNat', Nat.mod_eq_of_lt (by omega)]
  omega

end Stores

end SystemLevel.IndexRings
