import Mathlib
import SystemLevel.Foundations.FixedCodec

/-!
Decimal numerals in ASCII. The parser accepts a text only if it is the numeral that is printed for its value.
-/

namespace SystemLevel.Numerals

def digitByte (d : ℕ) : UInt8 := UInt8.ofNat (48 + d)

def decimal (n : ℕ) : Bytes := (Nat.digits 10 n).reverse.map digitByte

def numeral (n : ℕ) : Bytes := if n = 0 then [48] else decimal n

def digitOf (c : UInt8) : Option ℕ := if 48 ≤ c ∧ c ≤ 57 then some (c.toNat - 48) else none

def readDigits : Bytes → Option (List ℕ)
  | [] => some []
  | c :: text => (digitOf c).bind fun d => (readDigits text).map (d :: ·)

def Canonical (ds : List ℕ) : Prop := ds = [0] ∨ ds ≠ [] ∧ ds.head? ≠ some 0

instance decidableCanonical (ds : List ℕ) : Decidable (Canonical ds) :=
  inferInstanceAs (Decidable (ds = [0] ∨ ds ≠ [] ∧ ds.head? ≠ some 0))

def parseNumeral (text : Bytes) : Option ℕ :=
  (readDigits text).bind fun ds => if Canonical ds then some (Nat.ofDigits 10 ds.reverse) else none

def parseInteger (text : Bytes) : Option ℤ :=
  if text.head? = some 45 then (parseNumeral text.tail).map fun n : ℕ => -(n : ℤ)
  else (parseNumeral text).map fun n : ℕ => (n : ℤ)

variable {c : UInt8} {d n : ℕ} {ds : List ℕ} {text : Bytes}

theorem decimal_zero : decimal 0 = [] := by
  rw [decimal, Nat.digits_zero]
  rfl

theorem decimal_div (hn : 0 < n) : decimal n = decimal (n / 10) ++ [digitByte (n % 10)] := by
  rw [decimal, Nat.digits_def' (by decide) hn, List.reverse_cons, List.map_append]
  rfl

theorem numeral_pos (hn : 0 < n) : numeral n = decimal n := if_neg hn.ne'

theorem toNat_digitByte (hd : d < 10) : (digitByte d).toNat = 48 + d := by
  apply UInt8.toNat_ofNat_of_lt
  change 48 + d < 256
  omega

theorem digitOf_eq_some_iff : digitOf c = some d ↔ d < 10 ∧ c = digitByte d := by
  unfold digitOf
  constructor
  · intro h
    split_ifs at h with hrange
    obtain ⟨hlow, hhigh⟩ := hrange
    rw [UInt8.le_iff_toNat_le] at hlow hhigh
    change 48 ≤ c.toNat at hlow
    change c.toNat ≤ 57 at hhigh
    obtain rfl := Option.some.inj h
    have hlt : c.toNat - 48 < 10 := by omega
    refine ⟨hlt, ?_⟩
    rw [← UInt8.toNat_inj, toNat_digitByte hlt]
    omega
  · rintro ⟨hd, rfl⟩
    have hvalue := toNat_digitByte hd
    have hlow : 48 ≤ digitByte d := UInt8.le_iff_toNat_le.mpr (hvalue ▸ Nat.le_add_right 48 d)
    have hhigh : digitByte d ≤ 57 := by
      rw [UInt8.le_iff_toNat_le, hvalue]
      change 48 + d ≤ 57
      omega
    rw [if_pos ⟨hlow, hhigh⟩, hvalue, Nat.add_sub_cancel_left]

theorem readDigits_eq_some_iff : readDigits text = some ds ↔ (∀ d ∈ ds, d < 10) ∧ text = ds.map digitByte := by
  induction text generalizing ds with
  | nil =>
    rw [readDigits]
    constructor
    · intro h
      obtain rfl := Option.some.inj h
      exact ⟨List.forall_mem_nil _, rfl⟩
    · rintro ⟨-, h⟩
      rw [List.map_eq_nil_iff.mp h.symm]
  | cons c text ih =>
    simp only [readDigits, Option.bind_eq_some_iff, Option.map_eq_some_iff, digitOf_eq_some_iff, ih]
    constructor
    · rintro ⟨d, ⟨hd, rfl⟩, rest, ⟨hrest, rfl⟩, rfl⟩
      exact ⟨List.forall_mem_cons.mpr ⟨hd, hrest⟩, rfl⟩
    · rintro ⟨hds, h⟩
      cases ds with
      | nil => cases h
      | cons d rest =>
        obtain ⟨hd, hrest⟩ := List.forall_mem_cons.mp hds
        obtain ⟨rfl, rfl⟩ := List.cons.inj h
        exact ⟨d, ⟨hd, rfl⟩, rest, ⟨hrest, rfl⟩, rfl⟩

theorem digits_canonical (hn : n ≠ 0) : Canonical (Nat.digits 10 n).reverse := by
  have hne : Nat.digits 10 n ≠ [] := Nat.digits_ne_nil_iff_ne_zero.mpr hn
  refine Or.inr ⟨mt List.reverse_eq_nil_iff.mp hne, ?_⟩
  rw [List.head?_reverse, List.getLast?_eq_getLast_of_ne_nil hne]
  intro h
  exact Nat.getLast_digit_ne_zero 10 hn (Option.some.inj h)

theorem digits_ofDigits_canonical (hds : ∀ d ∈ ds, d < 10) (hhead : ds.head? ≠ some 0) :
    Nat.digits 10 (Nat.ofDigits 10 ds.reverse) = ds.reverse := by
  apply Nat.digits_ofDigits 10 (by decide)
  · intro d hd
    exact hds d (List.mem_reverse.mp hd)
  · intro hrev hzero
    apply hhead
    rw [← List.getLast?_reverse, List.getLast?_eq_getLast_of_ne_nil hrev, hzero]

theorem numeral_ofDigits (hds : ∀ d ∈ ds, d < 10) (hcanonical : Canonical ds) :
    numeral (Nat.ofDigits 10 ds.reverse) = ds.map digitByte := by
  rcases hcanonical with rfl | ⟨hne, hhead⟩
  · rfl
  · have hdigits := digits_ofDigits_canonical hds hhead
    have hpos : Nat.ofDigits 10 ds.reverse ≠ 0 := by
      rw [← Nat.digits_ne_nil_iff_ne_zero, hdigits]
      exact mt List.reverse_eq_nil_iff.mp hne
    rw [numeral, if_neg hpos, decimal, hdigits, List.reverse_reverse]

theorem parseNumeral_numeral (n : ℕ) : parseNumeral (numeral n) = some n := by
  by_cases hn : n = 0
  · subst hn
    rfl
  · have hread : readDigits (numeral n) = some (Nat.digits 10 n).reverse := by
      rw [readDigits_eq_some_iff, numeral, if_neg hn]
      refine ⟨?_, rfl⟩
      intro d hd
      exact Nat.digits_lt_base (by decide) (List.mem_reverse.mp hd)
    rw [parseNumeral, hread, Option.bind_some, if_pos (digits_canonical hn), List.reverse_reverse, Nat.ofDigits_digits]

theorem parseNumeral_eq_some_iff : parseNumeral text = some n ↔ text = numeral n := by
  constructor
  · intro h
    obtain ⟨ds, hread, hvalue⟩ := Option.bind_eq_some_iff.mp h
    obtain ⟨hds, rfl⟩ := readDigits_eq_some_iff.mp hread
    split_ifs at hvalue with hcanonical
    obtain rfl := Option.some.inj hvalue
    exact (numeral_ofDigits hds hcanonical).symm
  · rintro rfl
    exact parseNumeral_numeral n

theorem head_numeral (n : ℕ) : (numeral n).head? ≠ some 45 := by
  have hparse := parseNumeral_numeral n
  cases htext : numeral n with
  | nil => exact (Option.some_ne_none _).symm
  | cons c text =>
    intro h
    rw [htext, Option.some.inj h] at hparse
    exact Option.some_ne_none n hparse.symm

theorem parseInteger_numeral (n : ℕ) : parseInteger (numeral n) = some (n : ℤ) := by
  rw [parseInteger, if_neg (head_numeral n), parseNumeral_numeral]
  rfl

theorem parseInteger_minus_numeral (n : ℕ) : parseInteger (45 :: numeral n) = some (-(n : ℤ)) := by
  rw [parseInteger, if_pos List.head?_cons, List.tail_cons, parseNumeral_numeral]
  rfl

end SystemLevel.Numerals
