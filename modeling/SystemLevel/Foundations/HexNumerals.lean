import SystemLevel.Foundations.FixedCodec
import SystemLevel.Foundations.TextLines

/-!
Hexadecimal numerals in ASCII, with letters of either case. Zeros in front do not change the value.
-/

namespace SystemLevel.HexNumerals

def hexDigit (uppercase : Bool) (d : ℕ) : UInt8 :=
  UInt8.ofNat (if d < 10 then 48 + d else if uppercase then 55 + d else 87 + d)

def hexNumeral (uppercase : Bool) (n : ℕ) : Bytes :=
  if n = 0 then [48] else (Nat.digits 16 n).reverse.map (hexDigit uppercase)

def hexOf (c : UInt8) : Option ℕ :=
  if 48 ≤ c ∧ c ≤ 57 then some (c.toNat - 48)
  else if 65 ≤ c ∧ c ≤ 70 then some (c.toNat - 55)
  else if 97 ≤ c ∧ c ≤ 102 then some (c.toNat - 87)
  else none

def readHex (text : Bytes) : Option ℕ := (text.mapM hexOf).map fun ds => Nat.ofDigits 16 ds.reverse

variable {uppercase : Bool} {c : UInt8} {d n width : ℕ}

theorem hexOf_hexDigit (hd : d < 16) : hexOf (hexDigit uppercase d) = some d := by
  interval_cases d <;> cases uppercase <;> rfl

def places (width n : ℕ) : List ℕ :=
  List.replicate (width - (if n = 0 then [0] else Nat.digits 16 n).length) 0 ++
    (if n = 0 then [0] else Nat.digits 16 n).reverse

theorem length_hexNumeral (uppercase : Bool) (n : ℕ) :
    (hexNumeral uppercase n).length = (if n = 0 then [0] else Nat.digits 16 n).length := by
  rw [hexNumeral]
  split_ifs
  · rfl
  · rw [List.length_map, List.length_reverse]

def padded (uppercase : Bool) (width n : ℕ) : Bytes :=
  List.replicate (width - (hexNumeral uppercase n).length) 48 ++ hexNumeral uppercase n

theorem padded_eq (uppercase : Bool) (width n : ℕ) :
    padded uppercase width n = (places width n).map (hexDigit uppercase) := by
  rw [padded, places, List.map_append, List.map_replicate, length_hexNumeral, hexNumeral]
  split_ifs
  · rfl
  · rfl

theorem places_lt (hd : d ∈ places width n) : d < 16 := by
  rcases List.mem_append.mp hd with hzero | hdigit
  · rw [List.eq_of_mem_replicate hzero]
    decide
  · rw [List.mem_reverse] at hdigit
    split_ifs at hdigit
    · rw [List.mem_singleton.mp hdigit]
      decide
    · exact Nat.digits_lt_base (by decide) hdigit

theorem ofDigits_places (width n : ℕ) : Nat.ofDigits 16 (places width n).reverse = n := by
  rw [places, List.reverse_append, List.reverse_reverse, List.reverse_replicate, Nat.ofDigits_append_replicate_zero]
  split_ifs with hn
  · rw [hn]
    rfl
  · exact Nat.ofDigits_digits 16 n

theorem readHex_padded (uppercase : Bool) (width n : ℕ) : readHex (padded uppercase width n) = some n := by
  have hdigits : ((places width n).map (hexDigit uppercase)).mapM hexOf = some ((places width n).map id) := by
    apply TextLines.mapM_map
    intro d hd
    exact hexOf_hexDigit (places_lt hd)
  rw [padded_eq, readHex, hdigits, Option.map_some, List.map_id, ofDigits_places]

theorem notMem_padded (hc : hexOf c = none) : c ∉ padded uppercase width n := by
  intro hmem
  rw [padded_eq] at hmem
  obtain ⟨d, hd, rfl⟩ := List.mem_map.mp hmem
  rw [hexOf_hexDigit (places_lt hd)] at hc
  cases hc

theorem length_padded (hwidth : 0 < width) (hn : n < 16 ^ width) : (padded uppercase width n).length = width := by
  have hlength : (hexNumeral uppercase n).length ≤ width := by
    rw [length_hexNumeral]
    split_ifs with hzero
    · exact hwidth
    · exact (Nat.digits_length_le_iff (by decide) n).mpr hn
  rw [padded, List.length_append, List.length_replicate]
  omega

end SystemLevel.HexNumerals
