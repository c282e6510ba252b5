import SystemLevel.Foundations.Scratch
import SystemLevel.Logging.FormatArg

/-!
How `write_uint64` fills its buffer `temp`, from the end to the front. Its text is the one of `writeUint64`.
-/

namespace SystemLevel.Logging

open Numerals

def tempSize : ℤ := 24

structure Temp where
  scratch : Scratch
  p : ℤ

namespace Temp

def put (t : Temp) (c : UInt8) : Temp where
  scratch := t.scratch.store (t.p - 1) c
  p := t.p - 1

def putPair (t : Temp) (val : UInt64) : Temp where
  scratch := t.scratch.copy (t.p - 2) (digitPair val.toNat)
  p := t.p - 2

def loop (t : Temp) (val : UInt64) : Temp × UInt64 :=
  if _h : 100 ≤ val then (t.putPair (val % 100)).loop (val / 100) else (t, val)
termination_by val.toNat
decreasing_by
  rw [UInt64.toNat_div]
  exact Nat.div_lt_self (Nat.lt_of_lt_of_le (by decide) (UInt64.le_iff_toNat_le.mp _h)) (by decide)

def finish (t : Temp) (val : UInt64) : Temp := if val < 10 then t.put (48 + val).toUInt8 else t.putPair val

def fill (garbage : ℤ → UInt8) (val : UInt64) : Temp :=
  let t := put ⟨⟨garbage, []⟩, tempSize⟩ 0
  if val = 0 then t.put 48
  else
    let r := t.loop val
    r.1.finish r.2

def len (t : Temp) : ℕ := (tempSize - t.p - 1).toNat

def text (t : Temp) : Bytes := t.scratch.read t.p t.len

structure Inside (low : ℤ) (t : Temp) : Prop where
  low_le : low ≤ t.p
  lt : t.p < tempSize
  within : t.scratch.Within low tempSize

def prepend (t : Temp) (front : Bytes) : Temp where
  scratch := t.scratch.copy (t.p - front.length) front
  p := t.p - front.length

variable {t : Temp} {low : ℤ} {val : UInt64}

theorem put_eq_prepend (t : Temp) (c : UInt8) : t.put c = t.prepend [c] := rfl

theorem putPair_eq_prepend (hval : val < 100) (t : Temp) : t.putPair val = t.prepend (digitPair val.toNat) := by
  have hlength : (digitPair val.toNat).length = 2 := by
    rw [digitPair_eq (UInt64.lt_iff_toNat_lt.mp hval)]
    rfl
  rw [putPair, prepend, hlength]
  rfl

theorem text_prepend (h : t.p < tempSize) (front : Bytes) : (t.prepend front).text = front ++ t.text := by
  have hlen : (t.prepend front).len = front.length + t.len := by
    unfold len prepend
    dsimp only
    omega
  rw [text, hlen]
  refine (Scratch.read_copy t.scratch (t.p - front.length) front t.len).trans ?_
  rw [sub_add_cancel]
  rfl

theorem text_putPair (h : t.p < tempSize) (hval : val < 100) :
    (t.putPair val).text = digitPair val.toNat ++ t.text := by
  rw [putPair_eq_prepend hval, text_prepend h]

theorem Inside.prepend (h : Inside low t) (front : Bytes) : Inside (low - front.length) (t.prepend front) := by
  obtain ⟨hlow, hlt, hwithin⟩ := h
  have hfront : low - front.length ≤ t.p - front.length := Int.sub_le_sub_right hlow _
  refine ⟨hfront, ?_, ?_⟩
  · change t.p - front.length < tempSize
    omega
  · apply (hwithin.mono (by omega) le_rfl).copy hfront
    omega

theorem Inside.mono {low' : ℤ} (h : Inside low t) (hlow : low' ≤ low) : Inside low' t :=
  ⟨hlow.trans h.low_le, h.lt, h.within.mono hlow le_rfl⟩

theorem toUInt8_digit (val : UInt64) : (48 + val).toUInt8 = UInt8.ofNat (48 + val.toNat) := by
  rw [← UInt8.toNat_inj, UInt64.toNat_toUInt8, UInt64.toNat_add, UInt8.toNat_ofNat', Nat.mod_mod_of_dvd _ (by decide)]
  rfl

theorem text_finish (h : t.p < tempSize) (hval : val < 100) :
    (t.finish val).text = writeDigits 1 val.toNat t.text := by
  have hfew : val < 10 ↔ val.toNat < 10 := UInt64.lt_iff_toNat_lt
  have hlt : val.toNat < 100 := UInt64.lt_iff_toNat_lt.mp hval
  rw [writeDigits, if_neg (not_le.mpr hlt), finish]
  by_cases hten : val < 10
  · rw [if_pos hten, if_pos (hfew.mp hten), put_eq_prepend, text_prepend h, toUInt8_digit]
    rfl
  · rw [if_neg hten, if_neg (mt hfew.mpr hten), text_putPair h hval]

theorem Inside.putPair (h : Inside low t) (hval : val < 100) : Inside (low - 2) (t.putPair val) := by
  have hlength := length_digitPair_le val.toNat
  rw [putPair_eq_prepend hval]
  exact (h.prepend _).mono (by omega)

theorem Inside.finish (h : Inside low t) (hval : val < 100) : Inside (low - 2) (t.finish val) := by
  rw [Temp.finish]
  split_ifs
  · apply (h.prepend [(48 + val).toUInt8]).mono
    rw [List.length_singleton]
    omega
  · exact h.putPair hval

theorem writeDigits_of_lt {fuel n : ℕ} (hn : n < 100) (text : Bytes) :
    writeDigits (fuel + 1) n text = writeDigits 1 n text := by
  rw [writeDigits, writeDigits, if_neg (not_le.mpr hn), if_neg (not_le.mpr hn)]

theorem loop_spec {fuel : ℕ} (hpos : 0 < val.toNat) (hval : val.toNat < 100 ^ fuel) (h : Inside low t) :
    ((t.loop val).1.finish (t.loop val).2).text = writeDigits fuel val.toNat t.text ∧
      Inside (low - 2 * fuel) ((t.loop val).1.finish (t.loop val).2) := by
  induction fuel generalizing val t low with
  | zero =>
    rw [Nat.pow_zero] at hval
    omega
  | succ fuel ih =>
    have hlarge : 100 ≤ val ↔ 100 ≤ val.toNat := UInt64.le_iff_toNat_le
    rw [loop]
    by_cases hmore : 100 ≤ val
    · rw [dif_pos hmore]
      have hrem : val % 100 < 100 := UInt64.mod_lt val (by decide)
      have hquotient : (val / 100).toNat = val.toNat / 100 := UInt64.toNat_div val 100
      have hmod : (val % 100).toNat = val.toNat % 100 := UInt64.toNat_mod val 100
      rw [Nat.pow_succ] at hval
      have hrest := hlarge.mp hmore
      have hpos' : 0 < (val / 100).toNat := by omega
      have hval' : (val / 100).toNat < 100 ^ fuel := by omega
      obtain ⟨htext, hinside⟩ := ih hpos' hval' (h.putPair hrem)
      rw [text_putPair h.lt hrem, hquotient, hmod] at htext
      rw [writeDigits, if_pos hrest]
      refine ⟨htext, hinside.mono ?_⟩
      omega
    · rw [dif_neg hmore]
      have hlt : val < 100 := UInt64.not_le.mp hmore
      rw [writeDigits_of_lt (UInt64.lt_iff_toNat_lt.mp hlt)]
      refine ⟨text_finish h.lt hlt, (h.finish hlt).mono ?_⟩
      omega

theorem start_spec (garbage : ℤ → UInt8) :
    (put ⟨⟨garbage, []⟩, tempSize⟩ 0).text = [] ∧ Inside 23 (put ⟨⟨garbage, []⟩, tempSize⟩ 0) := by
  have hlow : (23 : ℤ) ≤ tempSize - 1 := by decide
  have hlt : tempSize - 1 < tempSize := by decide
  refine ⟨rfl, hlow, hlt, ?_⟩
  intro place hplace
  rw [List.mem_singleton.mp hplace]
  exact ⟨hlow, hlt⟩

theorem fill_spec (garbage : ℤ → UInt8) (val : UInt64) :
    (fill garbage val).text = writeUint64 val ∧ Inside 3 (fill garbage val) := by
  obtain ⟨hempty, hstart⟩ := start_spec garbage
  rw [fill, writeUint64]
  dsimp only
  by_cases hzero : val = 0
  · rw [if_pos hzero, if_pos hzero, put_eq_prepend, text_prepend hstart.lt, hempty]
    exact ⟨rfl, (hstart.prepend [48]).mono (by decide)⟩
  · rw [if_neg hzero, if_neg hzero]
    obtain ⟨htext, hinside⟩ := loop_spec (toNat_pos hzero) (val.toNat_lt.trans (by decide : 2 ^ 64 < 100 ^ 10)) hstart
    rw [hempty] at htext
    exact ⟨htext, hinside⟩

end Temp

theorem writeUint64_eq_numeral (val : UInt64) : writeUint64 val = numeral val.toNat := by
  by_cases hzero : val = 0
  · subst hzero
    rfl
  · rw [writeUint64_decimal hzero, numeral_pos (toNat_pos hzero)]

/-- The exact results of the signed operations of `write_int64` and of its call of `write_uint64`: the negation,
and the two differences that give `len`. -/
def signedResults (garbage : ℤ → UInt8) (val : Int64) : List ℤ :=
  let t := Temp.fill garbage (if val < 0 then (-val).toUInt64 else val.toUInt64)
  (if val < 0 then [-val.toInt] else []) ++ [tempSize - t.p, tempSize - t.p - 1]

def Representable (n : ℤ) : Prop := -2 ^ 63 ≤ n ∧ n < 2 ^ 63

theorem lt_zero_iff (val : Int64) : val < 0 ↔ val.toInt < 0 := Int64.lt_iff_toInt_lt

theorem toNat_neg_toUInt64 {val : Int64} (h : val < 0) : ((-val).toUInt64.toNat : ℤ) = -val.toInt := by
  have hneg : (-val).toUInt64.toNat = (2 ^ 64 - val.toBitVec.toNat) % 2 ^ 64 := BitVec.toNat_neg val.toBitVec
  have hint : val.toInt = _ := BitVec.toInt_eq_toNat_cond val.toBitVec
  have hlt := val.toBitVec.isLt
  rw [lt_zero_iff] at h
  rw [hneg]
  split_ifs at hint <;> omega

theorem toNat_toUInt64 {val : Int64} (h : ¬ val < 0) : (val.toUInt64.toNat : ℤ) = val.toInt := by
  have hint : val.toInt = _ := BitVec.toInt_eq_toNat_cond val.toBitVec
  have hnat : val.toUInt64.toNat = val.toBitVec.toNat := rfl
  have hlt := val.toBitVec.isLt
  rw [lt_zero_iff] at h
  rw [hnat]
  split_ifs at hint <;> omega

theorem writeInt64_parses (val : Int64) : parseInteger (writeInt64 val) = some val.toInt := by
  rw [writeInt64]
  split_ifs with h
  · rw [writeUint64_eq_numeral, parseInteger_minus_numeral, toNat_neg_toUInt64 h, neg_neg]
  · rw [writeUint64_eq_numeral, parseInteger_numeral, toNat_toUInt64 h]

theorem negation_representable_iff (val : Int64) : Representable (-val.toInt) ↔ val ≠ Int64.minValue := by
  have hlow := val.le_toInt
  have hhigh := val.toInt_lt
  have hmin : val ≠ Int64.minValue ↔ val.toInt ≠ -2 ^ 63 := by
    rw [ne_eq, ne_eq, ← Int64.toInt_inj, Int64.toInt_minValue]
  rw [hmin, Representable]
  omega

theorem differences_representable (garbage : ℤ → UInt8) (val : UInt64) :
    let p := (Temp.fill garbage val).p
    Representable (tempSize - p) ∧ Representable (tempSize - p - 1) := by
  intro p
  obtain ⟨hlow, hlt, -⟩ := (Temp.fill_spec garbage val).2
  change 3 ≤ p at hlow
  change p < tempSize at hlt
  unfold Representable
  unfold tempSize at hlt ⊢
  omega

theorem write_int64_whole_range_iff (garbage : ℤ → UInt8) (val : Int64) :
    ((∀ n ∈ signedResults garbage val, Representable n) ∧ parseInteger (writeInt64 val) = some val.toInt) ↔
      val ≠ Int64.minValue := by
  have hnegation := negation_representable_iff val
  constructor
  · rintro ⟨hall, -⟩ hmin
    refine hnegation.mp (hall _ ?_) hmin
    subst hmin
    exact List.mem_append_left _ (List.mem_singleton_self _)
  · intro hmin
    refine ⟨?_, writeInt64_parses val⟩
    obtain ⟨hdifference, hlen⟩ :=
      differences_representable garbage (if val < 0 then (-val).toUInt64 else val.toUInt64)
    intro n hn
    rcases List.mem_append.mp hn with hn | hn
    · split_ifs at hn
      · rw [List.mem_singleton.mp hn]
        exact hnegation.mpr hmin
      · exact absurd hn List.not_mem_nil
    · rcases List.mem_cons.mp hn with rfl | hn
      · exact hdifference
      · rw [List.mem_singleton.mp hn]
        exact hlen

theorem negation_of_minValue_overflows :
    2 ^ 63 ∈ signedResults (fun _ => 0) Int64.minValue ∧ ¬ Representable (2 ^ 63) := by
  constructor
  · exact List.mem_append_left _ (List.mem_singleton_self _)
  · rintro ⟨-, hlt⟩
    exact lt_irrefl _ hlt

end SystemLevel.Logging
