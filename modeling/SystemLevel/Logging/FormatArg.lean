import SystemLevel.Foundations.Numerals
import SystemLevel.Logging.FastLogger

/-!
The texts that `log` and `flush` format. A text is what a function writes from its `dst` on.
-/

namespace SystemLevel.Logging

open Numerals

def ascii (text : String) : Bytes := text.toList.map fun c => UInt8.ofNat c.toNat

def digits : Bytes :=
  ascii <|
    "0001020304050607080910111213141516171819" ++ "2021222324252627282930313233343536373839" ++
    "4041424344454647484950515253545556575859" ++ "6061626364656667686970717273747576777879" ++
    "8081828384858687888990919293949596979899"

def digitPair (val : ℕ) : Bytes := (digits.drop (val * 2)).take 2

/-- The loop of `write_uint64` and what follows it. Ten rounds are enough for 64 bits. -/
def writeDigits : ℕ → ℕ → Bytes → Bytes
  | 0, _, text => text
  | fuel + 1, val, text =>
    if 100 ≤ val then writeDigits fuel (val / 100) (digitPair (val % 100) ++ text)
    else if val < 10 then UInt8.ofNat (48 + val) :: text
    else digitPair val ++ text

def writeUint64 (val : UInt64) : Bytes := if val = 0 then [48] else writeDigits 10 val.toNat []

/-- The negation wraps, as it does in practice for the smallest number. -/
def writeInt64 (val : Int64) : Bytes :=
  if val < 0 then 45 :: writeUint64 (-val).toUInt64 else writeUint64 val.toUInt64

def hexDigits : Bytes := ascii "0123456789ABCDEF"

def writeNibble (val : UInt64) (s : Bool × Bytes) (shift : UInt64) : Bool × Bytes :=
  let nibble := (val >>> shift) &&& 0x0F
  if nibble ≠ 0 ∨ ¬ s.1 ∨ shift = 0 then (false, s.2 ++ [hexDigits.getD nibble.toNat 0]) else s

def writeHex64 (val : UInt64) : Bytes :=
  48 :: 120 :: ([60, 56, 52, 48, 44, 40, 36, 32, 28, 24, 20, 16, 12, 8, 4, 0].foldl (writeNibble val) (true, [])).2

def Level.text : Level → Bytes
  | .trace => ascii "[TRACE]"
  | .debug => ascii "[DEBUG]"
  | .info => ascii "[INFO ]"
  | .warn => ascii "[WARN ]"
  | .error => ascii "[ERROR]"
  | .fatal => ascii "[FATAL]"

def LogMessage.header (message : LogMessage) : Bytes :=
  91 :: (writeUint64 message.timestampNs ++ [93, 32] ++ message.level.text ++ [32])

/-- An argument of `log`. Of a floating-point number only the two parts are known that it is converted to. -/
inductive Arg
  | cString (val : Bytes)
  | stringView (val : Bytes)
  | signed (val : Int64)
  | unsigned (val : UInt64)
  | pointer (val : UInt64)
  | floating (integerPart fracPart : Int64)
  | other
  deriving DecidableEq

def Arg.text : Arg → Bytes
  | .cString val => val
  | .stringView val => val
  | .signed val => writeInt64 val
  | .unsigned val => writeUint64 val
  | .pointer val => writeHex64 val
  | .floating integerPart fracPart =>
    writeInt64 integerPart ++ 46 :: (if fracPart < 100 then [48] else []) ++ (if fracPart < 10 then [48] else []) ++
      writeInt64 fracPart
  | .other => []

def Arg.isString : Arg → Bool
  | .cString _ | .stringView _ => true
  | _ => false

def maxPayloadSize : ℕ := 256

structure Output where
  ptr : ℕ := 0
  written : List (UInt8 × ℕ) := []
  deriving DecidableEq, Repr

def Output.put (o : Output) (text : Bytes) : Output where
  ptr := o.ptr + text.length
  written := o.written ++ text.zipIdx o.ptr

def formatArg (o : Output) (arg : Arg) : Output :=
  let endPtr := maxPayloadSize - 2
  if endPtr ≤ o.ptr then o
  else if arg.isString then o.put (arg.text.take (min arg.text.length (endPtr - o.ptr)))
  else o.put arg.text

def formatArgs (args : List Arg) : Output := args.foldl formatArg {}

def formatEntry (args : List Arg) : Output := (formatArgs args).put [10]

def entryLength (args : List Arg) : UInt16 := UInt16.ofNat (formatEntry args).ptr

theorem ascii_append (text rest : String) : ascii (text ++ rest) = ascii text ++ ascii rest := by
  rw [ascii, String.toList_append, List.map_append]
  rfl

def twoDigits (val : ℕ) : Bytes := [UInt8.ofNat (48 + val / 10), UInt8.ofNat (48 + val % 10)]

theorem digits_eq : digits = (List.range 100).flatMap twoDigits := by
  rw [digits]
  simp only [ascii_append]
  decide +kernel

theorem digitPair_eq {val : ℕ} (hval : val < 100) :
    digitPair val = [UInt8.ofNat (48 + val / 10), UInt8.ofNat (48 + val % 10)] := by
  have hsplit : List.range 100 = List.range val ++ val :: List.range' (val + 1) (99 - val) := by
    rw [← List.range'_succ, List.range_eq_range', List.range_eq_range']
    nth_rewrite 2 [← Nat.zero_add val]
    rw [List.range'_append_1]
    congr 1
    omega
  have hbefore : ((List.range val).flatMap twoDigits).length = val * 2 := by
    simp [List.length_flatMap, twoDigits]
  rw [digitPair, digits_eq, hsplit, List.flatMap_append, List.drop_left' hbefore, List.flatMap_cons]
  rfl

theorem decimal_pair {val : ℕ} (hval : 10 ≤ val) : decimal val = decimal (val / 100) ++ digitPair (val % 100) := by
  have hten : val / 10 / 10 = val / 100 := Nat.div_div_eq_div_mul val 10 10
  have hfirst : val % 100 / 10 = val / 10 % 10 := by omega
  have hsecond : val % 100 % 10 = val % 10 := by omega
  rw [decimal_div (by omega), decimal_div (by omega : 0 < val / 10), hten, digitPair_eq (Nat.mod_lt _ (by decide)),
    hfirst, hsecond, List.append_assoc]
  rfl

theorem writeDigits_eq {fuel val : ℕ} (hpos : 0 < val) (hval : val < 100 ^ fuel) (text : Bytes) :
    writeDigits fuel val text = decimal val ++ text := by
  induction fuel generalizing val text with
  | zero =>
    rw [Nat.pow_zero] at hval
    omega
  | succ fuel ih =>
    rw [Nat.pow_succ] at hval
    rw [writeDigits]
    split_ifs with hmany hfew
    · rw [ih (by omega) (by omega), decimal_pair (by omega : 10 ≤ val), List.append_assoc]
    · rw [decimal_div hpos, Nat.div_eq_of_lt hfew, Nat.mod_eq_of_lt hfew, decimal_zero]
      rfl
    · rw [decimal_pair (not_lt.mp hfew), Nat.div_eq_of_lt (by omega), Nat.mod_eq_of_lt (by omega), decimal_zero]
      rfl

theorem toNat_pos {val : UInt64} (hval : val ≠ 0) : 0 < val.toNat :=
  Nat.pos_of_ne_zero fun hzero => hval (UInt64.toNat_inj.mp hzero)

theorem writeUint64_decimal {val : UInt64} (hval : val ≠ 0) : writeUint64 val = decimal val.toNat := by
  rw [writeUint64, if_neg hval, writeDigits_eq (toNat_pos hval) (val.toNat_lt.trans (by decide)), List.append_nil]

theorem length_digitPair_le (val : ℕ) : (digitPair val).length ≤ 2 := List.length_take_le _ _

theorem length_writeDigits_le (fuel val : ℕ) (text : Bytes) :
    (writeDigits fuel val text).length ≤ 2 * fuel + text.length := by
  induction fuel generalizing val text with
  | zero => rw [writeDigits, Nat.mul_zero, Nat.zero_add]
  | succ fuel ih =>
    have hpair := length_digitPair_le
    rw [writeDigits]
    split_ifs
    · have hmore := ih (val / 100) (digitPair (val % 100) ++ text)
      have hround := hpair (val % 100)
      rw [List.length_append] at hmore
      omega
    · rw [List.length_cons]
      omega
    · have hlast := hpair val
      rw [List.length_append]
      omega

theorem length_writeUint64_le (val : UInt64) : (writeUint64 val).length ≤ 20 := by
  rw [writeUint64]
  split_ifs
  · decide
  · exact length_writeDigits_le 10 val.toNat []

theorem length_writeInt64_le (val : Int64) : (writeInt64 val).length ≤ 21 := by
  rw [writeInt64]
  split_ifs
  · exact Nat.succ_le_succ (length_writeUint64_le _)
  · exact (length_writeUint64_le _).trans (by decide)

theorem length_nibbles_le (val : UInt64) (shifts : List UInt64) (s : Bool × Bytes) :
    (shifts.foldl (writeNibble val) s).2.length ≤ s.2.length + shifts.length := by
  induction shifts generalizing s with
  | nil => exact le_rfl
  | cons shift shifts ih =>
    have hround : (writeNibble val s shift).2.length ≤ s.2.length + 1 := by
      unfold writeNibble
      dsimp only
      split_ifs
      · rw [List.length_append, List.length_singleton]
      · exact Nat.le_succ _
    have hrest := ih (writeNibble val s shift)
    rw [List.foldl_cons, List.length_cons]
    omega

theorem length_writeHex64_le (val : UInt64) : (writeHex64 val).length ≤ 18 :=
  Nat.add_le_add_right (length_nibbles_le val _ (true, [])) 2

end SystemLevel.Logging
