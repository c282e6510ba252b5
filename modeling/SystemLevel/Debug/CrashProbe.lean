import SystemLevel.Logging.DecimalBuffers

/-!
The report that `crash_handler` puts into its buffer `buf`, with the formatters it uses.
-/

namespace SystemLevel.Debug

open Numerals Logging

def digitLoop (temp : Scratch) (idx : ℕ) (val : UInt64) : Scratch × ℕ :=
  if _h : 0 < val then digitLoop (temp.store idx (48 + val % 10).toUInt8) (idx + 1) (val / 10) else (temp, idx)
termination_by val.toNat
decreasing_by
  rw [UInt64.toNat_div]
  exact Nat.div_lt_self (UInt64.lt_iff_toNat_lt.mp _h) (by decide)

def fillTemp (garbage : ℤ → UInt8) (val : UInt64) : Scratch × ℕ :=
  if val = 0 then (Scratch.store ⟨garbage, []⟩ 0 48, 1) else digitLoop ⟨garbage, []⟩ 0 val

def writeUint (garbage : ℤ → UInt8) (val : UInt64) : Bytes :=
  let r := fillTemp garbage val
  r.1.readDown r.2

def hexMap : Bytes := ascii "0123456789abcdef"

def nibble (val : UInt64) (i : ℕ) : ℕ := ((val >>> UInt64.ofNat i) &&& 0x0F).toNat

def nibbleShifts : List ℕ := [60, 56, 52, 48, 44, 40, 36, 32, 28, 24, 20, 16, 12, 8, 4, 0]

def writeHex64 (val : UInt64) : Bytes := 48 :: 120 :: nibbleShifts.map fun i => hexMap.getD (nibble val i) 0

structure Registers where
  rip : UInt64
  rsp : UInt64
  rbp : UInt64
  rax : UInt64
  rbx : UInt64
  rcx : UInt64
  rdx : UInt64
  rsi : UInt64
  rdi : UInt64
  r8 : UInt64
  r9 : UInt64
  r10 : UInt64
  r11 : UInt64
  r12 : UInt64
  r13 : UInt64
  r14 : UInt64
  r15 : UInt64
  efl : UInt64
  deriving DecidableEq, Repr

def Registers.fields (r : Registers) : List (String × UInt64) :=
  [("      \"rip\": \"", r.rip), ("      \"rsp\": \"", r.rsp), ("      \"rbp\": \"", r.rbp),
    ("      \"rax\": \"", r.rax), ("      \"rbx\": \"", r.rbx), ("      \"rcx\": \"", r.rcx),
    ("      \"rdx\": \"", r.rdx), ("      \"rsi\": \"", r.rsi), ("      \"rdi\": \"", r.rdi),
    ("      \"r8\":  \"", r.r8), ("      \"r9\":  \"", r.r9), ("      \"r10\": \"", r.r10),
    ("      \"r11\": \"", r.r11), ("      \"r12\": \"", r.r12), ("      \"r13\": \"", r.r13),
    ("      \"r14\": \"", r.r14), ("      \"r15\": \"", r.r15)]

def registerLine (field : String × UInt64) : Bytes := ascii field.1 ++ writeHex64 field.2 ++ ascii "\",\n"

/-- The numbers of the signals are those of Linux. -/
def signalName (sig : Int32) : String :=
  if sig = 11 then "SIGSEGV"
  else if sig = 7 then "SIGBUS"
  else if sig = 8 then "SIGFPE"
  else if sig = 4 then "SIGILL"
  else if sig = 6 then "SIGABRT"
  else "UNKNOWN"

def reportHead (garbage : ℤ → UInt8) (sig : Int32) : Bytes :=
  ascii "\x7b\n  \"crash_report\": \x7b\n" ++ ascii "    \"signal\": " ++ writeUint garbage sig.toInt64.toUInt64 ++
    ascii ",\n    \"signal_name\": \"" ++ ascii (signalName sig) ++ ascii "\",\n    \"fault_address\": \""

def reportTail (faultAddr : UInt64) (r : Registers) : Bytes :=
  writeHex64 faultAddr ++ (ascii "\",\n    \"registers\": \x7b\n" ++ (r.fields.flatMap registerLine ++
    (ascii "      \"efl\": \"" ++ (writeHex64 r.efl ++ (ascii "\"\n" ++ ascii "    \x7d\n  \x7d\n\x7d\n")))))

def crashReport (garbage : ℤ → UInt8) (sig : Int32) (faultAddr : UInt64) (r : Registers) : Bytes :=
  reportHead garbage sig ++ reportTail faultAddr r

def bufSize : ℕ := 2048

variable {temp : Scratch} {idx : ℕ} {val : UInt64}

theorem digitLoop_zero (temp : Scratch) (idx : ℕ) : digitLoop temp idx 0 = (temp, idx) := by
  rw [digitLoop, dif_neg (by decide)]

theorem digitLoop_pos (hpos : 0 < val) (temp : Scratch) (idx : ℕ) :
    digitLoop temp idx val = digitLoop (temp.store idx (UInt8.ofNat (48 + val.toNat % 10))) (idx + 1) (val / 10) := by
  have hmod : (val % 10).toNat = val.toNat % 10 := UInt64.toNat_mod val 10
  rw [digitLoop, dif_pos hpos, Temp.toUInt8_digit, hmod]

theorem digitLoop_spec {fuel : ℕ} (hval : val.toNat < 10 ^ fuel) (h : temp.Within 0 idx) :
    (digitLoop temp idx val).1.readDown (digitLoop temp idx val).2 = decimal val.toNat ++ temp.readDown idx ∧
      (digitLoop temp idx val).1.Within 0 (idx + fuel) := by
  induction fuel generalizing val temp idx with
  | zero =>
    obtain rfl : val = 0 := UInt64.toNat_inj.mp (Nat.lt_one_iff.mp hval)
    rw [digitLoop_zero]
    exact ⟨rfl, h.mono le_rfl (by omega)⟩
  | succ fuel ih =>
    by_cases hzero : val = 0
    · subst hzero
      rw [digitLoop_zero]
      exact ⟨rfl, h.mono le_rfl (by omega)⟩
    · have hpositive := toNat_pos hzero
      have hquotient : (val / 10).toNat = val.toNat / 10 := UInt64.toNat_div val 10
      rw [Nat.pow_succ] at hval
      have hval' : (val / 10).toNat < 10 ^ fuel := by omega
      have hstored : (temp.store idx (UInt8.ofNat (48 + val.toNat % 10))).Within 0 (idx + 1 : ℕ) := by
        apply (h.mono le_rfl (by omega)).store
        · omega
        · omega
      rw [digitLoop_pos (UInt64.lt_iff_toNat_lt.mpr hpositive)]
      obtain ⟨htext, hwithin⟩ := ih hval' hstored
      rw [Scratch.readDown_store, hquotient] at htext
      refine ⟨?_, hwithin.mono le_rfl (by omega)⟩
      rw [htext, decimal_div hpositive, List.append_assoc]
      rfl

theorem fillTemp_spec (garbage : ℤ → UInt8) (val : UInt64) :
    writeUint garbage val = numeral val.toNat ∧ (fillTemp garbage val).1.Within 0 20 := by
  have hempty : Scratch.Within ⟨garbage, []⟩ 0 (0 : ℕ) := List.forall_mem_nil _
  rw [writeUint, fillTemp]
  by_cases hzero : val = 0
  · subst hzero
    rw [if_pos rfl]
    refine ⟨Scratch.readDown_store ⟨garbage, []⟩ 0 48, ?_⟩
    exact (hempty.mono le_rfl (by decide)).store le_rfl (by decide) 48
  · rw [if_neg hzero, numeral_pos (toNat_pos hzero)]
    obtain ⟨htext, hwithin⟩ := digitLoop_spec (val.toNat_lt.trans (by decide : 2 ^ 64 < 10 ^ 20)) hempty
    exact ⟨htext.trans (List.append_nil _), hwithin⟩

theorem length_writeUint_le (garbage : ℤ → UInt8) (val : UInt64) : (writeUint garbage val).length ≤ 20 := by
  rw [(fillTemp_spec garbage val).1, ← writeUint64_eq_numeral]
  exact length_writeUint64_le val

theorem decimal_formatters_agree (garbage garbage' : ℤ → UInt8) (val : UInt64) :
    (Temp.fill garbage val).text = writeUint garbage' val ∧ writeUint garbage' val = numeral val.toNat ∧
      (∀ text, parseNumeral text = some val.toNat ↔ text = writeUint garbage' val) ∧
      (writeUint garbage' val).length ≤ 20 ∧ (Temp.fill garbage val).scratch.Within 0 24 ∧
      (fillTemp garbage' val).1.Within 0 24 := by
  obtain ⟨htext, hinside⟩ := Temp.fill_spec garbage val
  obtain ⟨hprobe, hwithin⟩ := fillTemp_spec garbage' val
  refine ⟨?_, hprobe, ?_, length_writeUint_le garbage' val, ?_, ?_⟩
  · rw [htext, writeUint64_eq_numeral, hprobe]
  · intro text
    rw [hprobe]
    exact parseNumeral_eq_some_iff
  · exact hinside.within.mono (by decide) le_rfl
  · exact hwithin.mono le_rfl (by decide)

theorem length_writeHex64 (val : UInt64) : (writeHex64 val).length = 18 := rfl

theorem length_registerLine {r : Registers} {field : String × UInt64} (h : field ∈ r.fields) :
    (registerLine field).length = 35 := by
  have hlabels : ∀ label ∈ r.fields.map Prod.fst, (ascii label).length = 14 := by simp [Registers.fields, ascii]
  have hlabel := hlabels field.1 (List.mem_map_of_mem h)
  have hend : (ascii "\",\n").length = 3 := by simp [ascii]
  rw [registerLine, List.length_append, List.length_append, hlabel, hend, length_writeHex64]

theorem length_signalName_le (sig : Int32) : (ascii (signalName sig)).length ≤ 7 := by
  unfold signalName
  split_ifs <;> simp [ascii]

theorem length_reportHead_le (garbage : ℤ → UInt8) (sig : Int32) : (reportHead garbage sig).length ≤ 110 := by
  have hnumber := length_writeUint_le garbage sig.toInt64.toUInt64
  have hname := length_signalName_le sig
  have hopen : (ascii "\x7b\n  \"crash_report\": \x7b\n").length = 22 := by simp [ascii]
  have hsignal : (ascii "    \"signal\": ").length = 14 := by simp [ascii]
  have hlabel : (ascii ",\n    \"signal_name\": \"").length = 22 := by simp [ascii]
  have haddress : (ascii "\",\n    \"fault_address\": \"").length = 25 := by simp [ascii]
  simp only [reportHead, List.length_append, hopen, hsignal, hlabel, haddress]
  omega

theorem length_registerLines (r : Registers) : (r.fields.flatMap registerLine).length = 595 := by
  have hcount : r.fields.length = 17 := rfl
  rw [List.length_flatMap, List.map_congr_left (fun field h => length_registerLine h), List.map_const',
    List.sum_replicate, hcount, smul_eq_mul]

theorem length_reportTail (faultAddr : UInt64) (r : Registers) : (reportTail faultAddr r).length = 681 := by
  have hlabel : (ascii "\",\n    \"registers\": \x7b\n").length = 22 := by simp [ascii]
  have hefl : (ascii "      \"efl\": \"").length = 14 := by simp [ascii]
  have hend : (ascii "\"\n").length = 2 := by simp [ascii]
  have hclose : (ascii "    \x7d\n  \x7d\n\x7d\n").length = 12 := by simp [ascii]
  simp only [reportTail, List.length_append, length_writeHex64, length_registerLines, hlabel, hefl, hend, hclose]

theorem crashReport_fits (garbage : ℤ → UInt8) (sig : Int32) (faultAddr : UInt64) (r : Registers) :
    (crashReport garbage sig faultAddr r).length ≤ bufSize := by
  have hhead := length_reportHead_le garbage sig
  have htail := length_reportTail faultAddr r
  rw [crashReport, List.length_append, htail, bufSize]
  omega

theorem nibble_eq (val : UInt64) {i : ℕ} (hi : i < 64) : nibble val i = val.toNat / 2 ^ i % 2 ^ 4 := by
  have hshift : (UInt64.ofNat i).toNat % 64 = i := by
    rw [UInt64.toNat_ofNat', Nat.mod_mod_of_dvd _ (by decide), Nat.mod_eq_of_lt hi]
  rw [nibble, UInt64.toNat_and, UInt64.toNat_shiftRight, hshift, Nat.shiftRight_eq_div_pow]
  exact Nat.and_two_pow_sub_one_eq_mod _ 4

theorem hexMap_getD {n : ℕ} (hn : n < 16) : (hexMap.getD n 0).toNat = if n < 10 then 48 + n else 87 + n := by
  have hall : ∀ n < 16, (hexMap.getD n 0).toNat = if n < 10 then 48 + n else 87 + n := by decide +kernel
  exact hall n hn

theorem hexMap_inj {m n : ℕ} (hm : m < 16) (hn : n < 16) (h : hexMap.getD m 0 = hexMap.getD n 0) : m = n := by
  have hcode := congrArg UInt8.toNat h
  rw [hexMap_getD hm, hexMap_getD hn] at hcode
  split_ifs at hcode <;> omega

theorem eq_of_nibbles {val other : UInt64} (h : ∀ i ∈ nibbleShifts, nibble val i = nibble other i) : val = other := by
  rw [← UInt64.toNat_inj]
  apply Nat.eq_of_testBit_eq
  intro j
  by_cases hj : j < 64
  · have hshifts : ∀ k < 16, 4 * k ∈ nibbleShifts := by decide
    have hnibble := h (4 * (j / 4)) (hshifts (j / 4) (by omega))
    rw [nibble_eq val (by omega), nibble_eq other (by omega)] at hnibble
    have hbit := congrArg (fun n => n.testBit (j % 4)) hnibble
    have hlow : j % 4 < 4 := Nat.mod_lt j (by decide)
    simpa only [Nat.testBit_mod_two_pow, Nat.testBit_div_two_pow, Nat.mod_add_div, hlow, decide_true,
      Bool.true_and] using hbit
  · have hlarge : 2 ^ 64 ≤ 2 ^ j := Nat.pow_le_pow_right (by decide) (by omega)
    rw [Nat.testBit_lt_two_pow (val.toNat_lt.trans_le hlarge), Nat.testBit_lt_two_pow (other.toNat_lt.trans_le hlarge)]

theorem writeHex64_injective : Function.Injective writeHex64 := by
  intro val other h
  apply eq_of_nibbles
  intro i hi
  have hdigits := List.map_inj_left.mp (List.cons.inj (List.cons.inj h).2).2 i hi
  have hlt : ∀ val : UInt64, nibble val i < 16 := by
    intro val
    have hi' : ∀ i ∈ nibbleShifts, i < 64 := by decide
    rw [nibble_eq val (hi' i hi)]
    exact Nat.mod_lt _ (by decide)
  exact hexMap_inj (hlt val) (hlt other) hdigits

theorem writeHex64_append_inj {val other : UInt64} {rest rest' : Bytes}
    (h : writeHex64 val ++ rest = writeHex64 other ++ rest') : val = other ∧ rest = rest' := by
  obtain ⟨hval, hrest⟩ := List.append_inj h ((length_writeHex64 val).trans (length_writeHex64 other).symm)
  exact ⟨writeHex64_injective hval, hrest⟩

theorem registerLines_inj {l l' : List (String × UInt64)} (hlabels : l.map Prod.fst = l'.map Prod.fst)
    (h : l.flatMap registerLine = l'.flatMap registerLine) : l = l' := by
  induction l generalizing l' with
  | nil => exact (List.map_eq_nil_iff.mp hlabels.symm).symm
  | cons field l ih =>
    cases l' with
    | nil => cases hlabels
    | cons field' l' =>
      obtain ⟨label, val⟩ := field
      obtain ⟨label', val'⟩ := field'
      obtain ⟨rfl, hrest⟩ := List.cons.inj hlabels
      rw [List.flatMap_cons, List.flatMap_cons] at h
      simp only [registerLine, List.append_assoc] at h
      obtain ⟨hval, hlines⟩ := writeHex64_append_inj (List.append_cancel_left h)
      rw [hval, ih hrest (List.append_cancel_left hlines)]

theorem Registers.eq_of_fields {r r' : Registers} (h : r.fields = r'.fields) (hefl : r.efl = r'.efl) : r = r' := by
  cases r
  cases r'
  cases hefl
  simp only [Registers.fields, List.cons.injEq, Prod.mk.injEq, true_and, and_true] at h
  simp only [h]

theorem crashReport_determines {garbage garbage' : ℤ → UInt8} {sig : Int32} {faultAddr faultAddr' : UInt64}
    {r r' : Registers} (h : crashReport garbage sig faultAddr r = crashReport garbage' sig faultAddr' r') :
    faultAddr = faultAddr' ∧ r = r' := by
  have hhead : reportHead garbage sig = reportHead garbage' sig := by
    rw [reportHead, reportHead, (fillTemp_spec garbage _).1, (fillTemp_spec garbage' _).1]
  rw [crashReport, crashReport, hhead] at h
  have htail := List.append_cancel_left h
  rw [reportTail, reportTail] at htail
  obtain ⟨haddress, htail⟩ := writeHex64_append_inj htail
  have hlength := (length_registerLines r).trans (length_registerLines r').symm
  obtain ⟨hlines, htail⟩ := List.append_inj (List.append_cancel_left htail) hlength
  obtain ⟨hefl, -⟩ := writeHex64_append_inj (List.append_cancel_left htail)
  have hlabels : r.fields.map Prod.fst = r'.fields.map Prod.fst := rfl
  exact ⟨haddress, Registers.eq_of_fields (registerLines_inj hlabels hlines) hefl⟩

end SystemLevel.Debug
