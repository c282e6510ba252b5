import SystemLevel.Logging.FormatArg

namespace SystemLevel.Logging

def Arg.width (arg : Arg) : ℕ := arg.text.length

def widths (args : List Arg) : ℕ := (args.map Arg.width).sum

theorem widths_snoc (args : List Arg) (arg : Arg) : widths (args ++ [arg]) = widths args + arg.width := by
  simp [widths]

/-- Every number that begins before the 254 bytes for the arguments are used up leaves one of 256 for the newline. -/
def NumbersFit (args : List Arg) : Prop :=
  ∀ before arg after, args = before ++ arg :: after → arg.isString = false → widths before < 254 →
    widths before + arg.width ≤ 255

theorem numbersFit_snoc (args : List Arg) (arg : Arg) :
    NumbersFit (args ++ [arg]) ↔
      NumbersFit args ∧ (arg.isString = false → widths args < 254 → widths args + arg.width ≤ 255) := by
  constructor
  · intro hfit
    refine ⟨fun before number after hargs => ?_, hfit args arg [] rfl⟩
    apply hfit before number (after ++ [arg])
    rw [hargs, List.append_assoc]
    rfl
  · rintro ⟨hfit, hlast⟩ before number after hargs
    rcases List.eq_nil_or_concat after with rfl | ⟨after, last, rfl⟩
    · obtain ⟨rfl, hnumber⟩ := List.append_inj' hargs rfl
      obtain rfl := List.head_eq_of_cons_eq hnumber
      exact hlast
    · rw [List.concat_eq_append, ← List.cons_append, ← List.append_assoc] at hargs
      exact hfit before number after (List.append_inj' hargs rfl).1

theorem formatArgs_snoc (args : List Arg) (arg : Arg) :
    formatArgs (args ++ [arg]) = formatArg (formatArgs args) arg := by
  rw [formatArgs, List.foldl_append]
  rfl

theorem ptr_formatArg (o : Output) (arg : Arg) :
    (formatArg o arg).ptr =
      if 254 ≤ o.ptr then o.ptr
      else if arg.isString then min (o.ptr + arg.width) 254 else o.ptr + arg.width := by
  change (if 254 ≤ o.ptr then o else _).ptr = _
  split_ifs with hfull hstring
  · rfl
  · change o.ptr + (arg.text.take (min arg.text.length (254 - o.ptr))).length = _
    rw [List.length_take, Arg.width]
    omega
  · rfl

theorem ptr_formatArgs (args : List Arg) :
    (widths args < 254 → (formatArgs args).ptr = widths args) ∧ (254 ≤ widths args → 254 ≤ (formatArgs args).ptr) := by
  induction args using List.reverseRecOn with
  | nil => exact ⟨fun _ => rfl, fun h => absurd h (by decide)⟩
  | append_singleton args arg ih =>
    rw [formatArgs_snoc, ptr_formatArg, widths_snoc]
    split_ifs <;> omega

theorem ptr_le_iff (args : List Arg) : (formatArgs args).ptr ≤ 255 ↔ NumbersFit args := by
  induction args using List.reverseRecOn with
  | nil =>
    refine iff_of_true (Nat.zero_le _) fun before arg after hargs => ?_
    exact absurd hargs.symm (List.append_ne_nil_of_right_ne_nil _ (List.cons_ne_nil _ _))
  | append_singleton args arg ih =>
    obtain ⟨hexact, hfull⟩ := ptr_formatArgs args
    rw [formatArgs_snoc, ptr_formatArg, numbersFit_snoc, ← ih]
    split_ifs with hused hstring
    · refine (and_iff_left_of_imp fun _ _ hroom => ?_).symm
      rw [hexact hroom] at hused
      exact absurd hroom (not_lt.mpr hused)
    · exact iff_of_true (by omega) ⟨by omega, fun hnumber => absurd hstring (by rw [hnumber]; exact Bool.false_ne_true)⟩
    · have hroom : widths args < 254 := not_le.mp fun hlong => hused (hfull hlong)
      rw [hexact hroom]
      refine ⟨fun hfit => ⟨by omega, fun _ _ => hfit⟩, fun hfit => ?_⟩
      exact hfit.2 (Bool.eq_false_of_not_eq_true hstring) hroom

theorem width_number_le {arg : Arg} (harg : arg.isString = false) : arg.width ≤ 45 := by
  cases arg with
  | cString val => cases harg
  | stringView val => cases harg
  | signed val => exact (length_writeInt64_le val).trans (by decide)
  | unsigned val => exact (length_writeUint64_le val).trans (by decide)
  | pointer val => exact (length_writeHex64_le val).trans (by decide)
  | floating integerPart fracPart =>
    have hinteger := length_writeInt64_le integerPart
    have hfrac := length_writeInt64_le fracPart
    have hpad (c : Prop) [Decidable c] : (if c then [(48 : UInt8)] else []).length ≤ 1 := by split_ifs <;> simp
    have hhundred := hpad (fracPart < 100)
    have hten := hpad (fracPart < 10)
    simp only [Arg.width, Arg.text, List.length_append, List.length_cons]
    omega
  | other => exact Nat.zero_le _

theorem ptr_formatArgs_lt (args : List Arg) : (formatArgs args).ptr < 300 := by
  induction args using List.reverseRecOn with
  | nil => decide
  | append_singleton args arg ih =>
    rw [formatArgs_snoc, ptr_formatArg]
    split_ifs with hused hstring
    · exact ih
    · omega
    · have hwidth := width_number_le (Bool.eq_false_of_not_eq_true hstring)
      omega

def Output.Filled (o : Output) : Prop := o.written.map Prod.snd = List.range o.ptr

theorem Output.Filled.put {o : Output} (h : o.Filled) (text : Bytes) : (o.put text).Filled := by
  unfold Filled at *
  change (o.written ++ text.zipIdx o.ptr).map Prod.snd = List.range (o.ptr + text.length)
  rw [List.map_append, h, List.zipIdx_map_snd, List.range_add, List.range'_eq_map_range]

theorem filled_formatArgs (args : List Arg) : (formatArgs args).Filled := by
  induction args using List.reverseRecOn with
  | nil => rfl
  | append_singleton args arg ih =>
    rw [formatArgs_snoc]
    unfold formatArg
    dsimp only
    split_ifs
    · exact ih
    · exact ih.put _
    · exact ih.put _

theorem Output.Filled.written_lt_iff {o : Output} (h : o.Filled) (n : ℕ) :
    (∀ w ∈ o.written, w.2 < n) ↔ o.ptr ≤ n := by
  have hplaces : (∀ w ∈ o.written, w.2 < n) ↔ ∀ i ∈ o.written.map Prod.snd, i < n := by
    rw [List.forall_mem_map]
  rw [hplaces, h]
  simp only [List.mem_range]
  constructor
  · intro hall
    by_contra hlong
    exact absurd (hall n (not_le.mp hlong)) (lt_irrefl n)
  · intro hle i hi
    exact hi.trans_le hle

theorem formatting_stays_inside_iff (args : List Arg) :
    ((∀ w ∈ (formatEntry args).written, w.2 < maxPayloadSize) ∧ (entryLength args).toNat ≤ maxPayloadSize) ↔
      NumbersFit args := by
  have hlt := ptr_formatArgs_lt args
  have hptr : (formatEntry args).ptr = (formatArgs args).ptr + 1 := rfl
  have hlength : (entryLength args).toNat = (formatArgs args).ptr + 1 := by
    rw [entryLength, UInt16.toNat_ofNat', hptr, Nat.mod_eq_of_lt (by omega)]
  have hfilled : (formatEntry args).Filled := (filled_formatArgs args).put [10]
  rw [hfilled.written_lt_iff, hptr, hlength, ← ptr_le_iff, maxPayloadSize]
  omega

theorem long_number_overflows :
    let args := [Arg.stringView (List.replicate 253 97), Arg.unsigned 18446744073709551615]
    (10, 273) ∈ (formatEntry args).written ∧ entryLength args = 274 := by
  decide +kernel

end SystemLevel.Logging
