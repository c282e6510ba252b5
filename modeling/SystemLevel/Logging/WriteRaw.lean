import SystemLevel.Logging.FormatArg

/-!
`write_raw`, and what the entries that a flush hands to it leave in the file.
-/

namespace SystemLevel.Logging

structure Descriptor where
  bytes : Bytes := []
  calls : ℕ := 0
  deriving DecidableEq, Repr

section Writing

/- `results n` is what the call number `n` of `::write` returns. -/
variable (results : ℕ → ℤ)

/-- The loop of `write_raw`. Each round but the last writes at least one byte. -/
def writeLoop : ℕ → Descriptor → Bytes → Descriptor
  | 0, fd, _ => fd
  | fuel + 1, fd, text =>
    if text = [] then fd
    else
      let written := results fd.calls
      if written ≤ 0 then { fd with calls := fd.calls + 1 }
      else
        writeLoop fuel { bytes := fd.bytes ++ text.take written.toNat, calls := fd.calls + 1 }
          (text.drop written.toNat)

def writeRaw (fd : Descriptor) (text : Bytes) : Descriptor := writeLoop results text.length fd text

def writeEntry (fd : Descriptor) (message : LogMessage) : Descriptor :=
  writeRaw results (writeRaw results fd message.header) message.payload

def writeEntries (messages : List LogMessage) : Descriptor := messages.foldl (writeEntry results) {}

end Writing

def LogMessage.text (message : LogMessage) : Bytes := message.header ++ message.payload

def Sticky (results : ℕ → ℤ) : Prop := ∀ n, results n ≤ 0 → results (n + 1) ≤ 0

def Wrote (results : ℕ → ℤ) (text : Bytes) (fd : Descriptor) : Prop :=
  fd.bytes = text ∨ fd.bytes <+: text ∧ ∃ n < fd.calls, results n ≤ 0

section Writing

variable {results : ℕ → ℤ} {fd : Descriptor} {before text : Bytes}

theorem Sticky.fails (h : Sticky results) {n m : ℕ} (hn : results n ≤ 0) (hle : n ≤ m) : results m ≤ 0 := by
  induction m, hle using Nat.le_induction with
  | base => exact hn
  | succ m _ ih => exact h m ih

theorem Sticky.of_pos (h : ∀ n, 0 < results n) : Sticky results := fun n hn => absurd (h n) hn.not_gt

theorem writeLoop_fails (hfails : results fd.calls ≤ 0) (fuel : ℕ) :
    (writeLoop results fuel fd text).bytes = fd.bytes ∧ fd.calls ≤ (writeLoop results fuel fd text).calls := by
  cases fuel with
  | zero => exact ⟨rfl, le_rfl⟩
  | succ fuel =>
    rw [writeLoop]
    by_cases htext : text = []
    · rw [if_pos htext]
      exact ⟨rfl, le_rfl⟩
    · rw [if_neg htext]
      dsimp only
      rw [if_pos hfails]
      exact ⟨rfl, Nat.le_succ _⟩

theorem wrote_writeLoop {fuel : ℕ} (hfuel : text.length ≤ fuel) (hbytes : fd.bytes = before) :
    Wrote results (before ++ text) (writeLoop results fuel fd text) := by
  induction fuel generalizing fd before text with
  | zero =>
    have hnil : text = [] := List.eq_nil_of_length_eq_zero (Nat.le_zero.mp hfuel)
    rw [hnil, List.append_nil]
    exact Or.inl hbytes
  | succ fuel ih =>
    rw [writeLoop]
    by_cases htext : text = []
    · rw [if_pos htext, htext, List.append_nil]
      exact Or.inl hbytes
    · rw [if_neg htext]
      dsimp only
      by_cases hfails : results fd.calls ≤ 0
      · rw [if_pos hfails]
        exact Or.inr ⟨hbytes ▸ List.prefix_append _ _, fd.calls, Nat.lt_succ_self _, hfails⟩
      · rw [if_neg hfails]
        have hpositive : 0 < (results fd.calls).toNat := by omega
        have hlength : (text.drop (results fd.calls).toNat).length ≤ fuel := by
          have := List.length_pos_iff.mpr htext
          rw [List.length_drop]
          omega
        nth_rewrite 1 [← List.take_append_drop (results fd.calls).toNat text]
        rw [← List.append_assoc]
        apply ih hlength
        rw [hbytes]

theorem Wrote.writeRaw (h : Wrote results before fd) (hsticky : Sticky results) (text : Bytes) :
    Wrote results (before ++ text) (writeRaw results fd text) := by
  rcases h with hbytes | ⟨hbytes, n, hn, hfails⟩
  · exact wrote_writeLoop le_rfl hbytes
  · obtain ⟨hsame, hcalls⟩ := writeLoop_fails (hsticky.fails hfails hn.le) text.length
    refine Or.inr ⟨?_, n, hn.trans_le hcalls, hfails⟩
    rw [Logging.writeRaw, hsame]
    exact hbytes.trans (List.prefix_append _ _)

theorem wrote_writeEntries (hsticky : Sticky results) (messages : List LogMessage) :
    Wrote results (messages.flatMap LogMessage.text) (writeEntries results messages) := by
  induction messages using List.reverseRecOn with
  | nil => exact Or.inl rfl
  | append_singleton messages message ih =>
    rw [writeEntries, List.foldl_append, List.flatMap_append, List.flatMap_singleton, LogMessage.text,
      ← List.append_assoc]
    exact (ih.writeRaw hsticky message.header).writeRaw hsticky message.payload

theorem Wrote.whole (h : Wrote results text fd) (hpositive : ∀ n, 0 < results n) : fd.bytes = text := by
  rcases h with hbytes | ⟨-, n, -, hfails⟩
  · exact hbytes
  · exact absurd (hpositive n) hfails.not_gt

theorem Wrote.initial (h : Wrote results text fd) : fd.bytes <+: text := by
  rcases h with hbytes | ⟨hbytes, -⟩
  · rw [hbytes]
  · exact hbytes

end Writing

end SystemLevel.Logging
