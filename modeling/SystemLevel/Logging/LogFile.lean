import SystemLevel.Foundations.Framing
import SystemLevel.Foundations.TextLines
import SystemLevel.Logging.DecimalBuffers
import SystemLevel.Logging.LoggerDelivery
import SystemLevel.Logging.PayloadBounds

/-!
What a flush leaves in the file behind its descriptor, and how the messages are read back from there.
-/

namespace SystemLevel.Logging

open Numerals TextLines

def payloadText (args : List Arg) : Bytes := (formatEntry args).written.map Prod.fst

def levels : List Level := [.trace, .debug, .info, .warn, .error, .fatal]

def parseLine (line : Bytes) : Option LogMessage := do
  let line ← expect [91] line
  let timestamp ← parseNumeral (line.takeWhile (· ≠ 93))
  let line ← expect [93, 32] (line.dropWhile (· ≠ 93))
  let level ← levels.find? fun level => level.text = line.take 7
  let text ← expect [32] (line.drop 7)
  if timestamp < 2 ^ 64 then some { timestampNs := UInt64.ofNat timestamp, level, payload := text ++ [10] } else none

def readLog (bytes : Bytes) : Option (List LogMessage) := (lines 10 bytes).1.mapM parseLine

section Reading

variable {message : LogMessage}

def LogMessage.OneLine (message : LogMessage) : Prop := ∃ text, message.payload = text ++ [10] ∧ 10 ∉ text

theorem notMem_numeral {c : UInt8} (hc : digitOf c = none) (n : ℕ) : c ∉ numeral n := by
  intro hmem
  rw [numeral] at hmem
  split_ifs at hmem with hn
  · rw [List.mem_singleton.mp hmem] at hc
    cases hc
  · obtain ⟨d, hd, rfl⟩ := List.mem_map.mp hmem
    have hlt : d < 10 := Nat.digits_lt_base (by decide) (List.mem_reverse.mp hd)
    rw [digitOf_eq_some_iff.mpr ⟨hlt, rfl⟩] at hc
    cases hc

theorem length_text (level : Level) : level.text.length = 7 := by
  cases level <;> rfl

theorem find_level (level : Level) : (levels.find? fun other => other.text = level.text) = some level := by
  cases level <;> decide +kernel

theorem notMem_levelText (level : Level) : 10 ∉ level.text := by
  cases level <;> decide +kernel

def LogMessage.line (message : LogMessage) : Bytes := message.header ++ message.payload.dropLast

theorem LogMessage.OneLine.text_eq (h : message.OneLine) : message.text = message.line ++ [10] := by
  obtain ⟨text, hpayload, -⟩ := h
  rw [LogMessage.text, LogMessage.line, hpayload, List.dropLast_concat, List.append_assoc]

theorem notMem_header (message : LogMessage) : 10 ∉ message.header := by
  have hnumeral : 10 ∉ writeUint64 message.timestampNs := by
    rw [writeUint64_eq_numeral]
    exact notMem_numeral (by decide) _
  have hlevel := notMem_levelText message.level
  simp [LogMessage.header, hnumeral, hlevel]

theorem LogMessage.OneLine.notMem_line (h : message.OneLine) : 10 ∉ message.line := by
  obtain ⟨text, hpayload, htext⟩ := h
  rw [LogMessage.line, hpayload, List.dropLast_concat, List.mem_append, not_or]
  exact ⟨notMem_header message, htext⟩

theorem parseLine_line (h : message.OneLine) : parseLine message.line = some message := by
  obtain ⟨text, hpayload, -⟩ := h
  have hline : message.line =
      [91] ++ (numeral message.timestampNs.toNat ++ 93 :: ([32] ++ (message.level.text ++ ([32] ++ text)))) := by
    rw [LogMessage.line, LogMessage.header, hpayload, List.dropLast_concat, writeUint64_eq_numeral]
    simp
  have hnumeral : 93 ∉ numeral message.timestampNs.toNat := notMem_numeral (by decide) _
  have hlevel := length_text message.level
  have hexpect : ∀ rest : Bytes, expect [93, 32] (93 :: ([32] ++ rest)) = some rest := expect_append [93, 32]
  rw [hline, parseLine]
  simp only [expect_append, takeWhile_ne hnumeral, dropWhile_ne hnumeral, parseNumeral_numeral, hexpect,
    Option.bind_eq_bind, Option.bind_some, List.take_left' hlevel, List.drop_left' hlevel, find_level,
    if_pos message.timestampNs.toNat_lt, UInt64.ofNat_toNat, ← hpayload]

theorem notMem_torn {messages : List LogMessage} (hmessages : ∀ message ∈ messages, message.OneLine) (n : ℕ) :
    10 ∉ Framing.torn LogMessage.text messages n := by
  rcases Framing.torn_cases LogMessage.text messages n with hnil | ⟨message, rest, m, hsplit, hm, htorn⟩
  · rw [hnil]
    exact List.not_mem_nil
  · have hmessage : message.OneLine := by
      apply hmessages
      rw [hsplit]
      exact List.mem_append_right _ List.mem_cons_self
    rw [hmessage.text_eq, List.length_append, List.length_singleton] at hm
    rw [htorn, hmessage.text_eq, List.take_append_of_le_length (by omega)]
    intro hmem
    exact hmessage.notMem_line (List.mem_of_mem_take hmem)

theorem readLog_take {messages : List LogMessage} (hmessages : ∀ message ∈ messages, message.OneLine) (n : ℕ) :
    readLog ((messages.flatMap LogMessage.text).take n) = some (Framing.whole LogMessage.text messages n) := by
  have hwhole : ∀ message ∈ Framing.whole LogMessage.text messages n, message.OneLine := by
    intro message hmem
    exact hmessages message ((Framing.whole_initial LogMessage.text messages n).subset hmem)
  have hlines : (Framing.whole LogMessage.text messages n).flatMap LogMessage.text =
      (Framing.whole LogMessage.text messages n).flatMap fun message => message.line ++ [10] := by
    apply List.flatMap_congr
    intro message hmem
    exact (hwhole message hmem).text_eq
  have hparsed : ((Framing.whole LogMessage.text messages n).map LogMessage.line).mapM parseLine =
      some ((Framing.whole LogMessage.text messages n).map id) := by
    apply mapM_map
    intro message hmem
    exact parseLine_line (hwhole message hmem)
  rw [readLog, Framing.take_flatMap, hlines,
    lines_flatMap (fun message hmem => (hwhole message hmem).notMem_line) (notMem_torn hmessages n), hparsed,
    List.map_id]

end Reading

section Payloads

theorem notMem_writeUint64 (val : UInt64) : 10 ∉ writeUint64 val := by
  rw [writeUint64_eq_numeral]
  exact notMem_numeral (by decide) _

theorem notMem_writeInt64 (val : Int64) : 10 ∉ writeInt64 val := by
  rw [writeInt64]
  split_ifs
  · rw [List.mem_cons, not_or]
    exact ⟨by decide, notMem_writeUint64 _⟩
  · exact notMem_writeUint64 _

theorem hexDigit_ne (n : ℕ) : hexDigits.getD n 0 ≠ 10 := by
  rcases lt_or_ge n 16 with hn | hn
  · interval_cases n <;> decide +kernel
  · rw [List.getD_eq_default hexDigits 0 hn]
    decide

theorem notMem_nibbles (val : UInt64) (shifts : List UInt64) {s : Bool × Bytes} (hs : 10 ∉ s.2) :
    10 ∉ (shifts.foldl (writeNibble val) s).2 := by
  induction shifts generalizing s with
  | nil => exact hs
  | cons shift shifts ih =>
    apply ih
    rw [writeNibble]
    split_ifs
    · rw [List.mem_append, not_or, List.mem_singleton]
      exact ⟨hs, (hexDigit_ne _).symm⟩
    · exact hs

theorem notMem_writeHex64 (val : UInt64) : 10 ∉ writeHex64 val := by
  rw [writeHex64, List.mem_cons, List.mem_cons, not_or, not_or]
  exact ⟨by decide, by decide, notMem_nibbles val _ List.not_mem_nil⟩

theorem notMem_number {arg : Arg} (h : arg.isString = false) : 10 ∉ arg.text := by
  cases arg with
  | cString val => cases h
  | stringView val => cases h
  | signed val => exact notMem_writeInt64 val
  | unsigned val => exact notMem_writeUint64 val
  | pointer val => exact notMem_writeHex64 val
  | floating integerPart fracPart =>
    have hzero (p : Prop) [Decidable p] : 10 ∉ (if p then [48] else [] : Bytes) := by
      split_ifs <;> decide
    simp only [Arg.text, List.mem_append, List.mem_cons, not_or]
    exact ⟨⟨⟨notMem_writeInt64 _, by decide, hzero _⟩, hzero _⟩, notMem_writeInt64 _⟩
  | other => exact List.not_mem_nil

def PlainStrings (args : List Arg) : Prop := ∀ arg ∈ args, arg.isString = true → 10 ∉ arg.text

theorem chars_put (o : Output) (text : Bytes) : (o.put text).written.map Prod.fst = o.written.map Prod.fst ++ text := by
  rw [Output.put, List.map_append, List.zipIdx_map_fst]

theorem notMem_formatArg {o : Output} {arg : Arg} (ho : 10 ∉ o.written.map Prod.fst) (harg : 10 ∉ arg.text) :
    10 ∉ (formatArg o arg).written.map Prod.fst := by
  rw [formatArg]
  split_ifs
  · exact ho
  · rw [chars_put, List.mem_append, not_or]
    exact ⟨ho, fun hmem => harg (List.mem_of_mem_take hmem)⟩
  · rw [chars_put, List.mem_append, not_or]
    exact ⟨ho, harg⟩

theorem notMem_formatArgs {args : List Arg} (h : PlainStrings args) : 10 ∉ (formatArgs args).written.map Prod.fst := by
  induction args using List.reverseRecOn with
  | nil => exact List.not_mem_nil
  | append_singleton args arg ih =>
    rw [formatArgs_snoc]
    apply notMem_formatArg
    · apply ih
      intro earlier hearlier
      exact h earlier (List.mem_append_left _ hearlier)
    · cases hstring : arg.isString with
      | false => exact notMem_number hstring
      | true => exact h arg List.mem_concat_self hstring

theorem payloadText_oneLine {args : List Arg} (h : PlainStrings args) :
    ∃ text, payloadText args = text ++ [10] ∧ 10 ∉ text := by
  refine ⟨_, ?_, notMem_formatArgs h⟩
  rw [payloadText, formatEntry, chars_put]

end Payloads

namespace FastLogger

open Runs

variable {threads : ℕ} {capacity : Capacity} {P : Bytes → Prop} {q : FastLogger threads} {thread : Fin threads}
  {point : ProducerPoint}

def Carries (P : Bytes → Prop) : ProducerPoint → Prop
  | .idle _ => True
  | .loadingTail _ payload | .loadingHead _ _ payload | .writing _ _ payload => P payload
  | .storing _ message => P message.payload

structure Payloads (P : Bytes → Prop) (q : FastLogger threads) : Prop where
  producers : ∀ thread, Carries P (q.producers thread)
  accepted : ∀ message ∈ q.accepted, P message.payload

theorem Payloads.setProducer (h : q.Payloads P) (thread : Fin threads) (hpoint : Carries P point)
    (other : Fin threads) : Carries P ((q.setProducer thread point).producers other) := by
  change Carries P (Function.update q.producers thread point other)
  by_cases hother : other = thread
  · subst hother
    rw [Function.update_self]
    exact hpoint
  · rw [Function.update_of_ne hother]
    exact h.producers other

theorem Payloads.log (h : q.Payloads P) {payload : Bytes} (hpayload : P payload) (thread : Fin threads)
    (level : Level) : (q.log thread level payload).Payloads P := by
  unfold FastLogger.log
  split
  · refine ⟨h.setProducer thread ?_, h.accepted⟩
    split_ifs
    · trivial
    · exact hpayload
  · exact h

theorem Payloads.goOn (h : q.Payloads P) (thread : Fin threads) (now : UInt64) :
    (q.goOn capacity thread now).Payloads P := by
  have hself := h.producers thread
  unfold FastLogger.goOn
  cases hpoint : q.producers thread with
  | idle returned => exact h
  | loadingTail level payload =>
    rw [hpoint] at hself
    exact ⟨h.setProducer thread hself, h.accepted⟩
  | loadingHead tail level payload =>
    rw [hpoint] at hself
    dsimp only
    split_ifs
    · exact ⟨h.setProducer thread trivial, h.accepted⟩
    · exact ⟨h.setProducer thread hself, h.accepted⟩
  | writing tail level payload =>
    rw [hpoint] at hself
    exact ⟨h.setProducer thread hself, h.accepted⟩
  | storing tail message =>
    rw [hpoint] at hself
    refine ⟨h.setProducer thread trivial, ?_⟩
    intro other hother
    rcases List.mem_append.mp hother with hother | hother
    · exact h.accepted other hother
    · rw [List.mem_singleton.mp hother]
      exact hself

theorem flush_producers (q : FastLogger threads) : q.flush.producers = q.producers := by
  rw [FastLogger.flush]
  split <;> rfl

theorem goOnFlushing_producers (q : FastLogger threads) : (q.goOnFlushing capacity).producers = q.producers := by
  rw [FastLogger.goOnFlushing]
  split
  · rfl
  · rfl
  · split_ifs <;> rfl

theorem Payloads.step (h : q.Payloads P) {action : Action threads}
    (haction : ∀ thread level payload, action = .log thread level payload → P payload) :
    (q.step capacity action).Payloads P := by
  cases action with
  | setLogLevel level => exact ⟨h.producers, h.accepted⟩
  | log thread level payload => exact h.log (haction thread level payload rfl) thread level
  | goOn thread now => exact h.goOn thread now
  | flush =>
    constructor
    · rw [FastLogger.step, flush_producers]
      exact h.producers
    · rw [FastLogger.step, flush_accepted]
      exact h.accepted
  | goOnFlushing =>
    constructor
    · rw [FastLogger.step, goOnFlushing_producers]
      exact h.producers
    · rw [FastLogger.step, goOnFlushing_accepted]
      exact h.accepted

theorem payloads_run {actions : List (Action threads)}
    (h : ∀ thread level payload, Action.log thread level payload ∈ actions → P payload) :
    (run capacity actions).Payloads P := by
  induction actions using List.reverseRecOn with
  | nil => exact ⟨fun _ => trivial, fun _ hmem => absurd hmem List.not_mem_nil⟩
  | append_singleton actions action ih =>
    rw [run, run_snoc]
    apply Payloads.step
    · apply ih
      intro thread level payload hmem
      exact h thread level payload (List.mem_append_left _ hmem)
    · rintro thread level payload rfl
      exact h thread level payload List.mem_concat_self

def CallsPlain (actions : List (Action threads)) : Prop :=
  ∀ thread level payload, Action.log thread level payload ∈ actions →
    ∃ args, payload = payloadText args ∧ NumbersFit args ∧ PlainStrings args

theorem handed_oneLine {actions : List (Action threads)}
    (h : Lawful (fun past action => (run capacity past).Exclusive action) actions) (hcalls : CallsPlain actions) :
    ∀ message ∈ (run capacity actions).handed, message.OneLine := by
  obtain ⟨released, hinv⟩ := inv_run h
  have hpayloads : (run capacity actions).Payloads fun payload => ∃ text, payload = text ++ [10] ∧ 10 ∉ text := by
    apply payloads_run
    intro thread level payload hmem
    obtain ⟨args, rfl, -, hplain⟩ := hcalls thread level payload hmem
    exact payloadText_oneLine hplain
  intro message hmem
  exact hpayloads.accepted message (hinv.ordered.subset hmem)

theorem log_file_reads_back {results : ℕ → ℤ} (hsticky : Sticky results) {actions : List (Action threads)}
    (h : Lawful (fun past action => (run capacity past).Exclusive action) actions) (hcalls : CallsPlain actions) :
    let q := run capacity actions
    let file := (writeEntries results q.handed).bytes
    ∃ messages torn, readLog file = some messages ∧ file = messages.flatMap LogMessage.text ++ torn ∧ 10 ∉ torn ∧
      messages <+: q.accepted ∧
      ((∀ n, 0 < results n) → messages = q.handed ∧ torn = [] ∧
        ∀ before during, actions = before ++ Action.flush :: during → (run capacity before).flusher.rests = true →
          q.flusher.rests = true → (run capacity before).accepted <+: messages) := by
  intro q file
  have honeLine : ∀ message ∈ q.handed, message.OneLine := handed_oneLine h hcalls
  obtain ⟨released, hinv⟩ := inv_run h
  have hwrote : Wrote results (q.handed.flatMap LogMessage.text) (writeEntries results q.handed) :=
    wrote_writeEntries hsticky q.handed
  have hfile : file = (q.handed.flatMap LogMessage.text).take file.length :=
    List.prefix_iff_eq_take.mp hwrote.initial
  have hread := readLog_take honeLine file.length
  have hsplit := Framing.take_flatMap LogMessage.text q.handed file.length
  rw [← hfile] at hread hsplit
  refine ⟨_, _, hread, hsplit, notMem_torn honeLine _,
    (Framing.whole_initial LogMessage.text q.handed file.length).trans hinv.ordered, ?_⟩
  intro hpositive
  have hbytes : file = q.handed.flatMap LogMessage.text := hwrote.whole hpositive
  have hwhole : Framing.whole LogMessage.text q.handed file.length = q.handed := by
    apply (Framing.whole_initial LogMessage.text q.handed file.length).eq_of_length_le
    apply List.IsPrefix.length_le
    apply Framing.prefix_whole LogMessage.text List.prefix_rfl
    rw [hbytes]
  refine ⟨hwhole, ?_, ?_⟩
  · rw [hwhole, ← hbytes] at hsplit
    exact List.self_eq_append_right.mp hsplit
  · rintro before during rfl hbefore hafter
    rw [hwhole]
    exact handed_of_flushed h hbefore hafter

def closing : List Arg := [.stringView (ascii "closing "), .signed (-7)]

theorem closing_plain : NumbersFit closing ∧ PlainStrings closing := by
  constructor
  · exact (ptr_le_iff closing).mp (by decide +kernel)
  · intro arg harg hstring
    rcases List.mem_cons.mp harg with rfl | harg
    · decide +kernel
    · rw [List.mem_singleton.mp harg] at hstring
      cases hstring

def closingTwice : List (Action 2) :=
  let first := Fin.last 1
  let second := first.rev
  [.log first .info (payloadText closing), .goOn first 1, .goOn first 1, .goOn first 1, .goOn first 1,
    .log second .warn (payloadText closing), .goOn second 2, .goOn second 2, .goOn second 2, .goOn second 2,
    .flush, .goOnFlushing, .goOnFlushing, .goOnFlushing, .goOnFlushing]

def diskFull (n : ℕ) : ℤ := if n < 9 then 4 else -1

theorem log_file_reads_back_until_full :
    let q := run defaultCapacity closingTwice
    let file := (writeEntries diskFull q.handed).bytes
    ∃ messages torn, readLog file = some messages ∧ file = messages.flatMap LogMessage.text ++ torn ∧ 10 ∉ torn ∧
      messages <+: q.accepted ∧
      ((∀ n, 0 < diskFull n) → messages = q.handed ∧ torn = [] ∧
        ∀ before during, closingTwice = before ++ Action.flush :: during →
          (run defaultCapacity before).flusher.rests = true → q.flusher.rests = true →
          (run defaultCapacity before).accepted <+: messages) := by
  apply log_file_reads_back
  · intro n hn
    unfold diskFull at hn ⊢
    split_ifs at hn ⊢ <;> omega
  · decide +kernel
  · intro thread level payload hmem
    refine ⟨closing, ?_, closing_plain⟩
    simp only [closingTwice, List.mem_cons, Action.log.injEq, List.not_mem_nil, reduceCtorEq, or_false,
      false_or] at hmem
    rcases hmem with ⟨-, -, rfl⟩ | ⟨-, -, rfl⟩
    · rfl
    · rfl

end FastLogger

end SystemLevel.Logging
