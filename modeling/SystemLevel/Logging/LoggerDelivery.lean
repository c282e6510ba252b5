import SystemLevel.Logging.LoggerInvariant
import SystemLevel.Logging.WriteRaw

namespace SystemLevel.Logging.FastLogger

open Runs Wraparound

variable {threads : ℕ} {capacity : Capacity} {q : FastLogger threads} {released : ℕ} {before : List LogMessage}

def Covers (before : List LogMessage) (q : FastLogger threads) : Prop :=
  match q.flusher with
  | .idle _ => before <+: q.handed
  | .loadingTail _ => True
  | .writing _ tail _ => ∃ limit ≤ q.accepted.length, tail = UInt64.ofNat limit ∧ before.length ≤ limit

theorem Covers.accept {q' : FastLogger threads} (h : Covers before q) (hflusher : q'.flusher = q.flusher)
    (hhanded : q'.handed = q.handed) (haccepted : q.accepted <+: q'.accepted) : Covers before q' := by
  unfold Covers at h ⊢
  rw [hflusher, hhanded]
  cases hpoint : q.flusher with
  | idle returned =>
    rw [hpoint] at h
    exact h
  | loadingTail head => trivial
  | writing head tail flushed =>
    rw [hpoint] at h
    obtain ⟨limit, hlimit, htail, hle⟩ := h
    exact ⟨limit, hlimit.trans haccepted.length_le, htail, hle⟩

theorem log_frame (thread : Fin threads) (level : Level) (payload : List UInt8) :
    (q.log thread level payload).flusher = q.flusher ∧ (q.log thread level payload).handed = q.handed ∧
      (q.log thread level payload).accepted = q.accepted := by
  rw [log]
  split
  · exact ⟨rfl, rfl, rfl⟩
  · exact ⟨rfl, rfl, rfl⟩

theorem goOn_frame (thread : Fin threads) (now : UInt64) :
    (q.goOn capacity thread now).flusher = q.flusher ∧ (q.goOn capacity thread now).handed = q.handed ∧
      q.accepted <+: (q.goOn capacity thread now).accepted := by
  rw [goOn]
  split
  · exact ⟨rfl, rfl, List.prefix_refl _⟩
  · exact ⟨rfl, rfl, List.prefix_refl _⟩
  · split_ifs
    · exact ⟨rfl, rfl, List.prefix_refl _⟩
    · exact ⟨rfl, rfl, List.prefix_refl _⟩
  · exact ⟨rfl, rfl, List.prefix_refl _⟩
  · exact ⟨rfl, rfl, List.prefix_append _ _⟩

theorem flush_accepted (q : FastLogger threads) : q.flush.accepted = q.accepted := by
  rw [flush]
  split
  · rfl
  · rfl

theorem goOnFlushing_accepted (q : FastLogger threads) : (q.goOnFlushing capacity).accepted = q.accepted := by
  rw [goOnFlushing]
  split
  · rfl
  · rfl
  · split_ifs
    · rfl
    · rfl

theorem accepted_step (q : FastLogger threads) (action : Action threads) :
    q.accepted <+: (q.step capacity action).accepted := by
  cases action with
  | setLogLevel level => exact List.prefix_refl _
  | log thread level payload => exact (log_frame thread level payload).2.2 ▸ List.prefix_refl _
  | goOn thread now => exact (goOn_frame thread now).2.2
  | flush => exact q.flush_accepted ▸ List.prefix_refl _
  | goOnFlushing => exact q.goOnFlushing_accepted ▸ List.prefix_refl _

theorem covers_flush (hrests : q.flusher.rests = true) : Covers before q.flush := by
  rw [FastLogger.flush]
  cases hpoint : q.flusher with
  | idle returned => trivial
  | loadingTail head =>
    rw [hpoint] at hrests
    cases hrests
  | writing head tail flushed =>
    rw [hpoint] at hrests
    cases hrests

theorem Covers.flush (h : Covers before q) : Covers before q.flush := by
  rw [FastLogger.flush]
  split
  · trivial
  · exact h

theorem Covers.goOnFlushing (h : Covers before q) (hinv : Inv capacity q released) (hbefore : before <+: q.accepted) :
    Covers before (q.goOnFlushing capacity) := by
  rw [FastLogger.goOnFlushing]
  split
  · exact h
  · exact ⟨q.accepted.length, le_rfl, hinv.tail_eq, hbefore.length_le⟩
  · next head tail flushed hpoint =>
    rw [Covers, hpoint] at h
    obtain ⟨limit, hlimit, rfl, hle⟩ := h
    split_ifs with hmore
    · exact ⟨limit, hlimit, rfl, hle⟩
    · have hflusher := hinv.flusher
      rw [FlusherReady, hpoint] at hflusher
      obtain ⟨rfl, -⟩ := hflusher
      rw [ofNat_lt_iff (hinv.ordered.length_le.trans_lt hinv.counted) (hlimit.trans_lt hinv.counted), not_lt] at hmore
      exact List.prefix_of_prefix_length_le hbefore hinv.ordered (hle.trans hmore)

theorem Covers.step (h : Covers before q) (hinv : Inv capacity q released) (hbefore : before <+: q.accepted)
    (action : Action threads) : Covers before (q.step capacity action) := by
  cases action with
  | setLogLevel level => exact h
  | log thread level payload =>
    obtain ⟨hflusher, hhanded, haccepted⟩ := @log_frame _ q thread level payload
    exact h.accept hflusher hhanded (haccepted ▸ List.prefix_refl _)
  | goOn thread now =>
    obtain ⟨hflusher, hhanded, haccepted⟩ := @goOn_frame _ capacity q thread now
    exact h.accept hflusher hhanded haccepted
  | flush => exact h.flush
  | goOnFlushing => exact h.goOnFlushing hinv hbefore

theorem covers_run {before during : List (Action threads)}
    (h : Lawful (fun past action => (run capacity past).Exclusive action) (before ++ Action.flush :: during))
    (hrests : (run capacity before).flusher.rests = true) :
    (run capacity before).accepted <+: (run capacity (before ++ Action.flush :: during)).accepted ∧
      Covers (run capacity before).accepted (run capacity (before ++ Action.flush :: during)) := by
  induction during using List.reverseRecOn with
  | nil =>
    rw [run, run, run_snoc, FastLogger.step]
    exact ⟨flush_accepted _ ▸ List.prefix_refl _, covers_flush hrests⟩
  | append_singleton during action ih =>
    rw [← List.cons_append, ← List.append_assoc] at h ⊢
    obtain ⟨hbefore, hcovers⟩ := ih h.left
    obtain ⟨released, hinv⟩ := inv_run h.left
    rw [run, run, run_snoc]
    exact ⟨hbefore.trans (accepted_step _ action), hcovers.step hinv hbefore action⟩

theorem handed_of_flushed {before during : List (Action threads)}
    (h : Lawful (fun past action => (run capacity past).Exclusive action) (before ++ Action.flush :: during))
    (hbefore : (run capacity before).flusher.rests = true)
    (hafter : (run capacity (before ++ Action.flush :: during)).flusher.rests = true) :
    (run capacity before).accepted <+: (run capacity (before ++ Action.flush :: during)).handed := by
  have hcovers := (covers_run h hbefore).2
  unfold Covers at hcovers
  cases hpoint : (run capacity (before ++ Action.flush :: during)).flusher with
  | idle returned =>
    rw [hpoint] at hcovers
    exact hcovers
  | loadingTail head =>
    rw [hpoint] at hafter
    cases hafter
  | writing head tail flushed =>
    rw [hpoint] at hafter
    cases hafter

theorem accepted_written_once {results : ℕ → ℤ} (hresults : ∀ n, 0 < results n) {actions : List (Action threads)}
    (h : Lawful (fun past action => (run capacity past).Exclusive action) actions) :
    let q := run capacity actions
    (writeEntries results q.handed).bytes = q.handed.flatMap LogMessage.text ∧ q.handed <+: q.accepted ∧
      q.tail - q.head ≤ capacity.value ∧ q.accepted.length ≤ q.handed.length + capacity.value.toNat ∧
      ∀ before during, actions = before ++ Action.flush :: during → (run capacity before).flusher.rests = true →
        q.flusher.rests = true → (run capacity before).accepted <+: q.handed := by
  intro q
  obtain ⟨released, hinv⟩ := inv_run h
  have hbounded := hinv.bounded
  have hhanded := hinv.le_handed
  refine ⟨(wrote_writeEntries (Sticky.of_pos hresults) q.handed).whole hresults, hinv.ordered, ?_, ?_, ?_⟩
  · rw [hinv.tail_eq, hinv.head_eq, UInt64.le_iff_toNat_le,
      toNat_sub_ofNat hinv.le_accepted (by have := hinv.counted; omega)]
    omega
  · change (run capacity actions).accepted.length ≤ (run capacity actions).handed.length + _
    omega
  · rintro before during rfl hbefore hafter
    exact handed_of_flushed h hbefore hafter

def defaultCapacity : Capacity := ⟨4096, rfl⟩

def taking : List (Action 2) :=
  [.log 0 .info [97, 10], .goOn 0 1, .goOn 0 1, .goOn 0 1, .goOn 0 1, .log 1 .warn [98, 10], .goOn 1 2, .goOn 1 2,
    .flush, .goOn 1 2, .goOn 1 2, .goOnFlushing, .goOnFlushing, .goOnFlushing, .goOnFlushing]

theorem taking_written :
    let q := run defaultCapacity taking
    (writeEntries (fun _ => 5) q.handed).bytes = q.handed.flatMap LogMessage.text ∧ q.handed <+: q.accepted ∧
      q.tail - q.head ≤ defaultCapacity.value ∧ q.accepted.length ≤ q.handed.length + defaultCapacity.value.toNat ∧
      ∀ before during, taking = before ++ Action.flush :: during → (run defaultCapacity before).flusher.rests = true →
        q.flusher.rests = true → (run defaultCapacity before).accepted <+: q.handed :=
  accepted_written_once (fun _ => by decide) (by decide +kernel)

def racing : List (Action 2) :=
  [.log 0 .info [97, 10], .log 1 .info [98, 10], .goOn 0 1, .goOn 1 1, .goOn 0 1, .goOn 1 1, .goOn 0 1, .goOn 1 2,
    .goOn 0 1, .goOn 1 2, .flush, .goOnFlushing, .goOnFlushing, .goOnFlushing]

theorem racing_loses_message :
    (run defaultCapacity racing).accepted = [⟨1, .info, [97, 10]⟩, ⟨2, .info, [98, 10]⟩] ∧
      (run defaultCapacity racing).flusher = .idle (some 1) ∧
      (writeEntries (fun _ => 64) (run defaultCapacity racing).handed).bytes =
        LogMessage.text ⟨2, .info, [98, 10]⟩ := by
  decide +kernel

end SystemLevel.Logging.FastLogger
