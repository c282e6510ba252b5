import SystemLevel.LockFree.MpmcCells

namespace SystemLevel.LockFree.MpmcQueue

open Runs Wraparound

variable {P T : Type} [DecidableEq P]

omit [DecidableEq P] in
theorem construct_protocol {capacity : UInt64} (h : capacity ≤ UInt64.ofNat (2 ^ 63)) (blank : T)
    (memory : ℕ → Cell T) :
    ∃ c, Protocol (construct capacity blank memory : MpmcQueue P T) c := by
  obtain ⟨c, hpos, hlt, heq⟩ := roundUpPow2_eq h
  refine ⟨c, ?_⟩
  refine
    { exponent_pos := hpos
      exponent_lt := hlt
      mask_eq := congrArg (· - 1) heq
      few := Nat.two_pow_pos 63
      ordered := le_rfl
      enqueuePos_eq := rfl
      dequeuePos_eq := rfl
      claims_eq := rfl
      takes_eq := rfl
      cells := fun i hi => ?_
      ready := fun _ => trivial
      filled_once := fun _ _ _ hpos => nomatch hpos
      emptied_once := fun _ _ _ hpos => nomatch hpos
      returned := fun _ hr => nomatch hr }
  have hmod : i % 2 ^ c = i := Nat.mod_eq_of_lt hi
  refine ⟨i, hmod, Nat.zero_le _, hi.trans_le (Nat.le_add_left _ _), Or.inl ⟨?_, Nat.zero_le _⟩⟩
  have hsize : i < (roundUpPow2 capacity).toNat := by rwa [heq, toNat_two_pow hlt]
  rw [Open, hmod]
  change (if i < (roundUpPow2 capacity).toNat then Cell.mk (UInt64.ofNat i) blank else memory i).sequence = _
  rw [if_pos hsize]

variable {q : MpmcQueue P T} {c : ℕ} {p : P}

theorem Protocol.advance (h : q.Protocol c) (spurious : Bool) (hfew : (q.advance p spurious).claims.length < 2 ^ 63) :
    (q.advance p spurious).Protocol c := by
  unfold MpmcQueue.advance at hfew ⊢
  cases hpoint : q.points p with
  | idle returned => exact h
  | loading value pos =>
    simp only [difference_eq_zero]
    split_ifs with hzero
    · exact h.loadSequence hpoint hzero
    · exact h.goTo_unclaimed trivial rfl rfl
    · exact h.goTo_unclaimed trivial rfl rfl
  | reloading value => exact h.loading value
  | claiming value pos =>
    simp only [hpoint] at hfew ⊢
    split_ifs at hfew ⊢ with hexchange
    · apply h.claim hpoint hexchange.1
      rwa [List.length_append] at hfew
    · exact h.loading value
  | writing value pos => exact h.write hpoint
  | publishing pos => exact h.publish hpoint
  | popLoading pos =>
    simp only [difference_eq_zero]
    split_ifs with hzero
    · exact h.popLoadSequence hpoint hzero
    · exact h.goTo_unclaimed trivial rfl rfl
    · exact h.goTo_unclaimed trivial rfl rfl
  | popReloading => exact h.popLoading
  | popClaiming pos =>
    simp only
    split_ifs with hexchange
    · exact h.take hpoint hexchange.1
    · exact h.popLoading
  | reading pos => exact h.read hpoint
  | releasing pos out => exact h.release hpoint

theorem Protocol.step (h : q.Protocol c) (action : Action P T) (hfew : (q.step action).claims.length < 2 ^ 63) :
    (q.step action).Protocol c := by
  cases action with
  | emplace p value =>
    simp only [MpmcQueue.step]
    cases q.points p with
    | idle returned => exact h.loading value
    | _ => exact h
  | pop p =>
    simp only [MpmcQueue.step]
    cases q.points p with
    | idle returned => exact h.popLoading
    | _ => exact h
  | advance p spurious => exact h.advance spurious hfew

theorem advance_claims (q : MpmcQueue P T) (p : P) (spurious : Bool) : q.claims <+: (q.advance p spurious).claims := by
  unfold MpmcQueue.advance
  cases q.points p with
  | claiming value pos =>
    simp only
    split_ifs
    · exact List.prefix_append _ _
    · exact List.prefix_refl _
  | loading value pos =>
    simp only
    split_ifs <;> exact List.prefix_refl _
  | popLoading pos =>
    simp only
    split_ifs <;> exact List.prefix_refl _
  | popClaiming pos =>
    simp only
    split_ifs <;> exact List.prefix_refl _
  | _ => exact List.prefix_refl _

theorem step_claims (q : MpmcQueue P T) (action : Action P T) : q.claims <+: (q.step action).claims := by
  cases action with
  | emplace p value =>
    simp only [MpmcQueue.step]
    cases q.points p <;> exact List.prefix_refl _
  | pop p =>
    simp only [MpmcQueue.step]
    cases q.points p <;> exact List.prefix_refl _
  | advance p spurious => exact q.advance_claims p spurious

theorem protocol_run {capacity : UInt64} (h : capacity ≤ UInt64.ofNat (2 ^ 63)) (blank : T) (memory : ℕ → Cell T)
    {actions : List (Action P T)} (hfew : (run capacity blank memory actions).claims.length < 2 ^ 63) :
    ∃ c, (run capacity blank memory actions).Protocol c := by
  induction actions using List.reverseRecOn with
  | nil => exact construct_protocol h blank memory
  | append_singleton actions action ih =>
    rw [run, run_snoc] at hfew ⊢
    obtain ⟨c, hprotocol⟩ := ih ((step_claims _ action).length_le.trans_lt hfew)
    exact ⟨c, hprotocol.step action hfew⟩

theorem range_ofNat_nodup {n : ℕ} (h : n ≤ 2 ^ 64) : ((List.range n).map UInt64.ofNat).Nodup := by
  apply List.Nodup.map_on _ List.nodup_range
  intro a ha b hb heq
  have ha := List.mem_range.mp ha
  have hb := List.mem_range.mp hb
  exact (ofNat_inj (by omega) (by omega)).mp heq

theorem tickets_in_order {capacity : UInt64} (h : capacity ≤ UInt64.ofNat (2 ^ 63)) (blank : T) (memory : ℕ → Cell T)
    {actions : List (Action P T)} (hfew : (run capacity blank memory actions).claims.length < 2 ^ 63) :
    let q := run capacity blank memory actions
    (q.claims.map Prod.fst).Nodup ∧ q.takes.Nodup ∧ q.takes <+: q.claims.map Prod.fst ∧
      (∀ r ∈ q.returned, r ∈ q.claims) ∧
      (∀ p p' pos pos', (q.points p).fills = some pos → (q.points p').empties = some pos' → q.slot pos ≠ q.slot pos') ∧
      ∀ p pos, q.points p = .reading pos → pos ∈ q.published := by
  obtain ⟨c, hp⟩ := protocol_run h blank memory hfew
  intro q
  have hordered := hp.ordered
  refine ⟨?_, ?_, ?_, hp.returned, fun p p' pos pos' hfills hempties hslot => ?_, fun p pos hreading => ?_⟩
  · rw [hp.claims_eq]
    exact range_ofNat_nodup (by omega)
  · rw [hp.takes_eq]
    exact range_ofNat_nodup (by omega)
  · have hrange : (List.range q.claims.length).take q.takes.length = List.range q.takes.length := by
      rw [List.take_range, min_eq_left hp.ordered]
    rw [hp.takes_eq, hp.claims_eq, ← hrange]
    exact (List.take_prefix _ _).map _
  · obtain ⟨t, ht, rfl, hopen⟩ := (hp.ready p).fills hfills
    obtain ⟨u, hu, rfl, hfull⟩ := (hp.ready p').empties hempties
    rw [hp.slot_ofNat, hp.slot_ofNat] at hslot
    have htlt := hp.ticket_lt ht.le
    exact hopen.not_full hfull hslot hp.exponent_pos (by omega) (hp.ticket_lt (hu.le.trans hp.ordered))
  · have hempties : (q.points p).empties = some pos := by
      rw [hreading]
      rfl
    obtain ⟨t, ht, rfl, hfull⟩ := (hp.ready p).empties hempties
    exact (hp.phase_full (ht.le.trans hp.ordered) hfull).2.2.2

def producersAndConsumer : List (Action ℕ ℕ) :=
  [.emplace 0 7, .emplace 1 8, .advance 0 false, .advance 1 false, .advance 0 true, .advance 0 false, .advance 0 false,
    .advance 1 false, .advance 0 false, .advance 0 false, .pop 2, .advance 2 false, .advance 2 false, .advance 2 false,
    .advance 2 false]

theorem tickets_in_order_of_producersAndConsumer :
    (run 2 0 (fun _ => ⟨0, 0⟩) producersAndConsumer).returned = [(0, 7)] ∧
      ∀ r ∈ (run 2 0 (fun _ => ⟨0, 0⟩) producersAndConsumer).returned,
        r ∈ (run 2 0 (fun _ => ⟨0, 0⟩) producersAndConsumer).claims := by
  refine ⟨by decide +kernel, (tickets_in_order ?_ 0 (fun _ => ⟨0, 0⟩) ?_).2.2.2.1⟩
  · decide
  · decide +kernel

theorem pop_without_emplace :
    let q : MpmcQueue (Fin 1) ℕ :=
      run (UInt64.ofNat (2 ^ 63 + 1)) 0 (fun _ => ⟨1, 9⟩) [.pop 0, .advance 0 false, .advance 0 false, .advance 0 false,
        .advance 0 false]
    q.capacity = 0 ∧ q.claims = [] ∧ q.takes = [0] ∧ q.returned = [(0, 9)] := by
  decide +kernel

end SystemLevel.LockFree.MpmcQueue
