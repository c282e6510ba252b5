import SystemLevel.LockFree.SpscInvariant

namespace SystemLevel.LockFree.SpscQueue

open Runs

variable {T : Type} {c : Fin 64}

theorem Fifo.step {q : SpscQueue T c} {cachedHead cachedTail : ℕ} (h : q.Fifo cachedHead cachedTail)
    (action : Action T) : ∃ cachedHead cachedTail, (q.step action).Fifo cachedHead cachedTail := by
  cases action with
  | emplace value => exact ⟨_, _, h.emplace value⟩
  | produce =>
    cases hproducer : q.producer with
    | idle returned =>
      simp only [SpscQueue.step, produce, hproducer]
      exact ⟨_, _, h⟩
    | reloading tail value => exact ⟨_, _, h.reloadHead hproducer⟩
    | writing tail value => exact ⟨_, _, h.write hproducer⟩
    | publishing tail value => exact ⟨_, _, h.publishTail hproducer⟩
  | pop => exact ⟨_, _, h.pop⟩
  | consume =>
    cases hconsumer : q.consumer with
    | idle returned =>
      simp only [SpscQueue.step, consume, hconsumer]
      exact ⟨_, _, h⟩
    | reloading head => exact ⟨_, _, h.reloadTail hconsumer⟩
    | reading head => exact ⟨_, _, h.read hconsumer⟩
    | publishing head out => exact ⟨_, _, h.publishHead hconsumer⟩

theorem fifo_run (c : Fin 64) (actions : List (Action T)) :
    ∃ cachedHead cachedTail, (run c actions).Fifo cachedHead cachedTail := by
  induction actions using List.reverseRecOn with
  | nil =>
    refine ⟨0, 0, ?_⟩
    exact
      { tail_eq := rfl
        head_eq := rfl
        cachedHead_eq := rfl
        cachedTail_eq := rfl
        cachedHead_le := le_rfl
        le_cachedTail := le_rfl
        cachedTail_le := le_rfl
        bounded := Nat.zero_le _
        ordered := List.nil_prefix
        stored := fun k _ hk => absurd hk (Nat.not_lt_zero k)
        producer := trivial
        consumer := trivial }
  | append_singleton actions action ih =>
    obtain ⟨cachedHead, cachedTail, h⟩ := ih
    rw [run, run_snoc]
    exact h.step action

theorem pop_producer (q : SpscQueue T c) : q.pop.producer = q.producer := by
  unfold pop
  cases q.consumer with
  | idle returned => simp only; split_ifs <;> rfl
  | _ => rfl

theorem consume_producer (q : SpscQueue T c) : q.consume.producer = q.producer := by
  unfold consume
  cases q.consumer with
  | reloading head => simp only; split_ifs <;> rfl
  | _ => rfl

theorem emplace_consumer (q : SpscQueue T c) (value : T) : (q.emplace value).consumer = q.consumer := by
  unfold emplace
  cases q.producer with
  | idle returned => simp only; split_ifs <;> rfl
  | _ => rfl

theorem produce_consumer (q : SpscQueue T c) : q.produce.consumer = q.consumer := by
  unfold produce
  cases q.producer with
  | reloading tail value => simp only; split_ifs <;> rfl
  | _ => rfl

theorem emplace_refused {q : SpscQueue T c} {action : Action T} (hbefore : q.producer ≠ .idle (some false))
    (hafter : (q.step action).producer = .idle (some false)) :
    ∃ tail value, q.producer = .reloading tail value ∧ capacity c ≤ tail - q.head := by
  cases action with
  | pop => exact absurd (q.pop_producer.symm.trans hafter) hbefore
  | consume => exact absurd (q.consume_producer.symm.trans hafter) hbefore
  | emplace value =>
    simp only [step, emplace] at hafter
    cases hproducer : q.producer with
    | idle returned =>
      simp only [hproducer] at hafter
      split_ifs at hafter
    | _ => simp only [hproducer] at hafter; cases hafter
  | produce =>
    simp only [step, produce] at hafter
    cases hproducer : q.producer with
    | idle returned =>
      simp only [hproducer] at hafter
      exact absurd (hproducer.trans hafter) hbefore
    | reloading tail value =>
      simp only [hproducer] at hafter
      refine ⟨tail, value, rfl, ?_⟩
      by_contra hcap
      rw [if_neg hcap] at hafter
      cases hafter
    | writing tail value => simp only [hproducer] at hafter; cases hafter
    | publishing tail value => simp only [hproducer] at hafter; cases hafter

theorem pop_refused {q : SpscQueue T c} {action : Action T} (hbefore : q.consumer ≠ .idle (some false))
    (hafter : (q.step action).consumer = .idle (some false)) :
    ∃ head, q.consumer = .reloading head ∧ head = q.tail := by
  cases action with
  | emplace value => exact absurd ((q.emplace_consumer value).symm.trans hafter) hbefore
  | produce => exact absurd (q.produce_consumer.symm.trans hafter) hbefore
  | pop =>
    simp only [step, pop] at hafter
    cases hconsumer : q.consumer with
    | idle returned =>
      simp only [hconsumer] at hafter
      split_ifs at hafter
    | _ => simp only [hconsumer] at hafter; cases hafter
  | consume =>
    simp only [step, consume] at hafter
    cases hconsumer : q.consumer with
    | idle returned =>
      simp only [hconsumer] at hafter
      exact absurd (hconsumer.trans hafter) hbefore
    | reloading head =>
      simp only [hconsumer] at hafter
      refine ⟨head, rfl, ?_⟩
      by_contra hne
      rw [if_neg hne] at hafter
      cases hafter
    | reading head => simp only [hconsumer] at hafter; cases hafter
    | publishing head out => simp only [hconsumer] at hafter; cases hafter

theorem bounded_fifo (c : Fin 64) (actions : List (Action T)) :
    let q := run c actions
    q.popped <+: q.pushed.map some ∧ q.pushed.length ≤ q.popped.length + 2 ^ c.val ∧
      (∀ tail value, q.producer = .writing tail value →
        ∀ k, q.popped.length ≤ k → k < q.pushed.length → tail &&& mask c ≠ slot c k) ∧
      (∀ action, q.producer ≠ .idle (some false) → (q.step action).producer = .idle (some false) →
        q.pushed.length = q.popped.length + 2 ^ c.val) ∧
      ∀ action, q.consumer ≠ .idle (some false) → (q.step action).consumer = .idle (some false) →
        q.pushed.length = q.popped.length := by
  obtain ⟨cachedHead, cachedTail, h⟩ := fifo_run c actions
  have hcached := h.cachedHead_le
  have hbounded := h.bounded
  refine ⟨h.ordered, by omega, fun tail value hproducer k hle hlt => ?_, fun action hbefore hafter => ?_,
    fun action hbefore hafter => ?_⟩
  · have hready := h.producer
    rw [ProducerReady, hproducer] at hready
    have hslot : tail &&& mask c = slot c (run c actions).pushed.length := by rw [hready.1, h.tail_eq, slot]
    rw [hslot]
    exact (slot_ne hlt (by omega)).symm
  · obtain ⟨tail, value, hproducer, hcap⟩ := emplace_refused hbefore hafter
    exact (h.full_iff hproducer).mp hcap
  · obtain ⟨head, hconsumer, heq⟩ := pop_refused hbefore hafter
    exact ((h.empty_iff hconsumer).mp heq).symm

end SystemLevel.LockFree.SpscQueue
