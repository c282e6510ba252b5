import SystemLevel.Foundations.Wraparound
import SystemLevel.LockFree.SpscQueue

namespace SystemLevel.LockFree.SpscQueue

open Runs Wraparound

variable {T : Type} {c : Fin 64}

def slot (c : Fin 64) (k : ℕ) : UInt64 := UInt64.ofNat k &&& mask c

theorem slot_ne {k n : ℕ} (hlt : k < n) (hnear : n < k + 2 ^ c.val) : slot c k ≠ slot c n := by
  intro heq
  have hmod := congrArg UInt64.toNat heq
  rw [slot, slot, mask, capacity, toNat_and_mask c.isLt, toNat_and_mask c.isLt] at hmod
  exact mod_ne hlt hnear hmod

theorem capacity_le_iff {a b : ℕ} (h : a ≤ b) (hnear : b ≤ a + 2 ^ c.val) :
    capacity c ≤ UInt64.ofNat b - UInt64.ofNat a ↔ b = a + 2 ^ c.val :=
  two_pow_le_sub_iff c.isLt h hnear

def taken (q : SpscQueue T c) : ℕ :=
  match q.consumer with
  | .publishing _ _ => q.popped.length + 1
  | _ => q.popped.length

theorem popped_le_taken (q : SpscQueue T c) : q.popped.length ≤ q.taken := by
  unfold taken
  cases q.consumer with
  | publishing head out => exact Nat.le_succ _
  | _ => exact le_rfl

def ProducerReady (q : SpscQueue T c) (room : ℕ) : Prop :=
  match q.producer with
  | .idle _ => True
  | .reloading tail _ => tail = q.tail
  | .writing tail _ => tail = q.tail ∧ q.pushed.length < room
  | .publishing tail value =>
    tail = q.tail ∧ q.pushed.length < room ∧ q.storage (slot c q.pushed.length) = some value

def ConsumerReady (q : SpscQueue T c) (seen : ℕ) : Prop :=
  match q.consumer with
  | .idle _ => True
  | .reloading head => head = q.head
  | .reading head => head = q.head ∧ q.popped.length < seen
  | .publishing head out => head = q.head ∧ q.popped.length < seen ∧ out = q.pushed[q.popped.length]?

theorem ConsumerReady.mono {q q' : SpscQueue T c} {seen : ℕ} (h : q.ConsumerReady seen) (hseen : seen ≤ q.pushed.length)
    (hpoint : q'.consumer = q.consumer) (hhead : q'.head = q.head) (hpopped : q'.popped = q.popped)
    (hpushed : q.pushed <+: q'.pushed) : q'.ConsumerReady seen := by
  obtain ⟨later, hlater⟩ := hpushed
  unfold ConsumerReady at h ⊢
  rw [hpoint, hhead, hpopped, ← hlater]
  cases hconsumer : q.consumer with
  | idle returned => trivial
  | reloading head =>
    rw [hconsumer] at h
    exact h
  | reading head =>
    rw [hconsumer] at h
    exact h
  | publishing head out =>
    rw [hconsumer] at h
    refine ⟨h.1, h.2.1, ?_⟩
    rw [List.getElem?_append_left (h.2.1.trans_le hseen)]
    exact h.2.2

structure Fifo (q : SpscQueue T c) (cachedHead cachedTail : ℕ) : Prop where
  tail_eq : q.tail = UInt64.ofNat q.pushed.length
  head_eq : q.head = UInt64.ofNat q.popped.length
  cachedHead_eq : q.cachedHead = UInt64.ofNat cachedHead
  cachedTail_eq : q.cachedTail = UInt64.ofNat cachedTail
  cachedHead_le : cachedHead ≤ q.popped.length
  le_cachedTail : q.popped.length ≤ cachedTail
  cachedTail_le : cachedTail ≤ q.pushed.length
  bounded : q.pushed.length ≤ cachedHead + 2 ^ c.val
  ordered : q.popped <+: q.pushed.map some
  stored : ∀ k, q.taken ≤ k → k < q.pushed.length → q.storage (slot c k) = q.pushed[k]?
  producer : q.ProducerReady (cachedHead + 2 ^ c.val)
  consumer : q.ConsumerReady cachedTail

namespace Fifo

variable {q : SpscQueue T c} {cachedHead cachedTail : ℕ} (h : q.Fifo cachedHead cachedTail)

include h

theorem emplace (value : T) : (q.emplace value).Fifo cachedHead cachedTail := by
  unfold SpscQueue.emplace
  cases hproducer : q.producer with
  | idle returned =>
    have hle := h.cachedHead_le.trans (h.le_cachedTail.trans h.cachedTail_le)
    have hfull := capacity_le_iff hle h.bounded
    rw [← h.tail_eq, ← h.cachedHead_eq] at hfull
    simp only
    split_ifs with hcap
    · exact { h with producer := rfl }
    · have hlt : q.pushed.length < cachedHead + 2 ^ c.val := h.bounded.lt_of_ne (mt hfull.mpr hcap)
      exact { h with producer := ⟨rfl, hlt⟩ }
  | reloading tail value => exact h
  | writing tail value => exact h
  | publishing tail value => exact h

theorem head_le : q.popped.length ≤ q.pushed.length := h.le_cachedTail.trans h.cachedTail_le

theorem full_iff {tail : UInt64} {value : T} (hproducer : q.producer = .reloading tail value) :
    capacity c ≤ tail - q.head ↔ q.pushed.length = q.popped.length + 2 ^ c.val := by
  have hready := h.producer
  rw [ProducerReady, hproducer] at hready
  have hcached := h.cachedHead_le
  have hbounded := h.bounded
  rw [hready, h.tail_eq, h.head_eq]
  exact capacity_le_iff h.head_le (by omega)

theorem reloadHead {tail : UInt64} {value : T} (hproducer : q.producer = .reloading tail value) :
    q.produce.Fifo q.popped.length cachedTail := by
  have hfull := h.full_iff hproducer
  have hready := h.producer
  have hcached := h.cachedHead_le
  have hbounded := h.bounded
  have hroom : q.pushed.length ≤ q.popped.length + 2 ^ c.val := by omega
  rw [ProducerReady, hproducer] at hready
  simp only [produce, hproducer]
  split_ifs with hcap
  · exact { h with cachedHead_eq := h.head_eq, cachedHead_le := le_rfl, bounded := hroom, producer := trivial }
  · have hlt := hroom.lt_of_ne (mt hfull.mpr hcap)
    exact { h with cachedHead_eq := h.head_eq, cachedHead_le := le_rfl, bounded := hroom, producer := ⟨hready, hlt⟩ }

theorem write {tail : UInt64} {value : T} (hproducer : q.producer = .writing tail value) :
    q.produce.Fifo cachedHead cachedTail := by
  have hready := h.producer
  have hcached := h.cachedHead_le
  rw [ProducerReady, hproducer] at hready
  obtain ⟨htail, hlt⟩ := hready
  have hslot : tail &&& mask c = slot c q.pushed.length := by rw [htail, h.tail_eq, slot]
  simp only [produce, hproducer, hslot]
  refine { h with stored := fun k htaken hk => ?_, producer := ⟨htail, hlt, Function.update_self _ _ _⟩ }
  have hle := q.popped_le_taken.trans htaken
  change k < q.pushed.length at hk
  change Function.update q.storage _ _ (slot c k) = q.pushed[k]?
  rw [Function.update_of_ne (slot_ne hk (by omega))]
  exact h.stored k htaken hk

theorem publishTail {tail : UInt64} {value : T} (hproducer : q.producer = .publishing tail value) :
    q.produce.Fifo cachedHead cachedTail := by
  have hready := h.producer
  rw [ProducerReady, hproducer] at hready
  obtain ⟨htail, hlt, hstored⟩ := hready
  have hlength : (q.pushed ++ [value]).length = q.pushed.length + 1 := List.length_append
  simp only [produce, hproducer]
  refine
    { h with
      tail_eq := ?_
      cachedTail_le := ?_
      bounded := ?_
      ordered := ?_
      stored := fun k htaken hk => ?_
      producer := trivial
      consumer := h.consumer.mono h.cachedTail_le rfl rfl rfl (List.prefix_append _ _) }
  · change tail + 1 = UInt64.ofNat (q.pushed ++ [value]).length
    rw [htail, h.tail_eq, ofNat_length_concat]
  · change _ ≤ (q.pushed ++ [value]).length
    rw [hlength]
    exact h.cachedTail_le.trans (Nat.le_succ _)
  · change (q.pushed ++ [value]).length ≤ _
    rw [hlength]
    exact hlt
  · change _ <+: (q.pushed ++ [value]).map some
    rw [List.map_append]
    exact h.ordered.trans (List.prefix_append _ _)
  · change k < (q.pushed ++ [value]).length at hk
    change q.storage (slot c k) = (q.pushed ++ [value])[k]?
    rw [hlength] at hk
    rcases Nat.lt_succ_iff_lt_or_eq.mp hk with hk | rfl
    · rw [List.getElem?_append_left hk]
      exact h.stored k htaken hk
    · rw [List.getElem?_concat_length]
      exact hstored

theorem pop : q.pop.Fifo cachedHead cachedTail := by
  unfold SpscQueue.pop
  cases hconsumer : q.consumer with
  | idle returned =>
    have htaken : q.taken = q.popped.length := by rw [taken, hconsumer]
    have hstored := h.stored
    rw [htaken] at hstored
    simp only
    split_ifs with hempty
    · exact { h with stored := hstored, consumer := rfl }
    · have hne : q.popped.length ≠ cachedTail := by
        intro heq
        rw [h.head_eq, h.cachedTail_eq, heq] at hempty
        exact hempty rfl
      exact { h with stored := hstored, consumer := ⟨rfl, h.le_cachedTail.lt_of_ne hne⟩ }
  | reloading head => exact h
  | reading head => exact h
  | publishing head out => exact h

theorem empty_iff {head : UInt64} (hconsumer : q.consumer = .reloading head) :
    head = q.tail ↔ q.popped.length = q.pushed.length := by
  have hready := h.consumer
  rw [ConsumerReady, hconsumer] at hready
  have hpow : 2 ^ c.val < 2 ^ 64 := Nat.pow_lt_pow_right (by decide) c.isLt
  have hcached := h.cachedHead_le
  have hbounded := h.bounded
  rw [hready, h.tail_eq, h.head_eq]
  exact ofNat_eq_of_le h.head_le (by omega)

theorem reloadTail {head : UInt64} (hconsumer : q.consumer = .reloading head) :
    q.consume.Fifo cachedHead q.pushed.length := by
  have hempty := h.empty_iff hconsumer
  have hready := h.consumer
  have hstored := h.stored
  rw [ConsumerReady, hconsumer] at hready
  rw [taken, hconsumer] at hstored
  simp only [consume, hconsumer]
  split_ifs with heq
  · exact { h with cachedTail_eq := h.tail_eq, le_cachedTail := h.head_le, cachedTail_le := le_rfl, stored := hstored,
                   consumer := trivial }
  · have hlt := h.head_le.lt_of_ne (mt hempty.mpr heq)
    exact { h with cachedTail_eq := h.tail_eq, le_cachedTail := h.head_le, cachedTail_le := le_rfl, stored := hstored,
                   consumer := ⟨hready, hlt⟩ }

theorem read {head : UInt64} (hconsumer : q.consumer = .reading head) : q.consume.Fifo cachedHead cachedTail := by
  have hready := h.consumer
  have hcached := h.cachedHead_le
  have hbounded := h.bounded
  rw [ConsumerReady, hconsumer] at hready
  obtain ⟨hhead, hseen⟩ := hready
  have hpushed := hseen.trans_le h.cachedTail_le
  have hslot : head &&& mask c = slot c q.popped.length := by rw [hhead, h.head_eq, slot]
  have htaken : q.taken = q.popped.length := by rw [taken, hconsumer]
  simp only [consume, hconsumer, hslot]
  refine { h with stored := fun k hk hlt => ?_, producer := ?_, consumer := ⟨hhead, hseen, ?_⟩ }
  · change q.popped.length + 1 ≤ k at hk
    change k < q.pushed.length at hlt
    change Function.update q.storage _ _ (slot c k) = q.pushed[k]?
    rw [Function.update_of_ne (slot_ne hk (by omega)).symm]
    exact h.stored k (by omega) hlt
  · have hproducer := h.producer
    unfold ProducerReady at hproducer ⊢
    cases hpoint : q.producer with
    | idle returned => trivial
    | reloading tail value =>
      rw [hpoint] at hproducer
      exact hproducer
    | writing tail value =>
      rw [hpoint] at hproducer
      exact hproducer
    | publishing tail value =>
      rw [hpoint] at hproducer
      obtain ⟨htail, hroom, hstored⟩ := hproducer
      refine ⟨htail, hroom, ?_⟩
      change Function.update q.storage _ _ (slot c q.pushed.length) = some value
      rw [Function.update_of_ne (slot_ne hpushed (by omega)).symm]
      exact hstored
  · exact h.stored q.popped.length htaken.le hpushed

theorem publishHead {head : UInt64} {out : Option T} (hconsumer : q.consumer = .publishing head out) :
    q.consume.Fifo cachedHead cachedTail := by
  have hready := h.consumer
  have hstored := h.stored
  rw [ConsumerReady, hconsumer] at hready
  rw [taken, hconsumer] at hstored
  obtain ⟨hhead, hseen, hout⟩ := hready
  have hlength : (q.popped ++ [out]).length = q.popped.length + 1 := List.length_append
  simp only [consume, hconsumer]
  refine
    { h with
      head_eq := ?_
      cachedHead_le := ?_
      le_cachedTail := ?_
      ordered := ?_
      stored := fun k hk hlt => ?_
      consumer := trivial }
  · change head + 1 = UInt64.ofNat (q.popped ++ [out]).length
    rw [hhead, h.head_eq, ofNat_length_concat]
  · change _ ≤ (q.popped ++ [out]).length
    rw [hlength]
    exact h.cachedHead_le.trans (Nat.le_succ _)
  · change (q.popped ++ [out]).length ≤ _
    rw [hlength]
    exact hseen
  · change q.popped ++ [out] <+: q.pushed.map some
    have hlonger : q.popped.length < (q.pushed.map some).length := by
      rw [List.length_map]
      exact hseen.trans_le h.cachedTail_le
    have hprefix := List.concat_get_prefix h.ordered hlonger
    rw [List.get_eq_getElem, List.getElem_map, ← List.getElem?_eq_getElem, ← hout] at hprefix
    exact hprefix
  · change (q.popped ++ [out]).length ≤ k at hk
    rw [hlength] at hk
    exact hstored k hk hlt

end Fifo

end SystemLevel.LockFree.SpscQueue
