import SystemLevel.Ipc.SharedRing

namespace SystemLevel.Ipc

open Runs Wraparound

variable {A M V : Type}

structure RingSetup.Suits (setup : RingSetup) (format : SlotFormat A M) (c : ℕ) : Prop where
  lt : c < 64
  sized : 0 < format.size.toNat
  capacity_eq : setup.capacity = UInt64.ofNat (2 ^ c)
  mask_eq : setup.mask = UInt64.ofNat (2 ^ c) - 1
  created : 128 + 2 ^ c * format.size.toNat ≤ setup.createdSize.toNat
  attached : 128 + 2 ^ c * format.size.toNat ≤ setup.attachedSize.toNat

def SlotFormat.place (format : SlotFormat A M) (setup : RingSetup) (k : ℕ) : UInt64 :=
  format.offset (UInt64.ofNat k &&& setup.mask)

namespace RingSetup.Suits

theorem slot_le (format : SlotFormat A M) (c k : ℕ) :
    (k % 2 ^ c) * format.size.toNat + format.size.toNat ≤ 2 ^ c * format.size.toNat := by
  rw [← Nat.succ_mul]
  exact Nat.mul_le_mul_right _ (Nat.mod_lt k (Nat.two_pow_pos c))

variable {format : SlotFormat A M} {setup : RingSetup} {c : ℕ} (h : setup.Suits format c)

include h

theorem toNat_place (k : ℕ) : (format.place setup k).toNat = 128 + (k % 2 ^ c) * format.size.toNat := by
  have hslot := slot_le format c k
  have hcreated := h.created
  have hsize := setup.createdSize.toNat_lt
  have hheader : headerSize.toNat = 128 := rfl
  rw [SlotFormat.place, SlotFormat.offset, UInt64.toNat_add, UInt64.toNat_mul, h.mask_eq, toNat_and_mask h.lt, hheader,
    Nat.mod_eq_of_lt (a := _ * _) (by omega), Nat.mod_eq_of_lt (by omega)]

theorem place_ne {k n : ℕ} (hlt : k < n) (hnear : n < k + 2 ^ c) : format.place setup k ≠ format.place setup n := by
  intro heq
  have hoffset := congrArg UInt64.toNat heq
  rw [h.toNat_place, h.toNat_place, Nat.add_left_cancel_iff] at hoffset
  exact mod_ne hlt hnear (Nat.eq_of_mul_eq_mul_right h.sized hoffset)

theorem inside_created (k : ℕ) : format.Inside (format.place setup k) setup.createdSize.toNat := by
  have hslot := slot_le format c k
  have hcreated := h.created
  rw [SlotFormat.Inside, h.toNat_place]
  omega

theorem inside_attached (k : ℕ) : format.Inside (format.place setup k) setup.attachedSize.toNat := by
  have hslot := slot_le format c k
  have hattached := h.attached
  rw [SlotFormat.Inside, h.toNat_place]
  omega

theorem storeSlot_eq (memory : RingMemory M) (k : ℕ) (message : A) :
    format.storeSlot setup memory (format.place setup k) message =
      { memory with
        file := Function.update memory.file (format.place setup k)
          (format.write message (memory.file (format.place setup k))) } :=
  if_pos ((h.inside_created k).trans (le_mappedBytes _))

theorem loadSlot_eq (memory : RingMemory M) (k : ℕ) :
    format.loadSlot setup memory (format.place setup k) = memory.file (format.place setup k) :=
  if_pos ⟨(h.inside_created k).trans (le_mappedBytes _), (h.inside_attached k).trans (le_mappedBytes _)⟩

end RingSetup.Suits

namespace SharedRing

section Invariant

variable (format : SlotFormat A M) (setup : RingSetup) (c : ℕ) (sent : A → V) (view : M → V)

def PublisherReady (q : SharedRing A M) : Prop :=
  match q.publisher with
  | .idle _ => True
  | .loading w _ => w = q.writeIndex
  | .writing w _ => w = q.writeIndex ∧ q.published.length < q.consumed.length + 2 ^ c
  | .storing w message =>
    w = q.writeIndex ∧ q.published.length < q.consumed.length + 2 ^ c ∧
      view (q.memory.file (format.place setup q.published.length)) = sent message

def ConsumerReady (q : SharedRing A M) : Prop :=
  match q.consumer with
  | .idle _ => True
  | .loading r => r = q.readIndex
  | .copying r => r = q.readIndex ∧ q.consumed.length < q.published.length
  | .storing r out =>
    r = q.readIndex ∧ (q.published.map sent)[q.consumed.length]? = some (view out)

structure Fifo (q : SharedRing A M) : Prop where
  writeIndex_eq : q.writeIndex = UInt64.ofNat q.published.length
  readIndex_eq : q.readIndex = UInt64.ofNat q.consumed.length
  consumed_le : q.consumed.length ≤ q.published.length
  bounded : q.published.length ≤ q.consumed.length + 2 ^ c
  ordered : q.consumed.map view <+: q.published.map sent
  stored : ∀ k, q.consumed.length ≤ k → k < q.published.length →
    (q.published.map sent)[k]? = some (view (q.memory.file (format.place setup k)))
  publisher : q.PublisherReady format setup c sent view
  consumer : q.ConsumerReady sent view

end Invariant

section Mono

variable {format : SlotFormat A M} {setup : RingSetup} {c : ℕ} {sent : A → V} {view : M → V} {q q' : SharedRing A M}

theorem PublisherReady.mono (h : q.PublisherReady format setup c sent view) (hpoint : q'.publisher = q.publisher)
    (hindex : q'.writeIndex = q.writeIndex) (hpublished : q'.published = q.published)
    (hmemory : q'.memory = q.memory) (hconsumed : q.consumed.length ≤ q'.consumed.length) :
    q'.PublisherReady format setup c sent view := by
  have hroom := Nat.add_le_add_right hconsumed (2 ^ c)
  unfold PublisherReady at h ⊢
  rw [hpoint, hindex, hpublished, hmemory]
  cases hpublisher : q.publisher with
  | idle returned => trivial
  | loading w message =>
    rw [hpublisher] at h
    exact h
  | writing w message =>
    rw [hpublisher] at h
    exact ⟨h.1, h.2.trans_le hroom⟩
  | storing w message =>
    rw [hpublisher] at h
    exact ⟨h.1, h.2.1.trans_le hroom, h.2.2⟩

theorem ConsumerReady.mono (h : q.ConsumerReady sent view) (hpoint : q'.consumer = q.consumer)
    (hindex : q'.readIndex = q.readIndex) (hconsumed : q'.consumed = q.consumed)
    (hpublished : q.published <+: q'.published) : q'.ConsumerReady sent view := by
  obtain ⟨later, hlater⟩ := hpublished
  unfold ConsumerReady at h ⊢
  rw [hpoint, hindex, hconsumed, ← hlater]
  cases hconsumer : q.consumer with
  | idle returned => trivial
  | loading r =>
    rw [hconsumer] at h
    exact h
  | copying r =>
    rw [hconsumer] at h
    refine ⟨h.1, h.2.trans_le ?_⟩
    rw [List.length_append]
    exact Nat.le_add_right _ _
  | storing r out =>
    rw [hconsumer] at h
    refine ⟨h.1, ?_⟩
    rw [List.map_append, List.getElem?_append_left (List.getElem?_eq_some_iff.mp h.2).1]
    exact h.2

end Mono

namespace Fifo

variable {format : SlotFormat A M} {setup : RingSetup} {c : ℕ} {sent : A → V} {view : M → V} {q : SharedRing A M}
  (hsetup : setup.Suits format c) (h : q.Fifo format setup c sent view)

include h

theorem publish (message : A) : (q.publish message).Fifo format setup c sent view := by
  unfold SharedRing.publish
  cases hpublisher : q.publisher with
  | idle returned => exact { h with publisher := rfl }
  | loading w message => exact h
  | writing w message => exact h
  | storing w message => exact h

theorem consume : q.consume.Fifo format setup c sent view := by
  unfold SharedRing.consume
  cases hconsumer : q.consumer with
  | idle returned => exact { h with consumer := rfl }
  | loading r => exact h
  | copying r => exact h
  | storing r out => exact h

include hsetup

theorem full_iff {w : UInt64} {message : A} (hpublisher : q.publisher = .loading w message) :
    setup.capacity ≤ w - q.readIndex ↔ q.published.length = q.consumed.length + 2 ^ c := by
  have hready := h.publisher
  rw [PublisherReady, hpublisher] at hready
  rw [hready, h.writeIndex_eq, h.readIndex_eq, hsetup.capacity_eq]
  exact two_pow_le_sub_iff hsetup.lt h.consumed_le h.bounded

theorem empty_iff {r : UInt64} (hconsumer : q.consumer = .loading r) :
    r = q.writeIndex ↔ q.consumed.length = q.published.length := by
  have hready := h.consumer
  rw [ConsumerReady, hconsumer] at hready
  have hpow : 2 ^ c < 2 ^ 64 := Nat.pow_lt_pow_right (by decide) hsetup.lt
  have hbounded := h.bounded
  rw [hready, h.writeIndex_eq, h.readIndex_eq]
  exact ofNat_eq_of_le h.consumed_le (by omega)

theorem write (hview : ∀ message slot, view (format.write message slot) = sent message) {w : UInt64} {message : A}
    (hpublisher : q.publisher = .writing w message) :
    (q.goOnPublishing format setup).Fifo format setup c sent view := by
  have hready := h.publisher
  rw [PublisherReady, hpublisher] at hready
  obtain ⟨hw, hlt⟩ := hready
  have hplace : format.offset (w &&& setup.mask) = format.place setup q.published.length := by
    rw [hw, h.writeIndex_eq, SlotFormat.place]
  simp only [goOnPublishing, hpublisher, hplace, hsetup.storeSlot_eq]
  refine { h with stored := fun k hconsumed hk => ?_, publisher := ⟨hw, hlt, ?_⟩ }
  · change q.consumed.length ≤ k at hconsumed
    change k < q.published.length at hk
    change _ = some (view (Function.update q.memory.file _ _ (format.place setup k)))
    rw [Function.update_of_ne (hsetup.place_ne hk (by omega))]
    exact h.stored k hconsumed hk
  · change view (Function.update q.memory.file _ _ (format.place setup q.published.length)) = sent message
    rw [Function.update_self]
    exact hview message _

omit hsetup in
theorem storeWriteIndex {w : UInt64} {message : A} (hpublisher : q.publisher = .storing w message) :
    (q.goOnPublishing format setup).Fifo format setup c sent view := by
  have hready := h.publisher
  rw [PublisherReady, hpublisher] at hready
  obtain ⟨hw, hlt, hstored⟩ := hready
  have hlength : (q.published ++ [message]).length = q.published.length + 1 := List.length_append
  have hmap : (q.published ++ [message]).map sent = q.published.map sent ++ [sent message] := List.map_append
  simp only [goOnPublishing, hpublisher]
  refine
    { h with
      writeIndex_eq := ?_
      consumed_le := ?_
      bounded := ?_
      ordered := ?_
      stored := fun k hconsumed hk => ?_
      publisher := trivial
      consumer := h.consumer.mono rfl rfl rfl (List.prefix_append _ _) }
  · change w + 1 = UInt64.ofNat (q.published ++ [message]).length
    rw [hw, h.writeIndex_eq, ofNat_length_concat]
  · change _ ≤ (q.published ++ [message]).length
    rw [hlength]
    exact h.consumed_le.trans (Nat.le_succ _)
  · change (q.published ++ [message]).length ≤ _
    rw [hlength]
    exact hlt
  · change _ <+: (q.published ++ [message]).map sent
    rw [hmap]
    exact h.ordered.trans (List.prefix_append _ _)
  · change k < (q.published ++ [message]).length at hk
    change ((q.published ++ [message]).map sent)[k]? = _
    rw [hlength] at hk
    rw [hmap]
    rcases Nat.lt_succ_iff_lt_or_eq.mp hk with hk | rfl
    · rw [List.getElem?_append_left (by rwa [List.length_map])]
      exact h.stored k hconsumed hk
    · rw [List.getElem?_append_right (by rw [List.length_map]), List.length_map, Nat.sub_self]
      exact congrArg some hstored.symm

theorem goOnPublishing (hview : ∀ message slot, view (format.write message slot) = sent message) :
    (q.goOnPublishing format setup).Fifo format setup c sent view := by
  cases hpublisher : q.publisher with
  | idle returned =>
    simp only [SharedRing.goOnPublishing, hpublisher]
    exact h
  | loading w message =>
    have hfull := h.full_iff hsetup hpublisher
    have hready := h.publisher
    rw [PublisherReady, hpublisher] at hready
    simp only [SharedRing.goOnPublishing, hpublisher]
    split_ifs with hcap
    · exact { h with publisher := trivial }
    · exact { h with publisher := ⟨hready, h.bounded.lt_of_ne (mt hfull.mpr hcap)⟩ }
  | writing w message => exact h.write hsetup hview hpublisher
  | storing w message => exact h.storeWriteIndex hpublisher

omit hsetup in
theorem storeReadIndex {r : UInt64} {out : M} (hconsumer : q.consumer = .storing r out) :
    (q.goOnConsuming format setup).Fifo format setup c sent view := by
  have hready := h.consumer
  rw [ConsumerReady, hconsumer] at hready
  obtain ⟨hr, hnext⟩ := hready
  obtain ⟨hlt, hview⟩ := List.getElem?_eq_some_iff.mp hnext
  rw [List.length_map] at hlt
  have hlength : (q.consumed ++ [out]).length = q.consumed.length + 1 := List.length_append
  simp only [SharedRing.goOnConsuming, hconsumer]
  refine
    { h with
      readIndex_eq := ?_
      consumed_le := ?_
      bounded := ?_
      ordered := ?_
      stored := fun k hk hlt => ?_
      publisher := h.publisher.mono rfl rfl rfl rfl (hlength ▸ Nat.le_succ _)
      consumer := trivial }
  · change r + 1 = UInt64.ofNat (q.consumed ++ [out]).length
    rw [hr, h.readIndex_eq, ofNat_length_concat]
  · change (q.consumed ++ [out]).length ≤ _
    rw [hlength]
    exact hlt
  · change q.published.length ≤ (q.consumed ++ [out]).length + _
    rw [hlength]
    exact h.bounded.trans (by omega)
  · change (q.consumed ++ [out]).map view <+: _
    have hlonger : (q.consumed.map view).length < (q.published.map sent).length := by
      rwa [List.length_map, List.length_map]
    have hprefix := List.concat_get_prefix h.ordered hlonger
    simp only [List.get_eq_getElem, List.length_map, hview] at hprefix
    rw [List.map_append]
    exact hprefix
  · change (q.consumed ++ [out]).length ≤ k at hk
    rw [hlength] at hk
    exact h.stored k (Nat.le_of_succ_le hk) hlt

theorem goOnConsuming : (q.goOnConsuming format setup).Fifo format setup c sent view := by
  cases hconsumer : q.consumer with
  | idle returned =>
    simp only [SharedRing.goOnConsuming, hconsumer]
    exact h
  | loading r =>
    have hempty := h.empty_iff hsetup hconsumer
    have hready := h.consumer
    rw [ConsumerReady, hconsumer] at hready
    simp only [SharedRing.goOnConsuming, hconsumer]
    split_ifs with heq
    · exact { h with consumer := trivial }
    · exact { h with consumer := ⟨hready, h.consumed_le.lt_of_ne (mt hempty.mpr heq)⟩ }
  | copying r =>
    have hready := h.consumer
    rw [ConsumerReady, hconsumer] at hready
    obtain ⟨hr, hlt⟩ := hready
    have hplace : format.offset (r &&& setup.mask) = format.place setup q.consumed.length := by
      rw [hr, h.readIndex_eq, SlotFormat.place]
    simp only [SharedRing.goOnConsuming, hconsumer, hplace, hsetup.loadSlot_eq]
    exact { h with consumer := ⟨hr, h.stored _ le_rfl hlt⟩ }
  | storing r out => exact h.storeReadIndex hconsumer

end Fifo

variable {format : SlotFormat A M} {setup : RingSetup} {c : ℕ} {sent : A → V} {view : M → V}

theorem fifo_run (hsetup : setup.Suits format c)
    (hview : ∀ message slot, view (format.write message slot) = sent message)
    (memory : RingMemory M) (actions : List (Action A)) :
    (run format setup memory actions).Fifo format setup c sent view := by
  induction actions using List.reverseRecOn with
  | nil =>
    exact
      { writeIndex_eq := rfl
        readIndex_eq := rfl
        consumed_le := le_rfl
        bounded := Nat.zero_le _
        ordered := List.nil_prefix
        stored := fun k _ hk => absurd hk (Nat.not_lt_zero k)
        publisher := trivial
        consumer := trivial }
  | append_singleton actions action ih =>
    rw [run, run_snoc]
    cases action with
    | publish message => exact ih.publish message
    | goOnPublishing => exact ih.goOnPublishing hsetup hview
    | consume => exact ih.consume
    | goOnConsuming => exact ih.goOnConsuming hsetup

end SharedRing

end SystemLevel.Ipc
