import SystemLevel.Ipc.SharedRingFifo

namespace SystemLevel.Ipc

open SharedRing

def maxPayload : ℕ := 104

structure IpcMessage where
  msgId : UInt64 := 0
  timestampNs : UInt64 := 0
  length : UInt32 := 0
  payload : Vector UInt8 maxPayload := Vector.replicate maxPayload 0

structure Publication where
  msgId : UInt64
  tsNs : UInt64
  payload : List UInt8

namespace ShmIpcBus

def memcpy {n : ℕ} (dst : Vector UInt8 n) (src : List UInt8) (len : ℕ) : Vector UInt8 n :=
  Vector.ofFn fun i => if i < len then src.getD i 0 else dst.get i

def writeSlot (message : Publication) (slot : IpcMessage) : IpcMessage :=
  let len := min message.payload.length maxPayload
  { msgId := message.msgId
    timestampNs := message.tsNs
    length := UInt32.ofNat len
    payload := memcpy slot.payload message.payload len }

def format : SlotFormat Publication IpcMessage where
  size := 128
  write := writeSlot

def calculateShmSize (capacity : UInt64) : UInt64 := format.totalSize capacity

def setup (created attached : UInt64) : RingSetup := format.createAndAttach created attached

abbrev run (created attached : UInt64) (memory : RingMemory IpcMessage) (actions : List (Action Publication)) :
    SharedRing Publication IpcMessage :=
  SharedRing.run format (setup created attached) memory actions

def sent (message : Publication) : UInt64 × UInt64 × List UInt8 :=
  (message.msgId, message.tsNs, message.payload.take maxPayload)

def received (out : IpcMessage) : UInt64 × UInt64 × List UInt8 :=
  (out.msgId, out.timestampNs, out.payload.toList.take out.length.toNat)

theorem take_memcpy {n : ℕ} (dst : Vector UInt8 n) (src : List UInt8) :
    (memcpy dst src (min src.length n)).toList.take (min src.length n) = src.take n := by
  apply List.ext_getElem?
  intro i
  rw [List.getElem?_take, List.getElem?_take, Vector.getElem?_toList, memcpy, Vector.getElem?_ofFn]
  by_cases hi : i < min src.length n
  · have hlength : i < src.length := hi.trans_le (Nat.min_le_left _ _)
    have hn : i < n := hi.trans_le (Nat.min_le_right _ _)
    rw [if_pos hi, dif_pos hn, if_pos hi, if_pos hn, List.getD_eq_getElem?_getD, List.getElem?_eq_getElem hlength,
      Option.getD_some]
  · rw [if_neg hi]
    split_ifs with hn
    · exact (List.getElem?_eq_none (by omega)).symm
    · rfl

theorem received_writeSlot (message : Publication) (slot : IpcMessage) :
    received (writeSlot message slot) = sent message := by
  have hmax : maxPayload = 104 := rfl
  have hlength : (UInt32.ofNat (min message.payload.length maxPayload)).toNat =
      min message.payload.length maxPayload := by
    rw [UInt32.toNat_ofNat', Nat.mod_eq_of_lt (by omega)]
  have htake := take_memcpy slot.payload message.payload
  simp only [received, sent, writeSlot, hlength, htake]

theorem suits {created attached : UInt64} {c : ℕ} (hcapacity : created.toNat = 2 ^ c)
    (hcreated : 128 * (created.toNat + 1) ≤ (calculateShmSize created).toNat)
    (hattached : 128 * (created.toNat + 1) ≤ (calculateShmSize attached).toNat) :
    (setup created attached).Suits format c := by
  have hlt : c < 64 := by
    have hbound := created.toNat_lt
    rw [hcapacity] at hbound
    exact (Nat.pow_lt_pow_iff_right (by decide)).mp hbound
  have heq : created = UInt64.ofNat (2 ^ c) := by
    rw [← UInt64.toNat_inj, Wraparound.toNat_two_pow hlt, hcapacity]
  have hsize : format.size.toNat = 128 := rfl
  rw [hcapacity] at hcreated hattached
  refine ⟨hlt, by decide, heq, congrArg (· - 1) heq, ?_, ?_⟩
  · rw [hsize]
    change _ ≤ (calculateShmSize created).toNat
    omega
  · rw [hsize]
    change _ ≤ (calculateShmSize attached).toNat
    omega

theorem delivers_accepted_in_order (created attached : UInt64) (c : ℕ) (hcapacity : created.toNat = 2 ^ c)
    (hcreated : 128 * (created.toNat + 1) ≤ (calculateShmSize created).toNat)
    (hattached : 128 * (created.toNat + 1) ≤ (calculateShmSize attached).toNat)
    (memory : RingMemory IpcMessage) (actions : List (Action Publication)) :
    let q := run created attached memory actions
    q.consumed.map received <+: q.published.map sent ∧
      q.published.length ≤ q.consumed.length + created.toNat ∧
      (∀ w message, q.publisher = .writing w message →
        format.Inside (format.offset (w &&& (setup created attached).mask)) (calculateShmSize created).toNat) ∧
      ∀ r, q.consumer = .copying r →
        format.Inside (format.offset (r &&& (setup created attached).mask)) (calculateShmSize attached).toNat := by
  intro q
  have hsetup := suits hcapacity hcreated hattached
  have hfifo : q.Fifo format (setup created attached) c sent received :=
    fifo_run hsetup received_writeSlot memory actions
  refine ⟨hfifo.ordered, ?_, ?_, ?_⟩
  · rw [hcapacity]
    exact hfifo.bounded
  · intro w message hpublisher
    have hready := hfifo.publisher
    rw [PublisherReady, hpublisher] at hready
    rw [hready.1, hfifo.writeIndex_eq]
    exact hsetup.inside_created _
  · intro r hconsumer
    have hready := hfifo.consumer
    rw [ConsumerReady, hconsumer] at hready
    rw [hready.1, hfifo.readIndex_eq]
    exact hsetup.inside_attached _

def blank : RingMemory IpcMessage where
  file _ := {}
  publisher _ := {}
  consumer _ := {}

def publishing (msgId : UInt64) (payload : List UInt8) : List (Action Publication) :=
  [.publish { msgId, tsNs := 0, payload }, .goOnPublishing, .goOnPublishing, .goOnPublishing]

def consuming : List (Action Publication) := [.consume, .goOnConsuming, .goOnConsuming, .goOnConsuming]

theorem delivers_accepted_of_wrapped :
    let q := run 2 5 blank (publishing 1 [7] ++ publishing 2 [8, 9] ++ consuming ++
      publishing 3 [5] ++ consuming ++ consuming)
    q.consumed.length = 3 ∧ q.consumed.map received <+: [(1, 0, [7]), (2, 0, [8, 9]), (3, 0, [5])] := by
  refine ⟨by decide +kernel, ?_⟩
  exact (delivers_accepted_in_order 2 5 1 (by decide) (by decide) (by decide) blank _).1

theorem first_message_overwritten :
    let q := run 3 3 blank (publishing 1 [7] ++ publishing 2 [8, 9] ++ consuming)
    q.published.map sent = [(1, 0, [7]), (2, 0, [8, 9])] ∧ q.consumed.map received = [(2, 0, [8, 9])] := by
  decide +kernel

end ShmIpcBus

end SystemLevel.Ipc
