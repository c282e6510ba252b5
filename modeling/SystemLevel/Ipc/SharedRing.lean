import SystemLevel.Foundations.Runs
import SystemLevel.Foundations.Wraparound

/-!
The ring in shared memory that `ShmIpcBus` and `ShmMarketFeed` have in common, between the process that has created
it and publishes and the one that has attached it and consumes. A slot is found by the offset of its first byte.
-/

namespace SystemLevel.Ipc

open Runs Wraparound

structure SlotFormat (A M : Type) where
  size : UInt64
  write : A → M → M

def headerSize : UInt64 := 128

/-- `mmap` maps whole pages. -/
def mappedBytes (size : UInt64) : ℕ := (size.toNat + 4095) / 4096 * 4096

theorem le_mappedBytes (size : UInt64) : size.toNat ≤ mappedBytes size := by
  rw [mappedBytes]
  omega

/-- What `create` and `attach` have computed. The file has `createdSize` bytes. -/
structure RingSetup where
  capacity : UInt64
  mask : UInt64
  createdSize : UInt64
  attachedSize : UInt64
  deriving DecidableEq, Repr

structure RingMemory (M : Type) where
  file : UInt64 → M
  publisher : UInt64 → M
  consumer : UInt64 → M

namespace SlotFormat

variable {A M : Type} (format : SlotFormat A M)

def totalSize (capacity : UInt64) : UInt64 := headerSize + capacity * format.size

def createAndAttach (created attached : UInt64) : RingSetup where
  capacity := created
  mask := created - 1
  createdSize := format.totalSize created
  attachedSize := format.totalSize attached

def offset (index : UInt64) : UInt64 := headerSize + index * format.size

abbrev Inside (offset : UInt64) (bytes : ℕ) : Prop := offset.toNat + format.size.toNat ≤ bytes

def storeSlot (setup : RingSetup) (memory : RingMemory M) (offset : UInt64) (message : A) : RingMemory M :=
  if format.Inside offset (mappedBytes setup.createdSize) then
    { memory with file := Function.update memory.file offset (format.write message (memory.file offset)) }
  else
    { memory with
      publisher := Function.update memory.publisher offset (format.write message (memory.publisher offset)) }

/-- The pages of a mapping that are behind the end of the file are not those of the file either. -/
def loadSlot (setup : RingSetup) (memory : RingMemory M) (offset : UInt64) : M :=
  if format.Inside offset (mappedBytes setup.createdSize) ∧ format.Inside offset (mappedBytes setup.attachedSize) then
    memory.file offset
  else memory.consumer offset

end SlotFormat

inductive PublisherPoint (A : Type)
  | idle (returned : Option Bool)
  | loading (w : UInt64) (message : A)
  | writing (w : UInt64) (message : A)
  | storing (w : UInt64) (message : A)

inductive ConsumerPoint (M : Type)
  | idle (returned : Option Bool)
  | loading (r : UInt64)
  | copying (r : UInt64)
  | storing (r : UInt64) (out : M)

/-- `published` and `consumed` record the messages of the calls that have returned true. -/
structure SharedRing (A M : Type) where
  memory : RingMemory M
  writeIndex : UInt64 := 0
  readIndex : UInt64 := 0
  publisher : PublisherPoint A := .idle none
  consumer : ConsumerPoint M := .idle none
  published : List A := []
  consumed : List M := []

namespace SharedRing

variable {A M : Type} (format : SlotFormat A M) (setup : RingSetup)

inductive Action (A : Type)
  | publish (message : A)
  | goOnPublishing
  | consume
  | goOnConsuming

def publish (q : SharedRing A M) (message : A) : SharedRing A M :=
  match q.publisher with
  | .idle _ => { q with publisher := .loading q.writeIndex message }
  | _ => q

def goOnPublishing (q : SharedRing A M) : SharedRing A M :=
  match q.publisher with
  | .idle _ => q
  | .loading w message =>
    if setup.capacity ≤ w - q.readIndex then { q with publisher := .idle (some false) }
    else { q with publisher := .writing w message }
  | .writing w message =>
    { q with
      memory := format.storeSlot setup q.memory (format.offset (w &&& setup.mask)) message
      publisher := .storing w message }
  | .storing w message =>
    { q with writeIndex := w + 1, publisher := .idle (some true), published := q.published ++ [message] }

def consume (q : SharedRing A M) : SharedRing A M :=
  match q.consumer with
  | .idle _ => { q with consumer := .loading q.readIndex }
  | _ => q

def goOnConsuming (q : SharedRing A M) : SharedRing A M :=
  match q.consumer with
  | .idle _ => q
  | .loading r =>
    if r = q.writeIndex then { q with consumer := .idle (some false) } else { q with consumer := .copying r }
  | .copying r =>
    { q with consumer := .storing r (format.loadSlot setup q.memory (format.offset (r &&& setup.mask))) }
  | .storing r out =>
    { q with readIndex := r + 1, consumer := .idle (some true), consumed := q.consumed ++ [out] }

def step (q : SharedRing A M) : Action A → SharedRing A M
  | .publish message => q.publish message
  | .goOnPublishing => q.goOnPublishing format setup
  | .consume => q.consume
  | .goOnConsuming => q.goOnConsuming format setup

abbrev run (memory : RingMemory M) (actions : List (Action A)) : SharedRing A M :=
  Runs.run (step format setup) { memory } actions

def returned (q : SharedRing A M) : Action A → List M
  | .goOnConsuming =>
    match q.consumer with
    | .storing _ out => [out]
    | _ => []
  | .publish _ | .goOnPublishing | .consume => []

theorem step_consumed (q : SharedRing A M) (action : Action A) :
    (q.step format setup action).consumed = q.consumed ++ q.returned action := by
  cases action with
  | publish message =>
    rw [returned, List.append_nil, step, publish]
    cases q.publisher <;> rfl
  | goOnPublishing =>
    rw [returned, List.append_nil, step, goOnPublishing]
    cases q.publisher with
    | loading w message =>
      simp only
      split_ifs <;> rfl
    | _ => rfl
  | consume =>
    rw [returned, List.append_nil, step, consume]
    cases q.consumer <;> rfl
  | goOnConsuming =>
    rw [returned, step, goOnConsuming]
    cases q.consumer with
    | storing r out => rfl
    | loading r =>
      simp only [List.append_nil]
      split_ifs <;> rfl
    | _ => exact (List.append_nil _).symm

end SharedRing

end SystemLevel.Ipc
