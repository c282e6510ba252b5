import SystemLevel.Foundations.Buffers

namespace SystemLevel.Storage

def pageSize : ℕ := 4096

@[ext] structure SlottedPage where
  bytes : Bytes
  length_bytes : bytes.length = pageSize
  deriving DecidableEq

namespace SlottedPage

open FixedCodec

def zero : SlottedPage := ⟨List.replicate pageSize 0, List.length_replicate⟩

/-- What would go behind the end of the array is dropped. -/
@[irreducible] def write (page : SlottedPage) (off : ℕ) (bs : Bytes) : SlottedPage where
  bytes := (splice page.bytes off bs).take pageSize
  length_bytes := by
    rw [List.length_take, Buffers.length_splice, page.length_bytes]
    omega

def read (page : SlottedPage) (off len : ℕ) : Bytes := slice page.bytes off len

structure Header where
  pageId : UInt64 := 0
  lsn : UInt64 := 0
  slotCount : UInt16 := 0
  freeSpacePtr : UInt16 := 4096
  flags : UInt32 := 0
  deriving DecidableEq, Repr

def headerCodec : FixedCodec Header :=
  (u64.prod (u64.prod (u16.prod (u16.prod u32)))).via
    (fun h => (h.pageId, h.lsn, h.slotCount, h.freeSpacePtr, h.flags))
    (fun ⟨pageId, lsn, slotCount, freeSpacePtr, flags⟩ => { pageId, lsn, slotCount, freeSpacePtr, flags })
    (fun _ => rfl)

structure Slot where
  offset : UInt16 := 0
  size : UInt16 := 0
  isDeleted : UInt8 := 0
  padding : UInt8 := 0
  deriving DecidableEq, Repr

def slotCodec : FixedCodec Slot :=
  (u16.prod (u16.prod (u8.prod u8))).via (fun s => (s.offset, s.size, s.isDeleted, s.padding))
    (fun ⟨offset, size, isDeleted, padding⟩ => { offset, size, isDeleted, padding }) (fun _ => rfl)

@[irreducible] def header (page : SlottedPage) : Header := headerCodec.load page.bytes 0

def setHeader (page : SlottedPage) (hdr : Header) : SlottedPage := page.write 0 (headerCodec.encode hdr)

def slotAt (i : ℕ) : ℕ := headerCodec.size + i * slotCodec.size

@[irreducible] def slot (page : SlottedPage) (i : ℕ) : Slot := slotCodec.load page.bytes (slotAt i)

def setSlot (page : SlottedPage) (i : ℕ) (s : Slot) : SlottedPage := page.write (slotAt i) (slotCodec.encode s)

def pageId (page : SlottedPage) : UInt64 := page.header.pageId

def lsn (page : SlottedPage) : UInt64 := page.header.lsn

def slotCount (page : SlottedPage) : ℕ := page.header.slotCount.toNat

def freeSpacePtr (page : SlottedPage) : ℕ := page.header.freeSpacePtr.toNat

def init (pageId : UInt64) : SlottedPage :=
  zero.setHeader { pageId, lsn := 0, slotCount := 0, freeSpacePtr := UInt16.ofNat pageSize, flags := 0 }

def freeSpace (page : SlottedPage) : UInt16 :=
  let headerAndSlots := headerCodec.size + page.slotCount * slotCodec.size
  if page.freeSpacePtr < headerAndSlots then 0 else UInt16.ofNat (page.freeSpacePtr - headerAndSlots)

def compactSlot (st : SlottedPage × SlottedPage × UInt16) (i : ℕ) : SlottedPage × SlottedPage × UInt16 :=
  let (page, temp, newFreePtr) := st
  let s := page.slot i
  if s.isDeleted = 0 ∧ 0 < s.size then
    let newFreePtr := newFreePtr - s.size
    (page.setSlot i { s with offset := newFreePtr },
      temp.write newFreePtr.toNat (page.read s.offset.toNat s.size.toNat), newFreePtr)
  else st

def copyBack (page temp : SlottedPage) (newFreePtr : UInt16) : SlottedPage :=
  let page := page.write newFreePtr.toNat (temp.read newFreePtr.toNat (pageSize - newFreePtr.toNat))
  page.setHeader { page.header with freeSpacePtr := newFreePtr }

/-- The temporary buffer, an array of the size of a page, is not initialised. -/
def compact (page temp : SlottedPage) : SlottedPage :=
  let st := (List.range page.slotCount).foldl compactSlot (page, temp, UInt16.ofNat pageSize)
  st.1.copyBack st.2.1 st.2.2

def makeRoom (page temp : SlottedPage) (needed : ℕ) : Bool × SlottedPage :=
  if page.freeSpace.toNat < needed then
    let page := page.compact temp
    (decide (needed ≤ page.freeSpace.toNat), page)
  else (true, page)

def store (page : SlottedPage) (payload : Bytes) : SlottedPage :=
  let newFreePtr := page.header.freeSpacePtr - UInt16.ofNat payload.length
  (page.setHeader { page.header with freeSpacePtr := newFreePtr }).write newFreePtr.toNat payload

def targetSlot (page : SlottedPage) : ℕ :=
  ((List.range page.slotCount).find? fun i => decide ((page.slot i).isDeleted ≠ 0)).getD page.slotCount

def pointTo (page : SlottedPage) (target : ℕ) (payload : Bytes) : SlottedPage :=
  page.setSlot target
    { page.slot target with
      offset := page.header.freeSpacePtr
      size := UInt16.ofNat payload.length
      isDeleted := 0 }

def countSlot (page : SlottedPage) (target : ℕ) : SlottedPage :=
  if target = page.slotCount then page.setHeader { page.header with slotCount := page.header.slotCount + 1 }
  else page

def place (page : SlottedPage) (payload : Bytes) : UInt16 × SlottedPage :=
  let page := page.store payload
  let target := page.targetSlot
  (UInt16.ofNat target, (page.pointTo target payload).countSlot target)

def insertTuple (page temp : SlottedPage) (payload : Bytes) : Option UInt16 × SlottedPage :=
  let room := page.makeRoom temp (payload.length + slotCodec.size)
  if room.1 then (some (room.2.place payload).1, (room.2.place payload).2) else (none, room.2)

def Live (page : SlottedPage) (i : ℕ) : Prop := i < page.slotCount ∧ (page.slot i).isDeleted = 0

instance (page : SlottedPage) (i : ℕ) : Decidable (page.Live i) := inferInstanceAs (Decidable (_ ∧ _))

def getTuple (page : SlottedPage) (slotId : UInt16) : Option Bytes :=
  if page.Live slotId.toNat then
    let s := page.slot slotId.toNat
    some (page.read s.offset.toNat s.size.toNat)
  else none

def overwrite (page : SlottedPage) (i : ℕ) (newPayload : Bytes) : SlottedPage :=
  let page := page.write (page.slot i).offset.toNat newPayload
  page.setSlot i { page.slot i with size := UInt16.ofNat newPayload.length }

def relocate (page : SlottedPage) (i : ℕ) (newPayload : Bytes) : SlottedPage :=
  let page := page.store newPayload
  page.setSlot i
    { page.slot i with
      offset := page.header.freeSpacePtr
      size := UInt16.ofNat newPayload.length }

def updateTuple (page temp : SlottedPage) (slotId : UInt16) (newPayload : Bytes) : Bool × SlottedPage :=
  if page.Live slotId.toNat then
    if newPayload.length ≤ (page.slot slotId.toNat).size.toNat then (true, page.overwrite slotId.toNat newPayload)
    else
      let room := page.makeRoom temp newPayload.length
      if room.1 then (true, room.2.relocate slotId.toNat newPayload) else (false, room.2)
  else (false, page)

def deleteTuple (page : SlottedPage) (slotId : UInt16) : Bool × SlottedPage :=
  if page.Live slotId.toNat then
    (true, page.setSlot slotId.toNat { page.slot slotId.toNat with isDeleted := 1, size := 0 })
  else (false, page)

end SlottedPage

end SystemLevel.Storage
