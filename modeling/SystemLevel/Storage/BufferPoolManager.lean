import SystemLevel.Foundations.Runs
import SystemLevel.Storage.LruKReplacer
import SystemLevel.Storage.SlottedPage

namespace SystemLevel.Storage

open Runs

/-- Every write goes through. -/
structure DiskManager where
  file : Bytes := []
  nextPageId : UInt64 := 0

namespace DiskManager

def offset (pageId : UInt64) : ℕ := (pageId * UInt64.ofNat pageSize).toNat

def writePage (d : DiskManager) (pageId : UInt64) (page : SlottedPage) : DiskManager :=
  { d with file := splice d.file (offset pageId) page.bytes }

/-- A `pread` that gets nothing, at the end of the file or at an offset that is negative as an `off_t`,
leaves zeros. One that gets a part leaves the rest of the page as it was. -/
def readPage (d : DiskManager) (pageId : UInt64) (page : SlottedPage) : SlottedPage :=
  let data := if offset pageId < 2 ^ 63 then slice d.file (offset pageId) pageSize else []
  if data = [] then SlottedPage.zero else page.write 0 data

theorem readPage_congr {d d' : DiskManager} (h : d.file = d'.file) (pageId : UInt64) (page : SlottedPage) :
    d.readPage pageId page = d'.readPage pageId page := by
  rw [readPage, h, readPage]

def allocatePage (d : DiskManager) : UInt64 × DiskManager :=
  (d.nextPageId, { d with nextPageId := d.nextPageId + 1 })

end DiskManager

def invalidPageId : UInt64 := UInt64.ofNat (2 ^ 64 - 1)

structure FrameMeta where
  pageId : UInt64 := 0
  pinCount : ℤ := 0
  isDirty : Bool := false
  deriving DecidableEq, Repr

structure BufferPoolManager where
  poolSize : ℕ
  disk : DiskManager
  replacer : LruKReplacer
  pages : FrameId → SlottedPage
  frames : FrameId → FrameMeta
  freeList : List FrameId
  pageTable : AList (fun _ : UInt64 => FrameId)

/-- How a call meets the elements of the hash tables, and what it reads as the front of an empty history. -/
structure Visit where
  entries : IterationOrder FrameEntry := IterationOrder.stored _
  front : UInt64 := 0
  table : IterationOrder (Sigma fun _ : UInt64 => FrameId) := IterationOrder.stored _

namespace BufferPoolManager

/-- The frames that the loop of the constructor reaches: `frame_id_t` has 32 bits. -/
def reached (poolSize : ℕ) : ℕ := poolSize % 2 ^ 32

def construct (poolSize : ℕ) (file : Bytes) (k : ℕ) : BufferPoolManager where
  poolSize
  disk := { file }
  replacer := { k }
  pages _ := SlottedPage.init 0
  frames f := if f < reached poolSize then { pageId := invalidPageId } else {}
  freeList := List.range (reached poolSize)
  pageTable := ∅

def setFrame (pool : BufferPoolManager) (f : FrameId) (frame : FrameMeta) : BufferPoolManager :=
  { pool with frames := Function.update pool.frames f frame }

def findAvailableFrame (pool : BufferPoolManager) (visit : Visit) : Option FrameId × BufferPoolManager :=
  match pool.freeList with
  | f :: rest => (some f, { pool with freeList := rest })
  | [] =>
    let victim := pool.replacer.victim visit.entries visit.front
    (victim.1, { pool with replacer := victim.2 })

def writeOut (pool : BufferPoolManager) (pageId : UInt64) (f : FrameId) : BufferPoolManager :=
  { pool.setFrame f { pool.frames f with isDirty := false } with
    disk := pool.disk.writePage pageId (pool.pages f) }

def writeBack (pool : BufferPoolManager) (pageId : UInt64) (f : FrameId) : BufferPoolManager :=
  if (pool.frames f).isDirty then pool.writeOut pageId f else pool

def vacate (pool : BufferPoolManager) (f : FrameId) : BufferPoolManager :=
  if (pool.frames f).pageId = invalidPageId then pool
  else { pool.writeBack (pool.frames f).pageId f with pageTable := pool.pageTable.erase (pool.frames f).pageId }

def access (pool : BufferPoolManager) (f : FrameId) : BufferPoolManager :=
  { pool with replacer := (pool.replacer.recordAccess f).setEvictable f false }

def install (pool : BufferPoolManager) (f : FrameId) (pageId : UInt64) (page : SlottedPage) : BufferPoolManager :=
  access
    { pool with
      pages := Function.update pool.pages f page
      pageTable := pool.pageTable.insert pageId f
      frames := Function.update pool.frames f { pageId, pinCount := 1, isDirty := false } } f

def newPage (pool : BufferPoolManager) (visit : Visit) : Option (UInt64 × FrameId) × BufferPoolManager :=
  match pool.findAvailableFrame visit with
  | (none, pool) => (none, pool)
  | (some f, pool) =>
    let allocated := pool.disk.allocatePage
    let pool := { pool with disk := allocated.2 }
    (some (allocated.1, f), (pool.vacate f).install f allocated.1 (SlottedPage.init allocated.1))

def int32 (x : ℤ) : ℤ := Int.bmod x (2 ^ 32)

def fetchPage (pool : BufferPoolManager) (visit : Visit) (pageId : UInt64) : Option FrameId × BufferPoolManager :=
  match pool.pageTable.lookup pageId with
  | some f =>
    (some f, (pool.setFrame f { pool.frames f with pinCount := int32 ((pool.frames f).pinCount + 1) }).access f)
  | none =>
    match pool.findAvailableFrame visit with
    | (none, pool) => (none, pool)
    | (some f, pool) =>
      let pool := pool.vacate f
      (some f, pool.install f pageId (pool.disk.readPage pageId (pool.pages f)))

def unpinPage (pool : BufferPoolManager) (pageId : UInt64) (isDirty : Bool) : Bool × BufferPoolManager :=
  match pool.pageTable.lookup pageId with
  | none => (false, pool)
  | some f =>
    let frame := pool.frames f
    if frame.pinCount ≤ 0 then (false, pool)
    else
      let pool := pool.setFrame f { frame with isDirty := frame.isDirty || isDirty, pinCount := frame.pinCount - 1 }
      (true, if frame.pinCount - 1 = 0 then { pool with replacer := pool.replacer.setEvictable f true } else pool)

def flushPage (pool : BufferPoolManager) (pageId : UInt64) : Bool × BufferPoolManager :=
  match pool.pageTable.lookup pageId with
  | none => (false, pool)
  | some f => (true, pool.writeOut pageId f)

def flushAllPages (pool : BufferPoolManager) (visit : Visit) : BufferPoolManager :=
  (visit.table.visit pool.pageTable.entries).foldl (fun pool entry => pool.writeBack entry.1 entry.2) pool

def change (pool : BufferPoolManager) (pageId : UInt64) (page : SlottedPage) : BufferPoolManager :=
  match pool.pageTable.lookup pageId with
  | none => pool
  | some f => { pool with pages := Function.update pool.pages f page }

inductive Op
  | newPage (visit : Visit)
  | fetchPage (visit : Visit) (pageId : UInt64)
  | unpinPage (pageId : UInt64) (isDirty : Bool)
  | flushPage (pageId : UInt64)
  | flushAllPages (visit : Visit)
  | change (pageId : UInt64) (page : SlottedPage)

def step (pool : BufferPoolManager) : Op → BufferPoolManager
  | .newPage visit => (pool.newPage visit).2
  | .fetchPage visit pageId => (pool.fetchPage visit pageId).2
  | .unpinPage pageId isDirty => (pool.unpinPage pageId isDirty).2
  | .flushPage pageId => (pool.flushPage pageId).2
  | .flushAllPages visit => pool.flushAllPages visit
  | .change pageId page => pool.change pageId page

abbrev run (poolSize : ℕ) (file : Bytes) (k : ℕ) (ops : List Op) : BufferPoolManager :=
  Runs.run step (construct poolSize file k) ops

end BufferPoolManager

end SystemLevel.Storage
