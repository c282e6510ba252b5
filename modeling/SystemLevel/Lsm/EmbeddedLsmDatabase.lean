import SystemLevel.Foundations.Runs
import SystemLevel.Lsm.LsmCore

/-!
The compactor thread is left out: `compact_level0` drops what it builds and changes no state.
-/

namespace SystemLevel.Lsm

open Runs

structure EmbeddedLsmDatabase extends LsmCore where
  walOpen : Bool := false

namespace EmbeddedLsmDatabase

def walName : FileName := { stem := "engine", extension := ".wal" }

theorem walName_ne (stem : String) (id : UInt64) : walName ≠ tableName stem id := by
  intro h
  have hextension := (FileName.mk.inj h).2
  exact absurd hextension (by decide)

def createWal (dir : Directory) : Directory := if (dir.lookup walName).isSome then dir else dir.insert walName []

def construct (dir : Directory) (threshold : UInt64) (walOpen : Bool) : EmbeddedLsmDatabase :=
  { dir := if walOpen then createWal dir else dir, threshold, walOpen }

/-- The `write` of `put`, with `O_APPEND`. Its result is not looked at. -/
def append (wal : Transfer) (db : EmbeddedLsmDatabase) (key value : UInt64) : EmbeddedLsmDatabase :=
  if db.walOpen then
    { db with
      dir := db.dir.insert walName
        ((db.dir.lookup walName).getD [] ++ transfer wal (pairCodec.encode (key, value))) }
  else db

variable (sizing : BloomSizing)

def flushMemtable (io : FlushIo) (db : EmbeddedLsmDatabase) : EmbeddedLsmDatabase :=
  { db with toLsmCore := db.toLsmCore.flush sizing "sst_" io }

def putLocked (io : FlushIo) (db : EmbeddedLsmDatabase) (key value : UInt64) (level : Level) : EmbeddedLsmDatabase :=
  { db with toLsmCore := db.toLsmCore.insert sizing "sst_" io key value level }

def put (wal : Transfer) (io : FlushIo) (db : EmbeddedLsmDatabase) (key value : UInt64) (level : Level) :
    EmbeddedLsmDatabase :=
  (db.append wal key value).putLocked sizing io key value level

def close (io : FlushIo) (db : EmbeddedLsmDatabase) : EmbeddedLsmDatabase :=
  { db.flushMemtable sizing io with walOpen := false }

/-- The entries that the loop over the log reads before a `read` does not return 16: the file ends, or
the call after so many others fails. -/
def walEntries (reads : Option ℕ) (wal : Bytes) : List Pair :=
  let entries := pairCodec.decodeAll (wal.length / pairCodec.size) wal
  match reads with
  | none => entries
  | some n => entries.take n

def replay (levels : ℕ → Level) (entries : List Pair) (m : MemTable) : MemTable :=
  entries.zipIdx.foldl (fun m e => m.put e.1.1 e.1.2 (levels e.2)) m

/-- The listing is what `directory_iterator` goes through, with the outcome of the calls of
`SSTable::open` on each file. -/
def recover (listing : List (FileName × OpenIo)) (reads : Option ℕ) (levels : ℕ → Level) (db : EmbeddedLsmDatabase) :
    EmbeddedLsmDatabase :=
  { db with
    sstables := listing.filterMap fun entry =>
      if entry.1.extension = ".db" then SSTable.openFile entry.2 db.dir entry.1 else none
    memtable := replay levels (walEntries reads ((db.dir.lookup walName).getD [])) MemTable.empty }

inductive Op
  | construct (threshold : UInt64) (walOpen : Bool)
  | recover (listing : List (FileName × OpenIo)) (reads : Option ℕ) (levels : ℕ → Level)
  | put (key value : UInt64) (level : Level) (wal : Transfer) (io : FlushIo)
  | get (key : UInt64)
  | flushMemtable (io : FlushIo)
  | close (io : FlushIo)

def step (db : EmbeddedLsmDatabase) : Op → EmbeddedLsmDatabase
  | .construct threshold walOpen => construct db.dir threshold walOpen
  | .recover listing reads levels => db.recover listing reads levels
  | .put key value level wal io => db.put sizing wal io key value level
  | .get _ => db
  | .flushMemtable io => db.flushMemtable sizing io
  | .close io => db.close sizing io

abbrev run (dir : Directory) (ops : List Op) : EmbeddedLsmDatabase :=
  Runs.run (step sizing) { dir, threshold := 0 } ops

end EmbeddedLsmDatabase

end SystemLevel.Lsm
