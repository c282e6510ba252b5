import SystemLevel.Foundations.Linearization
import SystemLevel.Foundations.Runs
import SystemLevel.Foundations.SharedMutexes
import SystemLevel.Lsm.EmbeddedLsmDatabase

/-!
`EmbeddedLsmDatabase` called by any number of threads, beside the thread of its compactor. A step takes or gives back
`db_latch_` or `compaction_mutex_`, or is one access to what the threads share. A thread that has to wait stays where it
is.
-/

namespace SystemLevel.Lsm

open Linearization SharedMutexes

inductive DbCall
  | put (key value : UInt64) (level : Level)
  | get (key : UInt64)
  | flushMemtable
  | close

inductive DbAnswer
  | done
  | found (value : Option UInt64)

inductive FlushPoint
  | testing
  | numbering
  -- `id` is the number in `sst_path`.
  | building (id : UInt64)
  | opening (id : UInt64)
  | pushing (sst : SSTable)
  | notifying
  | replacing

inductive ClientPoint
  | idle
  -- `put`: the load of `wal_fd_` and the `write` to the log, without the latch. `fd` says that it was not -1.
  | logging (key value : UInt64) (level : Level)
  | writingLog (key value : UInt64) (level : Level) (fd : Bool)
  | lockingPut (key value : UInt64) (level : Level)
  | inserting (key value : UInt64) (level : Level)
  | checking
  -- `close`, up to the join of the compactor.
  | loadingRunning
  | storingRunning
  | notifyingAll
  | joining
  -- A flush. `closes` says that it is the one of `close`.
  | lockingFlush (closes : Bool)
  | flushing (closes : Bool) (point : FlushPoint)
  | unlocking (closes : Bool)
  -- The end of `close`: the test of `wal_fd_`, the `::close` and the store of -1.
  | testingWal
  | closingWal
  | clearingWal
  -- `get`: the memtable, and then the last of the tables that are `left`.
  | lockingGet (key : UInt64)
  | searching (key : UInt64)
  | scanning (key : UInt64) (left : ℕ)
  | unlockingGet (value : Option UInt64)

inductive CompactorPoint
  | testing
  | lockingMutex
  -- The condition of `wait_for`, and the sleep without the mutex.
  | deciding
  | waiting
  | relocking (timedOut : Bool)
  | retesting
  -- `compact_level0`.
  | lockingLatch
  | compacting
  | unlockingLatch
  | unlockingMutex (exits : Bool)
  | exited
  deriving DecidableEq

/-- `none` is the compactor among those who hold `latch`. It alone takes `compaction_mutex_`. `logOpen` says that the
descriptor of the log has not been closed, while `db.walOpen` is what `wal_fd_` says. -/
structure DatabaseThreads (P : Type) where
  db : EmbeddedLsmDatabase
  logOpen : Bool := db.walOpen
  latch : SharedMutex (Option P) := SharedMutex.free
  mutex : Bool := false
  running : Bool := true
  clients : P → ClientPoint := fun _ => .idle
  compactor : CompactorPoint := .testing
  events : List (Event P DbCall DbAnswer) := []

namespace DatabaseThreads

variable {P : Type} [DecidableEq P]

/-- `io` and `wal` are the outcomes of the system calls of the step, and `timedOut` tells how a sleep ends. A `stray`
write goes to a descriptor that has been closed and opened again for another file: it may change any file. -/
inductive Action (P : Type)
  | call (p : P) (call : DbCall)
  | go (p : P) (io : FlushIo) (wal : Transfer)
  | stray (p : P) (dir : Directory)
  | compact (timedOut : Bool)

section Steps

variable (sizing : BloomSizing) (s : DatabaseThreads P) (p : P) (io : FlushIo) (wal : Transfer)

def goTo (point : ClientPoint) : DatabaseThreads P := { s with clients := Function.update s.clients p point }

def setCore (core : LsmCore) : DatabaseThreads P := { s with db := { s.db with toLsmCore := core } }

def record (event : Event P DbCall DbAnswer) : DatabaseThreads P := { s with events := s.events ++ [event] }

def lock (point : ClientPoint) : DatabaseThreads P :=
  match s.latch.lock (some p) with
  | some latch => { s.goTo p point with latch }
  | none => s

def notify : DatabaseThreads P :=
  { s with compactor := if s.compactor = .waiting then .relocking false else s.compactor }

def found (key : UInt64) (value : Option UInt64) : DatabaseThreads P :=
  (s.goTo p (.unlockingGet value)).record (.effected p (.get key) (.found value))

def goFlush (closes : Bool) : FlushPoint → DatabaseThreads P
  | .testing =>
    if s.db.memtable.size = 0 then s.goTo p (.unlocking closes) else s.goTo p (.flushing closes .numbering)
  | .numbering =>
    (s.goTo p (.flushing closes (.building s.db.nextSstId))).setCore
      { s.db.toLsmCore with nextSstId := s.db.nextSstId + 1 }
  | .building id =>
    let built := SSTable.build sizing io s.db.dir (tableName "sst_" id) s.db.memtable.toVector
    (s.goTo p (.flushing closes (if built.2 then .opening id else .replacing))).setCore
      { s.db.toLsmCore with dir := built.1 }
  | .opening id =>
    match SSTable.openFile io.reopen s.db.dir (tableName "sst_" id) with
    | some sst => s.goTo p (.flushing closes (.pushing sst))
    | none => s.goTo p (.flushing closes .replacing)
  | .pushing sst =>
    (s.goTo p (.flushing closes .notifying)).setCore { s.db.toLsmCore with sstables := s.db.sstables ++ [sst] }
  | .notifying => (s.goTo p (.flushing closes .replacing)).notify
  | .replacing => (s.goTo p (.unlocking closes)).setCore { s.db.toLsmCore with memtable := MemTable.empty }

def go : ClientPoint → DatabaseThreads P
  | .idle => s
  | .logging key value level => s.goTo p (.writingLog key value level s.db.walOpen)
  | .writingLog key value level fd =>
    if fd = true ∧ s.logOpen = true then
      { s.goTo p (.lockingPut key value level) with db := s.db.append wal key value }
    else s.goTo p (.lockingPut key value level)
  | .lockingPut key value level => s.lock p (.inserting key value level)
  | .inserting key value level =>
    ((s.goTo p .checking).setCore (s.db.toLsmCore.remember key value level)).record
      (.effected p (.put key value level) .done)
  | .checking =>
    if s.db.threshold ≤ s.db.memtable.byteSize then s.goTo p (.flushing false .testing)
    else s.goTo p (.unlocking false)
  | .loadingRunning => if s.running then s.goTo p .storingRunning else s.goTo p (.lockingFlush true)
  | .storingRunning => { s.goTo p .notifyingAll with running := false }
  | .notifyingAll => (s.goTo p .joining).notify
  | .joining => if s.compactor = .exited then s.goTo p (.lockingFlush true) else s
  | .lockingFlush closes =>
    match s.latch.lock (some p) with
    | some latch =>
      ({ s.goTo p (.flushing closes .testing) with latch }).record
        (.effected p (if closes then .close else .flushMemtable) .done)
    | none => s
  | .flushing closes point => s.goFlush sizing p io closes point
  | .unlocking true => { s.goTo p .testingWal with latch := s.latch.unlock }
  | .unlocking false => ({ s.goTo p .idle with latch := s.latch.unlock }).record (.returned p .done)
  | .testingWal => if s.db.walOpen then s.goTo p .closingWal else (s.goTo p .idle).record (.returned p .done)
  | .closingWal => { s.goTo p .clearingWal with logOpen := false }
  | .clearingWal => ({ s.goTo p .idle with db := { s.db with walOpen := false } }).record (.returned p .done)
  | .lockingGet key =>
    match s.latch.lockShared (some p) with
    | some latch => { s.goTo p (.searching key) with latch }
    | none => s
  | .searching key =>
    match s.db.memtable.get key with
    | some value => s.found p key (some value)
    | none => s.goTo p (.scanning key s.db.sstables.length)
  | .scanning key 0 => s.found p key none
  | .scanning key (left + 1) =>
    match s.db.sstables[left]? with
    | some sst =>
      match sst.get s.db.dir key with
      | some value => s.found p key (some value)
      | none => s.goTo p (.scanning key left)
    | none => s
  | .unlockingGet value =>
    ({ s.goTo p .idle with latch := s.latch.unlockShared (some p) }).record (.returned p (.found value))

def goStray (dir : Directory) : ClientPoint → DatabaseThreads P
  | .writingLog key value level true =>
    if s.logOpen then s else (s.goTo p (.lockingPut key value level)).setCore { s.db.toLsmCore with dir }
  | _ => s

/-- The condition of `wait_for` reads `sstables_` without `db_latch_`. After a time-out it is read once more, and what
it says is not looked at. `compact_level0` drops what it merges. -/
def goCompactor (timedOut : Bool) : CompactorPoint → DatabaseThreads P
  | .testing => { s with compactor := if s.running then .lockingMutex else .exited }
  | .lockingMutex => if s.mutex then s else { s with mutex := true, compactor := .deciding }
  | .deciding =>
    if s.running = false ∨ 8 ≤ s.db.sstables.length then { s with compactor := .retesting }
    else { s with mutex := false, compactor := .waiting }
  | .waiting => { s with compactor := .relocking timedOut }
  | .relocking timedOut =>
    if s.mutex then s else { s with mutex := true, compactor := if timedOut then .retesting else .deciding }
  | .retesting => { s with compactor := if s.running then .lockingLatch else .unlockingMutex true }
  | .lockingLatch =>
    match s.latch.lock none with
    | some latch => { s with latch, compactor := .compacting }
    | none => s
  | .compacting => { s with compactor := .unlockingLatch }
  | .unlockingLatch => { s with latch := s.latch.unlock, compactor := .unlockingMutex false }
  | .unlockingMutex exits => { s with mutex := false, compactor := if exits then .exited else .testing }
  | .exited => s

end Steps

def start : DbCall → ClientPoint
  | .put key value level => .logging key value level
  | .get key => .lockingGet key
  | .flushMemtable => .lockingFlush false
  | .close => .loadingRunning

def step (sizing : BloomSizing) (s : DatabaseThreads P) : Action P → DatabaseThreads P
  | .call p call =>
    match s.clients p with
    | .idle => (s.goTo p (start call)).record (.invoked p call)
    | _ => s
  | .go p io wal => s.go sizing p io wal (s.clients p)
  | .stray p dir => s.goStray p dir (s.clients p)
  | .compact timedOut => s.goCompactor timedOut s.compactor

abbrev run (sizing : BloomSizing) (db : EmbeddedLsmDatabase) (actions : List (Action P)) : DatabaseThreads P :=
  Runs.run (step sizing) { db } actions

end DatabaseThreads

namespace ClientPoint

def inClose : ClientPoint → Bool
  | loadingRunning | storingRunning | notifyingAll | joining => true
  | lockingFlush closes | flushing closes _ | unlocking closes => closes
  | testingWal | closingWal | clearingWal => true
  | _ => false

end ClientPoint

namespace DatabaseThreads

variable {P : Type} [DecidableEq P]

/-- The numbers of the tables do not wrap, a file is no longer than an `off_t` can tell, and the log has not been closed
between the load of its descriptor and the `write`. -/
def Fits (sizing : BloomSizing) (s : DatabaseThreads P) (p : P) : Prop :=
  match s.clients p with
  | .writingLog _ _ _ true => s.logOpen = true
  | .flushing _ .numbering => s.db.nextSstId.toNat + 1 < 2 ^ 64
  | .flushing _ (.building _) => (SSTable.written sizing {} s.db.memtable.toVector).length < 2 ^ 63
  | _ => True

/-- The file system does what a flush asks of it. Two threads that called `close` at a time would both join the
compactor. -/
def Allowed (sizing : BloomSizing) (s : DatabaseThreads P) : Action P → Prop
  | .call p .close => ∀ q, q ≠ p → (s.clients q).inClose = false
  | .go p io _ => io = {} ∧ s.Fits sizing p
  | .stray p _ => s.Fits sizing p
  | _ => True

end DatabaseThreads

end SystemLevel.Lsm
