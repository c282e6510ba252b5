import SystemLevel.Lsm.DatabaseThreads

namespace SystemLevel.Lsm

open Linearization SharedMutexes
open LsmCore (searchTables Numbered)

namespace ClientPoint

def phase : ClientPoint → Phase DbCall DbAnswer
  | idle => .idle
  | logging key value level | writingLog key value level _ | lockingPut key value level | inserting key value level =>
    .called (.put key value level)
  | lockingGet key | searching key | scanning key _ => .called (.get key)
  | loadingRunning | storingRunning | notifyingAll | joining => .called .close
  | lockingFlush closes => .called (if closes then .close else .flushMemtable)
  | checking | flushing _ _ | unlocking _ | testingWal | closingWal | clearingWal => .answered .done
  | unlockingGet value => .answered (.found value)

def mode : ClientPoint → Option Mode
  | inserting _ _ _ | checking | flushing _ _ | unlocking _ => some .exclusive
  | searching _ | scanning _ _ | unlockingGet _ => some .shared
  | _ => none

end ClientPoint

def CompactorPoint.mode : CompactorPoint → Option Mode
  | compacting | unlockingLatch => some .exclusive
  | _ => none

def mapSpec : Spec (UInt64 → Option UInt64) DbCall DbAnswer where
  init := fun _ => none
  apply map call :=
    match call with
    | .put key value _ => Function.update map key (some value)
    | _ => map
  answer map call :=
    match call with
    | .get key => .found (map key)
    | _ => .done

namespace LsmCore

variable {core : LsmCore} {dir : Directory}

theorem get_setDir (hdir : ∀ t ∈ core.sstables, dir.lookup t.filename = core.dir.lookup t.filename) :
    get { core with dir } = core.get := by
  funext key
  rw [get_eq, get_eq, searchTables_congr hdir]

theorem get_pushed {sst : SSTable} (hserves : ∀ key, sst.get core.dir key = core.memtable.get key) (key : UInt64) :
    searchTables core.dir (core.sstables ++ [sst]) key = core.get key := by
  rw [searchTables_append, searchTables_singleton, hserves, get_eq]

theorem get_replaced (hserves : ∀ key, searchTables core.dir core.sstables key = core.get key) :
    get { core with memtable := MemTable.empty } = core.get := by
  funext key
  rw [get_eq, MemTable.get_empty, Option.none_or]
  exact hserves key

end LsmCore

namespace DatabaseThreads

def FlushReady (sizing : BloomSizing) (core : LsmCore) : FlushPoint → Prop
  | .testing => True
  | .numbering => core.memtable.size ≠ 0
  | .building id => core.memtable.size ≠ 0 ∧ id < core.nextSstId ∧ Numbered "sst_" { core with nextSstId := id }
  | .opening id => id < core.nextSstId ∧
    core.dir.lookup (tableName "sst_" id) = some (SSTable.written sizing {} core.memtable.toVector) ∧
    (SSTable.written sizing {} core.memtable.toVector).length < 2 ^ 63
  | .pushing sst => (∃ id < core.nextSstId, sst.filename = tableName "sst_" id) ∧
    ∀ key, sst.get core.dir key = core.memtable.get key
  | .notifying | .replacing => ∀ key, searchTables core.dir core.sstables key = core.get key

def Ready (sizing : BloomSizing) (core : LsmCore) : ClientPoint → Prop
  | .flushing _ point => FlushReady sizing core point
  | .scanning key left => left ≤ core.sstables.length ∧
    core.get key = searchTables core.dir (core.sstables.take left) key
  | _ => True

variable {P : Type} [DecidableEq P]

structure Inv (sizing : BloomSizing) (s : DatabaseThreads P) : Prop where
  linearized : Linearized mapSpec s.events s.db.toLsmCore.get fun p => (s.clients p).phase
  clientMode : ∀ p, s.latch.mode (some p) = (s.clients p).mode
  compactorMode : s.latch.mode none = s.compactor.mode
  numbered : s.db.toLsmCore.Numbered "sst_"
  ready : ∀ p, Ready sizing s.db.toLsmCore (s.clients p)

variable {sizing : BloomSizing} {s s' : DatabaseThreads P} {p : P} {point : ClientPoint} {core : LsmCore}

section Modes

variable (hclient : ∀ p, s.latch.mode (some p) = (s.clients p).mode)

include hclient

theorem mode_kept (hmode : point.mode = (s.clients p).mode) (q : Option P) :
    s.latch.mode q = if q = some p then point.mode else s.latch.mode q := by
  split_ifs with hq
  · rw [hq, hclient, hmode]
  · rfl

theorem mode_unlocked (hexclusive : (s.clients p).mode = some .exclusive) (hmode : point.mode = none) (q : Option P) :
    s.latch.unlock.mode q = if q = some p then point.mode else s.latch.mode q := by
  rw [hmode]
  apply SharedMutex.mode_unlock
  rw [hclient, hexclusive]

theorem mode_unlockedShared (hshared : (s.clients p).mode = some .shared) (hmode : point.mode = none) (q : Option P) :
    (s.latch.unlockShared (some p)).mode q = if q = some p then point.mode else s.latch.mode q := by
  rw [hmode]
  apply SharedMutex.mode_unlockShared
  rw [hclient, hshared]

end Modes

theorem compactor_mode_kept {point : CompactorPoint} (hcompactor : s.latch.mode none = s.compactor.mode)
    (hmode : point.mode = s.compactor.mode) (q : Option P) :
    s.latch.mode q = if q = none then point.mode else s.latch.mode q := by
  split_ifs with hq
  · rw [hq, hcompactor, hmode]
  · rfl

omit [DecidableEq P] in
theorem notify_mode (s : DatabaseThreads P) : s.notify.compactor.mode = s.compactor.mode := by
  unfold notify
  by_cases hwaiting : s.compactor = .waiting
  · rw [hwaiting]
    rfl
  · simp only [if_neg hwaiting]

theorem ready_of_mode (hmode : point.mode = none) : Ready sizing core point := by
  cases point with
  | flushing closes point => cases hmode
  | scanning key left => cases hmode
  | _ => trivial

structure ClientStep (sizing : BloomSizing) (s : DatabaseThreads P) (p : P) (point : ClientPoint)
    (s' : DatabaseThreads P) : Prop where
  clients : s'.clients = Function.update s.clients p point
  compactor : s'.compactor.mode = s.compactor.mode
  latch : ∀ q, s'.latch.mode q = if q = some p then point.mode else s.latch.mode q
  numbered : s'.db.toLsmCore.Numbered "sst_"
  ready : Ready sizing s'.db.toLsmCore point
  others : ∀ q, q ≠ p → Ready sizing s'.db.toLsmCore (s.clients q)

namespace ClientStep

variable (hstep : ClientStep sizing s p point s')

include hstep

theorem phase_self : (s'.clients p).phase = point.phase := by
  rw [hstep.clients, Function.update_self]

theorem phase_other (q : P) (hq : q ≠ p) : (s'.clients q).phase = (s.clients q).phase := by
  rw [hstep.clients, Function.update_of_ne hq]

theorem inv (h : Inv sizing s)
    (hlinearized : Linearized mapSpec s'.events s'.db.toLsmCore.get fun q => (s'.clients q).phase) : Inv sizing s' := by
  refine ⟨hlinearized, ?_, ?_, hstep.numbered, ?_⟩
  · intro q
    rw [hstep.latch, hstep.clients]
    by_cases hq : q = p
    · rw [if_pos (congrArg some hq), hq, Function.update_self]
    · rw [if_neg (mt Option.some.inj hq), Function.update_of_ne hq]
      exact h.clientMode q
  · rw [hstep.latch, if_neg (Option.some_ne_none p).symm, hstep.compactor]
    exact h.compactorMode
  · intro q
    rw [hstep.clients]
    by_cases hq : q = p
    · rw [hq, Function.update_self]
      exact hstep.ready
    · rw [Function.update_of_ne hq]
      exact hstep.others q hq

theorem silent (h : Inv sizing s) (hevents : s'.events = s.events) (hget : s'.db.toLsmCore.get = s.db.toLsmCore.get)
    (hphase : point.phase = (s.clients p).phase) : Inv sizing s' := by
  apply hstep.inv h
  rw [hevents, hget]
  apply h.linearized.congr
  intro q
  by_cases hq : q = p
  · rw [hq, hstep.phase_self, hphase]
  · exact hstep.phase_other q hq

theorem invokes (h : Inv sizing s) {call : DbCall} (hevents : s'.events = s.events ++ [Event.invoked p call])
    (hget : s'.db.toLsmCore.get = s.db.toLsmCore.get) (hidle : (s.clients p).phase = .idle)
    (hphase : point.phase = .called call) : Inv sizing s' := by
  apply hstep.inv h
  rw [hevents, hget]
  exact h.linearized.invoke hidle (hstep.phase_self.trans hphase) hstep.phase_other

theorem effects (h : Inv sizing s) {call : DbCall} {answer : DbAnswer}
    (hevents : s'.events = s.events ++ [Event.effected p call answer])
    (hanswer : answer = mapSpec.answer s.db.toLsmCore.get call)
    (hget : s'.db.toLsmCore.get = mapSpec.apply s.db.toLsmCore.get call) (hcalled : (s.clients p).phase = .called call)
    (hphase : point.phase = .answered answer) : Inv sizing s' := by
  apply hstep.inv h
  rw [hevents, hget, hanswer]
  apply h.linearized.effect hcalled
  · rw [← hanswer]
    exact hstep.phase_self.trans hphase
  · exact hstep.phase_other

theorem returns (h : Inv sizing s) {answer : DbAnswer} (hevents : s'.events = s.events ++ [Event.returned p answer])
    (hget : s'.db.toLsmCore.get = s.db.toLsmCore.get) (hanswered : (s.clients p).phase = .answered answer)
    (hphase : point.phase = .idle) : Inv sizing s' := by
  apply hstep.inv h
  rw [hevents, hget]
  exact h.linearized.finish hanswered (hstep.phase_self.trans hphase) hstep.phase_other

end ClientStep

namespace Inv

variable (h : Inv sizing s)

include h

theorem others_of_core (hcore : s'.db.toLsmCore = s.db.toLsmCore) (q : P) :
    Ready sizing s'.db.toLsmCore (s.clients q) := by
  rw [hcore]
  exact h.ready q

theorem others_of_exclusive (hmode : (s.clients p).mode = some .exclusive) (q : P) (hq : q ≠ p) :
    Ready sizing core (s.clients q) := by
  apply ready_of_mode
  by_contra hother
  rw [← h.clientMode] at hmode hother
  exact hq (Option.some.inj (SharedMutex.alone hmode hother))

theorem moves (hclients : s'.clients = Function.update s.clients p point)
    (hcompactor : s'.compactor.mode = s.compactor.mode) (hlatch : s'.latch = s.latch)
    (hcore : s'.db.toLsmCore = s.db.toLsmCore) (hmode : point.mode = (s.clients p).mode)
    (hready : Ready sizing s.db.toLsmCore point) : ClientStep sizing s p point s' := by
  refine ⟨hclients, hcompactor, ?_, hcore ▸ h.numbered, hcore ▸ hready, fun q _ => h.others_of_core hcore q⟩
  rw [hlatch]
  exact mode_kept h.clientMode hmode

theorem writes (hclients : s'.clients = Function.update s.clients p point) (hcompactor : s'.compactor = s.compactor)
    (hlatch : s'.latch = s.latch) (hnumbered : s'.db.toLsmCore.Numbered "sst_")
    (hexclusive : (s.clients p).mode = some .exclusive) (hmode : point.mode = some .exclusive)
    (hready : Ready sizing s'.db.toLsmCore point) : ClientStep sizing s p point s' := by
  refine ⟨hclients, by rw [hcompactor], ?_, hnumbered, hready, h.others_of_exclusive hexclusive⟩
  rw [hlatch]
  exact mode_kept h.clientMode (hmode.trans hexclusive.symm)

theorem latches (hclients : s'.clients = Function.update s.clients p point) (hcompactor : s'.compactor = s.compactor)
    (hcore : s'.db.toLsmCore = s.db.toLsmCore)
    (hlatch : ∀ q, s'.latch.mode q = if q = some p then point.mode else s.latch.mode q)
    (hready : Ready sizing s.db.toLsmCore point) : ClientStep sizing s p point s' :=
  ⟨hclients, by rw [hcompactor], hlatch, hcore ▸ h.numbered, hcore ▸ hready, fun q _ => h.others_of_core hcore q⟩

end Inv

section Logging

variable {dir : Directory} (hdir : ∀ id, dir.lookup (tableName "sst_" id) = core.dir.lookup (tableName "sst_" id))
  (hnumbered : core.Numbered "sst_")

include hdir

theorem get_of_name {t : SSTable} (ht : ∃ id < core.nextSstId, t.filename = tableName "sst_" id) (key : UInt64) :
    t.get dir key = t.get core.dir key := by
  obtain ⟨id, -, hname⟩ := ht
  apply SSTable.get_congr
  rw [hname]
  exact hdir id

include hnumbered

theorem lookup_of_numbered (t : SSTable) (ht : t ∈ core.sstables) :
    dir.lookup t.filename = core.dir.lookup t.filename := by
  obtain ⟨id, -, hname⟩ := hnumbered t ht
  rw [hname]
  exact hdir id

theorem get_logged : LsmCore.get { core with dir } = core.get :=
  LsmCore.get_setDir (lookup_of_numbered hdir hnumbered)

theorem Ready.logged (h : Ready sizing core point) : Ready sizing { core with dir } point := by
  have hget := get_logged hdir hnumbered
  have hlookup := lookup_of_numbered hdir hnumbered
  cases point with
  | scanning key left =>
    obtain ⟨hleft, hkey⟩ := h
    refine ⟨hleft, ?_⟩
    rw [hget, hkey]
    exact (LsmCore.searchTables_congr (fun t ht => hlookup t (List.mem_of_mem_take ht)) key).symm
  | flushing closes point =>
    cases point with
    | testing => trivial
    | numbering => exact h
    | building id => exact h
    | opening id =>
      obtain ⟨hid, hfile, hlength⟩ := h
      exact ⟨hid, (hdir id).trans hfile, hlength⟩
    | pushing sst =>
      obtain ⟨hname, hserves⟩ := h
      exact ⟨hname, fun key => (get_of_name hdir hname key).trans (hserves key)⟩
    | notifying =>
      intro key
      rw [hget]
      exact (LsmCore.searchTables_congr hlookup key).trans (h key)
    | replacing =>
      intro key
      rw [hget]
      exact (LsmCore.searchTables_congr hlookup key).trans (h key)
  | _ => trivial

end Logging

end DatabaseThreads

end SystemLevel.Lsm
