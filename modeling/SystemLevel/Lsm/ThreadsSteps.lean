import SystemLevel.Lsm.ThreadsInvariant

namespace SystemLevel.Lsm.DatabaseThreads

open Linearization SharedMutexes
open LsmCore (searchTables Numbered)

variable {P : Type} [DecidableEq P] {sizing : BloomSizing} {s s' : DatabaseThreads P} {p : P} {point : ClientPoint}
  {io : FlushIo} {wal : Transfer} {closes : Bool}

namespace Inv

variable (h : Inv sizing s)

include h

theorem goTo (hmode : point.mode = (s.clients p).mode) (hphase : point.phase = (s.clients p).phase)
    (hready : Ready sizing s.db.toLsmCore point) : Inv sizing (s.goTo p point) := by
  have hstep : ClientStep sizing s p point (s.goTo p point) := h.moves rfl rfl rfl rfl hmode hready
  exact hstep.silent h rfl rfl hphase

theorem goTo_notify (hmode : point.mode = (s.clients p).mode) (hphase : point.phase = (s.clients p).phase)
    (hready : Ready sizing s.db.toLsmCore point) : Inv sizing (s.goTo p point).notify := by
  have hstep : ClientStep sizing s p point (s.goTo p point).notify :=
    h.moves rfl (notify_mode (s.goTo p point)) rfl rfl hmode hready
  exact hstep.silent h rfl rfl hphase

theorem flushes {point' : FlushPoint} {core : LsmCore} (hpoint : s.clients p = .flushing closes point')
    (hmode : point.mode = some .exclusive) (hphase : point.phase = .answered .done) (hnumbered : core.Numbered "sst_")
    (hget : core.get = s.db.toLsmCore.get) (hready : Ready sizing core point) :
    Inv sizing ((s.goTo p point).setCore core) := by
  have hexclusive : (s.clients p).mode = some .exclusive := by
    rw [hpoint]
    rfl
  have hstep : ClientStep sizing s p point ((s.goTo p point).setCore core) :=
    h.writes rfl rfl rfl hnumbered hexclusive hmode hready
  apply hstep.silent h rfl hget
  rw [hphase, hpoint]
  rfl

theorem goFlush_numbering (hpoint : s.clients p = .flushing closes .numbering)
    (hnext : s.db.nextSstId.toNat + 1 < 2 ^ 64) : Inv sizing (s.goFlush sizing p io closes .numbering) := by
  have hlt := LsmCore.lt_next hnext
  have hready := h.ready p
  rw [hpoint] at hready
  apply h.flushes hpoint rfl rfl
  · intro t ht
    obtain ⟨id, hid, hname⟩ := h.numbered t ht
    exact ⟨id, UInt64.lt_trans hid hlt, hname⟩
  · rfl
  · exact ⟨hready, hlt, h.numbered⟩

theorem goFlush_building {id : UInt64} (hpoint : s.clients p = .flushing closes (.building id)) (hio : io = {})
    (hlength : (SSTable.written sizing {} s.db.memtable.toVector).length < 2 ^ 63) :
    Inv sizing (s.goFlush sizing p io closes (.building id)) := by
  have hready := h.ready p
  rw [hpoint] at hready
  obtain ⟨hsize, hid, hbelow⟩ := hready
  have hpairs : s.db.memtable.toVector ≠ [] := fun hnil => hsize (s.db.memtable.2.size_eq hnil)
  have hbuilt : SSTable.build sizing io s.db.dir (tableName "sst_" id) s.db.memtable.toVector =
      (s.db.dir.insert (tableName "sst_" id) (SSTable.written sizing {} s.db.memtable.toVector), true) := by
    rw [hio, SSTable.build_eq, if_neg hpairs]
    rfl
  unfold DatabaseThreads.goFlush
  dsimp only
  rw [hbuilt]
  apply h.flushes hpoint rfl rfl
  · exact h.numbered
  · apply LsmCore.get_setDir
    intro t ht
    exact AList.lookup_insert_ne (hbelow.fresh t ht)
  · exact ⟨hid, AList.lookup_insert _, hlength⟩

theorem goFlush_opening {id : UInt64} (hpoint : s.clients p = .flushing closes (.opening id)) (hio : io = {}) :
    Inv sizing (s.goFlush sizing p io closes (.opening id)) := by
  have hready := h.ready p
  rw [hpoint] at hready
  obtain ⟨hid, hfile, hlength⟩ := hready
  obtain ⟨sst, hload, hname, hserves⟩ := SSTable.written_serves sizing s.db.memtable.toVector_sorted hlength
    (tableName "sst_" id)
  have hopen : SSTable.openFile io.reopen s.db.dir (tableName "sst_" id) = some sst := by
    rw [hio, SSTable.openFile, if_pos rfl, hfile]
    exact hload
  unfold DatabaseThreads.goFlush
  dsimp only
  rw [hopen]
  apply h.goTo
  · rw [hpoint]
    rfl
  · rw [hpoint]
    rfl
  · refine ⟨⟨id, hid, hname⟩, fun key => ?_⟩
    rw [hserves _ hfile key, MemTable.get_eq_lookup]

theorem goFlush_pushing {sst : SSTable} (hpoint : s.clients p = .flushing closes (.pushing sst)) :
    Inv sizing (s.goFlush sizing p io closes (.pushing sst)) := by
  have hready := h.ready p
  rw [hpoint] at hready
  obtain ⟨hname, hserves⟩ := hready
  have hpushed := LsmCore.get_pushed hserves
  have hget : LsmCore.get { s.db.toLsmCore with sstables := s.db.sstables ++ [sst] } = s.db.toLsmCore.get := by
    funext key
    rw [LsmCore.get_eq, hpushed, LsmCore.get_eq, ← Option.or_assoc, Option.or_self]
  apply h.flushes hpoint rfl rfl
  · intro t ht
    rcases List.mem_append.mp ht with ht | ht
    · exact h.numbered t ht
    · rw [List.mem_singleton.mp ht]
      exact hname
  · exact hget
  · intro key
    rw [hget]
    exact hpushed key

theorem goFlush {point : FlushPoint} (hpoint : s.clients p = .flushing closes point)
    (hallowed : s.Allowed sizing (.go p io wal)) : Inv sizing (s.goFlush sizing p io closes point) := by
  obtain ⟨hio, hfits⟩ := hallowed
  rw [Fits, hpoint] at hfits
  have hready := h.ready p
  rw [hpoint] at hready
  cases point with
  | testing =>
    unfold DatabaseThreads.goFlush
    dsimp only
    split_ifs with hsize
    · exact h.goTo (by rw [hpoint]; rfl) (by rw [hpoint]; rfl) trivial
    · exact h.goTo (by rw [hpoint]; rfl) (by rw [hpoint]; rfl) hsize
  | numbering => exact h.goFlush_numbering hpoint hfits
  | building id => exact h.goFlush_building hpoint hio hfits
  | opening id => exact h.goFlush_opening hpoint hio
  | pushing sst => exact h.goFlush_pushing hpoint
  | notifying => exact h.goTo_notify (by rw [hpoint]; rfl) (by rw [hpoint]; rfl) hready
  | replacing => exact h.flushes hpoint rfl rfl h.numbered (LsmCore.get_replaced hready) trivial

theorem logs {key value : UInt64} {level : Level} {fd : Bool} (hpoint : s.clients p = .writingLog key value level fd) :
    Inv sizing { s.goTo p (.lockingPut key value level) with db := s.db.append wal key value } := by
  have hdir (id : UInt64) :
      (s.db.append wal key value).dir.lookup (tableName "sst_" id) = s.db.dir.lookup (tableName "sst_" id) := by
    unfold EmbeddedLsmDatabase.append
    split_ifs
    · exact AList.lookup_insert_ne (EmbeddedLsmDatabase.walName_ne "sst_" id).symm
    · rfl
  have hcore : (s.db.append wal key value).toLsmCore =
      { s.db.toLsmCore with dir := (s.db.append wal key value).dir } := by
    unfold EmbeddedLsmDatabase.append
    split_ifs
    · rfl
    · rfl
  have hstep : ClientStep sizing s p (.lockingPut key value level)
      { s.goTo p (.lockingPut key value level) with db := s.db.append wal key value } := by
    have hmode : ∀ q, s.latch.mode q = if q = some p then none else s.latch.mode q :=
      @mode_kept _ _ s p (.lockingPut key value level) h.clientMode (by rw [hpoint]; rfl)
    refine ⟨rfl, rfl, hmode, ?_, trivial, fun q _ => ?_⟩
    · rw [hcore]
      exact h.numbered
    · rw [hcore]
      exact (h.ready q).logged hdir h.numbered
  apply hstep.silent h rfl
  · rw [hcore]
    exact get_logged hdir h.numbered
  · rw [hpoint]
    rfl

theorem writingLog {key value : UInt64} {level : Level} {fd : Bool}
    (hpoint : s.clients p = .writingLog key value level fd) :
    Inv sizing (s.go sizing p io wal (.writingLog key value level fd)) := by
  unfold DatabaseThreads.go
  dsimp only
  split_ifs
  · exact h.logs hpoint
  · exact h.goTo (by rw [hpoint]; rfl) (by rw [hpoint]; rfl) trivial

theorem inserting {key value : UInt64} {level : Level} (hpoint : s.clients p = .inserting key value level) :
    Inv sizing (((s.goTo p .checking).setCore (s.db.toLsmCore.remember key value level)).record
      (.effected p (.put key value level) .done)) := by
  have hstep : ClientStep sizing s p .checking (((s.goTo p .checking).setCore
      (s.db.toLsmCore.remember key value level)).record (.effected p (.put key value level) .done)) :=
    h.writes rfl rfl rfl h.numbered (by rw [hpoint]; rfl) rfl trivial
  apply hstep.effects h rfl rfl
  · funext k
    exact (LsmCore.get_remember _ _ _ _ k).trans (Function.update_apply _ _ _ _).symm
  · rw [hpoint]
    rfl
  · rfl

theorem lock {latch : SharedMutex (Option P)} (hlock : s.latch.lock (some p) = some latch)
    (hmode : point.mode = some .exclusive) (hready : Ready sizing s.db.toLsmCore point) :
    ClientStep sizing s p point { s.goTo p point with latch } := by
  refine h.latches (by rfl) (by rfl) (by rfl) ?_ hready
  rw [hmode]
  exact SharedMutex.mode_lock hlock

theorem lockingFlush (hpoint : s.clients p = .lockingFlush closes) {latch : SharedMutex (Option P)}
    (hlock : s.latch.lock (some p) = some latch) :
    Inv sizing (({ s.goTo p (.flushing closes .testing) with latch }).record
      (.effected p (if closes then .close else .flushMemtable) .done)) := by
  have hstep : ClientStep sizing s p (.flushing closes .testing)
      (({ s.goTo p (.flushing closes .testing) with latch }).record
        (.effected p (if closes then .close else .flushMemtable) .done)) := by
    refine h.latches (by rfl) (by rfl) (by rfl) ?_ (by trivial)
    exact SharedMutex.mode_lock hlock
  apply hstep.effects h rfl
  · cases closes <;> rfl
  · cases closes <;> rfl
  · rw [hpoint]
    rfl
  · rfl

theorem unlocking_close (hpoint : s.clients p = .unlocking true) :
    Inv sizing { s.goTo p .testingWal with latch := s.latch.unlock } := by
  have hstep : ClientStep sizing s p .testingWal { s.goTo p .testingWal with latch := s.latch.unlock } := by
    refine h.latches (by rfl) (by rfl) (by rfl) ?_ (by trivial)
    exact mode_unlocked h.clientMode (by rw [hpoint]; rfl) rfl
  apply hstep.silent h rfl rfl
  rw [hpoint]
  rfl

theorem unlocking_return (hpoint : s.clients p = .unlocking false) :
    Inv sizing (({ s.goTo p .idle with latch := s.latch.unlock }).record (.returned p .done)) := by
  have hstep : ClientStep sizing s p .idle
      (({ s.goTo p .idle with latch := s.latch.unlock }).record (.returned p .done)) := by
    refine h.latches (by rfl) (by rfl) (by rfl) ?_ (by trivial)
    exact mode_unlocked h.clientMode (by rw [hpoint]; rfl) rfl
  apply hstep.returns h rfl rfl
  · rw [hpoint]
    rfl
  · rfl

theorem testingWal (hpoint : s.clients p = .testingWal) : Inv sizing (s.go sizing p io wal .testingWal) := by
  unfold DatabaseThreads.go
  dsimp only
  split_ifs
  · exact h.goTo (by rw [hpoint]; rfl) (by rw [hpoint]; rfl) trivial
  · have hstep : ClientStep sizing s p .idle ((s.goTo p .idle).record (.returned p .done)) :=
      h.moves rfl rfl rfl rfl (by rw [hpoint]; rfl) trivial
    apply hstep.returns h rfl rfl
    · rw [hpoint]
      rfl
    · rfl

theorem closingWal (hpoint : s.clients p = .closingWal) :
    Inv sizing { s.goTo p .clearingWal with logOpen := false } := by
  have hstep : ClientStep sizing s p .clearingWal { s.goTo p .clearingWal with logOpen := false } :=
    h.moves rfl rfl rfl rfl (by rw [hpoint]; rfl) trivial
  apply hstep.silent h rfl rfl
  rw [hpoint]
  rfl

theorem clearingWal (hpoint : s.clients p = .clearingWal) :
    Inv sizing (({ s.goTo p .idle with db := { s.db with walOpen := false } }).record (.returned p .done)) := by
  have hstep : ClientStep sizing s p .idle
      (({ s.goTo p .idle with db := { s.db with walOpen := false } }).record (.returned p .done)) :=
    h.moves rfl rfl rfl rfl (by rw [hpoint]; rfl) trivial
  apply hstep.returns h rfl rfl
  · rw [hpoint]
    rfl
  · rfl

theorem found {key : UInt64} {value : Option UInt64} (hmode : (s.clients p).mode = some .shared)
    (hphase : (s.clients p).phase = .called (.get key)) (hvalue : value = s.db.toLsmCore.get key) :
    Inv sizing (s.found p key value) := by
  have hstep : ClientStep sizing s p (.unlockingGet value) (s.found p key value) :=
    h.moves rfl rfl rfl rfl hmode.symm trivial
  apply hstep.effects h rfl
  · rw [hvalue]
    rfl
  · rfl
  · exact hphase
  · rfl

theorem searching {key : UInt64} (hpoint : s.clients p = .searching key) :
    Inv sizing (s.go sizing p io wal (.searching key)) := by
  unfold DatabaseThreads.go
  dsimp only
  cases hvalue : s.db.memtable.get key with
  | some value =>
    apply h.found
    · rw [hpoint]
      rfl
    · rw [hpoint]
      rfl
    · rw [LsmCore.get_eq, hvalue]
      rfl
  | none =>
    apply h.goTo
    · rw [hpoint]
      rfl
    · rw [hpoint]
      rfl
    · refine ⟨le_rfl, ?_⟩
      rw [List.take_length, LsmCore.get_eq, hvalue, Option.none_or]

theorem scanning {key : UInt64} {left : ℕ} (hpoint : s.clients p = .scanning key left) :
    Inv sizing (s.go sizing p io wal (.scanning key left)) := by
  have hready := h.ready p
  rw [hpoint] at hready
  obtain ⟨hleft, hkey⟩ := hready
  have hmode : (s.clients p).mode = some .shared := by
    rw [hpoint]
    rfl
  have hphase : (s.clients p).phase = .called (.get key) := by
    rw [hpoint]
    rfl
  cases left with
  | zero =>
    apply h.found hmode hphase
    rw [hkey, List.take_zero]
    rfl
  | succ left =>
    have htable : s.db.sstables[left]? = some s.db.sstables[left] := List.getElem?_eq_getElem hleft
    have hlast : s.db.toLsmCore.get key = (s.db.sstables[left].get s.db.dir key).or
        (searchTables s.db.dir (s.db.sstables.take left) key) := by
      rw [hkey, List.take_succ_eq_append_getElem hleft, LsmCore.searchTables_append, LsmCore.searchTables_singleton]
    unfold DatabaseThreads.go
    dsimp only
    rw [htable]
    dsimp only
    cases hvalue : s.db.sstables[left].get s.db.dir key with
    | some value =>
      apply h.found hmode hphase
      rw [hlast, hvalue]
      rfl
    | none =>
      apply h.goTo
      · exact hmode.symm
      · exact hphase.symm
      · refine ⟨Nat.le_of_succ_le hleft, ?_⟩
        rw [hlast, hvalue, Option.none_or]

theorem unlockingGet {value : Option UInt64} (hpoint : s.clients p = .unlockingGet value) :
    Inv sizing (({ s.goTo p .idle with latch := s.latch.unlockShared (some p) }).record
      (.returned p (.found value))) := by
  have hstep : ClientStep sizing s p .idle (({ s.goTo p .idle with latch := s.latch.unlockShared (some p) }).record
      (.returned p (.found value))) := by
    refine h.latches (by rfl) (by rfl) (by rfl) ?_ (by trivial)
    exact mode_unlockedShared h.clientMode (by rw [hpoint]; rfl) rfl
  apply hstep.returns h rfl rfl
  · rw [hpoint]
    rfl
  · rfl

theorem go (hallowed : s.Allowed sizing (.go p io wal)) : Inv sizing (s.go sizing p io wal (s.clients p)) := by
  cases hpoint : s.clients p with
  | idle => exact h
  | logging key value level => exact h.goTo (by rw [hpoint]; rfl) (by rw [hpoint]; rfl) trivial
  | writingLog key value level fd => exact h.writingLog hpoint
  | lockingPut key value level =>
    unfold DatabaseThreads.go DatabaseThreads.lock
    cases hlock : s.latch.lock (some p) with
    | none => exact h
    | some latch =>
      have hstep : ClientStep sizing s p (.inserting key value level)
          { s.goTo p (.inserting key value level) with latch } := h.lock hlock rfl trivial
      exact hstep.silent h rfl rfl (by rw [hpoint]; rfl)
  | inserting key value level => exact h.inserting hpoint
  | checking =>
    unfold DatabaseThreads.go
    dsimp only
    split_ifs
    · exact h.goTo (by rw [hpoint]; rfl) (by rw [hpoint]; rfl) trivial
    · exact h.goTo (by rw [hpoint]; rfl) (by rw [hpoint]; rfl) trivial
  | loadingRunning =>
    unfold DatabaseThreads.go
    dsimp only
    split_ifs
    · exact h.goTo (by rw [hpoint]; rfl) (by rw [hpoint]; rfl) trivial
    · exact h.goTo (by rw [hpoint]; rfl) (by rw [hpoint]; rfl) trivial
  | storingRunning =>
    have hstep : ClientStep sizing s p .notifyingAll { s.goTo p .notifyingAll with running := false } :=
      h.moves rfl rfl rfl rfl (by rw [hpoint]; rfl) trivial
    exact hstep.silent h rfl rfl (by rw [hpoint]; rfl)
  | notifyingAll => exact h.goTo_notify (by rw [hpoint]; rfl) (by rw [hpoint]; rfl) trivial
  | joining =>
    unfold DatabaseThreads.go
    dsimp only
    split_ifs
    · exact h.goTo (by rw [hpoint]; rfl) (by rw [hpoint]; rfl) trivial
    · exact h
  | lockingFlush closes =>
    unfold DatabaseThreads.go
    dsimp only
    cases hlock : s.latch.lock (some p) with
    | none => exact h
    | some latch => exact h.lockingFlush hpoint hlock
  | flushing closes point => exact h.goFlush hpoint hallowed
  | unlocking closes =>
    cases closes with
    | true => exact h.unlocking_close hpoint
    | false => exact h.unlocking_return hpoint
  | testingWal => exact h.testingWal hpoint
  | closingWal => exact h.closingWal hpoint
  | clearingWal => exact h.clearingWal hpoint
  | lockingGet key =>
    unfold DatabaseThreads.go
    dsimp only
    cases hlock : s.latch.lockShared (some p) with
    | none => exact h
    | some latch =>
      have hstep : ClientStep sizing s p (.searching key) { s.goTo p (.searching key) with latch } :=
        h.latches rfl rfl rfl (SharedMutex.mode_lockShared hlock) trivial
      exact hstep.silent h rfl rfl (by rw [hpoint]; rfl)
  | searching key => exact h.searching hpoint
  | scanning key left => exact h.scanning hpoint
  | unlockingGet value => exact h.unlockingGet hpoint

omit h in
theorem goStray {dir : Directory} (hallowed : s.Allowed sizing (.stray p dir)) :
    s.goStray p dir (s.clients p) = s := by
  change s.Fits sizing p at hallowed
  unfold DatabaseThreads.goStray
  split
  · next hpoint =>
    rw [Fits, hpoint] at hallowed
    exact if_pos hallowed
  · rfl

theorem call (p : P) (call : DbCall) : Inv sizing (s.step sizing (.call p call)) := by
  unfold DatabaseThreads.step
  dsimp only
  split
  · next hpoint =>
    have hstep : ClientStep sizing s p (start call) ((s.goTo p (start call)).record (.invoked p call)) := by
      refine h.moves (by rfl) (by rfl) (by rfl) (by rfl) ?_ ?_
      · rw [hpoint]
        cases call <;> rfl
      · apply ready_of_mode
        cases call <;> rfl
    apply hstep.invokes h rfl rfl
    · rw [hpoint]
      rfl
    · cases call <;> rfl
  · exact h

theorem compactor_step (hclients : s'.clients = s.clients) (hdb : s'.db = s.db) (hevents : s'.events = s.events)
    (hmode : ∀ q, s'.latch.mode q = if q = none then s'.compactor.mode else s.latch.mode q) : Inv sizing s' := by
  refine ⟨?_, ?_, hmode none, ?_, ?_⟩
  · rw [hevents, hdb, hclients]
    exact h.linearized
  · intro p
    rw [hmode, if_neg (Option.some_ne_none p), hclients]
    exact h.clientMode p
  · rw [hdb]
    exact h.numbered
  · rw [hdb, hclients]
    exact h.ready

theorem compactor_moves (hclients : s'.clients = s.clients) (hdb : s'.db = s.db) (hevents : s'.events = s.events)
    (hlatch : s'.latch = s.latch) (hmode : s'.compactor.mode = s.compactor.mode) : Inv sizing s' := by
  apply h.compactor_step hclients hdb hevents
  rw [hlatch]
  exact compactor_mode_kept h.compactorMode hmode

theorem compact (timedOut : Bool) : Inv sizing (s.goCompactor timedOut s.compactor) := by
  cases hpoint : s.compactor with
  | testing =>
    refine h.compactor_moves (by rfl) (by rfl) (by rfl) (by rfl) ?_
    rw [hpoint]
    cases hrunning : s.running <;> simp [goCompactor, hrunning, CompactorPoint.mode]
  | lockingMutex =>
    unfold goCompactor
    dsimp only
    split_ifs
    · exact h
    · exact h.compactor_moves rfl rfl rfl rfl (by rw [hpoint]; rfl)
  | deciding =>
    unfold goCompactor
    dsimp only
    split_ifs
    · exact h.compactor_moves rfl rfl rfl rfl (by rw [hpoint]; rfl)
    · exact h.compactor_moves rfl rfl rfl rfl (by rw [hpoint]; rfl)
  | waiting => exact h.compactor_moves rfl rfl rfl rfl (by rw [hpoint]; rfl)
  | relocking timedOut =>
    unfold goCompactor
    dsimp only
    split_ifs
    · exact h
    · exact h.compactor_moves rfl rfl rfl rfl (by rw [hpoint]; cases timedOut <;> rfl)
    · exact h.compactor_moves rfl rfl rfl rfl (by rw [hpoint]; cases timedOut <;> rfl)
  | retesting =>
    refine h.compactor_moves (by rfl) (by rfl) (by rfl) (by rfl) ?_
    rw [hpoint]
    cases hrunning : s.running <;> simp [goCompactor, hrunning, CompactorPoint.mode]
  | lockingLatch =>
    unfold goCompactor
    dsimp only
    cases hlock : s.latch.lock none with
    | none => exact h
    | some latch => exact h.compactor_step rfl rfl rfl (SharedMutex.mode_lock hlock)
  | compacting => exact h.compactor_moves rfl rfl rfl rfl (by rw [hpoint]; rfl)
  | unlockingLatch =>
    refine h.compactor_step (by rfl) (by rfl) (by rfl) ?_
    apply SharedMutex.mode_unlock
    rw [h.compactorMode, hpoint]
    rfl
  | unlockingMutex exits =>
    refine h.compactor_moves (by rfl) (by rfl) (by rfl) (by rfl) ?_
    rw [hpoint]
    cases exits <;> rfl
  | exited => exact h

theorem step {action : Action P} (hallowed : s.Allowed sizing action) : Inv sizing (s.step sizing action) := by
  cases action with
  | call p call => exact h.call p call
  | go p io wal => exact h.go hallowed
  | stray p dir =>
    rw [DatabaseThreads.step, goStray hallowed]
    exact h
  | compact timedOut => exact h.compact timedOut

end Inv

theorem inv_init (sizing : BloomSizing) (dir : Directory) (threshold : UInt64) (walOpen : Bool) :
    Inv sizing ({ db := EmbeddedLsmDatabase.construct dir threshold walOpen } : DatabaseThreads P) := by
  have hget : (EmbeddedLsmDatabase.construct dir threshold walOpen).toLsmCore.get = mapSpec.init := by
    funext key
    rw [LsmCore.get_eq]
    exact (congrArg (Option.or · _) (MemTable.get_empty key)).trans rfl
  refine ⟨?_, fun p => SharedMutex.mode_free _, SharedMutex.mode_free _, ?_, fun p => trivial⟩
  · rw [hget]
    exact Linearized.start fun p => rfl
  · intro t ht
    exact absurd ht List.not_mem_nil

theorem inv_run {dir : Directory} {threshold : UInt64} {walOpen : Bool} {actions : List (Action P)}
    (h : Runs.Lawful (fun past action => (run sizing (.construct dir threshold walOpen) past).Allowed sizing action)
      actions) : Inv sizing (run sizing (.construct dir threshold walOpen) actions) := by
  refine Runs.Lawful.induct (motive := fun _ s => Inv sizing s) (inv_init sizing dir threshold walOpen) ?_ h
  intro past action hallowed hinv
  exact hinv.step hallowed

theorem database_linearizes {dir : Directory} {threshold : UInt64} {walOpen : Bool} {actions : List (Action P)}
    (h : Runs.Lawful (fun past action => (run sizing (.construct dir threshold walOpen) past).Allowed sizing action)
      actions) :
    let s := run sizing (.construct dir threshold walOpen) actions
    Linearized mapSpec s.events s.db.toLsmCore.get fun p => (s.clients p).phase :=
  (inv_run h).linearized

def lookingUp : List (Action Bool) :=
  [.call true (.put 5 50 ⟨2, by decide⟩), .call false (.get 5), .go true {} none, .go true {} none, .go true {} none,
    .compact false, .go false {} none, .go true {} none, .go true {} none, .go true {} none, .go true {} none,
    .go true {} none, .go true {} none, .go true {} none, .go true {} none, .go true {} none, .go false {} none,
    .go true {} none, .go false {} none, .go false {} none, .go false {} none, .go false {} none]

instance decidableFits (sizing : BloomSizing) (s : DatabaseThreads P) (p : P) : Decidable (s.Fits sizing p) := by
  unfold Fits
  split <;> infer_instance

def Action.Whole : Action P → Prop
  | .call _ .close => False
  | .go _ io _ => io = {}
  | _ => True

omit [DecidableEq P] in
theorem Action.Whole.allowed {action : Action P} (h : action.Whole) (hfits : ∀ p, s.Fits sizing p) :
    s.Allowed sizing action := by
  cases action with
  | call p call =>
    cases call with
    | close => exact h.elim
    | _ => trivial
  | go p io wal => exact ⟨h, hfits p⟩
  | stray p dir => exact hfits p
  | compact timedOut => trivial

theorem database_linearizes_lookingUp :
    let s := run .tenBits (.construct ∅ 0 true) lookingUp
    Linearized mapSpec s.events s.db.toLsmCore.get fun p => (s.clients p).phase := by
  have hwhole : ∀ action ∈ lookingUp, action.Whole := by
    simp [lookingUp, Action.Whole]
  have hfits : Runs.Lawful (fun past _ => ∀ p, Fits .tenBits (run .tenBits (.construct ∅ 0 true) past) p)
      lookingUp := by
    decide +kernel
  apply database_linearizes
  apply hfits.mono
  intro past action hmem hpast
  exact (hwhole action hmem).allowed hpast

end SystemLevel.Lsm.DatabaseThreads
