import SystemLevel.Lsm.WalReplay

namespace SystemLevel.Lsm.EmbeddedLsmDatabase

open Runs

def flushed (e : LsmCore) : Option (FileName × List Pair) :=
  if e.memtable.size = 0 then none else some (tableName "sst_" e.nextSstId, e.memtable.toVector)

def Op.builds (db : EmbeddedLsmDatabase) : Op → Option (FileName × List Pair)
  | .put key value level _ _ =>
    let e := db.remember key value level
    if e.threshold ≤ e.memtable.byteSize then flushed e else none
  | .flushMemtable _ | .close _ => flushed db.toLsmCore
  | _ => none

abbrev Records := FileName → Option (List Pair)

def Records.note (r : Records) : Option (FileName × List Pair) → Records
  | none => r
  | some built => Function.update r built.1 (some built.2)

def recordsFrom (sizing : BloomSizing) : EmbeddedLsmDatabase → Records → List Op → Records
  | _, r, [] => r
  | db, r, op :: ops => recordsFrom sizing (step sizing db op) (r.note (op.builds db)) ops

def records (sizing : BloomSizing) (ops : List Op) : Records :=
  recordsFrom sizing { dir := ∅, threshold := 0 } (fun _ => none) ops

theorem recordsFrom_snoc (sizing : BloomSizing) (db : EmbeddedLsmDatabase) (r : Records) (ops : List Op) (op : Op) :
    recordsFrom sizing db r (ops ++ [op]) =
      (recordsFrom sizing db r ops).note (op.builds (Runs.run (step sizing) db ops)) := by
  induction ops generalizing db r with
  | nil => rfl
  | cons first ops ih =>
    rw [List.cons_append, recordsFrom, recordsFrom, ih]
    rfl

variable (sizing : BloomSizing)

def IoComplete (db : EmbeddedLsmDatabase) : Op → Prop
  | .recover listing _ _ => ∀ entry ∈ listing, entry.2 = {}
  | .put key value level wal io =>
    LsmCore.InsertSucceeds sizing io (db.append wal key value).toLsmCore key value level
  | .flushMemtable io | .close io => db.memtable.size ≠ 0 → LsmCore.FlushSucceeds sizing io db.toLsmCore
  | .construct _ _ | .get _ => True

/-- Every table that `recover` loads has a smaller number than the next one that is built. -/
def CounterAhead (db : EmbeddedLsmDatabase) : Op → Prop
  | .recover listing _ _ => ∀ entry ∈ listing, ∀ id, entry.1 = tableName "sst_" id →
    SSTable.openFile entry.2 db.dir entry.1 ≠ none → id < db.nextSstId
  | op => op.builds db ≠ none → db.nextSstId.toNat + 1 < 2 ^ 64

def CountsAhead (past : List Op) : Op → Prop := CounterAhead (run sizing ∅ past)

def CompletesIo (past : List Op) : Op → Prop := IoComplete sizing (run sizing ∅ past)

def Behind (e : LsmCore) : Prop := ∀ t ∈ e.sstables, ∀ id, t.filename = tableName "sst_" id → id < e.nextSstId

structure Tracks (e : LsmCore) (r : Records) : Prop where
  files : ∀ name ≠ walName, e.dir.lookup name = (r name).map (SSTable.written sizing {})
  built : ∀ name pairs, r name = some pairs →
    Ascending pairs ∧ (SSTable.written sizing {} pairs).length < 2 ^ 63 ∧ ∃ id, name = tableName "sst_" id
  live : ∀ t ∈ e.sstables, ∃ id pairs, id < e.nextSstId ∧ t.filename = tableName "sst_" id ∧
    r t.filename = some pairs ∧
    ∀ dir : Directory, dir.lookup t.filename = some (SSTable.written sizing {} pairs) →
      ∀ key, t.get dir key = pairs.lookup key

variable {sizing}

theorem builds_append (db : EmbeddedLsmDatabase) (key value : UInt64) (level : Level) (wal : Transfer) (io : FlushIo) :
    Op.builds db (.put key value level wal io) =
      Op.builds (db.append wal key value) (.put key value level wal io) := by
  rw [append]
  split_ifs <;> rfl

theorem nextSstId_append (db : EmbeddedLsmDatabase) (key value : UInt64) (wal : Transfer) :
    (db.append wal key value).nextSstId = db.nextSstId := by
  rw [append]
  split_ifs <;> rfl

theorem sstables_append (db : EmbeddedLsmDatabase) (key value : UInt64) (wal : Transfer) :
    (db.append wal key value).sstables = db.sstables := by
  rw [append]
  split_ifs <;> rfl

namespace Behind

variable {e : LsmCore} {db : EmbeddedLsmDatabase}

theorem fresh (h : Behind e) : e.NextIsFresh "sst_" := fun t ht hname => UInt64.lt_irrefl _ (h t ht _ hname)

theorem flush (h : Behind e) (io : FlushIo) (hnext : flushed e ≠ none → e.nextSstId.toNat + 1 < 2 ^ 64) :
    Behind (e.flush sizing "sst_" io) := by
  by_cases hsize : e.memtable.size = 0
  · rw [LsmCore.flush, if_pos hsize]
    exact h
  · have hflushed : flushed e = some (tableName "sst_" e.nextSstId, e.memtable.toVector) := if_neg hsize
    have hlt : e.nextSstId < e.nextSstId + 1 := LsmCore.lt_next (hnext (by rw [hflushed]; exact Option.some_ne_none _))
    obtain ⟨dir, new, hflush, -, hnames⟩ := LsmCore.flush_cases sizing "sst_" io hsize
    rw [hflush e.sstables]
    intro t ht id hname
    rcases List.mem_append.mp ht with ht | ht
    · exact UInt64.lt_trans (h t ht id hname) hlt
    · rw [LsmCore.tableName_inj (hname.symm.trans (hnames t ht))]
      exact hlt

theorem recover (db : EmbeddedLsmDatabase) {listing : List (FileName × OpenIo)} {reads : Option ℕ} {levels : ℕ → Level}
    (hahead : CounterAhead db (.recover listing reads levels)) :
    Behind (db.recover listing reads levels).toLsmCore := by
  intro t ht id hname
  obtain ⟨entry, hentry, hopen⟩ := List.mem_filterMap.mp ht
  split_ifs at hopen
  refine hahead entry hentry id ?_ ?_
  · rw [← SSTable.openFile_filename hopen, hname]
  · rw [hopen]
    exact Option.some_ne_none t

theorem step (h : Behind db.toLsmCore) {op : Op} (hahead : CounterAhead db op) :
    Behind (step sizing db op).toLsmCore := by
  cases op with
  | construct threshold walOpen => exact fun t ht => absurd ht List.not_mem_nil
  | recover listing reads levels => exact recover db hahead
  | get key => exact h
  | flushMemtable io => exact h.flush io hahead
  | close io => exact h.flush io hahead
  | put key value level wal io =>
    have hlogged : Behind (db.append wal key value).toLsmCore := by
      rw [Behind, sstables_append, nextSstId_append]
      exact h
    simp only [CounterAhead, builds_append db, ← nextSstId_append db key value wal] at hahead
    simp only [EmbeddedLsmDatabase.step, EmbeddedLsmDatabase.put, EmbeddedLsmDatabase.putLocked]
    generalize db.append wal key value = db at *
    have hremembered : Behind (db.remember key value level) := hlogged
    simp only [LsmCore.insert, Op.builds] at hahead ⊢
    by_cases hfull : (db.remember key value level).threshold ≤ (db.remember key value level).memtable.byteSize
    · rw [if_pos hfull] at hahead ⊢
      exact hremembered.flush io hahead
    · rw [if_neg hfull]
      exact hremembered

end Behind

theorem behind_run {ops : List Op} (h : Lawful (CountsAhead sizing) ops) : Behind (run sizing ∅ ops).toLsmCore := by
  refine Lawful.induct (motive := fun _ (db : EmbeddedLsmDatabase) => Behind db.toLsmCore) ?_ ?_ h
  · exact fun t ht => absurd ht List.not_mem_nil
  · exact fun ops op hop hbehind => hbehind.step hop

namespace Tracks

variable {e : LsmCore} {r : Records}

theorem setDir (h : Tracks sizing e r) {dir : Directory}
    (hdir : ∀ name ≠ walName, dir.lookup name = e.dir.lookup name) :
    Tracks sizing { e with dir } r := by
  refine ⟨fun name hname => ?_, h.built, h.live⟩
  rw [← h.files name hname]
  exact hdir name hname

theorem flush (h : Tracks sizing e r) {io : FlushIo}
    (hio : e.memtable.size ≠ 0 → LsmCore.FlushSucceeds sizing io e)
    (hnext : flushed e ≠ none → e.nextSstId.toNat + 1 < 2 ^ 64) :
    Tracks sizing (e.flush sizing "sst_" io) (r.note (flushed e)) := by
  by_cases hsize : e.memtable.size = 0
  · rw [LsmCore.flush, if_pos hsize, flushed, if_pos hsize]
    exact h
  · have hflushed : flushed e = some (tableName "sst_" e.nextSstId, e.memtable.toVector) := if_neg hsize
    have hlt : e.nextSstId < e.nextSstId + 1 := LsmCore.lt_next (hnext (by rw [hflushed]; exact Option.some_ne_none _))
    obtain ⟨t, hname, hflush, hserves⟩ := LsmCore.flush_spec "sst_" (hio hsize) hsize
    rw [hflush, hflushed, Records.note]
    constructor
    · intro name hwal
      by_cases heq : name = tableName "sst_" e.nextSstId
      · rw [heq, AList.lookup_insert, Function.update_self]
        rfl
      · rw [AList.lookup_insert_ne heq, Function.update_of_ne heq]
        exact h.files name hwal
    · intro name pairs hpairs
      rw [Function.update_apply] at hpairs
      split_ifs at hpairs with heq
      · rw [← Option.some.inj hpairs]
        exact ⟨e.memtable.toVector_sorted, (hio hsize).fileSize, _, heq⟩
      · exact h.built name pairs hpairs
    · intro u hu
      rcases List.mem_append.mp hu with hu | hu
      · obtain ⟨id, pairs, hid, hfile, hpairs, hget⟩ := h.live u hu
        have hne : u.filename ≠ tableName "sst_" e.nextSstId := by
          rw [hfile]
          intro heq
          rw [LsmCore.tableName_inj heq] at hid
          exact UInt64.lt_irrefl _ hid
        refine ⟨id, pairs, UInt64.lt_trans hid hlt, hfile, ?_, hget⟩
        rwa [Function.update_of_ne hne]
      · rw [List.mem_singleton.mp hu]
        refine ⟨e.nextSstId, e.memtable.toVector, hlt, hname, ?_, fun dir hdir key => ?_⟩
        · rw [hname, Function.update_self]
        · rw [hname] at hdir
          rw [hserves dir hdir, MemTable.get_eq_lookup]

theorem openFile (h : Tracks sizing e r) {name : FileName} (hextension : name.extension = ".db") {t : SSTable}
    (hopen : SSTable.openFile {} e.dir name = some t) :
    ∃ id pairs, name = tableName "sst_" id ∧ t.filename = name ∧ r name = some pairs ∧
      ∀ dir : Directory, dir.lookup name = some (SSTable.written sizing {} pairs) →
        ∀ key, t.get dir key = pairs.lookup key := by
  have hwal : name ≠ walName := by
    rintro rfl
    exact absurd hextension (by decide)
  have hload := hopen
  rw [SSTable.openFile, if_pos rfl, h.files name hwal] at hload
  cases hpairs : r name with
  | none =>
    rw [hpairs] at hload
    cases hload
  | some pairs =>
    obtain ⟨hascending, hsize, id, hid⟩ := h.built name pairs hpairs
    obtain ⟨u, hu, hname, hserves⟩ := SSTable.written_serves sizing hascending hsize name
    rw [hpairs, Option.map_some, Option.bind_some, hu] at hload
    obtain rfl := Option.some.inj hload
    exact ⟨id, pairs, hid, hname, rfl, hserves⟩

theorem construct {db : EmbeddedLsmDatabase} (h : Tracks sizing db.toLsmCore r) (threshold : UInt64) (walOpen : Bool) :
    Tracks sizing (construct db.dir threshold walOpen).toLsmCore r := by
  refine ⟨fun name hname => ?_, h.built, fun t ht => by cases ht⟩
  rw [← h.files name hname]
  simp only [EmbeddedLsmDatabase.construct, createWal]
  split_ifs
  · rfl
  · exact AList.lookup_insert_ne hname
  · rfl

theorem recover {db : EmbeddedLsmDatabase} (h : Tracks sizing db.toLsmCore r) {listing : List (FileName × OpenIo)}
    (hlisting : ∀ entry ∈ listing, entry.2 = {}) (reads : Option ℕ) (levels : ℕ → Level)
    (hahead : CounterAhead db (.recover listing reads levels)) :
    Tracks sizing (db.recover listing reads levels).toLsmCore r := by
  refine ⟨h.files, h.built, fun t ht => ?_⟩
  obtain ⟨entry, hentry, hopen⟩ := List.mem_filterMap.mp ht
  split_ifs at hopen with hextension
  have hid := hahead entry hentry
  rw [hlisting entry hentry] at hopen hid
  obtain ⟨id, pairs, hname, hfile, hpairs, hserves⟩ := h.openFile hextension hopen
  refine ⟨id, pairs, hid id hname (by rw [hopen]; exact nofun), hfile.trans hname, ?_, ?_⟩
  · rwa [hfile]
  · rwa [hfile]

theorem append {db : EmbeddedLsmDatabase} (h : Tracks sizing db.toLsmCore r) (wal : Transfer) (key value : UInt64) :
    Tracks sizing (db.append wal key value).toLsmCore r := by
  rw [EmbeddedLsmDatabase.append]
  split_ifs
  · exact h.setDir fun name hname => AList.lookup_insert_ne hname
  · exact h

theorem step {db : EmbeddedLsmDatabase} (h : Tracks sizing db.toLsmCore r) {op : Op} (hio : IoComplete sizing db op)
    (hahead : CounterAhead db op) : Tracks sizing (step sizing db op).toLsmCore (r.note (op.builds db)) := by
  cases op with
  | construct threshold walOpen => exact h.construct threshold walOpen
  | recover listing reads levels => exact h.recover hio reads levels hahead
  | get key => exact h
  | flushMemtable io => exact h.flush hio hahead
  | close io => exact h.flush hio hahead
  | put key value level wal io =>
    have hlogged := h.append wal key value
    simp only [CounterAhead, builds_append db, ← nextSstId_append db key value wal] at hahead
    simp only [EmbeddedLsmDatabase.step, EmbeddedLsmDatabase.put, EmbeddedLsmDatabase.putLocked, builds_append db]
    change LsmCore.InsertSucceeds sizing io (db.append wal key value).toLsmCore key value level at hio
    generalize db.append wal key value = db at *
    have hremembered : Tracks sizing (db.remember key value level) r := ⟨hlogged.files, hlogged.built, hlogged.live⟩
    simp only [LsmCore.insert, Op.builds] at hahead ⊢
    by_cases hfull : (db.remember key value level).threshold ≤ (db.remember key value level).memtable.byteSize
    · rw [if_pos hfull] at hahead
      rw [if_pos hfull, if_pos hfull]
      exact hremembered.flush (hio hfull) hahead
    · rw [if_neg hfull, if_neg hfull]
      exact hremembered

end Tracks

theorem tracks_run {ops : List Op} (hahead : Lawful (CountsAhead sizing) ops)
    (hio : Lawful (CompletesIo sizing) ops) :
    Tracks sizing (run sizing ∅ ops).toLsmCore (records sizing ops) := by
  refine Lawful.induct (motive := fun ops (db : EmbeddedLsmDatabase) => Tracks sizing db.toLsmCore (records sizing ops))
    ?_ ?_ (hahead.and hio)
  · constructor
    · exact fun name _ => rfl
    · exact nofun
    · exact nofun
  · intro ops op hop htracks
    rw [records, recordsFrom_snoc]
    exact htracks.step hop.2 hop.1

theorem live_tables_kept (sizing : BloomSizing) {ops : List Op} (h : Lawful (CountsAhead sizing) ops) :
    (∀ t ∈ (run sizing ∅ ops).sstables, t.filename ≠ tableName "sst_" (run sizing ∅ ops).nextSstId) ∧
      (Lawful (CompletesIo sizing) ops →
        ∀ t ∈ (run sizing ∅ ops).sstables, ∃ pairs, records sizing ops t.filename = some pairs ∧
          ∀ key, t.get (run sizing ∅ ops).dir key = pairs.lookup key) := by
  refine ⟨(behind_run h).fresh, fun hio t ht => ?_⟩
  have htracks := tracks_run h hio
  obtain ⟨id, pairs, -, hfile, hpairs, hserves⟩ := htracks.live t ht
  have hlookup := htracks.files t.filename (by rw [hfile]; exact (walName_ne _ _).symm)
  rw [hpairs] at hlookup
  exact ⟨pairs, hpairs, hserves _ hlookup⟩

def recoversLater : List Op :=
  [.construct 1 true, .recover [] none (fun _ => levelOf 1), .put 5 50 (levelOf 3) none {},
    .put 2 20 (levelOf 1) none {},
    .recover [(tableName "sst_" 1, {}), (walName, {}), (tableName "sst_" 0, {})] none (fun _ => levelOf 1), .close {}]

theorem recoversLater_kept :
    (∀ t ∈ (run .tenBits ∅ recoversLater).sstables,
      t.filename ≠ tableName "sst_" (run .tenBits ∅ recoversLater).nextSstId) ∧
      ∀ t ∈ (run .tenBits ∅ recoversLater).sstables, ∃ pairs, records .tenBits recoversLater t.filename = some pairs ∧
        ∀ key, t.get (run .tenBits ∅ recoversLater).dir key = pairs.lookup key := by
  have hahead : Lawful (CountsAhead .tenBits) recoversLater := by
    refine ⟨nofun, nofun, fun _ => by decide +kernel, fun _ => by decide +kernel, fun entry hentry id hname _ => ?_,
      fun _ => by decide +kernel, trivial⟩
    simp only [List.mem_cons, List.not_mem_nil, or_false] at hentry
    rcases hentry with rfl | rfl | rfl
    · rw [← LsmCore.tableName_inj hname]
      decide +kernel
    · exact absurd hname (walName_ne _ _)
    · rw [← LsmCore.tableName_inj hname]
      decide +kernel
  have hio : Lawful (CompletesIo .tenBits) recoversLater := by
    refine ⟨trivial, nofun, fun _ _ => ?_, fun _ _ => ?_, by simp [CompletesIo, IoComplete], fun _ => ?_, trivial⟩
    · exact ⟨rfl, by decide +kernel, by decide +kernel⟩
    · exact ⟨rfl, by decide +kernel, by decide +kernel⟩
    · exact ⟨rfl, by decide +kernel, by decide +kernel⟩
  exact ⟨(live_tables_kept .tenBits hahead).1, (live_tables_kept .tenBits hahead).2 hio⟩

def restarted : List Op :=
  [.construct 4096 true, .put 1 10 (levelOf 1) none {}, .close {},
    .construct 4096 true, .recover [(tableName "sst_" 0, {}), (walName, {})] none (fun _ => levelOf 1)]

def restartedAndFlushed : List Op := restarted ++ [.put 1 11 (levelOf 1) none {}, .flushMemtable {}]

theorem restart_overwrites_live_table :
    (run .tenBits ∅ restarted).nextSstId = 0 ∧
      (run .tenBits ∅ restarted).sstables.map SSTable.filename = [tableName "sst_" 0] ∧
      (run .tenBits ∅ restarted).sstables.map (fun t => t.get (run .tenBits ∅ restarted).dir 1) = [some 10] ∧
      (run .tenBits ∅ restarted).sstables <+: (run .tenBits ∅ restartedAndFlushed).sstables ∧
      (run .tenBits ∅ restarted).sstables.map (fun t => t.get (run .tenBits ∅ restartedAndFlushed).dir 1) =
        [some 11] := by
  decide +kernel

end SystemLevel.Lsm.EmbeddedLsmDatabase
