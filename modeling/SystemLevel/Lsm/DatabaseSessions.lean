import SystemLevel.Lsm.WalReplay

namespace SystemLevel.Lsm.EmbeddedLsmDatabase

open Runs Lookup

/-- A table that `recover` found answers for no key that was not logged, unless a flush has overwritten
its file since. -/
def Intact (db : EmbeddedLsmDatabase) (logged : List Pair) (t : SSTable) : Prop :=
  t.filename ≠ walName ∧ ((∀ id < db.nextSstId, t.filename ≠ tableName "sst_" id) →
    ∀ key ∉ logged.map Prod.fst, t.get db.dir key = none)

theorem Intact.mono {db db' : EmbeddedLsmDatabase} {logged logged' : List Pair} {t : SSTable}
    (h : Intact db logged t) (hnext : ∀ id < db.nextSstId, id < db'.nextSstId)
    (hdir : (∀ id < db'.nextSstId, t.filename ≠ tableName "sst_" id) →
      db'.dir.lookup t.filename = db.dir.lookup t.filename)
    (hlogged : logged.map Prod.fst ⊆ logged'.map Prod.fst) : Intact db' logged' t := by
  refine ⟨h.1, fun hnames key hkey => ?_⟩
  rw [SSTable.get_congr (hdir hnames)]
  exact h.2 (fun id hid => hnames id (hnext id hid)) key (fun hmem => hkey (hlogged hmem))

structure Serves (sizing : BloomSizing) (found : List SSTable) (db : EmbeddedLsmDatabase) (logged : List Pair)
    (map : UInt64 → Option UInt64) : Prop where
  walOpen : db.walOpen = true
  stored : Stored sizing db.dir logged
  own : ∃ own, db.sstables = found ++ own ∧ LsmCore.Represents "sst_" { db.toLsmCore with sstables := own } map
  keys : ∀ key, map key ≠ none → key ∈ logged.map Prod.fst
  intact : ∀ t ∈ found, Intact db logged t

namespace Serves

variable {sizing : BloomSizing} {found : List SSTable} {db : EmbeddedLsmDatabase} {logged : List Pair}
  {map : UInt64 → Option UInt64}

theorem recover (hopen : db.walOpen = true) (hstored : Stored sizing db.dir logged) (hnext : db.nextSstId = 0)
    {listing : List (FileName × OpenIo)} (hlisting : ∀ entry ∈ listing, entry.2 = {}) (levels : ℕ → Level) :
    Serves sizing (db.recover listing none levels).sstables (db.recover listing none levels) logged
      (latest logged) := by
  refine ⟨hopen, hstored, ⟨[], (List.append_nil _).symm, by simp [LsmCore.Numbered], ?_, fun key => ?_⟩,
    fun key hkey => ?_, fun t ht => ?_⟩
  · exact congrArg UInt64.toNat hnext
  · rw [LsmCore.get_eq, EmbeddedLsmDatabase.recover, hstored.wal, walEntries_encodeAll, replay_get]
    exact Option.or_none
  · exact not_not.mp (mt (latest_eq_none logged key).mpr hkey)
  · obtain ⟨hname, hkeys⟩ := hstored.found hlisting ht
    exact ⟨hname, fun _ => hkeys⟩

variable (h : Serves sizing found db logged map)

include h

theorem get_eq (key : UInt64) : db.get key = (map key).or (LsmCore.searchTables db.dir found key) := by
  obtain ⟨own, hsplit, hrep⟩ := h.own
  rw [LsmCore.get_split hsplit, hrep.get_eq]

theorem memtable_key {key : UInt64} (hkey : db.memtable.get key ≠ none) : key ∈ logged.map Prod.fst := by
  obtain ⟨own, -, hrep⟩ := h.own
  apply h.keys
  rw [← hrep.get_eq, LsmCore.get_eq]
  exact fun hnone => hkey (Option.or_eq_none_iff.mp hnone).1

theorem append (key value : UInt64) :
    Serves sizing found (db.append none key value) (logged ++ [(key, value)]) map := by
  obtain ⟨own, hsplit, hrep⟩ := h.own
  rw [EmbeddedLsmDatabase.append, if_pos h.walOpen]
  have hlogged : logged.map Prod.fst ⊆ (logged ++ [(key, value)]).map Prod.fst := by
    rw [List.map_append]
    exact List.subset_append_left _ _
  refine ⟨h.walOpen, h.stored.append key value, ⟨own, hsplit, hrep.setDir fun id => ?_⟩,
    fun k hk => hlogged (h.keys k hk), fun t ht => ?_⟩
  · exact AList.lookup_insert_ne (walName_ne _ _).symm
  · exact (h.intact t ht).mono (fun _ hid => hid) (fun _ => AList.lookup_insert_ne (h.intact t ht).1) hlogged

theorem flushMemtable {io : FlushIo} (hio : db.memtable.size ≠ 0 → LsmCore.FlushSucceeds sizing io db.toLsmCore) :
    Serves sizing found (db.flushMemtable sizing io) logged map := by
  obtain ⟨own, hsplit, hrep⟩ := h.own
  have hstored : Stored sizing (db.flushMemtable sizing io).dir logged :=
    h.stored.flush rfl hio (fun key => h.memtable_key)
  by_cases hsize : db.memtable.size = 0
  · rw [EmbeddedLsmDatabase.flushMemtable, LsmCore.flush, if_pos hsize]
    exact h
  · obtain ⟨dir, new, hflush, hdir, -⟩ := LsmCore.flush_cases sizing "sst_" io hsize
    obtain ⟨hcomplete, hfile, hopen⟩ := hio hsize
    have hopen : own.length < 2 ^ 31 := by
      rw [hsplit, List.length_append] at hopen
      omega
    have hown : LsmCore.Represents "sst_"
        (LsmCore.flush sizing "sst_" io { db.toLsmCore with sstables := own }) map :=
      hrep.flush fun _ => ⟨hcomplete, hfile, hopen⟩
    rw [hflush own] at hown
    have hlt : db.nextSstId < db.nextSstId + 1 := by
      have hnext : db.nextSstId.toNat = own.length := hrep.next
      exact LsmCore.lt_next (by omega)
    rw [EmbeddedLsmDatabase.flushMemtable, hflush db.sstables] at hstored ⊢
    refine ⟨h.walOpen, hstored, ⟨own ++ new, ?_, hown⟩, h.keys, fun t ht => ?_⟩
    · rw [hsplit, List.append_assoc]
    · exact (h.intact t ht).mono (fun id hid => UInt64.lt_trans hid hlt) (fun hnames => hdir _ (hnames _ hlt))
        (List.Subset.refl _)

theorem remember {key : UInt64} (hkey : key ∈ logged.map Prod.fst) (value : UInt64) (level : Level) :
    Serves sizing found { db with toLsmCore := db.remember key value level } logged
      (Function.update map key (some value)) := by
  obtain ⟨own, hsplit, hrep⟩ := h.own
  refine ⟨h.walOpen, h.stored, ⟨own, hsplit, hrep.remember key value level⟩, fun k hk => ?_, h.intact⟩
  rw [Function.update_apply] at hk
  split_ifs at hk with he
  · rw [he]
    exact hkey
  · exact h.keys k hk

theorem putLocked {key value : UInt64} {level : Level} {io : FlushIo} (hkey : key ∈ logged.map Prod.fst)
    (hio : LsmCore.InsertSucceeds sizing io db.toLsmCore key value level) :
    Serves sizing found (db.putLocked sizing io key value level) logged (Function.update map key (some value)) := by
  have hnew := h.remember hkey value level
  simp only [EmbeddedLsmDatabase.putLocked, LsmCore.insert]
  split_ifs with hfull
  · exact hnew.flushMemtable (hio hfull)
  · exact hnew

theorem put {key value : UInt64} {level : Level} {io : FlushIo}
    (hio : LsmCore.InsertSucceeds sizing io (db.append none key value).toLsmCore key value level) :
    Serves sizing found (db.put sizing none io key value level) (logged ++ [(key, value)])
      (Function.update map key (some value)) :=
  (h.append key value).putLocked (by simp) hio

end Serves

inductive Phase
  | constructed
  | recovered
  | closed
  deriving DecidableEq, Repr

def Phase.step (phase : Phase) : Op → Phase
  | .construct _ _ => .constructed
  | .recover _ _ _ => .recovered
  | .close _ => .closed
  | _ => phase

abbrev phase (ops : List Op) : Phase := Runs.run Phase.step .closed ops

def Op.entry : Op → Option Pair
  | .put key value _ _ _ => some (key, value)
  | _ => none

def puts (ops : List Op) : List Pair := ops.filterMap Op.entry

theorem puts_snoc (ops : List Op) (op : Op) : puts (ops ++ [op]) = puts ops ++ op.entry.toList := by
  cases h : op.entry <;> simp [puts, h]

variable (sizing : BloomSizing)

/-- All calls to the system succeed. A session starts with a constructor, and has no `put` before its
`recover`. It may end anywhere. -/
def Permitted (p : Phase) (db : EmbeddedLsmDatabase) : Op → Prop
  | .construct _ walOpen => walOpen = true
  | .recover listing reads _ => p = .constructed ∧ reads = none ∧ ∀ entry ∈ listing, entry.2 = {}
  | .put key value level wal io => p = .recovered ∧ wal = none ∧
    LsmCore.InsertSucceeds sizing io (db.append none key value).toLsmCore key value level
  | .get _ => p ≠ .closed
  | .flushMemtable io | .close io => p ≠ .closed ∧
    (db.memtable.size ≠ 0 → LsmCore.FlushSucceeds sizing io db.toLsmCore)

def Client (past : List Op) (op : Op) : Prop := Permitted sizing (phase past) (run sizing ∅ past) op

variable {sizing}

inductive InSession (sizing : BloomSizing) (db : EmbeddedLsmDatabase) (logged : List Pair) : Phase → Prop
  | constructed (stored : Stored sizing db.dir logged) (walOpen : db.walOpen = true) (next : db.nextSstId = 0)
    (empty : db.memtable.size = 0) : InSession sizing db logged .constructed
  | recovered {found : List SSTable} (serves : Serves sizing found db logged (latest logged)) :
    InSession sizing db logged .recovered
  | closed (stored : Stored sizing db.dir logged) : InSession sizing db logged .closed

namespace InSession

variable {db : EmbeddedLsmDatabase} {logged : List Pair} {p : Phase}

theorem stored (h : InSession sizing db logged p) : Stored sizing db.dir logged := by
  cases h with
  | constructed stored => exact stored
  | recovered serves => exact serves.stored
  | closed stored => exact stored

theorem construct (h : InSession sizing db logged p) (threshold : UInt64) :
    InSession sizing (construct db.dir threshold true) logged .constructed :=
  .constructed h.stored.createWal rfl rfl rfl

theorem flushMemtable {io : FlushIo} (h : InSession sizing db logged p) (hp : p ≠ .closed)
    (hio : db.memtable.size ≠ 0 → LsmCore.FlushSucceeds sizing io db.toLsmCore) :
    InSession sizing (db.flushMemtable sizing io) logged p := by
  cases h with
  | constructed stored walOpen next empty =>
    rw [EmbeddedLsmDatabase.flushMemtable, LsmCore.flush, if_pos empty]
    exact .constructed stored walOpen next empty
  | recovered serves => exact .recovered (serves.flushMemtable hio)
  | closed stored => exact absurd rfl hp

theorem step {op : Op} (h : InSession sizing db logged p) (hop : Permitted sizing p db op) :
    InSession sizing (step sizing db op) (logged ++ op.entry.toList) (p.step op) := by
  cases op with
  | put key value level wal io =>
    obtain ⟨rfl, rfl, hio⟩ := hop
    cases h with
    | recovered serves =>
      have hnew := serves.put hio
      rw [← latest_snoc] at hnew
      exact .recovered hnew
  | construct threshold walOpen =>
    obtain rfl := hop
    simp only [Op.entry, Option.toList_none, List.append_nil]
    exact h.construct threshold
  | recover listing reads levels =>
    obtain ⟨rfl, rfl, hlisting⟩ := hop
    simp only [Op.entry, Option.toList_none, List.append_nil]
    cases h with
    | constructed stored walOpen next empty => exact .recovered (Serves.recover walOpen stored next hlisting levels)
  | get key =>
    simp only [Op.entry, Option.toList_none, List.append_nil]
    exact h
  | flushMemtable io =>
    simp only [Op.entry, Option.toList_none, List.append_nil]
    exact h.flushMemtable hop.1 hop.2
  | close io =>
    simp only [Op.entry, Option.toList_none, List.append_nil]
    exact .closed (h.flushMemtable hop.1 hop.2).stored

end InSession

theorem inSession_run {ops : List Op} (h : Lawful (Client sizing) ops) :
    InSession sizing (run sizing ∅ ops) (puts ops) (phase ops) := by
  refine Lawful.induct (motive := fun ops db => InSession sizing db (puts ops) (phase ops)) ?_ ?_ h
  · exact .closed (Stored.empty sizing)
  · intro ops op hop hin
    rw [phase, run_snoc, puts_snoc]
    exact hin.step hop

theorem durable_across_sessions (sizing : BloomSizing) {ops : List Op} (h : Lawful (Client sizing) ops)
    (hphase : phase ops = .recovered) {key : UInt64} (hkey : key ∈ (puts ops).map Prod.fst) :
    ∃ value, latest (puts ops) key = some value ∧ (run sizing ∅ ops).get key = some value := by
  obtain ⟨value, hvalue⟩ := Option.ne_none_iff_exists'.mp (mt (latest_eq_none _ key).mp (not_not.mpr hkey))
  have hin := inSession_run h
  rw [hphase] at hin
  cases hin with
  | recovered serves => exact ⟨value, hvalue, by rw [serves.get_eq, hvalue, Option.some_or]⟩

def restarts : List Op :=
  [.construct 120 true, .recover [] none (fun _ => levelOf 1), .put 5 50 (levelOf 3) none {},
    .put 2 20 (levelOf 1) none {}, .close {},
    .construct 4096 true, .recover [(walName, {}), (tableName "sst_" 0, {})] none (fun _ => levelOf 2),
    .put 5 51 (levelOf 16) none {},
    .construct 1 true, .recover [(tableName "sst_" 0, {}), (walName, {})] none (fun _ => levelOf 4),
    .put 7 70 (levelOf 1) none {}]

theorem durable_across_restarts :
    ∃ value, latest (puts restarts) 5 = some value ∧ (run .tenBits ∅ restarts).get 5 = some value := by
  apply durable_across_sessions
  · refine ⟨rfl, ⟨rfl, rfl, by simp⟩, ⟨rfl, rfl, fun _ _ => ?_⟩, ⟨rfl, rfl, fun _ _ => ?_⟩,
      ⟨by decide, fun _ => ?_⟩, rfl, ⟨rfl, rfl, by simp⟩, ⟨rfl, rfl, fun _ _ => ?_⟩, rfl, ⟨rfl, rfl, by simp⟩,
      ⟨rfl, rfl, fun _ _ => ?_⟩, trivial⟩
    all_goals exact ⟨rfl, by decide +kernel, by decide +kernel⟩
  · rfl
  · decide

end SystemLevel.Lsm.EmbeddedLsmDatabase
