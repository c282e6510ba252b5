import SystemLevel.Lsm.DatabaseSessions

namespace SystemLevel.Lsm.EmbeddedLsmDatabase

open Runs Lookup

/-- A call that returns, or a `put` that a crash interrupts after so many bytes of its `write`. -/
inductive Event
  | returns (op : Op)
  | interrupted (key value : UInt64) (written : ℕ)

def Event.step (sizing : BloomSizing) (db : EmbeddedLsmDatabase) : Event → EmbeddedLsmDatabase
  | .returns op => EmbeddedLsmDatabase.step sizing db op
  | .interrupted key value written => db.append (some written) key value

abbrev runEvents (sizing : BloomSizing) (events : List Event) : EmbeddedLsmDatabase :=
  Runs.run (Event.step sizing) { dir := ∅, threshold := 0 } events

def Phase.event (p : Phase) : Event → Phase
  | .returns op => p.step op
  | .interrupted _ _ _ => .closed

abbrev phaseAfter (events : List Event) : Phase := Runs.run Phase.event .closed events

def Event.returned : Event → Option Pair
  | .returns op => op.entry
  | .interrupted _ _ _ => none

def Event.logged : Event → Option Pair
  | .returns op => op.entry
  | .interrupted key value written => if pairCodec.size ≤ written then some (key, value) else none

def returnedPuts (events : List Event) : List Pair := events.filterMap Event.returned

def loggedPuts (events : List Event) : List Pair := events.filterMap Event.logged

def Event.Permitted (sizing : BloomSizing) (past : List Event) : Event → Prop
  | .returns op => EmbeddedLsmDatabase.Permitted sizing (phaseAfter past) (runEvents sizing past) op
  | .interrupted _ _ _ => phaseAfter past = .recovered

def walLength (db : EmbeddedLsmDatabase) : ℕ := ((db.dir.lookup walName).getD []).length

def Event.writes : Event → Bool
  | .returns op => op.entry.isSome
  | .interrupted _ _ written => decide (0 < written)

def WritesBehindWhole (sizing : BloomSizing) (past : List Event) (event : Event) : Prop :=
  event.writes = true → pairCodec.size ∣ walLength (runEvents sizing past)

theorem walEntries_torn (entries : List Pair) {tail : Bytes} (htail : tail.length < pairCodec.size) :
    walEntries none (pairCodec.encodeAll entries ++ tail) = entries := by
  have hlen : (pairCodec.encodeAll entries ++ tail).length / pairCodec.size = entries.length := by
    rw [List.length_append, FixedCodec.encodeAll_length, Nat.mul_comm, Nat.mul_add_div (by omega),
      Nat.div_eq_of_lt htail, Nat.add_zero]
  rw [walEntries, hlen]
  exact pairCodec.decodeAll_encodeAll entries tail

structure TornFrom (whole torn : Directory) (tail : Bytes) : Prop where
  files : ∀ name ≠ walName, torn.lookup name = whole.lookup name
  wal : (torn.lookup walName).getD [] = (whole.lookup walName).getD [] ++ tail

abbrev inDir (db : EmbeddedLsmDatabase) (dir : Directory) : EmbeddedLsmDatabase := { db with dir }

namespace TornFrom

variable {sizing : BloomSizing} {whole torn : Directory} {tail : Bytes}

theorem insert (h : TornFrom whole torn tail) {name : FileName} (hname : name ≠ walName) (file : Bytes) :
    TornFrom (whole.insert name file) (torn.insert name file) tail := by
  refine ⟨fun other hother => ?_, ?_⟩
  · by_cases he : other = name
    · rw [he, AList.lookup_insert, AList.lookup_insert]
    · rw [AList.lookup_insert_ne he, AList.lookup_insert_ne he, h.files other hother]
  · rw [AList.lookup_insert_ne hname.symm, AList.lookup_insert_ne hname.symm, h.wal]

theorem trans {torn' : Directory} {tail' : Bytes} (h : TornFrom whole torn tail) (h' : TornFrom torn torn' tail') :
    TornFrom whole torn' (tail ++ tail') := by
  refine ⟨fun name hname => (h'.files name hname).trans (h.files name hname), ?_⟩
  rw [h'.wal, h.wal, List.append_assoc]

theorem stored {logged : List Pair} (h : TornFrom whole torn []) (hstored : Stored sizing whole logged) :
    Stored sizing torn logged := by
  refine ⟨?_, fun name file hname hfile => ?_⟩
  · rw [h.wal, List.append_nil, hstored.wal]
  · rw [h.files name hname] at hfile
    exact hstored.tables name file hname hfile

theorem createWal_self (dir : Directory) : TornFrom dir (EmbeddedLsmDatabase.createWal dir) [] := by
  rw [EmbeddedLsmDatabase.createWal]
  split_ifs with hsome
  · exact ⟨fun _ _ => rfl, (List.append_nil _).symm⟩
  · have hnone : dir.lookup walName = none := by simpa using hsome
    refine ⟨fun name hname => AList.lookup_insert_ne hname, ?_⟩
    rw [AList.lookup_insert, hnone]
    rfl

theorem createWal (h : TornFrom whole torn tail) :
    TornFrom (EmbeddedLsmDatabase.createWal whole) (EmbeddedLsmDatabase.createWal torn) tail := by
  have hwhole := createWal_self whole
  have htorn := createWal_self torn
  refine ⟨fun name hname => ?_, ?_⟩
  · rw [htorn.files name hname, h.files name hname, hwhole.files name hname]
  · rw [htorn.wal, h.wal, hwhole.wal, List.append_nil, List.append_nil]

theorem openFile (h : TornFrom whole torn tail) (io : OpenIo) {name : FileName} (hname : name ≠ walName) :
    SSTable.openFile io torn name = SSTable.openFile io whole name := by
  rw [SSTable.openFile, SSTable.openFile, h.files name hname]

theorem build (h : TornFrom whole torn tail) (sizing : BloomSizing) (io : FlushIo) {name : FileName}
    (hname : name ≠ walName) (pairs : List Pair) :
    TornFrom (SSTable.build sizing io whole name pairs).1 (SSTable.build sizing io torn name pairs).1 tail ∧
      (SSTable.build sizing io torn name pairs).2 = (SSTable.build sizing io whole name pairs).2 := by
  rw [SSTable.build_eq, SSTable.build_eq]
  split_ifs
  · exact ⟨h, rfl⟩
  · exact ⟨h.insert hname _, rfl⟩
  · exact ⟨h, rfl⟩

theorem flushMemtable {db : EmbeddedLsmDatabase} (h : TornFrom db.dir torn tail) (sizing : BloomSizing)
    (io : FlushIo) :
    ∃ torn', (db.inDir torn).flushMemtable sizing io = (db.flushMemtable sizing io).inDir torn' ∧
      TornFrom (db.flushMemtable sizing io).dir torn' tail := by
  have hname := (walName_ne "sst_" db.nextSstId).symm
  obtain ⟨hdir, hbuilt⟩ := h.build sizing io hname db.memtable.toVector
  have hopen := hdir.openFile io.reopen hname
  by_cases hsize : db.memtable.size = 0
  · rw [EmbeddedLsmDatabase.flushMemtable, EmbeddedLsmDatabase.flushMemtable, LsmCore.flush, LsmCore.flush,
      if_pos hsize, if_pos hsize]
    exact ⟨torn, rfl, h⟩
  · rw [EmbeddedLsmDatabase.flushMemtable, EmbeddedLsmDatabase.flushMemtable, LsmCore.flush, LsmCore.flush,
      if_neg hsize, if_neg hsize]
    refine ⟨_, ?_, hdir⟩
    simp only [hopen, hbuilt]

theorem recover {db : EmbeddedLsmDatabase} (h : TornFrom db.dir torn tail) {logged : List Pair}
    (hwal : (db.dir.lookup walName).getD [] = pairCodec.encodeAll logged) (htail : tail.length < pairCodec.size)
    (listing : List (FileName × OpenIo)) (levels : ℕ → Level) :
    (db.inDir torn).recover listing none levels = (db.recover listing none levels).inDir torn := by
  have hopen : ∀ entry : FileName × OpenIo,
      (if entry.1.extension = ".db" then SSTable.openFile entry.2 torn entry.1 else none) =
        if entry.1.extension = ".db" then SSTable.openFile entry.2 db.dir entry.1 else none := by
    intro entry
    split_ifs with hextension
    · apply h.openFile
      intro he
      rw [he] at hextension
      exact absurd hextension (by decide)
    · rfl
  simp only [EmbeddedLsmDatabase.recover, inDir, hopen, h.wal, hwal, walEntries_torn _ htail,
    walEntries_encodeAll]

theorem get {db : EmbeddedLsmDatabase} (h : TornFrom db.dir torn tail)
    (hnames : ∀ t ∈ db.sstables, t.filename ≠ walName) (key : UInt64) : (db.inDir torn).get key = db.get key := by
  rw [LsmCore.get_eq, LsmCore.get_eq, ← LsmCore.searchTables_congr fun t ht => h.files _ (hnames t ht)]

theorem interrupted {db : EmbeddedLsmDatabase} (hopen : db.walOpen = true) (key value : UInt64) (written : ℕ) :
    ∃ torn, db.append (some written) key value = db.inDir torn ∧
      TornFrom db.dir torn ((pairCodec.encode (key, value)).take written) := by
  rw [append, if_pos hopen]
  refine ⟨_, rfl, fun name hname => AList.lookup_insert_ne hname, ?_⟩
  rw [AList.lookup_insert, Option.getD_some]
  rfl

theorem step {db : EmbeddedLsmDatabase} {logged : List Pair} {p : Phase} (h : TornFrom db.dir torn tail)
    (hwal : (db.dir.lookup walName).getD [] = pairCodec.encodeAll logged) (htail : tail.length < pairCodec.size)
    {op : Op} (hop : Permitted sizing p (db.inDir torn) op) (hentry : op.entry = none) :
    Permitted sizing p db op ∧ ∃ torn', step sizing (db.inDir torn) op = (step sizing db op).inDir torn' ∧
      TornFrom (step sizing db op).dir torn' tail := by
  have hio : ∀ io, ((db.inDir torn).memtable.size ≠ 0 → LsmCore.FlushSucceeds sizing io (db.inDir torn).toLsmCore) →
      db.memtable.size ≠ 0 → LsmCore.FlushSucceeds sizing io db.toLsmCore :=
    fun io h hsize => ⟨(h hsize).complete, (h hsize).fileSize, (h hsize).descriptors⟩
  cases op with
  | put key value level wal io => cases hentry
  | construct threshold walOpen =>
    obtain rfl := hop
    exact ⟨rfl, _, rfl, h.createWal⟩
  | recover listing reads levels =>
    obtain ⟨rfl, rfl, hlisting⟩ := hop
    exact ⟨⟨rfl, rfl, hlisting⟩, torn, h.recover hwal htail listing levels, h⟩
  | get key => exact ⟨hop, torn, rfl, h⟩
  | flushMemtable io => exact ⟨⟨hop.1, hio io hop.2⟩, h.flushMemtable sizing io⟩
  | close io =>
    obtain ⟨torn', hflush, htorn'⟩ := h.flushMemtable sizing io
    refine ⟨⟨hop.1, hio io hop.2⟩, torn', ?_, htorn'⟩
    simp only [EmbeddedLsmDatabase.step, close, hflush]

end TornFrom

inductive AfterEvents (sizing : BloomSizing) (db : EmbeddedLsmDatabase) (logged : List Pair) (p : Phase) : Prop
  | whole (session : InSession sizing db logged p)
  | torn {db₀ : EmbeddedLsmDatabase} {dir : Directory} {tail : Bytes} (session : InSession sizing db₀ logged p)
    (same : db = db₀.inDir dir) (torn : TornFrom db₀.dir dir tail) (nonempty : 0 < tail.length)
    (short : tail.length < pairCodec.size)

namespace AfterEvents

variable {sizing : BloomSizing} {db : EmbeddedLsmDatabase} {logged : List Pair} {p : Phase}

theorem inSession (h : AfterEvents sizing db logged p) (hwhole : pairCodec.size ∣ db.walLength) :
    InSession sizing db logged p := by
  cases h with
  | whole session => exact session
  | @torn db₀ dir tail session same torn nonempty short =>
    subst same
    have hlength : (db₀.inDir dir).walLength = logged.length * pairCodec.size + tail.length := by
      rw [walLength, torn.wal, List.length_append, session.stored.wal, FixedCodec.encodeAll_length]
    rw [hlength, Nat.dvd_add_right (Nat.dvd_mul_left _ _)] at hwhole
    have hle := Nat.le_of_dvd nonempty hwhole
    omega

theorem returns (h : AfterEvents sizing db logged p) {op : Op} (hop : Permitted sizing p db op)
    (hwhole : op.entry.isSome = true → pairCodec.size ∣ db.walLength) :
    AfterEvents sizing (EmbeddedLsmDatabase.step sizing db op) (logged ++ op.entry.toList) (p.step op) := by
  cases hentry : op.entry with
  | some entry =>
    have hsession := (h.inSession (hwhole (by rw [hentry]; rfl))).step hop
    rw [hentry] at hsession
    exact .whole hsession
  | none =>
    cases h with
    | whole session =>
      have hsession := session.step hop
      rw [hentry] at hsession
      exact .whole hsession
    | torn session same torn nonempty short =>
      subst same
      obtain ⟨hop₀, dir', hstep, htorn⟩ := torn.step session.stored.wal short hop hentry
      have hsession := session.step hop₀
      rw [hentry] at hsession
      exact .torn hsession hstep htorn nonempty short

theorem walOpen (h : AfterEvents sizing db logged .recovered) : db.walOpen = true := by
  cases h with
  | whole session =>
    cases session with
    | recovered serves => exact serves.walOpen
  | torn session same torn nonempty short =>
    subst same
    cases session with
    | recovered serves => exact serves.walOpen

theorem interrupted (h : AfterEvents sizing db logged .recovered) (key value : UInt64) (written : ℕ)
    (hwhole : 0 < written → pairCodec.size ∣ db.walLength) :
    AfterEvents sizing (db.append (some written) key value)
      (logged ++ (Event.interrupted key value written).logged.toList) .closed := by
  obtain ⟨dir', happend, htorn⟩ := TornFrom.interrupted h.walOpen key value written
  have hsize : (pairCodec.encode (key, value)).length = pairCodec.size := pairCodec.encode_length _
  rcases Nat.eq_zero_or_pos written with rfl | hpos
  · rw [Event.logged, if_neg (by decide), Option.toList_none, List.append_nil]
    rw [List.take_zero] at htorn
    cases h with
    | whole session =>
      rw [happend]
      exact .whole (.closed (htorn.stored session.stored))
    | torn session same torn nonempty short =>
      subst same
      have hboth := torn.trans htorn
      rw [List.append_nil] at hboth
      exact .torn (.closed session.stored) happend hboth nonempty short
  · have hstored := (h.inSession (hwhole hpos)).stored
    rw [Event.logged]
    split_ifs with hall
    · have hdir := hstored.append key value
      rw [append, if_pos h.walOpen, transfer, List.take_of_length_le (by omega)]
      exact .whole (.closed hdir)
    · rw [Option.toList_none, List.append_nil]
      have htake : ((pairCodec.encode (key, value)).take written).length = written := by
        rw [List.length_take]
        omega
      exact .torn (.closed hstored) happend htorn (by omega) (by omega)

theorem step {past : List Event} {event : Event}
    (h : AfterEvents sizing (runEvents sizing past) (loggedPuts past) (phaseAfter past))
    (hpermitted : event.Permitted sizing past) (hwhole : WritesBehindWhole sizing past event) :
    AfterEvents sizing (event.step sizing (runEvents sizing past)) (loggedPuts past ++ event.logged.toList)
      ((phaseAfter past).event event) := by
  cases event with
  | returns op => exact h.returns hpermitted hwhole
  | interrupted key value written =>
    rw [show phaseAfter past = .recovered from hpermitted] at h
    exact h.interrupted key value written fun hpos => hwhole (decide_eq_true hpos)

end AfterEvents

theorem loggedPuts_snoc (events : List Event) (event : Event) :
    loggedPuts (events ++ [event]) = loggedPuts events ++ event.logged.toList := by
  cases h : event.logged <;> simp [loggedPuts, h]

theorem afterEvents_run {sizing : BloomSizing} {events : List Event} (h : Lawful (Event.Permitted sizing) events)
    (hwhole : Lawful (WritesBehindWhole sizing) events) :
    AfterEvents sizing (runEvents sizing events) (loggedPuts events) (phaseAfter events) := by
  refine Lawful.induct (motive := fun events db => AfterEvents sizing db (loggedPuts events) (phaseAfter events))
    ?_ ?_ (h.and hwhole)
  · exact .whole (.closed (Stored.empty sizing))
  · intro events event hevent hafter
    rw [phaseAfter, run_snoc, loggedPuts_snoc]
    exact hafter.step hevent.1 hevent.2

theorem Serves.filename_ne {sizing : BloomSizing} {found : List SSTable} {db : EmbeddedLsmDatabase}
    {logged : List Pair} {map : UInt64 → Option UInt64} (h : Serves sizing found db logged map) :
    ∀ t ∈ db.sstables, t.filename ≠ walName := by
  intro t ht
  obtain ⟨own, hsplit, hrep⟩ := h.own
  rw [hsplit, List.mem_append] at ht
  cases ht with
  | inl hfound => exact (h.intact t hfound).1
  | inr hown =>
    obtain ⟨id, -, hname⟩ := hrep.numbered t hown
    rw [hname]
    exact (walName_ne _ _).symm

theorem AfterEvents.get {sizing : BloomSizing} {db : EmbeddedLsmDatabase} {logged : List Pair}
    (h : AfterEvents sizing db logged .recovered) {key value : UInt64} (hvalue : latest logged key = some value) :
    db.get key = some value := by
  cases h with
  | whole session =>
    cases session with
    | recovered serves => rw [serves.get_eq, hvalue, Option.some_or]
  | torn session same torn nonempty short =>
    subst same
    cases session with
    | recovered serves => rw [torn.get serves.filename_ne, serves.get_eq, hvalue, Option.some_or]

theorem returned_mem_logged {events : List Event} {p : Pair} (h : p ∈ returnedPuts events) : p ∈ loggedPuts events := by
  obtain ⟨event, hevent, hreturned⟩ := List.mem_filterMap.mp h
  apply List.mem_filterMap.mpr
  refine ⟨event, hevent, ?_⟩
  cases event with
  | returns op => exact hreturned
  | interrupted key value written => cases hreturned

theorem durable_behind_whole_entries (sizing : BloomSizing) {events : List Event}
    (h : Lawful (Event.Permitted sizing) events) (hwhole : Lawful (WritesBehindWhole sizing) events)
    (hphase : phaseAfter events = .recovered) {key : UInt64} (hkey : key ∈ (returnedPuts events).map Prod.fst) :
    ∃ value, latest (loggedPuts events) key = some value ∧ (runEvents sizing events).get key = some value := by
  have hlogged : key ∈ (loggedPuts events).map Prod.fst := by
    obtain ⟨p, hp, rfl⟩ := List.mem_map.mp hkey
    exact List.mem_map_of_mem (returned_mem_logged hp)
  obtain ⟨value, hvalue⟩ := Option.ne_none_iff_exists'.mp (mt (latest_eq_none _ key).mp (not_not.mpr hlogged))
  have hafter := afterEvents_run h hwhole
  rw [hphase] at hafter
  exact ⟨value, hvalue, hafter.get hvalue⟩

def tornThenRead : List Event :=
  [.returns (.construct 4096 true), .returns (.recover [] none (fun _ => levelOf 1)),
    .returns (.put 5 50 (levelOf 3) none {}), .interrupted 5 51 4,
    .returns (.construct 4096 true), .returns (.recover [(walName, {})] none (fun _ => levelOf 2))]

theorem durable_behind_whole_entries_of_tornThenRead :
    ∃ value, latest (loggedPuts tornThenRead) 5 = some value ∧
      (runEvents .tenBits tornThenRead).get 5 = some value := by
  apply durable_behind_whole_entries
  · refine ⟨rfl, ⟨rfl, rfl, by simp⟩, ⟨rfl, rfl, fun hfull => ?_⟩, rfl, rfl, ⟨rfl, rfl, by simp⟩, trivial⟩
    exact absurd hfull (by decide +kernel)
  · refine ⟨nofun, nofun, fun _ => ?_, fun _ => ?_, nofun, nofun, trivial⟩ <;> decide +kernel
  · rfl
  · decide

def putBehindTorn : List Event :=
  [.returns (.construct 4096 true), .returns (.recover [] none (fun _ => levelOf 1)),
    .returns (.put 5 50 (levelOf 3) none {}), .interrupted 7 70 4,
    .returns (.construct 4096 true), .returns (.recover [(walName, {})] none (fun _ => levelOf 2)),
    .returns (.put 5 51 (levelOf 1) none {}),
    .returns (.construct 4096 true), .returns (.recover [(walName, {})] none (fun _ => levelOf 2))]

theorem put_lost_behind_torn :
    Lawful (Event.Permitted .tenBits) putBehindTorn ∧ phaseAfter putBehindTorn = .recovered ∧
      returnedPuts putBehindTorn = [(5, 50), (5, 51)] ∧ loggedPuts putBehindTorn = [(5, 50), (5, 51)] ∧
      (runEvents .tenBits putBehindTorn).get 5 = some 50 := by
  refine ⟨⟨rfl, ⟨rfl, rfl, by simp⟩, ⟨rfl, rfl, fun hfull => ?_⟩, rfl, rfl, ⟨rfl, rfl, by simp⟩,
    ⟨rfl, rfl, fun hfull => ?_⟩, rfl, ⟨rfl, rfl, by simp⟩, trivial⟩, rfl, by decide, by decide, by decide +kernel⟩
  all_goals exact absurd hfull (by decide +kernel)

end SystemLevel.Lsm.EmbeddedLsmDatabase
