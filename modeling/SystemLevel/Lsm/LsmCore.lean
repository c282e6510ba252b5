import SystemLevel.Lsm.MemTable
import SystemLevel.Lsm.SSTableLookup

/-!
`LsmEngine` and `EmbeddedLsmDatabase` share the code of `get`, of the second half of `put` and of the
flush. They differ in the name that a flush gives to its file.
-/

namespace SystemLevel.Lsm

structure LsmCore where
  dir : Directory := ∅
  threshold : UInt64
  nextSstId : UInt64 := 0
  memtable : MemTable := MemTable.empty
  sstables : List SSTable := []

def tableName (stem : String) (id : UInt64) : FileName := { stem := stem ++ Nat.repr id.toNat, extension := ".db" }

namespace LsmCore

def searchTables (dir : Directory) (sstables : List SSTable) (key : UInt64) : Option UInt64 :=
  sstables.reverse.findSome? (fun t => t.get dir key)

def get (e : LsmCore) (key : UInt64) : Option UInt64 :=
  match e.memtable.get key with
  | some value => some value
  | none => searchTables e.dir e.sstables key

variable (sizing : BloomSizing) (stem : String)

def flush (io : FlushIo) (e : LsmCore) : LsmCore :=
  if e.memtable.size = 0 then e
  else
    let path := tableName stem e.nextSstId
    let built := SSTable.build sizing io e.dir path e.memtable.toVector
    let sst := if built.2 then SSTable.openFile io.reopen built.1 path else none
    { e with
      dir := built.1
      nextSstId := e.nextSstId + 1
      sstables := e.sstables ++ sst.toList
      memtable := MemTable.empty }

def remember (e : LsmCore) (key value : UInt64) (level : Level) : LsmCore :=
  { e with memtable := e.memtable.put key value level }

def insert (io : FlushIo) (e : LsmCore) (key value : UInt64) (level : Level) : LsmCore :=
  let e := e.remember key value level
  if e.threshold ≤ e.memtable.byteSize then e.flush sizing stem io else e

/-- Every call of the flush does all that it is asked to do. The file is then no longer than an `off_t`
can tell, and its descriptor is one more `int` beside those of the open tables. -/
structure FlushSucceeds (io : FlushIo) (e : LsmCore) : Prop where
  complete : io = {}
  fileSize : (SSTable.written sizing {} e.memtable.toVector).length < 2 ^ 63
  descriptors : e.sstables.length < 2 ^ 31

def InsertSucceeds (io : FlushIo) (e : LsmCore) (key value : UInt64) (level : Level) : Prop :=
  let e := e.remember key value level
  e.threshold ≤ e.memtable.byteSize → e.memtable.size ≠ 0 → FlushSucceeds sizing io e

def NextIsFresh (e : LsmCore) : Prop := ∀ t ∈ e.sstables, t.filename ≠ tableName stem e.nextSstId

variable {sizing stem}

theorem get_eq (e : LsmCore) (key : UInt64) :
    e.get key = (e.memtable.get key).or (searchTables e.dir e.sstables key) := by
  unfold get
  cases e.memtable.get key <;> rfl

theorem searchTables_singleton (dir : Directory) (t : SSTable) (key : UInt64) :
    searchTables dir [t] key = t.get dir key := by
  simp [searchTables]

theorem searchTables_append (dir : Directory) (old new : List SSTable) (key : UInt64) :
    searchTables dir (old ++ new) key = (searchTables dir new key).or (searchTables dir old key) := by
  rw [searchTables, List.reverse_append, List.findSome?_append]
  rfl

theorem searchTables_eq_none {dir : Directory} {sstables : List SSTable} {key : UInt64}
    (h : ∀ t ∈ sstables, t.get dir key = none) : searchTables dir sstables key = none := by
  rw [searchTables, List.findSome?_eq_none_iff]
  exact fun t ht => h t (List.mem_reverse.mp ht)

theorem searchTables_congr {dir dir' : Directory} {sstables : List SSTable}
    (h : ∀ t ∈ sstables, dir'.lookup t.filename = dir.lookup t.filename) (key : UInt64) :
    searchTables dir' sstables key = searchTables dir sstables key := by
  induction sstables using List.reverseRecOn with
  | nil => rfl
  | append_singleton sstables t ih =>
    rw [searchTables_append, searchTables_append, searchTables_singleton, searchTables_singleton,
      SSTable.get_congr (h t (by simp)), ih (fun t ht => h t (by simp [ht]))]

theorem get_split {e : LsmCore} {old new : List SSTable} (h : e.sstables = old ++ new) (key : UInt64) :
    e.get key = (get { e with sstables := new } key).or (searchTables e.dir old key) := by
  rw [get_eq, get_eq, h, searchTables_append, Option.or_assoc]

@[simp] theorem get_remember (e : LsmCore) (key value : UInt64) (level : Level) (k : UInt64) :
    (e.remember key value level).get k = if k = key then some value else e.get k := by
  rw [get_eq, get_eq, remember, MemTable.get_put]
  split_ifs <;> rfl

theorem flush_cases (sizing : BloomSizing) (stem : String) (io : FlushIo) {e : LsmCore}
    (hsize : e.memtable.size ≠ 0) :
    ∃ (dir : Directory) (new : List SSTable),
      (∀ old, flush sizing stem io { e with sstables := old } =
        { e with dir, nextSstId := e.nextSstId + 1, sstables := old ++ new, memtable := MemTable.empty }) ∧
      (∀ name ≠ tableName stem e.nextSstId, dir.lookup name = e.dir.lookup name) ∧
      ∀ t ∈ new, t.filename = tableName stem e.nextSstId := by
  let path := tableName stem e.nextSstId
  let built := SSTable.build sizing io e.dir path e.memtable.toVector
  refine ⟨built.1, (if built.2 then SSTable.openFile io.reopen built.1 path else none).toList,
    fun old => if_neg hsize, fun name hname => ?_, fun t ht => ?_⟩
  · simp only [built, SSTable.build_eq]
    split_ifs
    · rfl
    · exact AList.lookup_insert_ne hname
    · rfl
  · split_ifs at ht
    · exact SSTable.openFile_filename (Option.mem_toList.mp ht)
    · simp at ht

theorem flush_spec (stem : String) {io : FlushIo} {e : LsmCore} (hio : FlushSucceeds sizing io e)
    (hsize : e.memtable.size ≠ 0) :
    ∃ t : SSTable, t.filename = tableName stem e.nextSstId ∧
      e.flush sizing stem io =
        { e with
          dir := e.dir.insert (tableName stem e.nextSstId) (SSTable.written sizing {} e.memtable.toVector)
          nextSstId := e.nextSstId + 1
          sstables := e.sstables ++ [t]
          memtable := MemTable.empty } ∧
      ∀ dir : Directory, dir.lookup (tableName stem e.nextSstId) =
          some (SSTable.written sizing {} e.memtable.toVector) →
        ∀ key, t.get dir key = e.memtable.get key := by
  obtain ⟨rfl, hfile, -⟩ := hio
  have hpairs : e.memtable.toVector ≠ [] := fun hnil => hsize (e.memtable.2.size_eq hnil)
  obtain ⟨t, hload, hname, hserves⟩ := SSTable.written_serves sizing e.memtable.toVector_sorted hfile
    (tableName stem e.nextSstId)
  refine ⟨t, hname, ?_, fun dir hdir key => by rw [hserves dir hdir key, MemTable.get_eq_lookup]⟩
  rw [flush, if_neg hsize]
  simp [SSTable.build_eq, hpairs, SSTable.openFile, AList.lookup_insert, hload]

theorem flush_get {io : FlushIo} {e : LsmCore} (hio : e.memtable.size ≠ 0 → FlushSucceeds sizing io e)
    (hfresh : e.NextIsFresh stem) (key : UInt64) : (e.flush sizing stem io).get key = e.get key := by
  by_cases hsize : e.memtable.size = 0
  · rw [flush, if_pos hsize]
  · obtain ⟨t, hname, hflush, hserves⟩ := flush_spec stem (hio hsize) hsize
    rw [hflush, get_eq, get_eq, MemTable.get_empty, Option.none_or, searchTables_append, searchTables_singleton,
      hserves _ (AList.lookup_insert _) key, searchTables_congr (fun t ht => AList.lookup_insert_ne (hfresh t ht))]

def Numbered (stem : String) (e : LsmCore) : Prop :=
  ∀ t ∈ e.sstables, ∃ id, id < e.nextSstId ∧ t.filename = tableName stem id

theorem tableName_inj {stem : String} {a b : UInt64} (h : tableName stem a = tableName stem b) : a = b := by
  have hrepr := (FileName.mk.inj h).1
  rw [String.append_right_inj] at hrepr
  exact UInt64.toNat_inj.mp (Nat.repr_inj.mp hrepr)

theorem Numbered.fresh {e : LsmCore} (h : e.Numbered stem) : e.NextIsFresh stem := by
  intro t ht hname
  obtain ⟨id, hid, hfile⟩ := h t ht
  rw [tableName_inj (hfile.symm.trans hname)] at hid
  exact UInt64.lt_irrefl _ hid

theorem lt_next {id : UInt64} (h : id.toNat + 1 < 2 ^ 64) : id < id + 1 := by
  have hone : (1 : UInt64).toNat = 1 := rfl
  rw [UInt64.lt_iff_toNat_lt, UInt64.toNat_add]
  omega

theorem Numbered.flush {e : LsmCore} (h : e.Numbered stem) (io : FlushIo) (hnext : e.nextSstId.toNat + 1 < 2 ^ 64) :
    (e.flush sizing stem io).Numbered stem := by
  by_cases hsize : e.memtable.size = 0
  · rw [LsmCore.flush, if_pos hsize]
    exact h
  · obtain ⟨dir, new, hflush, -, hnames⟩ := flush_cases sizing stem io hsize
    have hlt := lt_next hnext
    rw [hflush e.sstables]
    intro t ht
    rcases List.mem_append.mp ht with ht | ht
    · obtain ⟨id, hid, hfile⟩ := h t ht
      exact ⟨id, UInt64.lt_trans hid hlt, hfile⟩
    · exact ⟨e.nextSstId, hlt, hnames t ht⟩

structure Represents (stem : String) (e : LsmCore) (map : UInt64 → Option UInt64) : Prop where
  numbered : e.Numbered stem
  next : e.nextSstId.toNat = e.sstables.length
  get_eq : ∀ key, e.get key = map key

namespace Represents

variable {e : LsmCore} {map : UInt64 → Option UInt64} (h : e.Represents stem map)

include h

theorem flush {io : FlushIo} (hio : e.memtable.size ≠ 0 → FlushSucceeds sizing io e) :
    (e.flush sizing stem io).Represents stem map := by
  by_cases hsize : e.memtable.size = 0
  · rw [LsmCore.flush, if_pos hsize]
    exact h
  · obtain ⟨t, -, hflush, -⟩ := flush_spec stem (hio hsize) hsize
    have hlt := (hio hsize).descriptors
    have hnext := h.next
    refine ⟨h.numbered.flush io (by omega), ?_, fun key => by rw [flush_get hio h.numbered.fresh, h.get_eq]⟩
    have hone : (1 : UInt64).toNat = 1 := rfl
    rw [hflush, List.length_append, List.length_singleton, UInt64.toNat_add]
    omega

theorem setDir {dir : Directory} (hdir : ∀ id, dir.lookup (tableName stem id) = e.dir.lookup (tableName stem id)) :
    Represents stem { e with dir } map := by
  refine ⟨h.numbered, h.next, fun key => ?_⟩
  rw [← h.get_eq, LsmCore.get_eq, LsmCore.get_eq, searchTables_congr]
  intro t ht
  obtain ⟨id, -, hname⟩ := h.numbered t ht
  rw [hname, hdir]

theorem remember (key value : UInt64) (level : Level) :
    (e.remember key value level).Represents stem (Function.update map key (some value)) := by
  refine ⟨h.numbered, h.next, fun k => ?_⟩
  rw [get_remember, Function.update_apply, h.get_eq]

theorem insert {io : FlushIo} {key value : UInt64} {level : Level}
    (hio : InsertSucceeds sizing io e key value level) :
    (e.insert sizing stem io key value level).Represents stem (Function.update map key (some value)) := by
  have hnew := h.remember key value level
  simp only [LsmCore.insert]
  split_ifs with hfull
  · exact hnew.flush (hio hfull)
  · exact hnew

end Represents

end LsmCore

end SystemLevel.Lsm
