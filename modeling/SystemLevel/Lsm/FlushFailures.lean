import SystemLevel.Lsm.EmbeddedLsmDatabase
import SystemLevel.Lsm.LsmEngine

/-!
A flush replaces the memtable whether or not it has made a table of it. What is left of the memtable is
then what the older tables hold of it.
-/

namespace SystemLevel.Lsm

open Runs

namespace LsmCore

variable {sizing : BloomSizing} {stem : String} {io : FlushIo} {e : LsmCore} {key value : UInt64}

def EndsWithoutTable (sizing : BloomSizing) (stem : String) (io : FlushIo) (e : LsmCore) : Prop :=
  io.create = false ∨ io.reopen.opened = false ∨
    SSTable.load io.reopen (tableName stem e.nextSstId) (SSTable.written sizing io e.memtable.toVector) = none

/-- The tables that `get` asks, up to the one that has the key, are not open on the file that the next
flush overwrites. -/
def ServedElsewhere (stem : String) (e : LsmCore) (key : UInt64) : Prop :=
  ∃ older recent, e.sstables = older ++ recent ∧ searchTables e.dir recent key ≠ none ∧
    ∀ t ∈ recent, t.filename ≠ tableName stem e.nextSstId

theorem flush_keeps_memtable (hio : e.memtable.size ≠ 0 → FlushSucceeds sizing io e)
    (hkey : e.memtable.get key = some value) : (e.flush sizing stem io).get key = some value := by
  by_cases hsize : e.memtable.size = 0
  · rw [flush, if_pos hsize, get_eq, hkey, Option.some_or]
  · obtain ⟨t, -, hflush, hserves⟩ := flush_spec stem (hio hsize) hsize
    rw [hflush, get_eq, MemTable.get_empty, Option.none_or, searchTables_append, searchTables_singleton,
      hserves _ (AList.lookup_insert _) key, hkey, Option.some_or]

theorem flush_keeps_tables (hio : e.memtable.size ≠ 0 → FlushSucceeds sizing io e)
    (hkey : e.memtable.get key = none) (helse : e.ServedElsewhere stem key) :
    (e.flush sizing stem io).get key = e.get key := by
  by_cases hsize : e.memtable.size = 0
  · rw [flush, if_pos hsize]
  · obtain ⟨t, -, hflush, hserves⟩ := flush_spec stem (hio hsize) hsize
    obtain ⟨older, recent, hsplit, hrecent, hnames⟩ := helse
    obtain ⟨v, hv⟩ := Option.ne_none_iff_exists'.mp hrecent
    have hsame : searchTables (e.dir.insert (tableName stem e.nextSstId)
        (SSTable.written sizing {} e.memtable.toVector)) recent key = searchTables e.dir recent key :=
      searchTables_congr (fun t ht => AList.lookup_insert_ne (hnames t ht)) key
    rw [hflush, get_eq, get_eq, MemTable.get_empty, hkey, Option.none_or, Option.none_or, searchTables_append,
      searchTables_singleton, hserves _ (AList.lookup_insert _) key, hkey, Option.none_or, hsplit,
      searchTables_append, searchTables_append, hsame, hv, Option.some_or, Option.some_or]

theorem flush_keeps (hget : e.get key = some value) (hio : e.memtable.size ≠ 0 → FlushSucceeds sizing io e)
    (hkept : e.memtable.get key ≠ none ∨ e.ServedElsewhere stem key) :
    (e.flush sizing stem io).get key = some value := by
  cases hkey : e.memtable.get key with
  | none => rw [flush_keeps_tables hio hkey (hkept.resolve_left (not_not.mpr hkey)), hget]
  | some v =>
    rw [get_eq, hkey, Option.some_or] at hget
    exact flush_keeps_memtable hio (hkey.trans hget)

theorem NextIsFresh.servedElsewhere (h : e.NextIsFresh stem) (hget : e.get key = some value) :
    e.memtable.get key ≠ none ∨ e.ServedElsewhere stem key := by
  cases hkey : e.memtable.get key with
  | some v => exact Or.inl (Option.some_ne_none v)
  | none =>
    rw [get_eq, hkey, Option.none_or] at hget
    exact Or.inr ⟨[], e.sstables, rfl, by simp [hget], h⟩

theorem flush_without_table (hsize : e.memtable.size ≠ 0) (hnone : e.EndsWithoutTable sizing stem io) :
    ∃ dir : Directory, e.flush sizing stem io =
        { e with dir, nextSstId := e.nextSstId + 1, memtable := MemTable.empty } ∧
      (io.create = false → dir = e.dir) ∧
      ∀ name ≠ tableName stem e.nextSstId, dir.lookup name = e.dir.lookup name := by
  have hpairs : e.memtable.toVector ≠ [] := fun hnil => hsize (e.memtable.2.size_eq hnil)
  cases hcreate : io.create with
  | false =>
    refine ⟨e.dir, ?_, fun _ => rfl, fun _ _ => rfl⟩
    rw [flush, if_neg hsize]
    simp [SSTable.build_eq, hpairs, hcreate]
  | true =>
    refine ⟨e.dir.insert (tableName stem e.nextSstId) (SSTable.written sizing io e.memtable.toVector), ?_, by simp,
      fun name hname => AList.lookup_insert_ne hname⟩
    rw [flush, if_neg hsize]
    simp only [SSTable.build_eq, hpairs, hcreate, if_true, if_false, SSTable.openFile, AList.lookup_insert,
      Option.bind_some]
    rcases hnone with hfalse | hclosed | hload
    · simp [hcreate] at hfalse
    · simp [hclosed]
    · simp [hload]

theorem flush_get_without_table (hsize : e.memtable.size ≠ 0) (hnone : e.EndsWithoutTable sizing stem io)
    (hfile : io.create = false ∨ e.NextIsFresh stem) (key : UInt64) :
    (e.flush sizing stem io).get key = searchTables e.dir e.sstables key := by
  obtain ⟨dir, hflush, hsame, hdir⟩ := flush_without_table hsize hnone
  rw [hflush, get_eq, MemTable.get_empty, Option.none_or]
  rcases hfile with hcreate | hfresh
  · rw [hsame hcreate]
  · exact searchTables_congr (fun t ht => hdir _ (hfresh t ht)) key

theorem flush_nextSstId_le (sizing : BloomSizing) (stem : String) (io : FlushIo) (e : LsmCore) :
    (e.flush sizing stem io).nextSstId.toNat ≤ e.nextSstId.toNat + 1 := by
  by_cases hsize : e.memtable.size = 0
  · rw [flush, if_pos hsize]
    omega
  · obtain ⟨dir, new, hflush, -⟩ := flush_cases sizing stem io hsize
    rw [hflush e.sstables, UInt64.toNat_add]
    exact Nat.mod_le _ _

end LsmCore

theorem LsmEngine.run_numbered (sizing : BloomSizing) (dir : Directory) (threshold : UInt64) {ops : List LsmEngine.Op}
    (h : ops.length < 2 ^ 64) :
    (run sizing dir threshold ops).Numbered "sstable_" ∧
      (run sizing dir threshold ops).nextSstId.toNat ≤ ops.length := by
  induction ops using List.reverseRecOn with
  | nil => exact ⟨by simp [LsmCore.Numbered], le_refl _⟩
  | append_singleton ops op ih =>
    rw [List.length_append, List.length_singleton] at h ⊢
    obtain ⟨hnumbered, hnext⟩ := ih (by omega)
    have hflush (e : LsmCore) (io : FlushIo) (he : e.Numbered "sstable_") (hid : e.nextSstId.toNat ≤ ops.length) :
        (e.flush sizing "sstable_" io).Numbered "sstable_" ∧
          (e.flush sizing "sstable_" io).nextSstId.toNat ≤ ops.length + 1 :=
      ⟨he.flush io (by omega), le_trans (LsmCore.flush_nextSstId_le _ _ _ _) (by omega)⟩
    rw [run, run_snoc]
    cases op with
    | put key value level io =>
      simp only [step, put, LsmCore.insert]
      split_ifs
      · exact hflush _ io hnumbered hnext
      · exact ⟨hnumbered, Nat.le_succ_of_le hnext⟩
    | flushMemtable io => exact hflush _ io hnumbered hnext
    | get key => exact ⟨hnumbered, Nat.le_succ_of_le hnext⟩

def LsmEngine.CallsFlush (before e : LsmEngine) : Prop :=
  e = before ∨ ∃ key value level, e = before.remember key value level

theorem LsmEngine.CallsFlush.fresh {before e : LsmEngine} (h : before.CallsFlush e)
    (hbefore : before.NextIsFresh "sstable_") : e.NextIsFresh "sstable_" := by
  rcases h with rfl | ⟨key, value, level, rfl⟩
  · exact hbefore
  · exact hbefore

theorem flush_keeps_value (sizing : BloomSizing) (io : FlushIo) (key value : UInt64) :
    (∀ dir threshold ops e, ops.length < 2 ^ 64 → (LsmEngine.run sizing dir threshold ops).CallsFlush e →
      e.get key = some value →
        ((e.memtable.size ≠ 0 → LsmCore.FlushSucceeds sizing io e) →
          (LsmEngine.flushMemtable sizing io e).get key = some value) ∧
        (e.memtable.size ≠ 0 → e.EndsWithoutTable sizing "sstable_" io →
          ((LsmEngine.flushMemtable sizing io e).get key = some value ↔
            LsmCore.searchTables e.dir e.sstables key = some value))) ∧
    ∀ db : EmbeddedLsmDatabase, db.get key = some value →
      ((db.memtable.size ≠ 0 → LsmCore.FlushSucceeds sizing io db.toLsmCore) →
        db.memtable.get key ≠ none ∨ db.ServedElsewhere "sst_" key →
        (db.flushMemtable sizing io).get key = some value) ∧
      (db.memtable.size ≠ 0 → db.EndsWithoutTable sizing "sst_" io → io.create = false ∨ db.NextIsFresh "sst_" →
        ((db.flushMemtable sizing io).get key = some value ↔
          LsmCore.searchTables db.dir db.sstables key = some value)) := by
  constructor
  · intro dir threshold ops e hlen hcalls hget
    have hfresh := hcalls.fresh (LsmEngine.run_numbered sizing dir threshold hlen).1.fresh
    refine ⟨fun hio => LsmCore.flush_keeps hget hio (hfresh.servedElsewhere hget), fun hsize hnone => ?_⟩
    rw [LsmEngine.flushMemtable, LsmCore.flush_get_without_table hsize hnone (Or.inr hfresh)]
  · intro db hget
    refine ⟨fun hio hkept => LsmCore.flush_keeps hget hio hkept, fun hsize hnone hfile => ?_⟩
    rw [EmbeddedLsmDatabase.flushMemtable, LsmCore.flush_get_without_table hsize hnone hfile]

theorem flush_keeps_value_written :
    let e := LsmEngine.run .tenBits ∅ 4096 [.put 5 50 ⟨1, by decide⟩ {}]
    let db := EmbeddedLsmDatabase.run .tenBits ∅
      [.construct 4096 true, .put 5 50 ⟨1, by decide⟩ none {}, .flushMemtable {}, .put 5 50 ⟨1, by decide⟩ none {}]
    (LsmEngine.flushMemtable .tenBits {} e).get 5 = some 50 ∧ (db.flushMemtable .tenBits {}).get 5 = some 50 ∧
      ((db.flushMemtable .tenBits { create := false }).get 5 = some 50 ↔
        LsmCore.searchTables db.dir db.sstables 5 = some 50) := by
  intro e db
  have hget : db.get 5 = some 50 := by decide +kernel
  have hsaved := (flush_keeps_value .tenBits {} 5 50).1 ∅ 4096 _ e (by decide) (Or.inl rfl) (by decide +kernel)
  have hdb := (flush_keeps_value .tenBits {} 5 50).2 db hget
  have hfailed := (flush_keeps_value .tenBits { create := false } 5 50).2 db hget
  refine ⟨hsaved.1 fun _ => ?_, hdb.1 (fun _ => ?_) (Or.inl (by decide +kernel)),
    hfailed.2 (by decide +kernel) (Or.inl rfl) (Or.inl rfl)⟩
  · exact ⟨rfl, by decide +kernel, by decide +kernel⟩
  · exact ⟨rfl, by decide +kernel, by decide +kernel⟩

def failures : List FlushIo := [{ create := false }, { write := fun _ => some 0 }, { reopen := { opened := false } }]

theorem failed_flush_loses_value :
    let e := LsmEngine.run .tenBits ∅ 4096 [.put 5 50 ⟨1, by decide⟩ {}]
    let db := EmbeddedLsmDatabase.run .tenBits ∅ [.construct 4096 true, .put 5 50 ⟨1, by decide⟩ none {}]
    e.get 5 = some 50 ∧ (∀ io ∈ failures, (LsmEngine.flushMemtable .tenBits io e).get 5 = none) ∧
      db.get 5 = some 50 ∧ ∀ io ∈ failures, (db.flushMemtable .tenBits io).get 5 = none := by
  decide +kernel

end SystemLevel.Lsm
