import SystemLevel.Lsm.EmbeddedLsmDatabase

namespace SystemLevel.Lsm.EmbeddedLsmDatabase

open Lookup

theorem walEntries_encodeAll (entries : List Pair) : walEntries none (pairCodec.encodeAll entries) = entries := by
  have hdecode := pairCodec.decodeAll_encodeAll entries []
  rw [List.append_nil] at hdecode
  rw [walEntries, FixedCodec.encodeAll_length, Nat.mul_div_cancel _ (by decide)]
  exact hdecode

theorem replay_get (levels : ℕ → Level) (entries : List Pair) (key : UInt64) :
    (replay levels entries MemTable.empty).get key = latest entries key := by
  induction entries using List.reverseRecOn with
  | nil => rw [replay, List.zipIdx_nil, List.foldl_nil, MemTable.get_empty]; rfl
  | append_singleton entries p ih =>
    obtain ⟨k, v⟩ := p
    rw [replay, List.zipIdx_append, List.foldl_append, latest_snoc, Function.update_apply, ← ih]
    exact MemTable.get_put _ k v _ key

structure Stored (sizing : BloomSizing) (dir : Directory) (logged : List Pair) : Prop where
  wal : (dir.lookup walName).getD [] = pairCodec.encodeAll logged
  tables : ∀ name file, name ≠ walName → dir.lookup name = some file →
    ∃ pairs, Ascending pairs ∧ file = SSTable.written sizing {} pairs ∧ file.length < 2 ^ 63 ∧
      ∀ p ∈ pairs, p.1 ∈ logged.map Prod.fst

namespace Stored

variable {sizing : BloomSizing} {dir : Directory} {logged : List Pair}

theorem empty (sizing : BloomSizing) : Stored sizing ∅ [] :=
  ⟨rfl, fun name file _ h => by simp at h⟩

variable (h : Stored sizing dir logged)

include h

theorem createWal : Stored sizing (createWal dir) logged := by
  rw [EmbeddedLsmDatabase.createWal]
  split_ifs with hwal
  · exact h
  · have hnone : dir.lookup walName = none := by simpa using hwal
    refine ⟨?_, fun name file hname hfile => ?_⟩
    · rw [AList.lookup_insert, ← h.wal, hnone]
      rfl
    · rw [AList.lookup_insert_ne hname] at hfile
      exact h.tables name file hname hfile

theorem append (key value : UInt64) :
    Stored sizing (dir.insert walName ((dir.lookup walName).getD [] ++ pairCodec.encode (key, value)))
      (logged ++ [(key, value)]) := by
  refine ⟨?_, fun name file hname hfile => ?_⟩
  · rw [AList.lookup_insert, Option.getD_some, h.wal, FixedCodec.encodeAll_append]
    simp [FixedCodec.encodeAll]
  · rw [AList.lookup_insert_ne hname] at hfile
    obtain ⟨pairs, hasc, hwritten, hsize, hkeys⟩ := h.tables name file hname hfile
    refine ⟨pairs, hasc, hwritten, hsize, fun p hp => ?_⟩
    rw [List.map_append, List.mem_append]
    exact Or.inl (hkeys p hp)

theorem flush {stem : String} {io : FlushIo} {e : LsmCore} (hdir : e.dir = dir)
    (hio : e.memtable.size ≠ 0 → LsmCore.FlushSucceeds sizing io e)
    (hkeys : ∀ key, e.memtable.get key ≠ none → key ∈ logged.map Prod.fst) :
    Stored sizing (e.flush sizing stem io).dir logged := by
  subst hdir
  by_cases hsize : e.memtable.size = 0
  · rw [LsmCore.flush, if_pos hsize]
    exact h
  · obtain ⟨t, -, hflush, -⟩ := LsmCore.flush_spec stem (hio hsize) hsize
    rw [hflush]
    refine ⟨?_, fun name file hname hfile => ?_⟩
    · rw [AList.lookup_insert_ne (walName_ne _ _), h.wal]
    · by_cases htable : name = tableName stem e.nextSstId
      · rw [htable, AList.lookup_insert] at hfile
        obtain rfl := Option.some.inj hfile
        refine ⟨e.memtable.toVector, e.memtable.toVector_sorted, rfl, (hio hsize).fileSize, fun p hp => hkeys _ ?_⟩
        rw [MemTable.get_eq_lookup, Ne, List.lookup_eq_none_iff]
        intro hnone
        simpa using hnone p hp
      · rw [AList.lookup_insert_ne htable] at hfile
        exact h.tables name file hname hfile

theorem openFile {name : FileName} {t : SSTable} (hname : name ≠ walName)
    (hopen : SSTable.openFile {} dir name = some t) {key : UInt64} (hkey : key ∉ logged.map Prod.fst) :
    t.get dir key = none := by
  rw [SSTable.openFile, if_pos rfl] at hopen
  obtain ⟨file, hfile, hload⟩ := Option.bind_eq_some_iff.mp hopen
  obtain ⟨pairs, hasc, rfl, hsize, hkeys⟩ := h.tables name file hname hfile
  obtain ⟨t', hload', -, hserves⟩ := SSTable.written_serves sizing hasc hsize name
  obtain rfl := Option.some.inj (hload.symm.trans hload')
  rw [hserves dir hfile key]
  apply Lookup.lookup_eq_none
  rintro p hp rfl
  exact hkey (hkeys p hp)

theorem found {listing : List (FileName × OpenIo)} (hlisting : ∀ entry ∈ listing, entry.2 = {}) {t : SSTable}
    (ht : t ∈ listing.filterMap fun entry =>
      if entry.1.extension = ".db" then SSTable.openFile entry.2 dir entry.1 else none) :
    t.filename ≠ walName ∧ ∀ key ∉ logged.map Prod.fst, t.get dir key = none := by
  obtain ⟨⟨name, io⟩, hentry, hopen⟩ := List.mem_filterMap.mp ht
  obtain rfl : io = {} := hlisting _ hentry
  split_ifs at hopen with hextension
  have hname : name ≠ walName := by
    rintro rfl
    exact absurd hextension (by decide)
  rw [SSTable.openFile_filename hopen]
  exact ⟨hname, fun key hkey => h.openFile hname hopen hkey⟩

end Stored

theorem recover_get {sizing : BloomSizing} {db : EmbeddedLsmDatabase} {logged : List Pair}
    (h : Stored sizing db.dir logged) {listing : List (FileName × OpenIo)} (hlisting : ∀ entry ∈ listing, entry.2 = {})
    (levels : ℕ → Level) (key : UInt64) : (db.recover listing none levels).get key = latest logged key := by
  rw [LsmCore.get_eq, recover, h.wal, walEntries_encodeAll, replay_get]
  cases hkey : latest logged key with
  | some value => rfl
  | none =>
    rw [Option.none_or]
    apply LsmCore.searchTables_eq_none
    exact fun t ht => (h.found hlisting ht).2 key ((latest_eq_none logged key).mp hkey)

end SystemLevel.Lsm.EmbeddedLsmDatabase
