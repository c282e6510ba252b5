import SystemLevel.Lsm.TableFiles

namespace SystemLevel.Lsm

namespace SSTable

open Bisection

def findRecord (records : List Pair) (key : UInt64) : Except Fault (Option UInt64) := do
  let found ← lowerBoundM (fun mid => do return decide ((← readAt .record records mid).1 < key)) 0 records.length
  if found = records.length then return none
  else
    let p ← readAt .record records found
    return if p.1 = key then some p.2 else none

def getChecked (dir : Directory) (t : SSTable) (key : UInt64) : Except Fault (Option UInt64) := do
  if ← t.bloom.containsChecked key then
    let block ← bisectM (fun mid => do return decide (key ≤ (← readAt .index t.index mid).lastKey)) 0 t.index.length
      t.index.length
    if t.index.length ≤ block then return none
    else
      let entry ← readAt .index t.index block
      findRecord (readVector pairCodec ((dir.lookup t.filename).getD []) entry.count entry.offset none) key
  else return none

theorem read_test {α : Type} (fault : Fault) {xs : List α} (test : α → Bool) {i : ℕ} (hi : i < xs.length) :
    (do return test (← readAt fault xs i) : Except Fault Bool) = .ok ((xs[i]?).any test) := by
  rw [readAt_eq_ok fault hi, List.getElem?_eq_getElem hi]
  rfl

theorem findRecord_eq_ok (records : List Pair) (key : UInt64) :
    findRecord records key =
      .ok (match records[lowerBoundIn (fun p => decide (p.1 < key)) records]? with
        | none => none
        | some p => if p.1 = key then some p.2 else none) := by
  have hfound : lowerBoundM (fun mid => do return decide ((← readAt .record records mid).1 < key)) 0 records.length =
      .ok (lowerBoundIn (fun p => decide (p.1 < key)) records) :=
    lowerBoundM_eq_ok fun i _ hi =>
      read_test .record (fun p : Pair => decide (p.1 < key)) (hi.trans_eq (Nat.zero_add _))
  have hle : lowerBoundIn (fun p => decide (p.1 < key)) records ≤ 0 + records.length := lowerBound_le _ _ _
  rw [findRecord, hfound, ok_bind]
  split_ifs with hend
  · rw [hend, List.getElem?_eq_none le_rfl]
    rfl
  · have hlt : lowerBoundIn (fun p => decide (p.1 < key)) records < records.length := by omega
    rw [readAt_eq_ok .record hlt, List.getElem?_eq_getElem hlt]
    rfl

theorem getChecked_eq_ok {t : SSTable} {key : UInt64}
    (hbloom : t.bloom.containsChecked key = .ok (t.bloom.contains key))
    (dir : Directory) : t.getChecked dir key = .ok (t.get dir key) := by
  rw [getChecked, hbloom, get]
  cases t.bloom.contains key with
  | false => rfl
  | true =>
    have hblock : bisectM (fun mid => do return decide (key ≤ (← readAt .index t.index mid).lastKey)) 0 t.index.length
        t.index.length = .ok (findBlock t.index key) :=
      bisectM_eq_ok fun i _ hi => read_test .index (fun e => decide (key ≤ e.lastKey)) hi
    rw [ok_bind, if_pos rfl, if_pos rfl, hblock, ok_bind]
    split_ifs with hend
    · rw [List.getElem?_eq_none hend]
      rfl
    · have hlt : findBlock t.index key < t.index.length := Nat.lt_of_not_le hend
      rw [readAt_eq_ok .index hlt, List.getElem?_eq_getElem hlt]
      exact findRecord_eq_ok _ key

theorem getChecked_error {t : SSTable} {key : UInt64} {fault : Fault}
    (hbloom : t.bloom.containsChecked key = .error fault)
    (dir : Directory) : t.getChecked dir key = .error fault := by
  rw [getChecked, hbloom]
  rfl

theorem load_worded {io : OpenIo} {filename : FileName} {file : Bytes} {t : SSTable}
    (h : load io filename file = some t) : t.bloom.Worded := by
  simp only [load] at h
  split_ifs at h
  rw [← Option.some.inj h]
  exact FixedCodec.decodeAll_length _ _ _

theorem lookup_safe_iff {io : OpenIo} {filename : FileName} {file : Bytes} {t : SSTable}
    (h : load io filename file = some t) (dir : Directory) (key : UInt64) :
    (∃ r, t.getChecked dir key = .ok r) ↔ t.bloom.Answers := by
  constructor
  · rintro ⟨r, hr⟩
    by_contra hanswers
    obtain ⟨fault, hfault⟩ := BloomFilter.containsChecked_error (load_worded h) hanswers key
    rw [getChecked_error hfault] at hr
    cases hr
  · intro hanswers
    exact ⟨_, getChecked_eq_ok (BloomFilter.containsChecked_eq_ok_of_answers (load_worded h) hanswers key) dir⟩

def footerOnly (numBits numHashes : UInt64) : Bytes :=
  Footer.codec.encode { bloomNumBits := numBits, bloomNumHashes := numHashes }

def lookupIn (file : Bytes) (key : UInt64) : Option (Except Fault (Option UInt64)) :=
  (load {} ⟨"sst_0", ".db"⟩ file).map fun t => t.getChecked (AList.insert ⟨"sst_0", ".db"⟩ file ∅) key

theorem lookup_faults :
    lookupIn (footerOnly 0 1) 5 = some (.error .moduloZero) ∧
      lookupIn (footerOnly 0xFFFFFFFFFFFFFFFF 1) 5 = some (.error .bits) := by
  decide +kernel

theorem lookup_safe_footerOnly :
    ∃ t, load {} ⟨"sst_0", ".db"⟩ (footerOnly 64 7) = some t ∧
      ((∃ r, t.getChecked ∅ 5 = .ok r) ↔ t.bloom.Answers) := by
  obtain ⟨t, ht⟩ : ∃ t, load {} ⟨"sst_0", ".db"⟩ (footerOnly 64 7) = some t :=
    Option.isSome_iff_exists.mp (by decide +kernel)
  exact ⟨t, ht, lookup_safe_iff ht ∅ 5⟩

end SSTable

end SystemLevel.Lsm
