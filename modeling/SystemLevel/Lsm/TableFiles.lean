import SystemLevel.Lsm.CheckedFilter
import SystemLevel.Lsm.EmbeddedLsmDatabase

namespace SystemLevel.Lsm.SSTable

def bloomFrom (numBits numHashes : UInt64) (pairs : List Pair) : BloomFilter :=
  (pairs.map Prod.fst).foldl BloomFilter.add (BloomFilter.sized numBits numHashes)

def bloomFromChecked (numBits numHashes : UInt64) (pairs : List Pair) : Except Fault BloomFilter :=
  (pairs.map Prod.fst).foldlM BloomFilter.addChecked (BloomFilter.sized numBits numHashes)

theorem bloomFrom_words (numBits numHashes : UInt64) (pairs : List Pair) :
    (((bloomFrom numBits numHashes pairs).numBits + 63) / 64).toNat =
      (bloomFrom numBits numHashes pairs).bits.length := by
  obtain ⟨hbits, hlength⟩ := BloomFilter.addAll_size (BloomFilter.sized numBits numHashes) (pairs.map Prod.fst)
  rw [bloomFrom, hbits, hlength, BloomFilter.sized, List.length_replicate]

theorem table_round_trip {numBits : UInt64} (hbits : 64 ≤ numBits) (hwords : numBits.toNat + 63 < 2 ^ 64)
    (numHashes : UInt64) {m : MemTable} (hm : m.toVector ≠ [])
    (hsize : (writtenWith (bloomFrom numBits numHashes m.toVector) {} m.toVector).length < 2 ^ 63) (dir : Directory)
    (filename : FileName) :
    let built := buildWith (bloomFrom numBits numHashes m.toVector) {} dir filename m.toVector
    bloomFromChecked numBits numHashes m.toVector = .ok (bloomFrom numBits numHashes m.toVector) ∧
      built.2 = true ∧ ∃ t, openFile {} built.1 filename = some t ∧ ∀ key, t.get built.1 key = m.get key := by
  have hpos : 0 < numBits.toNat := by
    rw [UInt64.le_iff_toNat_le] at hbits
    exact lt_of_lt_of_le (by decide) hbits
  have hfits := BloomFilter.sized_fits hpos hwords numHashes
  have hcontains : ∀ p ∈ m.toVector, (bloomFrom numBits numHashes m.toVector).contains p.1 = true := by
    intro p hp
    apply BloomFilter.contains_addAll hfits
    exact Or.inl (List.mem_map_of_mem hp)
  obtain ⟨t, hload, -, hserves⟩ := writtenWith_serves (bloomFrom_words numBits numHashes m.toVector) hcontains
    m.toVector_sorted hsize filename
  intro built
  have hbuilt :
      built = (dir.insert filename (writtenWith (bloomFrom numBits numHashes m.toVector) {} m.toVector), true) :=
    if_neg hm
  have hlookup := AList.lookup_insert (s := dir) (a := filename)
    (b := writtenWith (bloomFrom numBits numHashes m.toVector) {} m.toVector)
  rw [hbuilt]
  refine ⟨BloomFilter.addAllChecked_eq_ok hfits _, rfl, t, ?_, fun key => ?_⟩
  · rw [openFile, if_pos rfl, hlookup]
    exact hload
  · rw [hserves _ hlookup, MemTable.get_eq_lookup]

def tenOne : MemTable := MemTable.empty.put 1 10 (levelOf 1)

theorem round_trip_tenOne :
    let built := buildWith (bloomFrom 64 7 tenOne.toVector) {} ∅ ⟨"sst_0", ".db"⟩ tenOne.toVector
    bloomFromChecked 64 7 tenOne.toVector = .ok (bloomFrom 64 7 tenOne.toVector) ∧ built.2 = true ∧
      ∃ t, openFile {} built.1 ⟨"sst_0", ".db"⟩ = some t ∧ ∀ key, t.get built.1 key = tenOne.get key :=
  table_round_trip (by decide) (by decide) 7 (by decide +kernel) (by decide +kernel) ∅ ⟨"sst_0", ".db"⟩

/-- The rounding addition overflows, `(num_bits_ + 63) / 64` words are none, and the first `add` of `build` is out of
bounds. -/
theorem round_trip_without_words :
    let numBits : UInt64 := 0xFFFFFFFFFFFFFFFF
    64 ≤ numBits ∧ tenOne.get 1 = some 10 ∧ bloomFromChecked numBits 1 tenOne.toVector = .error .bits := by
  decide +kernel

def MagicAt (file : Bytes) (i : ℕ) : Prop := (file.drop i).take 4 = FixedCodec.u32.encode Footer.magicValue

instance decidableMagicAt (file : Bytes) (i : ℕ) : Decidable (MagicAt file i) := inferInstanceAs (Decidable (_ = _))

theorem magicAt_take {file : Bytes} {n i : ℕ} (hi : i + 4 ≤ n) : MagicAt (file.take n) i ↔ MagicAt file i := by
  rw [MagicAt, MagicAt, List.drop_take, List.take_take, Nat.min_eq_left (by omega)]

theorem load_eq_none_iff {file : Bytes} (hsize : file.length < 2 ^ 63) (filename : FileName) :
    load {} filename file = none ↔
      file.length < Footer.codec.size ∨ ¬ MagicAt file (file.length - Footer.codec.size) := by
  have hfooter : Footer.codec.size = 48 := rfl
  by_cases hshort : file.length < Footer.codec.size
  · simp [load, hshort]
  · have hread : pread file (UInt64.ofNat Footer.codec.size) (UInt64.ofNat (file.length - Footer.codec.size)) none =
        file.drop (file.length - Footer.codec.size) := by
      have hoffset : (UInt64.ofNat (file.length - Footer.codec.size)).toNat = file.length - Footer.codec.size := by
        rw [UInt64.toNat_ofNat']
        omega
      have hcount : (UInt64.ofNat Footer.codec.size).toNat = Footer.codec.size := rfl
      rw [pread, hoffset, hcount, if_pos (by omega), transfer, List.take_of_length_le]
      rw [List.length_drop]
      omega
    have hfill : fill (Footer.codec.encode {}) (file.drop (file.length - Footer.codec.size)) =
        file.drop (file.length - Footer.codec.size) := by
      rw [fill, List.drop_of_length_le (l := Footer.codec.encode {}), List.append_nil]
      rw [Footer.codec.encode_length, List.length_drop]
      omega
    have hmagic : (Footer.codec.decode (file.drop (file.length - Footer.codec.size))).magic =
        FixedCodec.u32.decode ((file.drop (file.length - Footer.codec.size)).take 4) := rfl
    have hfour : ((file.drop (file.length - Footer.codec.size)).take 4).length = 4 := by
      rw [List.length_take, List.length_drop]
      omega
    have hdecoded := FixedCodec.u32_decode_eq_iff hfour Footer.magicValue
    have hload : load {} filename file = none ↔ FixedCodec.u32.decode
        ((file.drop (file.length - Footer.codec.size)).take 4) ≠ Footer.magicValue := by
      rw [load, if_neg (not_or.mpr ⟨by decide, hshort⟩)]
      simp only [hread, hfill, hmagic]
      split_ifs with hbad
      · simp [hbad]
      · simpa using hbad
    rw [hload, ne_eq, hdecoded, MagicAt, or_iff_right hshort]

theorem torn_table_rejected_iff (sizing : BloomSizing) (m : MemTable)
    (hsize : (written sizing {} m.toVector).length < 2 ^ 63) (dir : Directory) (filename : FileName) :
    (∀ n < (written sizing {} m.toVector).length,
      openFile {} (dir.insert filename ((written sizing {} m.toVector).take n)) filename = none) ↔
      ∀ i, i + Footer.codec.size < (written sizing {} m.toVector).length →
        ¬ MagicAt (written sizing {} m.toVector) i := by
  have hfooter : Footer.codec.size = 48 := rfl
  generalize written sizing {} m.toVector = file at *
  have hopen {n : ℕ} (hn : n < file.length) : openFile {} (dir.insert filename (file.take n)) filename = none ↔
      n < Footer.codec.size ∨ ¬ MagicAt file (n - Footer.codec.size) := by
    have hlength : (file.take n).length = n := List.length_take_of_le hn.le
    have hload := load_eq_none_iff (show (file.take n).length < 2 ^ 63 by omega) filename
    rw [openFile, if_pos rfl, AList.lookup_insert, Option.bind_some, hload, hlength]
    by_cases hshort : n < Footer.codec.size
    · simp [hshort]
    · rw [magicAt_take (by omega)]
  constructor
  · intro hrejected i hi
    have hnone := (hopen hi).mp (hrejected _ hi)
    rw [Nat.add_sub_cancel, or_iff_right (by omega)] at hnone
    exact hnone
  · intro hfree n hn
    rw [hopen hn, or_iff_not_imp_left]
    intro hlong
    exact hfree _ (by omega)

/-- The value of the first record, the next key, the next value and so on stand in the places of the
magic number, the offset of the index, its count and so on. -/
def footerLike : MemTable :=
  (((MemTable.empty.put 1 0x53535431 (levelOf 1)).put 2 0 (levelOf 1)).put 3 64 (levelOf 1)).put 4 0 (levelOf 1)

theorem torn_table_recovered :
    let file := written .tenBits {} footerLike.toVector
    let dir : Directory := AList.insert ⟨"sst_0", ".db"⟩ (file.take 56) ∅
    56 < file.length ∧ openFile {} dir ⟨"sst_0", ".db"⟩ ≠ none ∧
      ((EmbeddedLsmDatabase.construct dir 4096 true).recover [(⟨"sst_0", ".db"⟩, {})] none
        (fun _ => levelOf 1)).sstables.length = 1 := by
  decide +kernel

theorem torn_tenOne_rejected :
    (written .tenBits {} tenOne.toVector).length < 2 ^ 63 ∧
      ∀ n < (written .tenBits {} tenOne.toVector).length,
        openFile {} (AList.insert ⟨"sst_0", ".db"⟩ ((written .tenBits {} tenOne.toVector).take n) ∅) ⟨"sst_0", ".db"⟩ =
          none := by
  have hsize : (written .tenBits {} tenOne.toVector).length < 2 ^ 63 := by decide +kernel
  refine ⟨hsize, (torn_table_rejected_iff .tenBits tenOne hsize ∅ ⟨"sst_0", ".db"⟩).mpr ?_⟩
  intro i hi
  have hall : ∀ i < (written .tenBits {} tenOne.toVector).length - Footer.codec.size,
      ¬ MagicAt (written .tenBits {} tenOne.toVector) i := by
    decide +kernel
  exact hall i (by omega)

end SystemLevel.Lsm.SSTable
