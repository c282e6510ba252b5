import SystemLevel.Lsm.SSTable

namespace SystemLevel.Lsm.SSTable

open Bisection Lookup

def indexFrom : UInt64 → List (List Pair) → List BlockIndexEntry
  | _, [] => []
  | offset, block :: blocks =>
    blockEntry block offset :: indexFrom (offset + UInt64.ofNat (block.length * pairCodec.size)) blocks

theorem indexFrom_append (offset : UInt64) (before after : List (List Pair)) :
    indexFrom offset (before ++ after) = indexFrom offset before ++
      indexFrom (offset + UInt64.ofNat (before.flatten.length * pairCodec.size)) after := by
  induction before generalizing offset with
  | nil => simp [indexFrom]
  | cons block before ih =>
    rw [List.cons_append, indexFrom, indexFrom, ih, UInt64.add_assoc, ← UInt64.ofNat_add, ← Nat.add_mul,
      ← List.length_append]
    rfl

theorem indexFrom_length (offset : UInt64) (blocks : List (List Pair)) :
    (indexFrom offset blocks).length = blocks.length := by
  induction blocks generalizing offset with
  | nil => rfl
  | cons block blocks ih => simp [indexFrom, ih]

theorem mem_indexFrom {offset : UInt64} {blocks : List (List Pair)} {e : BlockIndexEntry}
    (h : e ∈ indexFrom offset blocks) : ∃ block ∈ blocks, e.lastKey = lastKey block := by
  induction blocks generalizing offset with
  | nil => simp [indexFrom] at h
  | cons block blocks ih =>
    rcases List.mem_cons.mp h with rfl | h
    · exact ⟨block, by simp, rfl⟩
    · obtain ⟨other, hmem, he⟩ := ih h
      exact ⟨other, by simp [hmem], he⟩

theorem writeBlocks_spec (pairs : List Pair) (out : Output) (offset : UInt64) :
    ∃ blocks, blocks.flatten = pairs ∧ (∀ block ∈ blocks, block ≠ []) ∧
      (writeBlocks {} pairs out offset).1.bytes = out.bytes ++ pairCodec.encodeAll pairs ∧
      (writeBlocks {} pairs out offset).2 =
        (offset + UInt64.ofNat (pairs.length * pairCodec.size), indexFrom offset blocks) := by
  fun_induction writeBlocks {} pairs out offset with
  | case1 out offset => exact ⟨[], rfl, by simp, by simp [FixedCodec.encodeAll], by simp [indexFrom]⟩
  | case2 pairs out offset hne chunk rest ih =>
    obtain ⟨blocks, hflat, hblocks, hbytes, hindex⟩ := ih
    have hsplit : chunk ++ pairs.drop recordsPerBlock = pairs := List.take_append_drop _ _
    have hchunk : chunk ≠ [] := by
      intro hnil
      rcases List.take_eq_nil_iff.mp hnil with hzero | hpairs
      · exact absurd hzero (by decide)
      · exact hne hpairs
    have hlen : pairs.length = chunk.length + (pairs.drop recordsPerBlock).length := by
      rw [← List.length_append, hsplit]
    refine ⟨chunk :: blocks, ?_, ?_, ?_, ?_⟩
    · rw [List.flatten_cons, hflat, hsplit]
    · exact List.forall_mem_cons.mpr ⟨hchunk, hblocks⟩
    · rw [hbytes, ← hsplit, FixedCodec.encodeAll_append, ← List.append_assoc, hsplit]
      rfl
    · rw [hindex, hlen, Nat.add_mul, UInt64.ofNat_add, ← UInt64.add_assoc]
      rfl

def footerOf (bloom : BloomFilter) (pairs : List Pair) (index : List BlockIndexEntry) : Footer :=
  { indexOffset := UInt64.ofNat (pairs.length * pairCodec.size)
    indexCount := UInt64.ofNat index.length
    bloomOffset := UInt64.ofNat (pairs.length * pairCodec.size + index.length * BlockIndexEntry.codec.size)
    bloomNumBits := bloom.numBits
    bloomNumHashes := bloom.numHashes }

theorem written_spec (bloom : BloomFilter) (pairs : List Pair) :
    ∃ blocks, blocks.flatten = pairs ∧ (∀ block ∈ blocks, block ≠ []) ∧
      writtenWith bloom {} pairs = pairCodec.encodeAll pairs ++ (BlockIndexEntry.codec.encodeAll (indexFrom 0 blocks) ++
        (FixedCodec.u64.encodeAll bloom.bits ++
          Footer.codec.encode (footerOf bloom pairs (indexFrom 0 blocks)))) := by
  obtain ⟨blocks, hflat, hblocks, hbytes, hindex⟩ := writeBlocks_spec pairs {} 0
  refine ⟨blocks, hflat, hblocks, ?_⟩
  rw [UInt64.zero_add] at hindex
  simp only [writtenWith, Output.write, transfer, hbytes, hindex, footerOf, UInt64.ofNat_add, List.nil_append,
    List.append_assoc]

theorem bloomOf_words (sizing : BloomSizing) (pairs : List Pair) :
    (((bloomOf sizing pairs).numBits + 63) / 64).toNat = (bloomOf sizing pairs).bits.length := by
  obtain ⟨hbits, hlen⟩ := BloomFilter.addAll_size (BloomFilter.new sizing (UInt64.ofNat pairs.length))
    (pairs.map Prod.fst)
  rw [bloomOf, hbits, hlen, BloomFilter.length_new]

theorem load_spec {bloom : BloomFilter} (hwords : ((bloom.numBits + 63) / 64).toNat = bloom.bits.length)
    {pairs : List Pair} {index : List BlockIndexEntry} {file : Bytes}
    (hfile : file = pairCodec.encodeAll pairs ++ (BlockIndexEntry.codec.encodeAll index ++
      (FixedCodec.u64.encodeAll bloom.bits ++ Footer.codec.encode (footerOf bloom pairs index))))
    (hsize : file.length < 2 ^ 63) (filename : FileName) :
    load {} filename file = some { filename, index, bloom := bloom } := by
  have hdata := pairCodec.encodeAll_length pairs
  have hindex := BlockIndexEntry.codec.encodeAll_length index
  have hbloom := FixedCodec.u64.encodeAll_length bloom.bits
  have hfooter := Footer.codec.encode_length (footerOf bloom pairs index)
  have hlen : file.length = pairs.length * pairCodec.size + (index.length * BlockIndexEntry.codec.size +
      (bloom.bits.length * FixedCodec.u64.size + Footer.codec.size)) := by
    rw [hfile, List.length_append, List.length_append, List.length_append, hdata, hindex, hbloom, hfooter]
  have htail : Footer.codec.size = 48 := rfl
  have hcount : index.length ≤ index.length * BlockIndexEntry.codec.size := Nat.le_mul_of_pos_right _ (by decide)
  have hread : pread file (UInt64.ofNat Footer.codec.size) (UInt64.ofNat (file.length - Footer.codec.size)) none =
      Footer.codec.encode (footerOf bloom pairs index) := by
    have hshape : file = (pairCodec.encodeAll pairs ++ (BlockIndexEntry.codec.encodeAll index ++
        FixedCodec.u64.encodeAll bloom.bits)) ++
          (Footer.codec.encode (footerOf bloom pairs index) ++ []) := by
      simp [hfile]
    rw [hshape]
    apply pread_at
    · rw [UInt64.toNat_ofNat', ← hshape]
      simp only [List.length_append, hdata, hindex, hbloom]
      omega
    · rw [hfooter, htail]
      rfl
    · simp only [List.length_append, hdata, hindex, hbloom]
      omega
  have hentries : readVector BlockIndexEntry.codec file (footerOf bloom pairs index).indexCount
      (footerOf bloom pairs index).indexOffset none = index := by
    rw [hfile]
    apply readVector_at
    · simp only [footerOf, UInt64.toNat_ofNat']
      omega
    · simp only [footerOf, UInt64.toNat_ofNat', hdata]
      omega
    · omega
    · omega
  have hbits : readVector FixedCodec.u64 file ((((footerOf bloom pairs index).bloomNumBits) + 63) / 64)
      (footerOf bloom pairs index).bloomOffset none = bloom.bits := by
    rw [hfile, ← List.append_assoc]
    apply readVector_at
    · exact hwords
    · simp only [footerOf, UInt64.toNat_ofNat', List.length_append, hdata, hindex]
      omega
    · rw [List.length_append]
      omega
    · omega
  rw [load, if_neg (not_or.mpr ⟨by decide, by omega⟩)]
  simp only [hread, fill_whole, Footer.codec.decode_encode, hentries, hbits]
  rfl

end SystemLevel.Lsm.SSTable
