import SystemLevel.Lsm.SSTableFormat

namespace SystemLevel.Lsm.SSTable

open Bisection Lookup

theorem le_lastKey {block : List Pair} (h : Ascending block) {p : Pair} (hp : p ∈ block) : p.1 ≤ lastKey block := by
  induction block using List.reverseRecOn with
  | nil => simp at hp
  | append_singleton init last =>
    rw [lastKey, List.getLast?_append, List.getLast?_singleton]
    rcases List.mem_append.mp hp with hp | hp
    · exact UInt64.le_of_lt ((List.pairwise_append.mp h).2.2 p hp last (by simp))
    · rw [List.mem_singleton.mp hp]
      exact UInt64.le_refl _

theorem lastKey_mem {block : List Pair} (h : block ≠ []) : ∃ p ∈ block, p.1 = lastKey block := by
  refine ⟨block.getLast h, List.getLast_mem h, ?_⟩
  rw [lastKey, List.getLast?_eq_some_getLast h]
  rfl

theorem findBlock_spec {blocks : List (List Pair)} (hasc : Ascending blocks.flatten)
    (hblocks : ∀ block ∈ blocks, block ≠ []) (offset key : UInt64) :
    ∃ before after, blocks = before ++ after ∧ findBlock (indexFrom offset blocks) key = before.length ∧
      (∀ block ∈ before, lastKey block < key) ∧ ∀ block ∈ after, key ≤ lastKey block := by
  obtain ⟨-, hcross⟩ := List.pairwise_flatten.mp hasc
  have hmono : blocks.Pairwise (fun a b => decide (lastKey b < key) = true → decide (lastKey a < key) = true) := by
    apply hcross.imp_of_mem
    intro a b ha hb hab hlt
    obtain ⟨p, hp, hpa⟩ := lastKey_mem (hblocks a ha)
    obtain ⟨q, hq, hqb⟩ := lastKey_mem (hblocks b hb)
    rw [decide_eq_true_iff] at hlt ⊢
    rw [← hpa]
    exact UInt64.lt_trans (hab p hp q hq) (hqb ▸ hlt)
  obtain ⟨before, after, rfl, hbefore, hafter⟩ := exists_split _ blocks hmono
  have hlow : ∀ block ∈ before, lastKey block < key := by simpa using hbefore
  have hhigh : ∀ block ∈ after, key ≤ lastKey block := by simpa [UInt64.not_lt] using hafter
  refine ⟨before, after, rfl, ?_, hlow, hhigh⟩
  rw [findBlock, indexFrom_append, bisectIn_append, indexFrom_length]
  · intro e he
    obtain ⟨block, hmem, hkey⟩ := mem_indexFrom he
    rw [hkey, decide_eq_false_iff_not, UInt64.not_le]
    exact hlow block hmem
  · intro e he
    obtain ⟨block, hmem, hkey⟩ := mem_indexFrom he
    rw [hkey, decide_eq_true_iff]
    exact hhigh block hmem

theorem lookup_block {before after : List (List Pair)} {block : List Pair} {key : UInt64}
    (hasc : Ascending (before ++ block :: after).flatten) (hbefore : ∀ b ∈ before, lastKey b < key)
    (hblock : block ≠ []) (hkey : key ≤ lastKey block) :
    (before ++ block :: after).flatten.lookup key = block.lookup key := by
  obtain ⟨hinside, hcross⟩ := List.pairwise_flatten.mp hasc
  have hlow : ∀ p ∈ before.flatten, p.1 ≠ key := by
    intro p hp
    obtain ⟨b, hb, hpb⟩ := List.mem_flatten.mp hp
    exact UInt64.ne_of_lt (UInt64.lt_of_le_of_lt (le_lastKey (hinside b (by simp [hb])) hpb) (hbefore b hb))
  have hhigh : ∀ p ∈ after.flatten, p.1 ≠ key := by
    intro p hp
    obtain ⟨b, hb, hpb⟩ := List.mem_flatten.mp hp
    obtain ⟨last, hlast, he⟩ := lastKey_mem hblock
    have hlt := (List.pairwise_cons.mp (List.pairwise_append.mp hcross).2.1).1 b hb last hlast p hpb
    exact (UInt64.ne_of_lt (UInt64.lt_of_le_of_lt (he ▸ hkey) hlt)).symm
  rw [List.flatten_append, List.flatten_cons, lookup_skip hlow, lookup_before hhigh]

theorem bloomOf_contains (sizing : BloomSizing) {pairs : List Pair} (hlen : pairs.length < 2 ^ 59) {p : Pair}
    (hp : p ∈ pairs) : (bloomOf sizing pairs).contains p.1 = true := by
  have hfits := BloomFilter.new_fits sizing (n := UInt64.ofNat pairs.length) (by rw [UInt64.toNat_ofNat']; omega)
  exact BloomFilter.contains_addAll hfits.1 _ _ (Or.inl (List.mem_map_of_mem hp))

theorem get_spec {bloom : BloomFilter} {blocks : List (List Pair)}
    (hbloom : ∀ p ∈ blocks.flatten, bloom.contains p.1 = true) (hasc : Ascending blocks.flatten)
    (hblocks : ∀ block ∈ blocks, block ≠ []) {rest : Bytes} {dir : Directory} {filename : FileName}
    (hdir : dir.lookup filename = some (pairCodec.encodeAll blocks.flatten ++ rest))
    (hsize : (pairCodec.encodeAll blocks.flatten ++ rest).length < 2 ^ 63) (key : UInt64) :
    get dir { filename, index := indexFrom 0 blocks, bloom } key =
      blocks.flatten.lookup key := by
  have hpair : pairCodec.size = 16 := rfl
  rw [List.length_append, FixedCodec.encodeAll_length, hpair] at hsize
  simp only [get]
  split_ifs with hpresent
  · obtain ⟨before, after, rfl, hfound, hbefore, hafter⟩ := findBlock_spec hasc hblocks 0 key
    rw [hfound, indexFrom_append, List.getElem?_append_right (by rw [indexFrom_length]), indexFrom_length, Nat.sub_self,
      UInt64.zero_add]
    cases after with
    | nil =>
      symm
      apply lookup_eq_none
      intro p hp
      rw [List.append_nil] at hp hasc
      obtain ⟨b, hb, hpb⟩ := List.mem_flatten.mp hp
      have hle := le_lastKey ((List.pairwise_flatten.mp hasc).1 b hb) hpb
      exact UInt64.ne_of_lt (UInt64.lt_of_le_of_lt hle (hbefore b hb))
    | cons block after =>
      have hne := hblocks block (by simp)
      have hrecords : readVector pairCodec (pairCodec.encodeAll (before ++ block :: after).flatten ++ rest)
          (UInt64.ofNat block.length) (UInt64.ofNat (before.flatten.length * pairCodec.size)) none = block := by
        rw [List.flatten_append, List.flatten_cons, FixedCodec.encodeAll_append, FixedCodec.encodeAll_append,
          List.append_assoc, List.append_assoc]
        simp only [List.flatten_append, List.flatten_cons, List.length_append] at hsize
        apply readVector_at
        · rw [UInt64.toNat_ofNat']
          omega
        · rw [UInt64.toNat_ofNat', FixedCodec.encodeAll_length, hpair]
          omega
        · rw [FixedCodec.encodeAll_length, hpair]
          omega
        · rw [hpair]
          omega
      simp only [indexFrom, List.getElem?_cons_zero, blockEntry, hdir, Option.getD_some, hrecords]
      rw [lookup_block hasc hbefore hne (hafter block (by simp))]
      exact (lookup_lowerBound ((List.pairwise_flatten.mp hasc).1 block (by simp)) key).symm
  · symm
    apply lookup_eq_none
    rintro p hp rfl
    exact hpresent (hbloom p hp)

theorem writtenWith_serves {bloom : BloomFilter} (hwords : ((bloom.numBits + 63) / 64).toNat = bloom.bits.length)
    {pairs : List Pair} (hbloom : ∀ p ∈ pairs, bloom.contains p.1 = true) (hasc : Ascending pairs)
    (hsize : (writtenWith bloom {} pairs).length < 2 ^ 63) (filename : FileName) :
    ∃ t, load {} filename (writtenWith bloom {} pairs) = some t ∧ t.filename = filename ∧
      ∀ dir : Directory, dir.lookup filename = some (writtenWith bloom {} pairs) →
        ∀ key, t.get dir key = pairs.lookup key := by
  obtain ⟨blocks, rfl, hblocks, hfile⟩ := written_spec bloom pairs
  refine ⟨_, load_spec hwords hfile hsize filename, rfl, fun dir hdir key => ?_⟩
  rw [hfile] at hdir hsize
  exact get_spec hbloom hasc hblocks hdir hsize key

theorem length_le_writtenWith (bloom : BloomFilter) (pairs : List Pair) :
    pairs.length * pairCodec.size ≤ (writtenWith bloom {} pairs).length := by
  obtain ⟨blocks, -, -, hfile⟩ := written_spec bloom pairs
  rw [hfile, List.length_append, FixedCodec.encodeAll_length]
  exact Nat.le_add_right _ _

theorem written_serves (sizing : BloomSizing) {pairs : List Pair} (hasc : Ascending pairs)
    (hsize : (written sizing {} pairs).length < 2 ^ 63) (filename : FileName) :
    ∃ t, load {} filename (written sizing {} pairs) = some t ∧ t.filename = filename ∧
      ∀ dir : Directory, dir.lookup filename = some (written sizing {} pairs) →
        ∀ key, t.get dir key = pairs.lookup key := by
  have hlen := (length_le_writtenWith (bloomOf sizing pairs) pairs).trans_lt hsize
  rw [show pairCodec.size = 16 from rfl] at hlen
  exact writtenWith_serves (bloomOf_words sizing pairs) (fun p hp => bloomOf_contains sizing (by omega) hp) hasc hsize
    filename

end SystemLevel.Lsm.SSTable
