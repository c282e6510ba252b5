import Mathlib

namespace SystemLevel.Lsm

/-- The floating-point part of the constructor: `ceil(m)` for a number of elements, and
`max(1.0, round(k))` for a number of bits and of elements, both converted to `size_t`. For fewer than
`2 ^ 59` elements the number of bits fits with room to spare (it is below ten for each element). -/
structure BloomSizing where
  bits : UInt64 → UInt64
  hashes : UInt64 → UInt64 → UInt64
  bits_le : ∀ n : UInt64, n.toNat < 2 ^ 59 → (bits n).toNat ≤ 2 ^ 63

def BloomSizing.tenBits : BloomSizing where
  bits n := 10 * n
  hashes _ _ := 7
  bits_le n hn := by
    rw [UInt64.toNat_mul, show (10 : UInt64).toNat = 10 from rfl]
    exact le_trans (Nat.mod_le _ _) (by omega)

structure BloomFilter where
  numBits : UInt64 := 0
  numHashes : UInt64 := 0
  bits : List UInt64 := []
  deriving DecidableEq, Repr

namespace BloomFilter

def new (sizing : BloomSizing) (expectedElements : UInt64) : BloomFilter :=
  let n := if expectedElements = 0 then 1 else expectedElements
  let numBits := if sizing.bits n < 64 then 64 else sizing.bits n
  { numBits
    numHashes := sizing.hashes numBits n
    bits := List.replicate ((numBits + 63) / 64).toNat 0 }

def sized (numBits numHashes : UInt64) : BloomFilter :=
  { numBits, numHashes, bits := List.replicate ((numBits + 63) / 64).toNat 0 }

/-- As many words as the bits need. The sum in the constructor wraps for the last 63 numbers of bits. -/
def zeroed (numBits numHashes : UInt64) : BloomFilter :=
  { numBits, numHashes, bits := List.replicate ((numBits.toNat + 63) / 64) 0 }

def hash1 (k : UInt64) : UInt64 :=
  let k := k ^^^ (k >>> 33)
  let k := k * 0xff51afd7ed558ccd
  let k := k ^^^ (k >>> 33)
  let k := k * 0xc4ceb9fe1a85ec53
  k ^^^ (k >>> 33)

def hash2 (k : UInt64) : UInt64 :=
  let k := (~~~k) + (k <<< 21)
  let k := k ^^^ (k >>> 24)
  let k := (k + (k <<< 3)) + (k <<< 8)
  let k := k ^^^ (k >>> 14)
  let k := (k + (k <<< 2)) + (k <<< 4)
  let k := k ^^^ (k >>> 28)
  k + (k <<< 31)

def combined (b : BloomFilter) (key : UInt64) (i : ℕ) : UInt64 :=
  (hash1 key + UInt64.ofNat i * hash2 key) % b.numBits

def setBit (bits : List UInt64) (c : UInt64) : List UInt64 :=
  bits.modify (c / 64).toNat (fun word => word ||| (1 <<< (c % 64)))

def hasBit (bits : List UInt64) (c : UInt64) : Bool :=
  ((bits[(c / 64).toNat]?).getD 0 &&& (1 <<< (c % 64))) ≠ 0

def add (b : BloomFilter) (key : UInt64) : BloomFilter :=
  { b with bits := (List.range b.numHashes.toNat).foldl (fun bits i => setBit bits (b.combined key i)) b.bits }

def contains (b : BloomFilter) (key : UInt64) : Bool :=
  (List.range b.numHashes.toNat).all (fun i => hasBit b.bits (b.combined key i))

def setRawBits (bits : List UInt64) (numBits numHashes : UInt64) : BloomFilter := { numBits, numHashes, bits }

theorem toNat_one_shift {s : UInt64} (hs : s.toNat < 64) : ((1 : UInt64) <<< s).toNat = 2 ^ s.toNat := by
  have hlt : 2 ^ s.toNat < 2 ^ 64 := Nat.pow_lt_pow_right (by omega) hs
  rw [UInt64.toNat_shiftLeft, Nat.mod_eq_of_lt hs, show (1 : UInt64).toNat = 1 from rfl, Nat.one_shiftLeft,
    Nat.mod_eq_of_lt hlt]

theorem mod_lt (c : UInt64) : (c % 64).toNat < 64 := by
  rw [UInt64.toNat_mod]
  exact Nat.mod_lt _ (by decide)

theorem hasBit_iff (bits : List UInt64) (c : UInt64) :
    hasBit bits c = true ↔ ((bits[(c / 64).toNat]?).getD 0).toNat.testBit (c % 64).toNat = true := by
  rw [hasBit, decide_eq_true_iff, ne_eq, ← UInt64.toNat_inj, UInt64.toNat_and, toNat_one_shift (mod_lt c),
    Nat.and_two_pow]
  have hpos : 0 < 2 ^ (c % 64).toNat := Nat.two_pow_pos _
  cases Nat.testBit _ (c % 64).toNat <;> simp

theorem hasBit_setBit {bits : List UInt64} {c : UInt64} (h : (c / 64).toNat < bits.length) :
    hasBit (setBit bits c) c = true := by
  rw [hasBit_iff, setBit, List.getElem?_modify_eq, List.getElem?_eq_getElem h]
  simp [toNat_one_shift (mod_lt c), Nat.testBit_two_pow_self]

theorem hasBit_setBit_of_hasBit {bits : List UInt64} {d : UInt64} (h : hasBit bits d = true) (c : UInt64) :
    hasBit (setBit bits c) d = true := by
  rw [hasBit_iff] at h ⊢
  rw [setBit, List.getElem?_modify]
  cases hget : bits[(d / 64).toNat]? with
  | none =>
    rw [hget] at h
    simp at h
  | some word =>
    rw [hget, Option.getD_some] at h
    simp only [Option.map_eq_map, Option.map_some, Option.getD_some]
    split_ifs
    · rw [UInt64.toNat_or, Nat.testBit_or, h, Bool.true_or]
    · exact h

def Fits (b : BloomFilter) : Prop := 0 < b.numBits.toNat ∧ b.numBits.toNat ≤ 64 * b.bits.length

theorem combined_lt {b : BloomFilter} (hb : b.Fits) (key : UInt64) (i : ℕ) :
    (b.combined key i / 64).toNat < b.bits.length := by
  obtain ⟨hpos, hle⟩ := hb
  have hlt : (b.combined key i).toNat < b.numBits.toNat := by
    rw [combined, UInt64.toNat_mod]
    exact Nat.mod_lt _ hpos
  rw [UInt64.toNat_div, show (64 : UInt64).toNat = 64 from rfl]
  omega

theorem setBits_spec (f : ℕ → UInt64) (n : ℕ) (bits : List UInt64) :
    ((List.range n).foldl (fun bits i => setBit bits (f i)) bits).length = bits.length ∧
      (∀ d, hasBit bits d = true → hasBit ((List.range n).foldl (fun bits i => setBit bits (f i)) bits) d = true) ∧
      ((∀ i, (f i / 64).toNat < bits.length) →
        ∀ i, i < n → hasBit ((List.range n).foldl (fun bits i => setBit bits (f i)) bits) (f i) = true) := by
  induction n with
  | zero => simp
  | succ n ih =>
    obtain ⟨hlen, hkeep, hset⟩ := ih
    rw [List.range_succ, List.foldl_append, List.foldl_cons, List.foldl_nil]
    refine ⟨?_, fun d hd => hasBit_setBit_of_hasBit (hkeep d hd) _, fun hf i hi => ?_⟩
    · rw [setBit, List.length_modify, hlen]
    · rcases Nat.lt_succ_iff_lt_or_eq.mp hi with hlt | rfl
      · exact hasBit_setBit_of_hasBit (hset hf i hlt) _
      · exact hasBit_setBit (by rw [hlen]; exact hf i)

theorem add_fits {b : BloomFilter} (hb : b.Fits) (key : UInt64) : (b.add key).Fits := by
  unfold Fits add
  rw [(setBits_spec _ _ _).1]
  exact hb

theorem contains_add {b : BloomFilter} (hb : b.Fits) (key : UInt64) : (b.add key).contains key = true := by
  rw [contains, List.all_eq_true]
  intro i hi
  exact (setBits_spec (b.combined key) _ b.bits).2.2 (combined_lt hb key) i (List.mem_range.mp hi)

theorem contains_add_of_contains {b : BloomFilter} {k : UInt64} (h : b.contains k = true) (key : UInt64) :
    (b.add key).contains k = true := by
  rw [contains, List.all_eq_true] at h ⊢
  intro i hi
  exact (setBits_spec (b.combined key) _ b.bits).2.1 _ (h i hi)

theorem addAll_size (b : BloomFilter) (keys : List UInt64) :
    (keys.foldl add b).numBits = b.numBits ∧ (keys.foldl add b).bits.length = b.bits.length := by
  induction keys generalizing b with
  | nil => exact ⟨rfl, rfl⟩
  | cons key keys ih =>
    obtain ⟨hbits, hlen⟩ := ih (b.add key)
    rw [List.foldl_cons, hbits, hlen]
    exact ⟨rfl, (setBits_spec _ _ _).1⟩

theorem contains_addAll {b : BloomFilter} (hb : b.Fits) (keys : List UInt64) :
    ∀ k, k ∈ keys ∨ b.contains k = true → (keys.foldl add b).contains k = true := by
  induction keys generalizing b with
  | nil => simp
  | cons key keys ih =>
    intro k hk
    apply ih (add_fits hb key)
    rcases hk with hk | hk
    · rcases List.mem_cons.mp hk with rfl | hk
      · exact Or.inr (contains_add hb k)
      · exact Or.inl hk
    · exact Or.inr (contains_add_of_contains hk key)

theorem zeroed_fits {numBits : UInt64} (hpos : 0 < numBits.toNat) (numHashes : UInt64) :
    (zeroed numBits numHashes).Fits := by
  refine ⟨hpos, ?_⟩
  rw [zeroed, List.length_replicate]
  change numBits.toNat ≤ _
  omega

theorem sized_eq_zeroed {numBits : UInt64} (hwords : numBits.toNat + 63 < 2 ^ 64) (numHashes : UInt64) :
    sized numBits numHashes = zeroed numBits numHashes := by
  rw [sized, zeroed, UInt64.toNat_div, UInt64.toNat_add, show (63 : UInt64).toNat = 63 from rfl,
    show (64 : UInt64).toNat = 64 from rfl, Nat.mod_eq_of_lt hwords]

theorem sized_fits {numBits : UInt64} (hpos : 0 < numBits.toNat) (hwords : numBits.toNat + 63 < 2 ^ 64)
    (numHashes : UInt64) : (sized numBits numHashes).Fits := by
  rw [sized_eq_zeroed hwords]
  exact zeroed_fits hpos numHashes

theorem length_new (sizing : BloomSizing) (n : UInt64) :
    (new sizing n).bits.length = (((new sizing n).numBits + 63) / 64).toNat := by
  simp [new]

theorem new_fits (sizing : BloomSizing) {n : UInt64} (hn : n.toNat < 2 ^ 59) :
    (new sizing n).Fits ∧ (new sizing n).numBits.toNat ≤ 2 ^ 63 := by
  have hle : 64 ≤ (new sizing n).numBits.toNat ∧ (new sizing n).numBits.toNat ≤ 2 ^ 63 := by
    have hsize : ∀ m : UInt64, m.toNat < 2 ^ 59 → 64 ≤ (if sizing.bits m < 64 then 64 else sizing.bits m).toNat ∧
        (if sizing.bits m < 64 then 64 else sizing.bits m).toNat ≤ 2 ^ 63 := by
      intro m hm
      have := sizing.bits_le m hm
      split_ifs with hlt
      · decide
      · rw [UInt64.not_lt, UInt64.le_iff_toNat_le] at hlt
        exact ⟨hlt, this⟩
    unfold new
    by_cases hzero : n = 0
    · simpa only [if_pos hzero] using hsize 1 (by decide)
    · simpa only [if_neg hzero] using hsize n hn
  refine ⟨⟨by omega, ?_⟩, hle.2⟩
  rw [length_new, UInt64.toNat_div, UInt64.toNat_add, show (63 : UInt64).toNat = 63 from rfl,
    show (64 : UInt64).toNat = 64 from rfl]
  omega

end BloomFilter

end SystemLevel.Lsm
