import SystemLevel.Memory.SlabAllocator

namespace SystemLevel.Memory

open FixedCodec

theorem toNat_clear_low {x m : UInt64} {k : ℕ} (hm : m.toNat = 2 ^ k - 1) :
    (x &&& ~~~m).toNat = x.toNat / 2 ^ k * 2 ^ k := by
  have hlt : m.toNat < 2 ^ 64 := m.toNat_lt
  have hnot : (~~~m).toNat = 2 ^ 64 - (m.toNat + 1) := by
    have hsize : UInt64.size = 2 ^ 64 := rfl
    rw [UInt64.toNat_not, hsize, Nat.sub_sub, Nat.add_comm 1]
  apply Nat.eq_of_testBit_eq
  intro i
  rw [UInt64.toNat_and, Nat.testBit_and, hnot, Nat.testBit_two_pow_sub_succ hlt, hm, Nat.testBit_two_pow_sub_one,
    Nat.testBit_mul_two_pow, Nat.testBit_div_two_pow]
  by_cases hk : i < k
  · simp [hk]
  · rw [Nat.sub_add_cancel (not_lt.mp hk)]
    by_cases hi : i < 64
    · simp [hi, not_lt.mp hk]
    · have hx : x.toNat < 2 ^ i := x.toNat_lt.trans_le (Nat.pow_le_pow_right two_pos (not_lt.mp hi))
      simp [Nat.testBit_lt_two_pow hx]

namespace SlabLayout

variable (layout : SlabLayout)

theorem objectSize_spec :
    8 ≤ layout.objectSize.toNat ∧ layout.sizeOf.toNat ≤ layout.objectSize.toNat ∧
      layout.objectSize.toNat < 2 ^ 63 := by
  have hlt := layout.sizeOf_lt
  unfold objectSize
  split_ifs with hsmall
  · rw [UInt64.lt_iff_toNat_lt] at hsmall
    exact ⟨le_rfl, hsmall.le, by decide⟩
  · rw [UInt64.lt_iff_toNat_lt] at hsmall
    exact ⟨not_lt.mp hsmall, le_rfl, hlt⟩

theorem alignment_spec :
    ∃ k ≤ 12, layout.alignment.toNat = 2 ^ k ∧ layout.alignOf.toNat ∣ layout.alignment.toNat := by
  obtain ⟨k, hk, halign⟩ := layout.alignOf_eq
  unfold alignment
  split_ifs with hsmall
  · rw [UInt64.lt_iff_toNat_lt, halign] at hsmall
    have hlt : k < 3 := (Nat.pow_lt_pow_iff_right one_lt_two).mp hsmall
    refine ⟨3, by decide, rfl, ?_⟩
    rw [halign]
    exact Nat.pow_dvd_pow 2 hlt.le
  · exact ⟨k, hk, halign, Nat.dvd_refl _⟩

theorem chunkSize_spec :
    layout.objectSize.toNat ≤ layout.chunkSize.toNat ∧ layout.alignOf.toNat ∣ layout.chunkSize.toNat := by
  obtain ⟨-, -, hobject⟩ := layout.objectSize_spec
  obtain ⟨k, hk, halign, hdvd⟩ := layout.alignment_spec
  have hpow : 2 ^ k ≤ 2 ^ 12 := Nat.pow_le_pow_right two_pos hk
  have hpos : 0 < 2 ^ k := Nat.two_pow_pos k
  have hmask : (layout.alignment - 1).toNat = 2 ^ k - 1 := by
    have hle : (1 : UInt64) ≤ layout.alignment := by
      rw [UInt64.le_iff_toNat_le, halign]
      exact hpos
    rw [UInt64.toNat_sub_of_le _ _ hle, halign]
    rfl
  have hsum : (layout.objectSize + (layout.alignment - 1)).toNat = layout.objectSize.toNat + (2 ^ k - 1) := by
    rw [UInt64.toNat_add, hmask, Nat.mod_eq_of_lt (by omega)]
  have hchunk : layout.chunkSize.toNat = (layout.objectSize.toNat + (2 ^ k - 1)) / 2 ^ k * 2 ^ k := by
    rw [chunkSize, toNat_clear_low hmask, hsum]
  constructor
  · have hmod := Nat.mod_lt (layout.objectSize.toNat + (2 ^ k - 1)) hpos
    have hdiv := Nat.div_add_mod' (layout.objectSize.toNat + (2 ^ k - 1)) (2 ^ k)
    omega
  · rw [hchunk]
    exact hdvd.trans (halign ▸ Nat.dvd_mul_left _ _)

variable {layout} {slabs : List UInt64} {base chunk : UInt64}

theorem mem_chunksOf :
    chunk ∈ layout.chunksOf base ↔ ∃ i < layout.objectsPerSlab.toNat, layout.chunkAt base i = chunk := by
  simp only [chunksOf, List.mem_map, List.mem_range]

theorem mem_chunks : chunk ∈ layout.chunks slabs ↔ ∃ base ∈ slabs, chunk ∈ layout.chunksOf base := List.mem_flatMap

theorem chunks_concat (slabs : List UInt64) (base : UInt64) :
    layout.chunks (slabs ++ [base]) = layout.chunks slabs ++ layout.chunksOf base := by
  rw [chunks, List.flatMap_append, List.flatMap_singleton, ← chunks]

def Apart (layout : SlabLayout) (c d : UInt64) : Prop :=
  c.toNat + layout.chunkSize.toNat ≤ d.toNat ∨ d.toNat + layout.chunkSize.toNat ≤ c.toNat

theorem Apart.symm {c d : UInt64} (h : layout.Apart c d) : layout.Apart d c := Or.symm h

theorem Apart.ne {c d : UInt64} (h : layout.Apart c d) : c ≠ d := by
  rintro rfl
  have hobject := layout.objectSize_spec.1
  have hchunk := layout.chunkSize_spec.1
  rcases h with h | h <;> omega

structure Placed (layout : SlabLayout) (slabs : List UInt64) : Prop where
  pos : ∀ base ∈ slabs, 0 < base.toNat
  page : ∀ base ∈ slabs, 4096 ∣ base.toNat
  inside : ∀ base ∈ slabs, base.toNat + layout.slabSize.toNat ≤ 2 ^ 64
  apart : slabs.Pairwise fun a b => a.toNat + layout.slabSize.toNat ≤ b.toNat ∨
    b.toNat + layout.slabSize.toNat ≤ a.toNat

theorem placed_nil (layout : SlabLayout) : layout.Placed [] where
  pos := List.forall_mem_nil _
  page := List.forall_mem_nil _
  inside := List.forall_mem_nil _
  apart := List.Pairwise.nil

theorem Placed.concat (h : layout.Placed slabs) (hfresh : layout.Fresh slabs base) :
    layout.Placed (slabs ++ [base]) where
  pos := List.forall_mem_append.mpr ⟨h.pos, List.forall_mem_singleton.mpr hfresh.pos⟩
  page := List.forall_mem_append.mpr ⟨h.page, List.forall_mem_singleton.mpr hfresh.page⟩
  inside := List.forall_mem_append.mpr ⟨h.inside, List.forall_mem_singleton.mpr hfresh.inside⟩
  apart := by
    refine List.pairwise_append.mpr ⟨h.apart, List.pairwise_singleton _ _, fun slab hslab b hb => ?_⟩
    rw [List.mem_singleton.mp hb]
    exact hfresh.apart slab hslab

theorem chunkAt_toNat_mod (base : UInt64) (i : ℕ) :
    (layout.chunkAt base i).toNat = (base.toNat + i * layout.chunkSize.toNat) % 2 ^ 64 := by
  rw [chunkAt, UInt64.toNat_add, UInt64.toNat_mul, UInt64.toNat_ofNat', Nat.mod_mul_mod, Nat.add_mod_mod]

theorem noWrap_of_inside (hpos : 0 < base.toNat) (hinside : base.toNat + layout.slabSize.toNat ≤ 2 ^ 64)
    (h : ∀ chunk ∈ layout.chunksOf base, base.toNat ≤ chunk.toNat ∧
      chunk.toNat + layout.chunkSize.toNat ≤ base.toNat + layout.slabSize.toNat) : layout.NoWrap := by
  have hplace : ∀ i < layout.objectsPerSlab.toNat,
      base.toNat + i * layout.chunkSize.toNat + layout.chunkSize.toNat ≤ base.toNat + layout.slabSize.toNat := by
    intro i hi
    induction i with
    | zero =>
      have hfirst := h _ (mem_chunksOf.mpr ⟨0, hi, rfl⟩)
      rw [chunkAt_toNat_mod, Nat.zero_mul, Nat.add_zero, Nat.mod_eq_of_lt base.toNat_lt] at hfirst
      rw [Nat.zero_mul, Nat.add_zero]
      exact hfirst.2
    | succ i ih =>
      have hbefore := ih (Nat.lt_of_succ_lt hi)
      have hnext := h _ (mem_chunksOf.mpr ⟨i + 1, hi, rfl⟩)
      rw [chunkAt_toNat_mod, Nat.succ_mul, ← Nat.add_assoc] at hnext
      rw [Nat.succ_mul, ← Nat.add_assoc]
      -- the next chunk would be at address 0 if this one ended at the last address
      rcases (hbefore.trans hinside).eq_or_lt with hend | hend
      · rw [hend, Nat.mod_self] at hnext
        omega
      · rw [Nat.mod_eq_of_lt hend] at hnext
        exact hnext.2
  have hcount := layout.objectsPerSlab_pos
  have hlast := hplace (layout.objectsPerSlab.toNat - 1) (by omega)
  rw [Nat.add_assoc, ← Nat.succ_mul, Nat.succ_eq_add_one, Nat.sub_add_cancel hcount, Nat.mul_comm] at hlast
  have hslab := layout.slabSize.toNat_lt
  rw [NoWrap]
  omega

section NoWrap

variable (hfits : layout.NoWrap)

include hfits

theorem NoWrap.slabSize_eq : layout.slabSize.toNat = layout.chunkSize.toNat * layout.objectsPerSlab.toNat := by
  rw [slabSize, UInt64.toNat_mul, Nat.mod_eq_of_lt hfits]

theorem Placed.chunkAt_toNat (h : layout.Placed slabs) (hbase : base ∈ slabs) {i : ℕ}
    (hi : i < layout.objectsPerSlab.toNat) :
    (layout.chunkAt base i).toNat = base.toNat + i * layout.chunkSize.toNat ∧
      base.toNat + i * layout.chunkSize.toNat + layout.chunkSize.toNat ≤ base.toNat + layout.slabSize.toNat := by
  have hobject := layout.objectSize_spec.1
  have hchunk := layout.chunkSize_spec.1
  have hsize := hfits.slabSize_eq
  have hinside := h.inside base hbase
  have hend : i * layout.chunkSize.toNat + layout.chunkSize.toNat ≤ layout.slabSize.toNat := by
    rw [hsize, ← Nat.succ_mul, Nat.mul_comm]
    exact Nat.mul_le_mul_left _ hi
  refine ⟨?_, by omega⟩
  rw [chunkAt_toNat_mod, Nat.mod_eq_of_lt (by omega)]

theorem Placed.chunk_spec (h : layout.Placed slabs) (hbase : base ∈ slabs) (hchunk : chunk ∈ layout.chunksOf base) :
    base.toNat ≤ chunk.toNat ∧ chunk.toNat + layout.chunkSize.toNat ≤ base.toNat + layout.slabSize.toNat ∧
      layout.alignOf.toNat ∣ chunk.toNat := by
  obtain ⟨i, hi, rfl⟩ := mem_chunksOf.mp hchunk
  obtain ⟨haddress, hend⟩ := h.chunkAt_toNat hfits hbase hi
  rw [haddress]
  refine ⟨Nat.le_add_right _ _, hend, Nat.dvd_add ?_ ((layout.chunkSize_spec).2.mul_left i)⟩
  obtain ⟨k, hk, halign⟩ := layout.alignOf_eq
  rw [halign]
  have hpage : 2 ^ k ∣ 4096 := Nat.pow_dvd_pow 2 hk
  exact hpage.trans (h.page base hbase)

theorem Placed.chunk_ne_zero (h : layout.Placed slabs) (hchunk : chunk ∈ layout.chunks slabs) : chunk ≠ 0 := by
  obtain ⟨base, hbase, hchunk⟩ := mem_chunks.mp hchunk
  have hpos := h.pos base hbase
  have hle := (h.chunk_spec hfits hbase hchunk).1
  rintro rfl
  rw [UInt64.toNat_zero] at hle
  omega

theorem Placed.chunksOf_apart (h : layout.Placed slabs) (hbase : base ∈ slabs) :
    (layout.chunksOf base).Pairwise layout.Apart := by
  rw [chunksOf, List.pairwise_map]
  apply (List.pairwise_lt_range).imp_of_mem
  intro i j hi hj hlt
  rw [Apart, (h.chunkAt_toNat hfits hbase (List.mem_range.mp hi)).1,
    (h.chunkAt_toNat hfits hbase (List.mem_range.mp hj)).1]
  have hle := Nat.mul_le_mul_right layout.chunkSize.toNat (Nat.succ_le_of_lt hlt)
  rw [Nat.succ_mul] at hle
  omega

theorem Placed.chunks_apart (h : layout.Placed slabs) : (layout.chunks slabs).Pairwise layout.Apart := by
  rw [chunks, List.pairwise_flatMap]
  refine ⟨fun base hbase => h.chunksOf_apart hfits hbase, h.apart.imp_of_mem ?_⟩
  intro a b ha hb hab c hc d hd
  obtain ⟨hlow, hhigh, -⟩ := h.chunk_spec hfits ha hc
  obtain ⟨hlow', hhigh', -⟩ := h.chunk_spec hfits hb hd
  rw [Apart]
  omega

end NoWrap

end SlabLayout

end SystemLevel.Memory
