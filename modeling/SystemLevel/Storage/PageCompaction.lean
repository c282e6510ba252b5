import SystemLevel.Storage.PageOperations

namespace SystemLevel.Storage.SlottedPage

def occupiedBelow (page : SlottedPage) (k : ℕ) : Finset ℕ := (Finset.range k).filter page.Occupied

theorem occupiedBelow_succ (page : SlottedPage) (k : ℕ) :
    page.occupiedBelow (k + 1) = if page.Occupied k then insert k (page.occupiedBelow k) else page.occupiedBelow k := by
  rw [occupiedBelow, Finset.range_add_one, Finset.filter_insert]
  rfl

variable {page₀ : SlottedPage}

theorem WellFormed.sum_extent_le (h : page₀.WellFormed) (k : ℕ) :
    ∑ i ∈ page₀.occupiedBelow k, page₀.extent i ≤ pageSize - page₀.freeSpacePtr := by
  apply Buffers.sum_le_of_apart
  · exact fun i hi => h.inside i (Finset.mem_filter.mp hi).2
  · exact fun i hi j hj hij => h.apart i j hij (Finset.mem_filter.mp hi).2 (Finset.mem_filter.mp hj).2

structure Compacting (page₀ page temp : SlottedPage) (ptr : UInt16) (k : ℕ) : Prop where
  header_eq : page.header = page₀.header
  later : ∀ i, k ≤ i → i < page₀.slotCount → page.slot i = page₀.slot i
  same : ∀ i < page₀.slotCount,
    (page.slot i).size = (page₀.slot i).size ∧ (page.slot i).isDeleted = (page₀.slot i).isDeleted
  read_eq : ∀ off len, page₀.freeSpacePtr ≤ off → off + len ≤ pageSize → page.read off len = page₀.read off len
  ptr_eq : ptr.toNat + ∑ i ∈ page₀.occupiedBelow k, page₀.extent i = pageSize
  inside : ∀ i < k, page₀.Occupied i → ptr.toNat ≤ page.start i ∧ page.start i + page₀.extent i ≤ pageSize
  apart : ∀ i < k, ∀ j < k, i ≠ j → page₀.Occupied i → page₀.Occupied j →
    Apart (page.start i) (page₀.extent i) (page.start j) (page₀.extent j)
  copied : ∀ i < k, page₀.Occupied i → temp.read (page.start i) (page₀.extent i) = page₀.tuple i

namespace Compacting

variable {page temp : SlottedPage} {ptr : UInt16} {k : ℕ}

theorem init (page₀ temp : SlottedPage) : Compacting page₀ page₀ temp (UInt16.ofNat pageSize) 0 where
  header_eq := rfl
  later _ _ _ := rfl
  same _ _ := ⟨rfl, rfl⟩
  read_eq _ _ _ _ := rfl
  ptr_eq := rfl
  inside _ hi := absurd hi (Nat.not_lt_zero _)
  apart _ hi := absurd hi (Nat.not_lt_zero _)
  copied _ hi := absurd hi (Nat.not_lt_zero _)

theorem skip (h : Compacting page₀ page temp ptr k) (hk : ¬ page₀.Occupied k) :
    Compacting page₀ page temp ptr (k + 1) := by
  have hlt : ∀ i < k + 1, page₀.Occupied i → i < k := by
    intro i hi hocc
    have hne : i ≠ k := fun he => hk (he ▸ hocc)
    omega
  refine
    { header_eq := h.header_eq
      later := fun i hi => h.later i (by omega)
      same := h.same
      read_eq := h.read_eq
      ptr_eq := ?_
      inside := fun i hi hocc => h.inside i (hlt i hi hocc) hocc
      apart := fun i hi j hj hij hocc hocc' => h.apart i (hlt i hi hocc) j (hlt j hj hocc') hij hocc hocc'
      copied := fun i hi hocc => h.copied i (hlt i hi hocc) hocc }
  rw [occupiedBelow_succ, if_neg hk]
  exact h.ptr_eq

theorem ptr_move (h : Compacting page₀ page temp ptr k) (hpage : page₀.WellFormed) (hocc : page₀.Occupied k) :
    (ptr - (page₀.slot k).size).toNat + page₀.extent k = ptr.toNat ∧
      page₀.freeSpacePtr ≤ (ptr - (page₀.slot k).size).toNat := by
  have hsum := hpage.sum_extent_le (k + 1)
  have hptr := h.ptr_eq
  have harea := hpage.area
  have hnew : k ∉ page₀.occupiedBelow k := by simp [occupiedBelow]
  rw [occupiedBelow_succ, if_pos hocc, Finset.sum_insert hnew] at hsum
  have hle : (page₀.slot k).size.toNat ≤ ptr.toNat := by
    change page₀.extent k ≤ _
    omega
  rw [UInt16.toNat_sub_of_le _ _ (UInt16.le_iff_toNat_le.mpr hle)]
  change ptr.toNat - page₀.extent k + page₀.extent k = _ ∧ _ ≤ ptr.toNat - page₀.extent k
  change page₀.extent k ≤ _ at hle
  omega

theorem move (h : Compacting page₀ page temp ptr k) (hpage : page₀.WellFormed) (hocc : page₀.Occupied k) :
    Compacting page₀ (page.setSlot k { page₀.slot k with offset := ptr - (page₀.slot k).size })
      (temp.write (ptr - (page₀.slot k).size).toNat (page₀.tuple k)) (ptr - (page₀.slot k).size) (k + 1) := by
  obtain ⟨hptr, hlow⟩ := h.ptr_move hpage hocc
  have hold := h.ptr_eq
  have harea := hpage.area
  have hroom := hpage.slot_fits hocc.1.1
  have hfits : slotAt k + 6 ≤ pageSize := hroom.trans harea
  have hlen : (page₀.tuple k).length = page₀.extent k := by
    apply Buffers.length_slice
    rw [page₀.length_bytes]
    exact (hpage.inside k hocc).2
  have hbounds : (ptr - (page₀.slot k).size).toNat + (page₀.tuple k).length ≤ pageSize := by omega
  generalize ptr - (page₀.slot k).size = newPtr at *
  have hself := slot_setSlot_self page { page₀.slot k with offset := newPtr } hfits
  have hother : ∀ i < page₀.slotCount, i ≠ k →
      (page.setSlot k { page₀.slot k with offset := newPtr }).slot i = page.slot i := by
    intro i hi hne
    exact slot_setSlot_ne page _ hfits ((hpage.slot_fits hi).trans harea) hne
  have hstart : (page.setSlot k { page₀.slot k with offset := newPtr }).start k = newPtr.toNat := by rw [start, hself]
  have hstart' : ∀ i, page₀.Occupied i → i ≠ k →
      (page.setSlot k { page₀.slot k with offset := newPtr }).start i = page.start i :=
    fun i hi hne => start_congr (hother i hi.1.1 hne)
  refine
    { header_eq := (header_setSlot page _ hfits).trans h.header_eq
      later := fun i hi hcount => (hother i hcount (by omega)).trans (h.later i (by omega) hcount)
      same := fun i hi => ?_
      read_eq := fun off len hoff hend =>
        (read_setSlot page _ hfits (hroom.trans hoff) hend).trans (h.read_eq off len hoff hend)
      ptr_eq := ?_
      inside := fun i hi hocc' => ?_
      apart := fun i hi j hj hij hocc' hocc'' => ?_
      copied := fun i hi hocc' => ?_ }
  · by_cases hne : i = k
    · rw [hne, hself]
      exact ⟨rfl, rfl⟩
    · rw [hother i hi hne]
      exact h.same i hi
  · rw [occupiedBelow_succ, if_pos hocc, Finset.sum_insert (by simp [occupiedBelow])]
    omega
  · by_cases hne : i = k
    · rw [hne, hstart]
      omega
    · have := h.inside i (by omega) hocc'
      rw [hstart' i hocc' hne]
      omega
  · by_cases hi' : i = k
    · have := h.inside j (by omega) hocc''
      rw [hi', hstart, hstart' j hocc'' (by omega)]
      exact Or.inl (by omega)
    · rw [hstart' i hocc' hi']
      by_cases hj' : j = k
      · have := h.inside i (by omega) hocc'
        rw [hj', hstart]
        exact Or.inr (by omega)
      · rw [hstart' j hocc'' hj']
        exact h.apart i (by omega) j (by omega) hij hocc' hocc''
  · by_cases hne : i = k
    · rw [hne, hstart, ← hlen]
      exact read_write_self _ hbounds
    · have hin := h.inside i (by omega) hocc'
      rw [hstart' i hocc' hne, ← h.copied i (by omega) hocc']
      exact read_write_apart _ hbounds hin.2 (Or.inr (by omega))

theorem step (h : Compacting page₀ page temp ptr k) (hpage : page₀.WellFormed) (hk : k < page₀.slotCount) :
    let st := compactSlot (page, temp, ptr) k
    Compacting page₀ st.1 st.2.1 st.2.2 (k + 1) := by
  have hslot := h.later k le_rfl hk
  have hiff : (page₀.slot k).isDeleted = 0 ∧ 0 < (page₀.slot k).size ↔ page₀.Occupied k := by
    rw [Occupied, Live, extent, UInt16.lt_iff_toNat_lt]
    exact ⟨fun hs => ⟨⟨hk, hs.1⟩, hs.2⟩, fun hs => ⟨hs.1.2, hs.2⟩⟩
  simp only [compactSlot, hslot]
  split_ifs with hocc
  · have hocc := hiff.mp hocc
    obtain ⟨hlow, hhigh⟩ := hpage.inside k hocc
    have hread : page.read (page₀.slot k).offset.toNat (page₀.slot k).size.toNat = page₀.tuple k :=
      h.read_eq _ _ hlow hhigh
    rw [hread]
    exact h.move hpage hocc
  · exact h.skip (mt hiff.mpr hocc)

theorem loop (hpage : page₀.WellFormed) (temp : SlottedPage) {k : ℕ} (hk : k ≤ page₀.slotCount) :
    let st := (List.range k).foldl compactSlot (page₀, temp, UInt16.ofNat pageSize)
    Compacting page₀ st.1 st.2.1 st.2.2 k := by
  induction k with
  | zero => exact init page₀ temp
  | succ k ih =>
    rw [List.range_succ, List.foldl_append]
    exact (ih (by omega)).step hpage (by omega)

section Finish

variable (h : Compacting page₀ page temp ptr page₀.slotCount) (hpage : page₀.WellFormed)

include h hpage

theorem ptr_ge : page₀.freeSpacePtr ≤ ptr.toNat := by
  have hsum := hpage.sum_extent_le page₀.slotCount
  have hptr := h.ptr_eq
  have harea := hpage.area
  omega

omit hpage in
theorem length_copied : (temp.read ptr.toNat (pageSize - ptr.toNat)).length = pageSize - ptr.toNat := by
  have hptr := h.ptr_eq
  apply Buffers.length_slice
  rw [temp.length_bytes]
  omega

theorem header_copyBack : (page.copyBack temp ptr).header = { page₀.header with freeSpacePtr := ptr } := by
  have hlow := h.ptr_ge hpage
  have hslots := hpage.slots
  have hptr := h.ptr_eq
  have hlen := h.length_copied
  rw [SlottedPage.copyBack, header_setHeader, header_write page (by omega) (by omega), h.header_eq]

theorem copyBack :
    (page.copyBack temp ptr).slotCount = page₀.slotCount ∧ (page.copyBack temp ptr).freeSpacePtr = ptr.toNat ∧
      (∀ i < page₀.slotCount, (page.copyBack temp ptr).slot i = page.slot i) ∧
      ∀ i, page₀.Occupied i → (page.copyBack temp ptr).tuple i = page₀.tuple i := by
  have hlow := h.ptr_ge hpage
  have hslots := hpage.slots
  have hptr := h.ptr_eq
  have hlen := h.length_copied
  have hheader := h.header_copyBack hpage
  have hslot : ∀ i < page₀.slotCount, (page.copyBack temp ptr).slot i = page.slot i := by
    intro i hi
    have hfits := hpage.slot_fits hi
    rw [SlottedPage.copyBack, slot_setHeader _ _ (by omega),
      slot_write page (by omega) (by omega) (Or.inl (by omega))]
  refine ⟨?_, ?_, hslot, fun i hocc => ?_⟩
  · rw [slotCount, hheader, slotCount]
  · rw [freeSpacePtr, hheader]
  · obtain ⟨hstart, hstop⟩ := h.inside i hocc.1.1 hocc
    have hextent : (page.copyBack temp ptr).extent i = page₀.extent i := by
      rw [extent, hslot i hocc.1.1, (h.same i hocc.1.1).1, extent]
    rw [tuple, start_congr (hslot i hocc.1.1), hextent, SlottedPage.copyBack, read_setHeader _ _ (by omega) hstop,
      read_write_inside page (by omega) hstart (by omega), SlottedPage.read, Buffers.slice_slice (by omega),
      Nat.add_sub_cancel' hstart]
    exact h.copied i hocc.1.1 hocc

variable {page' : SlottedPage} (hcount : page'.slotCount = page₀.slotCount)
  (hslot : ∀ i < page₀.slotCount, page'.slot i = page.slot i)

include hcount hslot

omit hpage in
theorem live_iff (i : ℕ) : page'.Live i ↔ page₀.Live i := by
  rw [Live, Live, hcount]
  refine and_congr_right fun hi => ?_
  rw [hslot i hi, (h.same i hi).2]

omit hpage hcount in
theorem extent_eq {i : ℕ} (hi : page₀.Live i) : page'.extent i = page₀.extent i := by
  rw [extent, hslot i hi.1, (h.same i hi.1).1, extent]

theorem wellFormed (hptr : page'.freeSpacePtr = ptr.toNat) : page'.WellFormed := by
  have hlow := h.ptr_ge hpage
  have hsum := h.ptr_eq
  have hslots := hpage.slots
  have hocc : ∀ i, page'.Occupied i → page₀.Occupied i ∧ page'.start i = page.start i ∧
      page'.extent i = page₀.extent i := by
    intro i hi
    have hlive := (h.live_iff hcount hslot i).mp hi.1
    have hextent := h.extent_eq hslot hlive
    exact ⟨⟨hlive, hextent ▸ hi.2⟩, start_congr (hslot i hlive.1), hextent⟩
  refine ⟨by omega, by omega, fun i hi => ?_, fun i j hij hi hj => ?_⟩
  · obtain ⟨hi, hstart, hextent⟩ := hocc i hi
    rw [hstart, hextent, hptr]
    exact h.inside i hi.1.1 hi
  · obtain ⟨hi, hstart, hextent⟩ := hocc i hi
    obtain ⟨hj, hstart', hextent'⟩ := hocc j hj
    rw [hstart, hextent, hstart', hextent']
    exact h.apart i hi.1.1 j hj.1.1 hij hi hj

omit hpage in
theorem getTuple_eq (htuple : ∀ i, page₀.Occupied i → page'.tuple i = page₀.tuple i) (slotId : UInt16) :
    page'.getTuple slotId = page₀.getTuple slotId := by
  rw [SlottedPage.getTuple_eq, SlottedPage.getTuple_eq]
  by_cases hlive : page₀.Live slotId.toNat
  · rw [if_pos hlive, if_pos ((h.live_iff hcount hslot _).mpr hlive)]
    rcases Nat.eq_zero_or_pos (page₀.extent slotId.toNat) with hzero | hpos
    · rw [tuple, tuple, h.extent_eq hslot hlive, hzero, read_zero, read_zero]
    · rw [htuple _ ⟨hlive, hpos⟩]
  · rw [if_neg hlive, if_neg (mt (h.live_iff hcount hslot _).mp hlive)]

end Finish

end Compacting

theorem compact_spec (h : page₀.WellFormed) (temp : SlottedPage) :
    (page₀.compact temp).WellFormed ∧ (page₀.compact temp).slotCount = page₀.slotCount ∧
      ∀ slotId, (page₀.compact temp).getTuple slotId = page₀.getTuple slotId := by
  have hloop := Compacting.loop h temp le_rfl
  obtain ⟨hcount, hptr, hslot, htuple⟩ := hloop.copyBack h
  exact ⟨hloop.wellFormed h hcount hslot hptr, hcount, hloop.getTuple_eq hcount hslot htuple⟩

theorem compact_header (h : page₀.WellFormed) (temp : SlottedPage) :
    ∃ ptr : UInt16, (page₀.compact temp).header = { page₀.header with freeSpacePtr := ptr } ∧
      ptr.toNat + ∑ i ∈ page₀.occupiedBelow page₀.slotCount, page₀.extent i = pageSize := by
  have hloop := Compacting.loop h temp le_rfl
  exact ⟨_, hloop.header_copyBack h, hloop.ptr_eq⟩

end SystemLevel.Storage.SlottedPage
