import SystemLevel.Storage.PageRefinement

namespace SystemLevel.Storage.SlottedPage

variable {page : SlottedPage}

def liveBytes (page : SlottedPage) : ℕ :=
  ∑ i ∈ Finset.range page.slotCount, ((page.getTuple (UInt16.ofNat i)).getD []).length

def used (page : SlottedPage) : ℕ := 24 + 6 * page.slotCount + page.liveBytes

theorem WellFormed.slotCount_le (h : page.WellFormed) : page.slotCount ≤ pageSize := by
  have hslots := h.slots
  have harea := h.area
  omega

theorem WellFormed.tuple_length (h : page.WellFormed) {i : ℕ} (hlive : page.Live i) :
    (page.tuple i).length = page.extent i := by
  rcases Nat.eq_zero_or_pos (page.extent i) with hzero | hpos
  · rw [tuple, hzero, read_zero, List.length_nil]
  · apply Buffers.length_slice
    rw [page.length_bytes]
    exact (h.inside i ⟨hlive, hpos⟩).2

theorem WellFormed.getTuple_length (h : page.WellFormed) {i : ℕ} (hi : i < page.slotCount) :
    ((page.getTuple (UInt16.ofNat i)).getD []).length = if page.Occupied i then page.extent i else 0 := by
  rw [getTuple_eq, ofNat_toNat_of_le (hi.le.trans h.slotCount_le)]
  by_cases hlive : page.Live i
  · rw [if_pos hlive, Option.getD_some, h.tuple_length hlive]
    split_ifs with hocc
    · rfl
    · exact Nat.eq_zero_of_not_pos fun hpos => hocc ⟨hlive, hpos⟩
  · rw [if_neg hlive, if_neg fun hocc => hlive hocc.1]
    rfl

theorem WellFormed.liveBytes_eq (h : page.WellFormed) :
    page.liveBytes = ∑ i ∈ page.occupiedBelow page.slotCount, page.extent i := by
  rw [liveBytes, occupiedBelow, Finset.sum_filter]
  apply Finset.sum_congr rfl
  exact fun i hi => h.getTuple_length (Finset.mem_range.mp hi)

theorem liveBytes_congr {page' : SlottedPage} (hcount : page'.slotCount = page.slotCount)
    (hget : ∀ slotId, page'.getTuple slotId = page.getTuple slotId) : page'.liveBytes = page.liveBytes := by
  rw [liveBytes, liveBytes, hcount]
  apply Finset.sum_congr rfl
  exact fun i _ => by rw [hget]

def otherBytes (page : SlottedPage) (i : ℕ) : ℕ :=
  ∑ j ∈ (Finset.range page.slotCount).erase i, ((page.getTuple (UInt16.ofNat j)).getD []).length

theorem WellFormed.otherBytes_add_extent (h : page.WellFormed) {i : ℕ} (hlive : page.Live i) :
    page.otherBytes i + page.extent i = page.liveBytes := by
  have hsum := Finset.sum_erase_add (Finset.range page.slotCount)
    (fun j => ((page.getTuple (UInt16.ofNat j)).getD []).length) (Finset.mem_range.mpr hlive.1)
  have htuple : ((page.getTuple (UInt16.ofNat i)).getD []).length = page.extent i := by
    rw [getTuple_of_live (ofNat_toNat_of_le (hlive.1.le.trans h.slotCount_le)) hlive, Option.getD_some,
      h.tuple_length hlive]
  rw [htuple] at hsum
  exact hsum

theorem compact_freeSpace (h : page.WellFormed) (temp : SlottedPage) :
    (page.compact temp).freeSpace.toNat + page.used = pageSize := by
  obtain ⟨hwf, hcount, -⟩ := compact_spec h temp
  obtain ⟨ptr, hheader, hsum⟩ := compact_header h temp
  have hptr : (page.compact temp).freeSpacePtr = ptr.toNat := by rw [freeSpacePtr, hheader]
  have hslots := hwf.slots
  rw [hwf.freeSpace_eq, used, h.liveBytes_eq]
  omega

theorem freeSpace_le (h : page.WellFormed) : page.freeSpace.toNat + page.used ≤ pageSize := by
  have hsum := h.sum_extent_le page.slotCount
  have hslots := h.slots
  have harea := h.area
  rw [h.freeSpace_eq, used, h.liveBytes_eq]
  omega

theorem used_compact (h : page.WellFormed) (temp : SlottedPage) : (page.compact temp).used = page.used := by
  obtain ⟨-, hcount, hget⟩ := compact_spec h temp
  rw [used, used, liveBytes_congr hcount hget, hcount]

theorem compaction_reclaims_garbage (pageId : UInt64) (ops : List Op) (temp : SlottedPage) :
    let page := (track pageId ops).page
    let page' := page.compact temp
    (∀ slotId, page'.getTuple slotId = page.getTuple slotId) ∧
      page'.slotCount = page.slotCount ∧ page'.pageId = page.pageId ∧ page'.lsn = page.lsn ∧
      page'.freeSpace.toNat + (24 + 6 * page.slotCount + page.liveBytes) = 4096 ∧
      page.freeSpace ≤ page'.freeSpace ∧
      ∀ temp', (∀ slotId, (page'.compact temp').getTuple slotId = page'.getTuple slotId) ∧
        (page'.compact temp').freeSpace = page'.freeSpace := by
  intro page page'
  have h : page.WellFormed := (track_spec pageId ops).1
  obtain ⟨hwf, hcount, hget⟩ := compact_spec h temp
  obtain ⟨ptr, hheader, -⟩ := compact_header h temp
  have hfree : page'.freeSpace.toNat + page.used = pageSize := compact_freeSpace h temp
  have hbefore := freeSpace_le h
  refine ⟨hget, hcount, ?_, ?_, hfree, ?_, fun temp' => ⟨(compact_spec hwf temp').2.2, ?_⟩⟩
  · rw [SlottedPage.pageId, hheader, SlottedPage.pageId]
  · rw [lsn, hheader, lsn]
  · rw [UInt16.le_iff_toNat_le]
    omega
  · have hagain : (page'.compact temp').freeSpace.toNat + page'.used = pageSize := compact_freeSpace hwf temp'
    have hused : page'.used = page.used := used_compact h temp
    apply UInt16.toNat_inj.mp
    omega

theorem makeRoom_iff (h : page.WellFormed) (temp : SlottedPage) (needed : ℕ) :
    (page.makeRoom temp needed).1 = true ↔ page.used + needed ≤ pageSize := by
  have hfree := compact_freeSpace h temp
  have hbefore := freeSpace_le h
  rw [makeRoom]
  split_ifs with hshort
  · rw [decide_eq_true_iff]
    omega
  · exact iff_of_true rfl (by omega)

theorem insertTuple_eq_none_iff (h : page.WellFormed) (temp : SlottedPage) (payload : Bytes) :
    (page.insertTuple temp payload).1 = none ↔ pageSize < page.used + 6 + payload.length := by
  have hroom := makeRoom_iff h temp (payload.length + slotCodec.size)
  have hsize : slotCodec.size = 6 := rfl
  rw [insertTuple]
  by_cases hfits : (page.makeRoom temp (payload.length + slotCodec.size)).1 = true
  · rw [if_pos hfits]
    rw [hroom] at hfits
    exact iff_of_false (Option.some_ne_none _) (by omega)
  · rw [if_neg hfits]
    rw [hroom] at hfits
    exact iff_of_true rfl (by omega)

theorem updateTuple_eq_false_iff (h : page.WellFormed) (temp : SlottedPage) {slotId : UInt16}
    (hlive : page.Live slotId.toNat) (newPayload : Bytes) :
    (page.updateTuple temp slotId newPayload).1 = false ↔
      page.extent slotId.toNat < newPayload.length ∧ pageSize < page.used + newPayload.length := by
  have hroom := makeRoom_iff h temp newPayload.length
  rw [updateTuple, if_pos hlive]
  by_cases hshort : newPayload.length ≤ (page.slot slotId.toNat).size.toNat
  · rw [if_pos hshort]
    exact iff_of_false (Bool.false_ne_true ∘ Eq.symm) fun hlong => absurd hshort (Nat.not_le.mpr hlong.1)
  · have hlong : page.extent slotId.toNat < newPayload.length := Nat.lt_of_not_le hshort
    rw [if_neg hshort]
    by_cases hfits : (page.makeRoom temp newPayload.length).1 = true
    · rw [if_pos hfits]
      rw [hroom] at hfits
      exact iff_of_false (Bool.false_ne_true ∘ Eq.symm) (by omega)
    · rw [if_neg hfits]
      rw [hroom] at hfits
      exact iff_of_true rfl ⟨hlong, by omega⟩

def Reusable (page : SlottedPage) : Prop := ∃ i < page.slotCount, (page.slot i).isDeleted ≠ 0

instance decidableReusable (page : SlottedPage) : Decidable page.Reusable :=
  inferInstanceAs (Decidable (∃ i < page.slotCount, (page.slot i).isDeleted ≠ 0))

theorem out_of_space_only_when_full_iff (pageId : UInt64) (ops : List Op) :
    let page := (track pageId ops).page
    (∀ temp payload,
      ((page.insertTuple temp payload).1 = none →
          4096 < 24 + 6 * (page.slotCount + if page.Reusable then 0 else 1) + page.liveBytes + payload.length) ↔
        page.Reusable → page.used + payload.length ≤ 4090 ∨ 4096 < page.used + payload.length) ∧
      ∀ temp slotId newPayload, page.Live slotId.toNat →
        (((page.updateTuple temp slotId newPayload).1 = false →
            4096 < 24 + 6 * page.slotCount + page.otherBytes slotId.toNat + newPayload.length) ↔
          newPayload.length ≤ page.extent slotId.toNat ∨ page.used + newPayload.length ≤ 4096 ∨
            4096 < page.used + newPayload.length - page.extent slotId.toNat) := by
  intro page
  have h : page.WellFormed := (track_spec pageId ops).1
  have hsize : pageSize = 4096 := rfl
  have hused : page.used = 24 + 6 * page.slotCount + page.liveBytes := rfl
  refine ⟨fun temp payload => ?_, fun temp slotId newPayload hlive => ?_⟩
  · rw [insertTuple_eq_none_iff h]
    by_cases hreuse : page.Reusable
    · simp only [hreuse, if_true, true_imp_iff]
      omega
    · simp only [hreuse, if_false, false_imp_iff, iff_true]
      omega
  · have hother := h.otherBytes_add_extent hlive
    rw [updateTuple_eq_false_iff h temp hlive]
    omega

def emptiedPage : SlottedPage := (track 0 [Op.insertTuple [] (init 0), Op.deleteTuple 0]).page

def oneTuplePage : SlottedPage := (track 0 [Op.insertTuple [7] (init 0)]).page

theorem out_of_space_at_the_limit :
    let payload := List.replicate 4066 0
    (emptiedPage.Reusable ∧ (emptiedPage.insertTuple (init 0) payload).1 = none ∧
        24 + 6 * emptiedPage.slotCount + emptiedPage.liveBytes + payload.length = 4096) ∧
      oneTuplePage.Live 0 ∧ (oneTuplePage.updateTuple (init 0) 0 payload).1 = false ∧
        24 + 6 * oneTuplePage.slotCount + oneTuplePage.otherBytes 0 + payload.length = 4096 := by
  intro payload
  have hpayload : payload.length = 4066 := List.length_replicate
  have hempty : emptiedPage.WellFormed := (track_spec 0 [Op.insertTuple [] (init 0), Op.deleteTuple 0]).1
  have hone : oneTuplePage.WellFormed := (track_spec 0 [Op.insertTuple [7] (init 0)]).1
  have hreuse : emptiedPage.Reusable ∧ emptiedPage.slotCount = 1 ∧ emptiedPage.liveBytes = 0 := by decide +kernel
  have hlive : oneTuplePage.Live 0 ∧ oneTuplePage.slotCount = 1 ∧ oneTuplePage.extent 0 = 1 ∧
      oneTuplePage.liveBytes = 1 := by decide +kernel
  have hother := hone.otherBytes_add_extent hlive.1
  have hsize : pageSize = 4096 := rfl
  refine ⟨⟨hreuse.1, ?_, by omega⟩, hlive.1, ?_, by omega⟩
  · rw [insertTuple_eq_none_iff hempty, used]
    omega
  · have hzero : oneTuplePage.Live (0 : UInt16).toNat := hlive.1
    rw [updateTuple_eq_false_iff hone (init 0) hzero, used]
    change oneTuplePage.extent 0 < _ ∧ _
    omega

end SystemLevel.Storage.SlottedPage
