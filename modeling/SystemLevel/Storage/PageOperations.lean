import SystemLevel.Storage.PageLayout

namespace SystemLevel.Storage.SlottedPage

variable {page : SlottedPage}

theorem Keeps.trans {page' page'' : SlottedPage} {t : ℕ} (h : Keeps page page' t) (h' : Keeps page' page'' t) :
    Keeps page page'' t := by
  refine ⟨fun i hi => (h'.count i hi).trans (h.count i hi), fun i hcount hi => ?_, fun i hi hocc => ?_⟩
  · rw [h'.slot_eq i ((h.count i hi).mpr hcount) hi, h.slot_eq i hcount hi]
  · rw [h'.tuple_eq i hi ((h.occupied_iff hi).mpr hocc), h.tuple_eq i hi hocc]

theorem slotCount_setSlot (s : Slot) {i : ℕ} (hi : slotAt i + 6 ≤ pageSize) :
    (page.setSlot i s).slotCount = page.slotCount := by
  rw [slotCount, header_setSlot page s hi, slotCount]

theorem freeSpacePtr_setSlot (s : Slot) {i : ℕ} (hi : slotAt i + 6 ≤ pageSize) :
    (page.setSlot i s).freeSpacePtr = page.freeSpacePtr := by
  rw [freeSpacePtr, header_setSlot page s hi, freeSpacePtr]

theorem WellFormed.keeps_setSlot (h : page.WellFormed) {t : ℕ} (ht : slotAt t + 6 ≤ page.freeSpacePtr) (s : Slot) :
    Keeps page (page.setSlot t s) t := by
  have harea := h.area
  have hfits : slotAt t + 6 ≤ pageSize := by omega
  have hslot : ∀ i < page.slotCount, i ≠ t → (page.setSlot t s).slot i = page.slot i := by
    intro i hcount hi
    have := h.slot_fits hcount
    exact slot_setSlot_ne page s hfits (by omega) hi
  refine ⟨fun i _ => by rw [slotCount_setSlot s hfits], hslot, fun i hi hocc => ?_⟩
  obtain ⟨hlow, hhigh⟩ := h.inside i hocc
  exact tuple_congr (hslot i hocc.1.1 hi) (read_setSlot page s hfits (ht.trans hlow) hhigh)

theorem WellFormed.freeSpace_eq (h : page.WellFormed) :
    page.freeSpace.toNat = page.freeSpacePtr - (24 + 6 * page.slotCount) := by
  have hslots := h.slots
  have harea := h.area
  have hsize : pageSize = 4096 := rfl
  have hused : headerCodec.size + page.slotCount * slotCodec.size = 24 + 6 * page.slotCount := by
    rw [Nat.mul_comm]
    rfl
  rw [freeSpace, hused, if_neg (by omega), UInt16.toNat_ofNat', Nat.mod_eq_of_lt (by omega)]

theorem write_nil (off : ℕ) : page.write off [] = page := by
  apply SlottedPage.ext
  apply List.ext_getElem?
  intro i
  have hlen := page.length_bytes
  rw [write, List.getElem?_take, Buffers.getElem?_splice, List.length_nil]
  split_ifs with hi hoff hin
  · rw [List.getElem?_append_left (by omega)]
  · omega
  · rfl
  · rw [List.getElem?_eq_none (by omega)]

theorem WellFormed.write_tuple (h : page.WellFormed) {t : ℕ} (hlive : page.Live t) {bs : Bytes}
    (hlen : bs.length ≤ page.extent t) :
    Keeps page (page.write (page.start t) bs) t ∧ (page.write (page.start t) bs).header = page.header ∧
      (∀ i < page.slotCount, (page.write (page.start t) bs).slot i = page.slot i) ∧
      (page.write (page.start t) bs).read (page.start t) bs.length = bs := by
  rcases Nat.eq_zero_or_pos (page.extent t) with hzero | hpos
  · obtain rfl : bs = [] := List.length_eq_zero_iff.mp (by omega)
    rw [write_nil]
    exact ⟨⟨fun _ _ => Iff.rfl, fun _ _ _ => rfl, fun _ _ _ => rfl⟩, rfl, fun _ _ => rfl, read_zero page _⟩
  · obtain ⟨hlow, hhigh⟩ := h.inside t ⟨hlive, hpos⟩
    have hslots := h.slots
    have hfits : page.start t + bs.length ≤ pageSize := by omega
    have hheader := header_write page hfits (by omega)
    have hslot : ∀ i < page.slotCount, (page.write (page.start t) bs).slot i = page.slot i := by
      intro i hcount
      have := h.slot_fits hcount
      exact slot_write page hfits (by omega) (Or.inl (by omega))
    refine ⟨⟨fun i _ => by rw [slotCount, hheader, slotCount], fun i hcount _ => hslot i hcount, fun i hi hocc => ?_⟩,
      hheader, hslot, read_write_self page hfits⟩
    obtain ⟨-, hhigh'⟩ := h.inside i hocc
    have hapart := h.apart i t hi hocc ⟨hlive, hpos⟩
    apply tuple_congr (hslot i hocc.1.1)
    apply read_write_apart page hfits hhigh'
    unfold Apart at *
    omega

theorem WellFormed.setSlot (h : page.WellFormed) {t : ℕ} (ht : slotAt t + 6 ≤ page.freeSpacePtr) {s : Slot}
    (hinside : 0 < s.size.toNat → page.freeSpacePtr ≤ s.offset.toNat ∧ s.offset.toNat + s.size.toNat ≤ pageSize)
    (hapart : 0 < s.size.toNat → ∀ i, i ≠ t → page.Occupied i →
      Apart s.offset.toNat s.size.toNat (page.start i) (page.extent i)) : (page.setSlot t s).WellFormed := by
  have hpage : slotAt t + 6 ≤ pageSize := ht.trans h.area
  have hself := slot_setSlot_self page s hpage
  apply (h.keeps_setSlot ht s).wellFormed h
  · rw [slotCount_setSlot s hpage, freeSpacePtr_setSlot s hpage]
    exact h.slots
  · rw [freeSpacePtr_setSlot s hpage]
  · intro hocc
    have hpos := hocc.2
    rw [extent, hself] at hpos
    rw [start, extent, hself, freeSpacePtr_setSlot s hpage]
    exact hinside hpos
  · intro i hi hocc
    have hpos := hocc.2
    rw [extent, hself] at hpos
    rw [start, extent, hself]
    exact hapart hpos i hi

theorem tuple_setSlot {t : ℕ} (ht : slotAt t + 6 ≤ pageSize) (s : Slot) :
    (page.setSlot t s).tuple t = (page.setSlot t s).read s.offset.toNat s.size.toNat := by
  rw [tuple, start, extent, slot_setSlot_self page s ht]

theorem live_setSlot {t : ℕ} (ht : slotAt t + 6 ≤ pageSize) (s : Slot) :
    (page.setSlot t s).Live t ↔ t < page.slotCount ∧ s.isDeleted = 0 := by
  rw [Live, slotCount_setSlot s ht, slot_setSlot_self page s ht]

theorem deleteTuple_spec (h : page.WellFormed) {slotId : UInt16} (hlive : page.Live slotId.toNat) :
    (page.deleteTuple slotId).1 = true ∧ (page.deleteTuple slotId).2.WellFormed ∧
      (page.deleteTuple slotId).2.getTuple slotId = none ∧
      Keeps page (page.deleteTuple slotId).2 slotId.toNat := by
  have hfits := h.slot_fits hlive.1
  rw [deleteTuple, if_pos hlive]
  refine ⟨rfl, h.setSlot hfits ?_ ?_, ?_, h.keeps_setSlot hfits _⟩
  · exact fun hpos => absurd hpos (lt_irrefl 0)
  · exact fun hpos => absurd hpos (lt_irrefl 0)
  · rw [getTuple_eq, if_neg]
    rw [live_setSlot (hfits.trans h.area)]
    exact fun hdead => absurd hdead.2 (by decide : (1 : UInt8) ≠ 0)

theorem WellFormed.shrink (h : page.WellFormed) {t : ℕ} (hlive : page.Live t) {bs : Bytes}
    (hlen : bs.length ≤ page.extent t) {s : Slot} (hoffset : s.offset = (page.slot t).offset)
    (hsize : s.size.toNat = bs.length) (hdeleted : s.isDeleted = 0) :
    let page' := (page.write (page.start t) bs).setSlot t s
    page'.WellFormed ∧ page'.Live t ∧ page'.tuple t = bs ∧ Keeps page page' t := by
  obtain ⟨hkeeps, hheader, hslot, hread⟩ := h.write_tuple hlive hlen
  have hpage₁ := h.congr hheader hslot
  have hptr : (page.write (page.start t) bs).freeSpacePtr = page.freeSpacePtr := by
    rw [freeSpacePtr, hheader, freeSpacePtr]
  have hstart : s.offset.toNat = page.start t := by rw [hoffset, start]
  have hfits : slotAt t + 6 ≤ (page.write (page.start t) bs).freeSpacePtr := by
    rw [hptr]
    exact h.slot_fits hlive.1
  have hpage : slotAt t + 6 ≤ pageSize := hfits.trans hpage₁.area
  have hinside : 0 < bs.length → page.freeSpacePtr ≤ page.start t ∧ page.start t + bs.length ≤ pageSize := by
    intro hpos
    obtain ⟨hlow, hhigh⟩ := h.inside t ⟨hlive, by omega⟩
    omega
  refine ⟨hpage₁.setSlot hfits ?_ ?_, ?_, ?_, hkeeps.trans (hpage₁.keeps_setSlot hfits _)⟩
  · rw [hsize, hstart, hptr]
    exact hinside
  · rw [hsize, hstart]
    intro hpos i hi hocc
    have hocc := (hkeeps.occupied_iff hi).mp hocc
    have hapart := h.apart t i hi.symm ⟨hlive, by omega⟩ hocc
    rw [start_congr (hslot i hocc.1.1), extent_congr (hslot i hocc.1.1)]
    unfold Apart at *
    omega
  · rw [live_setSlot hpage, slotCount, hheader]
    exact ⟨hlive.1, hdeleted⟩
  · rw [tuple_setSlot hpage, hsize, hstart]
    rcases Nat.eq_zero_or_pos bs.length with hzero | hpos
    · rw [hzero, read_zero, List.length_eq_zero_iff.mp hzero]
    · obtain ⟨hlow, hhigh⟩ := hinside hpos
      rw [read_setSlot _ _ hpage (by omega) hhigh, hread]

structure Stored (page page' : SlottedPage) (payload : Bytes) : Prop where
  slotCount_eq : page'.slotCount = page.slotCount
  ptr : page'.freeSpacePtr + payload.length = page.freeSpacePtr
  slot_eq : ∀ i, slotAt i + 6 ≤ page'.freeSpacePtr → page'.slot i = page.slot i
  read_eq : ∀ off len, page.freeSpacePtr ≤ off → off + len ≤ pageSize → page'.read off len = page.read off len
  payload_eq : page'.read page'.freeSpacePtr payload.length = payload

theorem ptr_sub (page : SlottedPage) {len : ℕ} (hlen : len ≤ page.freeSpacePtr) :
    (page.header.freeSpacePtr - UInt16.ofNat len).toNat = page.freeSpacePtr - len := by
  have hlt := page.header.freeSpacePtr.toNat_lt
  unfold freeSpacePtr at *
  have hsize : (UInt16.ofNat len).toNat = len := by
    rw [UInt16.toNat_ofNat', Nat.mod_eq_of_lt (by omega)]
  rw [UInt16.toNat_sub_of_le _ _ (by rw [UInt16.le_iff_toNat_le, hsize]; exact hlen), hsize]

theorem WellFormed.store (h : page.WellFormed) (payload : Bytes)
    (hlen : 24 + 6 * page.slotCount + payload.length ≤ page.freeSpacePtr) :
    Stored page (page.store payload) payload := by
  have hptr := ptr_sub page (Nat.le_of_add_left_le hlen)
  have harea := h.area
  have hheader : (page.store payload).header =
      { page.header with freeSpacePtr := page.header.freeSpacePtr - UInt16.ofNat payload.length } := by
    rw [SlottedPage.store, header_write _ (by omega) (by omega), header_setHeader]
  have hnew : (page.store payload).freeSpacePtr = page.freeSpacePtr - payload.length := by
    rw [freeSpacePtr, hheader, hptr]
  refine ⟨by rw [slotCount, hheader, slotCount], by omega, fun i hi => ?_, fun off len hoff hend => ?_, ?_⟩
  · rw [hnew] at hi
    rw [SlottedPage.store, slot_write _ (by omega) (by omega) (Or.inl (by omega)), slot_setHeader _ _ (by omega)]
  · rw [SlottedPage.store, read_write_apart _ (by omega) hend (Or.inr (by omega)),
      read_setHeader _ _ (by omega) hend]
  · rw [hnew, SlottedPage.store, ← hptr, read_write_self _ (by omega)]

namespace Stored

variable {page' : SlottedPage} {payload : Bytes} (h : Stored page page' payload)

include h

theorem keeps (hpage : page.WellFormed) (hlen : 24 + 6 * page.slotCount ≤ page'.freeSpacePtr) (t : ℕ) :
    Keeps page page' t := by
  have hslot : ∀ i < page.slotCount, page'.slot i = page.slot i := by
    intro i hi
    apply h.slot_eq
    rw [slotAt_eq]
    omega
  refine ⟨fun i _ => by rw [h.slotCount_eq], fun i hi _ => hslot i hi, fun i _ hocc => ?_⟩
  obtain ⟨hlow, hhigh⟩ := hpage.inside i hocc
  exact tuple_congr (hslot i hocc.1.1) (h.read_eq _ _ hlow hhigh)

theorem wellFormed (hpage : page.WellFormed) (hlen : 24 + 6 * page.slotCount ≤ page'.freeSpacePtr) :
    page'.WellFormed := by
  have hptr := h.ptr
  -- The slot left out is one behind the last, which is never occupied.
  have hkeeps := h.keeps hpage hlen page'.slotCount
  apply hkeeps.wellFormed hpage
  · rw [h.slotCount_eq]
    exact hlen
  · omega
  · exact fun hocc => absurd hocc.1.1 (lt_irrefl _)
  · exact fun _ _ hocc => absurd hocc.1.1 (lt_irrefl _)

theorem start_ge (hpage : page.WellFormed) (hlen : 24 + 6 * page.slotCount ≤ page'.freeSpacePtr) {i : ℕ}
    (hocc : page'.Occupied i) : page.freeSpacePtr ≤ page'.start i := by
  have hkeeps := h.keeps hpage hlen (i + 1)
  have hocc := (hkeeps.occupied_iff (by omega)).mp hocc
  rw [start_congr (hkeeps.slot_eq i hocc.1.1 (by omega))]
  exact (hpage.inside i hocc).1

end Stored

structure Placed (page page' : SlottedPage) (t : ℕ) (s : Slot) (payload : Bytes) : Prop where
  wellFormed : page'.WellFormed
  keeps : Keeps page page' t
  slotCount_eq : page'.slotCount = page.slotCount
  room : slotAt t + 6 ≤ page'.freeSpacePtr
  slot_eq : page'.slot t = s
  start_eq : page'.start t = page'.freeSpacePtr
  stop_le : page'.start t + page'.extent t ≤ pageSize
  behind : ∀ i, i ≠ t → page'.Occupied i → page'.start t + page'.extent t ≤ page'.start i
  tuple_eq : page'.tuple t = payload

theorem Stored.setSlot {page' : SlottedPage} {payload : Bytes} (h : Stored page page' payload) (hpage : page.WellFormed)
    (hlen : 24 + 6 * page.slotCount ≤ page'.freeSpacePtr) {t : ℕ} (ht : slotAt t + 6 ≤ page'.freeSpacePtr) {s : Slot}
    (hoffset : s.offset = page'.header.freeSpacePtr) (hsize : s.size.toNat = payload.length) :
    Placed page (page'.setSlot t s) t s payload := by
  have hpage' := h.wellFormed hpage hlen
  have hkeeps' := hpage'.keeps_setSlot ht s
  have hfits : slotAt t + 6 ≤ pageSize := ht.trans hpage'.area
  have hself := slot_setSlot_self page' s hfits
  have hptr := h.ptr
  have harea := hpage.area
  have hstart : s.offset.toNat = page'.freeSpacePtr := by rw [hoffset, freeSpacePtr]
  have hstart' : (page'.setSlot t s).start t = page'.freeSpacePtr := by rw [start, hself, hstart]
  have hextent' : (page'.setSlot t s).extent t = payload.length := by rw [extent, hself, hsize]
  refine
    { wellFormed := hpage'.setSlot ht (fun _ => by omega) fun _ i hi hocc => ?_
      keeps := (h.keeps hpage hlen t).trans hkeeps'
      slotCount_eq := (slotCount_setSlot s hfits).trans h.slotCount_eq
      room := by rw [freeSpacePtr_setSlot s hfits]; exact ht
      slot_eq := hself
      start_eq := by rw [hstart', freeSpacePtr_setSlot s hfits]
      stop_le := by rw [hstart', hextent', hptr]; exact harea
      behind := fun i hi hocc => ?_
      tuple_eq := ?_ }
  · have hge := h.start_ge hpage hlen hocc
    exact Or.inl (by omega)
  · have hocc := (hkeeps'.occupied_iff hi).mp hocc
    have hge := h.start_ge hpage hlen hocc
    rw [hstart', hextent', start_congr (hkeeps'.slot_eq i hocc.1.1 hi)]
    omega
  · rw [tuple_setSlot hfits, hstart, hsize, read_setSlot _ _ hfits ht (by omega), h.payload_eq]

theorem slotCount_succ {page : SlottedPage} (h : page.slotCount < pageSize) :
    (page.header.slotCount + 1).toNat = page.slotCount + 1 := by
  have hone : (1 : UInt16).toNat = 1 := rfl
  have hsize : pageSize = 4096 := rfl
  rw [UInt16.toNat_add, hone, ← slotCount, Nat.mod_eq_of_lt (by omega)]

theorem Placed.grow {page' : SlottedPage} {s : Slot} {payload : Bytes}
    (h : Placed page page' page'.slotCount s payload) (hdeleted : s.isDeleted = 0) :
    let grown := page'.setHeader { page'.header with slotCount := page'.header.slotCount + 1 }
    grown.WellFormed ∧ Keeps page grown page'.slotCount ∧ grown.Live page'.slotCount ∧
      grown.tuple page'.slotCount = payload := by
  intro grown
  have hpage' := h.wellFormed
  have hroom := h.room
  have harea := hpage'.area
  have hslots := hpage'.slots
  have hstop := h.stop_le
  have hstart := h.start_eq
  rw [slotAt_eq] at hroom
  have hcount : grown.slotCount = page'.slotCount + 1 := by
    rw [slotCount, header_setHeader]
    exact slotCount_succ (by omega)
  have hptr : grown.freeSpacePtr = page'.freeSpacePtr := by rw [freeSpacePtr, header_setHeader, freeSpacePtr]
  have hslot : ∀ i ≤ page'.slotCount, grown.slot i = page'.slot i := by
    intro i hi
    apply slot_setHeader
    rw [slotAt_eq]
    omega
  have hlast := hslot _ le_rfl
  have hkeeps : Keeps page' grown page'.slotCount := by
    refine ⟨fun i hi => by omega, fun i hi _ => hslot i hi.le, fun i _ hocc => ?_⟩
    obtain ⟨hlow, hhigh⟩ := hpage'.inside i hocc
    exact tuple_congr (hslot i hocc.1.1.le) (read_setHeader _ _ (by omega) hhigh)
  refine ⟨hkeeps.wellFormed hpage' (by omega) hptr.le (fun _ => ?_) fun i hi _ hocc => ?_, h.keeps.trans hkeeps,
    ⟨by omega, by rw [hlast, h.slot_eq, hdeleted]⟩, ?_⟩
  · rw [start_congr hlast, extent_congr hlast]
    omega
  · rw [start_congr hlast, extent_congr hlast]
    exact Or.inl (h.behind i hi hocc)
  · rw [tuple_congr hlast (read_setHeader _ _ (by omega) hstop), h.tuple_eq]

theorem Placed.countSlot {page' : SlottedPage} {t : ℕ} {s : Slot} {payload : Bytes}
    (h : Placed page page' t s payload) (hdeleted : s.isDeleted = 0) (ht : t ≤ page.slotCount) :
    (page'.countSlot t).WellFormed ∧ Keeps page (page'.countSlot t) t ∧ (page'.countSlot t).Live t ∧
      (page'.countSlot t).tuple t = payload := by
  have hcount := h.slotCount_eq
  rw [SlottedPage.countSlot]
  split_ifs with hnew
  · subst hnew
    exact h.grow hdeleted
  · exact ⟨h.wellFormed, h.keeps, ⟨by omega, by rw [h.slot_eq, hdeleted]⟩, h.tuple_eq⟩

end SystemLevel.Storage.SlottedPage
