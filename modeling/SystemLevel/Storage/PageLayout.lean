import SystemLevel.Storage.SlottedPage

namespace SystemLevel.Storage.SlottedPage

variable (page : SlottedPage)

theorem slotAt_eq (i : ℕ) : slotAt i = 24 + i * 6 := rfl

theorem bytes_write {off : ℕ} {bs : Bytes} (h : off + bs.length ≤ pageSize) :
    (page.write off bs).bytes = splice page.bytes off bs := by
  rw [write]
  apply List.take_of_length_le
  rw [Buffers.length_splice, page.length_bytes]
  omega

theorem read_zero (off : ℕ) : page.read off 0 = [] := by
  rw [read, slice, List.take_zero]

theorem read_write_self {off : ℕ} {bs : Bytes} (h : off + bs.length ≤ pageSize) :
    (page.write off bs).read off bs.length = bs := by
  rw [read, bytes_write page h, Buffers.slice_splice_self]

theorem read_write_inside {off i len : ℕ} {bs : Bytes} (h : off + bs.length ≤ pageSize) (hi : off ≤ i)
    (hlen : i + len ≤ off + bs.length) : (page.write off bs).read i len = slice bs (i - off) len := by
  rw [read, bytes_write page h, Buffers.slice_splice_inside _ _ _ hi hlen]

theorem read_write_apart {off i len : ℕ} {bs : Bytes} (h : off + bs.length ≤ pageSize) (hlen : i + len ≤ pageSize)
    (hapart : Apart i len off bs.length) : (page.write off bs).read i len = page.read i len := by
  rw [read, bytes_write page h, Buffers.slice_splice_apart (by rw [page.length_bytes]; exact hlen) hapart, read]

theorem header_write {off : ℕ} {bs : Bytes} (h : off + bs.length ≤ pageSize) (hoff : 24 ≤ off) :
    (page.write off bs).header = page.header := by
  rw [header, header, bytes_write page h]
  apply headerCodec.load_splice_apart
  · rw [page.length_bytes]
    decide
  · exact Or.inl hoff

theorem slot_write {off i : ℕ} {bs : Bytes} (h : off + bs.length ≤ pageSize) (hi : slotAt i + 6 ≤ pageSize)
    (hapart : Apart (slotAt i) 6 off bs.length) : (page.write off bs).slot i = page.slot i := by
  rw [slot, slot, bytes_write page h]
  apply slotCodec.load_splice_apart
  · rw [page.length_bytes]
    exact hi
  · exact hapart

theorem encode_header_length (hdr : Header) : (headerCodec.encode hdr).length = 24 := headerCodec.encode_length hdr

theorem encode_slot_length (s : Slot) : (slotCodec.encode s).length = 6 := slotCodec.encode_length s

@[simp] theorem header_setHeader (hdr : Header) : (page.setHeader hdr).header = hdr := by
  rw [setHeader, header, bytes_write page (by rw [encode_header_length]; decide)]
  exact headerCodec.load_store page.bytes 0 hdr

theorem slot_setHeader (hdr : Header) {i : ℕ} (hi : slotAt i + 6 ≤ pageSize) :
    (page.setHeader hdr).slot i = page.slot i := by
  apply slot_write page (by rw [encode_header_length]; decide) hi
  rw [encode_header_length, slotAt_eq]
  exact Or.inr (by omega)

theorem read_setHeader (hdr : Header) {off len : ℕ} (hoff : 24 ≤ off) (hlen : off + len ≤ pageSize) :
    (page.setHeader hdr).read off len = page.read off len := by
  apply read_write_apart page (by rw [encode_header_length]; decide) hlen
  rw [encode_header_length]
  exact Or.inr hoff

section

variable (s : Slot) {i : ℕ} (hi : slotAt i + 6 ≤ pageSize)

include hi

theorem slot_setSlot_self : (page.setSlot i s).slot i = s := by
  rw [setSlot, slot, bytes_write page (by rw [encode_slot_length]; exact hi)]
  exact slotCodec.load_store page.bytes _ s

theorem slot_setSlot_ne {j : ℕ} (hj : slotAt j + 6 ≤ pageSize) (hne : j ≠ i) :
    (page.setSlot i s).slot j = page.slot j := by
  apply slot_write page (by rw [encode_slot_length]; exact hi) hj
  rw [encode_slot_length, Apart, slotAt_eq, slotAt_eq]
  omega

theorem header_setSlot : (page.setSlot i s).header = page.header :=
  header_write page (by rw [encode_slot_length]; exact hi) (by rw [slotAt_eq]; omega)

theorem read_setSlot {off len : ℕ} (hoff : slotAt i + 6 ≤ off) (hlen : off + len ≤ pageSize) :
    (page.setSlot i s).read off len = page.read off len := by
  apply read_write_apart page (by rw [encode_slot_length]; exact hi) hlen
  rw [encode_slot_length]
  exact Or.inr hoff

end

def start (i : ℕ) : ℕ := (page.slot i).offset.toNat

def extent (i : ℕ) : ℕ := (page.slot i).size.toNat

def tuple (i : ℕ) : Bytes := page.read (page.start i) (page.extent i)

theorem getTuple_eq (slotId : UInt16) :
    page.getTuple slotId = if page.Live slotId.toNat then some (page.tuple slotId.toNat) else none := rfl

def Occupied (i : ℕ) : Prop := page.Live i ∧ 0 < page.extent i

instance (i : ℕ) : Decidable (page.Occupied i) := inferInstanceAs (Decidable (_ ∧ _))

structure WellFormed : Prop where
  slots : 24 + 6 * page.slotCount ≤ page.freeSpacePtr
  area : page.freeSpacePtr ≤ pageSize
  inside : ∀ i, page.Occupied i → page.freeSpacePtr ≤ page.start i ∧ page.start i + page.extent i ≤ pageSize
  apart : ∀ i j, i ≠ j → page.Occupied i → page.Occupied j →
    Apart (page.start i) (page.extent i) (page.start j) (page.extent j)

variable {page}

theorem WellFormed.slot_fits (h : page.WellFormed) {i : ℕ} (hi : i < page.slotCount) :
    slotAt i + 6 ≤ page.freeSpacePtr := by
  have hslots := h.slots
  rw [slotAt_eq]
  omega

theorem start_congr {page' : SlottedPage} {i : ℕ} (hslot : page'.slot i = page.slot i) :
    page'.start i = page.start i := by
  rw [start, hslot, start]

theorem extent_congr {page' : SlottedPage} {i : ℕ} (hslot : page'.slot i = page.slot i) :
    page'.extent i = page.extent i := by
  rw [extent, hslot, extent]

theorem tuple_congr {page' : SlottedPage} {i : ℕ} (hslot : page'.slot i = page.slot i)
    (hread : page'.read (page.start i) (page.extent i) = page.tuple i) : page'.tuple i = page.tuple i := by
  rw [tuple, start_congr hslot, extent_congr hslot]
  exact hread

theorem WellFormed.congr {page' : SlottedPage} (h : page.WellFormed) (hheader : page'.header = page.header)
    (hslot : ∀ i < page.slotCount, page'.slot i = page.slot i) : page'.WellFormed := by
  have hcount : page'.slotCount = page.slotCount := by rw [slotCount, hheader, slotCount]
  have hptr : page'.freeSpacePtr = page.freeSpacePtr := by rw [freeSpacePtr, hheader, freeSpacePtr]
  have hocc : ∀ i, page'.Occupied i → page.Occupied i ∧ page'.slot i = page.slot i := by
    intro i hi
    have hlt : i < page.slotCount := hcount ▸ hi.1.1
    rw [Occupied, Live, extent, hslot i hlt] at hi
    exact ⟨⟨⟨hlt, hi.1.2⟩, hi.2⟩, hslot i hlt⟩
  refine ⟨by rw [hcount, hptr]; exact h.slots, by rw [hptr]; exact h.area, fun i hi => ?_, fun i j hij hi hj => ?_⟩
  · obtain ⟨hi, he⟩ := hocc i hi
    rw [hptr, start, extent, he]
    exact h.inside i hi
  · obtain ⟨hi, hei⟩ := hocc i hi
    obtain ⟨hj, hej⟩ := hocc j hj
    rw [start, extent, start, extent, hei, hej]
    exact h.apart i j hij hi hj

structure Keeps (page page' : SlottedPage) (t : ℕ) : Prop where
  count : ∀ i, i ≠ t → (i < page'.slotCount ↔ i < page.slotCount)
  slot_eq : ∀ i < page.slotCount, i ≠ t → page'.slot i = page.slot i
  tuple_eq : ∀ i, i ≠ t → page.Occupied i → page'.tuple i = page.tuple i

namespace Keeps

variable {page' : SlottedPage} {t : ℕ} (h : Keeps page page' t)

include h

theorem live_iff {i : ℕ} (hi : i ≠ t) : page'.Live i ↔ page.Live i := by
  rw [Live, Live, h.count i hi]
  refine and_congr_right fun hcount => ?_
  rw [h.slot_eq i hcount hi]

theorem occupied_iff {i : ℕ} (hi : i ≠ t) : page'.Occupied i ↔ page.Occupied i := by
  rw [Occupied, Occupied, h.live_iff hi]
  refine and_congr_right fun hlive => ?_
  rw [extent, extent, h.slot_eq i hlive.1 hi]

theorem getTuple_eq {slotId : UInt16} (hne : slotId.toNat ≠ t) : page'.getTuple slotId = page.getTuple slotId := by
  rw [SlottedPage.getTuple_eq, SlottedPage.getTuple_eq]
  by_cases hlive : page.Live slotId.toNat
  · rw [if_pos hlive, if_pos ((h.live_iff hne).mpr hlive)]
    rcases Nat.eq_zero_or_pos (page.extent slotId.toNat) with hzero | hpos
    · have hzero' : page'.extent slotId.toNat = 0 := by
        rw [extent, h.slot_eq _ hlive.1 hne]
        exact hzero
      rw [tuple, tuple, hzero, hzero', read_zero, read_zero]
    · rw [h.tuple_eq _ hne ⟨hlive, hpos⟩]
  · rw [if_neg hlive, if_neg (mt (h.live_iff hne).mp hlive)]

theorem wellFormed (hpage : page.WellFormed) (hslots : 24 + 6 * page'.slotCount ≤ page'.freeSpacePtr)
    (hptr : page'.freeSpacePtr ≤ page.freeSpacePtr)
    (hinside : page'.Occupied t → page'.freeSpacePtr ≤ page'.start t ∧ page'.start t + page'.extent t ≤ pageSize)
    (hapart : ∀ i, i ≠ t → page'.Occupied t → page.Occupied i →
      Apart (page'.start t) (page'.extent t) (page.start i) (page.extent i)) : page'.WellFormed := by
  have hslot : ∀ i, i ≠ t → page.Occupied i → page'.start i = page.start i ∧ page'.extent i = page.extent i := by
    intro i hi hocc
    rw [start, extent, h.slot_eq i hocc.1.1 hi]
    exact ⟨rfl, rfl⟩
  refine ⟨hslots, hptr.trans hpage.area, fun i hocc => ?_, fun i j hij hi hj => ?_⟩
  · by_cases hi : i = t
    · rw [hi] at hocc ⊢
      exact hinside hocc
    · have hocc := (h.occupied_iff hi).mp hocc
      obtain ⟨hstart, hextent⟩ := hslot i hi hocc
      obtain ⟨hlow, hhigh⟩ := hpage.inside i hocc
      rw [hstart, hextent]
      exact ⟨hptr.trans hlow, hhigh⟩
  · by_cases hit : i = t
    · have hjt : j ≠ t := fun he => hij (hit.trans he.symm)
      have hj := (h.occupied_iff hjt).mp hj
      obtain ⟨hstart, hextent⟩ := hslot j hjt hj
      rw [hit] at hi ⊢
      rw [hstart, hextent]
      exact hapart j hjt hi hj
    · have hi := (h.occupied_iff hit).mp hi
      obtain ⟨hstart, hextent⟩ := hslot i hit hi
      rw [hstart, hextent]
      by_cases hjt : j = t
      · rw [hjt] at hj ⊢
        exact (hapart i hit hj hi).symm
      · have hj := (h.occupied_iff hjt).mp hj
        obtain ⟨hstart', hextent'⟩ := hslot j hjt hj
        rw [hstart', hextent']
        exact hpage.apart i j hij hi hj

end Keeps

end SystemLevel.Storage.SlottedPage
