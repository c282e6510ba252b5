import SystemLevel.Foundations.Runs
import SystemLevel.Storage.PageCompaction

namespace SystemLevel.Storage.SlottedPage

open Runs

variable {page : SlottedPage}

theorem makeRoom_spec (h : page.WellFormed) (temp : SlottedPage) (needed : ℕ) :
    (page.makeRoom temp needed).2.WellFormed ∧
      (∀ slotId, (page.makeRoom temp needed).2.getTuple slotId = page.getTuple slotId) ∧
      ((page.makeRoom temp needed).1 = true →
        24 + 6 * (page.makeRoom temp needed).2.slotCount + needed ≤ (page.makeRoom temp needed).2.freeSpacePtr) := by
  obtain ⟨hcompact, -, hget⟩ := compact_spec h temp
  have hfree := h.freeSpace_eq
  have hfree' := hcompact.freeSpace_eq
  have hslots := h.slots
  have hslots' := hcompact.slots
  simp only [makeRoom]
  split_ifs with hshort
  · refine ⟨hcompact, hget, fun hfits => ?_⟩
    have hle := of_decide_eq_true hfits
    change 24 + 6 * (page.compact temp).slotCount + needed ≤ (page.compact temp).freeSpacePtr
    omega
  · refine ⟨h, fun _ => rfl, fun _ => ?_⟩
    change 24 + 6 * page.slotCount + needed ≤ page.freeSpacePtr
    omega

theorem targetSlot_spec (page : SlottedPage) : page.targetSlot ≤ page.slotCount ∧ ¬ page.Live page.targetSlot := by
  unfold targetSlot
  cases hfind : (List.range page.slotCount).find? fun i => decide ((page.slot i).isDeleted ≠ 0) with
  | none => exact ⟨le_rfl, fun hlive => lt_irrefl _ hlive.1⟩
  | some i =>
    have hdeleted : (page.slot i).isDeleted ≠ 0 := by simpa using List.find?_some hfind
    have hrange := List.mem_range.mp (List.mem_of_find?_eq_some hfind)
    exact ⟨hrange.le, fun hlive => hdeleted hlive.2⟩

theorem ofNat_toNat_of_le {n : ℕ} (h : n ≤ pageSize) : (UInt16.ofNat n).toNat = n := by
  have hsize : pageSize = 4096 := rfl
  rw [UInt16.toNat_ofNat', Nat.mod_eq_of_lt (by omega)]

theorem getTuple_of_live {slotId : UInt16} {t : ℕ} (ht : slotId.toNat = t) (hlive : page.Live t) :
    page.getTuple slotId = some (page.tuple t) := by
  subst ht
  rw [getTuple_eq, if_pos hlive]

theorem place_spec (h : page.WellFormed) {payload : Bytes}
    (hroom : 24 + 6 * page.slotCount + (payload.length + 6) ≤ page.freeSpacePtr) :
    (page.place payload).2.WellFormed ∧ page.getTuple (page.place payload).1 = none ∧
      (page.place payload).2.getTuple (page.place payload).1 = some payload ∧
      ∀ other, other ≠ (page.place payload).1 → (page.place payload).2.getTuple other = page.getTuple other := by
  have hstored := h.store payload (by omega)
  have hptr := hstored.ptr
  have harea := h.area
  obtain ⟨htarget, hdead⟩ := targetSlot_spec (page.store payload)
  rw [hstored.slotCount_eq] at htarget
  have hfits : slotAt (page.store payload).targetSlot + 6 ≤ (page.store payload).freeSpacePtr := by
    rw [slotAt_eq]
    omega
  have hplaced : Placed page ((page.store payload).pointTo (page.store payload).targetSlot payload) _ _ payload :=
    hstored.setSlot h (by omega) hfits rfl (ofNat_toNat_of_le (by omega))
  obtain ⟨hwf, hkeeps, hlive, htuple⟩ := hplaced.countSlot rfl htarget
  have hid := ofNat_toNat_of_le (htarget.trans (by omega))
  simp only [place]
  refine ⟨hwf, ?_, ?_, fun other hother => hkeeps.getTuple_eq fun he => hother ?_⟩
  · rw [getTuple_eq, hid, if_neg]
    exact mt (((hstored.keeps h (by omega) _).live_iff (Nat.succ_ne_self _).symm).mpr) hdead
  · rw [getTuple_of_live hid hlive, htuple]
  · exact UInt16.toNat_inj.mp (he.trans hid.symm)

def Sets (page page' : SlottedPage) (target : Option (UInt16 × Option Bytes)) : Prop :=
  page'.WellFormed ∧ (∀ slotId value, target = some (slotId, value) → page'.getTuple slotId = value) ∧
    ∀ other, (∀ value, target ≠ some (other, value)) → page'.getTuple other = page.getTuple other

theorem Sets.none {page' : SlottedPage} (h : page'.WellFormed)
    (hget : ∀ slotId, page'.getTuple slotId = page.getTuple slotId) : Sets page page' none :=
  ⟨h, fun _ _ he => absurd he (Option.some_ne_none _).symm, fun other _ => hget other⟩

theorem Sets.some {page' : SlottedPage} {slotId : UInt16} {value : Option Bytes} (h : page'.WellFormed)
    (hget : page'.getTuple slotId = value)
    (hother : ∀ other, other ≠ slotId → page'.getTuple other = page.getTuple other) :
    Sets page page' (some (slotId, value)) := by
  refine ⟨h, fun id v he => ?_, fun other hne => hother other fun he => hne value (by rw [he])⟩
  obtain ⟨rfl, rfl⟩ := Prod.mk.inj (Option.some.inj he)
  exact hget

theorem insertTuple_eq (temp : SlottedPage) (payload : Bytes) {room : Bool × SlottedPage}
    (hroom : page.makeRoom temp (payload.length + slotCodec.size) = room) :
    page.insertTuple temp payload =
      if room.1 then (some (room.2.place payload).1, (room.2.place payload).2) else (none, room.2) := by
  rw [← hroom, insertTuple]

theorem insertTuple_spec (h : page.WellFormed) (temp : SlottedPage) (payload : Bytes) :
    Sets page (page.insertTuple temp payload).2 ((page.insertTuple temp payload).1.map fun id => (id, some payload)) ∧
      ∀ slotId, (page.insertTuple temp payload).1 = some slotId → page.getTuple slotId = none := by
  have hspec := makeRoom_spec h temp (payload.length + slotCodec.size)
  obtain ⟨⟨fits, page₁⟩, hroom⟩ : ∃ room, page.makeRoom temp (payload.length + slotCodec.size) = room := ⟨_, rfl⟩
  rw [hroom] at hspec
  obtain ⟨hwf₁, hget, hfits⟩ := hspec
  rw [insertTuple_eq temp payload hroom]
  cases fits with
  | true =>
    obtain ⟨hwf, hfresh, hnew, hother⟩ := place_spec hwf₁ (hfits rfl)
    simp only [if_true]
    refine ⟨Sets.some hwf hnew fun other hne => (hother other hne).trans (hget other), fun slotId he => ?_⟩
    rw [← Option.some.inj he, ← hget]
    exact hfresh
  | false =>
    simp only [Bool.false_eq_true, if_false]
    exact ⟨Sets.none hwf₁ hget, fun slotId he => absurd he (Option.some_ne_none _).symm⟩

theorem live_iff_getTuple (slotId : UInt16) : page.Live slotId.toNat ↔ page.getTuple slotId ≠ none := by
  rw [getTuple_eq]
  split_ifs with hlive <;> simp [hlive]

theorem overwrite_spec (h : page.WellFormed) {slotId : UInt16} (hlive : page.Live slotId.toNat) {payload : Bytes}
    (hlen : payload.length ≤ page.extent slotId.toNat) :
    Sets page (page.overwrite slotId.toNat payload) (some (slotId, some payload)) := by
  obtain ⟨-, -, hslot, -⟩ := h.write_tuple hlive hlen
  have hsize : (UInt16.ofNat payload.length).toNat = payload.length := by
    have := (page.slot slotId.toNat).size.toNat_lt
    unfold extent at hlen
    rw [UInt16.toNat_ofNat', Nat.mod_eq_of_lt (by omega)]
  have hsame := hslot _ hlive.1
  rw [start] at hsame
  rw [overwrite, hsame]
  obtain ⟨hwf, hlive', htuple, hkeeps⟩ := h.shrink hlive hlen
    (s := { page.slot slotId.toNat with size := UInt16.ofNat payload.length }) rfl hsize hlive.2
  refine Sets.some hwf ?_ fun other hne => hkeeps.getTuple_eq fun he => hne (UInt16.toNat_inj.mp he)
  exact (getTuple_of_live rfl hlive').trans (congrArg some htuple)

theorem relocate_spec (h : page.WellFormed) {slotId : UInt16} (hlive : page.Live slotId.toNat) {payload : Bytes}
    (hroom : 24 + 6 * page.slotCount + payload.length ≤ page.freeSpacePtr) :
    Sets page (page.relocate slotId.toNat payload) (some (slotId, some payload)) := by
  have hstored := h.store payload hroom
  have hptr := hstored.ptr
  have harea := h.area
  have hlt := hlive.1
  have hfits : slotAt slotId.toNat + 6 ≤ (page.store payload).freeSpacePtr := by
    rw [slotAt_eq]
    omega
  have hplaced : Placed page (page.relocate slotId.toNat payload) slotId.toNat _ payload :=
    hstored.setSlot h (by omega) hfits rfl (ofNat_toNat_of_le (by omega))
  have hlive' : (page.relocate slotId.toNat payload).Live slotId.toNat := by
    refine ⟨by rw [hplaced.slotCount_eq]; exact hlt, ?_⟩
    rw [hplaced.slot_eq, hstored.slot_eq _ hfits, hlive.2]
  refine Sets.some hplaced.wellFormed ?_ fun other hne =>
    hplaced.keeps.getTuple_eq fun he => hne (UInt16.toNat_inj.mp he)
  exact (getTuple_of_live rfl hlive').trans (congrArg some hplaced.tuple_eq)

theorem updateTuple_spec (h : page.WellFormed) (temp : SlottedPage) (slotId : UInt16) (newPayload : Bytes) :
    Sets page (page.updateTuple temp slotId newPayload).2
      (if (page.updateTuple temp slotId newPayload).1 then some (slotId, some newPayload) else none) := by
  by_cases hlive : page.Live slotId.toNat
  · by_cases hshort : newPayload.length ≤ page.extent slotId.toNat
    · have hupdate : page.updateTuple temp slotId newPayload = (true, page.overwrite slotId.toNat newPayload) := by
        rw [updateTuple, if_pos hlive]
        exact if_pos hshort
      rw [hupdate, if_pos rfl]
      exact overwrite_spec h hlive hshort
    · obtain ⟨hwf, hget, hfits⟩ := makeRoom_spec h temp newPayload.length
      have hupdate : page.updateTuple temp slotId newPayload =
          if (page.makeRoom temp newPayload.length).1
          then (true, (page.makeRoom temp newPayload.length).2.relocate slotId.toNat newPayload)
          else (false, (page.makeRoom temp newPayload.length).2) := by
        rw [updateTuple, if_pos hlive]
        exact if_neg hshort
      by_cases hfit : (page.makeRoom temp newPayload.length).1 = true
      · have hlive' : (page.makeRoom temp newPayload.length).2.Live slotId.toNat := by
          rw [live_iff_getTuple, hget, ← live_iff_getTuple]
          exact hlive
        obtain ⟨hwf', hnew, hother⟩ := relocate_spec hwf hlive' (hfits hfit)
        rw [hupdate, if_pos hfit]
        exact ⟨hwf', hnew, fun other hne => (hother other hne).trans (hget other)⟩
      · rw [hupdate, if_neg hfit]
        exact Sets.none hwf hget
  · rw [updateTuple, if_neg hlive]
    exact Sets.none h fun _ => rfl

theorem deleteTuple_sets (h : page.WellFormed) (slotId : UInt16) :
    Sets page (page.deleteTuple slotId).2 (if (page.deleteTuple slotId).1 then some (slotId, none) else none) := by
  by_cases hlive : page.Live slotId.toNat
  · obtain ⟨htrue, hwf, hnone, hkeeps⟩ := deleteTuple_spec h hlive
    rw [if_pos htrue]
    exact Sets.some hwf hnone fun other hne => hkeeps.getTuple_eq fun he => hne (UInt16.toNat_inj.mp he)
  · rw [deleteTuple, if_neg hlive]
    exact Sets.none h fun _ => rfl

theorem init_spec (pageId : UInt64) : (init pageId).WellFormed ∧ ∀ i, ¬ (init pageId).Live i := by
  have hheader : (init pageId).header = { pageId, freeSpacePtr := UInt16.ofNat pageSize } := header_setHeader _ _
  have hcount : (init pageId).slotCount = 0 := by
    rw [slotCount, hheader]
    rfl
  have hptr : (init pageId).freeSpacePtr = pageSize := by
    rw [freeSpacePtr, hheader]
    rfl
  have hfree : ∀ i, ¬ (init pageId).Live i := fun i hlive => absurd hlive.1 (by omega)
  refine ⟨⟨?_, hptr.le, fun i hocc => absurd hocc.1 (hfree i), fun i _ _ hocc => absurd hocc.1 (hfree i)⟩, hfree⟩
  rw [hcount, hptr]
  decide

inductive Op
  | insertTuple (payload : Bytes) (temp : SlottedPage)
  | updateTuple (slotId : UInt16) (newPayload : Bytes) (temp : SlottedPage)
  | deleteTuple (slotId : UInt16)
  | compact (temp : SlottedPage)
  | getTuple (slotId : UInt16)

def step (page : SlottedPage) : Op → SlottedPage
  | .insertTuple payload temp => (page.insertTuple temp payload).2
  | .updateTuple slotId newPayload temp => (page.updateTuple temp slotId newPayload).2
  | .deleteTuple slotId => (page.deleteTuple slotId).2
  | .compact temp => page.compact temp
  | .getTuple _ => page

def Op.target (page : SlottedPage) : Op → Option (UInt16 × Option Bytes)
  | .insertTuple payload temp => (page.insertTuple temp payload).1.map fun id => (id, some payload)
  | .updateTuple slotId newPayload temp =>
    if (page.updateTuple temp slotId newPayload).1 then some (slotId, some newPayload) else none
  | .deleteTuple slotId => if (page.deleteTuple slotId).1 then some (slotId, none) else none
  | .compact _ | .getTuple _ => none

theorem step_sets (h : page.WellFormed) (op : Op) : Sets page (page.step op) (op.target page) := by
  cases op with
  | insertTuple payload temp => exact (insertTuple_spec h temp payload).1
  | updateTuple slotId newPayload temp => exact updateTuple_spec h temp slotId newPayload
  | deleteTuple slotId => exact deleteTuple_sets h slotId
  | compact temp =>
    obtain ⟨hwf, -, hget⟩ := compact_spec h temp
    exact Sets.none hwf hget
  | getTuple slotId => exact Sets.none h fun _ => rfl

abbrev Contents := UInt16 → Option Bytes

def Contents.set (m : Contents) : Option (UInt16 × Option Bytes) → Contents
  | none => m
  | some (slotId, value) => Function.update m slotId value

structure Tracked where
  page : SlottedPage
  contents : Contents

def Tracked.step (t : Tracked) (op : Op) : Tracked :=
  { page := t.page.step op, contents := t.contents.set (op.target t.page) }

abbrev track (pageId : UInt64) (ops : List Op) : Tracked :=
  Runs.run Tracked.step { page := init pageId, contents := fun _ => none } ops

theorem Sets.contents {page' : SlottedPage} {target : Option (UInt16 × Option Bytes)} (h : Sets page page' target)
    {m : Contents} (hm : ∀ slotId, page.getTuple slotId = m slotId) (slotId : UInt16) :
    page'.getTuple slotId = m.set target slotId := by
  obtain ⟨-, hset, hother⟩ := h
  cases target with
  | none => rw [hother slotId fun _ he => absurd he.symm (Option.some_ne_none _), hm, Contents.set]
  | some target =>
    obtain ⟨id, value⟩ := target
    rw [Contents.set, Function.update_apply]
    split_ifs with hid
    · rw [hid, hset id value rfl]
    · rw [hother slotId fun v he => hid (congrArg Prod.fst (Option.some.inj he)).symm, hm]

theorem track_spec (pageId : UInt64) (ops : List Op) :
    (track pageId ops).page.WellFormed ∧
      ∀ slotId, (track pageId ops).page.getTuple slotId = (track pageId ops).contents slotId := by
  induction ops using List.reverseRecOn with
  | nil =>
    obtain ⟨hwf, hfree⟩ := init_spec pageId
    exact ⟨hwf, fun slotId => if_neg (hfree slotId.toNat)⟩
  | append_singleton ops op ih =>
    rw [track, run_snoc]
    have hsets := step_sets ih.1 op
    exact ⟨hsets.1, hsets.contents ih.2⟩

theorem page_refines_map (pageId : UInt64) (ops : List Op) :
    let page := (track pageId ops).page
    (∀ slotId, page.getTuple slotId = (track pageId ops).contents slotId) ∧
      (∀ payload temp slotId, (page.insertTuple temp payload).1 = some slotId → page.getTuple slotId = none) ∧
      (∀ (op : Op) slotId, (∀ value, op.target page ≠ some (slotId, value)) →
        (page.step op).getTuple slotId = page.getTuple slotId) ∧
      24 + 6 * page.slotCount ≤ page.freeSpacePtr ∧ page.freeSpacePtr ≤ 4096 ∧
      (∀ i, page.Occupied i → page.freeSpacePtr ≤ page.start i ∧ page.start i + page.extent i ≤ 4096) ∧
      ∀ i j, i ≠ j → page.Occupied i → page.Occupied j →
        Apart (page.start i) (page.extent i) (page.start j) (page.extent j) := by
  obtain ⟨hwf, hget⟩ := track_spec pageId ops
  exact ⟨hget, fun payload temp => (insertTuple_spec hwf temp payload).2, fun op => (step_sets hwf op).2.2,
    hwf.slots, hwf.area, hwf.inside, hwf.apart⟩

end SystemLevel.Storage.SlottedPage
