import SystemLevel.Storage.PoolLedger

namespace SystemLevel.Storage.BufferPoolManager

open Runs

structure Transparent (l : Ledger) : Prop where
  consistent : l.pool.Consistent
  next : l.pool.disk.nextPageId.toNat ≤ 2 ^ 51
  created : ∀ pageId, l.created pageId = true ↔ pageId.toNat < l.pool.disk.nextPageId.toNat
  resident : ∀ pageId f, l.pool.pageTable.lookup pageId = some f → l.created pageId = true
  inFrame : ∀ pageId f, l.pool.pageTable.lookup pageId = some f → l.standing pageId ≠ .lost →
    l.pool.pages f = l.contents pageId
  pinned : ∀ pageId, l.unsaved pageId = true → ∃ f, l.pool.pageTable.lookup pageId = some f ∧
    0 < (l.pool.frames f).pinCount
  clean : ∀ pageId f, l.pool.pageTable.lookup pageId = some f → l.standing pageId = .kept →
    (l.pool.frames f).isDirty = false → l.unsaved pageId = false → l.pool.disk.Stored pageId (l.contents pageId)
  onDisk : ∀ pageId, l.created pageId = true → l.pool.pageTable.lookup pageId = none →
    l.standing pageId ≠ .fresh ∧ (l.standing pageId = .kept → l.pool.disk.Stored pageId (l.contents pageId))

namespace Transparent

variable {l : Ledger} (h : Transparent l)

include h

theorem lt_of_created {pageId : UInt64} (hcreated : l.created pageId = true) : pageId.toNat < 2 ^ 51 :=
  ((h.created pageId).mp hcreated).trans_le h.next

theorem valid_of_created {pageId : UInt64} (hcreated : l.created pageId = true) : pageId ≠ invalidPageId := by
  rintro rfl
  exact absurd (h.lt_of_created hcreated) (by decide)

theorem saved_of_unpinned {pageId : UInt64} {f : FrameId} (hlookup : l.pool.pageTable.lookup pageId = some f)
    (hpin : (l.pool.frames f).pinCount = 0) : l.unsaved pageId = false := by
  rw [← Bool.not_eq_true]
  intro hunsaved
  obtain ⟨g, hg, hpos⟩ := h.pinned pageId hunsaved
  obtain rfl := Option.some.inj (hlookup.symm.trans hg)
  exact hpos.ne' hpin

theorem writeOut_stored {pageId other : UInt64} {f : FrameId} {page : SlottedPage}
    (hcreated : l.created pageId = true) (hother : l.pool.pageTable.lookup other = some f) (hne : pageId ≠ other)
    (hstored : l.pool.disk.Stored pageId page) : (l.pool.writeOut other f).disk.Stored pageId page :=
  hstored.writePage (DiskManager.not_collide_of_lt (h.lt_of_created hcreated)
    (h.lt_of_created (h.resident other f hother)) hne)

theorem vacate_stored {f : FrameId} (havailable : l.pool.Available f) {pageId : UInt64}
    (hcreated : l.created pageId = true) (hkept : l.standing pageId = .kept)
    (hstored : l.pool.pageTable.lookup pageId ≠ some f → l.pool.disk.Stored pageId (l.contents pageId)) :
    (l.pool.vacate f).disk.Stored pageId (l.contents pageId) := by
  unfold vacate
  split_ifs with hinvalid
  · apply hstored
    intro hlookup
    obtain ⟨-, hpage, hvalid⟩ := (h.consistent.table pageId f).mp hlookup
    exact hvalid (hpage.symm.trans hinvalid)
  · have hold : l.pool.pageTable.lookup (l.pool.frames f).pageId = some f :=
      (h.consistent.table _ f).mpr ⟨havailable.1, rfl, hinvalid⟩
    change (l.pool.writeBack (l.pool.frames f).pageId f).disk.Stored _ _
    unfold writeBack
    by_cases hself : pageId = (l.pool.frames f).pageId
    · rw [← hself] at hold ⊢
      split_ifs with hdirty
      · have hpages := h.inFrame pageId f hold (by rw [hkept]; decide)
        rw [← hpages]
        exact DiskManager.stored_writePage _ _ _
      · apply h.clean pageId f hold hkept (Bool.eq_false_of_not_eq_true hdirty)
        exact h.saved_of_unpinned hold havailable.2
    · have hrest := hstored fun hlookup => hself ((h.consistent.table pageId f).mp hlookup).2.1.symm
      split_ifs
      · exact h.writeOut_stored hcreated hold hself hrest
      · exact hrest

end Transparent

structure Ledger.Loaded (l l' : Ledger) (f : FrameId) (pageId : UInt64) (page : SlottedPage) : Prop where
  loads : Loads l.pool l'.pool f pageId page
  miss : l.pool.pageTable.lookup pageId = none
  contents_eq : ∀ q, q ≠ pageId → l'.contents q = l.contents q
  standing_eq : ∀ q, q ≠ pageId → l'.standing q = l.lose l'.pool q
  unsaved_eq : ∀ q, q ≠ pageId → l'.unsaved q = l.unsaved q
  created_eq : ∀ q, q ≠ pageId → l'.created q = l.created q

namespace Ledger.Loaded

variable {l l' : Ledger} {f g : FrameId} {pageId q : UInt64} {page : SlottedPage} (h : l.Loaded l' f pageId page)

include h

theorem lookup_self : l'.pool.pageTable.lookup pageId = some f := by
  rw [h.loads.lookup_eq, if_pos rfl]

theorem lookup_other (hl : Transparent l) (hq : q ≠ pageId) (hlookup : l'.pool.pageTable.lookup q = some g) :
    l.pool.pageTable.lookup q = some g ∧ l'.pool.frames g = l.pool.frames g ∧ l'.pool.pages g = l.pool.pages g ∧
      l'.standing q = l.standing q := by
  have hstanding := h.standing_eq q hq
  rw [Ledger.lose, hlookup, if_neg fun hlost => Option.some_ne_none g hlost.2] at hstanding
  rw [h.loads.lookup_eq, if_neg hq] at hlookup
  split_ifs at hlookup with hold
  have hg : g ≠ f := by
    rintro rfl
    exact hold ((hl.consistent.table q g).mp hlookup).2.1.symm
  refine ⟨hlookup, ?_, ?_, hstanding⟩
  · rw [h.loads.frame_other hg]
  · rw [h.loads.pages_eq, Function.update_of_ne hg]

theorem stored (hl : Transparent l) (hq : l.created q = true) (hkept : l.standing q = .kept)
    (hstored : l.pool.pageTable.lookup q ≠ some f → l.pool.disk.Stored q (l.contents q)) :
    l'.pool.disk.Stored q (l.contents q) := by
  have hvacate := hl.vacate_stored h.loads.available hq hkept hstored
  rw [DiskManager.Stored] at hvacate ⊢
  rw [h.loads.file_eq]
  exact hvacate

theorem onDisk (hl : Transparent l) (hq : q ≠ pageId) (hcreated : l.created q = true)
    (hnone : l'.pool.pageTable.lookup q = none) :
    l'.standing q ≠ .fresh ∧ (l'.standing q = .kept → l'.pool.disk.Stored q (l'.contents q)) := by
  rw [h.standing_eq q hq, h.contents_eq q hq, Ledger.lose, hnone]
  by_cases hfresh : l.standing q = .fresh
  · rw [if_pos ⟨hfresh, rfl⟩]
    exact ⟨by decide, fun hkept => absurd hkept (by decide)⟩
  · rw [if_neg fun hlost => hfresh hlost.1]
    refine ⟨hfresh, fun hkept => h.stored hl hcreated hkept fun hne => ?_⟩
    rw [h.loads.lookup_eq, if_neg hq] at hnone
    split_ifs at hnone with hold
    · have hlookup := (hl.consistent.table q f).mpr ⟨h.loads.available.1, hold.symm, hl.valid_of_created hcreated⟩
      exact absurd hlookup hne
    · exact (hl.onDisk q hcreated hnone).2 hkept

theorem transparent (hl : Transparent l) (hnext : l'.pool.disk.nextPageId.toNat ≤ 2 ^ 51)
    (hcreated : ∀ q, l'.created q = true ↔ q.toNat < l'.pool.disk.nextPageId.toNat)
    (hself : l'.created pageId = true) (hsaved : l'.unsaved pageId = false)
    (hpage : l'.standing pageId ≠ .lost → page = l'.contents pageId)
    (hstored : l'.standing pageId = .kept → l'.pool.disk.Stored pageId (l'.contents pageId)) : Transparent l' := by
  have hvalid : pageId ≠ invalidPageId := by
    rintro rfl
    have hlt := ((hcreated _).mp hself).trans_le hnext
    exact absurd hlt (by decide)
  refine
    { consistent := h.loads.consistent hl.consistent h.miss hvalid
      next := hnext
      created := hcreated
      resident := fun q g hlookup => ?_
      inFrame := fun q g hlookup hkept => ?_
      pinned := fun q hunsaved => ?_
      clean := fun q g hlookup hkept hdirty hunsaved => ?_
      onDisk := fun q hq hnone => ?_ }
  · by_cases hq : q = pageId
    · rw [hq, hself]
    · rw [h.created_eq q hq]
      exact hl.resident q g (h.lookup_other hl hq hlookup).1
  · by_cases hq : q = pageId
    · subst hq
      obtain rfl := Option.some.inj (h.lookup_self.symm.trans hlookup)
      rw [h.loads.pages_eq, Function.update_self]
      exact hpage hkept
    · obtain ⟨hlookup, -, hpages, hstanding⟩ := h.lookup_other hl hq hlookup
      rw [hpages, h.contents_eq q hq]
      exact hl.inFrame q g hlookup (hstanding ▸ hkept)
  · have hq : q ≠ pageId := by
      rintro rfl
      exact absurd (hsaved.symm.trans hunsaved) (by decide)
    rw [h.unsaved_eq q hq] at hunsaved
    obtain ⟨g, hlookup, hpin⟩ := hl.pinned q hunsaved
    have hg : g ≠ f := by
      rintro rfl
      exact hpin.ne' h.loads.available.2
    have hold : q ≠ (l.pool.frames f).pageId := by
      intro hold
      obtain ⟨-, -, hne⟩ := (hl.consistent.table q g).mp hlookup
      have hf := (hl.consistent.table q f).mpr ⟨h.loads.available.1, hold.symm, hne⟩
      exact hg (Option.some.inj (hlookup.symm.trans hf))
    refine ⟨g, ?_, ?_⟩
    · rw [h.loads.lookup_eq, if_neg hq, if_neg hold, hlookup]
    · rw [h.loads.frame_other hg]
      exact hpin
  · by_cases hq : q = pageId
    · rw [hq] at hkept ⊢
      exact hstored hkept
    · obtain ⟨hlookup, hframe, -, hstanding⟩ := h.lookup_other hl hq hlookup
      rw [hframe] at hdirty
      rw [hstanding] at hkept
      rw [h.unsaved_eq q hq] at hunsaved
      rw [h.contents_eq q hq]
      exact h.stored hl (hl.resident q g hlookup) hkept fun _ => hl.clean q g hlookup hkept hdirty hunsaved
  · have hne : q ≠ pageId := by
      rintro rfl
      exact absurd (h.lookup_self.symm.trans hnone) (Option.some_ne_none f)
    rw [h.created_eq q hne] at hq
    exact h.onDisk hl hne hq hnone

end Ledger.Loaded

end SystemLevel.Storage.BufferPoolManager
