import SystemLevel.Storage.PoolLoading

namespace SystemLevel.Storage.BufferPoolManager

open Runs

namespace Transparent

variable {l : Ledger} (h : Transparent l)

include h

theorem lose : Transparent { l with standing := l.lose l.pool } := by
  have hsame : ∀ {q f}, l.pool.pageTable.lookup q = some f → l.lose l.pool q = l.standing q := by
    intro q f hlookup
    rw [Ledger.lose, if_neg]
    exact fun hlost => Option.some_ne_none f (hlookup.symm.trans hlost.2)
  refine { h with
    inFrame := fun q f hlookup hkept => ?_
    clean := fun q f hlookup hkept => ?_
    onDisk := fun q hq hnone => ?_ }
  · exact h.inFrame q f hlookup (hsame hlookup ▸ hkept)
  · exact h.clean q f hlookup (hsame hlookup ▸ hkept)
  · obtain ⟨hfresh, hstored⟩ := h.onDisk q hq hnone
    have heq : l.lose l.pool q = l.standing q := if_neg fun hlost => hfresh hlost.1
    change l.lose l.pool q ≠ _ ∧ (l.lose l.pool q = _ → _)
    rw [heq]
    exact ⟨hfresh, hstored⟩

theorem keep {pageId : UInt64} {f : FrameId} (hlookup : l.pool.pageTable.lookup pageId = some f)
    (hsafe : (l.pool.frames f).isDirty = false → l.standing pageId ≠ .lost →
      l.pool.disk.Stored pageId (l.contents pageId)) : Transparent { l with standing := l.keep pageId } := by
  unfold Ledger.keep
  split_ifs with hfresh
  · have hne : l.standing pageId ≠ .lost := by rw [hfresh]; decide
    have hsame : ∀ {q}, q ≠ pageId → Function.update l.standing pageId .kept q = l.standing q :=
      fun he => Function.update_of_ne he _ _
    refine { h with
      inFrame := fun q g hq hkept => ?_
      clean := fun q g hq hkept => ?_
      onDisk := fun q hcreated hnone => ?_ }
    · by_cases he : q = pageId
      · rw [he] at hq ⊢
        exact h.inFrame pageId g hq hne
      · exact h.inFrame q g hq fun hlost => hkept ((hsame he).trans hlost)
    · by_cases he : q = pageId
      · rw [he] at hq ⊢
        obtain rfl := Option.some.inj (hlookup.symm.trans hq)
        exact fun hclean _ => hsafe hclean hne
      · exact h.clean q g hq ((hsame he).symm.trans hkept)
    · have he : q ≠ pageId := by
        rintro rfl
        exact Option.some_ne_none f (hlookup.symm.trans hnone)
      have hdisk := h.onDisk q hcreated hnone
      rwa [← hsame he] at hdisk
  · exact h

theorem writeOut {pageId : UInt64} {f : FrameId} (hlookup : l.pool.pageTable.lookup pageId = some f) :
    Transparent { l with pool := l.pool.writeOut pageId f } := by
  have hrests := writeOut_rests l.pool pageId f
  refine
    { consistent := hrests.consistent h.consistent
      next := h.next
      created := h.created
      resident := h.resident
      inFrame := h.inFrame
      pinned := fun q hq => ?_
      clean := fun q g hq hkept hdirty hsaved => ?_
      onDisk := fun q hcreated hnone => ?_ }
  · obtain ⟨g, hg, hpin⟩ := h.pinned q hq
    exact ⟨g, hg, by rw [hrests.pinCount_eq]; exact hpin⟩
  · by_cases he : q = pageId
    · subst he
      obtain rfl := Option.some.inj (hlookup.symm.trans hq)
      rw [← h.inFrame q f hlookup (by rw [hkept]; decide)]
      exact DiskManager.stored_writePage _ _ _
    · have hg : g ≠ f := by
        rintro rfl
        exact he (h.consistent.page_eq hq hlookup)
      rw [writeOut_isDirty, if_neg hg] at hdirty
      exact h.writeOut_stored (h.resident q g hq) hlookup he (h.clean q g hq hkept hdirty hsaved)
  · have he : q ≠ pageId := by
      rintro rfl
      exact Option.some_ne_none f (hlookup.symm.trans hnone)
    obtain ⟨hfresh, hstored⟩ := h.onDisk q hcreated hnone
    exact ⟨hfresh, fun hkept => h.writeOut_stored hcreated hlookup he (hstored hkept)⟩

theorem writeBack {pageId : UInt64} {f : FrameId} (hlookup : l.pool.pageTable.lookup pageId = some f) :
    Transparent { l with pool := l.pool.writeBack pageId f } := by
  unfold BufferPoolManager.writeBack
  split_ifs
  · exact h.writeOut hlookup
  · exact h

theorem repins {pool' : BufferPoolManager} {pageId : UInt64} {f : FrameId} {pinCount : ℤ} {unsaved' : UInt64 → Bool}
    (hrepins : Repins l.pool pool' f pinCount) (hpin : 0 ≤ pinCount) (hdisk : pool'.disk = l.pool.disk)
    (hpages : pool'.pages = l.pool.pages) (hlookup : l.pool.pageTable.lookup pageId = some f)
    (hdirty : ∀ g, g ≠ f → (pool'.frames g).isDirty = (l.pool.frames g).isDirty)
    (hunsaved : ∀ q, q ≠ pageId → unsaved' q = l.unsaved q) (hlast : unsaved' pageId = true → 0 < pinCount)
    (hclean : (pool'.frames f).isDirty = false →
      (l.pool.frames f).isDirty = false ∧ unsaved' pageId = l.unsaved pageId) :
    Transparent { l with pool := pool', unsaved := unsaved' } := by
  refine
    { consistent := hrepins.consistent h.consistent hpin
      next := by rw [hdisk]; exact h.next
      created := by rw [hdisk]; exact h.created
      resident := by rw [hrepins.pageTable_eq]; exact h.resident
      inFrame := by rw [hrepins.pageTable_eq, hpages]; exact h.inFrame
      pinned := fun q hq => ?_
      clean := fun q g hq hkept hfalse hsaved => ?_
      onDisk := by rw [hrepins.pageTable_eq, hdisk]; exact h.onDisk }
  · rw [hrepins.pageTable_eq]
    by_cases he : q = pageId
    · rw [he] at hq ⊢
      refine ⟨f, hlookup, ?_⟩
      rw [hrepins.pinCount_eq, if_pos rfl]
      exact hlast hq
    · obtain ⟨g, hg, hpos⟩ := h.pinned q (hunsaved q he ▸ hq)
      have hne : g ≠ f := by
        rintro rfl
        exact he (h.consistent.page_eq hg hlookup)
      refine ⟨g, hg, ?_⟩
      rw [hrepins.pinCount_eq, if_neg hne]
      exact hpos
  · rw [hdisk]
    rw [hrepins.pageTable_eq] at hq
    by_cases he : q = pageId
    · rw [he] at hq hkept hsaved ⊢
      obtain rfl := Option.some.inj (hlookup.symm.trans hq)
      obtain ⟨hfalse, heq⟩ := hclean hfalse
      exact h.clean pageId f hq hkept hfalse (heq ▸ hsaved)
    · have hne : g ≠ f := by
        rintro rfl
        exact he (h.consistent.page_eq hq hlookup)
      exact h.clean q g hq hkept (hdirty g hne ▸ hfalse) (hunsaved q he ▸ hsaved)

theorem newPage {visit : Visit} (hpermitted : l.Permitted (.newPage visit)) :
    Transparent (l.step (.newPage visit)) := by
  have hlt : l.pool.disk.nextPageId.toNat < 2 ^ 51 := hpermitted
  rcases h.consistent.newPage_cases visit with ⟨hnone, -⟩ | ⟨f, pool', hsome, hnext, hloads⟩
  · simp only [Ledger.step, step, hnone]
    exact h
  · have hsucc : pool'.disk.nextPageId.toNat = l.pool.disk.nextPageId.toNat + 1 := by
      have hone : (1 : UInt64).toNat = 1 := rfl
      rw [hnext, UInt64.toNat_add, hone]
      omega
    have hmiss : l.pool.pageTable.lookup l.pool.disk.nextPageId = none := by
      rw [← Option.not_isSome_iff_eq_none, Option.isSome_iff_exists]
      rintro ⟨g, hg⟩
      exact absurd ((h.created _).mp (h.resident _ g hg)) (lt_irrefl _)
    simp only [Ledger.step, step, hsome]
    have hloaded : l.Loaded
        { pool := pool'
          contents := Function.update l.contents l.pool.disk.nextPageId (SlottedPage.init l.pool.disk.nextPageId)
          standing := Function.update (l.lose pool') l.pool.disk.nextPageId .fresh
          unsaved := Function.update l.unsaved l.pool.disk.nextPageId false
          created := Function.update l.created l.pool.disk.nextPageId true } f _ _ :=
      ⟨hloads, hmiss, fun q hq => Function.update_of_ne hq _ _, fun q hq => Function.update_of_ne hq _ _,
        fun q hq => Function.update_of_ne hq _ _, fun q hq => Function.update_of_ne hq _ _⟩
    apply hloaded.transparent h
    · change pool'.disk.nextPageId.toNat ≤ _
      omega
    · intro q
      change Function.update l.created _ true q = true ↔ q.toNat < pool'.disk.nextPageId.toNat
      rw [hsucc]
      by_cases hq : q = l.pool.disk.nextPageId
      · rw [hq, Function.update_self]
        exact iff_of_true rfl (Nat.lt_succ_self _)
      · have hne : q.toNat ≠ l.pool.disk.nextPageId.toNat := fun he => hq (UInt64.toNat_inj.mp he)
        rw [Function.update_of_ne hq, h.created]
        omega
    · exact Function.update_self _ _ _
    · exact Function.update_self _ _ _
    · exact fun _ => (Function.update_self _ (SlottedPage.init _) l.contents).symm
    · exact fun hkept => absurd ((Function.update_self _ _ _).symm.trans hkept) (by decide)

theorem readPage_eq {pageId : UInt64} {f : FrameId} (havailable : l.pool.Available f)
    (hcreated : l.created pageId = true) (hlookup : l.pool.pageTable.lookup pageId = none)
    (hkept : l.standing pageId ≠ .lost) (page : SlottedPage) :
    (l.pool.vacate f).disk.readPage pageId page = l.contents pageId := by
  obtain ⟨hfresh, hdisk⟩ := h.onDisk pageId hcreated hlookup
  cases hstanding : l.standing pageId with
  | fresh => exact absurd hstanding hfresh
  | kept =>
    have hstored := h.vacate_stored havailable hcreated hstanding fun _ => hdisk hstanding
    exact hstored.readPage (DiskManager.offset_lt_of_lt (h.lt_of_created hcreated))
  | lost => exact absurd hstanding hkept

theorem fetchPage {visit : Visit} {pageId : UInt64} (hpermitted : l.Permitted (.fetchPage visit pageId)) :
    Transparent (l.step (.fetchPage visit pageId)) := by
  obtain ⟨hcreated, hpins⟩ := hpermitted
  cases hlookup : l.pool.pageTable.lookup pageId with
  | some f =>
    obtain ⟨pool', hfetch, hdisk, hpages, hdirty, hrepins⟩ := h.consistent.fetchPage_hit visit hlookup (hpins f hlookup)
    have hnonneg := h.consistent.pins f (mem_resident.mp hrepins.held).1
    simp only [Ledger.step, step, hfetch]
    have hrepinned : Transparent { l with pool := pool' } :=
      h.repins hrepins (by omega) hdisk hpages hlookup (fun g _ => hdirty g) (fun _ _ => rfl)
        (fun _ => by omega) fun hclean => ⟨(hdirty f).symm.trans hclean, rfl⟩
    exact hrepinned.lose
  | none =>
    rcases h.consistent.fetchPage_cases visit hlookup with ⟨hnone, -⟩ | ⟨f, pool', hsome, hnext, hloads⟩
    · simp only [Ledger.step, step, hnone]
      exact h.lose
    · simp only [Ledger.step, step, hsome]
      have hloaded : l.Loaded { l with pool := pool', standing := l.lose pool' } f pageId _ :=
        ⟨hloads, hlookup, fun _ _ => rfl, fun _ _ => rfl, fun _ _ => rfl, fun _ _ => rfl⟩
      obtain ⟨hfresh, hdisk⟩ := h.onDisk pageId hcreated hlookup
      have hself : l.lose pool' pageId = l.standing pageId := if_neg fun hlost => hfresh hlost.1
      apply hloaded.transparent h
      · change pool'.disk.nextPageId.toNat ≤ _
        rw [hnext]
        exact h.next
      · change ∀ q, l.created q = true ↔ q.toNat < pool'.disk.nextPageId.toNat
        rw [hnext]
        exact h.created
      · exact hcreated
      · rw [← Bool.not_eq_true]
        intro hunsaved
        obtain ⟨g, hg, -⟩ := h.pinned pageId hunsaved
        exact Option.some_ne_none g (hg.symm.trans hlookup)
      · change l.lose pool' pageId ≠ _ → _
        rw [hself]
        exact fun hkept => h.readPage_eq hloads.available hcreated hlookup hkept _
      · change l.lose pool' pageId = _ → _
        rw [hself]
        exact fun hkept => hloaded.stored h hcreated hkept fun _ => hdisk hkept

theorem unpinPage {pageId : UInt64} {isDirty : Bool} (hpermitted : l.Permitted (.unpinPage pageId isDirty)) :
    Transparent (l.step (.unpinPage pageId isDirty)) := by
  rcases h.consistent.unpinPage_cases pageId isDirty with
    ⟨hfalse, -⟩ | ⟨f, pool', hlookup, hpin, htrue, hdisk, hpages, hdirty, hrepins⟩
  · simp only [Ledger.step, step, hfalse, Bool.false_eq_true, and_false, if_false]
    exact h
  · have hother : ∀ g, g ≠ f → (pool'.frames g).isDirty = (l.pool.frames g).isDirty := by
      intro g hg
      rw [hdirty, if_neg hg]
    have hself : (pool'.frames f).isDirty = ((l.pool.frames f).isDirty || isDirty) := by
      rw [hdirty, if_pos rfl]
    have hpermitted := hpermitted f hlookup
    simp only [Ledger.step, step, htrue, and_true]
    cases isDirty with
    | true =>
      rw [Bool.or_true] at hself
      have hrepinned : Transparent { l with pool := pool', unsaved := Function.update l.unsaved pageId false } := by
        refine h.repins hrepins (by omega) hdisk hpages hlookup hother (fun q hq => Function.update_of_ne hq _ _)
          (fun hunsaved => ?_) fun hclean => ?_
        · exact absurd ((Function.update_self _ _ _).symm.trans hunsaved) (by decide)
        · exact absurd (hself.symm.trans hclean) (by decide)
      rw [if_pos rfl]
      refine hrepinned.keep (f := f) ?_ fun hclean => ?_
      · exact hrepins.pageTable_eq ▸ hlookup
      · exact absurd (hself.symm.trans hclean) (by decide)
    | false =>
      rw [Bool.or_false] at hself
      rw [if_neg (by decide)]
      refine h.repins hrepins (by omega) hdisk hpages hlookup hother (fun _ _ => rfl) (fun hunsaved => ?_)
        fun hclean => ⟨hself.symm.trans hclean, rfl⟩
      have hne : (l.pool.frames f).pinCount ≠ 1 := fun hone => absurd (hpermitted hone hunsaved) (by decide)
      omega

theorem flushPage (pageId : UInt64) : Transparent (l.step (.flushPage pageId)) := by
  cases hlookup : l.pool.pageTable.lookup pageId with
  | none =>
    simp only [Ledger.step, step, BufferPoolManager.flushPage, hlookup, Bool.false_eq_true, if_false]
    exact h
  | some f =>
    simp only [Ledger.step, step, BufferPoolManager.flushPage, hlookup, if_true]
    have hwritten := h.writeOut hlookup
    refine hwritten.keep hlookup fun _ hlost => ?_
    change (l.pool.disk.writePage pageId (l.pool.pages f)).Stored pageId (l.contents pageId)
    rw [← h.inFrame pageId f hlookup hlost]
    exact DiskManager.stored_writePage _ _ _

theorem writeBacks (entries : List (Sigma fun _ : UInt64 => FrameId))
    (hentries : ∀ entry ∈ entries, l.pool.pageTable.lookup entry.1 = some entry.2) :
    Transparent { l with pool := entries.foldl (fun pool entry => pool.writeBack entry.1 entry.2) l.pool } := by
  induction entries generalizing l with
  | nil => exact h
  | cons entry entries ih =>
    have hwritten := h.writeBack (hentries entry List.mem_cons_self)
    apply ih hwritten
    intro next hnext
    change (l.pool.writeBack entry.1 entry.2).pageTable.lookup next.1 = some next.2
    rw [(writeBack_rests l.pool entry.1 entry.2).pageTable_eq]
    exact hentries next (List.mem_cons_of_mem _ hnext)

theorem flushAllPages (visit : Visit) : Transparent (l.step (.flushAllPages visit)) := by
  apply h.writeBacks
  intro entry hentry
  apply AList.mem_lookup_iff.mpr
  exact (visit.table.perm _).mem_iff.mp hentry

theorem change {pageId : UInt64} {page : SlottedPage} (hpermitted : l.Permitted (.change pageId page)) :
    Transparent (l.step (.change pageId page)) := by
  obtain ⟨f, hlookup, hpin⟩ := hpermitted
  have hself : ∀ {g}, l.pool.pageTable.lookup pageId = some g → g = f :=
    fun hg => Option.some.inj (hg.symm.trans hlookup)
  have hother : ∀ {q g}, q ≠ pageId → l.pool.pageTable.lookup q = some g → g ≠ f := by
    rintro q g hq hg rfl
    exact hq (h.consistent.page_eq hg hlookup)
  have hrests := change_rests l.pool pageId page
  simp only [Ledger.step, step, BufferPoolManager.change, hlookup] at hrests ⊢
  refine
    { consistent := hrests.consistent h.consistent
      next := h.next
      created := h.created
      resident := h.resident
      inFrame := fun q g hq hkept => ?_
      pinned := fun q hq => ?_
      clean := fun q g hq hkept hdirty hsaved => ?_
      onDisk := fun q hcreated hnone => ?_ }
  · by_cases he : q = pageId
    · subst he
      obtain rfl := hself hq
      simp only [Function.update_self]
    · have hg := hother he hq
      simp only [Function.update_of_ne he, Function.update_of_ne hg] at hkept ⊢
      exact h.inFrame q g hq hkept
  · by_cases he : q = pageId
    · rw [he]
      exact ⟨f, hlookup, hpin⟩
    · simp only [Function.update_of_ne he] at hq
      exact h.pinned q hq
  · by_cases he : q = pageId
    · simp only [he, Function.update_self] at hsaved
      exact absurd hsaved (by decide)
    · simp only [Function.update_of_ne he] at hkept hsaved ⊢
      exact h.clean q g hq hkept hdirty hsaved
  · have he : q ≠ pageId := by
      rintro rfl
      exact Option.some_ne_none f (hlookup.symm.trans hnone)
    simp only [Function.update_of_ne he]
    exact h.onDisk q hcreated hnone

theorem step {op : Op} (hpermitted : l.Permitted op) : Transparent (l.step op) := by
  cases op with
  | newPage visit => exact h.newPage hpermitted
  | fetchPage visit pageId => exact h.fetchPage hpermitted
  | unpinPage pageId isDirty => exact h.unpinPage hpermitted
  | flushPage pageId => exact h.flushPage pageId
  | flushAllPages visit => exact h.flushAllPages visit
  | change pageId page => exact h.change hpermitted

theorem fetched {visit : Visit} {pageId : UInt64} {f : FrameId} (hcreated : l.created pageId = true)
    (hkept : l.standing pageId ≠ .lost) (hfetch : (l.pool.fetchPage visit pageId).1 = some f) :
    (l.pool.fetchPage visit pageId).2.pages f = l.contents pageId := by
  cases hlookup : l.pool.pageTable.lookup pageId with
  | some g =>
    simp only [BufferPoolManager.fetchPage, hlookup] at hfetch ⊢
    obtain rfl := Option.some.inj hfetch
    exact h.inFrame pageId g hlookup hkept
  | none =>
    rcases h.consistent.fetchPage_cases visit hlookup with ⟨hnone, -⟩ | ⟨g, pool', hsome, -, hloads⟩
    · rw [hnone] at hfetch
      exact absurd hfetch.symm (Option.some_ne_none f)
    · rw [hsome] at hfetch ⊢
      obtain rfl := Option.some.inj hfetch
      change pool'.pages g = _
      rw [hloads.pages_eq, Function.update_self]
      exact h.readPage_eq hloads.available hcreated hlookup hkept _

end Transparent

theorem transparent_ledger (poolSize : ℕ) (file : Bytes) (k : ℕ) {ops : List Op}
    (h : Lawful (Disciplined poolSize file k) ops) : Transparent (ledger poolSize file k ops) := by
  refine Lawful.induct (motive := fun _ l => Transparent l) ?_ (fun ops op hop hl => hl.step hop) h
  exact
    { consistent := construct_consistent poolSize file k
      next := Nat.zero_le _
      created := fun pageId => iff_of_false (by simp) (Nat.not_lt_zero _)
      resident := fun pageId f hf => by simp [construct] at hf
      inFrame := fun pageId f hf => by simp [construct] at hf
      pinned := fun pageId hunsaved => absurd hunsaved (by simp)
      clean := fun pageId f hf => by simp [construct] at hf
      onDisk := fun pageId hcreated => absurd hcreated (by simp) }

theorem fetch_returns_last_contents (poolSize : ℕ) (file : Bytes) (k : ℕ) {ops : List Op}
    (h : Lawful (Disciplined poolSize file k) ops) :
    let l := ledger poolSize file k ops
    ∀ visit pageId f, l.created pageId = true → l.standing pageId ≠ .lost →
      (l.pool.fetchPage visit pageId).1 = some f → (l.pool.fetchPage visit pageId).2.pages f = l.contents pageId :=
  fun _ _ _ hcreated hkept hfetch => (transparent_ledger poolSize file k h).fetched hcreated hkept hfetch

def changeAndReload : List Op :=
  [.newPage {}, .change 0 (SlottedPage.init 9), .unpinPage 0 true, .newPage {}, .unpinPage 1 false]

theorem fetch_returns_contents_of_changeAndReload :
    let l := ledger 1 [] 2 changeAndReload
    (l.pool.fetchPage {} 0).1 = some 0 ∧ (l.pool.fetchPage {} 0).2.pages 0 = SlottedPage.init 9 := by
  have hlawful : Lawful (Disciplined 1 [] 2) changeAndReload := by
    refine ⟨?_, ⟨0, ?_, ?_⟩, fun _ _ _ _ => rfl, ?_, fun _ _ _ hunsaved => ?_, trivial⟩
    · exact (by decide : (0 : UInt64).toNat < 2 ^ 51)
    · decide +kernel
    · decide +kernel
    · exact (by decide +kernel : (1 : UInt64).toNat < 2 ^ 51)
    · exact absurd hunsaved (by decide +kernel)
  have hcontents : (ledger 1 [] 2 changeAndReload).contents 0 = SlottedPage.init 9 := rfl
  have hfetch : ((ledger 1 [] 2 changeAndReload).pool.fetchPage {} 0).1 = some 0 := by decide +kernel
  refine ⟨hfetch, ?_⟩
  exact (fetch_returns_last_contents 1 [] 2 hlawful {} 0 0 (by decide +kernel) (by decide +kernel)
    hfetch).trans hcontents

/-- The page loses its frame before anything of it has been written. What is then flushed are the zeros that
`read_page` has put into the frame. -/
def flushedTooLate : List Op :=
  [.newPage {}, .unpinPage 0 false, .newPage {}, .unpinPage 1 false, .fetchPage {} 0, .flushPage 0]

theorem flushed_page_lost :
    Lawful (Disciplined 1 [] 2) flushedTooLate ∧
      ((ledger 1 [] 2 (flushedTooLate.take 5)).pool.flushPage 0).1 = true ∧
      let l := ledger 1 [] 2 flushedTooLate
      (l.pool.fetchPage {} 0).1 = some 0 ∧ l.contents 0 = SlottedPage.init 0 ∧
        (l.pool.fetchPage {} 0).2.pages 0 ≠ SlottedPage.init 0 := by
  refine ⟨⟨?_, fun _ _ _ hunsaved => ?_, ?_, fun _ _ _ hunsaved => ?_, ⟨?_, fun f hf => ?_⟩, trivial, trivial⟩,
    ?_, ?_, rfl, fun heq => ?_⟩
  · exact (by decide : (0 : UInt64).toNat < 2 ^ 51)
  · exact absurd hunsaved (by decide +kernel)
  · exact (by decide +kernel : (1 : UInt64).toNat < 2 ^ 51)
  · exact absurd hunsaved (by decide +kernel)
  · decide +kernel
  · have hmiss : (ledger 1 [] 2 (flushedTooLate.take 4)).pool.pageTable.lookup 0 = none := by decide +kernel
    exact absurd (hmiss.symm.trans hf) (Option.some_ne_none f).symm
  · decide +kernel
  · decide +kernel
  · have hbyte := congrArg (fun page => page.bytes[19]?) heq
    exact absurd hbyte (by decide +kernel)

end SystemLevel.Storage.BufferPoolManager
