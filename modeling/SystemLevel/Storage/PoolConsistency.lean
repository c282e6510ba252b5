import SystemLevel.Storage.BufferPoolManager

namespace SystemLevel.Storage.BufferPoolManager

open Runs

def count (pool : BufferPoolManager) : ℕ := reached pool.poolSize

def resident (pool : BufferPoolManager) : Finset FrameId :=
  (Finset.range pool.count).filter fun f => (pool.frames f).pageId ≠ invalidPageId

def unpinned (pool : BufferPoolManager) : Finset FrameId := pool.resident.filter fun f => (pool.frames f).pinCount = 0

structure Consistent (pool : BufferPoolManager) : Prop where
  table : ∀ pageId f, pool.pageTable.lookup pageId = some f ↔
    f < pool.count ∧ (pool.frames f).pageId = pageId ∧ pageId ≠ invalidPageId
  free : ∀ f, f ∈ pool.freeList ↔ f < pool.count ∧ (pool.frames f).pageId = invalidPageId
  nodup : pool.freeList.Nodup
  pins : ∀ f < pool.count, 0 ≤ (pool.frames f).pinCount
  unheld : ∀ f < pool.count, (pool.frames f).pageId = invalidPageId → (pool.frames f).pinCount = 0
  replacer : pool.replacer.Holds pool.resident pool.unpinned

variable {pool : BufferPoolManager}

theorem mem_resident {f : FrameId} : f ∈ pool.resident ↔ f < pool.count ∧ (pool.frames f).pageId ≠ invalidPageId := by
  rw [resident, Finset.mem_filter, Finset.mem_range]

theorem mem_unpinned {f : FrameId} : f ∈ pool.unpinned ↔ f ∈ pool.resident ∧ (pool.frames f).pinCount = 0 := by
  rw [unpinned, Finset.mem_filter]

theorem card_unpinned_lt (pool : BufferPoolManager) : pool.unpinned.card < 2 ^ 64 := by
  have hle : pool.unpinned.card ≤ pool.count := by
    apply (Finset.card_filter_le _ _).trans
    apply (Finset.card_filter_le _ _).trans
    rw [Finset.card_range]
  have hcount : pool.count < 2 ^ 32 := Nat.mod_lt _ (by decide)
  omega

def AllPinned (pool : BufferPoolManager) : Prop := ∀ f < pool.count, 0 < (pool.frames f).pinCount

def Available (pool : BufferPoolManager) (f : FrameId) : Prop := f < pool.count ∧ (pool.frames f).pinCount = 0

theorem construct_consistent (poolSize : ℕ) (file : Bytes) (k : ℕ) : (construct poolSize file k).Consistent := by
  have hframe : ∀ f < reached poolSize, (construct poolSize file k).frames f = { pageId := invalidPageId } :=
    fun f hf => if_pos hf
  have hresident : (construct poolSize file k).resident = ∅ := by
    apply Finset.filter_eq_empty_iff.mpr
    intro f hf
    rw [hframe f (Finset.mem_range.mp hf)]
    exact not_not.mpr rfl
  refine
    { table := fun pageId f => ⟨fun h => by simp [construct] at h, fun ⟨hf, hpage, hne⟩ => ?_⟩
      free := fun f => ⟨fun hf => ?_, fun hf => List.mem_range.mpr hf.1⟩
      nodup := List.nodup_range
      pins := fun f hf => by rw [hframe f hf]
      unheld := fun f hf _ => by rw [hframe f hf]
      replacer := ?_ }
  · rw [hframe f hf] at hpage
    exact absurd hpage.symm hne
  · have hlt := List.mem_range.mp hf
    exact ⟨hlt, by rw [hframe f hlt]⟩
  · rw [unpinned, hresident]
    exact LruKReplacer.Holds.empty k

theorem Consistent.find_cases (h : pool.Consistent) (visit : Visit) :
    (pool.findAvailableFrame visit = (none, pool) ∧ pool.AllPinned) ∨
      ∃ f r, pool.findAvailableFrame visit = (some f, { pool with freeList := pool.freeList.erase f, replacer := r }) ∧
        pool.Available f ∧ r.Holds (pool.resident.erase f) (pool.unpinned.erase f) := by
  unfold findAvailableFrame
  cases hfree : pool.freeList with
  | cons f rest =>
    have hmem : f < pool.count ∧ (pool.frames f).pageId = invalidPageId := (h.free f).mp (by simp [hfree])
    have hresident : f ∉ pool.resident := fun hf => (mem_resident.mp hf).2 hmem.2
    refine Or.inr ⟨f, pool.replacer, by simp, ⟨hmem.1, h.unheld f hmem.1 hmem.2⟩, ?_⟩
    rw [Finset.erase_eq_of_notMem hresident,
      Finset.erase_eq_of_notMem fun hf => hresident (mem_unpinned.mp hf).1]
    exact h.replacer
  | nil =>
    have hheld : ∀ f < pool.count, f ∈ pool.resident := by
      intro f hf
      refine mem_resident.mpr ⟨hf, fun hpage => ?_⟩
      have hmem := (h.free f).mpr ⟨hf, hpage⟩
      simp [hfree] at hmem
    rcases h.replacer.victim pool.card_unpinned_lt visit.entries visit.front with ⟨hempty, hvictim⟩ | hsome
    · refine Or.inl ⟨by simp [hvictim, ← hfree], fun f hf => ?_⟩
      have hne : (pool.frames f).pinCount ≠ 0 := by
        intro hzero
        have hmem := mem_unpinned.mpr ⟨hheld f hf, hzero⟩
        simp [hempty] at hmem
      have hpin := h.pins f hf
      omega
    · obtain ⟨f, hf, r, hvictim, hholds⟩ := hsome
      obtain ⟨hres, hzero⟩ := mem_unpinned.mp hf
      exact Or.inr ⟨f, r, by simp [hvictim], ⟨(mem_resident.mp hres).1, hzero⟩, hholds⟩

structure Loads (pool pool' : BufferPoolManager) (f : FrameId) (pageId : UInt64) (page : SlottedPage) : Prop where
  available : pool.Available f
  poolSize_eq : pool'.poolSize = pool.poolSize
  frames_eq : pool'.frames = Function.update pool.frames f { pageId, pinCount := 1, isDirty := false }
  pages_eq : pool'.pages = Function.update pool.pages f page
  lookup_eq : ∀ q, pool'.pageTable.lookup q =
    if q = pageId then some f else if q = (pool.frames f).pageId then none else pool.pageTable.lookup q
  freeList_eq : pool'.freeList = pool.freeList.erase f
  file_eq : pool'.disk.file = (pool.vacate f).disk.file
  replacer : pool'.replacer.Holds (insert f pool.resident) (pool.unpinned.erase f)

theorem vacate_frames (pool : BufferPoolManager) (f : FrameId) (frame : FrameMeta) :
    Function.update (pool.vacate f).frames f frame = Function.update pool.frames f frame := by
  simp only [vacate, writeBack, writeOut, setFrame]
  split_ifs
  · rfl
  · exact Function.update_idem _ _ _
  · rfl

theorem vacate_same (pool : BufferPoolManager) (f : FrameId) :
    (pool.vacate f).poolSize = pool.poolSize ∧ (pool.vacate f).pages = pool.pages ∧
      (pool.vacate f).freeList = pool.freeList ∧ (pool.vacate f).replacer = pool.replacer ∧
      (pool.vacate f).disk.nextPageId = pool.disk.nextPageId := by
  simp only [vacate, writeBack, writeOut, setFrame]
  split_ifs <;> exact ⟨rfl, rfl, rfl, rfl, rfl⟩

theorem Consistent.lookup_invalid (h : pool.Consistent) : pool.pageTable.lookup invalidPageId = none := by
  rw [Option.eq_none_iff_forall_ne_some]
  intro f hf
  exact ((h.table _ _).mp hf).2.2 rfl

theorem vacate_lookup (pool : BufferPoolManager) (h : pool.pageTable.lookup invalidPageId = none) (f : FrameId)
    (q : UInt64) :
    (pool.vacate f).pageTable.lookup q = if q = (pool.frames f).pageId then none else pool.pageTable.lookup q := by
  unfold vacate
  split_ifs with hinvalid hq hq
  · rw [hq, hinvalid, h]
  · rfl
  · rw [hq]
    exact AList.lookup_erase _ _
  · exact AList.lookup_erase_ne hq

section Install

variable (pool) (f : FrameId) (pageId : UInt64) (page : SlottedPage)

theorem install_lookup (h : pool.pageTable.lookup invalidPageId = none) (q : UInt64) :
    ((pool.vacate f).install f pageId page).pageTable.lookup q =
      if q = pageId then some f else if q = (pool.frames f).pageId then none else pool.pageTable.lookup q := by
  change ((pool.vacate f).pageTable.insert pageId f).lookup q = _
  split_ifs with hq hold
  · rw [hq, AList.lookup_insert]
  · rw [AList.lookup_insert_ne hq, vacate_lookup pool h, if_pos hold]
  · rw [AList.lookup_insert_ne hq, vacate_lookup pool h, if_neg hold]

theorem install_frames : ((pool.vacate f).install f pageId page).frames =
    Function.update pool.frames f { pageId, pinCount := 1, isDirty := false } :=
  vacate_frames pool f _

theorem install_pages : ((pool.vacate f).install f pageId page).pages = Function.update pool.pages f page := by
  change Function.update (pool.vacate f).pages f page = _
  rw [(vacate_same pool f).2.1]

end Install

theorem Consistent.loads (h : pool.Consistent) {f : FrameId} {r : LruKReplacer} (havailable : pool.Available f)
    (hr : r.Holds (pool.resident.erase f) (pool.unpinned.erase f)) {found : BufferPoolManager} (next : UInt64)
    (hfound : found = { pool with freeList := pool.freeList.erase f, replacer := r,
                                  disk := { pool.disk with nextPageId := next } })
    (pageId : UInt64) (page : SlottedPage) : Loads pool ((found.vacate f).install f pageId page) f pageId page := by
  have hinvalid : found.pageTable.lookup invalidPageId = none := by
    rw [hfound]
    exact h.lookup_invalid
  have hfile : (found.vacate f).disk.file = (pool.vacate f).disk.file := by
    subst hfound
    simp only [vacate, writeBack, writeOut, setFrame]
    split_ifs <;> rfl
  obtain ⟨hsize, -, hfree, hreplacer, -⟩ := vacate_same found f
  refine
    { available := havailable
      poolSize_eq := hsize.trans (by rw [hfound])
      frames_eq := (install_frames found f pageId page).trans (by rw [hfound])
      pages_eq := (install_pages found f pageId page).trans (by rw [hfound])
      lookup_eq := fun q => (install_lookup found f pageId page hinvalid q).trans (by rw [hfound])
      freeList_eq := hfree.trans (by rw [hfound])
      file_eq := hfile
      replacer := ?_ }
  change (((found.vacate f).replacer.recordAccess f).setEvictable f false).Holds _ _
  rw [hreplacer, hfound]
  have hinsert : insert f (pool.resident.erase f) = insert f pool.resident := by
    ext g
    rw [Finset.mem_insert, Finset.mem_insert, Finset.mem_erase]
    tauto
  have hholds := (hr.recordAccess f).setEvictable (Finset.mem_insert_self _ _) false
  rw [hinsert, if_neg (by decide), Finset.erase_idem] at hholds
  exact hholds

theorem Consistent.newPage_cases (h : pool.Consistent) (visit : Visit) :
    (pool.newPage visit = (none, pool) ∧ pool.AllPinned) ∨
      ∃ f pool', pool.newPage visit = (some (pool.disk.nextPageId, f), pool') ∧
        pool'.disk.nextPageId = pool.disk.nextPageId + 1 ∧
        Loads pool pool' f pool.disk.nextPageId (SlottedPage.init pool.disk.nextPageId) := by
  rcases h.find_cases visit with ⟨hfind, hpinned⟩ | ⟨f, r, hfind, havailable, hr⟩
  · exact Or.inl ⟨by rw [newPage, hfind], hpinned⟩
  · refine Or.inr ⟨f, _, by rw [newPage, hfind]; rfl, ?_, ?_⟩
    · exact (vacate_same _ f).2.2.2.2
    · exact h.loads havailable hr (pool.disk.nextPageId + 1) rfl _ _

theorem Consistent.fetchPage_cases (h : pool.Consistent) (visit : Visit) {pageId : UInt64}
    (hmiss : pool.pageTable.lookup pageId = none) :
    (pool.fetchPage visit pageId = (none, pool) ∧ pool.AllPinned) ∨
      ∃ f pool', pool.fetchPage visit pageId = (some f, pool') ∧ pool'.disk.nextPageId = pool.disk.nextPageId ∧
        Loads pool pool' f pageId ((pool.vacate f).disk.readPage pageId (pool.pages f)) := by
  rcases h.find_cases visit with ⟨hfind, hpinned⟩ | ⟨f, r, hfind, havailable, hr⟩
  · exact Or.inl ⟨by simp only [fetchPage, hmiss, hfind], hpinned⟩
  · obtain ⟨found, hfound⟩ : ∃ found, found = { pool with freeList := pool.freeList.erase f, replacer := r } := ⟨_, rfl⟩
    rw [← hfound] at hfind
    have hfile : (found.vacate f).disk.file = (pool.vacate f).disk.file :=
      (h.loads havailable hr _ hfound pageId (pool.pages f)).file_eq
    have hpage : (found.vacate f).disk.readPage pageId ((found.vacate f).pages f) =
        (pool.vacate f).disk.readPage pageId (pool.pages f) := by
      rw [DiskManager.readPage_congr hfile, (vacate_same found f).2.1, hfound]
    refine Or.inr ⟨f, (found.vacate f).install f pageId _, ?_, ?_, h.loads havailable hr _ hfound pageId _⟩
    · simp only [fetchPage, hmiss, hfind, hpage]
    · exact (vacate_same found f).2.2.2.2.trans (by rw [hfound])

namespace Loads

variable {pool' : BufferPoolManager} {f g : FrameId} {pageId q : UInt64} {page : SlottedPage}
  (h : Loads pool pool' f pageId page)

include h

theorem count_eq : pool'.count = pool.count := by
  rw [count, h.poolSize_eq, count]

theorem frame_self : pool'.frames f = { pageId, pinCount := 1, isDirty := false } := by
  rw [h.frames_eq, Function.update_self]

theorem frame_other (hg : g ≠ f) : pool'.frames g = pool.frames g := by
  rw [h.frames_eq, Function.update_of_ne hg]

theorem resident_eq (hvalid : pageId ≠ invalidPageId) : pool'.resident = insert f pool.resident := by
  ext g
  rw [mem_resident, Finset.mem_insert, mem_resident, h.count_eq]
  by_cases hg : g = f
  · rw [hg, h.frame_self]
    simp [h.available.1, hvalid]
  · simp [h.frame_other hg, hg]

theorem unpinned_eq (hvalid : pageId ≠ invalidPageId) : pool'.unpinned = pool.unpinned.erase f := by
  ext g
  rw [mem_unpinned, Finset.mem_erase, mem_unpinned, h.resident_eq hvalid, Finset.mem_insert]
  by_cases hg : g = f
  · rw [hg, h.frame_self]
    simp
  · simp [h.frame_other hg, hg]

theorem table_iff (hpool : pool.Consistent) (hfresh : pool.pageTable.lookup pageId = none)
    (hvalid : pageId ≠ invalidPageId) : pool'.pageTable.lookup q = some g ↔
      g < pool'.count ∧ (pool'.frames g).pageId = q ∧ q ≠ invalidPageId := by
  have hlt := h.available.1
  rw [h.lookup_eq, h.count_eq]
  by_cases hg : g = f
  · rw [hg, h.frame_self]
    split_ifs with hq hold
    · exact ⟨fun _ => ⟨hlt, hq.symm, hq ▸ hvalid⟩, fun _ => rfl⟩
    · exact ⟨fun hnone => hnone.elim, fun hf => absurd hf.2.1.symm hq⟩
    · exact ⟨fun hf => absurd ((hpool.table q f).mp hf).2.1.symm hold, fun hf => absurd hf.2.1.symm hq⟩
  · rw [h.frame_other hg, ← hpool.table]
    split_ifs with hq hold
    · rw [hq, hfresh]
      exact ⟨fun he => absurd (Option.some.inj he).symm hg, fun hnone => absurd hnone.symm (Option.some_ne_none _)⟩
    · refine ⟨fun hnone => hnone.elim, fun hlookup => absurd ?_ hg⟩
      have hf := (hpool.table q f).mpr ⟨hlt, hold.symm, ((hpool.table q g).mp hlookup).2.2⟩
      exact Option.some.inj (hlookup.symm.trans hf)
    · exact Iff.rfl

theorem consistent (hpool : pool.Consistent) (hfresh : pool.pageTable.lookup pageId = none)
    (hvalid : pageId ≠ invalidPageId) : pool'.Consistent := by
  refine
    { table := fun q g => h.table_iff hpool hfresh hvalid
      free := fun g => ?_
      nodup := by rw [h.freeList_eq]; exact hpool.nodup.erase f
      pins := fun g hg => ?_
      unheld := fun g hg hinvalid => ?_
      replacer := by rw [h.resident_eq hvalid, h.unpinned_eq hvalid]; exact h.replacer }
  · rw [h.freeList_eq, hpool.nodup.mem_erase_iff, hpool.free, h.count_eq]
    by_cases hg : g = f
    · rw [hg, h.frame_self]
      simp [hvalid]
    · simp [h.frame_other hg, hg]
  · rw [h.count_eq] at hg
    by_cases he : g = f
    · rw [he, h.frame_self]
      exact Int.one_nonneg
    · rw [h.frame_other he]
      exact hpool.pins g hg
  · rw [h.count_eq] at hg
    by_cases he : g = f
    · rw [he, h.frame_self] at hinvalid
      exact absurd hinvalid hvalid
    · rw [h.frame_other he] at hinvalid ⊢
      exact hpool.unheld g hg hinvalid

end Loads

end SystemLevel.Storage.BufferPoolManager
