import SystemLevel.Storage.PoolConsistency

namespace SystemLevel.Storage.BufferPoolManager

variable {pool : BufferPoolManager}

theorem resident_eq {pool' : BufferPoolManager} (hsize : pool'.poolSize = pool.poolSize)
    (hpage : ∀ g, (pool'.frames g).pageId = (pool.frames g).pageId) : pool'.resident = pool.resident := by
  ext g
  rw [mem_resident, mem_resident, hpage, count, count, hsize]

theorem Consistent.of_same_pages {pool' : BufferPoolManager} (h : pool.Consistent)
    (hsize : pool'.poolSize = pool.poolSize) (htable : pool'.pageTable = pool.pageTable)
    (hfree : pool'.freeList = pool.freeList) (hpage : ∀ g, (pool'.frames g).pageId = (pool.frames g).pageId)
    (hpins : ∀ g < pool.count, 0 ≤ (pool'.frames g).pinCount)
    (hunheld : ∀ g < pool.count, (pool.frames g).pageId = invalidPageId → (pool'.frames g).pinCount = 0)
    (hreplacer : pool'.replacer.Holds pool.resident pool'.unpinned) : pool'.Consistent := by
  have hcount : pool'.count = pool.count := by rw [count, hsize, count]
  exact
    { table := fun q g => by rw [htable, h.table, hcount, hpage]
      free := fun g => by rw [hfree, h.free, hcount, hpage]
      nodup := by rw [hfree]; exact h.nodup
      pins := fun g hg => hpins g (hcount ▸ hg)
      unheld := fun g hg hinvalid => hunheld g (hcount ▸ hg) (hpage g ▸ hinvalid)
      replacer := by rw [resident_eq hsize hpage]; exact hreplacer }

structure Repins (pool pool' : BufferPoolManager) (f : FrameId) (pinCount : ℤ) : Prop where
  held : f ∈ pool.resident
  poolSize_eq : pool'.poolSize = pool.poolSize
  pageTable_eq : pool'.pageTable = pool.pageTable
  freeList_eq : pool'.freeList = pool.freeList
  pageId_eq : ∀ g, (pool'.frames g).pageId = (pool.frames g).pageId
  pinCount_eq : ∀ g, (pool'.frames g).pinCount = if g = f then pinCount else (pool.frames g).pinCount
  replacer : pool'.replacer.Holds pool.resident
    (if pinCount = 0 then insert f pool.unpinned else pool.unpinned.erase f)

theorem Repins.consistent {pool' : BufferPoolManager} {f : FrameId} {pinCount : ℤ} (h : Repins pool pool' f pinCount)
    (hpool : pool.Consistent) (hpin : 0 ≤ pinCount) : pool'.Consistent := by
  have hunpinned : pool'.unpinned = if pinCount = 0 then insert f pool.unpinned else pool.unpinned.erase f := by
    ext g
    rw [mem_unpinned, resident_eq h.poolSize_eq h.pageId_eq, h.pinCount_eq]
    by_cases hg : g = f
    · rw [hg, if_pos rfl]
      split_ifs with hzero <;> simp [hzero, h.held]
    · rw [if_neg hg, ← mem_unpinned]
      split_ifs <;> simp [hg]
  apply hpool.of_same_pages h.poolSize_eq h.pageTable_eq h.freeList_eq h.pageId_eq
  · intro g hg
    rw [h.pinCount_eq]
    split_ifs
    · exact hpin
    · exact hpool.pins g hg
  · intro g hg hinvalid
    rw [h.pinCount_eq, if_neg]
    · exact hpool.unheld g hg hinvalid
    · rintro rfl
      exact (mem_resident.mp h.held).2 hinvalid
  · rw [hunpinned]
    exact h.replacer

structure Rests (pool pool' : BufferPoolManager) : Prop where
  poolSize_eq : pool'.poolSize = pool.poolSize
  pageTable_eq : pool'.pageTable = pool.pageTable
  freeList_eq : pool'.freeList = pool.freeList
  replacer_eq : pool'.replacer = pool.replacer
  pageId_eq : ∀ g, (pool'.frames g).pageId = (pool.frames g).pageId
  pinCount_eq : ∀ g, (pool'.frames g).pinCount = (pool.frames g).pinCount

theorem Rests.consistent {pool' : BufferPoolManager} (h : Rests pool pool') (hpool : pool.Consistent) :
    pool'.Consistent := by
  have hunpinned : pool'.unpinned = pool.unpinned := by
    ext g
    rw [mem_unpinned, mem_unpinned, resident_eq h.poolSize_eq h.pageId_eq, h.pinCount_eq]
  apply hpool.of_same_pages h.poolSize_eq h.pageTable_eq h.freeList_eq h.pageId_eq
  · intro g hg
    rw [h.pinCount_eq]
    exact hpool.pins g hg
  · intro g hg hinvalid
    rw [h.pinCount_eq]
    exact hpool.unheld g hg hinvalid
  · rw [hunpinned, h.replacer_eq]
    exact hpool.replacer

theorem Consistent.held (h : pool.Consistent) {pageId : UInt64} {f : FrameId}
    (hlookup : pool.pageTable.lookup pageId = some f) : f ∈ pool.resident := by
  obtain ⟨hf, hpage, hvalid⟩ := (h.table pageId f).mp hlookup
  exact mem_resident.mpr ⟨hf, hpage ▸ hvalid⟩

theorem Consistent.page_eq (h : pool.Consistent) {p q : UInt64} {f : FrameId}
    (hp : pool.pageTable.lookup p = some f) (hq : pool.pageTable.lookup q = some f) : p = q :=
  ((h.table p f).mp hp).2.1.symm.trans ((h.table q f).mp hq).2.1

theorem setFrame_frames (pool : BufferPoolManager) (f : FrameId) (frame : FrameMeta) (g : FrameId) :
    (pool.setFrame f frame).frames g = if g = f then frame else pool.frames g :=
  Function.update_apply _ _ _ _

theorem repins_setFrame {f : FrameId} (frame : FrameMeta) {r : LruKReplacer} (hheld : f ∈ pool.resident)
    (hpage : frame.pageId = (pool.frames f).pageId)
    (hr : r.Holds pool.resident (if frame.pinCount = 0 then insert f pool.unpinned else pool.unpinned.erase f)) :
    Repins pool { pool.setFrame f frame with replacer := r } f frame.pinCount where
  held := hheld
  poolSize_eq := rfl
  pageTable_eq := rfl
  freeList_eq := rfl
  pageId_eq g := by
    change ((pool.setFrame f frame).frames g).pageId = _
    rw [setFrame_frames]
    split_ifs with hg
    · rw [hpage, hg]
    · rfl
  pinCount_eq g := by
    change ((pool.setFrame f frame).frames g).pinCount = _
    rw [setFrame_frames]
    split_ifs <;> rfl
  replacer := hr

theorem int32_succ {n : ℤ} (hnonneg : 0 ≤ n) (hlt : n < 2 ^ 31 - 1) : int32 (n + 1) = n + 1 := by
  rw [int32, Int.bmod_eq_of_le] <;> omega

theorem Consistent.fetchPage_hit (h : pool.Consistent) (visit : Visit) {pageId : UInt64} {f : FrameId}
    (hlookup : pool.pageTable.lookup pageId = some f) (hpins : (pool.frames f).pinCount < 2 ^ 31 - 1) :
    ∃ pool', pool.fetchPage visit pageId = (some f, pool') ∧ pool'.disk = pool.disk ∧ pool'.pages = pool.pages ∧
      (∀ g, (pool'.frames g).isDirty = (pool.frames g).isDirty) ∧
      Repins pool pool' f ((pool.frames f).pinCount + 1) := by
  have hheld := h.held hlookup
  have hnonneg := h.pins f (mem_resident.mp hheld).1
  have hholds := (h.replacer.recordAccess f).setEvictable (Finset.mem_insert_self _ _) false
  rw [Finset.insert_eq_self.mpr hheld, if_neg (by decide)] at hholds
  let frame : FrameMeta := { pool.frames f with pinCount := (pool.frames f).pinCount + 1 }
  refine ⟨{ pool.setFrame f frame with replacer := (pool.replacer.recordAccess f).setEvictable f false }, ?_, rfl, rfl,
    fun g => ?_, repins_setFrame frame hheld rfl ?_⟩
  · simp only [fetchPage, hlookup, int32_succ hnonneg hpins]
    rfl
  · change ((pool.setFrame f frame).frames g).isDirty = _
    rw [setFrame_frames]
    split_ifs with hg
    · rw [hg]
    · rfl
  · have hne : frame.pinCount ≠ 0 := by
      change (pool.frames f).pinCount + 1 ≠ 0
      omega
    rw [if_neg hne]
    exact hholds

theorem Consistent.unpinPage_cases (h : pool.Consistent) (pageId : UInt64) (isDirty : Bool) :
    (pool.unpinPage pageId isDirty = (false, pool) ∧
        ∀ f, pool.pageTable.lookup pageId = some f → (pool.frames f).pinCount = 0) ∨
      ∃ f pool', pool.pageTable.lookup pageId = some f ∧ 0 < (pool.frames f).pinCount ∧
        pool.unpinPage pageId isDirty = (true, pool') ∧ pool'.disk = pool.disk ∧ pool'.pages = pool.pages ∧
        (∀ g, (pool'.frames g).isDirty =
          if g = f then (pool.frames f).isDirty || isDirty else (pool.frames g).isDirty) ∧
        Repins pool pool' f ((pool.frames f).pinCount - 1) := by
  cases hlookup : pool.pageTable.lookup pageId with
  | none => exact Or.inl ⟨by simp only [unpinPage, hlookup], fun f hf => absurd hf.symm (Option.some_ne_none f)⟩
  | some f =>
    have hheld := h.held hlookup
    have hnonneg := h.pins f (mem_resident.mp hheld).1
    by_cases hpin : (pool.frames f).pinCount ≤ 0
    · refine Or.inl ⟨by simp only [unpinPage, hlookup, if_pos hpin], fun g hg => ?_⟩
      rw [← Option.some.inj hg]
      omega
    · let frame : FrameMeta :=
        { pool.frames f with
          isDirty := (pool.frames f).isDirty || isDirty
          pinCount := (pool.frames f).pinCount - 1 }
      let r := if frame.pinCount = 0 then pool.replacer.setEvictable f true else pool.replacer
      refine Or.inr ⟨f, { pool.setFrame f frame with replacer := r }, rfl, by omega, ?_, rfl, rfl, fun g => ?_,
        repins_setFrame frame hheld rfl ?_⟩
      · simp only [unpinPage, hlookup, if_neg hpin, r]
        split_ifs <;> rfl
      · change ((pool.setFrame f frame).frames g).isDirty = _
        rw [setFrame_frames]
        split_ifs <;> rfl
      · simp only [r]
        split_ifs with hzero
        · exact h.replacer.setEvictable hheld true
        · have hout : f ∉ pool.unpinned := fun hf => hpin (mem_unpinned.mp hf).2.le
          rw [Finset.erase_eq_of_notMem hout]
          exact h.replacer

theorem writeOut_isDirty (pool : BufferPoolManager) (pageId : UInt64) (f g : FrameId) :
    ((pool.writeOut pageId f).frames g).isDirty = if g = f then false else (pool.frames g).isDirty := by
  change ((pool.setFrame f _).frames g).isDirty = _
  rw [setFrame_frames]
  split_ifs <;> rfl

theorem writeOut_rests (pool : BufferPoolManager) (pageId : UInt64) (f : FrameId) :
    Rests pool (pool.writeOut pageId f) := by
  have hframe : ∀ g, (pool.writeOut pageId f).frames g =
      if g = f then { pool.frames f with isDirty := false } else pool.frames g := setFrame_frames pool f _
  refine ⟨rfl, rfl, rfl, rfl, fun g => ?_, fun g => ?_⟩
  all_goals
    rw [hframe]
    split_ifs with hg
    · rw [hg]
    · rfl

theorem Rests.refl (pool : BufferPoolManager) : Rests pool pool := ⟨rfl, rfl, rfl, rfl, fun _ => rfl, fun _ => rfl⟩

theorem Rests.trans {pool' pool'' : BufferPoolManager} (h : Rests pool pool') (h' : Rests pool' pool'') :
    Rests pool pool'' where
  poolSize_eq := h'.poolSize_eq.trans h.poolSize_eq
  pageTable_eq := h'.pageTable_eq.trans h.pageTable_eq
  freeList_eq := h'.freeList_eq.trans h.freeList_eq
  replacer_eq := h'.replacer_eq.trans h.replacer_eq
  pageId_eq g := (h'.pageId_eq g).trans (h.pageId_eq g)
  pinCount_eq g := (h'.pinCount_eq g).trans (h.pinCount_eq g)

theorem writeBack_rests (pool : BufferPoolManager) (pageId : UInt64) (f : FrameId) :
    Rests pool (pool.writeBack pageId f) := by
  unfold writeBack
  split_ifs
  · exact writeOut_rests pool pageId f
  · exact Rests.refl pool

theorem flushPage_rests (pool : BufferPoolManager) (pageId : UInt64) : Rests pool (pool.flushPage pageId).2 := by
  unfold flushPage
  cases pool.pageTable.lookup pageId with
  | none => exact Rests.refl pool
  | some f => exact writeOut_rests pool pageId f

theorem flushAllPages_rests (pool : BufferPoolManager) (visit : Visit) : Rests pool (pool.flushAllPages visit) := by
  unfold flushAllPages
  induction visit.table.visit pool.pageTable.entries using List.reverseRecOn with
  | nil => exact Rests.refl pool
  | append_singleton entries entry ih =>
    rw [List.foldl_append]
    exact ih.trans (writeBack_rests _ _ _)

theorem change_rests (pool : BufferPoolManager) (pageId : UInt64) (page : SlottedPage) :
    Rests pool (pool.change pageId page) := by
  unfold change
  cases pool.pageTable.lookup pageId with
  | none => exact Rests.refl pool
  | some f => exact ⟨rfl, rfl, rfl, rfl, fun _ => rfl, fun _ => rfl⟩

end SystemLevel.Storage.BufferPoolManager
