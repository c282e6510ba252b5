import SystemLevel.Storage.PoolSteps

/-!
Calls in which `DiskManager::write_page` throws. A `pwrite` that fails may have stored a part of the page.
-/

namespace SystemLevel.Storage

open Runs

namespace DiskManager

def writeFailed (pageId : UInt64) : String := "Disk write failed for page " ++ toString pageId

def tornWrite (d : DiskManager) (pageId : UInt64) (page : SlottedPage) (stored : ℕ) : DiskManager :=
  { d with file := splice d.file (offset pageId) (page.bytes.take stored) }

end DiskManager

namespace BufferPoolManager

open DiskManager

def writesBack (pool : BufferPoolManager) (f : FrameId) : Bool :=
  (pool.frames f).pageId ≠ invalidPageId && (pool.frames f).isDirty

def tornOut (pool : BufferPoolManager) (pageId : UInt64) (f : FrameId) (stored : ℕ) : BufferPoolManager :=
  { pool with disk := pool.disk.tornWrite pageId (pool.pages f) stored }

/-- In the calls whose names end so, no write goes through. -/
def newPageFailing (pool : BufferPoolManager) (visit : Visit) (stored : ℕ) :
    Except String (Option (UInt64 × FrameId)) × BufferPoolManager :=
  match pool.findAvailableFrame visit with
  | (none, pool) => (.ok none, pool)
  | (some f, pool) =>
    let allocated := pool.disk.allocatePage
    let pool := { pool with disk := allocated.2 }
    let pageId := (pool.frames f).pageId
    if pool.writesBack f then (.error (writeFailed pageId), pool.tornOut pageId f stored)
    else (.ok (some (allocated.1, f)), (pool.vacate f).install f allocated.1 (SlottedPage.init allocated.1))

def fetchPageFailing (pool : BufferPoolManager) (visit : Visit) (pageId : UInt64) (stored : ℕ) :
    Except String (Option FrameId) × BufferPoolManager :=
  match pool.pageTable.lookup pageId with
  | some f =>
    (.ok (some f), (pool.setFrame f { pool.frames f with pinCount := int32 ((pool.frames f).pinCount + 1) }).access f)
  | none =>
    match pool.findAvailableFrame visit with
    | (none, pool) => (.ok none, pool)
    | (some f, pool) =>
      let oldPageId := (pool.frames f).pageId
      if pool.writesBack f then (.error (writeFailed oldPageId), pool.tornOut oldPageId f stored)
      else
        let pool := pool.vacate f
        (.ok (some f), pool.install f pageId (pool.disk.readPage pageId (pool.pages f)))

def flushPageFailing (pool : BufferPoolManager) (pageId : UInt64) (stored : ℕ) :
    Except String Bool × BufferPoolManager :=
  match pool.pageTable.lookup pageId with
  | none => (.ok false, pool)
  | some f => (.error (writeFailed pageId), pool.tornOut pageId f stored)

def flushAllPagesFailing (pool : BufferPoolManager) (visit : Visit) (before stored : ℕ) :
    Except String Unit × BufferPoolManager :=
  let entries := visit.table.visit pool.pageTable.entries
  let flushed := (entries.take before).foldl (fun pool entry => pool.writeBack entry.1 entry.2) pool
  match entries[before]? with
  | none => (.ok (), flushed)
  | some entry =>
    if (flushed.frames entry.2).isDirty then
      (.error (writeFailed entry.1), flushed.tornOut entry.1 entry.2 stored)
    else (.ok (), pool.flushAllPages visit)

inductive DiskOp
  | works (op : Op)
  | newPage (visit : Visit) (stored : ℕ)
  | fetchPage (visit : Visit) (pageId : UInt64) (stored : ℕ)
  | flushPage (pageId : UInt64) (stored : ℕ)
  | flushAllPages (visit : Visit) (before stored : ℕ)

def diskStep (pool : BufferPoolManager) : DiskOp → BufferPoolManager
  | .works op => pool.step op
  | .newPage visit stored => (pool.newPageFailing visit stored).2
  | .fetchPage visit pageId stored => (pool.fetchPageFailing visit pageId stored).2
  | .flushPage pageId stored => (pool.flushPageFailing pageId stored).2
  | .flushAllPages visit before stored => (pool.flushAllPagesFailing visit before stored).2

abbrev diskRun (poolSize : ℕ) (file : Bytes) (k : ℕ) (ops : List DiskOp) : BufferPoolManager :=
  Runs.run diskStep (construct poolSize file k) ops

structure Sound (pool : BufferPoolManager) : Prop where
  nodup : pool.freeList.Nodup
  free : ∀ f ∈ pool.freeList, f < pool.count ∧ (pool.frames f).pageId = invalidPageId
  table : ∀ pageId f, pool.pageTable.lookup pageId = some f → f < pool.count ∧ f ∉ pool.freeList
  replacer : ∃ known evictable, pool.replacer.Holds known evictable ∧
    (∀ f ∈ known, f < pool.count ∧ f ∉ pool.freeList) ∧ ∀ f ∈ evictable, (pool.frames f).pinCount = 0

theorem construct_sound (poolSize : ℕ) (file : Bytes) (k : ℕ) : (construct poolSize file k).Sound := by
  constructor
  · exact List.nodup_range
  · intro f hf
    have hlt := List.mem_range.mp hf
    exact ⟨hlt, congrArg FrameMeta.pageId (if_pos hlt)⟩
  · intro pageId f hf
    simp [construct] at hf
  · exact ⟨∅, ∅, LruKReplacer.Holds.empty k, by simp, by simp⟩

namespace Sound

variable {pool pool' : BufferPoolManager}

theorem congr (h : pool.Sound) (hsize : pool'.poolSize = pool.poolSize) (hfree : pool'.freeList = pool.freeList)
    (htable : ∀ pageId f, pool'.pageTable.lookup pageId = some f → pool.pageTable.lookup pageId = some f)
    (hreplacer : pool'.replacer = pool.replacer)
    (hframes : ∀ g, (pool'.frames g).pageId = (pool.frames g).pageId ∧
      (pool'.frames g).pinCount = (pool.frames g).pinCount) : pool'.Sound := by
  have hcount : pool'.count = pool.count := by rw [count, hsize, count]
  obtain ⟨known, evictable, hholds, hknown, hpins⟩ := h.replacer
  constructor
  · rw [hfree]
    exact h.nodup
  · intro f hf
    rw [hfree] at hf
    rw [hcount, (hframes f).1]
    exact h.free f hf
  · intro pageId f hf
    rw [hcount, hfree]
    exact h.table pageId f (htable pageId f hf)
  · rw [hreplacer, hcount, hfree]
    exact ⟨known, evictable, hholds, hknown, fun f hf => (hframes f).2.trans (hpins f hf)⟩

theorem access (h : pool.Sound) {f : FrameId} (hf : f < pool.count) (hfree : f ∉ pool.freeList) (frame : FrameMeta)
    (pages : FrameId → SlottedPage) {table : AList fun _ : UInt64 => FrameId}
    (htable : ∀ pageId g, table.lookup pageId = some g → g = f ∨ pool.pageTable.lookup pageId = some g) :
    (access { pool with pages, pageTable := table, frames := Function.update pool.frames f frame } f).Sound := by
  obtain ⟨known, evictable, hholds, hknown, hpins⟩ := h.replacer
  have hpinned := (hholds.recordAccess f).setEvictable (Finset.mem_insert_self f known) false
  rw [if_neg (by decide)] at hpinned
  constructor
  · exact h.nodup
  · intro g hg
    have hne : g ≠ f := fun he => hfree (he ▸ hg)
    change _ ∧ (Function.update pool.frames f frame g).pageId = _
    rw [Function.update_of_ne hne]
    exact h.free g hg
  · intro pageId g hg
    rcases htable pageId g hg with rfl | hold
    · exact ⟨hf, hfree⟩
    · exact h.table pageId g hold
  · refine ⟨insert f known, evictable.erase f, hpinned, fun g hg => ?_, fun g hg => ?_⟩
    · rcases Finset.mem_insert.mp hg with rfl | hg
      · exact ⟨hf, hfree⟩
      · exact hknown g hg
    · obtain ⟨hne, hg⟩ := Finset.mem_erase.mp hg
      change (Function.update pool.frames f frame g).pinCount = 0
      rw [Function.update_of_ne hne]
      exact hpins g hg

theorem find_cases (h : pool.Sound) (visit : Visit) :
    pool.findAvailableFrame visit = (none, pool) ∨
      ∃ f freeList r, pool.findAvailableFrame visit = (some f, { pool with freeList, replacer := r }) ∧
        f < pool.count ∧ f ∉ freeList ∧ Sound { pool with freeList, replacer := r } ∧
        ((pool.frames f).pageId ≠ invalidPageId → (pool.frames f).pinCount = 0 ∧ r.evictable f = false) := by
  obtain ⟨known, evictable, hholds, hknown, hpins⟩ := h.replacer
  have hnodup := h.nodup
  have hfree := h.free
  have htable := h.table
  unfold findAvailableFrame
  cases hlist : pool.freeList with
  | cons f rest =>
    rw [hlist] at hnodup hfree htable hknown
    obtain ⟨hf, hrest⟩ := List.nodup_cons.mp hnodup
    obtain ⟨hlt, hinvalid⟩ := hfree f List.mem_cons_self
    have hsub {g : FrameId} (hg : g ∉ f :: rest) : g ∉ rest := fun hmem => hg (List.mem_cons_of_mem f hmem)
    refine Or.inr ⟨f, rest, pool.replacer, rfl, hlt, hf, ?_, fun hvalid => absurd hinvalid hvalid⟩
    constructor
    · exact hrest
    · exact fun g hg => hfree g (List.mem_cons_of_mem f hg)
    · exact fun pageId g hg => ⟨(htable pageId g hg).1, hsub (htable pageId g hg).2⟩
    · exact ⟨known, evictable, hholds, fun g hg => ⟨(hknown g hg).1, hsub (hknown g hg).2⟩, hpins⟩
  | nil =>
    have hsub : evictable ⊆ known := by
      intro g hg
      obtain ⟨node, hmem, -⟩ := (pool.replacer.evictable_iff g).mp ((hholds.mem_free g).mp hg)
      rw [hholds.mem_known, ← AList.lookup_isSome, AList.mem_lookup_iff.mpr hmem]
      rfl
    have hcard : evictable.card < 2 ^ 64 := by
      have hrange : evictable ⊆ Finset.range pool.count := fun g hg => Finset.mem_range.mpr (hknown g (hsub hg)).1
      have hle := Finset.card_le_card hrange
      have hcount : pool.count < 2 ^ 32 := Nat.mod_lt _ (by decide)
      rw [Finset.card_range] at hle
      omega
    rcases hholds.victim hcard visit.entries visit.front with ⟨-, hvictim⟩ | ⟨f, hf, r, hvictim, hr⟩
    · exact Or.inl (by simp [hvictim, ← hlist])
    · have hgone : r.evictable f = false := by
        rw [Bool.eq_false_iff, ne_eq, ← hr.mem_free]
        exact Finset.notMem_erase f evictable
      refine Or.inr ⟨f, [], r, by rw [hvictim], (hknown f (hsub hf)).1, List.not_mem_nil, ?_,
        fun _ => ⟨hpins f hf, hgone⟩⟩
      constructor
      · exact List.nodup_nil
      · exact nofun
      · exact fun pageId g hg => ⟨(htable pageId g hg).1, List.not_mem_nil⟩
      · exact ⟨_, _, hr, fun g hg => ⟨(hknown g (Finset.mem_of_mem_erase hg)).1, List.not_mem_nil⟩,
          fun g hg => hpins g (Finset.mem_of_mem_erase hg)⟩

theorem setDirty (h : pool.Sound) (f : FrameId) (isDirty : Bool) (disk : DiskManager) :
    Sound { pool.setFrame f { pool.frames f with isDirty } with disk } := by
  refine h.congr rfl rfl (fun _ _ hlookup => hlookup) rfl fun g => ?_
  change (Function.update pool.frames f _ g).pageId = _ ∧ (Function.update pool.frames f _ g).pinCount = _
  by_cases hg : g = f
  · rw [hg, Function.update_self]
    exact ⟨rfl, rfl⟩
  · rw [Function.update_of_ne hg]
    exact ⟨rfl, rfl⟩

theorem writeBack (h : pool.Sound) (pageId : UInt64) (f : FrameId) : (pool.writeBack pageId f).Sound := by
  rw [BufferPoolManager.writeBack]
  split_ifs
  · exact h.setDirty f false _
  · exact h

theorem vacate (h : pool.Sound) (f : FrameId) : (pool.vacate f).Sound := by
  rw [BufferPoolManager.vacate]
  split_ifs
  · exact h
  · have htable : (pool.writeBack (pool.frames f).pageId f).pageTable = pool.pageTable := by
      rw [BufferPoolManager.writeBack]
      split_ifs <;> rfl
    refine (h.writeBack _ f).congr rfl rfl (fun pageId g hlookup => ?_) rfl fun g => ⟨rfl, rfl⟩
    rw [htable]
    by_cases hpage : pageId = (pool.frames f).pageId
    · rw [hpage, AList.lookup_erase] at hlookup
      cases hlookup
    · rwa [AList.lookup_erase_ne hpage] at hlookup

theorem install (h : pool.Sound) {f : FrameId} (hf : f < pool.count) (hfree : f ∉ pool.freeList) (pageId : UInt64)
    (page : SlottedPage) : (pool.install f pageId page).Sound := by
  refine h.access hf hfree { pageId, pinCount := 1, isDirty := false } (Function.update pool.pages f page)
    fun q g hlookup => ?_
  by_cases hq : q = pageId
  · rw [hq, AList.lookup_insert] at hlookup
    exact Or.inl (Option.some.inj hlookup).symm
  · rw [AList.lookup_insert_ne hq] at hlookup
    exact Or.inr hlookup

theorem setDisk (h : pool.Sound) (disk : DiskManager) : Sound { pool with disk } :=
  h.congr rfl rfl (fun _ _ hlookup => hlookup) rfl fun _ => ⟨rfl, rfl⟩

theorem load (h : pool.Sound) {f : FrameId} (hf : f < pool.count) (hfree : f ∉ pool.freeList) (pageId : UInt64)
    (page : SlottedPage) : ((pool.vacate f).install f pageId page).Sound := by
  obtain ⟨hsize, -, hlist, -⟩ := vacate_same pool f
  apply (h.vacate f).install
  · rwa [count, hsize]
  · rwa [hlist]

theorem hit (h : pool.Sound) {pageId : UInt64} {f : FrameId} (hlookup : pool.pageTable.lookup pageId = some f)
    (frame : FrameMeta) : ((pool.setFrame f frame).access f).Sound :=
  h.access (h.table pageId f hlookup).1 (h.table pageId f hlookup).2 frame pool.pages fun _ _ => Or.inr

theorem newPageFailing (h : pool.Sound) (visit : Visit) (stored : ℕ) : (pool.newPageFailing visit stored).2.Sound := by
  rw [BufferPoolManager.newPageFailing]
  rcases h.find_cases visit with hfind | ⟨f, freeList, r, hfind, hf, hfree, hfound, -⟩
  · rw [hfind]
    exact h
  · rw [hfind]
    simp only
    split
    · exact hfound.setDisk _
    · exact (hfound.setDisk _).load hf hfree _ _

theorem newPage (h : pool.Sound) (visit : Visit) : (pool.newPage visit).2.Sound := by
  rw [BufferPoolManager.newPage]
  rcases h.find_cases visit with hfind | ⟨f, freeList, r, hfind, hf, hfree, hfound, -⟩
  · rw [hfind]
    exact h
  · rw [hfind]
    exact (hfound.setDisk _).load hf hfree _ _

theorem fetchPageFailing (h : pool.Sound) (visit : Visit) (pageId : UInt64) (stored : ℕ) :
    (pool.fetchPageFailing visit pageId stored).2.Sound := by
  rw [BufferPoolManager.fetchPageFailing]
  cases hlookup : pool.pageTable.lookup pageId with
  | some f => exact h.hit hlookup _
  | none =>
    rcases h.find_cases visit with hfind | ⟨f, freeList, r, hfind, hf, hfree, hfound, -⟩
    · rw [hfind]
      exact h
    · rw [hfind]
      simp only
      split_ifs
      · exact hfound.setDisk _
      · exact hfound.load hf hfree _ _

theorem fetchPage (h : pool.Sound) (visit : Visit) (pageId : UInt64) : (pool.fetchPage visit pageId).2.Sound := by
  rw [BufferPoolManager.fetchPage]
  cases hlookup : pool.pageTable.lookup pageId with
  | some f => exact h.hit hlookup _
  | none =>
    rcases h.find_cases visit with hfind | ⟨f, freeList, r, hfind, hf, hfree, hfound, -⟩
    · rw [hfind]
      exact h
    · rw [hfind]
      exact hfound.load hf hfree _ _

theorem flushEntries (h : pool.Sound) (entries : List (Sigma fun _ : UInt64 => FrameId)) :
    (entries.foldl (fun pool entry => pool.writeBack entry.1 entry.2) pool).Sound := by
  induction entries generalizing pool with
  | nil => exact h
  | cons entry entries ih => exact ih (h.writeBack entry.1 entry.2)

theorem flushAllPagesFailing (h : pool.Sound) (visit : Visit) (before stored : ℕ) :
    (pool.flushAllPagesFailing visit before stored).2.Sound := by
  have hflushed := h.flushEntries ((visit.table.visit pool.pageTable.entries).take before)
  simp only [BufferPoolManager.flushAllPagesFailing]
  cases (visit.table.visit pool.pageTable.entries)[before]? with
  | none => exact hflushed
  | some entry =>
    simp only
    split_ifs
    · exact hflushed.setDisk _
    · exact h.flushEntries _

theorem unpinned (h : pool.Sound) (f : FrameId) (frame : FrameMeta) (hpage : frame.pageId = (pool.frames f).pageId)
    (hpin : (pool.frames f).pinCount ≠ 0) : (pool.setFrame f frame).Sound := by
  obtain ⟨known, evictable, hholds, hknown, hpins⟩ := h.replacer
  constructor
  · exact h.nodup
  · intro g hg
    rw [setFrame_frames]
    split_ifs with he
    · rw [hpage, ← he]
      exact h.free g hg
    · exact h.free g hg
  · exact h.table
  · refine ⟨known, evictable, hholds, hknown, fun g hg => ?_⟩
    rw [setFrame_frames, if_neg]
    · exact hpins g hg
    · rintro rfl
      exact hpin (hpins g hg)

theorem setEvictable (h : pool.Sound) {f : FrameId} (hpin : (pool.frames f).pinCount = 0) :
    Sound { pool with replacer := pool.replacer.setEvictable f true } := by
  obtain ⟨known, evictable, hholds, hknown, hpins⟩ := h.replacer
  refine ⟨h.nodup, h.free, h.table, ?_⟩
  by_cases hf : f ∈ known
  · refine ⟨known, insert f evictable, hholds.setEvictable hf true, hknown, fun g hg => ?_⟩
    rcases Finset.mem_insert.mp hg with rfl | hg
    · exact hpin
    · exact hpins g hg
  · have hsame : pool.replacer.setEvictable f true = pool.replacer := by
      have hnone : pool.replacer.entries.lookup f = none := by
        rw [AList.lookup_eq_none, ← hholds.mem_known]
        exact hf
      rw [LruKReplacer.setEvictable, hnone]
    rw [hsame]
    exact ⟨known, evictable, hholds, hknown, hpins⟩

theorem unpinPage (h : pool.Sound) (pageId : UInt64) (isDirty : Bool) : (pool.unpinPage pageId isDirty).2.Sound := by
  rw [BufferPoolManager.unpinPage]
  cases pool.pageTable.lookup pageId with
  | none => exact h
  | some f =>
    simp only
    split_ifs with hpin hzero
    · exact h
    · have hunpinned := h.unpinned f { pool.frames f with
        isDirty := (pool.frames f).isDirty || isDirty
        pinCount := (pool.frames f).pinCount - 1 } rfl fun hnone => hpin hnone.le
      apply hunpinned.setEvictable
      rw [setFrame_frames, if_pos rfl]
      exact hzero
    · exact h.unpinned f _ rfl fun hnone => hpin hnone.le

theorem flushPage (h : pool.Sound) (pageId : UInt64) : (pool.flushPage pageId).2.Sound := by
  rw [BufferPoolManager.flushPage]
  cases pool.pageTable.lookup pageId with
  | none => exact h
  | some f => exact h.setDirty f false _

theorem flushPageFailing (h : pool.Sound) (pageId : UInt64) (stored : ℕ) :
    (pool.flushPageFailing pageId stored).2.Sound := by
  rw [BufferPoolManager.flushPageFailing]
  cases pool.pageTable.lookup pageId with
  | none => exact h
  | some f => exact h.setDisk _

theorem change (h : pool.Sound) (pageId : UInt64) (page : SlottedPage) : (pool.change pageId page).Sound := by
  rw [BufferPoolManager.change]
  cases pool.pageTable.lookup pageId with
  | none => exact h
  | some f => exact h.congr rfl rfl (fun _ _ hlookup => hlookup) rfl fun _ => ⟨rfl, rfl⟩

theorem step (h : pool.Sound) (op : Op) : (pool.step op).Sound := by
  cases op with
  | newPage visit => exact h.newPage visit
  | fetchPage visit pageId => exact h.fetchPage visit pageId
  | unpinPage pageId isDirty => exact h.unpinPage pageId isDirty
  | flushPage pageId => exact h.flushPage pageId
  | flushAllPages visit => exact h.flushEntries _
  | change pageId page => exact h.change pageId page

theorem diskStep (h : pool.Sound) (op : DiskOp) : (pool.diskStep op).Sound := by
  cases op with
  | works op => exact h.step op
  | newPage visit stored => exact h.newPageFailing visit stored
  | fetchPage visit pageId stored => exact h.fetchPageFailing visit pageId stored
  | flushPage pageId stored => exact h.flushPageFailing pageId stored
  | flushAllPages visit before stored => exact h.flushAllPagesFailing visit before stored

end Sound

theorem sound_diskRun (poolSize : ℕ) (file : Bytes) (k : ℕ) (ops : List DiskOp) :
    (diskRun poolSize file k ops).Sound := by
  apply run_induct (construct_sound poolSize file k)
  intro pool op h
  exact h.diskStep op

def NoneLeaked (pool : BufferPoolManager) : Prop :=
  ∀ f < pool.poolSize, (pool.frames f).pinCount = 0 → f ∈ pool.freeList ∨ pool.replacer.evictable f = true

def DiskOp.Evicts : DiskOp → Prop
  | .newPage _ _ | .fetchPage _ _ _ => True
  | _ => False

def DiskOp.thrown (pool : BufferPoolManager) : DiskOp → Option String
  | .works _ => none
  | .newPage visit stored => message (pool.newPageFailing visit stored).1
  | .fetchPage visit pageId stored => message (pool.fetchPageFailing visit pageId stored).1
  | .flushPage pageId stored => message (pool.flushPageFailing pageId stored).1
  | .flushAllPages visit before stored => message (pool.flushAllPagesFailing visit before stored).1
where
  message {α : Type} : Except String α → Option String
    | .ok _ => none
    | .error text => some text

def Strands (pool pool' : BufferPoolManager) : Prop :=
  ∃ f freeList r disk, pool' = { pool with freeList, replacer := r, disk } ∧ f < pool.count ∧ f ∉ freeList ∧
    r.evictable f = false ∧ (pool.frames f).pinCount = 0

theorem strands_of_writesBack {pool : BufferPoolManager} {f : FrameId} {freeList : List FrameId} {r : LruKReplacer}
    (hf : f < pool.count) (hfree : f ∉ freeList) (hback : pool.writesBack f = true)
    (hvictim : (pool.frames f).pageId ≠ invalidPageId → (pool.frames f).pinCount = 0 ∧ r.evictable f = false)
    (disk : DiskManager) : Strands pool { pool with freeList, replacer := r, disk } := by
  rw [writesBack, Bool.and_eq_true, decide_eq_true_iff] at hback
  obtain ⟨hpin, hgone⟩ := hvictim hback.1
  exact ⟨f, freeList, r, disk, rfl, hf, hfree, hgone, hpin⟩

theorem Sound.newPage_strands {pool : BufferPoolManager} (h : pool.Sound) {visit : Visit} {stored : ℕ} {text : String}
    (hthrown : (pool.newPageFailing visit stored).1 = .error text) :
    Strands pool (pool.newPageFailing visit stored).2 := by
  unfold BufferPoolManager.newPageFailing at hthrown ⊢
  rcases h.find_cases visit with hfind | ⟨f, freeList, r, hfind, hf, hfree, -, hvictim⟩
  · rw [hfind] at hthrown
    cases hthrown
  · rw [hfind] at hthrown ⊢
    simp only at hthrown ⊢
    split_ifs at hthrown ⊢ with hback
    exact strands_of_writesBack hf hfree hback hvictim _

theorem Sound.fetchPage_strands {pool : BufferPoolManager} (h : pool.Sound) {visit : Visit} {pageId : UInt64}
    {stored : ℕ} {text : String} (hthrown : (pool.fetchPageFailing visit pageId stored).1 = .error text) :
    Strands pool (pool.fetchPageFailing visit pageId stored).2 := by
  unfold BufferPoolManager.fetchPageFailing at hthrown ⊢
  cases hlookup : pool.pageTable.lookup pageId with
  | some f =>
    rw [hlookup] at hthrown
    cases hthrown
  | none =>
    rw [hlookup] at hthrown
    rcases h.find_cases visit with hfind | ⟨f, freeList, r, hfind, hf, hfree, -, hvictim⟩
    · rw [hfind] at hthrown
      cases hthrown
    · rw [hfind] at hthrown ⊢
      simp only at hthrown ⊢
      split_ifs at hthrown ⊢ with hback
      exact strands_of_writesBack hf hfree hback hvictim _

theorem DiskOp.message_ne_none {α : Type} {result : Except String α} (h : DiskOp.thrown.message result ≠ none) :
    ∃ text, result = .error text := by
  cases result with
  | ok a => exact absurd rfl h
  | error text => exact ⟨text, rfl⟩

theorem Sound.strands {pool : BufferPoolManager} (h : pool.Sound) {op : DiskOp} (hevicts : op.Evicts)
    (hthrown : op.thrown pool ≠ none) : Strands pool (pool.diskStep op) := by
  cases op with
  | works op => exact hevicts.elim
  | flushPage pageId stored => exact hevicts.elim
  | flushAllPages visit before stored => exact hevicts.elim
  | newPage visit stored =>
    obtain ⟨text, htext⟩ := DiskOp.message_ne_none hthrown
    exact h.newPage_strands htext
  | fetchPage visit pageId stored =>
    obtain ⟨text, htext⟩ := DiskOp.message_ne_none hthrown
    exact h.fetchPage_strands htext

theorem failed_write_leaks_frame (poolSize : ℕ) (file : Bytes) (k : ℕ) (ops : List DiskOp) {op : DiskOp}
    (hevicts : op.Evicts) (hthrown : op.thrown (diskRun poolSize file k ops) ≠ none) :
    ¬ NoneLeaked (diskRun poolSize file k (ops ++ [op])) ∧
      (diskRun poolSize file k (ops ++ [op])).pageTable = (diskRun poolSize file k ops).pageTable ∧
      (diskRun poolSize file k (ops ++ [op])).frames = (diskRun poolSize file k ops).frames ∧
      (diskRun poolSize file k (ops ++ [op])).pages = (diskRun poolSize file k ops).pages := by
  obtain ⟨f, freeList, r, disk, hstep, hf, hfree, hgone, hpin⟩ :=
    (sound_diskRun poolSize file k ops).strands hevicts hthrown
  rw [diskRun, run_snoc, hstep]
  refine ⟨fun hall => ?_, rfl, rfl, rfl⟩
  rcases hall f (hf.trans_le (Nat.mod_le _ _)) hpin with hlisted | hevictable
  · exact hfree hlisted
  · rw [hgone] at hevictable
    cases hevictable

def unpinnedDirty : List DiskOp := [.works (.newPage {}), .works (.unpinPage 0 true)]

theorem unpinnedDirty_leaks :
    ¬ NoneLeaked (diskRun 1 [] 2 (unpinnedDirty ++ [DiskOp.newPage {} 0])) ∧
      (diskRun 1 [] 2 (unpinnedDirty ++ [DiskOp.newPage {} 0])).pageTable = (diskRun 1 [] 2 unpinnedDirty).pageTable ∧
      (diskRun 1 [] 2 (unpinnedDirty ++ [DiskOp.newPage {} 0])).frames = (diskRun 1 [] 2 unpinnedDirty).frames ∧
      (diskRun 1 [] 2 (unpinnedDirty ++ [DiskOp.newPage {} 0])).pages = (diskRun 1 [] 2 unpinnedDirty).pages :=
  failed_write_leaks_frame 1 [] 2 unpinnedDirty trivial (by decide +kernel)

theorem new_page_null_without_pins :
    let pool := diskRun 1 [] 2 (unpinnedDirty ++ [DiskOp.newPage {} 0])
    DiskOp.thrown (diskRun 1 [] 2 unpinnedDirty) (.newPage {} 0) = some "Disk write failed for page 0" ∧
      (pool.frames 0).pinCount = 0 ∧ (pool.frames 0).isDirty = true ∧ pool.freeList = [] ∧
      pool.replacer.evictable 0 = false ∧ (pool.newPage {}).1 = none := by
  decide +kernel

end BufferPoolManager

end SystemLevel.Storage
