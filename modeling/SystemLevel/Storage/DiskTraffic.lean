import SystemLevel.Storage.PoolLedger

/-!
The calls of `write_page` that a pool makes, and what can be said of all of them.
-/

namespace SystemLevel.Storage

open Runs

namespace DiskManager

def replay (file : Bytes) (writes : List (UInt64 × SlottedPage)) : Bytes :=
  writes.foldl (fun file write => splice file (offset write.1) write.2.bytes) file

def after (file : Bytes) (writes : List (UInt64 × SlottedPage)) : DiskManager := { file := replay file writes }

theorem after_snoc (file : Bytes) (writes : List (UInt64 × SlottedPage)) (write : UInt64 × SlottedPage) :
    after file (writes ++ [write]) = (after file writes).writePage write.1 write.2 := by
  rw [after, replay, List.foldl_append]
  rfl

end DiskManager

namespace BufferPoolManager

def backWrites (pool : BufferPoolManager) (pageId : UInt64) (f : FrameId) : List (UInt64 × SlottedPage) :=
  if (pool.frames f).isDirty then [(pageId, pool.pages f)] else []

def vacateWrites (pool : BufferPoolManager) (f : FrameId) : List (UInt64 × SlottedPage) :=
  if (pool.frames f).pageId = invalidPageId then [] else pool.backWrites (pool.frames f).pageId f

def flushWrites : BufferPoolManager → List (Sigma fun _ : UInt64 => FrameId) → List (UInt64 × SlottedPage)
  | _, [] => []
  | pool, entry :: entries =>
    pool.backWrites entry.1 entry.2 ++ flushWrites (pool.writeBack entry.1 entry.2) entries

def Op.writes (pool : BufferPoolManager) : Op → List (UInt64 × SlottedPage)
  | .newPage visit =>
    match (pool.findAvailableFrame visit).1 with
    | none => []
    | some f => pool.vacateWrites f
  | .fetchPage visit pageId =>
    match pool.pageTable.lookup pageId, (pool.findAvailableFrame visit).1 with
    | none, some f => pool.vacateWrites f
    | _, _ => []
  | .flushPage pageId =>
    match pool.pageTable.lookup pageId with
    | none => []
    | some f => [(pageId, pool.pages f)]
  | .flushAllPages visit => pool.flushWrites (visit.table.visit pool.pageTable.entries)
  | .unpinPage _ _ | .change _ _ => []

def Op.handedOut (pool : BufferPoolManager) : Op → List UInt64
  | .newPage visit => ((pool.newPage visit).1.map Prod.fst).toList
  | _ => []

structure Traffic where
  pool : BufferPoolManager
  writes : List (UInt64 × SlottedPage) := []
  handedOut : List UInt64 := []

def Traffic.step (t : Traffic) (op : Op) : Traffic where
  pool := t.pool.step op
  writes := t.writes ++ op.writes t.pool
  handedOut := t.handedOut ++ op.handedOut t.pool

abbrev traffic (poolSize : ℕ) (file : Bytes) (k : ℕ) (ops : List Op) : Traffic :=
  Runs.run Traffic.step { pool := construct poolSize file k } ops

variable {pool : BufferPoolManager}

theorem findAvailableFrame_eq (pool : BufferPoolManager) (visit : Visit) :
    ∃ freeList replacer, pool.findAvailableFrame visit =
      ((pool.findAvailableFrame visit).1, { pool with freeList, replacer }) := by
  unfold findAvailableFrame
  cases pool.freeList with
  | nil => exact ⟨_, _, rfl⟩
  | cons f rest => exact ⟨_, _, rfl⟩

theorem newPage_eq (pool : BufferPoolManager) (visit : Visit) :
    ∃ freeList replacer, pool.newPage visit =
      match (pool.findAvailableFrame visit).1 with
      | none => (none, { pool with freeList, replacer })
      | some f => (some (pool.disk.nextPageId, f),
          ({ pool with freeList, replacer, disk := pool.disk.allocatePage.2 }.vacate f).install f pool.disk.nextPageId
            (SlottedPage.init pool.disk.nextPageId)) := by
  obtain ⟨freeList, replacer, hfind⟩ := findAvailableFrame_eq pool visit
  refine ⟨freeList, replacer, ?_⟩
  rw [newPage, hfind]
  cases (pool.findAvailableFrame visit).1 <;> rfl

theorem fetchPage_eq (pool : BufferPoolManager) (visit : Visit) {pageId : UInt64}
    (hmiss : pool.pageTable.lookup pageId = none) :
    ∃ freeList replacer, pool.fetchPage visit pageId =
      match (pool.findAvailableFrame visit).1 with
      | none => (none, { pool with freeList, replacer })
      | some f =>
        let vacated := { pool with freeList, replacer }.vacate f
        (some f, vacated.install f pageId (vacated.disk.readPage pageId (pool.pages f))) := by
  obtain ⟨freeList, replacer, hfind⟩ := findAvailableFrame_eq pool visit
  refine ⟨freeList, replacer, ?_⟩
  rw [fetchPage, hmiss, hfind]
  cases (pool.findAvailableFrame visit).1 with
  | none => rfl
  | some f =>
    have hpages := (vacate_same { pool with freeList, replacer } f).2.1
    simp only
    rw [hpages]

theorem writeBack_file (pool : BufferPoolManager) (pageId : UInt64) (f : FrameId) :
    (pool.writeBack pageId f).disk.file = DiskManager.replay pool.disk.file (pool.backWrites pageId f) := by
  rw [writeBack, backWrites]
  split_ifs <;> rfl

theorem vacate_file (pool : BufferPoolManager) (f : FrameId) :
    (pool.vacate f).disk.file = DiskManager.replay pool.disk.file (pool.vacateWrites f) := by
  rw [vacate, vacateWrites]
  split_ifs
  · rfl
  · exact writeBack_file pool _ f

theorem flushWrites_file (pool : BufferPoolManager) (entries : List (Sigma fun _ : UInt64 => FrameId)) :
    (entries.foldl (fun pool entry => pool.writeBack entry.1 entry.2) pool).disk.file =
      DiskManager.replay pool.disk.file (pool.flushWrites entries) := by
  induction entries generalizing pool with
  | nil => rfl
  | cons entry entries ih =>
    rw [List.foldl_cons, ih, flushWrites, DiskManager.replay, DiskManager.replay, List.foldl_append, writeBack_file]
    rfl

theorem unpinPage_disk (pool : BufferPoolManager) (pageId : UInt64) (isDirty : Bool) :
    (pool.unpinPage pageId isDirty).2.disk = pool.disk := by
  unfold unpinPage
  cases pool.pageTable.lookup pageId with
  | none => rfl
  | some f =>
    simp only
    split_ifs <;> rfl

theorem step_file (pool : BufferPoolManager) (op : Op) :
    (pool.step op).disk.file = DiskManager.replay pool.disk.file (op.writes pool) := by
  cases op with
  | newPage visit =>
    obtain ⟨freeList, replacer, heq⟩ := newPage_eq pool visit
    rw [step, heq, Op.writes]
    cases (pool.findAvailableFrame visit).1 with
    | none => rfl
    | some f => exact vacate_file { pool with freeList, replacer, disk := pool.disk.allocatePage.2 } f
  | fetchPage visit pageId =>
    cases hlookup : pool.pageTable.lookup pageId with
    | some f =>
      simp only [step, fetchPage, Op.writes, hlookup]
      rfl
    | none =>
      obtain ⟨freeList, replacer, heq⟩ := fetchPage_eq pool visit hlookup
      rw [step, heq, Op.writes, hlookup]
      cases (pool.findAvailableFrame visit).1 with
      | none => rfl
      | some f => exact vacate_file { pool with freeList, replacer } f
  | unpinPage pageId isDirty =>
    rw [step, unpinPage_disk]
    rfl
  | flushPage pageId =>
    rw [step, flushPage, Op.writes]
    cases pool.pageTable.lookup pageId <;> rfl
  | flushAllPages visit => exact flushWrites_file pool _
  | change pageId page =>
    rw [step, change]
    cases pool.pageTable.lookup pageId <;> rfl

theorem traffic_file (poolSize : ℕ) (file : Bytes) (k : ℕ) (ops : List Op) :
    (traffic poolSize file k ops).pool.disk.file = DiskManager.replay file (traffic poolSize file k ops).writes := by
  induction ops using List.reverseRecOn with
  | nil => rfl
  | append_singleton ops op ih =>
    rw [traffic, run_snoc]
    change (step _ op).disk.file = DiskManager.replay file (_ ++ _)
    rw [step_file, ih, DiskManager.replay, DiskManager.replay, DiskManager.replay, List.foldl_append]

structure Keeps (Ok : UInt64 → SlottedPage → Prop) (pool : BufferPoolManager) : Prop where
  mapped : ∀ pageId f, pool.pageTable.lookup pageId = some f → (pool.frames f).pageId = pageId ∧ pageId ≠ invalidPageId
  table : ∀ pageId f, pool.pageTable.lookup pageId = some f → Ok pageId (pool.pages f)
  dirty : ∀ f, (pool.frames f).isDirty = true → Ok (pool.frames f).pageId (pool.pages f)

def FindsFrame (pool : BufferPoolManager) (visit : Visit) : Prop := (pool.findAvailableFrame visit).1 ≠ none

instance decidableFindsFrame (pool : BufferPoolManager) (visit : Visit) : Decidable (pool.FindsFrame visit) :=
  inferInstanceAs (Decidable (_ ≠ _))

def Op.Allowed (Ok : UInt64 → SlottedPage → Prop) (pool : BufferPoolManager) : Op → Prop
  | .newPage visit => pool.FindsFrame visit →
    pool.disk.nextPageId ≠ invalidPageId ∧ Ok pool.disk.nextPageId (SlottedPage.init pool.disk.nextPageId)
  | .fetchPage visit pageId => pool.FindsFrame visit → pool.pageTable.lookup pageId = none →
    pageId ≠ invalidPageId ∧ ∀ f, Ok pageId ((pool.vacate f).disk.readPage pageId (pool.pages f))
  | .change pageId page => ∀ f, pool.pageTable.lookup pageId = some f → Ok pageId page
  | _ => True

namespace Keeps

variable {Ok : UInt64 → SlottedPage → Prop} (h : pool.Keeps Ok)

include h

theorem backWrites {pageId : UInt64} {f : FrameId} (hlookup : pool.pageTable.lookup pageId = some f) :
    ∀ write ∈ pool.backWrites pageId f, Ok write.1 write.2 := by
  intro write hwrite
  rw [BufferPoolManager.backWrites] at hwrite
  split_ifs at hwrite
  · rw [List.mem_singleton] at hwrite
    rw [hwrite]
    exact h.table pageId f hlookup
  · cases hwrite

theorem vacateWrites (f : FrameId) : ∀ write ∈ pool.vacateWrites f, Ok write.1 write.2 := by
  intro write hwrite
  rw [BufferPoolManager.vacateWrites, BufferPoolManager.backWrites] at hwrite
  split_ifs at hwrite with hinvalid hdirty
  · cases hwrite
  · rw [List.mem_singleton] at hwrite
    rw [hwrite]
    exact h.dirty f hdirty
  · cases hwrite

theorem rests {pool' : BufferPoolManager} (hrests : Rests pool pool') (hpages : pool'.pages = pool.pages)
    (hdirty : ∀ f, (pool'.frames f).isDirty = true → (pool.frames f).isDirty = true) : pool'.Keeps Ok where
  mapped := by
    rw [hrests.pageTable_eq]
    intro pageId f hlookup
    rw [hrests.pageId_eq]
    exact h.mapped pageId f hlookup
  table := by
    rw [hrests.pageTable_eq, hpages]
    exact h.table
  dirty f hf := by
    rw [hrests.pageId_eq, hpages]
    exact h.dirty f (hdirty f hf)

theorem writeOut (pageId : UInt64) (f : FrameId) : (pool.writeOut pageId f).Keeps Ok := by
  refine h.rests (writeOut_rests pool pageId f) rfl fun g hg => ?_
  rw [writeOut_isDirty] at hg
  split_ifs at hg
  exact hg

theorem writeBack (pageId : UInt64) (f : FrameId) : (pool.writeBack pageId f).Keeps Ok := by
  unfold BufferPoolManager.writeBack
  split_ifs
  · exact h.writeOut pageId f
  · exact h

theorem lookup_invalid : pool.pageTable.lookup invalidPageId = none := by
  rw [Option.eq_none_iff_forall_ne_some]
  intro f hf
  exact (h.mapped _ _ hf).2 rfl

theorem lookup_install {pageId q : UInt64} {page : SlottedPage} {f g : FrameId}
    (hlookup : ((pool.vacate f).install f pageId page).pageTable.lookup q = some g) :
    q = pageId ∧ g = f ∨ pool.pageTable.lookup q = some g ∧ g ≠ f := by
  rw [install_lookup pool f pageId page h.lookup_invalid] at hlookup
  split_ifs at hlookup with hself hold
  · exact Or.inl ⟨hself, (Option.some.inj hlookup).symm⟩
  · refine Or.inr ⟨hlookup, ?_⟩
    rintro rfl
    exact hold (h.mapped q g hlookup).1.symm

theorem install {pageId : UInt64} {page : SlottedPage} (f : FrameId) (hvalid : pageId ≠ invalidPageId)
    (hok : Ok pageId page) : ((pool.vacate f).install f pageId page).Keeps Ok := by
  refine ⟨fun q g hq => ?_, fun q g hq => ?_, fun g hg => ?_⟩
  · rw [install_frames]
    rcases h.lookup_install hq with ⟨rfl, rfl⟩ | ⟨hq, hg⟩
    · rw [Function.update_self]
      exact ⟨rfl, hvalid⟩
    · rw [Function.update_of_ne hg]
      exact h.mapped q g hq
  · rw [install_pages]
    rcases h.lookup_install hq with ⟨rfl, rfl⟩ | ⟨hq, hg⟩
    · rw [Function.update_self]
      exact hok
    · rw [Function.update_of_ne hg]
      exact h.table q g hq
  · rw [install_frames] at hg ⊢
    rw [install_pages]
    by_cases he : g = f
    · rw [he, Function.update_self] at hg
      cases hg
    · rw [Function.update_of_ne he] at hg ⊢
      rw [Function.update_of_ne he]
      exact h.dirty g hg

theorem setFrame {f : FrameId} {frame : FrameMeta} (hpage : frame.pageId = (pool.frames f).pageId)
    (hdirty : frame.isDirty = true → Ok frame.pageId (pool.pages f)) : (pool.setFrame f frame).Keeps Ok := by
  refine ⟨fun q g hq => ?_, h.table, fun g hg => ?_⟩
  · rw [setFrame_frames]
    split_ifs with he
    · rw [hpage, ← he]
      exact h.mapped q g hq
    · exact h.mapped q g hq
  · rw [setFrame_frames] at hg ⊢
    split_ifs at hg ⊢ with he
    · rw [he]
      exact hdirty hg
    · exact h.dirty g hg

theorem withReplacer (replacer : LruKReplacer) : Keeps Ok { pool with replacer } := ⟨h.mapped, h.table, h.dirty⟩

theorem unpinPage (pageId : UInt64) (isDirty : Bool) : (pool.unpinPage pageId isDirty).2.Keeps Ok := by
  unfold BufferPoolManager.unpinPage
  cases hlookup : pool.pageTable.lookup pageId with
  | none => exact h
  | some f =>
    have hset : (pool.setFrame f { pool.frames f with
        isDirty := (pool.frames f).isDirty || isDirty, pinCount := (pool.frames f).pinCount - 1 }).Keeps Ok := by
      refine h.setFrame rfl fun _ => ?_
      change Ok (pool.frames f).pageId (pool.pages f)
      rw [(h.mapped pageId f hlookup).1]
      exact h.table pageId f hlookup
    simp only
    split_ifs
    · exact h
    · exact hset.withReplacer _
    · exact hset

theorem change {pageId : UInt64} {page : SlottedPage} (hallowed : (Op.change pageId page).Allowed Ok pool) :
    (pool.change pageId page).Keeps Ok := by
  unfold BufferPoolManager.change
  cases hlookup : pool.pageTable.lookup pageId with
  | none => exact h
  | some f =>
    have hok := hallowed f hlookup
    have hpage := (h.mapped pageId f hlookup).1
    refine ⟨h.mapped, fun q g hq => ?_, fun g hg => ?_⟩
    · change Ok q (Function.update pool.pages f page g)
      rw [Function.update_apply]
      split_ifs with he
      · rw [← (h.mapped q g hq).1, he, hpage]
        exact hok
      · exact h.table q g hq
    · change Ok (pool.frames g).pageId (Function.update pool.pages f page g)
      rw [Function.update_apply]
      split_ifs with he
      · rw [he, hpage]
        exact hok
      · exact h.dirty g hg

theorem flushWrites (entries : List (Sigma fun _ : UInt64 => FrameId))
    (hentries : ∀ entry ∈ entries, pool.pageTable.lookup entry.1 = some entry.2) :
    (entries.foldl (fun pool entry => pool.writeBack entry.1 entry.2) pool).Keeps Ok ∧
      ∀ write ∈ pool.flushWrites entries, Ok write.1 write.2 := by
  induction entries generalizing pool with
  | nil => exact ⟨h, fun write hwrite => absurd hwrite List.not_mem_nil⟩
  | cons entry entries ih =>
    have hrest : ∀ next ∈ entries, (pool.writeBack entry.1 entry.2).pageTable.lookup next.1 = some next.2 := by
      intro next hnext
      rw [(writeBack_rests pool entry.1 entry.2).pageTable_eq]
      exact hentries next (List.mem_cons_of_mem _ hnext)
    obtain ⟨hkeeps, hwrites⟩ := ih (h.writeBack entry.1 entry.2) hrest
    refine ⟨hkeeps, fun write hwrite => ?_⟩
    rw [BufferPoolManager.flushWrites, List.mem_append] at hwrite
    rcases hwrite with hwrite | hwrite
    · exact h.backWrites (hentries entry List.mem_cons_self) write hwrite
    · exact hwrites write hwrite

theorem fetchPage {visit : Visit} {pageId : UInt64} (hallowed : (Op.fetchPage visit pageId).Allowed Ok pool) :
    (pool.fetchPage visit pageId).2.Keeps Ok ∧
      ∀ write ∈ (Op.fetchPage visit pageId).writes pool, Ok write.1 write.2 := by
  rw [Op.writes]
  cases hlookup : pool.pageTable.lookup pageId with
  | some f =>
    have hset : (pool.setFrame f { pool.frames f with pinCount := int32 ((pool.frames f).pinCount + 1) }).Keeps Ok :=
      h.setFrame rfl (h.dirty f)
    simp only [BufferPoolManager.fetchPage, hlookup]
    exact ⟨hset.withReplacer _, fun write hwrite => absurd hwrite List.not_mem_nil⟩
  | none =>
    obtain ⟨freeList, replacer, heq⟩ := fetchPage_eq pool visit hlookup
    have hfound : Keeps Ok { pool with freeList, replacer } := ⟨h.mapped, h.table, h.dirty⟩
    rw [heq]
    cases hfind : (pool.findAvailableFrame visit).1 with
    | none => exact ⟨hfound, fun write hwrite => absurd hwrite List.not_mem_nil⟩
    | some f =>
      obtain ⟨hvalid, hread⟩ := hallowed (by rw [FindsFrame, hfind]; exact Option.some_ne_none f) hlookup
      refine ⟨hfound.install f hvalid ?_, h.vacateWrites f⟩
      have hfile : ({ pool with freeList, replacer }.vacate f).disk.file = (pool.vacate f).disk.file := by
        rw [vacate_file, vacate_file]
        rfl
      rw [DiskManager.readPage_congr hfile]
      exact hread f

theorem newPage {visit : Visit} (hallowed : (Op.newPage visit).Allowed Ok pool) :
    (pool.newPage visit).2.Keeps Ok ∧ ∀ write ∈ (Op.newPage visit).writes pool, Ok write.1 write.2 := by
  obtain ⟨freeList, replacer, heq⟩ := newPage_eq pool visit
  rw [heq, Op.writes]
  cases hfind : (pool.findAvailableFrame visit).1 with
  | none => exact ⟨⟨h.mapped, h.table, h.dirty⟩, fun write hwrite => absurd hwrite List.not_mem_nil⟩
  | some f =>
    have hfound : Keeps Ok { pool with freeList, replacer, disk := pool.disk.allocatePage.2 } :=
      ⟨h.mapped, h.table, h.dirty⟩
    obtain ⟨hvalid, hok⟩ := hallowed (by rw [FindsFrame, hfind]; exact Option.some_ne_none f)
    exact ⟨hfound.install f hvalid hok, h.vacateWrites f⟩

theorem step {op : Op} (hallowed : op.Allowed Ok pool) :
    (pool.step op).Keeps Ok ∧ ∀ write ∈ op.writes pool, Ok write.1 write.2 := by
  cases op with
  | newPage visit => exact h.newPage hallowed
  | fetchPage visit pageId => exact h.fetchPage hallowed
  | unpinPage pageId isDirty =>
    exact ⟨h.unpinPage pageId isDirty, fun write hwrite => absurd hwrite List.not_mem_nil⟩
  | flushPage pageId =>
    simp only [BufferPoolManager.step, flushPage, Op.writes]
    cases hlookup : pool.pageTable.lookup pageId with
    | none => exact ⟨h, fun write hwrite => absurd hwrite List.not_mem_nil⟩
    | some f =>
      refine ⟨h.writeOut pageId f, fun write hwrite => ?_⟩
      rw [List.mem_singleton] at hwrite
      rw [hwrite]
      exact h.table pageId f hlookup
  | flushAllPages visit =>
    refine h.flushWrites _ fun entry hentry => ?_
    exact AList.mem_lookup_iff.mpr ((visit.table.perm _).mem_iff.mp hentry)
  | change pageId page => exact ⟨h.change hallowed, fun write hwrite => absurd hwrite List.not_mem_nil⟩

end Keeps

theorem construct_keeps (Ok : UInt64 → SlottedPage → Prop) (poolSize : ℕ) (file : Bytes) (k : ℕ) :
    (construct poolSize file k).Keeps Ok := by
  refine ⟨fun q f hq => ?_, fun q f hq => ?_, fun f hf => ?_⟩
  · simp [construct] at hq
  · simp [construct] at hq
  · change FrameMeta.isDirty (if f < reached poolSize then _ else _) = true at hf
    split_ifs at hf

theorem keeps_traffic {Ok : UInt64 → SlottedPage → Prop} {poolSize : ℕ} {file : Bytes} {k : ℕ}
    {guard : List Op → Op → Prop}
    (hguard : ∀ past op, guard past op → (traffic poolSize file k past).pool.Keeps Ok →
      (∀ write ∈ (traffic poolSize file k past).writes, Ok write.1 write.2) →
        op.Allowed Ok (traffic poolSize file k past).pool) {ops : List Op} (h : Lawful guard ops) :
    (traffic poolSize file k ops).pool.Keeps Ok ∧
      ∀ write ∈ (traffic poolSize file k ops).writes, Ok write.1 write.2 := by
  refine h.induct (motive := fun _ (t : Traffic) => t.pool.Keeps Ok ∧ ∀ write ∈ t.writes, Ok write.1 write.2) ?_ ?_
  · exact ⟨construct_keeps Ok poolSize file k, fun write hwrite => absurd hwrite List.not_mem_nil⟩
  · intro past op hop ih
    obtain ⟨hkeeps, hwrites⟩ := ih.1.step (hguard past op hop ih.1 ih.2)
    refine ⟨hkeeps, fun write hwrite => ?_⟩
    rcases List.mem_append.mp hwrite with hwrite | hwrite
    · exact ih.2 write hwrite
    · exact hwrites write hwrite

end BufferPoolManager

end SystemLevel.Storage
