import SystemLevel.Storage.PoolSteps

namespace SystemLevel.Storage.BufferPoolManager

open Runs

def Op.pageId : Op → Option UInt64
  | .fetchPage _ pageId | .unpinPage pageId _ | .flushPage pageId | .change pageId _ => some pageId
  | _ => none

def Op.pinned (pool : BufferPoolManager) (pageId : UInt64) : Op → ℤ
  | .newPage visit => if (pool.newPage visit).1.map Prod.fst = some pageId then 1 else 0
  | .fetchPage visit id => if id = pageId ∧ (pool.fetchPage visit id).1.isSome then 1 else 0
  | .unpinPage id isDirty => if id = pageId ∧ (pool.unpinPage id isDirty).1 then -1 else 0
  | _ => 0

structure Session where
  pool : BufferPoolManager
  balance : UInt64 → ℤ

def settle (pool' : BufferPoolManager) (balance pinned : UInt64 → ℤ) (pageId : UInt64) : ℤ :=
  if pool'.pageTable.lookup pageId = none then 0 else balance pageId + pinned pageId

def Session.step (s : Session) (op : Op) : Session where
  pool := s.pool.step op
  balance := settle (s.pool.step op) s.balance fun pageId => op.pinned s.pool pageId

abbrev session (poolSize : ℕ) (file : Bytes) (k : ℕ) (ops : List Op) : Session :=
  Runs.run Session.step { pool := construct poolSize file k, balance := fun _ => 0 } ops

/-- A new page gets an id that no frame has, and no counter passes the largest `int32_t`. -/
def Op.Guarded (pool : BufferPoolManager) : Op → Prop
  | .newPage _ => pool.pageTable.lookup pool.disk.nextPageId = none ∧ pool.disk.nextPageId ≠ invalidPageId
  | .fetchPage _ pageId => ∀ f, pool.pageTable.lookup pageId = some f → (pool.frames f).pinCount < 2 ^ 31 - 1
  | _ => True

def Guarded (poolSize : ℕ) (file : Bytes) (k : ℕ) (past : List Op) (op : Op) : Prop :=
  op.Guarded (session poolSize file k past).pool

def Op.Valid (op : Op) : Prop := op.pageId ≠ some invalidPageId

instance (op : Op) : Decidable op.Valid := inferInstanceAs (Decidable (_ ≠ _))

structure Balanced (pool : BufferPoolManager) (balance : UInt64 → ℤ) : Prop where
  consistent : pool.Consistent
  absent : ∀ pageId, pool.pageTable.lookup pageId = none → balance pageId = 0
  pins : ∀ pageId f, pool.pageTable.lookup pageId = some f → (pool.frames f).pinCount = balance pageId

namespace Balanced

variable {pool pool' : BufferPoolManager} {balance pinned : UInt64 → ℤ} (h : Balanced pool balance)

include h

theorem rests (hrests : Rests pool pool') (hpinned : ∀ pageId, pinned pageId = 0) :
    Balanced pool' (settle pool' balance pinned) := by
  refine ⟨hrests.consistent h.consistent, fun pageId hnone => if_pos hnone, fun pageId f hlookup => ?_⟩
  rw [settle, hlookup, if_neg (Option.some_ne_none f), hpinned, add_zero, hrests.pinCount_eq]
  rw [hrests.pageTable_eq] at hlookup
  exact h.pins pageId f hlookup

theorem loads {f : FrameId} {pageId : UInt64} {page : SlottedPage} (hloads : Loads pool pool' f pageId page)
    (hfresh : pool.pageTable.lookup pageId = none) (hvalid : pageId ≠ invalidPageId)
    (hpinned : ∀ q, pinned q = if q = pageId then 1 else 0) : Balanced pool' (settle pool' balance pinned) := by
  refine ⟨hloads.consistent h.consistent hfresh hvalid, fun q hnone => if_pos hnone, fun q g hlookup => ?_⟩
  rw [settle, hlookup, if_neg (Option.some_ne_none g), hpinned]
  rw [hloads.lookup_eq] at hlookup
  split_ifs at hlookup with hq hold
  · obtain rfl := Option.some.inj hlookup
    rw [if_pos hq, hq, h.absent pageId hfresh, hloads.frame_self, zero_add]
  · have hg : g ≠ f := by
      rintro rfl
      exact hold ((h.consistent.table q g).mp hlookup).2.1.symm
    rw [if_neg hq, add_zero, hloads.frame_other hg, h.pins q g hlookup]

theorem repins {f : FrameId} {pageId : UInt64} {pinCount : ℤ} (hrepins : Repins pool pool' f pinCount)
    (hf : pool.pageTable.lookup pageId = some f) (hpin : 0 ≤ pinCount)
    (hpinned : ∀ q, pinned q = if q = pageId then pinCount - (pool.frames f).pinCount else 0) :
    Balanced pool' (settle pool' balance pinned) := by
  refine ⟨hrepins.consistent h.consistent hpin, fun q hnone => if_pos hnone, fun q g hlookup => ?_⟩
  rw [settle, hlookup, if_neg (Option.some_ne_none g), hpinned, hrepins.pinCount_eq]
  rw [hrepins.pageTable_eq] at hlookup
  have hiff : g = f ↔ q = pageId := by
    constructor
    · rintro rfl
      exact h.consistent.page_eq hlookup hf
    · rintro rfl
      exact Option.some.inj (hlookup.symm.trans hf)
  by_cases hg : g = f
  · rw [if_pos hg, if_pos (hiff.mp hg), ← h.pins q g hlookup, hg]
    omega
  · rw [if_neg hg, if_neg (mt hiff.mpr hg), add_zero, h.pins q g hlookup]

theorem newPage (visit : Visit) (hguard : (Op.newPage visit).Guarded pool) :
    Balanced (pool.newPage visit).2
      (settle (pool.newPage visit).2 balance fun pageId => (Op.newPage visit).pinned pool pageId) := by
  rcases h.consistent.newPage_cases visit with ⟨hnone, -⟩ | ⟨f, pool', hsome, -, hloads⟩
  · simp only [Op.pinned, hnone]
    exact h.rests (Rests.refl pool) fun _ => if_neg (by simp)
  · simp only [Op.pinned, hsome]
    exact h.loads hloads hguard.1 hguard.2 fun q => by simp [eq_comm]

theorem fetchPage (visit : Visit) {pageId : UInt64} (hvalid : pageId ≠ invalidPageId)
    (hguard : (Op.fetchPage visit pageId).Guarded pool) :
    Balanced (pool.fetchPage visit pageId).2
      (settle (pool.fetchPage visit pageId).2 balance fun q => (Op.fetchPage visit pageId).pinned pool q) := by
  cases hlookup : pool.pageTable.lookup pageId with
  | some f =>
    obtain ⟨pool', hfetch, -, -, -, hrepins⟩ := h.consistent.fetchPage_hit visit hlookup (hguard f hlookup)
    have hnonneg := h.consistent.pins f (mem_resident.mp hrepins.held).1
    simp only [Op.pinned, hfetch]
    exact h.repins hrepins hlookup (by omega) fun q => by simp [eq_comm]
  | none =>
    rcases h.consistent.fetchPage_cases visit hlookup with ⟨hnone, -⟩ | ⟨f, pool', hsome, -, hloads⟩
    · simp only [Op.pinned, hnone]
      exact h.rests (Rests.refl pool) fun _ => if_neg (by simp)
    · simp only [Op.pinned, hsome]
      exact h.loads hloads hlookup hvalid fun q => by simp [eq_comm]

theorem unpinPage (pageId : UInt64) (isDirty : Bool) :
    Balanced (pool.unpinPage pageId isDirty).2
      (settle (pool.unpinPage pageId isDirty).2 balance fun q => (Op.unpinPage pageId isDirty).pinned pool q) := by
  rcases h.consistent.unpinPage_cases pageId isDirty
    with ⟨hfalse, -⟩ | ⟨f, pool', hlookup, hpin, htrue, -, -, -, hrepins⟩
  · simp only [Op.pinned, hfalse]
    exact h.rests (Rests.refl pool) fun _ => if_neg (by simp)
  · simp only [Op.pinned, htrue]
    exact h.repins hrepins hlookup (by omega) fun q => by simp [eq_comm]

theorem step {op : Op} (hvalid : op.Valid) (hguard : op.Guarded pool) :
    Balanced (pool.step op) (settle (pool.step op) balance fun pageId => op.pinned pool pageId) := by
  cases op with
  | newPage visit => exact h.newPage visit hguard
  | fetchPage visit pageId => exact h.fetchPage visit (fun he => hvalid (congrArg some he)) hguard
  | unpinPage pageId isDirty => exact h.unpinPage pageId isDirty
  | flushPage pageId => exact h.rests (flushPage_rests pool pageId) fun _ => rfl
  | flushAllPages visit => exact h.rests (flushAllPages_rests pool visit) fun _ => rfl
  | change pageId page => exact h.rests (change_rests pool pageId page) fun _ => rfl

end Balanced

theorem Consistent.step_pinned {pool : BufferPoolManager} (h : pool.Consistent) (op : Op) :
    (pool.step op).poolSize = pool.poolSize ∧
      ∀ f, 0 < (pool.frames f).pinCount → ((pool.step op).frames f).pageId = (pool.frames f).pageId := by
  have hrests : ∀ {pool'}, Rests pool pool' → pool'.poolSize = pool.poolSize ∧
      ∀ f, 0 < (pool.frames f).pinCount → (pool'.frames f).pageId = (pool.frames f).pageId :=
    fun hr => ⟨hr.poolSize_eq, fun f _ => hr.pageId_eq f⟩
  have hloads : ∀ {pool' f pageId page}, Loads pool pool' f pageId page → pool'.poolSize = pool.poolSize ∧
      ∀ g, 0 < (pool.frames g).pinCount → (pool'.frames g).pageId = (pool.frames g).pageId := by
    intro pool' f pageId page hl
    refine ⟨hl.poolSize_eq, fun g hg => ?_⟩
    have hne : g ≠ f := by
      rintro rfl
      exact absurd hl.available.2 hg.ne'
    rw [hl.frame_other hne]
  cases op with
  | newPage visit =>
    rcases h.newPage_cases visit with ⟨hnone, -⟩ | ⟨f, pool', hsome, -, hl⟩
    · rw [step, hnone]
      exact hrests (Rests.refl pool)
    · rw [step, hsome]
      exact hloads hl
  | fetchPage visit pageId =>
    cases hlookup : pool.pageTable.lookup pageId with
    | some f =>
      simp only [step, fetchPage, hlookup]
      refine ⟨rfl, fun g _ => ?_⟩
      change ((pool.setFrame f _).frames g).pageId = _
      rw [setFrame_frames]
      split_ifs with hg
      · rw [hg]
      · rfl
    | none =>
      rcases h.fetchPage_cases visit hlookup with ⟨hnone, -⟩ | ⟨f, pool', hsome, -, hl⟩
      · rw [step, hnone]
        exact hrests (Rests.refl pool)
      · rw [step, hsome]
        exact hloads hl
  | unpinPage pageId isDirty =>
    rcases h.unpinPage_cases pageId isDirty with ⟨hfalse, -⟩ | ⟨f, pool', -, -, htrue, -, -, -, hrepins⟩
    · rw [step, hfalse]
      exact hrests (Rests.refl pool)
    · rw [step, htrue]
      exact ⟨hrepins.poolSize_eq, fun g _ => hrepins.pageId_eq g⟩
  | flushPage pageId => exact hrests (flushPage_rests pool pageId)
  | flushAllPages visit => exact hrests (flushAllPages_rests pool visit)
  | change pageId page => exact hrests (change_rests pool pageId page)

theorem balanced_session (poolSize : ℕ) (file : Bytes) (k : ℕ) {ops : List Op} (hvalid : ∀ op ∈ ops, op.Valid)
    (hguard : Lawful (Guarded poolSize file k) ops) :
    Balanced (session poolSize file k ops).pool (session poolSize file k ops).balance ∧
      (session poolSize file k ops).pool.poolSize = poolSize := by
  induction ops using List.reverseRecOn with
  | nil =>
    exact ⟨⟨construct_consistent poolSize file k, fun _ _ => rfl, fun pageId f hf => by simp [construct] at hf⟩, rfl⟩
  | append_singleton ops op ih =>
    obtain ⟨hpast, hop⟩ := (lawful_snoc ops op).mp hguard
    obtain ⟨hbalanced, hsize⟩ := ih (fun op' hmem => hvalid op' (by simp [hmem])) hpast
    rw [session, run_snoc]
    exact ⟨hbalanced.step (hvalid op (by simp)) hop, (hbalanced.consistent.step_pinned op).1.trans hsize⟩

theorem Loads.not_allPinned {pool pool' : BufferPoolManager} {f : FrameId} {pageId : UInt64} {page : SlottedPage}
    (h : Loads pool pool' f pageId page) : ¬ pool.AllPinned :=
  fun hall => absurd h.available.2 (hall f h.available.1).ne'

theorem none_iff_allPinned {α : Type} {pool : BufferPoolManager} {result : Option α × BufferPoolManager}
    (h : (result = (none, pool) ∧ pool.AllPinned) ∨ (result.1.isSome ∧ ¬ pool.AllPinned)) :
    (result.1 = none ↔ pool.AllPinned) ∧ (result.1 = none → result.2 = pool) := by
  rcases h with ⟨rfl, hall⟩ | ⟨hsome, hall⟩
  · exact ⟨⟨fun _ => hall, fun _ => rfl⟩, fun _ => rfl⟩
  · have hne : result.1 ≠ none := Option.isSome_iff_ne_none.mp hsome
    exact ⟨⟨fun hnone => absurd hnone hne, fun h => absurd h hall⟩, fun hnone => absurd hnone hne⟩

theorem Consistent.newPage_none {pool : BufferPoolManager} (h : pool.Consistent) (visit : Visit) :
    ((pool.newPage visit).1 = none ↔ pool.AllPinned) ∧
      ((pool.newPage visit).1 = none → (pool.newPage visit).2 = pool) := by
  apply none_iff_allPinned
  refine (h.newPage_cases visit).imp_right ?_
  rintro ⟨f, pool', hsome, -, hloads⟩
  rw [hsome]
  exact ⟨rfl, hloads.not_allPinned⟩

theorem Consistent.fetchPage_none {pool : BufferPoolManager} (h : pool.Consistent) (visit : Visit) {pageId : UInt64}
    (hmiss : pool.pageTable.lookup pageId = none) :
    ((pool.fetchPage visit pageId).1 = none ↔ pool.AllPinned) ∧
      ((pool.fetchPage visit pageId).1 = none → (pool.fetchPage visit pageId).2 = pool) := by
  apply none_iff_allPinned
  refine (h.fetchPage_cases visit hmiss).imp_right ?_
  rintro ⟨f, pool', hsome, -, hloads⟩
  rw [hsome]
  exact ⟨rfl, hloads.not_allPinned⟩

theorem pool_invariant {poolSize : ℕ} (hsize : poolSize < 2 ^ 32) (file : Bytes) (k : ℕ) {ops : List Op}
    (hvalid : ∀ op ∈ ops, op.Valid) (hguard : Lawful (Guarded poolSize file k) ops) :
    let s := session poolSize file k ops
    let pool := s.pool
    (∀ pageId f, pool.pageTable.lookup pageId = some f ↔
        f < poolSize ∧ (pool.frames f).pageId = pageId ∧ pageId ≠ invalidPageId) ∧
      (pool.freeList.Nodup ∧
        ∀ f, f ∈ pool.freeList ↔ f < poolSize ∧ (pool.frames f).pageId = invalidPageId) ∧
      (∀ pageId f, pool.pageTable.lookup pageId = some f →
        (pool.replacer.evictable f = true ↔ (pool.frames f).pinCount = 0) ∧
          (pool.frames f).pinCount = s.balance pageId) ∧
      (∀ (op : Op) f, 0 < (pool.frames f).pinCount → ((pool.step op).frames f).pageId = (pool.frames f).pageId) ∧
      (∀ visit, ((pool.newPage visit).1 = none ↔ ∀ f < poolSize, 0 < (pool.frames f).pinCount) ∧
        ((pool.newPage visit).1 = none → (pool.newPage visit).2 = pool)) ∧
      ∀ visit pageId, pool.pageTable.lookup pageId = none →
        ((pool.fetchPage visit pageId).1 = none ↔ ∀ f < poolSize, 0 < (pool.frames f).pinCount) ∧
          ((pool.fetchPage visit pageId).1 = none → (pool.fetchPage visit pageId).2 = pool) := by
  obtain ⟨hbalanced, hpoolSize⟩ := balanced_session poolSize file k hvalid hguard
  have h := hbalanced.consistent
  have hcount : (session poolSize file k ops).pool.count = poolSize := by
    rw [count, hpoolSize, reached, Nat.mod_eq_of_lt hsize]
  intro s pool
  rw [← hcount]
  exact ⟨h.table, ⟨h.nodup, h.free⟩,
    fun pageId f hf => ⟨by rw [← h.replacer.mem_free, mem_unpinned]; exact and_iff_right (h.held hf),
      hbalanced.pins pageId f hf⟩,
    fun op => (h.step_pinned op).2, h.newPage_none, fun visit pageId => h.fetchPage_none visit⟩

def evictAndReload : List Op := [.newPage {}, .unpinPage 0 true, .newPage {}, .unpinPage 1 false, .fetchPage {} 0]

theorem pool_invariant_of_evictAndReload :
    let pool := (session 1 [] 2 evictAndReload).pool
    ∀ visit, ((pool.newPage visit).1 = none ↔ ∀ f < 1, 0 < (pool.frames f).pinCount) ∧
      ((pool.newPage visit).1 = none → (pool.newPage visit).2 = pool) := by
  refine (pool_invariant (by decide) [] 2 (by decide) ?_).2.2.2.2.1
  refine ⟨⟨rfl, by decide⟩, trivial, ⟨by decide +kernel, by decide +kernel⟩, trivial, fun f hf => ?_, trivial⟩
  have hmiss : (session 1 [] 2 (evictAndReload.take 4)).pool.pageTable.lookup 0 = none := by decide +kernel
  exact absurd (hmiss.symm.trans hf) (Option.some_ne_none f).symm

def fetchThenNew : List Op := [.fetchPage {} 0, .newPage {}]

theorem page_in_two_frames :
    (∀ op ∈ fetchThenNew, op.Valid) ∧ ((session 2 [] 2 fetchThenNew).pool.frames 0).pageId = 0 ∧
      ((session 2 [] 2 fetchThenNew).pool.frames 1).pageId = 0 := by
  refine ⟨by decide, by decide +kernel, by decide +kernel⟩

end SystemLevel.Storage.BufferPoolManager
