import SystemLevel.Foundations.Potentials
import SystemLevel.Lsm.ThreadsSteps

namespace SystemLevel.Lsm

open Linearization Potentials SharedMutexes

namespace ClientPoint

def work : ClientPoint → ℕ
  | idle => 0
  | unlockingGet _ | clearingWal => 1
  | scanning _ _ | closingWal => 2
  | searching _ | testingWal => 3
  | lockingGet _ | unlocking _ => 4
  | flushing _ .replacing => 5
  | flushing _ .notifying => 6
  | flushing _ (.pushing _) => 7
  | flushing _ (.opening _) => 8
  | flushing _ (.building _) => 9
  | flushing _ .numbering => 10
  | flushing _ .testing => 11
  | checking | lockingFlush _ => 12
  | inserting _ _ _ | joining => 13
  | lockingPut _ _ _ | notifyingAll => 14
  | writingLog _ _ _ _ | storingRunning => 15
  | logging _ _ _ | loadingRunning => 16

def tables : ClientPoint → ℕ
  | scanning _ left => left
  | _ => 0

def stops : ClientPoint → Bool
  | notifyingAll | joining => true
  | _ => false

def Falls (point point' : ClientPoint) : Prop :=
  point'.work < point.work ∨ point'.work = point.work ∧ point'.tables < point.tables

end ClientPoint

namespace CompactorPoint

def work : CompactorPoint → ℕ
  | exited => 0
  | testing | unlockingMutex true => 1
  | retesting | unlockingMutex false => 2
  | deciding | relocking true | unlockingLatch => 3
  | lockingMutex | relocking false | compacting => 4
  | waiting | lockingLatch => 5

def holdsMutex : CompactorPoint → Bool
  | deciding | retesting | lockingLatch | compacting | unlockingLatch | unlockingMutex _ => true
  | _ => false

end CompactorPoint

namespace DatabaseThreads

variable {P : Type} [DecidableEq P] {sizing : BloomSizing} {s s' : DatabaseThreads P} {p : P}
  {point from_ : ClientPoint} {io : FlushIo} {wal : Transfer}

structure Held (s : DatabaseThreads P) : Prop where
  clientMode : ∀ p, s.latch.mode (some p) = (s.clients p).mode
  compactorMode : s.latch.mode none = s.compactor.mode
  mutex : s.mutex = s.compactor.holdsMutex
  stopped : ∀ p, (s.clients p).stops = true → s.running = false
  tables : ∀ p, (s.clients p).tables ≤ s.db.sstables.length

def Blocked (s : DatabaseThreads P) (p : P) : Prop :=
  match s.clients p with
  | .lockingPut _ _ _ | .lockingFlush _ => s.latch.lock (some p) = none
  | .lockingGet _ => s.latch.lockShared (some p) = none
  | .joining => s.compactor ≠ .exited
  | _ => False

theorem Blocked.mode (h : s.Blocked p) : (s.clients p).mode = none := by
  unfold Blocked at h
  split at h
  · next hpoint => rw [hpoint]; rfl
  · next hpoint => rw [hpoint]; rfl
  · next hpoint => rw [hpoint]; rfl
  · next hpoint => rw [hpoint]; rfl
  · exact h.elim

theorem Blocked.joining (h : s.Blocked p) (hfree : s.latch = SharedMutex.free) :
    s.clients p = .joining ∧ s.compactor ≠ .exited := by
  unfold Blocked at h
  rw [hfree] at h
  split at h
  · cases h
  · cases h
  · cases h
  · next hpoint => exact ⟨hpoint, h⟩
  · exact h.elim

structure Goes (s : DatabaseThreads P) (p : P) (point : ClientPoint) (s' : DatabaseThreads P) : Prop where
  clients : s'.clients = Function.update s.clients p point
  latch : ∀ q, s'.latch.mode q = if q = some p then point.mode else s.latch.mode q
  compactor : s'.compactor = s.compactor ∨ s'.compactor = s.notify.compactor
  mutex : s'.mutex = s.mutex
  running : s'.running = true → s.running = true
  stops : point.stops = true → s'.running = false
  tables : s.db.sstables.length ≤ s'.db.sstables.length
  scans : point.tables ≤ s'.db.sstables.length

def Progresses (s : DatabaseThreads P) (p : P) (s' : DatabaseThreads P) : Prop :=
  ∃ point, Goes s p point s' ∧ (s.clients p).Falls point

omit [DecidableEq P] in
theorem notify_holdsMutex (s : DatabaseThreads P) : s.notify.compactor.holdsMutex = s.compactor.holdsMutex := by
  unfold notify
  by_cases hwaiting : s.compactor = .waiting
  · rw [hwaiting]
    rfl
  · simp only [if_neg hwaiting]

omit [DecidableEq P] in
theorem notify_work (s : DatabaseThreads P) : s.notify.compactor.work ≤ s.compactor.work := by
  unfold notify
  by_cases hwaiting : s.compactor = .waiting
  · rw [hwaiting]
    change CompactorPoint.work (.relocking false) ≤ CompactorPoint.work .waiting
    decide
  · simp only [if_neg hwaiting, le_refl]

namespace Goes

variable (hgoes : Goes s p point s')

include hgoes

theorem compactor_work : s'.compactor.work ≤ s.compactor.work := by
  rcases hgoes.compactor with hcompactor | hcompactor
  · rw [hcompactor]
  · rw [hcompactor]
    exact notify_work s

theorem record (event : Event P DbCall DbAnswer) : Goes s p point (s'.record event) :=
  ⟨hgoes.clients, hgoes.latch, hgoes.compactor, hgoes.mutex, hgoes.running, hgoes.stops, hgoes.tables, hgoes.scans⟩

theorem idle {threads : Finset P} (hidle : ∀ q, q ∉ threads → s.clients q = .idle) (q : P)
    (hq : q ∉ insert p threads) : s'.clients q = .idle := by
  rw [Finset.mem_insert, not_or] at hq
  rw [hgoes.clients, Function.update_of_ne hq.1]
  exact hidle q hq.2

theorem held (h : Held s) : Held s' := by
  refine ⟨?_, ?_, ?_, ?_, ?_⟩
  · intro q
    rw [hgoes.latch, hgoes.clients]
    by_cases hq : q = p
    · rw [if_pos (congrArg some hq), hq, Function.update_self]
    · rw [if_neg (mt Option.some.inj hq), Function.update_of_ne hq]
      exact h.clientMode q
  · rw [hgoes.latch, if_neg (Option.some_ne_none p).symm, h.compactorMode]
    rcases hgoes.compactor with hcompactor | hcompactor
    · rw [hcompactor]
    · rw [hcompactor, notify_mode]
  · rw [hgoes.mutex, h.mutex]
    rcases hgoes.compactor with hcompactor | hcompactor
    · rw [hcompactor]
    · rw [hcompactor, notify_holdsMutex]
  · intro q hstops
    rw [hgoes.clients] at hstops
    by_cases hq : q = p
    · rw [hq, Function.update_self] at hstops
      exact hgoes.stops hstops
    · rw [Function.update_of_ne hq] at hstops
      have hstopped := h.stopped q hstops
      cases hrunning : s'.running with
      | false => rfl
      | true =>
        rw [hgoes.running hrunning] at hstopped
        cases hstopped
  · intro q
    rw [hgoes.clients]
    by_cases hq : q = p
    · rw [hq, Function.update_self]
      exact hgoes.scans
    · rw [Function.update_of_ne hq]
      exact (h.tables q).trans hgoes.tables

end Goes

namespace Held

variable (h : Held s)

include h

theorem keeps (hclients : s'.clients = Function.update s.clients p point) (hlatch : s'.latch = s.latch)
    (hcompactor : s'.compactor = s.compactor ∨ s'.compactor = s.notify.compactor) (hmutex : s'.mutex = s.mutex)
    (hrunning : s'.running = s.running) (htables : s.db.sstables.length ≤ s'.db.sstables.length)
    (hmode : point.mode = (s.clients p).mode) (hstops : point.stops = false ∨ s.running = false)
    (hscans : point.tables ≤ s'.db.sstables.length) : Goes s p point s' := by
  refine ⟨hclients, ?_, hcompactor, hmutex, hrunning ▸ id, ?_, htables, hscans⟩
  · rw [hlatch]
    exact mode_kept h.clientMode hmode
  · intro hstop
    rw [hstop] at hstops
    rw [hrunning]
    exact hstops.resolve_left (by decide)

theorem goTo (hmode : point.mode = (s.clients p).mode) (hstops : point.stops = false ∨ s.running = false)
    (hscans : point.tables ≤ s.db.sstables.length) : Goes s p point (s.goTo p point) :=
  h.keeps rfl rfl (Or.inl rfl) rfl rfl le_rfl hmode hstops hscans

omit h in
theorem relatches {latch : SharedMutex (Option P)}
    (hlatch : ∀ q, latch.mode q = if q = some p then point.mode else s.latch.mode q) (hstops : point.stops = false)
    (htables : point.tables = 0) : Goes s p point { s.goTo p point with latch } := by
  refine ⟨rfl, hlatch, Or.inl rfl, rfl, id, ?_, le_rfl, htables ▸ Nat.zero_le _⟩
  intro hstop
  rw [hstops] at hstop
  cases hstop

omit [DecidableEq P] h in
theorem falls (hpoint : s.clients p = from_) (hwork : point.work < from_.work) : (s.clients p).Falls point := by
  rw [hpoint]
  exact Or.inl hwork

theorem goesTo (hpoint : s.clients p = from_) (hmode : point.mode = from_.mode)
    (hstops : point.stops = false ∨ s.running = false) (hscans : point.tables ≤ s.db.sstables.length)
    (hwork : point.work < from_.work) : Progresses s p (s.goTo p point) :=
  ⟨point, h.goTo (by rw [hpoint, hmode]) hstops hscans, falls hpoint hwork⟩

theorem goFlush {closes : Bool} {flush : FlushPoint} (hpoint : s.clients p = .flushing closes flush) :
    Progresses s p (s.goFlush sizing p io closes flush) := by
  have hmode : ∀ flush', (ClientPoint.flushing closes flush').mode = (s.clients p).mode := by
    intro flush'
    rw [hpoint]
    rfl
  have hunlocking : (ClientPoint.unlocking closes).mode = (s.clients p).mode := by
    rw [hpoint]
    rfl
  unfold DatabaseThreads.goFlush
  cases flush with
  | testing =>
    dsimp only
    split_ifs
    · exact h.goesTo hpoint rfl (Or.inl rfl) (Nat.zero_le _) (by simp [ClientPoint.work])
    · exact h.goesTo hpoint rfl (Or.inl rfl) (Nat.zero_le _) (by simp [ClientPoint.work])
  | numbering =>
    refine ⟨.flushing closes (.building s.db.nextSstId), ?_, falls hpoint (by simp [ClientPoint.work])⟩
    exact h.keeps rfl rfl (Or.inl rfl) rfl rfl le_rfl (hmode _) (Or.inl rfl) (Nat.zero_le _)
  | building id =>
    dsimp only
    refine ⟨_, h.keeps rfl rfl (Or.inl rfl) rfl rfl le_rfl (hmode _) (Or.inl rfl) (Nat.zero_le _), falls hpoint ?_⟩
    split_ifs
    · simp [ClientPoint.work]
    · simp [ClientPoint.work]
  | opening id =>
    dsimp only
    split
    · exact h.goesTo hpoint rfl (Or.inl rfl) (Nat.zero_le _) (by simp [ClientPoint.work])
    · exact h.goesTo hpoint rfl (Or.inl rfl) (Nat.zero_le _) (by simp [ClientPoint.work])
  | pushing sst =>
    refine ⟨.flushing closes .notifying, ?_, falls hpoint (by simp [ClientPoint.work])⟩
    refine h.keeps rfl rfl (Or.inl rfl) rfl rfl ?_ (hmode _) (Or.inl rfl) (Nat.zero_le _)
    change s.db.sstables.length ≤ (s.db.sstables ++ [sst]).length
    rw [List.length_append]
    exact Nat.le_add_right _ _
  | notifying =>
    refine ⟨.flushing closes .replacing, ?_, falls hpoint (by simp [ClientPoint.work])⟩
    exact h.keeps rfl rfl (Or.inr rfl) rfl rfl le_rfl (hmode _) (Or.inl rfl) (Nat.zero_le _)
  | replacing =>
    refine ⟨.unlocking closes, ?_, falls hpoint (by simp [ClientPoint.work])⟩
    exact h.keeps rfl rfl (Or.inl rfl) rfl rfl le_rfl hunlocking (Or.inl rfl) (Nat.zero_le _)

theorem writingLog {key value : UInt64} {level : Level} {fd : Bool}
    (hpoint : s.clients p = .writingLog key value level fd) :
    Progresses s p (s.go sizing p io wal (.writingLog key value level fd)) := by
  unfold DatabaseThreads.go
  dsimp only
  split_ifs
  · refine ⟨.lockingPut key value level, ?_, falls hpoint (by simp [ClientPoint.work])⟩
    refine h.keeps rfl rfl (Or.inl rfl) rfl rfl ?_ (by rw [hpoint]; rfl) (Or.inl rfl) (Nat.zero_le _)
    unfold EmbeddedLsmDatabase.append
    split_ifs
    · exact le_rfl
    · exact le_rfl
  · exact h.goesTo hpoint rfl (Or.inl rfl) (Nat.zero_le _) (by simp [ClientPoint.work])

theorem goStray (dir : Directory) :
    s.goStray p dir (s.clients p) = s ∨ ∃ point, Goes s p point (s.goStray p dir (s.clients p)) := by
  cases hpoint : s.clients p with
  | writingLog key value level fd =>
    cases fd with
    | false => exact Or.inl rfl
    | true =>
      unfold DatabaseThreads.goStray
      dsimp only
      split_ifs
      · exact Or.inl rfl
      · refine Or.inr ⟨.lockingPut key value level, ?_⟩
        exact h.keeps rfl rfl (Or.inl rfl) rfl rfl le_rfl (by rw [hpoint]; rfl) (Or.inl rfl) (Nat.zero_le _)
  | _ => exact Or.inl rfl

omit h in
theorem lockingPut {key value : UInt64} {level : Level} (hpoint : s.clients p = .lockingPut key value level)
    (hfree : s.latch.lock (some p) ≠ none) :
    Progresses s p (s.go sizing p io wal (.lockingPut key value level)) := by
  obtain ⟨latch, hlock⟩ := Option.ne_none_iff_exists'.mp hfree
  refine ⟨.inserting key value level, ?_, falls hpoint (by simp [ClientPoint.work])⟩
  unfold DatabaseThreads.go DatabaseThreads.lock
  dsimp only
  rw [hlock]
  exact relatches (SharedMutex.mode_lock hlock) rfl rfl

theorem inserting {key value : UInt64} {level : Level} (hpoint : s.clients p = .inserting key value level) :
    Progresses s p (s.go sizing p io wal (.inserting key value level)) := by
  refine ⟨.checking, ?_, falls hpoint (by simp [ClientPoint.work])⟩
  exact h.keeps rfl rfl (Or.inl rfl) rfl rfl le_rfl (by rw [hpoint]; rfl) (Or.inl rfl) (Nat.zero_le _)

theorem checking (hpoint : s.clients p = .checking) : Progresses s p (s.go sizing p io wal .checking) := by
  unfold DatabaseThreads.go
  dsimp only
  split_ifs
  · exact h.goesTo hpoint rfl (Or.inl rfl) (Nat.zero_le _) (by decide)
  · exact h.goesTo hpoint rfl (Or.inl rfl) (Nat.zero_le _) (by decide)

theorem loadingRunning (hpoint : s.clients p = .loadingRunning) :
    Progresses s p (s.go sizing p io wal .loadingRunning) := by
  unfold DatabaseThreads.go
  dsimp only
  split_ifs
  · exact h.goesTo hpoint rfl (Or.inl rfl) (Nat.zero_le _) (by decide)
  · exact h.goesTo hpoint rfl (Or.inl rfl) (Nat.zero_le _) (by decide)

theorem storingRunning (hpoint : s.clients p = .storingRunning) :
    Progresses s p (s.go sizing p io wal .storingRunning) := by
  refine ⟨.notifyingAll, ?_, falls hpoint (by decide)⟩
  have hlatch : ∀ q, s.latch.mode q = if q = some p then none else s.latch.mode q :=
    @mode_kept _ _ s p .notifyingAll h.clientMode (by rw [hpoint]; rfl)
  have hfalse : false = true → s.running = true := fun h => by cases h
  exact ⟨rfl, hlatch, Or.inl rfl, rfl, hfalse, fun _ => rfl, le_rfl, Nat.zero_le _⟩

theorem notifyingAll (hpoint : s.clients p = .notifyingAll) :
    Progresses s p (s.go sizing p io wal .notifyingAll) := by
  refine ⟨.joining, ?_, falls hpoint (by decide)⟩
  have hstopped : s.running = false := by
    apply h.stopped p
    rw [hpoint]
    rfl
  exact h.keeps rfl rfl (Or.inr rfl) rfl rfl le_rfl (by rw [hpoint]; rfl) (Or.inr hstopped) (Nat.zero_le _)

theorem joining (hpoint : s.clients p = .joining) (hexited : s.compactor = .exited) :
    Progresses s p (s.go sizing p io wal .joining) := by
  unfold DatabaseThreads.go
  dsimp only
  rw [if_pos hexited]
  exact h.goesTo hpoint rfl (Or.inl rfl) (Nat.zero_le _) (by decide)

omit h in
theorem lockingFlush {closes : Bool} (hpoint : s.clients p = .lockingFlush closes)
    (hfree : s.latch.lock (some p) ≠ none) : Progresses s p (s.go sizing p io wal (.lockingFlush closes)) := by
  obtain ⟨latch, hlock⟩ := Option.ne_none_iff_exists'.mp hfree
  refine ⟨.flushing closes .testing, ?_, falls hpoint (by simp [ClientPoint.work])⟩
  unfold DatabaseThreads.go
  dsimp only
  rw [hlock]
  exact (relatches (SharedMutex.mode_lock hlock) rfl rfl).record _

theorem unlocking {closes : Bool} (hpoint : s.clients p = .unlocking closes) :
    Progresses s p (s.go sizing p io wal (.unlocking closes)) := by
  have hexclusive : (s.clients p).mode = some .exclusive := by
    rw [hpoint]
    rfl
  cases closes with
  | true =>
    refine ⟨.testingWal, ?_, falls hpoint (by decide)⟩
    exact relatches (mode_unlocked h.clientMode hexclusive rfl) rfl rfl
  | false =>
    refine ⟨.idle, ?_, falls hpoint (by decide)⟩
    exact (relatches (mode_unlocked h.clientMode hexclusive rfl) rfl rfl).record _

theorem testingWal (hpoint : s.clients p = .testingWal) : Progresses s p (s.go sizing p io wal .testingWal) := by
  unfold DatabaseThreads.go
  dsimp only
  split_ifs
  · exact h.goesTo hpoint rfl (Or.inl rfl) (Nat.zero_le _) (by decide)
  · refine ⟨.idle, ?_, falls hpoint (by decide)⟩
    exact (h.goTo (by rw [hpoint]; rfl) (Or.inl rfl) (Nat.zero_le _)).record _

theorem closingWal (hpoint : s.clients p = .closingWal) : Progresses s p (s.go sizing p io wal .closingWal) := by
  refine ⟨.clearingWal, ?_, falls hpoint (by decide)⟩
  exact h.keeps rfl rfl (Or.inl rfl) rfl rfl le_rfl (by rw [hpoint]; rfl) (Or.inl rfl) (Nat.zero_le _)

theorem clearingWal (hpoint : s.clients p = .clearingWal) : Progresses s p (s.go sizing p io wal .clearingWal) := by
  refine ⟨.idle, ?_, falls hpoint (by decide)⟩
  exact h.keeps rfl rfl (Or.inl rfl) rfl rfl le_rfl (by rw [hpoint]; rfl) (Or.inl rfl) (Nat.zero_le _)

omit h in
theorem lockingGet {key : UInt64} (hpoint : s.clients p = .lockingGet key)
    (hfree : s.latch.lockShared (some p) ≠ none) : Progresses s p (s.go sizing p io wal (.lockingGet key)) := by
  obtain ⟨latch, hlock⟩ := Option.ne_none_iff_exists'.mp hfree
  refine ⟨.searching key, ?_, falls hpoint (by simp [ClientPoint.work])⟩
  unfold DatabaseThreads.go
  dsimp only
  rw [hlock]
  exact relatches (SharedMutex.mode_lockShared hlock) rfl rfl

theorem found {key : UInt64} {value : Option UInt64} (hmode : (s.clients p).mode = some .shared) :
    Goes s p (.unlockingGet value) (s.found p key value) :=
  h.keeps rfl rfl (Or.inl rfl) rfl rfl le_rfl hmode.symm (Or.inl rfl) (Nat.zero_le _)

theorem searching {key : UInt64} (hpoint : s.clients p = .searching key) :
    Progresses s p (s.go sizing p io wal (.searching key)) := by
  unfold DatabaseThreads.go
  dsimp only
  split
  · exact ⟨_, h.found (by rw [hpoint]; rfl), falls hpoint (by simp [ClientPoint.work])⟩
  · exact h.goesTo hpoint rfl (Or.inl rfl) le_rfl (by simp [ClientPoint.work])

theorem scanning {key : UInt64} {left : ℕ} (hpoint : s.clients p = .scanning key left) :
    Progresses s p (s.go sizing p io wal (.scanning key left)) := by
  have hmode : (s.clients p).mode = some .shared := by
    rw [hpoint]
    rfl
  have hleft := h.tables p
  rw [hpoint] at hleft
  change left ≤ s.db.sstables.length at hleft
  cases left with
  | zero => exact ⟨_, h.found hmode, falls hpoint (by simp [ClientPoint.work])⟩
  | succ left =>
    have htable : s.db.sstables[left]? = some s.db.sstables[left] := List.getElem?_eq_getElem hleft
    unfold DatabaseThreads.go
    dsimp only
    rw [htable]
    dsimp only
    split
    · exact ⟨_, h.found hmode, falls hpoint (by simp [ClientPoint.work])⟩
    · refine ⟨.scanning key left, h.goTo hmode.symm (Or.inl rfl) (Nat.le_of_succ_le hleft), ?_⟩
      rw [hpoint]
      exact Or.inr ⟨rfl, Nat.lt_succ_self left⟩

theorem unlockingGet {value : Option UInt64} (hpoint : s.clients p = .unlockingGet value) :
    Progresses s p (s.go sizing p io wal (.unlockingGet value)) := by
  refine ⟨.idle, ?_, falls hpoint (by simp [ClientPoint.work])⟩
  exact (relatches (mode_unlockedShared h.clientMode (by rw [hpoint]; rfl) rfl) rfl rfl).record _

theorem go (hidle : s.clients p ≠ .idle) (hblocked : ¬ s.Blocked p) :
    Progresses s p (s.go sizing p io wal (s.clients p)) := by
  unfold Blocked at hblocked
  cases hpoint : s.clients p with
  | idle => exact absurd hpoint hidle
  | logging key value level =>
    exact h.goesTo hpoint rfl (Or.inl rfl) (Nat.zero_le _) (by simp [ClientPoint.work])
  | writingLog key value level fd => exact h.writingLog hpoint
  | lockingPut key value level =>
    rw [hpoint] at hblocked
    exact lockingPut hpoint hblocked
  | inserting key value level => exact h.inserting hpoint
  | checking => exact h.checking hpoint
  | loadingRunning => exact h.loadingRunning hpoint
  | storingRunning => exact h.storingRunning hpoint
  | notifyingAll => exact h.notifyingAll hpoint
  | joining =>
    rw [hpoint] at hblocked
    exact h.joining hpoint (not_not.mp hblocked)
  | lockingFlush closes =>
    rw [hpoint] at hblocked
    exact lockingFlush hpoint hblocked
  | flushing closes flush => exact h.goFlush hpoint
  | unlocking closes => exact h.unlocking hpoint
  | testingWal => exact h.testingWal hpoint
  | closingWal => exact h.closingWal hpoint
  | clearingWal => exact h.clearingWal hpoint
  | lockingGet key =>
    rw [hpoint] at hblocked
    exact lockingGet hpoint hblocked
  | searching key => exact h.searching hpoint
  | scanning key left => exact h.scanning hpoint
  | unlockingGet value => exact h.unlockingGet hpoint

theorem compactor_moves (hclients : s'.clients = s.clients) (hdb : s'.db = s.db) (hrunning : s'.running = s.running)
    (hmutex : s'.mutex = s'.compactor.holdsMutex)
    (hlatch : ∀ q, s'.latch.mode q = if q = none then s'.compactor.mode else s.latch.mode q) : Held s' := by
  refine ⟨?_, hlatch none, hmutex, ?_, ?_⟩
  · intro p
    rw [hlatch, if_neg (Option.some_ne_none p), hclients]
    exact h.clientMode p
  · rw [hclients, hrunning]
    exact h.stopped
  · rw [hclients, hdb]
    exact h.tables

theorem compactor_keeps (hclients : s'.clients = s.clients) (hdb : s'.db = s.db) (hrunning : s'.running = s.running)
    (hlatch : s'.latch = s.latch) (hmutex : s'.mutex = s'.compactor.holdsMutex)
    (hmode : s'.compactor.mode = s.compactor.mode) : Held s' := by
  apply h.compactor_moves hclients hdb hrunning hmutex
  rw [hlatch]
  exact compactor_mode_kept h.compactorMode hmode

theorem compact (timedOut : Bool) : Held (s.goCompactor timedOut s.compactor) := by
  have hmutex := h.mutex
  cases hpoint : s.compactor with
  | testing =>
    refine h.compactor_keeps rfl rfl rfl rfl ?_ ?_
    · rw [goCompactor, hmutex, hpoint]
      cases s.running <;> rfl
    · rw [goCompactor, hpoint]
      cases s.running <;> rfl
  | lockingMutex =>
    unfold goCompactor
    dsimp only
    split_ifs
    · exact h
    · exact h.compactor_keeps rfl rfl rfl rfl rfl (by rw [hpoint]; rfl)
  | deciding =>
    unfold goCompactor
    dsimp only
    rw [hpoint] at hmutex
    split_ifs
    · exact h.compactor_keeps rfl rfl rfl rfl hmutex (by rw [hpoint]; rfl)
    · exact h.compactor_keeps rfl rfl rfl rfl rfl (by rw [hpoint]; rfl)
  | waiting =>
    rw [hpoint] at hmutex
    exact h.compactor_keeps rfl rfl rfl rfl hmutex (by rw [hpoint]; rfl)
  | relocking timedOut =>
    unfold goCompactor
    dsimp only
    split_ifs
    · exact h
    · exact h.compactor_keeps rfl rfl rfl rfl rfl (by rw [hpoint]; rfl)
    · exact h.compactor_keeps rfl rfl rfl rfl rfl (by rw [hpoint]; rfl)
  | retesting =>
    refine h.compactor_keeps rfl rfl rfl rfl ?_ ?_
    · rw [goCompactor, hmutex, hpoint]
      cases s.running <;> rfl
    · rw [goCompactor, hpoint]
      cases s.running <;> rfl
  | lockingLatch =>
    unfold goCompactor
    dsimp only
    rw [hpoint] at hmutex
    cases hlock : s.latch.lock none with
    | none => exact h
    | some latch => exact h.compactor_moves rfl rfl rfl hmutex (SharedMutex.mode_lock hlock)
  | compacting =>
    rw [hpoint] at hmutex
    exact h.compactor_keeps rfl rfl rfl rfl hmutex (by rw [hpoint]; rfl)
  | unlockingLatch =>
    rw [hpoint] at hmutex
    refine h.compactor_moves rfl rfl rfl hmutex (SharedMutex.mode_unlock ?_)
    rw [h.compactorMode, hpoint]
    rfl
  | unlockingMutex exits =>
    refine h.compactor_keeps rfl rfl rfl rfl ?_ ?_
    · cases exits <;> rfl
    · rw [hpoint]
      cases exits <;> rfl
  | exited => exact h

theorem compact_falls (hmoves : s.running = false ∨ s.compactor.mode ≠ none) (hexited : s.compactor ≠ .exited)
    (hfree : s.compactor = .lockingLatch → s.latch = SharedMutex.free) :
    (s.goCompactor true s.compactor).compactor.work < s.compactor.work := by
  have hmutex := h.mutex
  cases hpoint : s.compactor with
  | compacting => exact Nat.lt_succ_self 3
  | unlockingLatch => exact Nat.lt_succ_self 2
  | exited => exact absurd hpoint hexited
  | lockingLatch =>
    rw [goCompactor, hfree hpoint]
    exact Nat.lt_succ_self 4
  | waiting =>
    change 3 < 5
    decide
  | unlockingMutex exits =>
    cases exits
    · exact Nat.lt_succ_self 1
    · exact Nat.lt_succ_self 0
  | testing =>
    rw [hpoint] at hmoves
    rw [goCompactor, hmoves.resolve_right (not_not.mpr rfl)]
    exact Nat.lt_succ_self 0
  | lockingMutex =>
    rw [hpoint] at hmutex
    rw [goCompactor, hmutex]
    exact Nat.lt_succ_self 3
  | deciding =>
    rw [hpoint] at hmoves
    rw [goCompactor, if_pos (Or.inl (hmoves.resolve_right (not_not.mpr rfl)))]
    exact Nat.lt_succ_self 2
  | relocking timedOut =>
    rw [hpoint] at hmutex
    rw [goCompactor, hmutex]
    cases timedOut
    · exact Nat.lt_succ_self 3
    · exact Nat.lt_succ_self 2
  | retesting =>
    rw [hpoint] at hmoves
    rw [goCompactor, hmoves.resolve_right (not_not.mpr rfl)]
    exact Nat.lt_succ_self 1

end Held

structure Finished (s : DatabaseThreads P) : Prop where
  clients : ∀ p, s.clients p = .idle
  compactor : s.compactor.mode = none
  ended : s.running = false → s.compactor = .exited

namespace Held

variable (h : Held s)

include h

theorem latch_free (hcompactor : s.compactor.mode = none) (hclients : ∀ p, (s.clients p).mode = none) :
    s.latch = SharedMutex.free := by
  apply SharedMutex.eq_free
  intro q
  cases q with
  | none => rw [h.compactorMode, hcompactor]
  | some p => rw [h.clientMode, hclients]

theorem exists_moves (hunfinished : ¬ s.Finished) :
    (∃ p, s.clients p ≠ .idle ∧ ¬ s.Blocked p) ∨
      (s.running = false ∨ s.compactor.mode ≠ none) ∧ s.compactor ≠ .exited ∧
        (s.compactor = .lockingLatch → s.latch = SharedMutex.free) := by
  by_cases hclient : ∃ p, (s.clients p).mode ≠ none
  · -- a client that has the latch never waits
    obtain ⟨p, hmode⟩ := hclient
    refine Or.inl ⟨p, ?_, ?_⟩
    · intro hidle
      rw [hidle] at hmode
      exact hmode rfl
    · exact fun hblocked => hmode hblocked.mode
  · by_cases hcompactor : s.compactor.mode = none
    · have hfree : s.latch = SharedMutex.free := by
        apply h.latch_free hcompactor
        intro p
        by_contra hmode
        exact hclient ⟨p, hmode⟩
      by_cases hidle : ∀ p, s.clients p = .idle
      · have hended : ¬ (s.running = false → s.compactor = .exited) :=
          fun hended => hunfinished ⟨hidle, hcompactor, hended⟩
        obtain ⟨hrunning, hexited⟩ := Classical.not_imp.mp hended
        exact Or.inr ⟨Or.inl hrunning, hexited, fun _ => hfree⟩
      · obtain ⟨p, hp⟩ := not_forall.mp hidle
        by_cases hblocked : s.Blocked p
        · -- with the latch free, only the join waits
          obtain ⟨hpoint, hexited⟩ := hblocked.joining hfree
          have hstopped : s.running = false := by
            apply h.stopped p
            rw [hpoint]
            rfl
          exact Or.inr ⟨Or.inl hstopped, hexited, fun _ => hfree⟩
        · exact Or.inl ⟨p, hp, hblocked⟩
    · refine Or.inr ⟨Or.inr hcompactor, ?_, ?_⟩
      · intro hexited
        rw [hexited] at hcompactor
        exact hcompactor rfl
      · intro hlocking
        rw [hlocking] at hcompactor
        exact absurd rfl hcompactor

theorem call (p : P) (call : DbCall) : Held (s.step sizing (.call p call)) := by
  unfold DatabaseThreads.step
  dsimp only
  split
  · next hpoint =>
    have hgoes : Goes s p (start call) (s.goTo p (start call)) := by
      apply h.goTo
      · rw [hpoint]
        cases call <;> rfl
      · cases call <;> exact Or.inl rfl
      · cases call <;> exact Nat.zero_le _
    exact (hgoes.record _).held h
  · exact h

omit h in
theorem go_waits (hwaits : s.clients p = .idle ∨ s.Blocked p) : s.go sizing p io wal (s.clients p) = s := by
  rcases hwaits with hidle | hblocked
  · rw [hidle]
    rfl
  · unfold Blocked at hblocked
    split at hblocked
    · next hpoint =>
      rw [hpoint, DatabaseThreads.go, DatabaseThreads.lock, hblocked]
    · next hpoint =>
      rw [hpoint, DatabaseThreads.go, hblocked]
    · next hpoint =>
      rw [hpoint, DatabaseThreads.go, hblocked]
    · next hpoint =>
      rw [hpoint, DatabaseThreads.go, if_neg hblocked]
    · exact hblocked.elim

theorem step (action : Action P) : Held (s.step sizing action) := by
  cases action with
  | call p call => exact h.call p call
  | go p io wal =>
    by_cases hwaits : s.clients p = .idle ∨ s.Blocked p
    · rw [DatabaseThreads.step, go_waits hwaits]
      exact h
    · obtain ⟨hidle, hblocked⟩ := not_or.mp hwaits
      obtain ⟨point, hgoes, -⟩ := h.go hidle hblocked
      exact hgoes.held h
  | stray p dir =>
    rcases h.goStray dir with hsame | ⟨point, hgoes⟩
    · rw [DatabaseThreads.step, hsame]
      exact h
    · exact hgoes.held h
  | compact timedOut => exact h.compact timedOut

end Held

theorem held_run (sizing : BloomSizing) (db : EmbeddedLsmDatabase) (actions : List (Action P)) :
    Held (run sizing db actions) := by
  refine Runs.run_induct (motive := Held) ?_ (fun s action h => h.step action) actions
  refine ⟨fun p => SharedMutex.mode_free _, SharedMutex.mode_free _, rfl, ?_, fun p => Nat.zero_le _⟩
  intro p hstops
  cases hstops

def left (threads : Finset P) (s : DatabaseThreads P) : ℕ × ℕ :=
  (∑ q ∈ threads, (s.clients q).work + s.compactor.work, ∑ q ∈ threads, (s.clients q).tables)

theorem sum_update (f : ClientPoint → ℕ) (point : ClientPoint) {threads : Finset P} (hp : p ∈ threads)
    (clients : P → ClientPoint) :
    ∑ q ∈ threads, f (Function.update clients p point q) + f (clients p) =
      ∑ q ∈ threads, f (clients q) + f point := by
  have hsum := @sum_add_share P ℕ _ _ threads p hp (fun q => f (Function.update clients p point q))
    (fun q => f (clients q)) fun q hq => by rw [Function.update_of_ne hq]
  rwa [Function.update_self] at hsum

theorem Goes.left_lt (hgoes : Goes s p point s') (hfalls : (s.clients p).Falls point) {threads : Finset P}
    (hp : p ∈ threads) : Prod.Lex (· < ·) (· < ·) (left threads s') (left threads s) := by
  have hwork := sum_update ClientPoint.work point hp s.clients
  have htables := sum_update ClientPoint.tables point hp s.clients
  have hcompactor := hgoes.compactor_work
  rw [Prod.lex_iff]
  unfold left
  rw [hgoes.clients]
  rcases hfalls with hless | ⟨hsame, hless⟩
  · left
    dsimp only
    omega
  · by_cases hequal : s'.compactor.work = s.compactor.work
    · right
      dsimp only
      constructor
      · omega
      · omega
    · left
      dsimp only
      omega

theorem goCompactor_clients (s : DatabaseThreads P) (timedOut : Bool) (point : CompactorPoint) :
    (s.goCompactor timedOut point).clients = s.clients := by
  unfold goCompactor
  repeat' split
  all_goals rfl

theorem Held.exists_next (h : s.Held) (hunfinished : ¬ s.Finished) (sizing : BloomSizing) {threads : Finset P}
    (hothers : ∀ q, q ∉ threads → s.clients q = .idle) :
    ∃ action : Action P, (∀ p call, action ≠ .call p call) ∧
      Prod.Lex (· < ·) (· < ·) (left threads (s.step sizing action)) (left threads s) ∧
      ∀ q, q ∉ threads → (s.step sizing action).clients q = .idle := by
  rcases h.exists_moves hunfinished with ⟨p, hidle, hblocked⟩ | ⟨hmoves, hexited, hfree⟩
  · obtain ⟨point, hgoes, hfalls⟩ := h.go hidle hblocked
    have hp : p ∈ threads := by
      by_contra hp
      exact hidle (hothers p hp)
    refine ⟨.go p {} none, (fun _ _ hcall => by cases hcall), hgoes.left_lt hfalls hp, ?_⟩
    intro q hq
    have hne : q ≠ p := by
      rintro rfl
      exact hq hp
    change (s.go sizing p {} none (s.clients p)).clients q = .idle
    rw [hgoes.clients, Function.update_of_ne hne]
    exact hothers q hq
  · have hclients : (s.step sizing (.compact true)).clients = s.clients :=
      goCompactor_clients s true s.compactor
    have hless : (s.step sizing (.compact true)).compactor.work < s.compactor.work :=
      h.compact_falls hmoves hexited hfree
    refine ⟨.compact true, (fun _ _ hcall => by cases hcall), Prod.Lex.left _ _ ?_, ?_⟩
    · rw [hclients]
      exact Nat.add_lt_add_left hless _
    · rw [hclients]
      exact hothers

theorem Held.exists_finish (sizing : BloomSizing) (threads : Finset P) (s : DatabaseThreads P) :
    Held s → (∀ q, q ∉ threads → s.clients q = .idle) →
      ∃ more : List (Action P), (∀ action ∈ more, ∀ p call, action ≠ .call p call) ∧
        Finished (Runs.run (DatabaseThreads.step sizing) s more) := by
  have hwf : WellFounded (InvImage (Prod.Lex (· < ·) (· < ·)) (left threads)) :=
    InvImage.wf _ (WellFounded.prod_lex wellFounded_lt wellFounded_lt)
  induction s using hwf.induction with
  | h s ih =>
    intro h hothers
    by_cases hfinished : s.Finished
    · exact ⟨[], fun _ hmem => absurd hmem List.not_mem_nil, hfinished⟩
    · obtain ⟨action, hcall, hless, hstill⟩ := h.exists_next hfinished sizing hothers
      obtain ⟨more, hmore, hdone⟩ := ih _ hless (h.step action) hstill
      refine ⟨action :: more, ?_, hdone⟩
      intro other hother
      rcases List.mem_cons.mp hother with rfl | hother
      · exact hcall
      · exact hmore other hother

theorem Held.exists_threads_step (h : s.Held) (sizing : BloomSizing) (action : Action P) {threads : Finset P}
    (hidle : ∀ q, q ∉ threads → s.clients q = .idle) :
    ∃ threads : Finset P, ∀ q, q ∉ threads → (s.step sizing action).clients q = .idle := by
  cases action with
  | call p call =>
    refine ⟨insert p threads, fun q hq => ?_⟩
    rw [Finset.mem_insert, not_or] at hq
    unfold DatabaseThreads.step
    dsimp only
    split
    · exact (Function.update_of_ne hq.1 _ _).trans (hidle q hq.2)
    · exact hidle q hq.2
  | go p io wal =>
    by_cases hwaits : s.clients p = .idle ∨ s.Blocked p
    · rw [DatabaseThreads.step, Held.go_waits hwaits]
      exact ⟨threads, hidle⟩
    · obtain ⟨hbusy, hblocked⟩ := not_or.mp hwaits
      obtain ⟨point, hgoes, -⟩ := h.go hbusy hblocked
      exact ⟨insert p threads, hgoes.idle hidle⟩
  | stray p dir =>
    rcases h.goStray dir with hsame | ⟨point, hgoes⟩
    · rw [DatabaseThreads.step, hsame]
      exact ⟨threads, hidle⟩
    · exact ⟨insert p threads, hgoes.idle hidle⟩
  | compact timedOut =>
    refine ⟨threads, fun q hq => ?_⟩
    change (s.goCompactor timedOut s.compactor).clients q = .idle
    rw [goCompactor_clients]
    exact hidle q hq

theorem exists_threads (sizing : BloomSizing) (db : EmbeddedLsmDatabase) (actions : List (Action P)) :
    ∃ threads : Finset P, ∀ q, q ∉ threads → (run sizing db actions).clients q = .idle := by
  induction actions using List.reverseRecOn with
  | nil => exact ⟨∅, fun q _ => rfl⟩
  | append_singleton actions action ih =>
    obtain ⟨threads, hidle⟩ := ih
    rw [run, Runs.run_snoc]
    exact (held_run sizing db actions).exists_threads_step sizing action hidle

theorem calls_can_finish (sizing : BloomSizing) (db : EmbeddedLsmDatabase) (actions : List (Action P)) :
    ∃ more : List (Action P), (∀ action ∈ more, ∀ p call, action ≠ .call p call) ∧
      let s := run sizing db (actions ++ more)
      (∀ p, s.clients p = .idle) ∧ s.latch = SharedMutex.free ∧ (s.running = false → s.compactor = .exited) := by
  obtain ⟨threads, hidle⟩ := exists_threads sizing db actions
  obtain ⟨more, hcalls, hfinished⟩ := Held.exists_finish sizing threads _ (held_run sizing db actions) hidle
  rw [← Runs.run_append] at hfinished
  refine ⟨more, hcalls, hfinished.clients, ?_, hfinished.ended⟩
  apply (held_run sizing db (actions ++ more)).latch_free hfinished.compactor
  intro p
  rw [hfinished.clients]
  rfl

end DatabaseThreads

end SystemLevel.Lsm
