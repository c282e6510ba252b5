import SystemLevel.Lsm.DatabaseSessions

/-!
`put` writes to the log before it takes `db_latch_`, so the calls of several threads can be logged in one
order and applied in another.
-/

namespace SystemLevel.Lsm

open Runs Lookup EmbeddedLsmDatabase

structure Writers where
  db : EmbeddedLsmDatabase
  pending : ℕ → Option Pair := fun _ => none

namespace Writers

inductive Step
  | append (thread : ℕ) (key value : UInt64)
  | putLocked (thread : ℕ) (key value : UInt64) (level : Level) (io : FlushIo)

def Step.appended : Step → Option Pair
  | .append _ key value => some (key, value)
  | .putLocked _ _ _ _ _ => none

def Step.applied : Step → Option Pair
  | .append _ _ _ => none
  | .putLocked _ key value _ _ => some (key, value)

def appended (steps : List Step) : List Pair := steps.filterMap Step.appended

def applied (steps : List Step) : List Pair := steps.filterMap Step.applied

theorem appended_snoc (steps : List Step) (s : Step) :
    appended (steps ++ [s]) = appended steps ++ s.appended.toList := by
  cases h : s.appended <;> simp [appended, h]

theorem applied_snoc (steps : List Step) (s : Step) :
    applied (steps ++ [s]) = applied steps ++ s.applied.toList := by
  cases h : s.applied <;> simp [applied, h]

variable (sizing : BloomSizing)

def step (w : Writers) : Step → Writers
  | .append thread key value =>
    { db := w.db.append none key value, pending := Function.update w.pending thread (some (key, value)) }
  | .putLocked thread key value level io =>
    { db := w.db.putLocked sizing io key value level, pending := Function.update w.pending thread none }

abbrev run (start : EmbeddedLsmDatabase) (steps : List Step) : Writers := Runs.run (step sizing) { db := start } steps

def Interleaved (start : EmbeddedLsmDatabase) (past : List Step) : Step → Prop
  | .append thread _ _ => (run sizing start past).pending thread = none
  | .putLocked thread key value level io => (run sizing start past).pending thread = some (key, value) ∧
    LsmCore.InsertSucceeds sizing io (run sizing start past).db.toLsmCore key value level

variable {sizing}

structure Logged (sizing : BloomSizing) (found : List SSTable) (before log memory : List Pair) (w : Writers) :
    Prop where
  serves : Serves sizing found w.db (before ++ log) (latest (before ++ memory))
  applied_or_pending : ∀ p ∈ log, p ∈ memory ∨ ∃ thread, w.pending thread = some p
  pending_logged : ∀ thread p, w.pending thread = some p → p ∈ log
  applied_logged : ∀ p ∈ memory, p ∈ log

namespace Logged

variable {found : List SSTable} {before log memory : List Pair} {w : Writers}
  (h : Logged sizing found before log memory w)

include h

theorem append {thread : ℕ} (hthread : w.pending thread = none) (key value : UInt64) :
    Logged sizing found before (log ++ [(key, value)]) memory (w.step sizing (.append thread key value)) := by
  constructor
  · rw [← List.append_assoc]
    exact h.serves.append key value
  · intro p hp
    rcases List.mem_append.mp hp with hp | hp
    · refine (h.applied_or_pending p hp).imp_right ?_
      rintro ⟨t, ht⟩
      have hne : t ≠ thread := by
        rintro rfl
        simp [hthread] at ht
      exact ⟨t, (Function.update_of_ne hne _ _).trans ht⟩
    · rw [List.mem_singleton.mp hp]
      exact Or.inr ⟨thread, Function.update_self _ _ _⟩
  · intro t p ht
    simp only [step, Function.update_apply] at ht
    split_ifs at ht
    · rw [← Option.some.inj ht]
      simp
    · exact List.mem_append_left _ (h.pending_logged t p ht)
  · exact fun p hp => List.mem_append_left _ (h.applied_logged p hp)

theorem putLocked {thread : ℕ} {key value : UInt64} {level : Level} {io : FlushIo}
    (hthread : w.pending thread = some (key, value))
    (hio : LsmCore.InsertSucceeds sizing io w.db.toLsmCore key value level) :
    Logged sizing found before log (memory ++ [(key, value)])
      (w.step sizing (.putLocked thread key value level io)) := by
  have hlog := h.pending_logged thread _ hthread
  constructor
  · rw [← List.append_assoc, latest_snoc]
    apply h.serves.putLocked _ hio
    exact List.mem_map.mpr ⟨(key, value), List.mem_append_right _ hlog, rfl⟩
  · intro p hp
    rcases h.applied_or_pending p hp with hp | ⟨t, ht⟩
    · exact Or.inl (List.mem_append_left _ hp)
    · by_cases he : t = thread
      · rw [he, hthread] at ht
        rw [← Option.some.inj ht]
        exact Or.inl (by simp)
      · exact Or.inr ⟨t, (Function.update_of_ne he _ _).trans ht⟩
  · intro t p ht
    simp only [step, Function.update_apply] at ht
    split_ifs at ht
    exact h.pending_logged t p ht
  · intro p hp
    rcases List.mem_append.mp hp with hp | hp
    · exact h.applied_logged p hp
    · rw [List.mem_singleton.mp hp]
      exact hlog

theorem done (hdone : ∀ thread, w.pending thread = none) (p : Pair) : p ∈ memory ↔ p ∈ log := by
  refine ⟨h.applied_logged p, fun hp => ?_⟩
  rcases h.applied_or_pending p hp with hp | ⟨thread, ht⟩
  · exact hp
  · simp [hdone thread] at ht

end Logged

theorem logged_run {found : List SSTable} {before : List Pair} {start : EmbeddedLsmDatabase} {steps : List Step}
    (hstart : Serves sizing found start before (latest before)) (h : Lawful (Interleaved sizing start) steps) :
    Logged sizing found before (appended steps) (applied steps) (run sizing start steps) := by
  refine Lawful.induct
    (motive := fun steps w => Logged sizing found before (appended steps) (applied steps) w) ?_ ?_ h
  · exact ⟨by simpa [appended, applied] using hstart, by simp [appended], by simp, by simp [applied]⟩
  · intro steps s hs hlogged
    rw [appended_snoc, applied_snoc]
    cases s with
    | append thread key value =>
      simp only [Step.applied, Option.toList_none, List.append_nil]
      exact hlogged.append hs key value
    | putLocked thread key value level io =>
      simp only [Step.appended, Option.toList_none, List.append_nil]
      exact hlogged.putLocked hs.1 hs.2

theorem latest_none_congr {a b : List Pair} (h : ∀ p, p ∈ a ↔ p ∈ b) (key : UInt64) :
    latest a key = none ↔ latest b key = none := by
  rw [latest_eq_none, latest_eq_none, List.mem_map, List.mem_map]
  simp only [h]

/-- The database itself, or another object on its directory after a crash. -/
def Reopened (db db' : EmbeddedLsmDatabase) : Prop := db' = db ∨ ∃ threshold, db' = construct db.dir threshold true

theorem Reopened.stored {db db' : EmbeddedLsmDatabase} {logged : List Pair} (h : Reopened db db')
    (hstored : Stored sizing db.dir logged) : Stored sizing db'.dir logged := by
  rcases h with rfl | ⟨threshold, rfl⟩
  · exact hstored
  · exact hstored.createWal

def foundTables (db : EmbeddedLsmDatabase) : List SSTable := db.sstables.take (db.sstables.length - db.nextSstId.toNat)

def Overwritten (db : EmbeddedLsmDatabase) : Prop :=
  ∃ t ∈ foundTables db, ∃ id < db.nextSstId, t.filename = tableName "sst_" id

theorem foundTables_eq {found : List SSTable} {db : EmbeddedLsmDatabase} {logged : List Pair}
    {map : UInt64 → Option UInt64} (h : Serves sizing found db logged map) : foundTables db = found := by
  obtain ⟨own, hsplit, hrep⟩ := h.own
  have hnext : db.nextSstId.toNat = own.length := hrep.next
  rw [foundTables, hsplit, hnext, List.length_append, Nat.add_sub_cancel, List.take_left]

theorem get_of_not_overwritten {found : List SSTable} {db : EmbeddedLsmDatabase} {logged : List Pair}
    {map : UInt64 → Option UInt64} (h : Serves sizing found db logged map) (hdb : ¬ Overwritten db) {key : UInt64}
    (hkey : key ∉ logged.map Prod.fst) : db.get key = none := by
  have hmap : map key = none := not_not.mp (mt (h.keys key) hkey)
  rw [h.get_eq, hmap, Option.none_or]
  apply LsmCore.searchTables_eq_none
  intro t ht
  apply (h.intact t ht).2 _ key hkey
  intro id hid hname
  exact hdb ⟨t, by rw [foundTables_eq h]; exact ht, id, hid, hname⟩

abbrev after (sizing : BloomSizing) (history : List Op) (steps : List Step) : Writers :=
  run sizing (EmbeddedLsmDatabase.run sizing ∅ history) steps

def opened : List Op := [.construct 4096 true, .recover [] none (fun _ => levelOf 1)]

theorem opened_client : Lawful (Client .tenBits) opened := ⟨rfl, ⟨rfl, rfl, by simp⟩, trivial⟩

def crossing : List Step :=
  [.append 1 5 50, .append 2 7 70, .putLocked 2 7 70 (levelOf 1) {}, .putLocked 1 5 50 (levelOf 2) {}]

def racing : List Step :=
  [.append 1 5 50, .append 2 5 51, .putLocked 2 5 51 (levelOf 1) {}, .putLocked 1 5 50 (levelOf 2) {}]

end Writers

end SystemLevel.Lsm
