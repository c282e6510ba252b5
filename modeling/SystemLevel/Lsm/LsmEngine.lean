import SystemLevel.Foundations.Runs
import SystemLevel.Lsm.LsmCore

namespace SystemLevel.Lsm

open Runs

abbrev LsmEngine := LsmCore

namespace LsmEngine

variable (sizing : BloomSizing)

def flushMemtable (io : FlushIo) (e : LsmEngine) : LsmEngine := e.flush sizing "sstable_" io

def put (io : FlushIo) (e : LsmEngine) (key value : UInt64) (level : Level) : LsmEngine :=
  e.insert sizing "sstable_" io key value level

inductive Op
  | put (key value : UInt64) (level : Level) (io : FlushIo)
  | flushMemtable (io : FlushIo)
  | get (key : UInt64)

def step (e : LsmEngine) : Op → LsmEngine
  | .put key value level io => put sizing io e key value level
  | .flushMemtable io => flushMemtable sizing io e
  | .get _ => e

abbrev run (dir : Directory) (threshold : UInt64) (ops : List Op) : LsmEngine :=
  Runs.run (step sizing) { dir, threshold } ops

def IoSucceeds (dir : Directory) (threshold : UInt64) (past : List Op) : Op → Prop
  | .put key value level io => LsmCore.InsertSucceeds sizing io (run sizing dir threshold past) key value level
  | .flushMemtable io =>
    let e := run sizing dir threshold past
    e.memtable.size ≠ 0 → LsmCore.FlushSucceeds sizing io e
  | .get _ => True

def Op.putOn (key : UInt64) : Op → Option UInt64
  | .put k value _ _ => if k = key then some value else none
  | _ => none

def putsOn (ops : List Op) (key : UInt64) : List UInt64 := ops.filterMap (Op.putOn key)

theorem putsOn_eq_nil {ops : List Op} {key : UInt64} :
    putsOn ops key = [] ↔ ∀ value level io, .put key value level io ∉ ops := by
  rw [putsOn, List.filterMap_eq_nil_iff]
  constructor
  · intro h value level io hmem
    simpa [Op.putOn] using h _ hmem
  · intro h op hop
    cases op with
    | put k value level io =>
      have hk : k ≠ key := fun he => h value level io (he ▸ hop)
      simp [Op.putOn, hk]
    | _ => rfl

variable {sizing}

theorem latest_put (ops : List Op) (k value : UInt64) (level : Level) (io : FlushIo) :
    (fun key => (putsOn (ops ++ [.put k value level io]) key).getLast?) =
      Function.update (fun key => (putsOn ops key).getLast?) k (some value) := by
  funext key
  rw [Function.update_apply, putsOn, List.filterMap_append]
  by_cases hk : key = k
  · subst hk
    simp [Op.putOn]
  · have hnone : [Op.put k value level io].filterMap (Op.putOn key) = [] := by
      simp [Op.putOn, Ne.symm hk]
    rw [hnone, List.append_nil, if_neg hk]
    rfl

theorem latest_idle (ops : List Op) {op : Op} (hop : ∀ key, op.putOn key = none) :
    (fun key => (putsOn (ops ++ [op]) key).getLast?) = fun key => (putsOn ops key).getLast? := by
  funext key
  simp [putsOn, hop]

theorem run_represents {dir : Directory} {threshold : UInt64} {ops : List Op}
    (h : Lawful (IoSucceeds sizing dir threshold) ops) :
    (run sizing dir threshold ops).Represents "sstable_" (fun key => (putsOn ops key).getLast?) := by
  refine Lawful.induct
    (motive := fun ops e => LsmCore.Represents "sstable_" e (fun key => (putsOn ops key).getLast?)) ?_ ?_ h
  · exact ⟨by simp [LsmCore.Numbered], rfl, fun key => by simp [LsmCore.get_eq, LsmCore.searchTables, putsOn]⟩
  · intro ops op hop hrep
    cases op with
    | put k value level io =>
      rw [latest_put]
      exact hrep.insert hop
    | flushMemtable io =>
      rw [latest_idle ops (fun _ => rfl)]
      exact hrep.flush hop
    | get k =>
      rw [latest_idle ops (fun _ => rfl)]
      exact hrep

theorem refines_map (sizing : BloomSizing) (dir : Directory) (threshold : UInt64) {ops : List Op}
    (h : Lawful (IoSucceeds sizing dir threshold) ops) (key : UInt64) :
    (run sizing dir threshold ops).get key = (putsOn ops key).getLast? ∧
      ((run sizing dir threshold ops).get key = none ↔ ∀ value level io, .put key value level io ∉ ops) := by
  rw [(run_represents h).get_eq, List.getLast?_eq_none_iff, putsOn_eq_nil]
  exact ⟨rfl, Iff.rfl⟩

def overwrites : List Op :=
  [.put 5 50 ⟨3, by decide⟩ {}, .put 2 20 ⟨1, by decide⟩ {}, .flushMemtable {}, .put 5 51 ⟨16, by decide⟩ {}]

theorem refines_map_overwrites :
    (run .tenBits ∅ 120 overwrites).get 5 = (putsOn overwrites 5).getLast? ∧
      ((run .tenBits ∅ 120 overwrites).get 5 = none ↔ ∀ value level io, .put 5 value level io ∉ overwrites) := by
  apply refines_map
  refine ⟨fun _ _ => ?_, fun _ _ => ?_, fun _ => ?_, fun _ _ => ?_, trivial⟩
  · exact ⟨rfl, by decide +kernel, by decide +kernel⟩
  · exact ⟨rfl, by decide +kernel, by decide +kernel⟩
  · exact ⟨rfl, by decide +kernel, by decide +kernel⟩
  · exact ⟨rfl, by decide +kernel, by decide +kernel⟩

end LsmEngine

end SystemLevel.Lsm
