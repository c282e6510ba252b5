import SystemLevel.Fibers.FiberPlaces

/-!
The calls of `FiberMutex` and `FiberChannel` from `main`. A waiting loop takes one unit of fuel for each of its tests,
so that a call that returns has a result with enough fuel, and one that does not return has none with any.
-/

namespace SystemLevel.Fibers.Thread

variable {T : Type}

def currentFiberShared (t : Thread T) : Option ℕ :=
  match t.control with
  | .fiber _ f => some f
  | _ => none

/-- The body of the waiting loops, which yields only in a fiber. -/
def wait (t : Thread T) (p : Place) : Thread T :=
  match t.currentFiberShared with
  | some f => t.suspendAt p f
  | none => t

def lockOutside (t : Thread T) (m : ℕ) : ℕ → Option (Thread T)
  | 0 => none
  | fuel + 1 =>
    if t.locked m then (t.wait (.mutex m)).lockOutside m fuel
    else some { t with locked := Function.update t.locked m true }

def sendOutside (capacity : ℕ → ℕ) (t : Thread T) (c : ℕ) (value : T) : ℕ → Option (Thread T)
  | 0 => none
  | fuel + 1 =>
    if capacity c ≤ (t.items c).length then (t.wait (.sender c)).sendOutside capacity c value fuel
    else some ({ t with items := Function.update t.items c (t.items c ++ [value]) }.wakeFirst (.receiver c))

def receiveOutside (t : Thread T) (c : ℕ) : ℕ → Option (Option T × Thread T)
  | 0 => none
  | fuel + 1 =>
    match t.items c with
    | [] =>
      match t.currentFiberShared with
      | some f => (t.suspendAt (.receiver c) f).receiveOutside c fuel
      | none => some (none, t)
    | value :: items =>
      some (some value, { t with items := Function.update t.items c items }.wakeFirst (.sender c))

variable {capacity : ℕ → ℕ} {t : Thread T} (hmain : t.control = .main)

include hmain

theorem wait_main (p : Place) : t.wait p = t := by
  simp only [wait, currentFiberShared, hmain]

theorem lockOutside_locked {m : ℕ} (hlocked : t.locked m = true) (fuel : ℕ) : t.lockOutside m fuel = none := by
  induction fuel with
  | zero => rfl
  | succ fuel ih => rw [lockOutside, if_pos hlocked, wait_main hmain, ih]

theorem sendOutside_full {c : ℕ} (hfull : capacity c ≤ (t.items c).length) (value : T) (fuel : ℕ) :
    t.sendOutside capacity c value fuel = none := by
  induction fuel with
  | zero => rfl
  | succ fuel ih => rw [sendOutside, if_pos hfull, wait_main hmain, ih]

theorem receiveOutside_returns (c : ℕ) : (t.receiveOutside c 1).isSome := by
  rw [receiveOutside]
  cases t.items c with
  | nil => simp only [currentFiberShared, hmain, Option.isSome_some]
  | cons value items => rfl

theorem outside_calls_return_iff (m c : ℕ) (value : T) :
    ((∃ fuel, (t.lockOutside m fuel).isSome) ↔ t.locked m = false) ∧
      ((∃ fuel, (t.sendOutside capacity c value fuel).isSome) ↔ (t.items c).length < capacity c) ∧
      ∃ fuel, (t.receiveOutside c fuel).isSome := by
  refine ⟨⟨?_, ?_⟩, ⟨?_, ?_⟩, 1, receiveOutside_returns hmain c⟩
  · rintro ⟨fuel, hreturns⟩
    by_contra hlocked
    rw [lockOutside_locked hmain (Bool.eq_true_of_not_eq_false hlocked)] at hreturns
    cases hreturns
  · intro hfree
    refine ⟨1, ?_⟩
    rw [lockOutside, if_neg (by rw [hfree]; exact Bool.false_ne_true)]
    rfl
  · rintro ⟨fuel, hreturns⟩
    by_contra hfull
    rw [sendOutside_full hmain (not_lt.mp hfull)] at hreturns
    cases hreturns
  · intro hroom
    refine ⟨1, ?_⟩
    rw [sendOutside, if_neg (not_le.mpr hroom)]
    rfl

omit hmain

def leavesBoth : List (Call ℕ) :=
  [.spawn (.lock 0 (.send 0 7 .finish)), .run, .advance, .advance, .advance, .advance, .advance]

theorem leavesBoth_main : (runOne (fun _ => 1) (fun _ => 0) leavesBoth).control = .main := rfl

theorem outside_calls_spin :
    (runOne (fun _ => 1) (fun _ => 0) leavesBoth).control = .main ∧
      (∀ fuel, (runOne (fun _ => 1) (fun _ => 0) leavesBoth).lockOutside 0 fuel = none) ∧
      ∀ fuel, (runOne (fun _ => 1) (fun _ => 0) leavesBoth).sendOutside (fun _ => 1) 0 8 fuel = none :=
  ⟨leavesBoth_main, lockOutside_locked leavesBoth_main rfl, sendOutside_full leavesBoth_main le_rfl 8⟩

theorem outside_calls_of_leavesBoth :
    (runOne (fun _ => 1) (fun _ => 0) leavesBoth).control = .main ∧
      ((∃ fuel, ((runOne (fun _ => 1) (fun _ => 0) leavesBoth).lockOutside 1 fuel).isSome) ↔
        (runOne (fun _ => 1) (fun _ => 0) leavesBoth).locked 1 = false) :=
  ⟨leavesBoth_main, (@outside_calls_return_iff ℕ (fun _ => 1) _ leavesBoth_main 1 0 0).1⟩

end SystemLevel.Fibers.Thread
