import SystemLevel.Foundations.Runs

namespace SystemLevel.Ipc

open Runs

inductive Point
  | idle
  -- `lock` or `try_lock` has succeeded, and `unlock` has not subtracted yet.
  | held
  -- `lock` has not found the mutex free, and is going to exchange for the first time.
  | contended
  -- `lock` is going to call FUTEX_WAIT.
  | waiting
  | asleep
  -- FUTEX_WAIT has returned, and `lock` has not exchanged yet.
  | woken
  -- `unlock` has subtracted from something other than 1, and is going to store 0.
  | releasing
  -- `unlock` is going to call FUTEX_WAKE.
  | waking
  deriving DecidableEq, Repr

def Point.Owns (point : Point) : Prop := point = .held ∨ point = .releasing

instance (point : Point) : Decidable point.Owns := inferInstanceAs (Decidable (_ ∨ _))

structure FutexMutex (P : Type) where
  state : UInt32 := 0
  points : P → Point := fun _ => .idle

namespace FutexMutex

variable {P : Type} [DecidableEq P]

inductive Action (P : Type)
  | lock (p : P)
  | tryLock (p : P)
  | exchange (p : P)
  | futexWait (p : P) (sleeps : Bool)
  | interrupt (p : P)
  | fetchSub (p : P)
  | store (p : P)
  | futexWake (p : P) (sleeper : Option P)

def goTo (m : FutexMutex P) (p : P) (point : Point) : FutexMutex P :=
  { m with points := Function.update m.points p point }

def wakeUp (m : FutexMutex P) (p : P) : FutexMutex P :=
  if m.points p = .asleep then m.goTo p .woken else m

def step (m : FutexMutex P) : Action P → FutexMutex P
  | .lock p =>
    if m.points p = .idle then
      if m.state = 0 then { m.goTo p .held with state := 1 }
      else if m.state ≠ 2 then m.goTo p .contended
      else m.goTo p .waiting
    else m
  | .tryLock p =>
    if m.points p = .idle ∧ m.state = 0 then { m.goTo p .held with state := 1 } else m
  | .exchange p =>
    if m.points p = .contended ∨ m.points p = .woken then
      { m.goTo p (if m.state ≠ 0 then .waiting else .held) with state := 2 }
    else m
  | .futexWait p sleeps =>
    -- The call may return at once although the word is 2.
    if m.points p = .waiting then m.goTo p (if m.state = 2 ∧ sleeps then .asleep else .woken) else m
  | .interrupt p => m.wakeUp p
  | .fetchSub p =>
    -- Until 0 is stored, the others still find the mutex taken.
    if m.points p = .held then
      { m.goTo p (if m.state ≠ 1 then .releasing else .idle) with state := m.state - 1 }
    else m
  | .store p => if m.points p = .releasing then { m.goTo p .waking with state := 0 } else m
  | .futexWake p sleeper =>
    if m.points p = .waking then
      match sleeper with
      | none => m.goTo p .idle
      | some q => (m.goTo p .idle).wakeUp q
    else m

abbrev run (actions : List (Action P)) : FutexMutex P := Runs.run step {} actions

structure Exclusive (m : FutexMutex P) : Prop where
  owner : ∀ p q, (m.points p).Owns → (m.points q).Owns → p = q
  free : m.state = 0 → ∀ p, ¬ (m.points p).Owns

theorem goTo_points (m : FutexMutex P) (p q : P) (point : Point) :
    (m.goTo p point).points q = if q = p then point else m.points q :=
  Function.update_apply _ _ _ _

namespace Exclusive

variable {m : FutexMutex P} {p : P} {point : Point} {state : UInt32}

theorem pass (h : m.Exclusive) (hpoint : ¬ point.Owns) (hstate : state = 0 → m.state = 0) :
    Exclusive { m.goTo p point with state } := by
  have howns : ∀ q, ((m.goTo p point).points q).Owns → (m.points q).Owns := by
    intro q hq
    rw [goTo_points] at hq
    split_ifs at hq with he
    · exact absurd hq hpoint
    · exact hq
  exact ⟨fun q r hq hr => h.owner q r (howns q hq) (howns r hr), fun hzero q hq => h.free (hstate hzero) q (howns q hq)⟩

theorem acquire (h : m.Exclusive) (hfree : m.state = 0) (hstate : state ≠ 0) :
    Exclusive { m.goTo p .held with state } := by
  have howns : ∀ q, ((m.goTo p .held).points q).Owns → q = p := by
    intro q hq
    rw [goTo_points] at hq
    by_contra he
    rw [if_neg he] at hq
    exact h.free hfree q hq
  exact ⟨fun q r hq hr => (howns q hq).trans (howns r hr).symm, fun hzero => absurd hzero hstate⟩

theorem keep (h : m.Exclusive) (hp : (m.points p).Owns) (hstate : state ≠ 0) :
    Exclusive { m.goTo p point with state } := by
  have howns : ∀ q, ((m.goTo p point).points q).Owns → q = p := by
    intro q hq
    rw [goTo_points] at hq
    by_contra he
    rw [if_neg he] at hq
    exact he (h.owner q p hq hp)
  exact ⟨fun q r hq hr => (howns q hq).trans (howns r hr).symm, fun hzero => absurd hzero hstate⟩

theorem release (h : m.Exclusive) (hp : (m.points p).Owns) (hpoint : ¬ point.Owns) :
    Exclusive { m.goTo p point with state } := by
  have hnone : ∀ q, ¬ ((m.goTo p point).points q).Owns := by
    intro q hq
    rw [goTo_points] at hq
    split_ifs at hq with he
    · exact hpoint hq
    · exact he (h.owner q p hq hp)
  exact ⟨fun q _ hq => absurd hq (hnone q), fun _ => hnone⟩

theorem wakeUp (h : m.Exclusive) (p : P) : (m.wakeUp p).Exclusive := by
  unfold FutexMutex.wakeUp
  split_ifs
  · exact h.pass (by decide) id
  · exact h

theorem step (h : m.Exclusive) (action : Action P) : (m.step action).Exclusive := by
  cases action with
  | lock p =>
    simp only [FutexMutex.step]
    split_ifs with hp hfree hcontended
    · exact h.acquire hfree (by decide)
    · exact h.pass (by decide) id
    · exact h.pass (by decide) id
    · exact h
  | tryLock p =>
    simp only [FutexMutex.step]
    split_ifs with hp
    · exact h.acquire hp.2 (by decide)
    · exact h
  | exchange p =>
    simp only [FutexMutex.step]
    split_ifs with hp hstate
    · exact h.pass (by decide) fun hzero => absurd hzero (by decide)
    · exact h.acquire (not_not.mp hstate) (by decide)
    · exact h
  | futexWait p sleeps =>
    simp only [FutexMutex.step]
    split_ifs
    · exact h.pass (by decide) id
    · exact h.pass (by decide) id
    · exact h
  | interrupt p => exact h.wakeUp p
  | fetchSub p =>
    simp only [FutexMutex.step]
    split_ifs with hp hstate
    · refine h.keep (Or.inl hp) fun hzero => hstate ?_
      rw [← UInt32.sub_add_cancel m.state 1, hzero]
      rfl
    · exact h.release (Or.inl hp) (by decide)
    · exact h
  | store p =>
    simp only [FutexMutex.step]
    split_ifs with hp
    · exact h.release (Or.inr hp) (by decide)
    · exact h
  | futexWake p sleeper =>
    simp only [FutexMutex.step]
    split_ifs
    · cases sleeper with
      | none => exact h.pass (by decide) id
      | some q =>
        have hidle : Exclusive (m.goTo p .idle) := h.pass (by decide) id
        exact hidle.wakeUp q
    · exact h

end Exclusive

theorem exclusive_run (actions : List (Action P)) : (run actions).Exclusive := by
  have hidle : ¬ Point.idle.Owns := by decide
  apply run_induct ⟨fun _ _ hp => absurd hp hidle, fun _ _ => hidle⟩
  intro m action h
  exact h.step action

theorem at_most_one_holder (actions : List (Action P)) : {p | (run actions).points p = .held}.Subsingleton :=
  fun p hp q hq => (exclusive_run actions).owner p q (Or.inl hp) (Or.inl hq)

end FutexMutex

end SystemLevel.Ipc
