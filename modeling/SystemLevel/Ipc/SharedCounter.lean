import SystemLevel.Foundations.Potentials
import SystemLevel.Ipc.FutexMutex

/-!
The child processes of `main` in `shm_futex_sync.cpp`, with any number of processes and of increments. The counter is
not atomic: `counter += 1` loads it and stores it in two steps.
-/

namespace SystemLevel.Ipc

open Potentials Runs

inductive ChildPoint
  -- The constructor of `ScopedFutexLock`; once the mutex is held, the load of the counter.
  | locking
  | adding (loaded : UInt64)
  -- The destructor of `ScopedFutexLock`; once the mutex is released, the next round of the loop.
  | unlocking
  | exited
  deriving DecidableEq

structure SharedCounterData (P : Type) where
  mutex : FutexMutex P := {}
  counter : UInt64 := 0

structure SharedCounter (P : Type) extends SharedCounterData P where
  i : P → ℕ := fun _ => 0
  children : P → ChildPoint

namespace FutexMutex

variable {P : Type} [DecidableEq P]

def Action.process : Action P → P
  | lock p | tryLock p | exchange p | futexWait p _ | interrupt p | fetchSub p | store p | futexWake p _ => p

def lockAction (m : FutexMutex P) (p : P) (sleeps : Bool) : Option (Action P) :=
  match m.points p with
  | .idle => some (.lock p)
  | .contended | .woken => some (.exchange p)
  | .waiting => some (.futexWait p sleeps)
  | _ => none

def unlockAction (m : FutexMutex P) (p : P) (sleeper : Option P) : Option (Action P) :=
  match m.points p with
  | .held => some (.fetchSub p)
  | .releasing => some (.store p)
  | .waking => some (.futexWake p sleeper)
  | _ => none

def stepIf (m : FutexMutex P) (action : Option (Action P)) : FutexMutex P := action.elim m m.step

theorem goTo_points_self (m : FutexMutex P) (p : P) (point : Point) : (m.goTo p point).points p = point := by
  rw [goTo_points, if_pos rfl]

theorem goTo_points_of_ne (m : FutexMutex P) {p q : P} (hq : q ≠ p) (point : Point) :
    (m.goTo p point).points q = m.points q := by
  rw [goTo_points, if_neg hq]

theorem points_wakeUp (m : FutexMutex P) (p q : P) :
    (m.wakeUp p).points q = m.points q ∨ (m.points q = .asleep ∧ (m.wakeUp p).points q = .woken) := by
  unfold wakeUp
  split_ifs with hp
  · rw [goTo_points]
    split_ifs with he
    · rw [he]
      exact Or.inr ⟨hp, rfl⟩
    · exact Or.inl rfl
  · exact Or.inl rfl

theorem points_futexWake (m : FutexMutex P) {p : P} {sleeper : Option P} (hp : m.points p = .waking) :
    (m.step (.futexWake p sleeper)).points p = .idle := by
  simp only [step, if_pos hp]
  cases sleeper with
  | none => exact goTo_points_self m p .idle
  | some q =>
    rcases (m.goTo p .idle).points_wakeUp q p with hsame | ⟨hasleep, -⟩
    · rw [hsame, goTo_points_self]
    · rw [goTo_points_self] at hasleep
      cases hasleep

theorem points_step_of_ne (m : FutexMutex P) (action : Action P) {q : P} (hq : q ≠ action.process) :
    (m.step action).points q = m.points q ∨ (m.points q = .asleep ∧ (m.step action).points q = .woken) := by
  have hgoTo (point : Point) : (m.goTo action.process point).points q = m.points q := goTo_points_of_ne m hq point
  cases action with
  | interrupt p => exact m.points_wakeUp p q
  | futexWake p sleeper =>
    simp only [step]
    split_ifs
    · cases sleeper with
      | none => exact Or.inl (hgoTo _)
      | some r =>
        have hwakeUp := (m.goTo p .idle).points_wakeUp r q
        rw [show (m.goTo p .idle).points q = m.points q from hgoTo _] at hwakeUp
        exact hwakeUp
    · exact Or.inl rfl
  | _ =>
    simp only [step]
    split_ifs
    all_goals first | exact Or.inl (hgoTo _) | exact Or.inl rfl

end FutexMutex

namespace SharedCounter

variable {P : Type} [DecidableEq P]

inductive Action (P : Type)
  | advance (p : P) (sleeps : Bool) (sleeper : Option P)
  | interrupt (p : P)

def round (incrementsPerProcess i : ℕ) : ChildPoint := if i < incrementsPerProcess then .locking else .exited

theorem round_ne_unlocking (incrementsPerProcess i : ℕ) : round incrementsPerProcess i ≠ .unlocking := by
  unfold round
  split_ifs <;> decide

section Steps

variable (incrementsPerProcess : ℕ) (c : SharedCounter P)

def start : SharedCounter P := { children := fun _ => round incrementsPerProcess 0 }

def goTo (p : P) (point : ChildPoint) : SharedCounter P := { c with children := Function.update c.children p point }

def advance (p : P) (sleeps : Bool) (sleeper : Option P) : SharedCounter P :=
  match c.children p with
  | .locking =>
    if c.mutex.points p = .held then c.goTo p (.adding c.counter)
    else { c with mutex := c.mutex.stepIf (c.mutex.lockAction p sleeps) }
  | .adding loaded => { c.goTo p .unlocking with counter := loaded + 1 }
  | .unlocking =>
    if c.mutex.points p = .idle then
      { c.goTo p (round incrementsPerProcess (c.i p + 1)) with i := Function.update c.i p (c.i p + 1) }
    else { c with mutex := c.mutex.stepIf (c.mutex.unlockAction p sleeper) }
  | .exited => c

def step : Action P → SharedCounter P
  | .advance p sleeps sleeper => c.advance incrementsPerProcess p sleeps sleeper
  | .interrupt p => { c with mutex := c.mutex.step (.interrupt p) }

end Steps

abbrev run (incrementsPerProcess : ℕ) (actions : List (Action P)) : SharedCounter P :=
  Runs.run (step incrementsPerProcess) (start incrementsPerProcess) actions

def additions (c : SharedCounter P) (p : P) : ℕ := if c.children p = .unlocking then c.i p + 1 else c.i p

def Accesses (c : SharedCounter P) (p : P) : Prop :=
  (c.children p = .locking ∧ c.mutex.points p = .held) ∨ ∃ loaded, c.children p = .adding loaded

end SharedCounter

def ChildPoint.Placed (incrementsPerProcess : ℕ) (counter : UInt64) (i : ℕ) (point : Point) : ChildPoint → Prop
  | locking => i < incrementsPerProcess ∧ point ≠ .releasing ∧ point ≠ .waking
  | adding loaded => i < incrementsPerProcess ∧ point = .held ∧ loaded = counter
  | unlocking => i < incrementsPerProcess ∧ (point = .held ∨ point = .releasing ∨ point = .waking ∨ point = .idle)
  | exited => i = incrementsPerProcess ∧ point = .idle

namespace ChildPoint.Placed

variable {incrementsPerProcess i : ℕ} {counter : UInt64} {point : Point} {child : ChildPoint}

theorem wake (h : child.Placed incrementsPerProcess counter i .asleep) :
    child.Placed incrementsPerProcess counter i .woken := by
  cases child with
  | locking => exact ⟨h.1, by decide, by decide⟩
  | adding loaded => exact absurd h.2.1 (by decide)
  | unlocking => exact absurd h.2 (by decide)
  | exited => exact absurd h.2 (by decide)

theorem of_not_held (h : child.Placed incrementsPerProcess counter i point) (hpoint : point ≠ .held)
    (counter' : UInt64) : child.Placed incrementsPerProcess counter' i point := by
  cases child with
  | adding loaded => exact absurd h.2.1 hpoint
  | _ => exact h

theorem round (h : i ≤ incrementsPerProcess) :
    (SharedCounter.round incrementsPerProcess i).Placed incrementsPerProcess counter i .idle := by
  unfold SharedCounter.round
  split_ifs with hlt
  · exact ⟨hlt, by decide, by decide⟩
  · exact ⟨by omega, rfl⟩

end ChildPoint.Placed

namespace SharedCounter

variable {P : Type} [DecidableEq P]

inductive Advanced (incrementsPerProcess : ℕ) (c : SharedCounter P) (p : P) (sleeps : Bool) (sleeper : Option P) :
    SharedCounter P → Prop
  | acquire (state : UInt32) (hchild : c.children p = .locking)
      (hpoint : c.mutex.points p = .idle ∨ c.mutex.points p = .contended ∨ c.mutex.points p = .woken)
      (hfree : c.mutex.state = 0) (hstate : state ≠ 0) :
      Advanced _ c p _ _ { c with mutex := { c.mutex.goTo p .held with state } }
  | contend (hchild : c.children p = .locking) (hpoint : c.mutex.points p = .idle) (htaken : c.mutex.state ≠ 0)
      (htwo : c.mutex.state ≠ 2) : Advanced _ c p _ _ { c with mutex := c.mutex.goTo p .contended }
  | wait (hchild : c.children p = .locking)
      (hpoint : (c.mutex.points p = .idle ∧ c.mutex.state = 2) ∨ c.mutex.points p = .contended ∨
        c.mutex.points p = .woken) (htaken : c.mutex.state ≠ 0) :
      Advanced _ c p _ _ { c with mutex := { c.mutex.goTo p .waiting with state := 2 } }
  | sleep (hchild : c.children p = .locking) (hpoint : c.mutex.points p = .waiting) (htwo : c.mutex.state = 2)
      (hsleeps : sleeps = true) : Advanced _ c p _ _ { c with mutex := c.mutex.goTo p .asleep }
  | retry (hchild : c.children p = .locking) (hpoint : c.mutex.points p = .waiting)
      (hawake : ¬ (c.mutex.state = 2 ∧ sleeps = true)) : Advanced _ c p _ _ { c with mutex := c.mutex.goTo p .woken }
  | load (hchild : c.children p = .locking) (hpoint : c.mutex.points p = .held) :
      Advanced _ c p _ _ (c.goTo p (.adding c.counter))
  | add (loaded : UInt64) (hchild : c.children p = .adding loaded) :
      Advanced _ c p _ _ { c.goTo p .unlocking with counter := loaded + 1 }
  | release (hchild : c.children p = .unlocking) (hpoint : c.mutex.points p = .held) (hone : c.mutex.state = 1) :
      Advanced _ c p _ _ { c with mutex := { c.mutex.goTo p .idle with state := 0 } }
  | subtract (hchild : c.children p = .unlocking) (hpoint : c.mutex.points p = .held) (hone : c.mutex.state ≠ 1) :
      Advanced _ c p _ _ { c with mutex := { c.mutex.goTo p .releasing with state := c.mutex.state - 1 } }
  | store (hchild : c.children p = .unlocking) (hpoint : c.mutex.points p = .releasing) :
      Advanced _ c p _ _ { c with mutex := { c.mutex.goTo p .waking with state := 0 } }
  | wake (hchild : c.children p = .unlocking) (hpoint : c.mutex.points p = .waking) :
      Advanced _ c p _ _ { c with mutex := c.mutex.step (.futexWake p sleeper) }
  | next (hchild : c.children p = .unlocking) (hpoint : c.mutex.points p = .idle) :
      Advanced _ c p _ _
        { c.goTo p (round incrementsPerProcess (c.i p + 1)) with i := Function.update c.i p (c.i p + 1) }
  | blocked (hblocked : c.children p = .exited ∨ (c.children p = .locking ∧ c.mutex.points p = .asleep)) :
      Advanced _ c p _ _ c

variable {incrementsPerProcess : ℕ} {c : SharedCounter P} {p : P} {sleeps : Bool} {sleeper : Option P}

theorem Advanced.exchange (hchild : c.children p = .locking)
    (hpoint : c.mutex.points p = .contended ∨ c.mutex.points p = .woken) :
    Advanced incrementsPerProcess c p sleeps sleeper { c with mutex := c.mutex.step (.exchange p) } := by
  simp only [FutexMutex.step, if_pos hpoint]
  split_ifs with hfree
  · exact .wait hchild (Or.inr hpoint) hfree
  · exact .acquire 2 hchild (Or.inr hpoint) (not_not.mp hfree) (by decide)

theorem advance_advanced (sleeps : Bool) (sleeper : Option P)
    (h : (c.children p).Placed incrementsPerProcess c.counter (c.i p) (c.mutex.points p)) :
    Advanced incrementsPerProcess c p sleeps sleeper (c.advance incrementsPerProcess p sleeps sleeper) := by
  unfold advance
  cases hchild : c.children p with
  | exited => exact .blocked (Or.inl hchild)
  | adding loaded => exact .add loaded hchild
  | unlocking =>
    rw [hchild] at h
    dsimp only
    rcases h.2 with hpoint | hpoint | hpoint | hpoint
    · rw [if_neg (by rw [hpoint]; decide), FutexMutex.unlockAction, hpoint]
      simp only [FutexMutex.stepIf, Option.elim_some, FutexMutex.step, if_pos hpoint]
      split_ifs with hone
      · exact .subtract hchild hpoint hone
      · rw [not_not.mp hone]
        exact .release hchild hpoint (not_not.mp hone)
    · rw [if_neg (by rw [hpoint]; decide), FutexMutex.unlockAction, hpoint]
      simp only [FutexMutex.stepIf, Option.elim_some, FutexMutex.step, if_pos hpoint]
      exact .store hchild hpoint
    · rw [if_neg (by rw [hpoint]; decide), FutexMutex.unlockAction, hpoint]
      exact .wake hchild hpoint
    · rw [if_pos hpoint]
      exact .next hchild hpoint
  | locking =>
    dsimp only
    cases hpoint : c.mutex.points p with
    | held => exact .load hchild hpoint
    | releasing => exact absurd hpoint (hchild ▸ h).2.1
    | waking => exact absurd hpoint (hchild ▸ h).2.2
    | idle =>
      rw [if_neg (by decide), FutexMutex.lockAction, hpoint]
      simp only [FutexMutex.stepIf, Option.elim_some, FutexMutex.step, if_pos hpoint]
      split_ifs with hfree htwo
      · exact .acquire 1 hchild (Or.inl hpoint) hfree (by decide)
      · exact .contend hchild hpoint hfree htwo
      · have hwait : Advanced incrementsPerProcess c p sleeps sleeper _ :=
          .wait hchild (Or.inl ⟨hpoint, not_not.mp htwo⟩) hfree
        rw [← not_not.mp htwo] at hwait
        exact hwait
    | contended =>
      rw [if_neg (by decide), FutexMutex.lockAction, hpoint]
      exact .exchange hchild (Or.inl hpoint)
    | woken =>
      rw [if_neg (by decide), FutexMutex.lockAction, hpoint]
      exact .exchange hchild (Or.inr hpoint)
    | waiting =>
      rw [if_neg (by decide), FutexMutex.lockAction, hpoint]
      simp only [FutexMutex.stepIf, Option.elim_some, FutexMutex.step, if_pos hpoint]
      split_ifs with hsleeps
      · exact .sleep hchild hpoint hsleeps.1 hsleeps.2
      · exact .retry hchild hpoint hsleeps
    | asleep =>
      rw [if_neg (by decide), FutexMutex.lockAction, hpoint]
      exact .blocked (Or.inr ⟨hchild, hpoint⟩)

theorem mutex_advance (c : SharedCounter P) :
    (c.advance incrementsPerProcess p sleeps sleeper).mutex = c.mutex ∨
      ∃ action, (c.mutex.lockAction p sleeps = some action ∨ c.mutex.unlockAction p sleeper = some action) ∧
        (c.advance incrementsPerProcess p sleeps sleeper).mutex = c.mutex.step action := by
  have hstepIf (action : Option (FutexMutex.Action P)) :
      c.mutex.stepIf action = c.mutex ∨
        ∃ action', action = some action' ∧ c.mutex.stepIf action = c.mutex.step action' := by
    cases action with
    | none => exact Or.inl rfl
    | some action => exact Or.inr ⟨action, rfl, rfl⟩
  unfold advance
  split
  · split_ifs
    · exact Or.inl rfl
    · refine (hstepIf _).imp id ?_
      rintro ⟨action, haction, hstep⟩
      exact ⟨action, Or.inl haction, hstep⟩
  · exact Or.inl rfl
  · split_ifs
    · exact Or.inl rfl
    · refine (hstepIf _).imp id ?_
      rintro ⟨action, haction, hstep⟩
      exact ⟨action, Or.inr haction, hstep⟩
  · exact Or.inl rfl

section Invariant

variable [Fintype P]

structure Inv (incrementsPerProcess : ℕ) (c : SharedCounter P) : Prop where
  exclusive : c.mutex.Exclusive
  placed : ∀ p, (c.children p).Placed incrementsPerProcess c.counter (c.i p) (c.mutex.points p)
  total : c.counter = UInt64.ofNat (∑ p, c.additions p)

namespace Inv

theorem mutexStep (h : c.Inv incrementsPerProcess) {mutex : FutexMutex P} (hexclusive : mutex.Exclusive)
    (hself : (c.children p).Placed incrementsPerProcess c.counter (c.i p) (mutex.points p))
    (hothers : ∀ q, q ≠ p → mutex.points q = c.mutex.points q ∨
      (c.mutex.points q = .asleep ∧ mutex.points q = .woken)) :
    Inv incrementsPerProcess { c with mutex } := by
  refine ⟨hexclusive, fun q => ?_, h.total⟩
  by_cases hq : q = p
  · rw [hq]
    exact hself
  · have hplaced := h.placed q
    rcases hothers q hq with hsame | ⟨hasleep, hwoken⟩
    · exact hsame ▸ hplaced
    · rw [hasleep] at hplaced
      exact hwoken ▸ hplaced.wake

omit [DecidableEq P] in
theorem held_of_accesses (h : c.Inv incrementsPerProcess) (hp : c.Accesses p) : c.mutex.points p = .held := by
  rcases hp with ⟨-, hpoint⟩ | ⟨loaded, hchild⟩
  · exact hpoint
  · have hplaced := h.placed p
    rw [hchild] at hplaced
    exact hplaced.2.1

theorem goStep (h : c.Inv incrementsPerProcess) {mutex : FutexMutex P} (hexclusive : mutex.Exclusive) {point : Point}
    (hpoints : mutex.points = (c.mutex.goTo p point).points)
    (hself : (c.children p).Placed incrementsPerProcess c.counter (c.i p) point) :
    Inv incrementsPerProcess { c with mutex } := by
  refine h.mutexStep hexclusive (p := p) ?_ fun q hq => Or.inl ?_
  · rw [hpoints, FutexMutex.goTo_points_self]
    exact hself
  · rw [hpoints, FutexMutex.goTo_points_of_ne _ hq]

theorem childStep (h : c.Inv incrementsPerProcess) {c' : SharedCounter P} {d : ℕ} (hmutex : c'.mutex = c.mutex)
    (hself : (c'.children p).Placed incrementsPerProcess c'.counter (c'.i p) (c.mutex.points p))
    (hchildren : ∀ q, q ≠ p → c'.children q = c.children q) (hi : ∀ q, q ≠ p → c'.i q = c.i q)
    (hheld : c'.counter = c.counter ∨ c.mutex.points p = .held)
    (hcounter : c'.counter = c.counter + UInt64.ofNat d) (hadditions : c'.additions p = c.additions p + d) :
    c'.Inv incrementsPerProcess := by
  refine ⟨hmutex ▸ h.exclusive, fun q => ?_, ?_⟩
  · rw [hmutex]
    by_cases hq : q = p
    · rw [hq]
      exact hself
    · rw [hchildren q hq, hi q hq]
      rcases hheld with hsame | hheld
      · rw [hsame]
        exact h.placed q
      · refine (h.placed q).of_not_held (fun hother => hq ?_) _
        exact h.exclusive.owner q p (Or.inl hother) (Or.inl hheld)
  · have hsum : ∑ q, c'.additions q = ∑ q, c.additions q + d := by
      refine sum_eq_add p (fun q hq => ?_) hadditions
      simp only [additions, hchildren q hq, hi q hq]
    rw [hsum, UInt64.ofNat_add, ← h.total, hcounter]

theorem load (h : c.Inv incrementsPerProcess) (hchild : c.children p = .locking) (hpoint : c.mutex.points p = .held) :
    (c.goTo p (.adding c.counter)).Inv incrementsPerProcess := by
  have hplaced := h.placed p
  rw [hchild] at hplaced
  have hself : (c.goTo p (.adding c.counter)).children p = .adding c.counter := Function.update_self _ _ _
  refine h.childStep (p := p) (d := 0) rfl ?_ (fun q hq => Function.update_of_ne hq _ _) (fun _ _ => rfl) (Or.inl rfl)
    (add_zero _).symm ?_
  · rw [hself]
    exact ⟨hplaced.1, hpoint, rfl⟩
  · simp only [additions, hself, hchild]
    rfl

theorem add (h : c.Inv incrementsPerProcess) {loaded : UInt64} (hchild : c.children p = .adding loaded) :
    Inv incrementsPerProcess { c.goTo p .unlocking with counter := loaded + 1 } := by
  obtain ⟨hlt, hpoint, rfl⟩ : c.i p < incrementsPerProcess ∧ c.mutex.points p = .held ∧ loaded = c.counter := by
    have hplaced := h.placed p
    rw [hchild] at hplaced
    exact hplaced
  have hself : (c.goTo p .unlocking).children p = .unlocking := Function.update_self _ _ _
  refine h.childStep (p := p) (d := 1) rfl ?_ (fun q hq => Function.update_of_ne hq _ _) (fun _ _ => rfl)
    (Or.inr hpoint) rfl ?_
  · rw [hself]
    exact ⟨hlt, Or.inl hpoint⟩
  · simp only [additions, hself, hchild]
    rfl

theorem next (h : c.Inv incrementsPerProcess) (hchild : c.children p = .unlocking) (hpoint : c.mutex.points p = .idle) :
    Inv incrementsPerProcess
      { c.goTo p (round incrementsPerProcess (c.i p + 1)) with i := Function.update c.i p (c.i p + 1) } := by
  have hplaced := h.placed p
  rw [hchild] at hplaced
  have hself : (c.goTo p (round incrementsPerProcess (c.i p + 1))).children p =
      round incrementsPerProcess (c.i p + 1) :=
    Function.update_self _ _ _
  refine h.childStep (p := p) (d := 0) rfl ?_ (fun q hq => Function.update_of_ne hq _ _)
    (fun q hq => Function.update_of_ne hq _ _) (Or.inl rfl) (add_zero _).symm ?_
  · rw [hself, hpoint]
    dsimp only
    rw [Function.update_self]
    exact .round hplaced.1
  · simp only [additions, hself, hchild, Function.update_self, round_ne_unlocking]
    rfl

theorem wake (h : c.Inv incrementsPerProcess) (hchild : c.children p = .unlocking)
    (hpoint : c.mutex.points p = .waking) :
    Inv incrementsPerProcess { c with mutex := c.mutex.step (.futexWake p sleeper) } := by
  have hplaced := h.placed p
  rw [hchild] at hplaced
  refine h.mutexStep (h.exclusive.step _) (p := p) ?_ fun q hq => c.mutex.points_step_of_ne _ hq
  rw [hchild, c.mutex.points_futexWake hpoint]
  exact ⟨hplaced.1, by decide⟩

theorem advance (h : c.Inv incrementsPerProcess) (p : P) (sleeps : Bool) (sleeper : Option P) :
    (c.advance incrementsPerProcess p sleeps sleeper).Inv incrementsPerProcess := by
  have hexclusive : (c.advance incrementsPerProcess p sleeps sleeper).mutex.Exclusive := by
    rcases c.mutex_advance with hsame | ⟨action, -, hstep⟩
    · rw [hsame]
      exact h.exclusive
    · rw [hstep]
      exact h.exclusive.step action
  have hplaced := h.placed p
  have hadvanced := advance_advanced sleeps sleeper hplaced
  generalize c.advance incrementsPerProcess p sleeps sleeper = c' at hexclusive hadvanced
  cases hadvanced with
  | load hchild hpoint => exact h.load hchild hpoint
  | add loaded hchild => exact h.add hchild
  | next hchild hpoint => exact h.next hchild hpoint
  | wake hchild hpoint => exact h.wake hchild hpoint
  | blocked hblocked => exact h
  | release hchild hpoint hone | subtract hchild hpoint hone =>
    rw [hchild] at hplaced
    refine h.goStep hexclusive rfl ?_
    rw [hchild]
    exact ⟨hplaced.1, by decide⟩
  | store hchild hpoint =>
    rw [hchild] at hplaced
    refine h.goStep hexclusive rfl ?_
    rw [hchild]
    exact ⟨hplaced.1, by decide⟩
  | acquire state hchild | contend hchild | wait hchild | sleep hchild | retry hchild =>
    rw [hchild] at hplaced
    refine h.goStep hexclusive rfl ?_
    rw [hchild]
    exact ⟨hplaced.1, by decide, by decide⟩

theorem step (h : c.Inv incrementsPerProcess) (action : Action P) :
    (c.step incrementsPerProcess action).Inv incrementsPerProcess := by
  cases action with
  | advance p sleeps sleeper => exact h.advance p sleeps sleeper
  | interrupt p =>
    refine h.mutexStep (h.exclusive.step _) (p := p) ?_ fun q hq => c.mutex.points_step_of_ne _ hq
    rcases c.mutex.points_wakeUp p p with hsame | ⟨hasleep, hwoken⟩
    · exact (show (c.mutex.step (.interrupt p)).points p = _ from hsame) ▸ h.placed p
    · have hplaced := h.placed p
      rw [hasleep] at hplaced
      exact (show (c.mutex.step (.interrupt p)).points p = _ from hwoken) ▸ hplaced.wake

omit [DecidableEq P] in
theorem counter_of_exited (h : c.Inv incrementsPerProcess) (hexited : ∀ p, c.children p = .exited) :
    c.counter = UInt64.ofNat (Fintype.card P * incrementsPerProcess) := by
  have hadditions (p : P) : c.additions p = incrementsPerProcess := by
    have hplaced := h.placed p
    rw [hexited p] at hplaced
    rw [additions, hexited p, if_neg (by decide), hplaced.1]
  rw [h.total, Finset.sum_congr rfl fun p _ => hadditions p, Finset.sum_const, smul_eq_mul, Finset.card_univ]

end Inv

omit [DecidableEq P] in
theorem inv_start (incrementsPerProcess : ℕ) :
    (start incrementsPerProcess : SharedCounter P).Inv incrementsPerProcess := by
  have hidle : ¬ Point.idle.Owns := by decide
  refine ⟨⟨fun _ _ hp => absurd hp hidle, fun _ _ => hidle⟩, fun p => .round (Nat.zero_le _), ?_⟩
  simp [additions, start, round_ne_unlocking]

theorem inv_run (incrementsPerProcess : ℕ) (actions : List (Action P)) :
    (run incrementsPerProcess actions).Inv incrementsPerProcess := by
  apply run_induct (inv_start incrementsPerProcess)
  intro c action h
  exact h.step action

theorem counter_exact (incrementsPerProcess : ℕ) (actions : List (Action P)) :
    let c := run incrementsPerProcess actions
    c.counter = UInt64.ofNat (∑ p, c.additions p) ∧ {p | c.Accesses p}.Subsingleton ∧
      ((∃ p, c.children p ≠ .exited) ∨ c.counter = UInt64.ofNat (Fintype.card P * incrementsPerProcess)) := by
  intro c
  have h : c.Inv incrementsPerProcess := inv_run incrementsPerProcess actions
  refine ⟨h.total, fun p hp q hq => ?_, ?_⟩
  · exact h.exclusive.owner p q (Or.inl (h.held_of_accesses hp)) (Or.inl (h.held_of_accesses hq))
  · rw [or_iff_not_imp_left]
    intro hexited
    push Not at hexited
    exact h.counter_of_exited hexited

end Invariant

end SharedCounter

end SystemLevel.Ipc
