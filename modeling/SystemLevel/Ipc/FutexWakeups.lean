import SystemLevel.Ipc.FutexMutex

namespace SystemLevel.Ipc.FutexMutex

open Runs

variable {P : Type} [DecidableEq P]

/-- What the kernel promises: a FUTEX_WAKE wakes a process that sleeps, unless none does. -/
def Action.Wakes (m : FutexMutex P) : Action P → Prop
  | .futexWake _ none => ∀ q, m.points q ≠ .asleep
  | .futexWake _ (some q) => m.points q = .asleep
  | _ => True

def KernelWakes (past : List (Action P)) (action : Action P) : Prop := action.Wakes (run past)

def Attends (point : Point) : Prop := point = .releasing ∨ point = .waking ∨ point = .woken

instance (point : Point) : Decidable (Attends point) := inferInstanceAs (Decidable (_ ∨ _))

def Attended (m : FutexMutex P) : Prop := ∀ q, m.points q = .asleep → m.state = 2 ∨ ∃ p, Attends (m.points p)

namespace Attended

variable {m : FutexMutex P} {p : P} {point : Point} {state : UInt32}

theorem pass (h : m.Attended) (hp : ¬ Attends (m.points p)) (hpoint : point ≠ .asleep)
    (hstate : m.state = 2 → state = 2) : Attended { m.goTo p point with state } := by
  intro q hq
  change (m.goTo p point).points q = .asleep at hq
  rw [goTo_points] at hq
  split_ifs at hq with he
  · exact absurd hq hpoint
  · rcases h q hq with htwo | ⟨r, hr⟩
    · exact Or.inl (hstate htwo)
    · have hne : r ≠ p := by
        rintro rfl
        exact hp hr
      refine Or.inr ⟨r, ?_⟩
      change Attends ((m.goTo p point).points r)
      rw [goTo_points, if_neg hne]
      exact hr

omit [DecidableEq P] in
theorem of_state (m : FutexMutex P) (hstate : m.state = 2) : m.Attended := fun _ _ => Or.inl hstate

theorem of_point (m : FutexMutex P) (p : P) (hpoint : Attends point) : Attended { m.goTo p point with state } := by
  intro q _
  refine Or.inr ⟨p, ?_⟩
  change Attends ((m.goTo p point).points p)
  rw [goTo_points, if_pos rfl]
  exact hpoint

theorem wakeUp (h : m.Attended) (p : P) : (m.wakeUp p).Attended := by
  unfold FutexMutex.wakeUp
  split_ifs
  · exact of_point m p (by decide)
  · exact h

theorem futexWake {sleeper : Option P} (h : m.Attended) (hwakes : (Action.futexWake p sleeper).Wakes m) :
    (m.step (.futexWake p sleeper)).Attended := by
  simp only [FutexMutex.step]
  split_ifs with hp
  · cases sleeper with
    | none =>
      intro q hq
      rw [goTo_points] at hq
      split_ifs at hq
      exact absurd hq (hwakes q)
    | some q =>
      have hasleep : (m.goTo p .idle).points q = .asleep := by
        have hne : q ≠ p := by
          rintro rfl
          exact absurd (hp.symm.trans hwakes) (by decide)
        rw [goTo_points, if_neg hne]
        exact hwakes
      simp only [FutexMutex.wakeUp, if_pos hasleep]
      exact of_point _ q (by decide)
  · exact h

theorem step {action : Action P} (h : m.Attended) (hwakes : action.Wakes m) : (m.step action).Attended := by
  cases action with
  | lock p =>
    simp only [FutexMutex.step]
    split_ifs with hp hfree hcontended
    · refine h.pass (by rw [hp]; decide) (by decide) fun htwo => ?_
      exact absurd (hfree.symm.trans htwo) (by decide)
    · exact h.pass (by rw [hp]; decide) (by decide) id
    · exact h.pass (by rw [hp]; decide) (by decide) id
    · exact h
  | tryLock p =>
    simp only [FutexMutex.step]
    split_ifs with hp
    · refine h.pass (by rw [hp.1]; decide) (by decide) fun htwo => ?_
      exact absurd (hp.2.symm.trans htwo) (by decide)
    · exact h
  | exchange p =>
    simp only [FutexMutex.step]
    split_ifs
    · exact of_state _ rfl
    · exact of_state _ rfl
    · exact h
  | futexWait p sleeps =>
    simp only [FutexMutex.step]
    split_ifs with hp hsleeps
    · exact of_state _ hsleeps.1
    · exact of_point m p (by decide)
    · exact h
  | interrupt p => exact h.wakeUp p
  | fetchSub p =>
    simp only [FutexMutex.step]
    split_ifs with hp hstate
    · exact of_point m p (by decide)
    · refine h.pass (by rw [hp]; decide) (by decide) fun htwo => ?_
      exact absurd ((not_not.mp hstate).symm.trans htwo) (by decide)
    · exact h
  | store p =>
    simp only [FutexMutex.step]
    split_ifs
    · exact of_point m p (by decide)
    · exact h
  | futexWake p sleeper => exact h.futexWake hwakes

end Attended

theorem no_lost_wakeup {actions : List (Action P)} (h : Lawful KernelWakes actions) {q : P}
    (hasleep : (run actions).points q = .asleep) :
    (run actions).state = 2 ∨
      (∃ p, (run actions).points p = .releasing ∨ (run actions).points p = .waking) ∨
      ∃ p, (run actions).points p = .woken := by
  have hattended : (run actions).Attended := by
    refine Lawful.induct (motive := fun _ m => Attended m) ?_ (fun _ _ hwakes hm => hm.step hwakes) h
    exact fun _ hq => absurd hq (by simp)
  rcases hattended q hasleep with htwo | ⟨p, hp⟩
  · exact Or.inl htwo
  · rcases hp with hp | hp | hp
    · exact Or.inr (Or.inl ⟨p, Or.inl hp⟩)
    · exact Or.inr (Or.inl ⟨p, Or.inr hp⟩)
    · exact Or.inr (Or.inr ⟨p, hp⟩)

def barging : List (Action (Fin 3)) :=
  [.lock 0, .lock 1, .exchange 1, .futexWait 1 true, .fetchSub 0, .store 0, .lock 2]

theorem no_lost_wakeup_of_barging :
    (run barging).points 1 = .asleep ∧
      ((run barging).state = 2 ∨
        (∃ p, (run barging).points p = .releasing ∨ (run barging).points p = .waking) ∨
        ∃ p, (run barging).points p = .woken) := by
  have hlawful : Lawful KernelWakes barging := by
    simp [Lawful, LawfulFrom, barging, KernelWakes, Action.Wakes]
  have hasleep : (run barging).points 1 = .asleep := by decide
  exact ⟨hasleep, no_lost_wakeup hlawful hasleep⟩

end SystemLevel.Ipc.FutexMutex
