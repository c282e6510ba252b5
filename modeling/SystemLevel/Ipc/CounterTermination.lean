import SystemLevel.Ipc.FutexWakeups
import SystemLevel.Ipc.SharedCounter

namespace SystemLevel.Ipc

open Potentials Runs

namespace FutexMutex

variable {P : Type} [DecidableEq P]

theorem state_wakeUp (m : FutexMutex P) (p : P) : (m.wakeUp p).state = m.state := by
  unfold wakeUp
  split_ifs <;> rfl

theorem state_futexWake (m : FutexMutex P) {p : P} {sleeper : Option P} :
    (m.step (.futexWake p sleeper)).state = m.state := by
  simp only [step]
  split_ifs
  · cases sleeper with
    | none => rfl
    | some q => exact state_wakeUp _ q
  · rfl

omit [DecidableEq P] in
theorem wakes_of_lockAction {m : FutexMutex P} {p : P} {sleeps : Bool} {action : Action P}
    (h : m.lockAction p sleeps = some action) : action.Wakes m := by
  unfold lockAction at h
  split at h
  all_goals
    cases h
    try trivial

omit [DecidableEq P] in
theorem wakes_of_unlockAction {m : FutexMutex P} {p : P} {sleeper : Option P} {action : Action P}
    (h : m.unlockAction p sleeper = some action)
    (hwakes : m.points p = .waking → (Action.futexWake p sleeper).Wakes m) : action.Wakes m := by
  unfold unlockAction at h
  split at h
  · cases h
    trivial
  · cases h
    trivial
  · next hp =>
    cases h
    exact hwakes hp
  · cases h

def Taken (m : FutexMutex P) : Prop := m.state ≠ 0 → ∃ p, (m.points p).Owns

namespace Taken

variable {m : FutexMutex P} {p : P} {point : Point} {state : UInt32}

theorem pass (h : m.Taken) (hp : ¬ (m.points p).Owns) (hstate : state ≠ 0 → m.state ≠ 0) :
    Taken { m.goTo p point with state } := by
  intro hne
  obtain ⟨q, hq⟩ := h (hstate hne)
  have hqp : q ≠ p := by
    rintro rfl
    exact hp hq
  refine ⟨q, ?_⟩
  change ((m.goTo p point).points q).Owns
  rw [goTo_points_of_ne m hqp]
  exact hq

theorem of_owns (m : FutexMutex P) (p : P) (hpoint : point.Owns) : Taken { m.goTo p point with state } := by
  intro _
  refine ⟨p, ?_⟩
  change ((m.goTo p point).points p).Owns
  rw [goTo_points_self]
  exact hpoint

theorem wakeUp (h : m.Taken) (p : P) : (m.wakeUp p).Taken := by
  unfold FutexMutex.wakeUp
  split_ifs with hp
  · exact h.pass (by rw [hp]; decide) id
  · exact h

theorem step (h : m.Taken) (action : Action P) : (m.step action).Taken := by
  cases action with
  | lock p =>
    simp only [FutexMutex.step]
    split_ifs with hp
    · exact of_owns m p (by decide)
    · exact h.pass (by rw [hp]; decide) id
    · exact h.pass (by rw [hp]; decide) id
    · exact h
  | tryLock p =>
    simp only [FutexMutex.step]
    split_ifs
    · exact of_owns m p (by decide)
    · exact h
  | exchange p =>
    simp only [FutexMutex.step]
    split_ifs with hp hstate
    · refine h.pass ?_ fun _ => hstate
      rcases hp with hp | hp
      all_goals
        rw [hp]
        decide
    · exact of_owns m p (by decide)
    · exact h
  | futexWait p sleeps =>
    simp only [FutexMutex.step]
    split_ifs with hp
    · exact h.pass (by rw [hp]; decide) id
    · exact h.pass (by rw [hp]; decide) id
    · exact h
  | interrupt p => exact h.wakeUp p
  | fetchSub p =>
    simp only [FutexMutex.step]
    split_ifs with hp hstate
    · exact of_owns m p (by decide)
    · intro hne
      rw [not_not.mp hstate] at hne
      exact absurd rfl hne
    · exact h
  | store p =>
    simp only [FutexMutex.step]
    split_ifs with hp
    · exact fun hne => absurd rfl hne
    · exact h
  | futexWake p sleeper =>
    simp only [FutexMutex.step]
    split_ifs with hp
    · have hidle : Taken (m.goTo p .idle) := h.pass (by rw [hp]; decide) id
      cases sleeper with
      | none => exact hidle
      | some q => exact hidle.wakeUp q
    · exact h

end Taken

end FutexMutex

namespace SharedCounter

variable {P : Type} [DecidableEq P] {incrementsPerProcess : ℕ} {c : SharedCounter P}

def Blocked (c : SharedCounter P) (p : P) : Prop := c.children p = .exited ∨ c.mutex.points p = .asleep

def Action.Effective (c : SharedCounter P) : Action P → Prop
  | advance p _ sleeper =>
    ¬ c.Blocked p ∧ (c.mutex.points p = .waking → (FutexMutex.Action.futexWake p sleeper).Wakes c.mutex)
  | interrupt p => c.mutex.points p = .asleep

instance decidableEffective [Fintype P] (c : SharedCounter P) (action : Action P) : Decidable (action.Effective c) :=
  match action with
  | .advance p _ none =>
    inferInstanceAs (Decidable (¬ (c.children p = .exited ∨ c.mutex.points p = .asleep) ∧
      (c.mutex.points p = .waking → ∀ q, c.mutex.points q ≠ .asleep)))
  | .advance p _ (some q) =>
    inferInstanceAs (Decidable (¬ (c.children p = .exited ∨ c.mutex.points p = .asleep) ∧
      (c.mutex.points p = .waking → c.mutex.points q = .asleep)))
  | .interrupt p => inferInstanceAs (Decidable (c.mutex.points p = .asleep))

/-- A return of FUTEX_WAIT that no FUTEX_WAKE and no change of the word has caused. -/
def Action.spurious : Action P → Bool
  | advance _ sleeps _ => !sleeps
  | interrupt _ => true

def Action.cost (action : Action P) : ℕ := if action.spurious then 3 else 0

omit [DecidableEq P] in
theorem sum_cost (actions : List (Action P)) : (actions.map Action.cost).sum = 3 * actions.countP Action.spurious := by
  induction actions with
  | nil => rfl
  | cons action actions ih =>
    rw [List.map_cons, List.sum_cons, ih, List.countP_cons, Action.cost]
    split_ifs <;> omega

section Potential

variable {state state' : UInt32} {point : Point} {child : ChildPoint} {turn rounds : ℕ}

def untilAsleep (state : UInt32) : ChildPoint → Point → ℕ
  | .locking, .idle => 3
  | .locking, .contended => 2
  | .locking, .woken => 2
  | .locking, .waiting => if state = 2 then 1 else 3
  | _, _ => 0

def turns : ChildPoint → Point → ℕ
  | .locking, .held => 5
  | .locking, _ => 6
  | .adding _, _ => 4
  | .unlocking, .held => 3
  | .unlocking, .releasing => 2
  | .unlocking, .waking => 1
  | _, _ => 0

def share (turn rounds : ℕ) (state : UInt32) (point : Point) (child : ChildPoint) : ℕ :=
  if child = .exited then 0
  else rounds * (6 * turn + 4) + turns child point * turn + untilAsleep state child point + 1

theorem share_exited : share turn rounds state point .exited = 0 := if_pos rfl

theorem share_of_ne (h : child ≠ .exited) : share turn rounds state point child =
    rounds * (6 * turn + 4) + turns child point * turn + untilAsleep state child point + 1 :=
  if_neg h

theorem untilAsleep_le (h : state = 2 → state' = 2) (child : ChildPoint) (point : Point) :
    untilAsleep state' child point ≤ untilAsleep state child point := by
  unfold untilAsleep
  split
  all_goals try exact le_rfl
  split_ifs with hstate' hstate
  · exact le_rfl
  · omega
  · exact absurd (h ‹_›) hstate'
  · exact le_rfl

theorem untilAsleep_le_add (state state' : UInt32) (child : ChildPoint) (point : Point) :
    untilAsleep state' child point ≤ untilAsleep state child point + 2 := by
  unfold untilAsleep
  split
  all_goals try omega
  split_ifs <;> omega

theorem share_le (h : state = 2 → state' = 2) :
    share turn rounds state' point child ≤ share turn rounds state point child := by
  by_cases hchild : child = .exited
  · rw [hchild, share_exited]
    exact Nat.zero_le _
  · have hle := untilAsleep_le h child point
    rw [share_of_ne hchild, share_of_ne hchild]
    omega

theorem share_le_add : share turn rounds state' point child ≤ share turn rounds state point child + 2 := by
  by_cases hchild : child = .exited
  · rw [hchild, share_exited]
    exact Nat.zero_le _
  · have hle := untilAsleep_le_add state state' child point
    rw [share_of_ne hchild, share_of_ne hchild]
    omega

theorem share_wake : share turn rounds state .woken child ≤ share turn rounds state .asleep child + 2 := by
  by_cases hchild : child = .exited
  · rw [hchild, share_exited]
    exact Nat.zero_le _
  · have hturns : turns child .woken = turns child .asleep := by cases child <;> rfl
    have huntil : untilAsleep state child .woken ≤ 2 := by
      cases child with
      | locking => exact le_rfl
      | _ => exact Nat.zero_le _
    rw [share_of_ne hchild, share_of_ne hchild, hturns]
    omega

theorem share_retry : share turn rounds state .woken .locking ≤ share turn rounds state .waiting .locking + 2 := by
  rw [share_of_ne (by decide), share_of_ne (by decide)]
  change _ + 6 * _ + 2 + 1 ≤ _ + 6 * _ + _ + 1 + 2
  omega

theorem share_lt {point' : Point} (h : child ≠ .exited) (hturns : turns child point' = turns child point)
    (hlt : untilAsleep state' child point' < untilAsleep state child point) :
    share turn rounds state' point' child < share turn rounds state point child := by
  rw [share_of_ne h, share_of_ne h, hturns]
  omega

theorem share_turn {point' : Point} {child' : ChildPoint} (turn rounds : ℕ) (h : child ≠ .exited)
    (hturns : turns child' point' < turns child point)
    (hle : untilAsleep state' child' point' ≤ untilAsleep state child point) :
    share turn rounds state' point' child' + turn ≤ share turn rounds state point child := by
  have hmul : (turns child' point' + 1) * turn ≤ turns child point * turn := Nat.mul_le_mul_right turn hturns
  rw [Nat.succ_mul] at hmul
  by_cases h' : child' = .exited
  · rw [h', share_exited, share_of_ne h]
    omega
  · rw [share_of_ne h', share_of_ne h]
    omega

variable [Fintype P]

def potential (incrementsPerProcess : ℕ) (c : SharedCounter P) : ℕ :=
  ∑ p, share (2 * Fintype.card P + 1) (incrementsPerProcess - c.i p - 1) c.mutex.state (c.mutex.points p) (c.children p)

omit [DecidableEq P] in
theorem potential_start (incrementsPerProcess : ℕ) :
    potential incrementsPerProcess (start incrementsPerProcess : SharedCounter P) ≤
      Fintype.card P * incrementsPerProcess * (12 * Fintype.card P + 10) := by
  have hshare : share (2 * Fintype.card P + 1) (incrementsPerProcess - 0 - 1) 0 .idle (round incrementsPerProcess 0) ≤
      incrementsPerProcess * (12 * Fintype.card P + 10) := by
    unfold round
    split_ifs with hlt
    · obtain ⟨rounds, rfl⟩ := Nat.exists_eq_add_of_lt hlt
      have hturns : turns .locking .idle = 6 := rfl
      have huntil : untilAsleep 0 .locking .idle = 3 := rfl
      have hcost : 6 * (2 * Fintype.card P + 1) + 4 = 12 * Fintype.card P + 10 := by omega
      rw [share_of_ne (by decide), hturns, huntil, hcost, Nat.zero_add, Nat.sub_zero, Nat.add_sub_cancel,
        Nat.succ_mul rounds]
      omega
    · rw [share_exited]
      exact Nat.zero_le _
  calc potential incrementsPerProcess (start incrementsPerProcess : SharedCounter P)
      ≤ ∑ _p : P, incrementsPerProcess * (12 * Fintype.card P + 10) := Finset.sum_le_sum fun _ _ => hshare
    _ = _ := by rw [Finset.sum_const, smul_eq_mul, Finset.card_univ, Nat.mul_assoc]

variable {c' : SharedCounter P} (p : P)

theorem potential_turn (hi : c'.i = c.i) (hchildren : ∀ q, q ≠ p → c'.children q = c.children q)
    (hothers : ∀ q, q ≠ p → c'.mutex.points q = c.mutex.points q ∨
      (c'.mutex.state = c.mutex.state ∧ c.mutex.points q = .asleep ∧ c'.mutex.points q = .woken))
    (h : c.children p ≠ .exited)
    (hturns : turns (c'.children p) (c'.mutex.points p) < turns (c.children p) (c.mutex.points p))
    (hle : untilAsleep c'.mutex.state (c'.children p) (c'.mutex.points p) ≤
      untilAsleep c.mutex.state (c.children p) (c.mutex.points p)) :
    potential incrementsPerProcess c' < potential incrementsPerProcess c := by
  refine sum_lt p (d := 2) (fun q hq => ?_) ?_
  · rw [hi, hchildren q hq]
    rcases hothers q hq with hsame | ⟨hstate, hasleep, hwoken⟩
    · rw [hsame]
      exact share_le_add
    · rw [hstate, hasleep, hwoken]
      exact share_wake
  · rw [hi]
    have hturn := share_turn (2 * Fintype.card P + 1) (incrementsPerProcess - c.i p - 1) h hturns hle
    omega

theorem potential_wait {mutex : FutexMutex P} {point : Point} (h : c.children p ≠ .exited)
    (hpoints : mutex.points = (c.mutex.goTo p point).points) (hstate : c.mutex.state = 2 → mutex.state = 2)
    (hturns : turns (c.children p) point = turns (c.children p) (c.mutex.points p))
    (hlt : untilAsleep mutex.state (c.children p) point < untilAsleep c.mutex.state (c.children p) (c.mutex.points p)) :
    potential incrementsPerProcess { c with mutex } < potential incrementsPerProcess c := by
  refine sum_lt p (d := 0) (fun q hq => ?_) ?_
  · rw [show mutex.points q = c.mutex.points q from hpoints ▸ FutexMutex.goTo_points_of_ne _ hq _]
    exact share_le hstate
  · rw [show mutex.points p = point from hpoints ▸ FutexMutex.goTo_points_self _ _ _]
    exact share_lt h hturns hlt

theorem potential_goTo {mutex : FutexMutex P} {point : Point} (h : c.children p ≠ .exited)
    (hpoints : mutex.points = (c.mutex.goTo p point).points)
    (hturns : turns (c.children p) point < turns (c.children p) (c.mutex.points p))
    (hle : untilAsleep mutex.state (c.children p) point ≤ untilAsleep c.mutex.state (c.children p) (c.mutex.points p)) :
    potential incrementsPerProcess { c with mutex } < potential incrementsPerProcess c := by
  have hself : mutex.points p = point := hpoints ▸ FutexMutex.goTo_points_self _ _ _
  refine potential_turn p rfl (fun _ _ => rfl) (fun q hq => Or.inl ?_) h ?_ ?_
  · exact hpoints ▸ FutexMutex.goTo_points_of_ne _ hq _
  · dsimp only
    rw [hself]
    exact hturns
  · dsimp only
    rw [hself]
    exact hle

theorem potential_next (hchild : c.children p = .unlocking) (hpoint : c.mutex.points p = .idle) :
    potential incrementsPerProcess
        { c.goTo p (round incrementsPerProcess (c.i p + 1)) with i := Function.update c.i p (c.i p + 1) } <
      potential incrementsPerProcess c := by
  refine sum_lt p (d := 0) (fun q hq => ?_) ?_
  · dsimp only [goTo]
    rw [Function.update_of_ne hq, Function.update_of_ne hq]
    exact le_rfl
  · dsimp only [goTo]
    rw [Function.update_self, Function.update_self, hchild, hpoint]
    unfold round
    split_ifs with hmore
    · have hrounds : incrementsPerProcess - c.i p - 1 = incrementsPerProcess - (c.i p + 1) - 1 + 1 := by omega
      rw [share_of_ne (by decide), share_of_ne (by decide), hrounds,
        Nat.succ_mul (incrementsPerProcess - (c.i p + 1) - 1)]
      change _ + 6 * _ + 3 + 1 + _ * 0 < _ + 0 * _ + 0 + 1
      omega
    · rw [share_exited, share_of_ne (by decide)]
      omega

theorem potential_spurious {mutex : FutexMutex P} (hpoint : c.mutex.points p = .waiting ∨ c.mutex.points p = .asleep)
    (hchild : c.children p = .locking) (hpoints : mutex.points = (c.mutex.goTo p .woken).points)
    (hstate : mutex.state = c.mutex.state) :
    potential incrementsPerProcess { c with mutex } < potential incrementsPerProcess c + 3 := by
  refine sum_lt_add p (fun q hq => ?_) (Nat.lt_succ_of_le ?_)
  · rw [show mutex.points q = c.mutex.points q from hpoints ▸ FutexMutex.goTo_points_of_ne _ hq _, hstate]
  · rw [show mutex.points p = .woken from hpoints ▸ FutexMutex.goTo_points_self _ _ _, hstate, hchild]
    rcases hpoint with hpoint | hpoint
    · rw [hpoint]
      exact share_retry
    · rw [hpoint]
      exact share_wake

section Locking

variable {state : UInt32} (hchild : c.children p = .locking)

include hchild

theorem potential_acquire
    (hpoint : c.mutex.points p = .idle ∨ c.mutex.points p = .contended ∨ c.mutex.points p = .woken) :
    potential incrementsPerProcess { c with mutex := { c.mutex.goTo p .held with state } } <
      potential incrementsPerProcess c := by
  refine potential_goTo p (by rw [hchild]; decide) rfl ?_ ?_
  · rw [hchild]
    rcases hpoint with hpoint | hpoint | hpoint
    all_goals
      rw [hpoint]
      decide
  · rw [hchild]
    exact Nat.zero_le _

theorem potential_contend (hpoint : c.mutex.points p = .idle) :
    potential incrementsPerProcess { c with mutex := c.mutex.goTo p .contended } <
      potential incrementsPerProcess c := by
  refine potential_wait p (by rw [hchild]; decide) rfl id ?_ ?_
  · rw [hchild, hpoint]
    rfl
  · rw [hchild, hpoint]
    exact Nat.lt_succ_self 2

theorem potential_enterWait
    (hpoint : c.mutex.points p = .idle ∨ c.mutex.points p = .contended ∨ c.mutex.points p = .woken) :
    potential incrementsPerProcess { c with mutex := { c.mutex.goTo p .waiting with state := 2 } } <
      potential incrementsPerProcess c := by
  refine potential_wait p (by rw [hchild]; decide) rfl (fun _ => rfl) ?_ ?_
  · rw [hchild]
    rcases hpoint with hpoint | hpoint | hpoint
    all_goals
      rw [hpoint]
      rfl
  · rw [hchild]
    rcases hpoint with hpoint | hpoint | hpoint
    · rw [hpoint]
      exact (by decide : 1 < 3)
    · rw [hpoint]
      exact Nat.lt_succ_self 1
    · rw [hpoint]
      exact Nat.lt_succ_self 1

theorem potential_sleep (hpoint : c.mutex.points p = .waiting) (htwo : c.mutex.state = 2) :
    potential incrementsPerProcess { c with mutex := c.mutex.goTo p .asleep } < potential incrementsPerProcess c := by
  refine potential_wait p (by rw [hchild]; decide) rfl id ?_ ?_
  · rw [hchild, hpoint]
    rfl
  · rw [hchild, hpoint]
    change 0 < if c.mutex.state = 2 then 1 else 3
    rw [if_pos htwo]
    exact Nat.one_pos

theorem potential_retry (hpoint : c.mutex.points p = .waiting) {sleeps : Bool}
    (hawake : ¬ (c.mutex.state = 2 ∧ sleeps = true)) :
    potential incrementsPerProcess { c with mutex := c.mutex.goTo p .woken } <
      potential incrementsPerProcess c + if sleeps then 0 else 3 := by
  by_cases htwo : c.mutex.state = 2
  · have hsleeps : ¬ sleeps = true := fun hsleeps => hawake ⟨htwo, hsleeps⟩
    rw [if_neg hsleeps]
    exact potential_spurious p (Or.inl hpoint) hchild rfl rfl
  · apply Nat.lt_add_right
    refine potential_wait p (by rw [hchild]; decide) rfl id ?_ ?_
    · rw [hchild, hpoint]
      rfl
    · rw [hchild, hpoint]
      change 2 < if c.mutex.state = 2 then 1 else 3
      rw [if_neg htwo]
      decide

end Locking

theorem potential_access {child : ChildPoint} {counter : UInt64} (hne : c.children p ≠ .exited)
    (hturns : turns child (c.mutex.points p) < turns (c.children p) (c.mutex.points p))
    (huntil : untilAsleep c.mutex.state child (c.mutex.points p) = 0) :
    potential incrementsPerProcess { c.goTo p child with counter } < potential incrementsPerProcess c := by
  have hself : (c.goTo p child).children p = child := Function.update_self _ _ _
  refine potential_turn p rfl (fun q hq => Function.update_of_ne hq _ _) (fun _ _ => Or.inl rfl) hne ?_ ?_
  · change turns ((c.goTo p child).children p) (c.mutex.points p) < _
    rw [hself]
    exact hturns
  · change untilAsleep c.mutex.state ((c.goTo p child).children p) (c.mutex.points p) ≤ _
    rw [hself, huntil]
    exact Nat.zero_le _

theorem potential_unlock {point : Point} {state : UInt32} (hchild : c.children p = .unlocking)
    (hturns : turns .unlocking point < turns .unlocking (c.mutex.points p)) :
    potential incrementsPerProcess { c with mutex := { c.mutex.goTo p point with state } } <
      potential incrementsPerProcess c := by
  refine potential_goTo p (by rw [hchild]; decide) rfl ?_ ?_
  · rw [hchild]
    exact hturns
  · rw [hchild]
    exact Nat.zero_le _

theorem potential_futexWake (hchild : c.children p = .unlocking) (hpoint : c.mutex.points p = .waking)
    (sleeper : Option P) :
    potential incrementsPerProcess { c with mutex := c.mutex.step (.futexWake p sleeper) } <
      potential incrementsPerProcess c := by
  have hself : (c.mutex.step (.futexWake p sleeper)).points p = .idle := c.mutex.points_futexWake hpoint
  refine potential_turn p rfl (fun _ _ => rfl) (fun q hq => ?_) (by rw [hchild]; decide) ?_ ?_
  · refine (c.mutex.points_step_of_ne _ hq).imp id fun hwoken => ⟨?_, hwoken⟩
    exact c.mutex.state_futexWake
  · dsimp only
    rw [hself, hchild, hpoint]
    decide
  · dsimp only
    rw [hself, hchild]
    exact Nat.zero_le _

theorem potential_advance (h : c.Inv incrementsPerProcess) {p : P} (sleeps : Bool) (sleeper : Option P)
    (heffective : ¬ c.Blocked p) :
    potential incrementsPerProcess (c.advance incrementsPerProcess p sleeps sleeper) <
      potential incrementsPerProcess c + if sleeps then 0 else 3 := by
  have hne : c.children p ≠ .exited := fun hexited => heffective (Or.inl hexited)
  have hadvanced := advance_advanced sleeps sleeper (h.placed p)
  generalize c.advance incrementsPerProcess p sleeps sleeper = c' at hadvanced
  cases hadvanced with
  | acquire state hchild hpoint hfree hstate => exact Nat.lt_add_right _ (potential_acquire p hchild hpoint)
  | contend hchild hpoint htaken htwo => exact Nat.lt_add_right _ (potential_contend p hchild hpoint)
  | wait hchild hpoint htaken =>
    exact Nat.lt_add_right _ (potential_enterWait p hchild (hpoint.imp And.left id))
  | sleep hchild hpoint htwo hsleeps => exact Nat.lt_add_right _ (potential_sleep p hchild hpoint htwo)
  | retry hchild hpoint hawake => exact potential_retry p hchild hpoint hawake
  | load hchild hpoint =>
    apply Nat.lt_add_right
    apply potential_access p hne
    · rw [hchild, hpoint]
      exact Nat.lt_succ_self 4
    · rfl
  | add loaded hchild =>
    have hpoint : c.mutex.points p = .held := h.held_of_accesses (Or.inr ⟨loaded, hchild⟩)
    apply Nat.lt_add_right
    apply potential_access p hne
    · rw [hchild, hpoint]
      exact Nat.lt_succ_self 3
    · rfl
  | release hchild hpoint hone | subtract hchild hpoint hone =>
    apply Nat.lt_add_right
    apply potential_unlock p hchild
    rw [hpoint]
    decide
  | store hchild hpoint =>
    apply Nat.lt_add_right
    apply potential_unlock p hchild
    rw [hpoint]
    decide
  | wake hchild hpoint => exact Nat.lt_add_right _ (potential_futexWake p hchild hpoint sleeper)
  | next hchild hpoint => exact Nat.lt_add_right _ (potential_next p hchild hpoint)
  | blocked hblocked => exact absurd (hblocked.imp id And.right) heffective

omit [DecidableEq P] in
theorem Inv.locking_of_asleep (h : c.Inv incrementsPerProcess) {p : P} (hasleep : c.mutex.points p = .asleep) :
    c.children p = .locking := by
  have hplaced := h.placed p
  rw [hasleep] at hplaced
  cases hchild : c.children p with
  | locking => rfl
  | adding loaded =>
    rw [hchild] at hplaced
    exact absurd hplaced.2.1 (by decide)
  | unlocking =>
    rw [hchild] at hplaced
    exact absurd hplaced.2 (by decide)
  | exited =>
    rw [hchild] at hplaced
    exact absurd hplaced.2 (by decide)

theorem potential_step (h : c.Inv incrementsPerProcess) {action : Action P} (heffective : action.Effective c) :
    potential incrementsPerProcess (c.step incrementsPerProcess action) <
      potential incrementsPerProcess c + action.cost := by
  cases action with
  | advance p sleeps sleeper =>
    have hlt := potential_advance h sleeps sleeper heffective.1
    cases sleeps <;> exact hlt
  | interrupt p =>
    have hasleep : c.mutex.points p = .asleep := heffective
    have hstep : c.mutex.step (.interrupt p) = c.mutex.goTo p .woken := if_pos hasleep
    refine potential_spurious p (Or.inr hasleep) (h.locking_of_asleep hasleep) ?_ ?_
    · rw [hstep]
    · rw [hstep]
      rfl

end Potential

section Progress

variable [Fintype P]

structure Live (incrementsPerProcess : ℕ) (c : SharedCounter P) : Prop extends c.Inv incrementsPerProcess where
  taken : c.mutex.Taken
  attended : c.mutex.Attended

namespace Live

theorem step (h : c.Live incrementsPerProcess) {action : Action P} (heffective : action.Effective c) :
    (c.step incrementsPerProcess action).Live incrementsPerProcess := by
  cases action with
  | interrupt p => exact ⟨h.toInv.step _, h.taken.step _, h.attended.step trivial⟩
  | advance p sleeps sleeper =>
    have hmutex : (c.advance incrementsPerProcess p sleeps sleeper).mutex.Taken ∧
        (c.advance incrementsPerProcess p sleeps sleeper).mutex.Attended := by
      rcases c.mutex_advance with hsame | ⟨action, haction, hstep⟩
      · rw [hsame]
        exact ⟨h.taken, h.attended⟩
      · have hwakes : action.Wakes c.mutex := by
          rcases haction with haction | haction
          · exact FutexMutex.wakes_of_lockAction haction
          · exact FutexMutex.wakes_of_unlockAction haction heffective.2
        rw [hstep]
        exact ⟨h.taken.step action, h.attended.step hwakes⟩
    exact ⟨h.toInv.step _, hmutex.1, hmutex.2⟩

omit [DecidableEq P] in
theorem exists_not_blocked (h : c.Live incrementsPerProcess) (hmore : ∃ p, c.children p ≠ .exited) :
    ∃ p, ¬ c.Blocked p := by
  by_contra hblocked
  push Not at hblocked
  -- A process that has exited is idle, so nobody is anywhere else than idle or asleep.
  have hpoints (p : P) : c.mutex.points p = .idle ∨ c.mutex.points p = .asleep := by
    refine (hblocked p).imp (fun hexited => ?_) id
    have hplaced := h.placed p
    rw [hexited] at hplaced
    exact hplaced.2
  have howns (p : P) : ¬ (c.mutex.points p).Owns := by
    rcases hpoints p with hpoint | hpoint
    all_goals
      rw [hpoint]
      decide
  have hattends (p : P) : ¬ FutexMutex.Attends (c.mutex.points p) := by
    rcases hpoints p with hpoint | hpoint
    all_goals
      rw [hpoint]
      decide
  obtain ⟨p, hp⟩ := hmore
  rcases h.attended p ((hblocked p).resolve_left hp) with htwo | ⟨q, hq⟩
  · obtain ⟨q, hq⟩ := h.taken (htwo ▸ (by decide))
    exact howns q hq
  · exact hattends q hq

omit [DecidableEq P] in
theorem exists_effective (h : c.Live incrementsPerProcess) (hmore : ∃ p, c.children p ≠ .exited) :
    ∃ action : Action P, action.spurious = false ∧ action.Effective c := by
  obtain ⟨p, hp⟩ := h.exists_not_blocked hmore
  by_cases hasleep : ∃ q, c.mutex.points q = .asleep
  · obtain ⟨q, hq⟩ := hasleep
    exact ⟨.advance p true (some q), rfl, hp, fun _ => hq⟩
  · push Not at hasleep
    exact ⟨.advance p true none, rfl, hp, fun _ => hasleep⟩

end Live

omit [DecidableEq P] in
theorem live_start (incrementsPerProcess : ℕ) :
    (start incrementsPerProcess : SharedCounter P).Live incrementsPerProcess := by
  refine ⟨inv_start incrementsPerProcess, fun hstate => absurd rfl hstate, fun q hq => ?_⟩
  cases hq

theorem counting_terminates {incrementsPerProcess : ℕ} {actions : List (Action P)}
    (h : Lawful (fun past => Action.Effective (run incrementsPerProcess past)) actions) :
    let c := run incrementsPerProcess actions
    actions.length ≤ Fintype.card P * incrementsPerProcess * (12 * Fintype.card P + 10) +
        3 * actions.countP Action.spurious ∧
      ((∃ action : Action P, action.spurious = false ∧ action.Effective c) ∨
        ((∀ p, c.children p = .exited) ∧ c.counter = UInt64.ofNat (Fintype.card P * incrementsPerProcess))) := by
  intro c
  constructor
  · have hlength := length_le_of_potential (Inv incrementsPerProcess) (potential incrementsPerProcess) (fun _ => 0)
      Action.cost (inv_start incrementsPerProcess) (fun _ action hinv _ => hinv.step action)
      (fun _ _ hinv => potential_step hinv) h
    rw [sum_cost] at hlength
    exact hlength.trans (Nat.add_le_add_right (potential_start incrementsPerProcess) _)
  · have hlive : c.Live incrementsPerProcess :=
      h.induct (motive := fun _ => Live incrementsPerProcess) (live_start incrementsPerProcess)
        fun _ _ heffective hc => hc.step heffective
    by_cases hmore : ∃ p, c.children p ≠ .exited
    · exact Or.inl (hlive.exists_effective hmore)
    · push Not at hmore
      exact Or.inr ⟨hmore, hlive.counter_of_exited hmore⟩

def contest : List (Action Bool) :=
  [.advance false true none, .advance true true none, .advance true true none, .advance true true none] ++
    List.replicate 4 (.advance false true none) ++ [.advance false true (some true), .advance false true none] ++
    List.replicate 7 (.advance true true none)

theorem counting_terminates_of_contest :
    Lawful (fun past => Action.Effective (run 1 past)) contest ∧
      contest.length ≤ Fintype.card Bool * 1 * (12 * Fintype.card Bool + 10) +
          3 * contest.countP Action.spurious ∧
        ((∃ action : Action Bool, action.spurious = false ∧ action.Effective (run 1 contest)) ∨
          ((∀ p, (run 1 contest).children p = .exited) ∧
            (run 1 contest).counter = UInt64.ofNat (Fintype.card Bool * 1))) := by
  have hlawful : Lawful (fun past => Action.Effective (run 1 past)) contest := by decide +kernel
  exact ⟨hlawful, counting_terminates hlawful⟩

end Progress

end SharedCounter

end SystemLevel.Ipc
