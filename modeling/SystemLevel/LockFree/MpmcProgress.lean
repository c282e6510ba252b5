import SystemLevel.Foundations.Potentials
import SystemLevel.LockFree.MpmcRefusals

namespace SystemLevel.LockFree

open Potentials Runs Wraparound

def ThreadPoint.isIdle {T : Type} : ThreadPoint T → Bool
  | .idle _ => true
  | _ => false

theorem ThreadPoint.eq_idle {T : Type} {point : ThreadPoint T} (h : point.isIdle = true) :
    ∃ returned, point = .idle returned := by
  cases point with
  | idle returned => exact ⟨returned, rfl⟩
  | _ => cases h

namespace MpmcQueue

variable {P T : Type} {q q' : MpmcQueue P T} {c t : ℕ} {p : P}

namespace Protocol

variable (h : q.Protocol c) (hnear : q.Near c)

include h hnear

theorem not_ahead_emplace (hne : (q.cells (q.slot q.enqueuePos)).sequence ≠ q.enqueuePos) :
    difference (q.cells (q.slot q.enqueuePos)).sequence q.enqueuePos < 0 := by
  rw [h.enqueuePos_eq, h.slot_ofNat] at hne ⊢
  obtain ⟨u, hcell, -, htakes, hult, hphase⟩ := h.sequence_cases hnear q.claims.length
  have hfew := hnear.claims_lt
  have hordered := h.ordered
  have hle : u ≤ q.claims.length := by
    by_contra hlt
    exact mod_ne (not_le.mp hlt) (by omega) hcell.symm
  rcases hphase with ⟨hopen, -⟩ | ⟨hfull, hlt⟩
  · rw [← hcell, hopen] at hne ⊢
    have hu : u ≠ q.claims.length := fun heq => hne (congrArg UInt64.ofNat heq)
    rw [difference_neg_iff (by omega) (by omega)]
    omega
  · rw [← hcell, hfull] at hne ⊢
    have hu : u + 1 ≠ q.claims.length := fun heq => hne (congrArg UInt64.ofNat heq)
    rw [difference_neg_iff (by omega) (by omega)]
    omega

theorem not_ahead_pop (hne : (q.cells (q.slot q.dequeuePos)).sequence ≠ q.dequeuePos + 1) :
    difference (q.cells (q.slot q.dequeuePos)).sequence (q.dequeuePos + 1) < 0 := by
  have hnext : UInt64.ofNat q.takes.length + 1 = UInt64.ofNat (q.takes.length + 1) :=
    (UInt64.ofNat_add q.takes.length 1).symm
  rw [h.dequeuePos_eq, h.slot_ofNat, hnext] at hne ⊢
  obtain ⟨u, hcell, -, htakes, hult, hphase⟩ := h.sequence_cases hnear q.takes.length
  have hfew := hnear.claims_lt
  have hordered := h.ordered
  have hle : u ≤ q.takes.length := by
    by_contra hlt
    exact mod_ne (not_le.mp hlt) htakes hcell.symm
  rcases hphase with ⟨hopen, -⟩ | ⟨hfull, -⟩
  · rw [← hcell, hopen, difference_neg_iff (by omega) (by omega)]
    omega
  · rw [← hcell, hfull] at hne ⊢
    have hu : u + 1 ≠ q.takes.length + 1 := fun heq => hne (congrArg UInt64.ofNat heq)
    rw [difference_neg_iff (by omega) (by omega)]
    omega

end Protocol

def lag (newest pos : UInt64) : ℕ := if pos = newest then 0 else 2

def work (q : MpmcQueue P T) : ThreadPoint T → ℕ
  | .idle _ => 0
  | .loading _ pos => 4 + lag q.enqueuePos pos
  | .reloading _ => 5
  | .claiming _ pos => 3 + lag q.enqueuePos pos
  | .writing _ _ => 2
  | .publishing _ => 1
  | .popLoading pos => 4 + lag q.dequeuePos pos
  | .popReloading => 5
  | .popClaiming pos => 3 + lag q.dequeuePos pos
  | .reading _ => 2
  | .releasing _ _ => 1

theorem lag_self (pos : UInt64) : lag pos pos = 0 := if_pos rfl

theorem lag_of_ne {newest pos : UInt64} (h : pos ≠ newest) : lag newest pos = 2 := if_neg h

theorem lag_le (newest pos : UInt64) : lag newest pos ≤ 2 := by
  unfold lag
  split_ifs <;> omega

theorem work_le_add (point : ThreadPoint T) : q'.work point ≤ q.work point + 2 := by
  have henqueue := lag_le q'.enqueuePos
  have hdequeue := lag_le q'.dequeuePos
  cases point with
  | loading value pos => exact (Nat.add_le_add_left (henqueue pos) 4).trans (by simp only [work]; omega)
  | claiming value pos => exact (Nat.add_le_add_left (henqueue pos) 3).trans (by simp only [work]; omega)
  | popLoading pos => exact (Nat.add_le_add_left (hdequeue pos) 4).trans (by simp only [work]; omega)
  | popClaiming pos => exact (Nat.add_le_add_left (hdequeue pos) 3).trans (by simp only [work]; omega)
  | _ => exact Nat.le_add_right _ 2

theorem work_loading (value : T) : q.work (.loading value q.enqueuePos) = 4 := by rw [work, lag_self]

theorem work_popLoading : q.work (.popLoading q.dequeuePos) = 4 := by rw [work, lag_self]

section Steps

variable [DecidableEq P] [Fintype P]

def potential (q : MpmcQueue P T) : ℕ := ∑ p, q.work (q.points p)

def earned (q : MpmcQueue P T) : ℕ := 2 * Fintype.card P * (q.claims.length + q.takes.length)

namespace Action

def Effective (q : MpmcQueue P T) : Action P T → Prop
  | emplace p _ | pop p => (q.points p).isIdle = true
  | advance p _ => (q.points p).isIdle = false

instance decidableEffective (q : MpmcQueue P T) (action : Action P T) : Decidable (action.Effective q) :=
  match action with
  | emplace p _ => inferInstanceAs (Decidable ((q.points p).isIdle = true))
  | pop p => inferInstanceAs (Decidable ((q.points p).isIdle = true))
  | advance p _ => inferInstanceAs (Decidable ((q.points p).isIdle = false))

def Allowed (q : MpmcQueue P T) (action : Action P T) : Prop :=
  action.Effective q ∧ (q.step action).claims.length < 2 ^ 62

def isCall : Action P T → Bool
  | emplace _ _ | pop _ => true
  | advance _ _ => false

def isSpurious : Action P T → Bool
  | advance _ spurious => spurious
  | _ => false

def cost (action : Action P T) : ℕ := (if action.isCall then 5 else 0) + if action.isSpurious then 2 else 0

end Action

variable {point : ThreadPoint T}

theorem potential_lt (q' : MpmcQueue P T) (hpoints : q'.points = Function.update q.points p point)
    (henqueue : q'.enqueuePos = q.enqueuePos) (hdequeue : q'.dequeuePos = q.dequeuePos) {d : ℕ}
    (hwork : q.work point < q.work (q.points p) + d) :
    q'.potential < q.potential + d := by
  have hwork' : q'.work = q.work := by
    funext point
    cases point <;> simp only [work, henqueue, hdequeue]
  refine sum_lt_add p (fun r hr => ?_) ?_
  · rw [hwork', hpoints, Function.update_of_ne hr]
  · rw [hwork', hpoints, Function.update_self]
    exact hwork

theorem potential_claim (q' : MpmcQueue P T) (hpoints : q'.points = Function.update q.points p point)
    (hlength : q'.claims.length + q'.takes.length = q.claims.length + q.takes.length + 1)
    (hwork : q'.work point < q.work (q.points p)) : q'.potential + q.earned < q.potential + q'.earned := by
  have hlt : ∑ r, q'.work (q'.points r) < ∑ r, (q.work (q.points r) + 2) := by
    refine sum_lt_add p (d := 0) (fun r hr => ?_) ?_
    · rw [hpoints, Function.update_of_ne hr]
      exact work_le_add _
    · rw [hpoints, Function.update_self]
      omega
  rw [Finset.sum_add_distrib, Finset.sum_const, smul_eq_mul, Finset.card_univ, Nat.mul_comm] at hlt
  have hearned : q'.earned = q.earned + 2 * Fintype.card P := by rw [earned, hlength, Nat.mul_succ, earned]
  rw [potential, potential, hearned]
  omega

theorem potential_goTo (hwork : q.work point < q.work (q.points p)) : (q.goTo p point).potential < q.potential :=
  potential_lt (q.goTo p point) rfl rfl rfl (d := 0) hwork

section Probe

variable {newest pos : UInt64}

theorem potential_probe {equal behind : Prop} [Decidable equal] [Decidable behind] {claim refuse reload : ThreadPoint T}
    (hpoint : q.work (q.points p) = 4 + lag newest pos) (hclaim : q.work claim = 3 + lag newest pos)
    (hrefuse : q.work refuse = 0) (hreload : q.work reload = 5) (hstale : ¬ equal → ¬ behind → pos ≠ newest) :
    let q' := if equal then q.goTo p claim else if behind then q.goTo p refuse else q.goTo p reload
    q'.potential + q.earned < q.potential + q'.earned := by
  dsimp only
  split_ifs with hequal hbehind
  · apply Nat.add_lt_add_right
    apply potential_goTo
    omega
  · apply Nat.add_lt_add_right
    apply potential_goTo
    omega
  · apply Nat.add_lt_add_right
    apply potential_goTo
    rw [lag_of_ne (hstale hequal hbehind)] at hpoint
    omega

theorem potential_retry {load : ThreadPoint T} (hpoint : q.work (q.points p) = 3 + lag newest pos)
    (hload : q.work load = 4) {spurious : Bool} (hfails : ¬ (newest = pos ∧ spurious = false)) :
    (q.goTo p load).potential < q.potential + if spurious then 2 else 0 := by
  refine potential_lt _ (by rfl) (by rfl) (by rfl) ?_
  rw [hpoint, hload]
  by_cases hfresh : pos = newest
  · rw [Bool.eq_true_of_not_eq_false fun hspurious => hfails ⟨hfresh.symm, hspurious⟩, if_pos rfl]
    omega
  · rw [lag_of_ne hfresh]
    omega

theorem potential_exchange {won load : ThreadPoint T} (claimed : MpmcQueue P T)
    (hpoint : q.work (q.points p) = 3 + lag newest pos) (hload : q.work load = 4)
    (hpoints : claimed.points = Function.update q.points p won) (hwon : claimed.work won = 2)
    (hlength : claimed.claims.length + claimed.takes.length = q.claims.length + q.takes.length + 1) (spurious : Bool) :
    let q' := if newest = pos ∧ spurious = false then claimed else q.goTo p load
    q'.potential + q.earned < q.potential + q'.earned + if spurious then 2 else 0 := by
  dsimp only
  by_cases hexchange : newest = pos ∧ spurious = false
  · rw [if_pos hexchange]
    apply Nat.lt_add_right
    apply potential_claim _ hpoints hlength
    omega
  · rw [if_neg hexchange]
    have hlt := potential_retry hpoint hload hexchange
    change _ + q.earned < _ + q.earned + _
    omega

end Probe

theorem potential_advance (hq : q.Protocol c) (hnear : q.Near c) (spurious : Bool)
    (heffective : (q.points p).isIdle = false) :
    (q.advance p spurious).potential + q.earned <
      q.potential + (q.advance p spurious).earned + if spurious then 2 else 0 := by
  -- Except for the claims, a step earns nothing.
  have hfalls {q' : MpmcQueue P T} (hearned : q'.earned = q.earned)
      (hlt : q'.potential < q.potential + if spurious then 2 else 0) :
      q'.potential + q.earned < q.potential + q'.earned + if spurious then 2 else 0 := by omega
  cases hpoint : q.points p with
  | idle returned =>
    rw [hpoint] at heffective
    cases heffective
  | loading value pos =>
    simp only [advance, hpoint, difference_eq_zero]
    refine Nat.lt_add_right _ (potential_probe (congrArg q.work hpoint) rfl rfl rfl ?_)
    rintro hne hahead rfl
    exact hahead (hq.not_ahead_emplace hnear hne)
  | popLoading pos =>
    simp only [advance, hpoint, difference_eq_zero]
    refine Nat.lt_add_right _ (potential_probe (congrArg q.work hpoint) rfl rfl rfl ?_)
    rintro hne hahead rfl
    exact hahead (hq.not_ahead_pop hnear hne)
  | reloading value =>
    simp only [advance, hpoint]
    refine hfalls rfl (Nat.lt_add_right _ (potential_goTo ?_))
    rw [hpoint, work_loading]
    exact Nat.lt_succ_self 4
  | popReloading =>
    simp only [advance, hpoint]
    refine hfalls rfl (Nat.lt_add_right _ (potential_goTo ?_))
    rw [hpoint, work_popLoading]
    exact Nat.lt_succ_self 4
  | claiming value pos =>
    simp only [advance, hpoint]
    refine potential_exchange _ (congrArg q.work hpoint) (work_loading value) (by rfl) rfl ?_ spurious
    dsimp only [goTo]
    rw [List.length_append, List.length_singleton]
    omega
  | popClaiming pos =>
    simp only [advance, hpoint]
    refine potential_exchange _ (congrArg q.work hpoint) work_popLoading (by rfl) rfl ?_ spurious
    dsimp only [goTo]
    rw [List.length_append, List.length_singleton]
    omega
  | writing value pos =>
    simp only [advance, hpoint]
    refine hfalls rfl (Nat.lt_add_right _ (potential_lt _ (by rfl) (by rfl) (by rfl) (d := 0) ?_))
    rw [hpoint]
    exact Nat.lt_succ_self 1
  | publishing pos =>
    simp only [advance, hpoint]
    refine hfalls rfl (Nat.lt_add_right _ (potential_lt _ (by rfl) (by rfl) (by rfl) (d := 0) ?_))
    rw [hpoint]
    exact Nat.one_pos
  | reading pos =>
    simp only [advance, hpoint]
    refine hfalls rfl (Nat.lt_add_right _ (potential_goTo ?_))
    rw [hpoint]
    exact Nat.lt_succ_self 1
  | releasing pos out =>
    simp only [advance, hpoint]
    refine hfalls rfl (Nat.lt_add_right _ (potential_lt _ (by rfl) (by rfl) (by rfl) (d := 0) ?_))
    rw [hpoint]
    exact Nat.one_pos

theorem potential_step (hq : q.Protocol c) (hnear : q.Near c) {action : Action P T} (heffective : action.Effective q) :
    (q.step action).potential + q.earned < q.potential + (q.step action).earned + action.cost := by
  cases action with
  | advance p spurious =>
    have hlt := potential_advance hq hnear spurious heffective
    cases spurious <;> exact hlt
  | emplace p value =>
    obtain ⟨returned, hpoint⟩ := ThreadPoint.eq_idle heffective
    have hlt : (q.goTo p (.loading value q.enqueuePos)).potential < q.potential + 5 := by
      refine potential_lt _ (by rfl) (by rfl) (by rfl) ?_
      rw [hpoint, work_loading]
      exact Nat.lt_succ_self 4
    simp only [step, hpoint]
    change _ + q.earned < _ + q.earned + 5
    omega
  | pop p =>
    obtain ⟨returned, hpoint⟩ := ThreadPoint.eq_idle heffective
    have hlt : (q.goTo p (.popLoading q.dequeuePos)).potential < q.potential + 5 := by
      refine potential_lt _ (by rfl) (by rfl) (by rfl) ?_
      rw [hpoint, work_popLoading]
      exact Nat.lt_succ_self 4
    simp only [step, hpoint]
    change _ + q.earned < _ + q.earned + 5
    omega

omit [DecidableEq P] [Fintype P] in
theorem sum_cost (actions : List (Action P T)) :
    (actions.map Action.cost).sum = 5 * actions.countP Action.isCall + 2 * actions.countP Action.isSpurious := by
  induction actions with
  | nil => rfl
  | cons action actions ih =>
    rw [List.map_cons, List.sum_cons, ih, List.countP_cons, List.countP_cons, Action.cost]
    split_ifs <;> omega

omit [Fintype P] in
theorem lawful_few {capacity : UInt64} {blank : T} {memory : ℕ → Cell T} {actions : List (Action P T)} {n : ℕ}
    (hfew : (run capacity blank memory actions).claims.length < n) :
    Lawful (fun past action => ((run capacity blank memory past).step action).claims.length < n) actions := by
  induction actions using List.reverseRecOn with
  | nil => exact lawful_nil
  | append_singleton actions action ih =>
    rw [run, run_snoc] at hfew
    exact (lawful_snoc _ _).mpr ⟨ih ((step_claims _ action).length_le.trans_lt hfew), hfew⟩

theorem lock_free {capacity : UInt64} (h : capacity ≤ UInt64.ofNat (2 ^ 62)) (blank : T) (memory : ℕ → Cell T)
    {actions : List (Action P T)} (hfew : (run capacity blank memory actions).claims.length < 2 ^ 62)
    (heffective : Lawful (fun past => Action.Effective (run capacity blank memory past)) actions) :
    let q := run capacity blank memory actions
    actions.length ≤ 2 * Fintype.card P * (q.claims.length + q.takes.length) +
      (5 * actions.countP Action.isCall + 2 * actions.countP Action.isSpurious) := by
  have hfew' : (run capacity blank memory ([] : List (Action P T))).claims.length < 2 ^ 62 := Nat.two_pow_pos 62
  obtain ⟨c, hq, -, hnear, -⟩ := protocol_held_run h blank memory hfew'
  have hlawful : Lawful (fun past => Action.Allowed (run capacity blank memory past)) actions :=
    heffective.and (lawful_few hfew)
  have hlength := length_le_of_potential (fun q : MpmcQueue P T => q.Protocol c ∧ q.Near c) potential earned
    Action.cost ⟨hq, hnear⟩ ?_ ?_ hlawful
  · rw [sum_cost] at hlength
    have hpotential : potential (run capacity blank memory ([] : List (Action P T))) = 0 :=
      Finset.sum_eq_zero fun _ _ => rfl
    rw [hpotential, Nat.zero_add] at hlength
    exact (Nat.le_add_right _ _).trans hlength
  · rintro q action ⟨hq, hnear⟩ ⟨-, hfew⟩
    exact ⟨hq.step action (hfew.trans (by decide)), hfew, hnear.exponent_le⟩
  · rintro q action ⟨hq, hnear⟩ ⟨heffective, -⟩
    exact potential_step hq hnear heffective

def contest : List (Action Bool ℕ) :=
  [.emplace false 7, .emplace true 8, .advance false false, .advance true false, .advance false false,
    .advance true false, .advance true false, .advance true true, .advance false false, .advance false false,
    .pop false]

theorem lock_free_of_contest :
    let q := run 2 0 (fun _ => ⟨0, 0⟩) contest
    Lawful (fun past => Action.Effective (run 2 0 (fun _ => ⟨0, 0⟩) past)) contest ∧
      contest.length ≤ 2 * Fintype.card Bool * (q.claims.length + q.takes.length) +
        (5 * contest.countP Action.isCall + 2 * contest.countP Action.isSpurious) := by
  have heffective : Lawful (fun past => Action.Effective (run 2 0 (fun _ => ⟨0, 0⟩) past)) contest := by decide +kernel
  refine ⟨heffective, lock_free ?_ 0 (fun _ => ⟨0, 0⟩) ?_ heffective⟩
  · decide
  · decide +kernel

end Steps

end MpmcQueue

end SystemLevel.LockFree
