import SystemLevel.Fibers.FiberPlaces

namespace SystemLevel.Fibers.Thread

open Runs Placement

variable {T : Type}

def free (capacity : ℕ → ℕ) (t : Thread T) : Place → ℕ
  | .ready _ => 0
  | .mutex m => if t.locked m then 0 else 1
  | .sender c => capacity c - (t.items c).length
  | .receiver c => (t.items c).length

def active (t : Thread T) : List ℕ :=
  (match t.control with
    | .fiber _ f => [f]
    | _ => []) ++ t.queues (.ready 0)

def seeks (t : Thread T) (f : ℕ) (p : Place) : ℕ := if (t.rest f).wants = some p then 1 else 0

def seekers (t : Thread T) (p : Place) : ℕ := t.active.countP fun f => (t.rest f).wants = some p

def Covered (capacity : ℕ → ℕ) (t : Thread T) : Prop := ∀ p, t.queues p = [] ∨ t.free capacity p ≤ t.seekers p

variable {capacity : ℕ → ℕ} {t t' : Thread T} {place : ℕ → Option Place} {f : ℕ}

theorem active_fiber {s : ℕ} (hf : t.control = .fiber s f) : t.active = f :: t.queues (.ready 0) := by
  rw [active, hf]
  rfl

theorem seekers_fiber {s : ℕ} (hf : t.control = .fiber s f) (p : Place) :
    t.seekers p = (t.queues (.ready 0)).countP (fun g => (t.rest g).wants = some p) + t.seeks f p := by
  rw [seekers, active_fiber hf, List.countP_cons, seeks]
  simp

theorem seeks_ready (t : Thread T) (f s : ℕ) : t.seeks f (.ready s) = 0 := by
  rw [seeks, if_neg]
  cases t.rest f <;> nofun

namespace Kept

theorem notMem_ready (h : t.Kept place) (hf : t.control = .fiber 0 f) : f ∉ t.queues (.ready 0) := by
  intro hmem
  exact absurd ((h.placed.mem_iff.mp hmem).symm.trans (h.running hf).1) (Option.some_ne_none _)

theorem seekers_goOn (h : t.Kept place) (hf : t.control = .fiber 0 f) (next : Program T) (events : List (Event T))
    (p : Place) : (t.goOn f next events).seekers p + t.seeks f p = t.seekers p + (t.goOn f next events).seeks f p := by
  have hready : (t.queues (.ready 0)).countP (fun g => ((t.goOn f next events).rest g).wants = some p) =
      (t.queues (.ready 0)).countP fun g => (t.rest g).wants = some p := by
    apply List.countP_congr
    intro g hg
    have hne : g ≠ f := by
      rintro rfl
      exact h.notMem_ready hf hg
    have hrest : (t.goOn f next events).rest g = t.rest g := Function.update_of_ne hne _ _
    rw [hrest]
  rw [seekers_fiber hf, seekers_fiber (t := t.goOn f next events) hf]
  change (t.queues (.ready 0)).countP _ + _ + _ = _
  rw [hready]
  omega

theorem covered_goOn (h : t.Kept place) (hf : t.control = .fiber 0 f) (next : Program T) (events : List (Event T))
    (hcovered : ∀ p, t.queues p = [] ∨ t.free capacity p + t.seeks f p ≤ t.seekers p) :
    (t.goOn f next events).Covered capacity := by
  intro p
  refine (hcovered p).imp_right fun hle => ?_
  have hseekers := h.seekers_goOn hf next events p
  change t.free capacity p ≤ _
  omega

theorem seekers_wakeFirst (h : t.Kept place) {p : Place} (hp : p.state = .suspended) {g : ℕ} {fibers : List ℕ}
    (hqueue : t.queues p = g :: fibers) (q : Place) :
    (t.wakeFirst p).seekers q = t.seekers q + if q = p then 1 else 0 := by
  have hwants : (t.rest g).wants = some p := by
    have hplace : place g = some p := h.placed.mem_iff.mp (hqueue ▸ List.mem_cons_self)
    exact (h.waiting hplace).2.2.2.1 hp
  have hne : Place.ready 0 ≠ p := by
    rintro rfl
    cases hp
  have hactive : (t.wakeFirst p).active = t.active ++ [g] := by
    rw [h.wakeFirst_eq hqueue, active, active, List.append_assoc]
    simp [pushBack, setQueue, setState, hne]
  have hrest : (t.wakeFirst p).rest = t.rest := by
    obtain ⟨queues, state, heq⟩ := t.wakeFirst_frame p
    rw [heq]
  rw [seekers, hactive, hrest, List.countP_append, ← seekers]
  simp [hwants, eq_comm]

theorem queues_wakeFirst (h : t.Kept place) {p q : Place} {g : ℕ} {fibers : List ℕ} (hqueue : t.queues p = g :: fibers)
    (hp : q ≠ p) (hready : q ≠ .ready 0) : (t.wakeFirst p).queues q = t.queues q := by
  rw [h.wakeFirst_eq hqueue]
  simp [pushBack, setQueue, setState, hp, hready]

theorem covered_finishCall (h : t.Kept place) (hf : t.control = .fiber 0 f) {p : Place} (hp : p.state = .suspended)
    (next : Program T) (events : List (Event T))
    (hcovered : ∀ q, t.queues q = [] ∨ t.free capacity q + t.seeks f q ≤ t.seekers q + if q = p then 1 else 0) :
    ((t.wakeFirst p).goOn f next events).Covered capacity := by
  obtain ⟨place', h'⟩ := (h.wakeFirst p).kept
  apply h'.covered_goOn (by rw [wakeFirst_control]; exact hf)
  intro q
  have hframe : (t.wakeFirst p).free capacity q = t.free capacity q ∧ (t.wakeFirst p).seeks f q = t.seeks f q := by
    obtain ⟨queues, state, heq⟩ := t.wakeFirst_frame p
    rw [heq]
    cases q <;> exact ⟨rfl, rfl⟩
  rw [hframe.1, hframe.2]
  cases hqueue : t.queues p with
  | nil =>
    have hsame : t.wakeFirst p = t := by simp only [Thread.wakeFirst, hqueue]
    rw [hsame]
    by_cases hq : q = p
    · exact Or.inl (hq ▸ hqueue)
    · have hold := hcovered q
      rwa [if_neg hq] at hold
  | cons g fibers =>
    rw [h.seekers_wakeFirst hp hqueue]
    by_cases hq : q = p
    · refine Or.inr ((hcovered q).resolve_left ?_)
      rw [hq, hqueue]
      exact List.cons_ne_nil _ _
    · by_cases hready : q = .ready 0
      · rw [hready, seeks_ready]
        exact Or.inr (Nat.zero_le _)
      · rw [h.queues_wakeFirst hqueue hq hready]
        exact hcovered q

theorem covered_suspendAt (h : t.Kept place) (hcovered : t.Covered capacity) (hf : t.control = .fiber 0 f) {p : Place}
    (hwants : (t.rest f).wants = some p) (hfree : t.free capacity p = 0) : (t.suspendAt p f).Covered capacity := by
  intro q
  rw [suspendAt_eq h.current hf]
  by_cases hq : q = p
  · refine Or.inr ?_
    change t.free capacity q ≤ _
    rw [hq, hfree]
    exact Nat.zero_le _
  · have hseeks : t.seeks f q = 0 := by
      rw [seeks, hwants, if_neg]
      exact fun heq => hq (Option.some.inj heq).symm
    refine (hcovered q).imp (fun hnil => ?_) fun hle => ?_
    · exact (Function.update_of_ne hq _ _).trans hnil
    · rw [seekers_fiber hf, hseeks] at hle
      refine hle.trans ?_
      change _ ≤ (Function.update t.queues p _ (.ready 0)).countP _
      have hready : Place.ready 0 ≠ p := by
        rintro rfl
        cases hnext : t.rest f <;> rw [hnext] at hwants <;> cases hwants
      rw [Function.update_of_ne hready]
      exact le_rfl

theorem covered_of_ready (hcovered : t.Covered capacity) (hqueues : ∀ p ≠ .ready 0, t'.queues p = t.queues p)
    (hfree : ∀ p, t'.free capacity p = t.free capacity p) (hseekers : ∀ p, t.seekers p ≤ t'.seekers p) :
    t'.Covered capacity := by
  intro p
  rw [hfree]
  by_cases hp : p = .ready 0
  · rw [hp]
    exact Or.inr (Nat.zero_le _)
  · refine (hcovered p).imp (fun hnil => ?_) fun hle => ?_
    · exact (hqueues p hp).trans hnil
    · exact hle.trans (hseekers p)

theorem covered_yield (h : t.Kept place) (hcovered : t.Covered capacity) (hf : t.control = .fiber 0 f) :
    t.yield.Covered capacity := by
  rw [yield_eq h.current hf (h.running hf).2]
  apply covered_of_ready hcovered
  · intro p hp
    exact Function.update_of_ne hp _ _
  · intro p
    cases p <;> rfl
  · intro p
    rw [seekers_fiber hf]
    change _ ≤ (Function.update t.queues (.ready 0) (t.queues (.ready 0) ++ [f]) (.ready 0)).countP _
    rw [Function.update_self, List.countP_append, List.countP_singleton, seeks]
    simp only [decide_eq_true_eq]
    exact le_rfl

theorem covered_finish (h : t.Kept place) (hcovered : t.Covered capacity) (hf : t.control = .fiber 0 f)
    (hnext : t.rest f = .finish) : (t.finish f).Covered capacity := by
  intro p
  rw [finish_eq h.current hf]
  refine (hcovered p).imp_right fun hle => ?_
  have hseeks : t.seeks f p = 0 := by
    rw [seeks, hnext]
    exact if_neg nofun
  rw [seekers_fiber hf, hseeks] at hle
  exact hle

theorem covered_dispatch (h : t.Kept place) (hcovered : t.Covered capacity) (hcontrol : t.control = .loop 0) :
    (t.dispatch 0).Covered capacity := by
  cases hqueue : t.queues (.ready 0) with
  | nil =>
    intro p
    simp only [Thread.dispatch, hqueue]
    refine (hcovered p).imp_right fun hle => ?_
    rw [seekers, active, hcontrol] at hle
    exact hle
  | cons f fibers =>
    rw [h.dispatch_eq hqueue]
    apply covered_of_ready hcovered
    · intro p hp
      exact Function.update_of_ne hp _ _
    · intro p
      cases p <;> rfl
    · intro p
      rw [seekers, active, hcontrol, hqueue, seekers, active_fiber rfl]
      change _ ≤ (f :: Function.update t.queues (.ready 0) fibers (.ready 0)).countP _
      rw [Function.update_self]
      exact le_rfl

theorem covered_spawn (h : t.Kept place) (hcovered : t.Covered capacity) (body : Program T) :
    (t.spawn 0 body).Covered capacity := by
  have hborn : ∀ g ∈ t.active, g < t.spawned := by
    intro g hg
    rcases List.mem_append.mp hg with hg | hg
    · cases hcontrol : t.control with
      | fiber s f =>
        have hon := h.control
        rw [hcontrol] at hg hon
        obtain rfl : s = 0 := hon
        rw [List.mem_singleton.mp hg]
        exact h.runs f hcontrol
      | main => rw [hcontrol] at hg; cases hg
      | loop s => rw [hcontrol] at hg; cases hg
      | lost => rw [hcontrol] at hg; cases hg
    · exact h.born g _ (h.placed.mem_iff.mp hg)
  have hactive : (t.spawn 0 body).active = t.active ++ [t.spawned] := by
    rw [active, active, List.append_assoc]
    simp [Thread.spawn, pushBack, setQueue]
  apply covered_of_ready hcovered
  · intro p hp
    exact Function.update_of_ne hp _ _
  · intro p
    cases p <;> rfl
  · intro p
    rw [seekers, seekers, hactive, List.countP_append]
    refine le_trans (le_of_eq (List.countP_congr fun g hg => ?_)) (Nat.le_add_right _ _)
    have hrest : (t.spawn 0 body).rest g = t.rest g := Function.update_of_ne (hborn g hg).ne _ _
    rw [hrest]

theorem covered_reset (hcovered : t.Covered capacity) {locked : ℕ → Bool} {items : ℕ → List T} {memory : ℕ → T} {n : ℕ}
    {p : Place}
    (hbudget : free capacity { t with locked, items, memory } p + t.seeks f p ≤ t.free capacity p + n) :
    t.queues p = [] ∨ free capacity { t with locked, items, memory } p + t.seeks f p ≤ t.seekers p + n :=
  (hcovered p).imp_right fun hle => hbudget.trans (Nat.add_le_add_right hle n)

theorem covered_lock (h : t.Kept place) (hcovered : t.Covered capacity) (hf : t.control = .fiber 0 f) {m : ℕ}
    {next : Program T} (hnext : t.rest f = .lock m next) : (t.lock f m next).Covered capacity := by
  unfold Thread.lock
  split_ifs with hlocked
  · exact h.covered_suspendAt hcovered hf (by rw [hnext]; rfl) (if_pos hlocked)
  · obtain ⟨place', h'⟩ := (h.reset (Function.update t.locked m true) t.items t.memory).kept
    apply h'.covered_goOn hf
    intro p
    apply covered_reset (n := 0) hcovered
    rw [seeks, hnext]
    cases p with
    | mutex m' =>
      by_cases hm : m' = m
      · simp [hm, free, Program.wants, hlocked]
      · simp [hm, Ne.symm hm, free, Program.wants]
    | _ => simp [free, Program.wants]

theorem covered_unlock (h : t.Kept place) (hcovered : t.Covered capacity) (hf : t.control = .fiber 0 f) {m : ℕ}
    {next : Program T} (hnext : t.rest f = .unlock m next) : (t.unlock f m next).Covered capacity := by
  obtain ⟨place', h'⟩ := (h.reset (Function.update t.locked m false) t.items t.memory).kept
  apply h'.covered_finishCall hf rfl
  intro p
  apply covered_reset hcovered
  rw [seeks, hnext]
  cases p with
  | mutex m' =>
    by_cases hm : m' = m
    · simp [hm, free, Program.wants]
    · simp [hm, free, Program.wants]
  | _ => simp [free, Program.wants]

theorem covered_send (h : t.Kept place) (hcovered : t.Covered capacity) (hf : t.control = .fiber 0 f) {c : ℕ}
    {value : T} {next : Program T} (hnext : t.rest f = .send c value next) :
    (t.send capacity f c value next).Covered capacity := by
  unfold Thread.send
  split_ifs with hfull
  · exact h.covered_suspendAt hcovered hf (by rw [hnext]; rfl) (Nat.sub_eq_zero_of_le hfull)
  · obtain ⟨place', h'⟩ := (h.reset t.locked (Function.update t.items c (t.items c ++ [value])) t.memory).kept
    apply h'.covered_finishCall hf rfl
    intro p
    apply covered_reset hcovered
    rw [seeks, hnext]
    cases p with
    | sender c' =>
      by_cases hc : c' = c
      · simp [hc, free, Program.wants]
        omega
      · simp [hc, Ne.symm hc, free, Program.wants]
    | receiver c' =>
      by_cases hc : c' = c
      · simp [hc, free, Program.wants]
      · simp [hc, free, Program.wants]
    | _ => simp [free, Program.wants]

theorem covered_receive (h : t.Kept place) (hcovered : t.Covered capacity) (hf : t.control = .fiber 0 f) {c : ℕ}
    {next : T → Program T} (hnext : t.rest f = .receive c next) : (t.receive f c next).Covered capacity := by
  unfold Thread.receive
  cases hitems : t.items c with
  | nil =>
    refine h.covered_suspendAt hcovered hf (by rw [hnext]; rfl) ?_
    rw [free, hitems]
    rfl
  | cons value items =>
    obtain ⟨place', h'⟩ := (h.reset t.locked (Function.update t.items c items) t.memory).kept
    apply h'.covered_finishCall hf rfl
    intro p
    apply covered_reset hcovered
    rw [seeks, hnext]
    cases p with
    | sender c' =>
      by_cases hc : c' = c
      · simp [hc, free, Program.wants, hitems]
        omega
      · simp [hc, free, Program.wants]
    | receiver c' =>
      by_cases hc : c' = c
      · simp [hc, free, Program.wants, hitems]
      · simp [hc, Ne.symm hc, free, Program.wants]
    | _ => simp [free, Program.wants]

theorem covered_pass (h : t.Kept place) (hcovered : t.Covered capacity) (hf : t.control = .fiber 0 f)
    (hwants : (t.rest f).wants = none) (next : Program T) : (t.goOn f next []).Covered capacity := by
  apply h.covered_goOn hf
  intro p
  rw [seeks, hwants]
  exact hcovered p

theorem covered_perform (h : t.Kept place) (hcovered : t.Covered capacity) (hf : t.control = .fiber 0 f) :
    (t.perform capacity f).Covered capacity := by
  unfold Thread.perform
  cases hnext : t.rest f with
  | finish => exact h.covered_finish hcovered hf hnext
  | yield next =>
    obtain ⟨place', h'⟩ := (h.goOn hf next []).kept
    exact h'.covered_yield (h.covered_pass hcovered hf (by rw [hnext]; rfl) next) hf
  | lock m next => exact h.covered_lock hcovered hf hnext
  | unlock m next => exact h.covered_unlock hcovered hf hnext
  | send c value next => exact h.covered_send hcovered hf hnext
  | receive c next => exact h.covered_receive hcovered hf hnext
  | load x next => exact h.covered_pass hcovered hf (by rw [hnext]; rfl) _
  | store x value next =>
    obtain ⟨place', h'⟩ := (h.reset t.locked t.items (Function.update t.memory x value)).kept
    have hcovered' : ({ t with memory := Function.update t.memory x value } : Thread T).Covered capacity := by
      intro p
      cases p <;> exact hcovered _
    exact h'.covered_pass hcovered' hf (congrArg Program.wants hnext) next

theorem covered_call (h : t.Kept place) (hcovered : t.Covered capacity) (call : Call T) :
    (t.step capacity call.op).Covered capacity := by
  obtain hsame | ⟨body, -, -, heq⟩ | ⟨hmain, heq⟩ | ⟨hloop, heq⟩ | ⟨f, hf, heq⟩ := h.call_cases capacity call
  · rw [hsame]
    exact hcovered
  · rw [heq]
    exact h.covered_spawn hcovered body
  · rw [heq]
    intro p
    refine (hcovered p).imp_right fun hle => ?_
    rw [seekers, active, hmain] at hle
    exact hle
  · rw [heq]
    exact h.covered_dispatch hcovered hloop
  · rw [heq]
    exact h.covered_perform hcovered hf

end Kept

theorem covered_run (capacity : ℕ → ℕ) (memory : ℕ → T) (calls : List (Call T)) :
    (runOne capacity memory calls).Covered capacity := by
  induction calls using List.reverseRecOn with
  | nil => exact fun _ => Or.inl rfl
  | append_singleton calls call ih =>
    obtain ⟨place, h⟩ := kept_run capacity memory calls
    rw [runOne_snoc]
    exact h.covered_call ih call

theorem no_waiter_left_behind (capacity : ℕ → ℕ) (memory : ℕ → T) (calls : List (Call T))
    (hloop : (runOne capacity memory calls).control = .loop 0)
    (hreturns : (runOne capacity memory (calls ++ [.advance])).control = .main) :
    let t := runOne capacity memory (calls ++ [.advance])
    (∀ m, t.queues (.mutex m) ≠ [] → t.locked m = true) ∧ (∀ c, t.queues (.receiver c) ≠ [] → t.items c = []) ∧
      ∀ c, t.queues (.sender c) ≠ [] → capacity c ≤ (t.items c).length := by
  have hcovered := covered_run capacity memory (calls ++ [Call.advance])
  have hready : (runOne capacity memory (calls ++ [Call.advance])).queues (.ready 0) = [] := by
    obtain ⟨place, h⟩ := kept_run capacity memory calls
    rw [runOne_snoc] at hreturns ⊢
    simp only [Call.op, step, advance, hloop] at hreturns ⊢
    cases hqueue : (runOne capacity memory calls).queues (.ready 0) with
    | nil =>
      simp only [dispatch, hqueue]
    | cons f fibers =>
      rw [h.dispatch_eq hqueue] at hreturns
      cases hreturns
  intro t
  have hfree : ∀ p, t.queues p ≠ [] → t.free capacity p = 0 := by
    intro p hp
    have hle := (hcovered p).resolve_left hp
    rw [seekers, active, hreturns, hready] at hle
    exact Nat.le_zero.mp hle
  refine ⟨fun m hm => ?_, fun c hc => List.length_eq_zero_iff.mp (hfree _ hc), fun c hc => ?_⟩
  · have hzero := hfree _ hm
    rw [free] at hzero
    by_contra hlocked
    rw [if_neg hlocked] at hzero
    cases hzero
  · exact Nat.sub_eq_zero_iff_le.mp (hfree _ hc)

def unanswered : List (Call ℕ) :=
  [.spawn (.lock 0 (.yield (.unlock 0 .finish))), .spawn (.lock 0 (.send 0 7 (.unlock 0 .finish))),
    .spawn (.receive 0 fun _ => .receive 0 fun _ => .finish), .run] ++ List.replicate 18 .advance

theorem no_waiter_left_behind_of_unanswered :
    let t := runOne (fun _ => 1) (fun _ => 0) (unanswered ++ [.advance])
    t.queues (.receiver 0) = [2] ∧ t.items 0 = [] := by
  refine ⟨by decide, ?_⟩
  apply (no_waiter_left_behind (fun _ => 1) (fun _ => 0) unanswered ?_ ?_).2.1
  · decide
  · decide
  · decide

end SystemLevel.Fibers.Thread
