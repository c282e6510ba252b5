import SystemLevel.Fibers.FiberWakeups

namespace SystemLevel.Fibers

open Relation

variable {T : Type}

inductive Program.Next : Program T → Program T → Prop
  | yield (next : Program T) : Next next (.yield next)
  | lock (m : ℕ) (next : Program T) : Next next (.lock m next)
  | unlock (m : ℕ) (next : Program T) : Next next (.unlock m next)
  | send (c : ℕ) (value : T) (next : Program T) : Next next (.send c value next)
  | receive (c : ℕ) (next : T → Program T) (value : T) : Next (next value) (.receive c next)
  | load (x : ℕ) (next : T → Program T) (value : T) : Next (next value) (.load x next)
  | store (x : ℕ) (value : T) (next : Program T) : Next next (.store x value next)

theorem Program.next_wellFounded : WellFounded (Program.Next (T := T)) := by
  apply WellFounded.intro
  intro program
  induction program with
  | finish => exact Acc.intro _ fun _ h => nomatch h
  | yield next ih => exact Acc.intro _ fun _ h => by cases h; exact ih
  | lock m next ih => exact Acc.intro _ fun _ h => by cases h; exact ih
  | unlock m next ih => exact Acc.intro _ fun _ h => by cases h; exact ih
  | send c value next ih => exact Acc.intro _ fun _ h => by cases h; exact ih
  | receive c next ih => exact Acc.intro _ fun _ h => by cases h; exact ih _
  | load x next ih => exact Acc.intro _ fun _ h => by cases h; exact ih _
  | store x value next ih => exact Acc.intro _ fun _ h => by cases h; exact ih

def Control.weight : Control → ℕ
  | .fiber _ _ => 2
  | .loop _ => 1
  | _ => 0

namespace Thread

def rests (t : Thread T) : Multiset (Program T) := (Multiset.range t.spawned).map t.rest

def turns (t : Thread T) : ℕ := 2 * (t.queues (.ready 0)).length + t.control.weight

def Ahead (t' t : Thread T) : Prop :=
  Prod.Lex (CutExpand Program.Next) (· < ·) (t'.rests, t'.turns) (t.rests, t.turns)

theorem ahead_wellFounded : WellFounded (Ahead (T := T)) :=
  InvImage.wf (fun t : Thread T => (t.rests, t.turns))
    (WellFounded.prod_lex Program.next_wellFounded.cutExpand Nat.lt_wfRel.wf)

variable {capacity : ℕ → ℕ} {t t' : Thread T} {place : ℕ → Option Place} {f : ℕ}

theorem rests_update {n : ℕ} (hf : f < n) (rest : ℕ → Program T) (next : Program T) :
    (Multiset.range n).map (Function.update rest f next) + {rest f} = (Multiset.range n).map rest + {next} := by
  have hcons := (Multiset.cons_erase (Multiset.mem_range.mpr hf)).symm
  have hothers : ((Multiset.range n).erase f).map (Function.update rest f next) =
      ((Multiset.range n).erase f).map rest := by
    apply Multiset.map_congr rfl
    intro g hg
    exact Function.update_of_ne ((Multiset.nodup_range n).mem_erase_iff.mp hg).1 _ _
  rw [hcons, Multiset.map_cons, Multiset.map_cons, Function.update_self, hothers, ← Multiset.singleton_add,
    ← Multiset.singleton_add]
  ac_rfl

structure Inside (t t' : Thread T) : Prop where
  ahead : t'.Ahead t
  alive : t'.alive = t.alive
  control : t'.control ≠ .main

theorem ahead_of_turns (hspawned : t'.spawned = t.spawned) (hrest : t'.rest = t.rest) (hturns : t'.turns < t.turns) :
    t'.Ahead t := by
  have hrests : t'.rests = t.rests := by rw [rests, hspawned, hrest, rests]
  rw [Ahead, hrests]
  exact Prod.Lex.right _ hturns

theorem Inside.of_next (hf : f < t.spawned) {next : Program T} (hnext : next.Next (t.rest f))
    (hspawned : t'.spawned = t.spawned) (hrest : t'.rest = Function.update t.rest f next) (halive : t'.alive = t.alive)
    (hcontrol : t'.control ≠ .main) : t.Inside t' := by
  refine ⟨?_, halive, hcontrol⟩
  apply Prod.Lex.left
  refine ⟨{next}, t.rest f, ?_, ?_⟩
  · intro program hmem
    rw [Multiset.mem_singleton.mp hmem]
    exact hnext
  · rw [rests, hspawned, hrest]
    exact rests_update hf t.rest next

namespace Kept

theorem inside_dispatch (h : t.Kept place) (hloop : t.control = .loop 0) {fibers : List ℕ}
    (hqueue : t.queues (.ready 0) = f :: fibers) : t.Inside (t.dispatch 0) := by
  rw [h.dispatch_eq hqueue]
  refine ⟨ahead_of_turns (by rfl) (by rfl) ?_, rfl, nofun⟩
  simp only [turns, hqueue, hloop, Control.weight, setState, setQueue, Function.update_self, List.length_cons]
  omega

section Running

variable (h : t.Kept place) (hf : t.control = .fiber 0 f)

include h hf

theorem inside_suspendAt {p : Place} (hwants : (t.rest f).wants = some p) : t.Inside (t.suspendAt p f) := by
  have hready : Place.ready 0 ≠ p := by
    rintro rfl
    cases hnext : t.rest f <;> rw [hnext] at hwants <;> cases hwants
  rw [suspendAt_eq h.current hf]
  refine ⟨ahead_of_turns (by rfl) (by rfl) ?_, rfl, nofun⟩
  simp [turns, hf, Control.weight, setState, pushBack, setQueue, hready]

theorem inside_finish : t.Inside (t.finish f) := by
  rw [finish_eq h.current hf]
  refine ⟨ahead_of_turns (by rfl) (by rfl) ?_, rfl, nofun⟩
  simp [turns, hf, Control.weight, setState]

theorem inside_yield {next : Program T} (hnext : next.Next (t.rest f)) : t.Inside (t.goOn f next []).yield := by
  obtain ⟨place', h'⟩ := (h.goOn hf next []).kept
  rw [yield_eq h'.current hf (h'.running hf).2]
  exact Inside.of_next (h.runs f hf) hnext (by rfl) (by rfl) (by rfl) nofun

theorem inside_goOn {next : Program T} (hnext : next.Next (t.rest f)) (locked : ℕ → Bool) (items : ℕ → List T)
    (memory : ℕ → T) (events : List (Event T)) : t.Inside ({ t with locked, items, memory }.goOn f next events) := by
  refine Inside.of_next (h.runs f hf) hnext (by rfl) (by rfl) (by rfl) ?_
  change t.control ≠ .main
  rw [hf]
  nofun

theorem inside_finishCall {next : Program T} (hnext : next.Next (t.rest f)) (locked : ℕ → Bool) (items : ℕ → List T)
    (p : Place) (events : List (Event T)) :
    t.Inside (({ t with locked, items }.wakeFirst p).goOn f next events) := by
  obtain ⟨queues, state, heq⟩ := wakeFirst_frame { t with locked, items } p
  rw [heq]
  refine Inside.of_next (h.runs f hf) hnext (by rfl) (by rfl) (by rfl) ?_
  change t.control ≠ .main
  rw [hf]
  nofun

theorem inside_perform (capacity : ℕ → ℕ) : t.Inside (t.perform capacity f) := by
  unfold Thread.perform
  cases hnext : t.rest f with
  | finish => exact h.inside_finish hf
  | yield next =>
    apply h.inside_yield hf
    rw [hnext]
    exact Program.Next.yield next
  | lock m next =>
    simp only [Thread.lock]
    split_ifs with hlocked
    · apply h.inside_suspendAt hf
      rw [hnext]
      rfl
    · apply h.inside_goOn hf
      rw [hnext]
      exact Program.Next.lock m next
  | unlock m next =>
    apply h.inside_finishCall hf
    rw [hnext]
    exact Program.Next.unlock m next
  | send c value next =>
    simp only [Thread.send]
    split_ifs with hfull
    · apply h.inside_suspendAt hf
      rw [hnext]
      rfl
    · apply h.inside_finishCall hf
      rw [hnext]
      exact Program.Next.send c value next
  | receive c next =>
    simp only [Thread.receive]
    cases hitems : t.items c with
    | nil =>
      apply h.inside_suspendAt hf
      rw [hnext]
      rfl
    | cons value items =>
      apply h.inside_finishCall hf
      rw [hnext]
      exact Program.Next.receive c next value
  | load x next =>
    apply h.inside_goOn hf
    rw [hnext]
    exact Program.Next.load x next _
  | store x value next =>
    apply h.inside_goOn hf
    rw [hnext]
    exact Program.Next.store x value next

end Running

theorem inside_or_returns (capacity : ℕ → ℕ) (h : t.Kept place) (hcontrol : t.control ≠ .main) :
    t.Inside (t.step capacity Op.advance) ∨
      t.queues (.ready 0) = [] ∧ t.step capacity Op.advance = { t with control := .main } := by
  have hon := h.control
  rw [Thread.step, Thread.advance]
  cases hc : t.control with
  | main => exact absurd hc hcontrol
  | loop s =>
    rw [hc] at hon
    obtain rfl : s = 0 := hon
    cases hqueue : t.queues (.ready 0) with
    | nil => exact Or.inr ⟨rfl, by simp only [Thread.dispatch, hqueue]⟩
    | cons f fibers => exact Or.inl (h.inside_dispatch hc hqueue)
  | fiber s f =>
    rw [hc] at hon
    obtain rfl : s = 0 := hon
    exact Or.inl (h.inside_perform hc capacity)
  | lost =>
    rw [hc] at hon
    exact absurd hon id

end Kept

theorem alive_run (capacity : ℕ → ℕ) (memory : ℕ → T) (calls : List (Call T)) :
    (runOne capacity memory calls).alive 0 = true := by
  induction calls using List.reverseRecOn with
  | nil => rfl
  | append_singleton calls call ih =>
    obtain ⟨place, h⟩ := kept_run capacity memory calls
    rw [runOne_snoc]
    cases call with
    | spawn body =>
      rw [Call.op, step]
      split_ifs
      · exact ih
      · exact ih
    | run =>
      rw [Call.op, step]
      split_ifs
      · exact ih
      · exact ih
    | advance =>
      by_cases hmain : (runOne capacity memory calls).control = .main
      · rw [Call.op, step, advance, hmain]
        exact ih
      · rcases h.inside_or_returns capacity hmain with hinside | ⟨-, hreturns⟩
        · exact (congrFun hinside.alive 0).trans ih
        · rw [Call.op, hreturns]
          exact ih

theorem run_inside (capacity : ℕ → ℕ) (memory : ℕ → T) (calls : List (Call T)) :
    (runOne capacity memory (calls ++ [.run])).control ≠ .main := by
  rw [runOne_snoc, Call.op, step]
  split_ifs with hmain
  · intro hcontrol
    cases hcontrol
  · intro hcontrol
    exact hmain ⟨hcontrol, alive_run capacity memory calls⟩

theorem returns_from (capacity : ℕ → ℕ) (memory : ℕ → T) (t : Thread T) :
    ∀ calls, runOne capacity memory calls = t → t.control ≠ .main →
      ∃ n, (runOne capacity memory (calls ++ List.replicate n .advance)).control = .main ∧
        (runOne capacity memory (calls ++ List.replicate n .advance)).queues (.ready 0) = [] := by
  apply ahead_wellFounded.induction t
  intro t ih calls hrun hcontrol
  obtain ⟨place, h⟩ := kept_run capacity memory calls
  rw [hrun] at h
  have hnext : runOne capacity memory (calls ++ [.advance]) = t.step capacity .advance := by
    rw [runOne_snoc, hrun]
    rfl
  rcases h.inside_or_returns capacity hcontrol with hinside | ⟨hready, hreturns⟩
  · obtain ⟨n, hn⟩ := ih _ hinside.ahead _ hnext hinside.control
    refine ⟨n + 1, ?_⟩
    rw [List.replicate_succ, ← List.singleton_append, ← List.append_assoc]
    exact hn
  · refine ⟨1, ?_⟩
    rw [List.replicate_one, hnext, hreturns]
    exact ⟨rfl, hready⟩

def Stuck (capacity : ℕ → ℕ) (t : Thread T) (f : ℕ) : Prop :=
  ∃ p, (t.rest f).wants = some p ∧ f ∈ t.queues p ∧ t.free capacity p = 0

theorem stuck_of_rest (capacity : ℕ → ℕ) (h : t.Kept place) (hcovered : t.Covered capacity)
    (hcontrol : t.control = .main) (hready : t.queues (.ready 0) = []) (hf : f < t.spawned) :
    t.state f = .dead ∨ t.Stuck capacity f := by
  have hsettled := h.settled f hf
  cases hp : place f with
  | none =>
    rw [hp] at hsettled
    rcases hsettled with hrunning | hdead
    · rw [hcontrol] at hrunning
      exact absurd hrunning.1 nofun
    · exact Or.inl hdead.2
  | some p =>
    rw [hp] at hsettled
    obtain ⟨-, -, hwants, hzero⟩ := hsettled
    have hmem : f ∈ t.queues p := h.placed.mem_iff.mpr hp
    have hsuspended : p.state = .suspended := by
      cases p with
      | ready s =>
        rw [hzero s rfl, hready] at hmem
        cases hmem
      | _ => rfl
    refine Or.inr ⟨p, hwants hsuspended, hmem, ?_⟩
    have hle := (hcovered p).resolve_left (List.ne_nil_of_mem hmem)
    rw [seekers, active, hcontrol, hready] at hle
    exact Nat.le_zero.mp hle

theorem run_always_returns (capacity : ℕ → ℕ) (memory : ℕ → T) (calls : List (Call T)) :
    ∃ n, let t := runOne capacity memory (calls ++ .run :: List.replicate n .advance)
      t.control = .main ∧ ∀ f < t.spawned, t.state f = .dead ∨ t.Stuck capacity f := by
  obtain ⟨n, hcontrol, hready⟩ :=
    returns_from capacity memory _ (calls ++ [.run]) rfl (run_inside capacity memory calls)
  rw [List.append_assoc, List.singleton_append] at hcontrol hready
  refine ⟨n, hcontrol, fun f hf => ?_⟩
  obtain ⟨place, h⟩ := kept_run capacity memory (calls ++ .run :: List.replicate n .advance)
  exact stuck_of_rest capacity h (covered_run capacity memory _) hcontrol hready hf

def keptLocked : List (Call ℕ) := [.spawn (.lock 0 (.send 0 7 .finish)), .spawn (.lock 0 (.unlock 0 .finish))]

theorem run_always_returns_of_keptLocked :
    ∃ n, let t := runOne (fun _ => 1) (fun _ => 0) (keptLocked ++ .run :: List.replicate n .advance)
      t.control = .main ∧ ∀ f < t.spawned, t.state f = .dead ∨ t.Stuck (fun _ => 1) f :=
  run_always_returns (fun _ => 1) (fun _ => 0) keptLocked

end Thread

end SystemLevel.Fibers
