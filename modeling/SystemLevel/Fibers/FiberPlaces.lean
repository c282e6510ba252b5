import SystemLevel.Foundations.Placement
import SystemLevel.Fibers.FiberScheduler

namespace SystemLevel.Fibers

open Runs Placement

variable {T : Type}

def Place.state : Place → FiberState
  | .ready _ => .ready
  | _ => .suspended

theorem Place.state_ne_dead (p : Place) : p.state ≠ .dead := by
  cases p <;> nofun

def Program.wants : Program T → Option Place
  | .lock m _ => some (.mutex m)
  | .send c _ _ => some (.sender c)
  | .receive c _ => some (.receiver c)
  | _ => none

def Control.On (s : ℕ) : Control → Prop
  | .main => True
  | .loop s' => s' = s
  | .fiber s' _ => s' = s
  | .lost => False

namespace Thread

def Settles (t : Thread T) (f : ℕ) : Option Place → Prop
  | some p => t.control ≠ .fiber 0 f ∧ t.state f = p.state ∧
      (p.state = .suspended → (t.rest f).wants = some p) ∧ ∀ s, p = .ready s → s = 0
  | none => t.control = .fiber 0 f ∧ t.state f = .running ∨ t.control ≠ .fiber 0 f ∧ t.state f = .dead

theorem resume_frame (t : Thread T) (s f : ℕ) : ∃ queues state, t.resume s f = { t with queues, state } := by
  by_cases hdead : t.state f ≠ .dead
  · rw [resume, if_pos hdead]
    exact ⟨_, _, rfl⟩
  · rw [resume, if_neg hdead]
    exact ⟨_, _, rfl⟩

theorem wakeFirst_frame (t : Thread T) (p : Place) : ∃ queues state, t.wakeFirst p = { t with queues, state } := by
  unfold wakeFirst
  cases t.queues p with
  | nil => exact ⟨_, _, rfl⟩
  | cons f fibers =>
    cases hcurrent : (t.setQueue p fibers).current with
    | none =>
      simp only [hcurrent]
      exact ⟨_, _, rfl⟩
    | some s =>
      simp only [hcurrent]
      exact (t.setQueue p fibers).resume_frame s f

theorem wakeFirst_control (t : Thread T) (p : Place) : (t.wakeFirst p).control = t.control := by
  obtain ⟨queues, state, heq⟩ := t.wakeFirst_frame p
  rw [heq]

structure Kept (t : Thread T) (place : ℕ → Option Place) : Prop where
  current : t.current = some 0
  control : t.control.On 0
  placed : Placed t.queues place
  born : ∀ f p, place f = some p → f < t.spawned
  runs : ∀ f, t.control = .fiber 0 f → f < t.spawned
  settled : ∀ f < t.spawned, t.Settles f (place f)

structure Follows (t t' : Thread T) : Prop where
  kept : ∃ place, t'.Kept place
  dead : ∀ f < t.spawned, t.state f = .dead → f < t'.spawned ∧ t'.state f = .dead

theorem Follows.trans {t t' t'' : Thread T} (h : t.Follows t') (h' : t'.Follows t'') : t.Follows t'' := by
  refine ⟨h'.kept, fun f hf hdead => ?_⟩
  obtain ⟨hf', hdead'⟩ := h.dead f hf hdead
  exact h'.dead f hf' hdead'

namespace Kept

variable {t t' : Thread T} {place : ℕ → Option Place} {f : ℕ}

theorem spawned_iff (hf : f < t.spawned) (g : ℕ) : g < t.spawned ↔ g = f ∨ g < t.spawned := by
  constructor
  · exact Or.inr
  · rintro (rfl | hg)
    · exact hf
    · exact hg

theorem move {dest : Option Place} (h : t.Kept place) (hlive : f < t.spawned → t.state f ≠ .dead)
    (hcurrent : t'.current = t.current) (hcontrol : t'.control.On 0)
    (hplaced : Placed t'.queues (Function.update place f dest)) (hspawned : ∀ g, g < t'.spawned ↔ g = f ∨ g < t.spawned)
    (hstate : ∀ g, g ≠ f → t'.state g = t.state g) (hrest : ∀ g, g ≠ f → t'.rest g = t.rest g)
    (hothers : ∀ g, g ≠ f → (t'.control = .fiber 0 g ↔ t.control = .fiber 0 g)) (hself : t'.Settles f dest) :
    t.Follows t' := by
  refine ⟨⟨Function.update place f dest, ?_⟩, fun g hg hdead => ?_⟩
  · refine ⟨hcurrent.trans h.current, hcontrol, hplaced, fun g p hg => ?_, fun g hg => ?_, fun g hg => ?_⟩
    · rw [hspawned]
      by_cases he : g = f
      · exact Or.inl he
      · rw [Function.update_of_ne he] at hg
        exact Or.inr (h.born g p hg)
    · rw [hspawned]
      by_cases he : g = f
      · exact Or.inl he
      · exact Or.inr (h.runs g ((hothers g he).mp hg))
    · by_cases he : g = f
      · rw [he, Function.update_self]
        exact hself
      · have hold := h.settled g (((hspawned g).mp hg).resolve_left he)
        rw [Function.update_of_ne he]
        cases hp : place g with
        | none =>
          rw [hp] at hold
          simpa only [Settles, hothers g he, hstate g he, ne_eq] using hold
        | some p =>
          rw [hp] at hold
          simpa only [Settles, hothers g he, hstate g he, hrest g he, ne_eq] using hold
  · have he : g ≠ f := by
      rintro rfl
      exact hlive hg hdead
    exact ⟨(hspawned g).mpr (Or.inr hg), (hstate g he).trans hdead⟩

theorem stay (h : t.Kept place) (hcurrent : t'.current = t.current) (hcontrol : t'.control.On 0)
    (hqueues : t'.queues = t.queues) (hspawned : t'.spawned = t.spawned) (hstate : t'.state = t.state)
    (hsame : ∀ f, t'.control = .fiber 0 f ↔ t.control = .fiber 0 f)
    (hrest : ∀ g p, place g = some p → t'.rest g = t.rest g) : t.Follows t' := by
  refine ⟨⟨place, ?_⟩, fun g hg hdead => ?_⟩
  · refine ⟨hcurrent.trans h.current, hcontrol, hqueues ▸ h.placed, fun g p hg => hspawned ▸ h.born g p hg,
      fun g hg => ?_,
      fun g hg => ?_⟩
    · rw [hspawned]
      exact h.runs g ((hsame g).mp hg)
    · have hold := h.settled g (hspawned ▸ hg)
      cases hp : place g with
      | none =>
        rw [hp] at hold
        simpa only [Settles, hsame, hstate, ne_eq] using hold
      | some p =>
        rw [hp] at hold
        simpa only [Settles, hsame, hstate, hrest g p hp, ne_eq] using hold
  · rw [hspawned, hstate]
    exact ⟨hg, hdead⟩

section Running

variable (h : t.Kept place) (hf : t.control = .fiber 0 f)

include h hf

theorem running : place f = none ∧ t.state f = .running := by
  have hsettled := h.settled f (h.runs f hf)
  cases hp : place f with
  | none =>
    rw [hp] at hsettled
    exact ⟨rfl, (hsettled.resolve_right fun hdead => hdead.1 hf).2⟩
  | some p =>
    rw [hp] at hsettled
    exact absurd hf hsettled.1

theorem live : f < t.spawned → t.state f ≠ .dead := by
  intro _ hdead
  exact absurd ((h.running hf).2.symm.trans hdead) (by decide)

omit h in
theorem others (g : ℕ) (hg : g ≠ f) : Control.loop 0 = .fiber 0 g ↔ t.control = .fiber 0 g := by
  rw [hf]
  simp [hg.symm]

theorem goOn (next : Program T) (events : List (Event T)) : t.Follows (t.goOn f next events) := by
  refine h.stay rfl h.control rfl rfl rfl (fun _ => Iff.rfl) fun g p hg => ?_
  have hne : g ≠ f := by
    rintro rfl
    exact absurd (hg.symm.trans (h.running hf).1) (Option.some_ne_none p)
  exact Function.update_of_ne hne _ _

theorem yield : t.Follows t.yield := by
  have hplaced := h.placed.push (h.running hf).1 (.ready 0)
  rw [yield_eq h.current hf (h.running hf).2]
  refine h.move (h.live hf) rfl rfl hplaced (spawned_iff (h.runs f hf)) (fun g hg => ?_) (fun _ _ => rfl) (others hf) ?_
  · exact Function.update_of_ne hg _ _
  · refine ⟨nofun, Function.update_self _ _ _, nofun, fun s hs => ?_⟩
    exact (Place.ready.inj hs).symm

theorem suspendAt {p : Place} (hwants : (t.rest f).wants = some p) : t.Follows (t.suspendAt p f) := by
  have hsuspended : p.state = .suspended ∧ ∀ s, p ≠ .ready s := by
    cases hnext : t.rest f <;> rw [hnext] at hwants <;> cases hwants <;> exact ⟨rfl, nofun⟩
  have hplaced := h.placed.push (h.running hf).1 p
  rw [suspendAt_eq h.current hf]
  refine h.move (h.live hf) rfl rfl hplaced (spawned_iff (h.runs f hf)) (fun g hg => ?_) (fun _ _ => rfl) (others hf) ?_
  · exact Function.update_of_ne hg _ _
  · refine ⟨nofun, ?_, fun _ => hwants, fun s hs => absurd hs (hsuspended.2 s)⟩
    exact (Function.update_self _ _ _).trans hsuspended.1.symm

theorem finish : t.Follows (t.finish f) := by
  have hplaced : Placed t.queues (Function.update place f none) := by
    rw [← (h.running hf).1, Function.update_eq_self]
    exact h.placed
  rw [finish_eq h.current hf]
  refine h.move (h.live hf) rfl rfl hplaced (spawned_iff (h.runs f hf)) (fun g hg => ?_) (fun _ _ => rfl) (others hf) ?_
  · exact Function.update_of_ne hg _ _
  · exact Or.inr ⟨nofun, Function.update_self _ _ _⟩

end Running

theorem waiting (h : t.Kept place) {p : Place} (hp : place f = some p) :
    f < t.spawned ∧ t.control ≠ .fiber 0 f ∧ t.state f = p.state ∧
      (p.state = .suspended → (t.rest f).wants = some p) ∧ ∀ s, p = .ready s → s = 0 := by
  have hsettled := h.settled f (h.born f p hp)
  rw [hp] at hsettled
  exact ⟨h.born f p hp, hsettled⟩

theorem wakeFirst_eq (h : t.Kept place) {p : Place} {fibers : List ℕ} (hp : t.queues p = f :: fibers) :
    t.wakeFirst p = ((t.setQueue p fibers).setState f .ready).pushBack (.ready 0) f := by
  have hplace : place f = some p := h.placed.mem_iff.mp (hp ▸ List.mem_cons_self)
  have hlive : t.state f ≠ .dead := by
    rw [(h.waiting hplace).2.2.1]
    exact p.state_ne_dead
  have hstate : (t.setQueue p fibers).state f ≠ .dead := hlive
  have hcurrent : (t.setQueue p fibers).current = some 0 := h.current
  simp only [Thread.wakeFirst, hp, hcurrent, resume, if_pos hstate]

theorem wakeFirst (h : t.Kept place) (p : Place) : t.Follows (t.wakeFirst p) := by
  cases hp : t.queues p with
  | nil =>
    simp only [Thread.wakeFirst, hp]
    exact ⟨⟨place, h⟩, fun g hg hdead => ⟨hg, hdead⟩⟩
  | cons g fibers =>
    have hplace : place g = some p := h.placed.mem_iff.mp (hp ▸ List.mem_cons_self)
    obtain ⟨hborn, hcontrol, hstate, -, -⟩ := h.waiting hplace
    have hplaced := (h.placed.pop hp).push (Function.update_self _ _ _) (.ready 0)
    rw [Function.update_idem] at hplaced
    rw [h.wakeFirst_eq hp]
    refine h.move (fun _ hdead => ?_) rfl h.control hplaced (spawned_iff hborn) (fun f hf => ?_) (fun _ _ => rfl)
      (fun _ _ => Iff.rfl) ?_
    · exact p.state_ne_dead (hstate.symm.trans hdead)
    · exact Function.update_of_ne hf _ _
    · refine ⟨hcontrol, Function.update_self _ _ _, nofun, fun s hs => ?_⟩
      exact (Place.ready.inj hs).symm

theorem dispatch_eq (h : t.Kept place) {fibers : List ℕ} (hp : t.queues (.ready 0) = f :: fibers) :
    t.dispatch 0 = { (t.setQueue (.ready 0) fibers).setState f .running with control := .fiber 0 f } := by
  have hplace : place f = some (.ready 0) := h.placed.mem_iff.mp (hp ▸ List.mem_cons_self)
  have hstate : (t.setQueue (.ready 0) fibers).state f ≠ .dead := by
    change t.state f ≠ .dead
    rw [(h.waiting hplace).2.2.1]
    exact Place.state_ne_dead _
  simp only [Thread.dispatch, hp, if_neg hstate]

theorem dispatch (h : t.Kept place) (hcontrol : t.control = .loop 0) : t.Follows (t.dispatch 0) := by
  cases hp : t.queues (.ready 0) with
  | nil =>
    simp only [Thread.dispatch, hp]
    refine h.stay rfl trivial rfl rfl rfl (fun g => ?_) fun _ _ _ => rfl
    rw [hcontrol]
    simp
  | cons f fibers =>
    have hplace : place f = some (.ready 0) := h.placed.mem_iff.mp (hp ▸ List.mem_cons_self)
    obtain ⟨hborn, -, hstate, -, -⟩ := h.waiting hplace
    have hplaced := h.placed.pop hp
    rw [h.dispatch_eq hp]
    refine h.move (fun _ hdead => ?_) rfl rfl hplaced (spawned_iff hborn) (fun g hg => ?_) (fun _ _ => rfl)
      (fun g hg => ?_) ?_
    · exact Place.state_ne_dead _ (hstate.symm.trans hdead)
    · exact Function.update_of_ne hg _ _
    · rw [hcontrol]
      simp [hg.symm]
    · exact Or.inl ⟨rfl, Function.update_self _ _ _⟩

theorem spawn (h : t.Kept place) (hcontrol : t.control = .main) (body : Program T) : t.Follows (t.spawn 0 body) := by
  have hunborn : place t.spawned = none := by
    cases hp : place t.spawned with
    | none => rfl
    | some p => exact absurd (h.born _ _ hp) (lt_irrefl _)
  refine h.move (fun hlt => absurd hlt (lt_irrefl t.spawned)) rfl h.control (h.placed.push hunborn (.ready 0))
    (fun g => ?_)
    (fun g hg => ?_) (fun g hg => ?_) (fun g hg => Iff.rfl) ?_
  · exact Nat.lt_succ_iff_lt_or_eq.trans or_comm
  · exact Function.update_of_ne hg _ _
  · exact Function.update_of_ne hg _ _
  · refine ⟨?_, Function.update_self _ _ _, nofun, fun s hs => (Place.ready.inj hs).symm⟩
    change t.control ≠ _
    rw [hcontrol]
    nofun

theorem reset (h : t.Kept place) (locked : ℕ → Bool) (items : ℕ → List T) (memory : ℕ → T) :
    t.Follows { t with locked, items, memory } :=
  h.stay rfl h.control rfl rfl rfl (fun _ => Iff.rfl) fun _ _ _ => rfl

theorem finishCall (h : t.Kept place) (hf : t.control = .fiber 0 f) (p : Place) (next : Program T)
    (events : List (Event T)) : t.Follows ((t.wakeFirst p).goOn f next events) := by
  have hwake := h.wakeFirst p
  obtain ⟨place', h'⟩ := hwake.kept
  exact hwake.trans (h'.goOn (by rw [wakeFirst_control]; exact hf) next events)

theorem perform (capacity : ℕ → ℕ) (h : t.Kept place) (hf : t.control = .fiber 0 f) :
    t.Follows (t.perform capacity f) := by
  unfold Thread.perform
  cases hnext : t.rest f with
  | finish => exact h.finish hf
  | yield next =>
    have hgo := h.goOn hf next []
    obtain ⟨place', h'⟩ := hgo.kept
    exact hgo.trans (h'.yield hf)
  | lock m next =>
    simp only [Thread.lock]
    split_ifs with hlocked
    · exact h.suspendAt hf (by rw [hnext]; rfl)
    · have hset := h.reset (Function.update t.locked m true) t.items t.memory
      obtain ⟨place', h'⟩ := hset.kept
      exact hset.trans (h'.goOn hf next _)
  | unlock m next =>
    have hset := h.reset (Function.update t.locked m false) t.items t.memory
    obtain ⟨place', h'⟩ := hset.kept
    exact hset.trans (h'.finishCall hf _ next _)
  | send c value next =>
    simp only [Thread.send]
    split_ifs with hfull
    · exact h.suspendAt hf (by rw [hnext]; rfl)
    · have hset := h.reset t.locked (Function.update t.items c (t.items c ++ [value])) t.memory
      obtain ⟨place', h'⟩ := hset.kept
      exact hset.trans (h'.finishCall hf _ next _)
  | receive c next =>
    simp only [Thread.receive]
    cases hitems : t.items c with
    | nil => exact h.suspendAt hf (by rw [hnext]; rfl)
    | cons value items =>
      have hset := h.reset t.locked (Function.update t.items c items) t.memory
      obtain ⟨place', h'⟩ := hset.kept
      exact hset.trans (h'.finishCall hf _ (next value) _)
  | load x next => exact h.goOn hf _ _
  | store x value next =>
    have hset := h.reset t.locked t.items (Function.update t.memory x value)
    obtain ⟨place', h'⟩ := hset.kept
    exact hset.trans (h'.goOn hf next _)

theorem call_cases (capacity : ℕ → ℕ) (h : t.Kept place) (call : Call T) :
    t.step capacity call.op = t ∨
      (∃ body, call = .spawn body ∧ t.control = .main ∧ t.step capacity call.op = t.spawn 0 body) ∨
      (t.control = .main ∧ t.step capacity call.op = { t with control := .loop 0 }) ∨
      (t.control = .loop 0 ∧ t.step capacity call.op = t.dispatch 0) ∨
      ∃ f, t.control = .fiber 0 f ∧ t.step capacity call.op = t.perform capacity f := by
  cases call with
  | spawn body =>
    rw [Call.op, Thread.step]
    split_ifs with hmain
    · exact Or.inr (Or.inl ⟨body, rfl, hmain.1, rfl⟩)
    · exact Or.inl rfl
  | run =>
    rw [Call.op, Thread.step]
    split_ifs with hmain
    · exact Or.inr (Or.inr (Or.inl ⟨hmain.1, rfl⟩))
    · exact Or.inl rfl
  | advance =>
    rw [Call.op, Thread.step, Thread.advance]
    have hon := h.control
    cases hcontrol : t.control with
    | main => exact Or.inl rfl
    | loop s =>
      rw [hcontrol] at hon
      obtain rfl : s = 0 := hon
      exact Or.inr (Or.inr (Or.inr (Or.inl ⟨rfl, rfl⟩)))
    | fiber s f =>
      rw [hcontrol] at hon
      obtain rfl : s = 0 := hon
      exact Or.inr (Or.inr (Or.inr (Or.inr ⟨f, rfl, rfl⟩)))
    | lost => exact Or.inl rfl

theorem call (capacity : ℕ → ℕ) (h : t.Kept place) (call : Call T) : t.Follows (t.step capacity call.op) := by
  obtain hsame | ⟨body, -, hmain, heq⟩ | ⟨hmain, heq⟩ | ⟨hloop, heq⟩ | ⟨f, hf, heq⟩ := h.call_cases capacity call
  · rw [hsame]
    exact ⟨⟨place, h⟩, fun g hg hdead => ⟨hg, hdead⟩⟩
  · rw [heq]
    exact h.spawn hmain body
  · rw [heq]
    refine h.stay rfl rfl rfl rfl rfl (fun g => ?_) fun _ _ _ => rfl
    rw [hmain]
    simp
  · rw [heq]
    exact h.dispatch hloop
  · rw [heq]
    exact h.perform capacity hf

end Kept

section Runs

variable (capacity : ℕ → ℕ) (memory : ℕ → T)

theorem runOne_snoc (calls : List (Call T)) (call : Call T) :
    runOne capacity memory (calls ++ [call]) = (runOne capacity memory calls).step capacity call.op := by
  rw [runOne, List.map_append, ← List.cons_append]
  exact run_snoc _ _ _ _

theorem kept_run (calls : List (Call T)) : ∃ place, (runOne capacity memory calls).Kept place := by
  induction calls using List.reverseRecOn with
  | nil =>
    refine ⟨fun _ => none, ?_⟩
    exact
      { current := rfl
        control := trivial
        placed := fun _ _ => rfl
        born := nofun
        runs := nofun
        settled := fun f hf => absurd hf (Nat.not_lt_zero f) }
  | append_singleton calls call ih =>
    obtain ⟨place, h⟩ := ih
    rw [runOne_snoc]
    exact (h.call capacity call).kept

theorem dead_run (calls later : List (Call T)) {f : ℕ} (hf : f < (runOne capacity memory calls).spawned)
    (hdead : (runOne capacity memory calls).state f = .dead) :
    f < (runOne capacity memory (calls ++ later)).spawned ∧
      (runOne capacity memory (calls ++ later)).state f = .dead := by
  induction later using List.reverseRecOn with
  | nil =>
    rw [List.append_nil]
    exact ⟨hf, hdead⟩
  | append_singleton later call ih =>
    obtain ⟨place, h⟩ := kept_run capacity memory (calls ++ later)
    rw [← List.append_assoc, runOne_snoc]
    exact (h.call capacity call).dead f ih.1 ih.2

theorem each_fiber_in_one_place (calls : List (Call T)) :
    let t := runOne capacity memory calls
    (∀ f < t.spawned, t.state f ≠ .dead → (∀ s, t.control ≠ .fiber s f) →
      ∃ p, (t.queues p).count f = 1 ∧ (∀ p', p' ≠ p → f ∉ t.queues p') ∧ t.state f = p.state ∧
        ∀ s, p = .ready s → s = 0) ∧
      (∀ s f, t.control = .fiber s f → t.state f = .running ∧ ∀ p, f ∉ t.queues p) ∧
      ∀ f < t.spawned, t.state f = .dead → ∀ later s,
        (runOne capacity memory (calls ++ later)).control ≠ .fiber s f := by
  obtain ⟨place, h⟩ := kept_run capacity memory calls
  intro t
  have hrunning : ∀ calls s f, (runOne capacity memory calls).control = .fiber s f →
      (runOne capacity memory calls).state f = .running ∧ ∀ p, f ∉ (runOne capacity memory calls).queues p := by
    intro calls s f hf
    obtain ⟨place, h⟩ := kept_run capacity memory calls
    have hon := h.control
    rw [hf] at hon
    obtain rfl : s = 0 := hon
    obtain ⟨hplace, hstate⟩ := h.running hf
    refine ⟨hstate, fun p hp => ?_⟩
    exact absurd ((h.placed.mem_iff.mp hp).symm.trans hplace) (Option.some_ne_none p)
  refine ⟨fun f hf hlive hcontrol => ?_, hrunning calls, fun f hf hdead later s hcontrol => ?_⟩
  · cases hp : place f with
    | none =>
      have hsettled := h.settled f hf
      rw [hp] at hsettled
      rcases hsettled with hruns | hends
      · exact absurd hruns.1 (hcontrol 0)
      · exact absurd hends.2 hlive
    | some p =>
      obtain ⟨-, -, hstate, -, hready⟩ := h.waiting hp
      refine ⟨p, ?_, fun p' hne hmem => ?_, hstate, hready⟩
      · rw [h.placed p f, if_pos hp]
      · exact hne (Option.some.inj ((h.placed.mem_iff.mp hmem).symm.trans hp))
  · have hstate := (hrunning (calls ++ later) s f hcontrol).1
    exact absurd (hstate.symm.trans (dead_run capacity memory calls later hf hdead).2) (by decide)

end Runs

end Thread

end SystemLevel.Fibers
