import SystemLevel.Fibers.FiberScheduler

namespace SystemLevel.Fibers

open Runs

variable {T : Type}

def Program.Yields : Program T → Prop
  | .finish => True
  | .yield next => next.Yields
  | _ => False

instance decidableYields : ∀ body : Program T, Decidable body.Yields
  | .finish => .isTrue trivial
  | .yield next => decidableYields next
  | .lock .. | .unlock .. | .send .. | .receive .. | .load .. | .store .. => .isFalse id

namespace Thread

/-- The bodies only yield, and `run` is called on the scheduler that is the current one of the thread. -/
def Guarded (capacity : ℕ → ℕ) (memory : ℕ → T) (past : List (Op T)) : Op T → Prop
  | .spawn _ body => body.Yields
  | .run s => (Thread.run capacity memory past).current = some s
  | _ => True

instance (capacity : ℕ → ℕ) (memory : ℕ → T) (past : List (Op T)) : ∀ op, Decidable (Guarded capacity memory past op)
  | .spawn _ body => inferInstanceAs (Decidable body.Yields)
  | .run s => inferInstanceAs (Decidable ((Thread.run capacity memory past).current = some s))
  | .construct | .destroy _ | .advance => .isTrue trivial

theorem setQueue_of_ne {t : Thread T} {s s' : ℕ} (hne : s' ≠ s) (fibers : List ℕ) :
    (t.setQueue (.ready s) fibers).queues (.ready s') = t.queues (.ready s') :=
  Function.update_of_ne (fun he => hne (Place.ready.inj he)) _ _

theorem mem_pushBack {t : Thread T} {s s' f g : ℕ} :
    g ∈ (t.pushBack (.ready s) f).queues (.ready s') ↔ g ∈ t.queues (.ready s') ∨ g = f ∧ s' = s := by
  by_cases he : s' = s
  · subst he
    have hself : (t.pushBack (.ready s') f).queues (.ready s') = t.queues (.ready s') ++ [f] :=
      Function.update_self _ _ _
    rw [hself]
    simp
  · rw [pushBack, setQueue_of_ne he]
    simp [he]

structure Homed (t : Thread T) : Prop where
  constructed : ∀ s, t.alive s = true → s < t.constructed
  spawned : ∀ f < t.spawned, t.home f < t.constructed
  queued : ∀ s, ∀ f ∈ t.queues (.ready s), f < t.spawned ∧ t.home f = s
  yields : ∀ f, (t.rest f).Yields
  looping : ∀ s, t.control = .loop s → t.current = some s ∧ t.alive s = true
  running : ∀ s f, t.control = .fiber s f →
    t.current = some s ∧ t.alive s = true ∧ f < t.spawned ∧ t.home f = s ∧ t.state f = .running
  waits : ∀ f < t.spawned, t.alive (t.home f) = true →
    t.state f = .dead ∨ f ∈ t.queues (.ready (t.home f)) ∨ t.control = .fiber (t.home f) f

namespace Homed

variable {capacity : ℕ → ℕ} {t : Thread T} {s f : ℕ}

theorem of_main (hmain : t.control = .main) (constructed : ∀ s, t.alive s = true → s < t.constructed)
    (spawned : ∀ f < t.spawned, t.home f < t.constructed)
    (queued : ∀ s, ∀ f ∈ t.queues (.ready s), f < t.spawned ∧ t.home f = s) (yields : ∀ f, (t.rest f).Yields)
    (waits : ∀ f < t.spawned, t.alive (t.home f) = true → t.state f = .dead ∨ f ∈ t.queues (.ready (t.home f))) :
    t.Homed where
  constructed := constructed
  spawned := spawned
  queued := queued
  yields := yields
  looping _ h := Control.noConfusion (hmain.symm.trans h)
  running _ _ h := Control.noConfusion (hmain.symm.trans h)
  waits f hf halive := (waits f hf halive).imp_right Or.inl

theorem waits_of_idle (h : t.Homed) (hidle : ∀ s f, t.control ≠ .fiber s f) (hf : f < t.spawned)
    (halive : t.alive (t.home f) = true) : t.state f = .dead ∨ f ∈ t.queues (.ready (t.home f)) :=
  (h.waits f hf halive).imp_right fun hw => hw.resolve_right (hidle _ f)

theorem waits_of_main (h : t.Homed) (hmain : t.control = .main) (hf : f < t.spawned)
    (halive : t.alive (t.home f) = true) : t.state f = .dead ∨ f ∈ t.queues (.ready (t.home f)) :=
  h.waits_of_idle (fun _ _ he => Control.noConfusion (hmain.symm.trans he)) hf halive

theorem waits_of_loop (h : t.Homed) (hs : t.control = .loop s) (hf : f < t.spawned)
    (halive : t.alive (t.home f) = true) : t.state f = .dead ∨ f ∈ t.queues (.ready (t.home f)) :=
  h.waits_of_idle (fun _ _ he => Control.noConfusion (hs.symm.trans he)) hf halive

theorem start (memory : ℕ → T) : ({ memory } : Thread T).Homed := by
  refine of_main rfl ?_ ?_ ?_ (fun _ => trivial) ?_
  · intro s h
    cases h
  · intro f h
    cases h
  · intro s f h
    cases h
  · intro f h
    cases h

theorem construct (h : t.Homed) (hmain : t.control = .main) : t.construct.Homed := by
  have halive : ∀ s, t.construct.alive s = true → s = t.constructed ∨ t.alive s = true := by
    intro s hs
    change Function.update t.alive t.constructed true s = true at hs
    rw [Function.update_apply] at hs
    split_ifs at hs with he
    · exact Or.inl he
    · exact Or.inr hs
  refine of_main hmain ?_ ?_ h.queued h.yields ?_
  · intro s hs
    apply Nat.lt_succ_of_le
    rcases halive s hs with rfl | hs
    · exact le_rfl
    · exact (h.constructed s hs).le
  · intro f hf
    exact (h.spawned f hf).trans (Nat.lt_succ_self _)
  · intro f hf hs
    exact h.waits_of_main hmain hf ((halive _ hs).resolve_left (h.spawned f hf).ne)

theorem destroy (h : t.Homed) (hmain : t.control = .main) : (t.destroy s).Homed := by
  have halive : ∀ s', (t.destroy s).alive s' = true → s' ≠ s ∧ t.alive s' = true := by
    intro s' hs
    change Function.update t.alive s false s' = true at hs
    rw [Function.update_apply] at hs
    split_ifs at hs with he
    exact ⟨he, hs⟩
  have hqueues : ∀ s', s' ≠ s → (t.destroy s).queues (.ready s') = t.queues (.ready s') :=
    fun s' hne => setQueue_of_ne hne []
  refine of_main hmain ?_ h.spawned ?_ h.yields ?_
  · intro s' hs
    exact h.constructed s' (halive s' hs).2
  · intro s' f hf
    by_cases he : s' = s
    · subst he
      have hnil : (t.destroy s').queues (.ready s') = [] := Function.update_self _ _ _
      rw [hnil] at hf
      cases hf
    · rw [hqueues s' he] at hf
      exact h.queued s' f hf
  · intro f hf hs
    obtain ⟨hne, hs⟩ := halive _ hs
    rw [hqueues _ hne]
    exact h.waits_of_main hmain hf hs

theorem spawn (h : t.Homed) (hmain : t.control = .main) (hs : t.alive s = true) {body : Program T}
    (hbody : body.Yields) : (t.spawn s body).Homed := by
  have hnew : (t.spawn s body).home t.spawned = s := Function.update_self _ _ _
  have hhome : ∀ f < t.spawned, (t.spawn s body).home f = t.home f := fun f hf => Function.update_of_ne hf.ne _ _
  have hmem : ∀ s' g, g ∈ (t.spawn s body).queues (.ready s') ↔ g ∈ t.queues (.ready s') ∨ g = t.spawned ∧ s' = s :=
    fun s' g => mem_pushBack
  refine of_main hmain h.constructed ?_ ?_ ?_ ?_
  · intro f hf
    rcases Nat.lt_succ_iff_lt_or_eq.mp hf with hf | rfl
    · rw [hhome f hf]
      exact h.spawned f hf
    · rw [hnew]
      exact h.constructed s hs
  · intro s' f hf
    rcases (hmem s' f).mp hf with hf | ⟨rfl, rfl⟩
    · obtain ⟨hlt, he⟩ := h.queued s' f hf
      exact ⟨hlt.trans (Nat.lt_succ_self _), (hhome f hlt).trans he⟩
    · exact ⟨Nat.lt_succ_self _, hnew⟩
  · intro f
    change (Function.update t.rest t.spawned body f).Yields
    rw [Function.update_apply]
    split_ifs
    · exact hbody
    · exact h.yields f
  · intro f hf halive
    rcases Nat.lt_succ_iff_lt_or_eq.mp hf with hf | rfl
    · rw [hhome f hf] at halive ⊢
      have hstate : (t.spawn s body).state f = t.state f := Function.update_of_ne hf.ne _ _
      rw [hstate, hmem]
      exact (h.waits_of_main hmain hf halive).imp_right Or.inl
    · rw [hnew, hmem]
      exact Or.inr (Or.inr ⟨rfl, rfl⟩)

theorem run (h : t.Homed) (hmain : t.control = .main) (hs : t.alive s = true) (hcurrent : t.current = some s) :
    ({ t with control := .loop s } : Thread T).Homed where
  constructed := h.constructed
  spawned := h.spawned
  queued := h.queued
  yields := h.yields
  looping s' he := by
    cases he
    exact ⟨hcurrent, hs⟩
  running s' f he := Control.noConfusion he
  waits f hf halive := (h.waits_of_main hmain hf halive).imp_right Or.inl

theorem returned (h : t.Homed) (hcontrol : t.control = .fiber s f) {t' : Thread T}
    (hspawned : t'.spawned = t.spawned) (hhome : t'.home = t.home) (hconstructed : t'.constructed = t.constructed)
    (halive : t'.alive = t.alive) (hcurrent : t'.current = t.current) (hloop : t'.control = .loop s)
    (hyields : ∀ g, (t'.rest g).Yields) (hstate : ∀ g, g ≠ f → t'.state g = t.state g)
    (hkept : ∀ s', ∀ g ∈ t.queues (.ready s'), g ∈ t'.queues (.ready s'))
    (hqueued : ∀ s', ∀ g ∈ t'.queues (.ready s'), g ∈ t.queues (.ready s') ∨ g = f ∧ s' = s)
    (hf : t'.state f = .dead ∨ f ∈ t'.queues (.ready s)) : t'.Homed := by
  obtain ⟨hs, hlive, hlt, hat, -⟩ := h.running s f hcontrol
  refine
    { constructed := ?_, spawned := ?_, queued := ?_, yields := hyields, looping := ?_, running := ?_, waits := ?_ }
  · rw [halive, hconstructed]
    exact h.constructed
  · rw [hspawned, hhome, hconstructed]
    exact h.spawned
  · intro s' g hg
    rw [hspawned, hhome]
    rcases hqueued s' g hg with hg | ⟨rfl, rfl⟩
    · exact h.queued s' g hg
    · exact ⟨hlt, hat⟩
  · intro s' he
    cases hloop.symm.trans he
    rw [hcurrent, halive]
    exact ⟨hs, hlive⟩
  · intro s' g he
    exact Control.noConfusion (hloop.symm.trans he)
  · intro g hg hlive'
    rw [hspawned] at hg
    rw [halive, hhome] at hlive'
    rw [hhome]
    by_cases he : g = f
    · subst he
      rw [hat]
      exact hf.imp_right Or.inl
    · rw [hstate g he]
      rcases h.waits g hg hlive' with hdead | hmem | hrun
      · exact Or.inl hdead
      · exact Or.inr (Or.inl (hkept _ g hmem))
      · cases hcontrol.symm.trans hrun
        exact absurd rfl he

theorem yield (h : t.Homed) (hf : t.control = .fiber s f) : t.yield.Homed := by
  obtain ⟨hcurrent, -, -, -, hstate⟩ := h.running s f hf
  have hmem : ∀ s' g, g ∈ t.yield.queues (.ready s') ↔ g ∈ t.queues (.ready s') ∨ g = f ∧ s' = s := by
    intro s' g
    rw [yield_eq hcurrent hf hstate]
    exact mem_pushBack
  refine h.returned hf ?_ ?_ ?_ ?_ ?_ ?_ ?_ ?_ (fun s' g hg => (hmem s' g).mpr (Or.inl hg)) (fun s' g => (hmem s' g).mp)
    (Or.inr ((hmem s f).mpr (Or.inr ⟨rfl, rfl⟩)))
  all_goals rw [yield_eq hcurrent hf hstate]
  case refine_7 => exact h.yields
  case refine_8 => exact fun g hg => Function.update_of_ne hg _ _
  all_goals rfl

theorem finish (h : t.Homed) (hf : t.control = .fiber s f) : (t.finish f).Homed := by
  rw [finish_eq (h.running s f hf).1 hf]
  refine h.returned hf rfl rfl rfl rfl rfl rfl h.yields (fun g hg => Function.update_of_ne hg _ _)
    (fun _ _ hg => hg) (fun _ _ hg => Or.inl hg) (Or.inl ?_)
  exact Function.update_self _ _ _

theorem goOn (h : t.Homed) {next : Program T} (hnext : next.Yields) : (t.goOn f next []).Homed where
  constructed := h.constructed
  spawned := h.spawned
  queued := h.queued
  yields g := by
    change (Function.update t.rest f next g).Yields
    rw [Function.update_apply]
    split_ifs
    · exact hnext
    · exact h.yields g
  looping := h.looping
  running := h.running
  waits := h.waits

theorem perform (h : t.Homed) (hf : t.control = .fiber s f) : (t.perform capacity f).Homed := by
  have hyields := h.yields f
  cases hnext : t.rest f with
  | finish =>
    rw [Thread.perform, hnext]
    exact h.finish hf
  | yield next =>
    rw [hnext] at hyields
    rw [Thread.perform, hnext]
    have hgone : (t.goOn f next []).Homed := h.goOn hyields
    exact hgone.yield hf
  | _ =>
    rw [hnext] at hyields
    exact hyields.elim

theorem queued_tail (h : t.Homed) {fibers : List ℕ} (hq : t.queues (.ready s) = f :: fibers) :
    ∀ s', ∀ g ∈ (t.setQueue (.ready s) fibers).queues (.ready s'), g < t.spawned ∧ t.home g = s' := by
  intro s' g hg
  refine h.queued s' g ?_
  by_cases he : s' = s
  · subst he
    have hself : (t.setQueue (.ready s') fibers).queues (.ready s') = fibers := Function.update_self _ _ _
    rw [hself] at hg
    rw [hq]
    exact List.mem_cons_of_mem f hg
  · rwa [setQueue_of_ne he] at hg

theorem waits_tail (h : t.Homed) (hs : t.control = .loop s) {fibers : List ℕ} (hq : t.queues (.ready s) = f :: fibers)
    {g : ℕ} (hg : g < t.spawned) (halive : t.alive (t.home g) = true) :
    g = f ∨ t.state g = .dead ∨ g ∈ (t.setQueue (.ready s) fibers).queues (.ready (t.home g)) := by
  rcases h.waits_of_loop hs hg halive with hdead | hmem
  · exact Or.inr (Or.inl hdead)
  · by_cases he : t.home g = s
    · have hself : (t.setQueue (.ready s) fibers).queues (.ready s) = fibers := Function.update_self _ _ _
      rw [he, hq, List.mem_cons] at hmem
      rw [he, hself]
      exact hmem.imp_right Or.inr
    · rw [setQueue_of_ne he]
      exact Or.inr (Or.inr hmem)

theorem dispatch (h : t.Homed) (hs : t.control = .loop s) : (t.dispatch s).Homed := by
  obtain ⟨hcurrent, hlive⟩ := h.looping s hs
  cases hq : t.queues (.ready s) with
  | nil =>
    rw [Thread.dispatch, hq]
    exact of_main rfl h.constructed h.spawned h.queued h.yields fun f => h.waits_of_loop hs
  | cons f fibers =>
    obtain ⟨hlt, hat⟩ := h.queued s f (hq ▸ List.mem_cons_self)
    rw [Thread.dispatch, hq]
    change (if t.state f = .dead then _ else _ : Thread T).Homed
    split_ifs with hdead
    · refine
        { constructed := h.constructed, spawned := h.spawned, queued := h.queued_tail hq, yields := h.yields,
          looping := h.looping, running := h.running, waits := fun g hg halive => ?_ }
      rcases h.waits_tail hs hq hg halive with rfl | hw
      · exact Or.inl hdead
      · exact hw.imp_right Or.inl
    · refine
        { constructed := h.constructed, spawned := h.spawned, queued := h.queued_tail hq, yields := h.yields,
          looping := fun s' he => Control.noConfusion he, running := fun s' g he => ?_, waits := fun g hg halive => ?_ }
      · cases he
        exact ⟨hcurrent, hlive, hlt, hat, Function.update_self _ _ _⟩
      · by_cases he : g = f
        · subst he
          change _ ∨ _ ∨ Control.fiber s g = .fiber (t.home g) g
          rw [hat]
          exact Or.inr (Or.inr rfl)
        · change Function.update t.state f .running g = .dead ∨ _
          rw [Function.update_of_ne he]
          exact ((h.waits_tail hs hq hg halive).resolve_left he).imp_right Or.inl

theorem perform_control (h : t.Homed) (hf : t.control = .fiber s f) : (t.perform capacity f).control = .loop s := by
  obtain ⟨hcurrent, -, -, -, hstate⟩ := h.running s f hf
  have hyields := h.yields f
  rw [Thread.perform]
  cases hnext : t.rest f with
  | finish =>
    change (t.finish f).control = _
    rw [finish_eq hcurrent hf]
  | yield next =>
    change (t.goOn f next []).yield.control = _
    rw [yield_eq (t := t.goOn f next []) hcurrent hf hstate]
  | _ =>
    rw [hnext] at hyields
    exact hyields.elim

theorem perform_queues (h : t.Homed) (hf : t.control = .fiber s f) {next : Program T} (hnext : t.rest f = .yield next) :
    (t.perform capacity f).queues (.ready s) = t.queues (.ready s) ++ [f] := by
  obtain ⟨hcurrent, -, -, -, hstate⟩ := h.running s f hf
  rw [Thread.perform, hnext]
  change (t.goOn f next []).yield.queues _ = _
  rw [yield_eq (t := t.goOn f next []) hcurrent hf hstate]
  exact Function.update_self _ _ _

theorem dead_of_returns (h : t.Homed) (hs : t.control = .loop s) (hmain : (t.dispatch s).control = .main)
    (hf : f < t.spawned) (hat : t.home f = s) : t.state f = .dead := by
  have hnil : t.queues (.ready s) = [] := by
    cases hq : t.queues (.ready s) with
    | nil => rfl
    | cons g fibers =>
      rw [Thread.dispatch, hq] at hmain
      dsimp only at hmain
      split_ifs at hmain
      exact Control.noConfusion (hs.symm.trans hmain)
  subst hat
  refine (h.waits_of_loop hs hf (h.looping _ hs).2).resolve_right fun hmem => ?_
  rw [hnil] at hmem
  cases hmem

end Homed

theorem homed_run {capacity : ℕ → ℕ} {memory : ℕ → T} {ops : List (Op T)}
    (h : Lawful (Guarded capacity memory) ops) : (Thread.run capacity memory ops).Homed := by
  refine h.induct (motive := fun _ t => Homed t) (Homed.start memory) fun past op hguard ih => ?_
  generalize ht : Runs.run (step capacity) { memory } past = t at ih
  cases op with
  | construct =>
    rw [step]
    split_ifs with hmain
    · exact ih.construct hmain
    · exact ih
  | destroy s =>
    rw [step]
    split_ifs with hmain
    · exact ih.destroy hmain.1
    · exact ih
  | spawn s body =>
    rw [step]
    split_ifs with hmain
    · exact ih.spawn hmain.1 hmain.2 hguard
    · exact ih
  | run s =>
    rw [step]
    split_ifs with hmain
    · exact ih.run hmain.1 hmain.2 (ht ▸ hguard)
    · exact ih
  | advance =>
    rw [step, advance]
    cases hcontrol : t.control with
    | loop s => exact ih.dispatch hcontrol
    | fiber s f => exact ih.perform hcontrol
    | main => exact ih
    | lost => exact ih

theorem fibers_stay_home (capacity : ℕ → ℕ) (memory : ℕ → T) (ops : List (Op T))
    (h : Lawful (Guarded capacity memory) ops) :
    let t := Thread.run capacity memory ops
    (∀ s f, t.control = .fiber s f →
      (t.advance capacity).control = .loop (t.home f) ∧
        ∀ next, t.rest f = .yield next →
          (t.advance capacity).queues (.ready (t.home f)) = t.queues (.ready (t.home f)) ++ [f]) ∧
      (∀ s, t.control = .loop s → (t.advance capacity).control = .main →
        ∀ f < t.spawned, t.home f = s → t.state f = .dead) ∧
      ∀ s, ∀ f ∈ t.queues (.ready s), t.home f = s := by
  intro t
  have hhomed : t.Homed := homed_run h
  refine ⟨fun s f hf => ?_, fun s hs hmain f hf hat => ?_, fun s f hf => (hhomed.queued s f hf).2⟩
  · obtain ⟨-, -, -, hat, -⟩ := hhomed.running s f hf
    rw [hat]
    simp only [advance, hf]
    exact ⟨hhomed.perform_control hf, fun next hnext => hhomed.perform_queues hf hnext⟩
  · simp only [advance, hs] at hmain
    exact hhomed.dead_of_returns hs hmain hf hat

def oneAfterTheOther : List (Op ℕ) :=
  [.construct, .spawn 0 (.yield .finish), .run 0, .advance, .advance, .advance, .advance, .advance,
    .construct, .spawn 0 .finish, .spawn 1 (.yield .finish), .run 1, .advance, .advance, .advance, .advance]

theorem fibers_stay_home_of_oneAfterTheOther :
    let t := Thread.run (fun _ => 0) (fun _ => 0) oneAfterTheOther
    t.control = .loop 1 ∧ t.queues (.ready 0) = [1] ∧ t.state 2 = .dead := by
  intro t
  have hguarded : Lawful (Guarded (fun _ => 0) (fun _ => 0)) oneAfterTheOther := by decide +kernel
  have hloop : t.control = .loop 1 := by decide +kernel
  have hreturns : (t.advance fun _ => 0).control = .main := by decide +kernel
  have hborn : 2 < t.spawned := by decide +kernel
  have hhome : t.home 2 = 1 := by decide +kernel
  have hall := (fibers_stay_home (fun _ => 0) (fun _ => 0) oneAfterTheOther hguarded).2.1
  exact ⟨hloop, by decide +kernel, hall 1 hloop hreturns 2 hborn hhome⟩

theorem yields_to_newest_scheduler :
    let t := Thread.run (fun _ => 0) (fun _ => 0)
      [.construct, .construct, .spawn 0 (.yield .finish), .run 0, .advance, (.advance : Op ℕ)]
    t.home 0 = 0 ∧ t.queues (.ready 0) = [] ∧ t.queues (.ready 1) = [0] ∧ t.control ≠ .loop 0 := by
  decide

end Thread

end SystemLevel.Fibers
