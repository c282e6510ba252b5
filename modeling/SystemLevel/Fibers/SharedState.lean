import SystemLevel.Fibers.FiberPlaces

namespace SystemLevel.Fibers

open Runs

variable {T : Type}

structure Shared (T : Type) where
  spawned : ℕ
  rest : ℕ → Program T
  locked : ℕ → Bool
  items : ℕ → List T
  memory : ℕ → T
  events : List (Event T)

namespace Shared

def spawn (a : Shared T) (body : Program T) : Shared T :=
  { a with spawned := a.spawned + 1, rest := Function.update a.rest a.spawned body }

def goOn (a : Shared T) (f : ℕ) (next : Program T) (events : List (Event T)) : Shared T :=
  { a with rest := Function.update a.rest f next, events := a.events ++ events }

theorem spawn_rest (a : Shared T) (body : Program T) (f : ℕ) :
    (a.spawn body).rest f = if f = a.spawned then body else a.rest f :=
  Function.update_apply _ _ _ _

theorem goOn_rest (a : Shared T) (f g : ℕ) (next : Program T) (events : List (Event T)) :
    (a.goOn f next events).rest g = if g = f then next else a.rest g :=
  Function.update_apply _ _ _ _

inductive Step (capacity : ℕ → ℕ) (a : Shared T) (f : ℕ) : Shared T → Prop
  | yield (next : Program T) : a.rest f = .yield next → Step capacity a f (a.goOn f next [])
  | lock (m : ℕ) (next : Program T) : a.rest f = .lock m next → a.locked m = false →
      Step capacity a f ({ a with locked := Function.update a.locked m true }.goOn f next [.locked f m])
  | unlock (m : ℕ) (next : Program T) : a.rest f = .unlock m next →
      Step capacity a f ({ a with locked := Function.update a.locked m false }.goOn f next [.unlocked f m])
  | send (c : ℕ) (value : T) (next : Program T) : a.rest f = .send c value next → (a.items c).length < capacity c →
      Step capacity a f
        ({ a with items := Function.update a.items c (a.items c ++ [value]) }.goOn f next [.sent c value])
  | receive (c : ℕ) (value : T) (items : List T) (next : T → Program T) : a.rest f = .receive c next →
      a.items c = value :: items →
      Step capacity a f ({ a with items := Function.update a.items c items }.goOn f (next value) [.received c value])
  | load (x : ℕ) (next : T → Program T) : a.rest f = .load x next →
      Step capacity a f (a.goOn f (next (a.memory x)) [])
  | store (x : ℕ) (value : T) (next : Program T) : a.rest f = .store x value next →
      Step capacity a f ({ a with memory := Function.update a.memory x value }.goOn f next [])

end Shared

namespace Thread

def shared (t : Thread T) : Shared T := ⟨t.spawned, t.rest, t.locked, t.items, t.memory, t.events⟩

theorem shared_yield (t : Thread T) : t.yield.shared = t.shared := by
  unfold yield
  cases t.current with
  | none => rfl
  | some s =>
    cases t.control with
    | fiber caller f =>
      dsimp only
      split_ifs <;> rfl
    | _ => rfl

theorem shared_finish (t : Thread T) (f : ℕ) : (t.finish f).shared = t.shared := by
  unfold finish
  cases hcurrent : (t.setState f .dead).current with
  | none =>
    simp only [hcurrent]
    rfl
  | some s =>
    simp only [hcurrent]
    exact shared_yield _

theorem shared_suspendAt (t : Thread T) (p : Place) (f : ℕ) : (t.suspendAt p f).shared = t.shared := shared_yield _

theorem shared_dispatch (t : Thread T) (s : ℕ) : (t.dispatch s).shared = t.shared := by
  unfold dispatch
  cases t.queues (.ready s) with
  | nil => rfl
  | cons f fibers =>
    dsimp only
    split_ifs <;> rfl

theorem shared_finishCall (t : Thread T) (p : Place) (f : ℕ) (next : Program T) (events : List (Event T)) :
    ((t.wakeFirst p).goOn f next events).shared = t.shared.goOn f next events := by
  obtain ⟨queues, state, heq⟩ := t.wakeFirst_frame p
  rw [heq]
  rfl

theorem shared_perform (capacity : ℕ → ℕ) (t : Thread T) (f : ℕ) :
    (t.perform capacity f).shared = t.shared ∨ t.shared.Step capacity f (t.perform capacity f).shared := by
  unfold perform
  cases hnext : t.rest f with
  | finish => exact Or.inl (t.shared_finish f)
  | yield next =>
    dsimp only
    rw [shared_yield]
    exact Or.inr (.yield next hnext)
  | lock m next =>
    simp only [lock]
    split_ifs with hlocked
    · exact Or.inl (t.shared_suspendAt _ f)
    · exact Or.inr (.lock m next hnext (Bool.eq_false_of_not_eq_true hlocked))
  | unlock m next =>
    simp only [unlock, shared_finishCall]
    exact Or.inr (.unlock m next hnext)
  | send c value next =>
    simp only [send]
    split_ifs with hfull
    · exact Or.inl (t.shared_suspendAt _ f)
    · rw [shared_finishCall]
      exact Or.inr (.send c value next hnext (not_le.mp hfull))
  | receive c next =>
    simp only [receive]
    cases hitems : t.items c with
    | nil => exact Or.inl (t.shared_suspendAt _ f)
    | cons value items =>
      simp only [shared_finishCall]
      exact Or.inr (.receive c value items next hnext hitems)
  | load x next => exact Or.inr (.load x next hnext)
  | store x value next => exact Or.inr (.store x value next hnext)

theorem shared_induct (capacity : ℕ → ℕ) (memory : ℕ → T) {motive : Shared T → Prop} (bodies : Program T → Prop)
    (start : motive (shared { memory })) (spawn : ∀ a body, bodies body → motive a → motive (a.spawn body))
    (step : ∀ a f a', f < a.spawned → a.Step capacity f a' → motive a → motive a')
    {calls : List (Call T)} (hbodies : ∀ body, .spawn body ∈ calls → bodies body) :
    motive (runOne capacity memory calls).shared := by
  induction calls using List.reverseRecOn with
  | nil => exact start
  | append_singleton calls call ih =>
    have ih := ih fun body hbody => hbodies body (List.mem_append_left _ hbody)
    obtain ⟨place, h⟩ := kept_run capacity memory calls
    rw [runOne_snoc]
    obtain hsame | ⟨body, rfl, -, heq⟩ | ⟨-, heq⟩ | ⟨-, heq⟩ | ⟨f, hf, heq⟩ := h.call_cases capacity call
    · rw [hsame]
      exact ih
    · rw [heq]
      exact spawn _ body (hbodies body (List.mem_append_right _ List.mem_cons_self)) ih
    · rw [heq]
      exact ih
    · rw [heq, shared_dispatch]
      exact ih
    · rw [heq]
      rcases shared_perform capacity (runOne capacity memory calls) f with hsame | hstep
      · rw [hsame]
        exact ih
      · exact step _ f _ (h.runs f hf) hstep ih

end Thread

end SystemLevel.Fibers
