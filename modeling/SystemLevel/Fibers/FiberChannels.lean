import SystemLevel.Fibers.SharedState

namespace SystemLevel.Fibers

variable {T : Type}

def Event.sentOn (c : ℕ) : Event T → Option T
  | .sent c' value => if c' = c then some value else none
  | _ => none

def Event.receivedOn (c : ℕ) : Event T → Option T
  | .received c' value => if c' = c then some value else none
  | _ => none

namespace Shared

def Flows (capacity : ℕ → ℕ) (a : Shared T) : Prop :=
  ∀ c, a.events.filterMap (Event.receivedOn c) ++ a.items c = a.events.filterMap (Event.sentOn c) ∧
    (a.items c).length ≤ capacity c

variable {capacity : ℕ → ℕ} {a a' : Shared T} {f : ℕ}

theorem Flows.pass (h : a.Flows capacity) {c : ℕ} {events : List (Event T)} (hitems : a'.items c = a.items c)
    (hevents : a'.events = a.events ++ events) (hsent : events.filterMap (Event.sentOn c) = [])
    (hreceived : events.filterMap (Event.receivedOn c) = []) :
    a'.events.filterMap (Event.receivedOn c) ++ a'.items c = a'.events.filterMap (Event.sentOn c) ∧
      (a'.items c).length ≤ capacity c := by
  rw [hitems, hevents, List.filterMap_append, List.filterMap_append, hsent, hreceived, List.append_nil, List.append_nil]
  exact h c

theorem Flows.step (h : a.Flows capacity) (hstep : a.Step capacity f a') : a'.Flows capacity := by
  intro c'
  cases hstep with
  | yield next hnext => exact h.pass rfl rfl rfl rfl
  | lock m next hnext hfree => exact h.pass rfl rfl rfl rfl
  | unlock m next hnext => exact h.pass rfl rfl rfl rfl
  | send c value next hnext hroom =>
    by_cases hc : c' = c
    · subst hc
      obtain ⟨hflow, -⟩ := h c'
      simp only [Shared.goOn, List.filterMap_append, Function.update_self, List.filterMap_cons, Event.receivedOn,
        Event.sentOn, if_true, List.filterMap_nil, List.append_nil, List.length_append, List.length_singleton]
      rw [← List.append_assoc, hflow]
      exact ⟨rfl, hroom⟩
    · refine h.pass (Function.update_of_ne hc _ _) rfl ?_ rfl
      simp [Event.sentOn, Ne.symm hc]
  | receive c value items next hnext hitems =>
    by_cases hc : c' = c
    · subst hc
      obtain ⟨hflow, hbound⟩ := h c'
      simp only [Shared.goOn, List.filterMap_append, Function.update_self, List.filterMap_cons, Event.receivedOn,
        Event.sentOn, if_true, List.filterMap_nil, List.append_nil]
      rw [hitems] at hflow hbound
      rw [List.append_assoc, List.singleton_append]
      exact ⟨hflow, (Nat.le_succ _).trans hbound⟩
    · refine h.pass (Function.update_of_ne hc _ _) rfl rfl ?_
      simp [Event.receivedOn, Ne.symm hc]
  | load x next hnext => exact h.pass rfl rfl rfl rfl
  | store x value next hnext => exact h.pass rfl rfl rfl rfl

end Shared

theorem Thread.channel_is_bounded_fifo (capacity : ℕ → ℕ) (memory : ℕ → T) (calls : List (Thread.Call T)) (c : ℕ) :
    let t := Thread.runOne capacity memory calls
    t.events.filterMap (Event.receivedOn c) ++ t.items c = t.events.filterMap (Event.sentOn c) ∧
      (t.items c).length ≤ capacity c := by
  have hflows : (Thread.runOne capacity memory calls).shared.Flows capacity := by
    refine Thread.shared_induct capacity memory (fun _ => True) (fun _ => ⟨rfl, Nat.zero_le _⟩) (fun a body _ h => h)
      (fun a f a' _ hstep h => h.step hstep) fun _ _ => trivial
  exact hflows c

end SystemLevel.Fibers
