import SystemLevel.Fibers.SharedState

namespace SystemLevel.Fibers

variable {T : Type}

def Program.Paired : Finset ℕ → Program T → Prop
  | _, .finish => True
  | held, .yield next => next.Paired held
  | held, .lock m next => next.Paired (insert m held)
  | held, .unlock m next => m ∈ held ∧ next.Paired (held.erase m)
  | held, .send _ _ next => next.Paired held
  | held, .receive _ next => ∀ value, (next value).Paired held
  | held, .load _ next => ∀ value, (next value).Paired held
  | held, .store _ _ next => next.Paired held

def Event.hold (m : ℕ) (holders : List ℕ) : Event T → List ℕ
  | .locked f m' => if m' = m then f :: holders else holders
  | .unlocked f m' => if m' = m then holders.erase f else holders
  | _ => holders

def holders (m : ℕ) (events : List (Event T)) : List ℕ := events.foldl (Event.hold m) []

theorem holders_append (m : ℕ) (events : List (Event T)) (event : Event T) :
    holders m (events ++ [event]) = event.hold m (holders m events) := by
  simp [holders]

namespace Shared

structure Exclusive (a : Shared T) : Prop where
  free : ∀ m, a.locked m = false → holders m a.events = []
  single : ∀ m, a.locked m = true → ∃ f < a.spawned, holders m a.events = [f]
  paired : ∀ f, ∃ held, (∀ m, m ∈ held ↔ f ∈ holders m a.events) ∧ (a.rest f).Paired held

namespace Exclusive

variable {capacity : ℕ → ℕ} {a a' : Shared T} {f : ℕ}

theorem sole (h : a.Exclusive) {m : ℕ} (hf : f ∈ holders m a.events) :
    f < a.spawned ∧ holders m a.events = [f] := by
  cases hlocked : a.locked m with
  | false =>
    rw [h.free m hlocked] at hf
    cases hf
  | true =>
    obtain ⟨g, hg, hholders⟩ := h.single m hlocked
    rw [hholders, List.mem_singleton] at hf
    rw [hf]
    exact ⟨hg, hholders⟩

theorem length_le (h : a.Exclusive) (m : ℕ) : (holders m a.events).length ≤ 1 := by
  cases hlocked : a.locked m with
  | false =>
    rw [h.free m hlocked]
    exact Nat.zero_le 1
  | true =>
    obtain ⟨g, hg, hholders⟩ := h.single m hlocked
    rw [hholders]
    exact le_rfl

theorem spawn (h : a.Exclusive) {body : Program T} (hbody : body.Paired ∅) : (a.spawn body).Exclusive := by
  refine ⟨h.free, fun m hm => ?_, fun f => ?_⟩
  · obtain ⟨f, hf, hholders⟩ := h.single m hm
    exact ⟨f, hf.trans (Nat.lt_succ_self _), hholders⟩
  · rw [spawn_rest]
    split_ifs with hf
    · refine ⟨∅, fun m => ?_, hbody⟩
      have hnew : f ∉ holders m a.events := fun hmem => absurd (h.sole hmem).1 (by omega)
      exact iff_of_false (Finset.notMem_empty m) hnew
    · exact h.paired f

theorem pass (h : a.Exclusive) {next : Program T} (hspawned : a'.spawned = a.spawned) (hlocked : a'.locked = a.locked)
    (hholders : ∀ m, holders m a'.events = holders m a.events)
    (hrest : ∀ g, a'.rest g = if g = f then next else a.rest g)
    (hnext : ∀ held, (a.rest f).Paired held → next.Paired held) : a'.Exclusive := by
  refine ⟨fun m hm => ?_, fun m hm => ?_, fun g => ?_⟩
  · rw [hholders]
    exact h.free m (hlocked ▸ hm)
  · rw [hholders, hspawned]
    exact h.single m (hlocked ▸ hm)
  · obtain ⟨held, hheld, hpaired⟩ := h.paired g
    refine ⟨held, fun m => ?_, ?_⟩
    · rw [hholders]
      exact hheld m
    · rw [hrest]
      split_ifs with hg
      · rw [hg] at hpaired
        exact hnext held hpaired
      · exact hpaired

theorem change (h : a.Exclusive) {m : ℕ} {locked : Bool} {event : Event T} {next : Program T}
    (hother : ∀ m' fs, m' ≠ m → event.hold m' fs = fs)
    (hself : if locked then ∃ g < a.spawned, event.hold m (holders m a.events) = [g]
      else event.hold m (holders m a.events) = [])
    (hstays : ∀ g, g ≠ f → (g ∈ event.hold m (holders m a.events) ↔ g ∈ holders m a.events))
    (hnext : ∃ held, (∀ m', m' ∈ held ↔ f ∈ event.hold m' (holders m' a.events)) ∧ next.Paired held) :
    ({ a with locked := Function.update a.locked m locked }.goOn f next [event]).Exclusive := by
  refine ⟨fun m' hm => ?_, fun m' hm => ?_, fun g => ?_⟩
  · change Function.update a.locked m locked m' = false at hm
    change holders m' (a.events ++ [event]) = []
    rw [holders_append]
    rw [Function.update_apply] at hm
    split_ifs at hm with he
    · rw [hm] at hself
      rw [he]
      exact hself
    · rw [hother m' _ he]
      exact h.free m' hm
  · change Function.update a.locked m locked m' = true at hm
    change ∃ g < a.spawned, holders m' (a.events ++ [event]) = [g]
    rw [holders_append]
    rw [Function.update_apply] at hm
    split_ifs at hm with he
    · rw [hm] at hself
      rw [he]
      exact hself
    · rw [hother m' _ he]
      exact h.single m' hm
  · simp only [Shared.goOn, holders_append, Function.update_apply]
    split_ifs with hg
    · rw [hg]
      exact hnext
    · obtain ⟨held, hheld, hpaired⟩ := h.paired g
      refine ⟨held, fun m' => ?_, hpaired⟩
      by_cases he : m' = m
      · rw [he, hstays g hg]
        exact hheld m
      · rw [hother m' _ he]
        exact hheld m'

theorem lock (h : a.Exclusive) (hf : f < a.spawned) {m : ℕ} {next : Program T} (hnext : a.rest f = .lock m next)
    (hfree : a.locked m = false) :
    ({ a with locked := Function.update a.locked m true }.goOn f next [.locked f m]).Exclusive := by
  have hholders : (Event.locked f m : Event T).hold m (holders m a.events) = [f] := by
    rw [Event.hold, if_pos rfl, h.free m hfree]
  obtain ⟨held, hheld, hpaired⟩ := h.paired f
  rw [hnext] at hpaired
  refine h.change (fun m' fs hm => if_neg (Ne.symm hm)) ?_ (fun g hg => ?_) ⟨insert m held, fun m' => ?_, hpaired⟩
  · exact ⟨f, hf, hholders⟩
  · rw [hholders, h.free m hfree]
    simp [hg]
  · rw [Finset.mem_insert]
    by_cases hm : m' = m
    · rw [hm, hholders]
      simp
    · rw [Event.hold, if_neg (Ne.symm hm), hheld]
      simp [hm]

theorem unlock (h : a.Exclusive) {m : ℕ} {next : Program T} (hnext : a.rest f = .unlock m next) :
    ({ a with locked := Function.update a.locked m false }.goOn f next [.unlocked f m]).Exclusive := by
  obtain ⟨held, hheld, hpaired⟩ := h.paired f
  rw [hnext] at hpaired
  obtain ⟨hmem, hpaired⟩ := hpaired
  have hsingle := (h.sole ((hheld m).mp hmem)).2
  have hholders : (Event.unlocked f m : Event T).hold m (holders m a.events) = [] := by
    rw [Event.hold, if_pos rfl, hsingle, List.erase_cons_head]
  refine h.change (fun m' fs hm => if_neg (Ne.symm hm)) hholders (fun g hg => ?_) ⟨held.erase m, fun m' => ?_, hpaired⟩
  · rw [hholders, hsingle]
    simp [hg]
  · rw [Finset.mem_erase]
    by_cases hm : m' = m
    · rw [hm, hholders]
      simp
    · rw [Event.hold, if_neg (Ne.symm hm), hheld]
      simp [hm]

theorem step (h : a.Exclusive) (hf : f < a.spawned) (hstep : a.Step capacity f a') : a'.Exclusive := by
  have hholders : ∀ (event : Event T) m, (∀ fs, event.hold m fs = fs) →
      holders m (a.events ++ [event]) = holders m a.events := by
    intro event m hsame
    rw [holders_append, hsame]
  cases hstep with
  | yield next hnext =>
    refine h.pass (f := f) rfl rfl (fun m => ?_) (goOn_rest a f · next []) fun held hpaired => ?_
    · exact congrArg (holders m) (List.append_nil _)
    · rw [hnext] at hpaired
      exact hpaired
  | lock m next hnext hfree => exact h.lock hf hnext hfree
  | unlock m next hnext => exact h.unlock hnext
  | send c value next hnext hroom =>
    refine h.pass (f := f) rfl rfl (fun m => ?_) (goOn_rest _ f · next _) fun held hpaired => ?_
    · exact hholders _ m fun _ => rfl
    · rw [hnext] at hpaired
      exact hpaired
  | receive c value items next hnext hitems =>
    refine h.pass (f := f) rfl rfl (fun m => ?_) (goOn_rest _ f · _ _) fun held hpaired => ?_
    · exact hholders _ m fun _ => rfl
    · rw [hnext] at hpaired
      exact hpaired value
  | load x next hnext =>
    refine h.pass (f := f) rfl rfl (fun m => ?_) (goOn_rest a f · _ []) fun held hpaired => ?_
    · exact congrArg (holders m) (List.append_nil _)
    · rw [hnext] at hpaired
      exact hpaired _
  | store x value next hnext =>
    refine h.pass (f := f) rfl rfl (fun m => ?_) (goOn_rest _ f · next []) fun held hpaired => ?_
    · exact congrArg (holders m) (List.append_nil _)
    · rw [hnext] at hpaired
      exact hpaired

end Exclusive

end Shared

inductive Stage (T : Type)
  | outside
  | entered
  | loaded (value : T)
  | stored

def Stage.Agrees (increment : T → T) (base value : T) : Stage T → Prop
  | .outside => True
  | .entered => value = base
  | .loaded old => old = base ∧ value = base
  | .stored => value = increment base

/-- The fiber touches the variable only in sections that hold the mutex, load the variable, store what they have
loaded incremented, and then end. Between these calls it may do anything else. -/
def Program.Sections (x m : ℕ) (increment : T → T) : Stage T → Program T → Prop
  | _, .finish => True
  | stage, .yield next => next.Sections x m increment stage
  | stage, .lock m' next =>
    if m' = m then stage = .outside ∧ next.Sections x m increment .entered else next.Sections x m increment stage
  | stage, .unlock m' next =>
    if m' = m then stage = .stored ∧ next.Sections x m increment .outside else next.Sections x m increment stage
  | stage, .send _ _ next => next.Sections x m increment stage
  | stage, .receive _ next => ∀ value, (next value).Sections x m increment stage
  | stage, .load y next =>
    if y = x then stage = .entered ∧ ∀ value, (next value).Sections x m increment (.loaded value)
    else ∀ value, (next value).Sections x m increment stage
  | stage, .store y value next =>
    if y = x then (∃ old, stage = .loaded old ∧ value = increment old) ∧ next.Sections x m increment .stored
    else next.Sections x m increment stage

def Event.completes (m : ℕ) : Event T → Bool
  | .unlocked _ m' => m' = m
  | _ => false

def completed (m : ℕ) (events : List (Event T)) : ℕ := events.countP (Event.completes m)

theorem completed_append (m : ℕ) (events : List (Event T)) (event : Event T) :
    completed m (events ++ [event]) = completed m events + if event.completes m then 1 else 0 := by
  rw [completed, List.countP_append, List.countP_singleton]
  rfl

namespace Shared

structure Counts (x m : ℕ) (increment : T → T) (base : T) (a : Shared T) (stage : ℕ → Stage T) : Prop where
  sections : ∀ f, (a.rest f).Sections x m increment (stage f)
  inside : ∀ f, stage f ≠ .outside ↔ f ∈ holders m a.events
  agrees : ∀ f, Stage.Agrees increment base (a.memory x) (stage f)
  idle : holders m a.events = [] → a.memory x = base

namespace Counts

variable {capacity : ℕ → ℕ} {a a' : Shared T} {f x m : ℕ} {increment : T → T} {base : T} {stage : ℕ → Stage T}

theorem pass (h : a.Counts x m increment base stage) {next : Program T} (hmemory : a'.memory x = a.memory x)
    (hholders : holders m a'.events = holders m a.events) (hrest : ∀ g, a'.rest g = if g = f then next else a.rest g)
    (hnext : next.Sections x m increment (stage f)) : a'.Counts x m increment base stage := by
  refine ⟨fun g => ?_, fun g => ?_, fun g => ?_, fun hidle => ?_⟩
  · rw [hrest]
    split_ifs with hg
    · rw [hg]
      exact hnext
    · exact h.sections g
  · rw [hholders]
    exact h.inside g
  · rw [hmemory]
    exact h.agrees g
  · rw [hmemory]
    exact h.idle (hholders ▸ hidle)

theorem progress (h : a.Counts x m increment base stage) {base' : T} {next : Program T} {new : Stage T}
    (halone : ∀ g, g ≠ f → g ∉ holders m a.events) (hstays : ∀ g, g ≠ f → g ∉ holders m a'.events)
    (hrest : ∀ g, a'.rest g = if g = f then next else a.rest g) (hnext : next.Sections x m increment new)
    (hinside : new ≠ .outside ↔ f ∈ holders m a'.events) (hagrees : Stage.Agrees increment base' (a'.memory x) new)
    (hidle : holders m a'.events = [] → a'.memory x = base') :
    a'.Counts x m increment base' (Function.update stage f new) := by
  have hothers : ∀ g, g ≠ f → stage g = .outside := by
    intro g hg
    by_contra hne
    exact halone g hg ((h.inside g).mp hne)
  refine ⟨fun g => ?_, fun g => ?_, fun g => ?_, hidle⟩
  · rw [hrest, Function.update_apply]
    split_ifs with hg
    · exact hnext
    · exact h.sections g
  · rw [Function.update_apply]
    split_ifs with hg
    · rw [hg]
      exact hinside
    · exact iff_of_false (not_not_intro (hothers g hg)) (hstays g hg)
  · rw [Function.update_apply]
    split_ifs with hg
    · exact hagrees
    · rw [hothers g hg]
      trivial

theorem spawn (h : a.Counts x m increment base stage) (hexclusive : a.Exclusive) {body : Program T}
    (hbody : body.Sections x m increment .outside) : (a.spawn body).Counts x m increment base stage := by
  have hnew : stage a.spawned = .outside := by
    by_contra hne
    exact absurd (hexclusive.sole ((h.inside _).mp hne)).1 (lt_irrefl _)
  refine h.pass (f := a.spawned) rfl rfl (spawn_rest a body) ?_
  rw [hnew]
  exact hbody

section Step

variable {initial : T} (h : a.Counts x m increment (increment^[completed m a.events] initial) stage)

include h

theorem keep {event : Event T} {next : Program T} (hmemory : a'.memory x = a.memory x)
    (hevents : a'.events = a.events ++ [event]) (hholders : ∀ fs, event.hold m fs = fs)
    (hcount : event.completes m = false)
    (hrest : ∀ g, a'.rest g = if g = f then next else a.rest g) (hnext : next.Sections x m increment (stage f)) :
    a'.Counts x m increment (increment^[completed m a'.events] initial) stage := by
  rw [hevents, completed_append, hcount]
  refine h.pass hmemory ?_ hrest hnext
  rw [hevents, holders_append, hholders]

theorem quiet {next : Program T} (hmemory : a'.memory x = a.memory x) (hevents : a'.events = a.events ++ [])
    (hrest : ∀ g, a'.rest g = if g = f then next else a.rest g) (hnext : next.Sections x m increment (stage f)) :
    a'.Counts x m increment (increment^[completed m a'.events] initial) stage := by
  rw [List.append_nil] at hevents
  rw [hevents]
  exact h.pass hmemory (congrArg (holders m) hevents) hrest hnext

theorem lock (hexclusive : a.Exclusive) {next : Program T} (hnext : next.Sections x m increment .entered)
    (hfree : a.locked m = false) :
    ({ a with locked := Function.update a.locked m true }.goOn f next [.locked f m]).Counts x m increment
      (increment^[completed m (a.events ++ [Event.locked f m])] initial) (Function.update stage f .entered) := by
  have hnone := hexclusive.free m hfree
  have hholders : holders m (a.events ++ [Event.locked f m]) = [f] := by
    rw [holders_append, hnone]
    exact if_pos rfl
  rw [completed_append]
  refine h.progress (fun g _ => ?_) (fun g hg => ?_) (goOn_rest _ f · next _) hnext ?_ (h.idle hnone) fun hidle => ?_
  · rw [hnone]
    exact List.not_mem_nil
  · change g ∉ holders m (a.events ++ [Event.locked f m])
    rw [hholders]
    simpa using hg
  · change _ ↔ f ∈ holders m (a.events ++ [Event.locked f m])
    rw [hholders]
    simp
  · exact absurd (hholders.symm.trans hidle) (List.cons_ne_nil _ _)

theorem unlock (hexclusive : a.Exclusive) {next : Program T} (hstage : stage f = .stored)
    (hnext : next.Sections x m increment .outside) :
    ({ a with locked := Function.update a.locked m false }.goOn f next [.unlocked f m]).Counts x m increment
      (increment^[completed m (a.events ++ [Event.unlocked f m])] initial) (Function.update stage f .outside) := by
  have hsingle : holders m a.events = [f] := by
    refine (hexclusive.sole ((h.inside f).mp ?_)).2
    rw [hstage]
    nofun
  have hholders : holders m (a.events ++ [Event.unlocked f m]) = [] := by
    rw [holders_append, hsingle, Event.hold, if_pos rfl, List.erase_cons_head]
  have hcount : completed m (a.events ++ [Event.unlocked f m]) = completed m a.events + 1 := by
    rw [completed_append, Event.completes, decide_eq_true rfl]
    rfl
  have hvalue := h.agrees f
  rw [hstage] at hvalue
  rw [hcount, Function.iterate_succ_apply']
  refine h.progress (fun g hg => ?_) (fun g _ => ?_) (goOn_rest _ f · next _) hnext ?_ trivial fun _ => hvalue
  · rw [hsingle]
    simpa using hg
  · change g ∉ holders m (a.events ++ [Event.unlocked f m])
    rw [hholders]
    exact List.not_mem_nil
  · change _ ↔ f ∈ holders m (a.events ++ [Event.unlocked f m])
    rw [hholders]
    simp

theorem access (hexclusive : a.Exclusive) {memory : ℕ → T} {next : Program T} {new : Stage T}
    (hstage : stage f ≠ .outside)
    (hnew : new ≠ .outside) (hnext : next.Sections x m increment new)
    (hagrees : Stage.Agrees increment (increment^[completed m a.events] initial) (memory x) new) :
    ({ a with memory }.goOn f next []).Counts x m increment
      (increment^[completed m (a.events ++ [])] initial) (Function.update stage f new) := by
  have hsingle : holders m a.events = [f] := (hexclusive.sole ((h.inside f).mp hstage)).2
  have hholders : holders m (a.events ++ []) = [f] := by rw [List.append_nil, hsingle]
  have halone : ∀ g, g ≠ f → g ∉ [f] := fun g hg => by simpa using hg
  rw [List.append_nil]
  refine h.progress (fun g hg => hsingle ▸ halone g hg) (fun g hg => ?_) (goOn_rest _ f · next _) hnext ?_ hagrees
    fun hidle => ?_
  · exact hholders ▸ halone g hg
  · change _ ↔ f ∈ holders m (a.events ++ [])
    rw [hholders]
    simpa using hnew
  · exact absurd (hholders.symm.trans hidle) (List.cons_ne_nil _ _)

theorem step (hexclusive : a.Exclusive) (hstep : a.Step capacity f a') :
    ∃ stage, a'.Counts x m increment (increment^[completed m a'.events] initial) stage := by
  have hsections := h.sections f
  cases hstep with
  | yield next hnext =>
    rw [hnext] at hsections
    exact ⟨stage, h.quiet (f := f) rfl rfl (goOn_rest _ f · next _) hsections⟩
  | lock m' next hnext hfree =>
    rw [hnext, Program.Sections] at hsections
    split_ifs at hsections with hm
    · subst hm
      exact ⟨_, h.lock hexclusive hsections.2 hfree⟩
    · exact ⟨stage, h.keep (f := f) rfl rfl (fun _ => if_neg hm) rfl (goOn_rest _ f · next _) hsections⟩
  | unlock m' next hnext =>
    rw [hnext, Program.Sections] at hsections
    split_ifs at hsections with hm
    · subst hm
      exact ⟨_, h.unlock hexclusive hsections.1 hsections.2⟩
    · exact ⟨stage, h.keep (f := f) rfl rfl (fun _ => if_neg hm) (decide_eq_false hm)
        (goOn_rest _ f · next _) hsections⟩
  | send c value next hnext hroom =>
    rw [hnext] at hsections
    exact ⟨stage, h.keep (f := f) rfl rfl (fun _ => rfl) rfl (goOn_rest _ f · next _) hsections⟩
  | receive c value items next hnext hitems =>
    rw [hnext] at hsections
    exact ⟨stage, h.keep (f := f) rfl rfl (fun _ => rfl) rfl (goOn_rest _ f · _ _) (hsections value)⟩
  | load y next hnext =>
    rw [hnext, Program.Sections] at hsections
    split_ifs at hsections with hy
    · subst hy
      obtain ⟨hstage, hnext⟩ := hsections
      have hvalue := h.agrees f
      rw [hstage] at hvalue
      refine ⟨Function.update stage f (.loaded (a.memory y)), ?_⟩
      exact h.access hexclusive (by rw [hstage]; nofun) nofun (hnext _) ⟨hvalue, hvalue⟩
    · exact ⟨stage, h.quiet (f := f) rfl rfl (goOn_rest _ f · _ _) (hsections _)⟩
  | store y value next hnext =>
    rw [hnext, Program.Sections] at hsections
    split_ifs at hsections with hy
    · subst hy
      obtain ⟨⟨old, hstage, rfl⟩, hstored⟩ := hsections
      have hvalue := h.agrees f
      rw [hstage] at hvalue
      refine ⟨Function.update stage f .stored, h.access hexclusive (by rw [hstage]; nofun) nofun hstored ?_⟩
      change Function.update a.memory y (increment old) y = _
      rw [Function.update_self, hvalue.1]
    · refine ⟨stage, h.quiet (f := f) ?_ rfl (goOn_rest _ f · next _) hsections⟩
      exact Function.update_of_ne (Ne.symm hy) _ _

end Step

end Counts

end Shared

theorem Shared.Counts.value {a : Shared T} {x m : ℕ} {increment : T → T} {initial : T} {stage : ℕ → Stage T}
    (h : a.Counts x m increment (increment^[completed m a.events] initial) stage) :
    ∃ stored ≤ (holders m a.events).length, a.memory x = increment^[completed m a.events + stored] initial := by
  cases hholders : holders m a.events with
  | nil => exact ⟨0, le_rfl, h.idle hholders⟩
  | cons f fs =>
    have hagrees := h.agrees f
    cases hstage : stage f with
    | outside =>
      have hinside : f ∈ holders m a.events := hholders ▸ List.mem_cons_self
      exact absurd hstage ((h.inside f).mpr hinside)
    | entered =>
      rw [hstage] at hagrees
      exact ⟨0, Nat.zero_le _, hagrees⟩
    | loaded old =>
      rw [hstage] at hagrees
      exact ⟨0, Nat.zero_le _, hagrees.2⟩
    | stored =>
      rw [hstage] at hagrees
      refine ⟨1, Nat.le_add_left _ _, ?_⟩
      rw [Function.iterate_succ_apply']
      exact hagrees

theorem Thread.sections_never_overlap (capacity : ℕ → ℕ) (memory : ℕ → T) {calls : List (Thread.Call T)}
    (hpaired : ∀ body, .spawn body ∈ calls → body.Paired ∅) :
    let t := Thread.runOne capacity memory calls
    (∀ m, (holders m t.events).length ≤ 1) ∧
      ∀ x m increment, (∀ body, .spawn body ∈ calls → body.Sections x m increment .outside) →
        ∃ stored ≤ (holders m t.events).length, t.memory x = increment^[completed m t.events + stored] (memory x) := by
  have hstart : Shared.Exclusive (Thread.shared { memory }) :=
    ⟨fun _ _ => rfl, nofun, fun _ => ⟨∅, fun _ => by simp [holders, Thread.shared], trivial⟩⟩
  refine ⟨fun m => ?_, fun x m increment hsections => ?_⟩
  · have hexclusive : (Thread.runOne capacity memory calls).shared.Exclusive :=
      Thread.shared_induct capacity memory _ hstart (fun a body hbody h => h.spawn hbody)
        (fun a f a' hf hstep h => h.step hf hstep) hpaired
    exact hexclusive.length_le m
  · have hcounts : (Thread.runOne capacity memory calls).shared.Exclusive ∧ ∃ stage,
        (Thread.runOne capacity memory calls).shared.Counts x m increment
          (increment^[completed m (Thread.runOne capacity memory calls).shared.events] (memory x)) stage := by
      refine Thread.shared_induct capacity memory
        (motive := fun a => a.Exclusive ∧
          ∃ stage, a.Counts x m increment (increment^[completed m a.events] (memory x)) stage)
        (fun body => body.Paired ∅ ∧ body.Sections x m increment .outside) ⟨hstart, ?_⟩ (fun a body hbody h => ?_)
        (fun a f a' hf hstep h => ?_) fun body hbody => ⟨hpaired body hbody, hsections body hbody⟩
      · exact ⟨fun _ => .outside, fun _ => trivial, fun f => by simp [holders, Thread.shared],
          fun _ => trivial, fun _ => rfl⟩
      · obtain ⟨hexclusive, stage, hcounts⟩ := h
        exact ⟨hexclusive.spawn hbody.1, stage, hcounts.spawn hexclusive hbody.2⟩
      · obtain ⟨hexclusive, stage, hcounts⟩ := h
        exact ⟨hexclusive.step hf hstep, hcounts.step hexclusive hstep⟩
    obtain ⟨-, stage, hcounts⟩ := hcounts
    exact hcounts.value

def incrementing : Program ℕ := .lock 0 (.load 0 fun value => .yield (.store 0 (value + 1) (.unlock 0 .finish)))

def incrementedTwice : List (Thread.Call ℕ) :=
  [.spawn incrementing, .spawn incrementing, .run] ++ List.replicate 17 .advance

theorem Thread.sections_never_overlap_of_incrementedTwice :
    let t := Thread.runOne (fun _ => 0) (fun _ => 0) incrementedTwice
    holders 0 t.events = [] ∧ completed 0 t.events = 2 ∧
      ∃ stored ≤ (holders 0 t.events).length, t.memory 0 = (· + 1)^[completed 0 t.events + stored] 0 := by
  have hbodies : ∀ body, .spawn body ∈ incrementedTwice → body = incrementing := by
    intro body hbody
    simp [incrementedTwice] at hbody
    exact hbody
  refine ⟨by decide, by decide, ?_⟩
  refine (Thread.sections_never_overlap (fun _ => 0) (fun _ => 0) fun body hbody => ?_).2 0 0 (· + 1)
    fun body hbody => ?_
  · rw [hbodies body hbody]
    simp [incrementing, Program.Paired]
  · rw [hbodies body hbody]
    simp [incrementing, Program.Sections]

end SystemLevel.Fibers
