import SystemLevel.Foundations.Runs

/-!
`Fiber`, `Scheduler`, `FiberMutex` and `FiberChannel` on one thread. Fibers, schedulers, mutexes, channels and the
variables that fibers share are numbers. Only one fiber runs at a time and it gives up control only in `yield`, so
a step is a whole call of a fiber, or one that ends in a `yield` inside of the loop of the call: the fiber then
goes on with the test of the loop, which is what it does first when it makes the call again.
-/

namespace SystemLevel.Fibers

open Runs

inductive FiberState
  | ready
  | running
  | suspended
  | dead
  deriving DecidableEq, Repr

inductive Program (T : Type)
  | finish
  | yield (next : Program T)
  | lock (m : ℕ) (next : Program T)
  | unlock (m : ℕ) (next : Program T)
  | send (c : ℕ) (value : T) (next : Program T)
  | receive (c : ℕ) (next : T → Program T)
  | load (x : ℕ) (next : T → Program T)
  | store (x : ℕ) (value : T) (next : Program T)

inductive Place
  | ready (s : ℕ)
  | mutex (m : ℕ)
  | sender (c : ℕ)
  | receiver (c : ℕ)
  deriving DecidableEq, Repr

inductive Control
  | main
  -- `run` is about to test whether its queue is empty.
  | loop (s : ℕ)
  -- A fiber has control, and `run` of the scheduler waits in its `swapcontext`.
  | fiber (s f : ℕ)
  -- The thread has ended, or has gone on in a context that no `run` has saved.
  | lost
  deriving DecidableEq, Repr

/-- The calls that have returned, except that `unlock` counts from its beginning. -/
inductive Event (T : Type)
  | locked (f m : ℕ)
  | unlocked (f m : ℕ)
  | sent (c : ℕ) (value : T)
  | received (c : ℕ) (value : T)
  deriving DecidableEq, Repr

/-- The variables of one thread. `current_fiber_` is the fiber that has control. `home` and `events` record on
which scheduler a fiber was spawned and what has happened. -/
structure Thread (T : Type) where
  memory : ℕ → T
  spawned : ℕ := 0
  home : ℕ → ℕ := fun _ => 0
  state : ℕ → FiberState := fun _ => .ready
  rest : ℕ → Program T := fun _ => .finish
  constructed : ℕ := 0
  alive : ℕ → Bool := fun _ => false
  current : Option ℕ := none
  control : Control := .main
  queues : Place → List ℕ := fun _ => []
  locked : ℕ → Bool := fun _ => false
  items : ℕ → List T := fun _ => []
  events : List (Event T) := []

namespace Thread

variable {T : Type}

def setState (t : Thread T) (f : ℕ) (state : FiberState) : Thread T :=
  { t with state := Function.update t.state f state }

def setQueue (t : Thread T) (p : Place) (fibers : List ℕ) : Thread T :=
  { t with queues := Function.update t.queues p fibers }

def pushBack (t : Thread T) (p : Place) (f : ℕ) : Thread T := t.setQueue p (t.queues p ++ [f])

def spawn (t : Thread T) (s : ℕ) (body : Program T) : Thread T :=
  { t.pushBack (.ready s) t.spawned with
    spawned := t.spawned + 1
    home := Function.update t.home t.spawned s
    state := Function.update t.state t.spawned .ready
    rest := Function.update t.rest t.spawned body }

/-- The `swapcontext` of `yield` returns into the `run` that has switched to the fiber, if it is the `run` of the
current scheduler. -/
def yield (t : Thread T) : Thread T :=
  match t.current, t.control with
  | some s, .fiber caller f =>
    let t := if t.state f = .running then (t.setState f .ready).pushBack (.ready s) f else t
    { t with control := if caller = s then .loop s else .lost }
  | _, _ => t

def resume (t : Thread T) (s f : ℕ) : Thread T :=
  if t.state f ≠ .dead then (t.setState f .ready).pushBack (.ready s) f else t

def dispatch (t : Thread T) (s : ℕ) : Thread T :=
  match t.queues (.ready s) with
  | [] => { t with control := .main }
  | f :: fibers =>
    let t := t.setQueue (.ready s) fibers
    if t.state f = .dead then t else { t.setState f .running with control := .fiber s f }

/-- `fiber_entry` after the body. When its `yield` returns, the thread ends, for there is no `uc_link`. -/
def finish (t : Thread T) (f : ℕ) : Thread T :=
  let t := t.setState f .dead
  match t.current with
  | none => { t with control := .lost }
  | some _ => t.yield

def suspendAt (t : Thread T) (p : Place) (f : ℕ) : Thread T := ((t.setState f .suspended).pushBack p f).yield

def wakeFirst (t : Thread T) (p : Place) : Thread T :=
  match t.queues p with
  | [] => t
  | f :: fibers =>
    let t := t.setQueue p fibers
    match t.current with
    | none => t
    | some s => t.resume s f

def goOn (t : Thread T) (f : ℕ) (next : Program T) (events : List (Event T)) : Thread T :=
  { t with rest := Function.update t.rest f next, events := t.events ++ events }

def lock (t : Thread T) (f m : ℕ) (next : Program T) : Thread T :=
  if t.locked m then t.suspendAt (.mutex m) f
  else { t with locked := Function.update t.locked m true }.goOn f next [.locked f m]

def unlock (t : Thread T) (f m : ℕ) (next : Program T) : Thread T :=
  ({ t with locked := Function.update t.locked m false }.wakeFirst (.mutex m)).goOn f next [.unlocked f m]

def send (capacity : ℕ → ℕ) (t : Thread T) (f c : ℕ) (value : T) (next : Program T) : Thread T :=
  if capacity c ≤ (t.items c).length then t.suspendAt (.sender c) f
  else
    ({ t with items := Function.update t.items c (t.items c ++ [value]) }.wakeFirst (.receiver c)).goOn f next
      [.sent c value]

def receive (t : Thread T) (f c : ℕ) (next : T → Program T) : Thread T :=
  match t.items c with
  | [] => t.suspendAt (.receiver c) f
  | value :: items =>
    ({ t with items := Function.update t.items c items }.wakeFirst (.sender c)).goOn f (next value)
      [.received c value]

def perform (capacity : ℕ → ℕ) (t : Thread T) (f : ℕ) : Thread T :=
  match t.rest f with
  | .finish => t.finish f
  | .yield next => (t.goOn f next []).yield
  | .lock m next => t.lock f m next
  | .unlock m next => t.unlock f m next
  | .send c value next => t.send capacity f c value next
  | .receive c next => t.receive f c next
  | .load x next => t.goOn f (next (t.memory x)) []
  | .store x value next => { t with memory := Function.update t.memory x value }.goOn f next []

def advance (capacity : ℕ → ℕ) (t : Thread T) : Thread T :=
  match t.control with
  | .loop s => t.dispatch s
  | .fiber _ f => t.perform capacity f
  | _ => t

inductive Op (T : Type)
  | construct
  | destroy (s : ℕ)
  | spawn (s : ℕ) (body : Program T)
  | run (s : ℕ)
  | advance

def construct (t : Thread T) : Thread T :=
  { t with
    constructed := t.constructed + 1
    alive := Function.update t.alive t.constructed true
    current := some t.constructed }

def destroy (t : Thread T) (s : ℕ) : Thread T :=
  { t.setQueue (.ready s) [] with
    alive := Function.update t.alive s false
    current := if t.current = some s then none else t.current }

def step (capacity : ℕ → ℕ) (t : Thread T) : Op T → Thread T
  | .construct => if t.control = .main then t.construct else t
  | .destroy s => if t.control = .main ∧ t.alive s then t.destroy s else t
  | .spawn s body => if t.control = .main ∧ t.alive s then t.spawn s body else t
  | .run s => if t.control = .main ∧ t.alive s then { t with control := .loop s } else t
  | .advance => t.advance capacity

abbrev run (capacity : ℕ → ℕ) (memory : ℕ → T) (ops : List (Op T)) : Thread T :=
  Runs.run (step capacity) { memory } ops

inductive Call (T : Type)
  | spawn (body : Program T)
  | run
  | advance

def Call.op : Call T → Op T
  | .spawn body => .spawn 0 body
  | .run => .run 0
  | .advance => .advance

abbrev runOne (capacity : ℕ → ℕ) (memory : ℕ → T) (calls : List (Call T)) : Thread T :=
  run capacity memory (.construct :: calls.map Call.op)

section Leaving

-- A fiber that runs on the current scheduler leaves to the loop of the `run` that has switched to it.
variable {t : Thread T} {s f : ℕ} (hcurrent : t.current = some s) (hf : t.control = .fiber s f)

include hcurrent hf

theorem yield_eq (hstate : t.state f = .running) :
    t.yield = { (t.setState f .ready).pushBack (.ready s) f with control := .loop s } := by
  simp only [yield, hcurrent, hf, hstate, if_true]

theorem suspendAt_eq (p : Place) :
    t.suspendAt p f = { (t.setState f .suspended).pushBack p f with control := .loop s } := by
  simp [suspendAt, yield, pushBack, setQueue, setState, hcurrent, hf]

theorem finish_eq : t.finish f = { t.setState f .dead with control := .loop s } := by
  simp [finish, yield, setState, hcurrent, hf]

end Leaving

end Thread

end SystemLevel.Fibers
