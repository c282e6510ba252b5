import SystemLevel.Foundations.Runs

namespace SystemLevel.LockFree

open Runs

structure Cell (T : Type) where
  sequence : UInt64
  data : T
  deriving DecidableEq, Repr

inductive ThreadPoint (T : Type)
  | idle (returned : Option Bool)
  -- `emplace` is going to load the sequence of its cell.
  | loading (value : T) (pos : UInt64)
  | reloading (value : T)
  -- `emplace` has found its cell ready, and is going to exchange `enqueue_pos_`.
  | claiming (value : T) (pos : UInt64)
  | writing (value : T) (pos : UInt64)
  | publishing (pos : UInt64)
  -- `pop` is going to load the sequence of its cell.
  | popLoading (pos : UInt64)
  | popReloading
  -- `pop` has found its cell published, and is going to exchange `dequeue_pos_`.
  | popClaiming (pos : UInt64)
  | reading (pos : UInt64)
  | releasing (pos : UInt64) (out : T)
  deriving DecidableEq, Repr

/-- The queue and its threads. The lists say what has happened: the tickets that producers have claimed, with
their values, those that they have published, those that consumers have claimed, and what `pop` has returned. -/
structure MpmcQueue (P T : Type) where
  capacity : UInt64
  mask : UInt64
  cells : ℕ → Cell T
  enqueuePos : UInt64 := 0
  dequeuePos : UInt64 := 0
  points : P → ThreadPoint T := fun _ => .idle none
  claims : List (UInt64 × T) := []
  published : List UInt64 := []
  takes : List UInt64 := []
  returned : List (UInt64 × T) := []

namespace MpmcQueue

variable {P T : Type} [DecidableEq P]

def roundUpPow2 (v : UInt64) : UInt64 :=
  if v < 2 then 2
  else
    let v := v - 1
    let v := v ||| v >>> 1
    let v := v ||| v >>> 2
    let v := v ||| v >>> 4
    let v := v ||| v >>> 8
    let v := v ||| v >>> 16
    let v := v ||| v >>> 32
    v + 1

/-- Behind the cells that the constructor has made there is some other memory. -/
def construct (capacity : UInt64) (blank : T) (memory : ℕ → Cell T) : MpmcQueue P T where
  capacity := roundUpPow2 capacity
  mask := roundUpPow2 capacity - 1
  cells i := if i < (roundUpPow2 capacity).toNat then ⟨UInt64.ofNat i, blank⟩ else memory i

def slot (q : MpmcQueue P T) (pos : UInt64) : ℕ := (pos &&& q.mask).toNat

def difference (seq pos : UInt64) : Int64 := seq.toInt64 - pos.toInt64

def goTo (q : MpmcQueue P T) (p : P) (point : ThreadPoint T) : MpmcQueue P T :=
  { q with points := Function.update q.points p point }

def setCell (q : MpmcQueue P T) (pos : UInt64) (cell : Cell T) : MpmcQueue P T :=
  { q with cells := Function.update q.cells (q.slot pos) cell }

def advance (q : MpmcQueue P T) (p : P) (spurious : Bool) : MpmcQueue P T :=
  match q.points p with
  | .idle _ => q
  | .loading value pos =>
    let diff := difference (q.cells (q.slot pos)).sequence pos
    if diff = 0 then q.goTo p (.claiming value pos)
    else if diff < 0 then q.goTo p (.idle (some false))
    else q.goTo p (.reloading value)
  | .reloading value => q.goTo p (.loading value q.enqueuePos)
  | .claiming value pos =>
    if q.enqueuePos = pos ∧ spurious = false then
      { q.goTo p (.writing value pos) with enqueuePos := pos + 1, claims := q.claims ++ [(pos, value)] }
    else q.goTo p (.loading value q.enqueuePos)
  | .writing value pos =>
    (q.setCell pos { q.cells (q.slot pos) with data := value }).goTo p (.publishing pos)
  | .publishing pos =>
    { (q.setCell pos { q.cells (q.slot pos) with sequence := pos + 1 }).goTo p (.idle (some true)) with
      published := q.published ++ [pos] }
  | .popLoading pos =>
    let diff := difference (q.cells (q.slot pos)).sequence (pos + 1)
    if diff = 0 then q.goTo p (.popClaiming pos)
    else if diff < 0 then q.goTo p (.idle (some false))
    else q.goTo p .popReloading
  | .popReloading => q.goTo p (.popLoading q.dequeuePos)
  | .popClaiming pos =>
    if q.dequeuePos = pos ∧ spurious = false then
      { q.goTo p (.reading pos) with dequeuePos := pos + 1, takes := q.takes ++ [pos] }
    else q.goTo p (.popLoading q.dequeuePos)
  | .reading pos => q.goTo p (.releasing pos (q.cells (q.slot pos)).data)
  | .releasing pos out =>
    { (q.setCell pos { q.cells (q.slot pos) with sequence := pos + q.mask + 1 }).goTo p (.idle (some true)) with
      returned := q.returned ++ [(pos, out)] }

inductive Action (P T : Type)
  | emplace (p : P) (value : T)
  | pop (p : P)
  | advance (p : P) (spurious : Bool)

def step (q : MpmcQueue P T) : Action P T → MpmcQueue P T
  | .emplace p value =>
    match q.points p with
    | .idle _ => q.goTo p (.loading value q.enqueuePos)
    | _ => q
  | .pop p =>
    match q.points p with
    | .idle _ => q.goTo p (.popLoading q.dequeuePos)
    | _ => q
  | .advance p spurious => q.advance p spurious

abbrev run (capacity : UInt64) (blank : T) (memory : ℕ → Cell T) (actions : List (Action P T)) : MpmcQueue P T :=
  Runs.run step (construct capacity blank memory) actions

end MpmcQueue

end SystemLevel.LockFree
