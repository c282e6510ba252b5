import SystemLevel.Foundations.Runs

namespace SystemLevel.LockFree

open Runs

inductive ProducerPoint (T : Type)
  | idle (returned : Option Bool)
  | reloading (tail : UInt64) (value : T)
  | writing (tail : UInt64) (value : T)
  | publishing (tail : UInt64) (value : T)

inductive ConsumerPoint (T : Type)
  | idle (returned : Option Bool)
  | reloading (head : UInt64)
  | reading (head : UInt64)
  | publishing (head : UInt64) (out : Option T)

/-- A queue of `2 ^ c` slots, its two threads, and what the calls that returned true have pushed and popped.
A slot without a value holds no living object. -/
structure SpscQueue (T : Type) (c : Fin 64) where
  tail : UInt64 := 0
  cachedHead : UInt64 := 0
  head : UInt64 := 0
  cachedTail : UInt64 := 0
  storage : UInt64 → Option T := fun _ => none
  producer : ProducerPoint T := .idle none
  consumer : ConsumerPoint T := .idle none
  pushed : List T := []
  popped : List (Option T) := []

namespace SpscQueue

variable {T : Type} {c : Fin 64}

def capacity (c : Fin 64) : UInt64 := UInt64.ofNat (2 ^ c.val)

def mask (c : Fin 64) : UInt64 := capacity c - 1

inductive Action (T : Type)
  | emplace (value : T)
  | produce
  | pop
  | consume

def emplace (q : SpscQueue T c) (value : T) : SpscQueue T c :=
  match q.producer with
  | .idle _ =>
    if capacity c ≤ q.tail - q.cachedHead then { q with producer := .reloading q.tail value }
    else { q with producer := .writing q.tail value }
  | _ => q

def produce (q : SpscQueue T c) : SpscQueue T c :=
  match q.producer with
  | .idle _ => q
  | .reloading tail value =>
    if capacity c ≤ tail - q.head then { q with cachedHead := q.head, producer := .idle (some false) }
    else { q with cachedHead := q.head, producer := .writing tail value }
  | .writing tail value =>
    { q with storage := Function.update q.storage (tail &&& mask c) (some value), producer := .publishing tail value }
  | .publishing tail value =>
    { q with tail := tail + 1, producer := .idle (some true), pushed := q.pushed ++ [value] }

def pop (q : SpscQueue T c) : SpscQueue T c :=
  match q.consumer with
  | .idle _ =>
    if q.head = q.cachedTail then { q with consumer := .reloading q.head }
    else { q with consumer := .reading q.head }
  | _ => q

def consume (q : SpscQueue T c) : SpscQueue T c :=
  match q.consumer with
  | .idle _ => q
  | .reloading head =>
    if head = q.tail then { q with cachedTail := q.tail, consumer := .idle (some false) }
    else { q with cachedTail := q.tail, consumer := .reading head }
  | .reading head =>
    { q with
      storage := Function.update q.storage (head &&& mask c) none
      consumer := .publishing head (q.storage (head &&& mask c)) }
  | .publishing head out =>
    { q with head := head + 1, consumer := .idle (some true), popped := q.popped ++ [out] }

def step (q : SpscQueue T c) : Action T → SpscQueue T c
  | .emplace value => q.emplace value
  | .produce => q.produce
  | .pop => q.pop
  | .consume => q.consume

abbrev run (c : Fin 64) (actions : List (Action T)) : SpscQueue T c := Runs.run step {} actions

end SpscQueue

end SystemLevel.LockFree
