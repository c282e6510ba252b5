import SystemLevel.Foundations.Runs

/-!
`FastLogger` between any number of threads that call `log` and one that calls `flush`. Each step of a call is one of
its atomic loads and stores, or the write of its entry.
-/

namespace SystemLevel.Logging

inductive Level
  | trace
  | debug
  | info
  | warn
  | error
  | fatal
  deriving DecidableEq, Repr

def Level.value : Level → UInt8
  | .trace => 0
  | .debug => 1
  | .info => 2
  | .warn => 3
  | .error => 4
  | .fatal => 5

/-- `payload` stands for the first `length` bytes, which the arguments of the call have been formatted to. -/
structure LogMessage where
  timestampNs : UInt64 := 0
  level : Level := .info
  payload : List UInt8 := []
  deriving DecidableEq, Repr

structure Capacity where
  value : UInt64
  powerOfTwo : value &&& (value - 1) = 0

def Capacity.mask (capacity : Capacity) : UInt64 := capacity.value - 1

inductive ProducerPoint
  | idle (returned : Option Bool)
  | loadingTail (level : Level) (payload : List UInt8)
  | loadingHead (tail : UInt64) (level : Level) (payload : List UInt8)
  | writing (tail : UInt64) (level : Level) (payload : List UInt8)
  | storing (tail : UInt64) (message : LogMessage)
  deriving DecidableEq, Repr

def ProducerPoint.stores : ProducerPoint → Bool
  | .storing _ _ => true
  | _ => false

inductive FlusherPoint
  | idle (returned : Option UInt64)
  | loadingTail (head : UInt64)
  | writing (head tail flushed : UInt64)
  deriving DecidableEq, Repr

def FlusherPoint.rests : FlusherPoint → Bool
  | .idle _ => true
  | _ => false

/-- `accepted` records the messages of the calls that have returned true, in the order of their stores to the tail, and
`handed` the entries that `flush` has handed to `write_raw`. -/
structure FastLogger (threads : ℕ) where
  ring : UInt64 → LogMessage := fun _ => {}
  head : UInt64 := 0
  tail : UInt64 := 0
  droppedCount : UInt64 := 0
  minLevel : Level := .info
  producers : Fin threads → ProducerPoint := fun _ => .idle none
  flusher : FlusherPoint := .idle none
  accepted : List LogMessage := []
  handed : List LogMessage := []

namespace FastLogger

variable {threads : ℕ} (capacity : Capacity)

inductive Action (threads : ℕ)
  | setLogLevel (level : Level)
  | log (thread : Fin threads) (level : Level) (payload : List UInt8)
  | goOn (thread : Fin threads) (now : UInt64)
  | flush
  | goOnFlushing
  deriving DecidableEq, Repr

def setProducer (q : FastLogger threads) (thread : Fin threads) (point : ProducerPoint) : FastLogger threads :=
  { q with producers := Function.update q.producers thread point }

def log (q : FastLogger threads) (thread : Fin threads) (level : Level) (payload : List UInt8) : FastLogger threads :=
  match q.producers thread with
  | .idle _ =>
    q.setProducer thread
      (if level.value < q.minLevel.value then .idle (some false) else .loadingTail level payload)
  | _ => q

def goOn (q : FastLogger threads) (thread : Fin threads) (now : UInt64) : FastLogger threads :=
  match q.producers thread with
  | .idle _ => q
  | .loadingTail level payload => q.setProducer thread (.loadingHead q.tail level payload)
  | .loadingHead tail level payload =>
    if capacity.value ≤ tail - q.head then
      { q.setProducer thread (.idle (some false)) with droppedCount := q.droppedCount + 1 }
    else q.setProducer thread (.writing tail level payload)
  | .writing tail level payload =>
    let message := { timestampNs := now, level, payload }
    { q.setProducer thread (.storing tail message) with
      ring := Function.update q.ring (tail &&& capacity.mask) message }
  | .storing tail message =>
    { q.setProducer thread (.idle (some true)) with tail := tail + 1, accepted := q.accepted ++ [message] }

def flush (q : FastLogger threads) : FastLogger threads :=
  match q.flusher with
  | .idle _ => { q with flusher := .loadingTail q.head }
  | _ => q

def goOnFlushing (q : FastLogger threads) : FastLogger threads :=
  match q.flusher with
  | .idle _ => q
  | .loadingTail head => { q with flusher := .writing head q.tail 0 }
  | .writing head tail flushed =>
    if head < tail then
      { q with
        handed := q.handed ++ [q.ring (head &&& capacity.mask)]
        flusher := .writing (head + 1) tail (flushed + 1) }
    else { q with head := head, flusher := .idle (some flushed) }

def step (q : FastLogger threads) : Action threads → FastLogger threads
  | .setLogLevel level => { q with minLevel := level }
  | .log thread level payload => q.log thread level payload
  | .goOn thread now => q.goOn capacity thread now
  | .flush => q.flush
  | .goOnFlushing => q.goOnFlushing capacity

abbrev run (actions : List (Action threads)) : FastLogger threads := Runs.run (step capacity) {} actions

/-- An entry is written only while its index is still the tail, and by one call at a time. The tail does not wrap. -/
def Exclusive (q : FastLogger threads) : Action threads → Prop
  | .goOn thread _ =>
    match q.producers thread with
    | .writing tail _ _ => tail = q.tail ∧ tail + 1 ≠ 0 ∧ ∀ other, (q.producers other).stores = false
    | _ => True
  | _ => True

instance decidableExclusive (q : FastLogger threads) : ∀ action, Decidable (q.Exclusive action)
  | .goOn thread _ =>
    match h : q.producers thread with
    | .writing tail _ _ =>
      decidable_of_iff (tail = q.tail ∧ tail + 1 ≠ 0 ∧ ∀ other, (q.producers other).stores = false)
        (by rw [Exclusive, h])
    | .idle _ | .loadingTail _ _ | .loadingHead _ _ _ | .storing _ _ => .isTrue (by rw [Exclusive, h]; trivial)
  | .setLogLevel _ | .log _ _ _ | .flush | .goOnFlushing => .isTrue trivial

end FastLogger

end SystemLevel.Logging
