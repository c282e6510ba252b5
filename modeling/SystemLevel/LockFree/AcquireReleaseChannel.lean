import SystemLevel.Foundations.Linearization
import SystemLevel.Foundations.Runs

/-!
`AcquireReleaseChannel` between one sending and one receiving thread. The fields of `data_` are not atomic: they are
written and read one by one.
-/

namespace SystemLevel.LockFree

open Linearization Runs

structure OrderData (R : Type) where
  orderId : UInt64
  price : R
  qty : UInt32
  valid : Bool

inductive Side
  | sender
  | receiver
  deriving DecidableEq

inductive SendPoint (R : Type)
  | idle
  | load (id : UInt64) (p : R) (q : UInt32)
  | writeId (id : UInt64) (p : R) (q : UInt32)
  | writePrice (id : UInt64) (p : R) (q : UInt32)
  | writeQty (id : UInt64) (p : R) (q : UInt32)
  | writeValid (id : UInt64) (p : R) (q : UInt32)
  | publish (id : UInt64) (p : R) (q : UInt32)
  | done (accepted : Bool)

inductive ReceivePoint (R : Type)
  | idle
  | load
  | readId
  | readPrice (id : UInt64)
  | readQty (id : UInt64) (price : R)
  | readValid (id : UInt64) (price : R) (qty : UInt32)
  | acknowledge (out : OrderData R)
  | done (out : Option (OrderData R))

inductive ChannelCall (R : Type)
  | trySend (id : UInt64) (p : R) (q : UInt32)
  | tryReceive

inductive ChannelAnswer (R : Type)
  | sent (accepted : Bool)
  | received (out : Option (OrderData R))

structure AcquireReleaseChannel (R : Type) where
  data : OrderData R
  hasData : Bool := false
  sender : SendPoint R := .idle
  receiver : ReceivePoint R := .idle
  events : List (Event Side (ChannelCall R) (ChannelAnswer R)) := []

namespace AcquireReleaseChannel

variable {R : Type}

inductive Action (R : Type)
  | trySend (id : UInt64) (p : R) (q : UInt32)
  | tryReceive
  | send
  | receive

section Steps

variable (c : AcquireReleaseChannel R)

def record (event : Event Side (ChannelCall R) (ChannelAnswer R)) : AcquireReleaseChannel R :=
  { c with events := c.events ++ [event] }

def send : AcquireReleaseChannel R :=
  match c.sender with
  | .idle => c
  | .load id p q =>
    if c.hasData then ({ c with sender := .done false }).record (.effected .sender (.trySend id p q) (.sent false))
    else { c with sender := .writeId id p q }
  | .writeId id p q => { c with data := { c.data with orderId := id }, sender := .writePrice id p q }
  | .writePrice id p q => { c with data := { c.data with price := p }, sender := .writeQty id p q }
  | .writeQty id p q => { c with data := { c.data with qty := q }, sender := .writeValid id p q }
  | .writeValid id p q => { c with data := { c.data with valid := true }, sender := .publish id p q }
  | .publish id p q =>
    ({ c with hasData := true, sender := .done true }).record (.effected .sender (.trySend id p q) (.sent true))
  | .done accepted => ({ c with sender := .idle }).record (.returned .sender (.sent accepted))

def receive : AcquireReleaseChannel R :=
  match c.receiver with
  | .idle => c
  | .load =>
    if c.hasData then { c with receiver := .readId }
    else ({ c with receiver := .done none }).record (.effected .receiver .tryReceive (.received none))
  | .readId => { c with receiver := .readPrice c.data.orderId }
  | .readPrice id => { c with receiver := .readQty id c.data.price }
  | .readQty id price => { c with receiver := .readValid id price c.data.qty }
  | .readValid id price qty => { c with receiver := .acknowledge ⟨id, price, qty, c.data.valid⟩ }
  | .acknowledge out =>
    ({ c with hasData := false, receiver := .done (some out) }).record
      (.effected .receiver .tryReceive (.received (some out)))
  | .done out => ({ c with receiver := .idle }).record (.returned .receiver (.received out))

def step : Action R → AcquireReleaseChannel R
  | .trySend id p q =>
    match c.sender with
    | .idle => ({ c with sender := .load id p q }).record (.invoked .sender (.trySend id p q))
    | _ => c
  | .tryReceive =>
    match c.receiver with
    | .idle => ({ c with receiver := .load }).record (.invoked .receiver .tryReceive)
    | _ => c
  | .send => c.send
  | .receive => c.receive

end Steps

abbrev run (data : OrderData R) (actions : List (Action R)) : AcquireReleaseChannel R :=
  Runs.run step { data } actions

def channelSpec (R : Type) : Spec (Option (OrderData R)) (ChannelCall R) (ChannelAnswer R) where
  init := none
  apply buffer call :=
    match call with
    | .trySend id p q => some (buffer.getD ⟨id, p, q, true⟩)
    | .tryReceive => none
  answer buffer call :=
    match call with
    | .trySend _ _ _ => .sent buffer.isNone
    | .tryReceive => .received buffer

end AcquireReleaseChannel

namespace SendPoint

variable {R : Type}

def phase : SendPoint R → Phase (ChannelCall R) (ChannelAnswer R)
  | idle => .idle
  | load id p q | writeId id p q | writePrice id p q | writeQty id p q | writeValid id p q | publish id p q =>
    .called (.trySend id p q)
  | done accepted => .answered (.sent accepted)

def writes : SendPoint R → Bool
  | writeId _ _ _ | writePrice _ _ _ | writeQty _ _ _ | writeValid _ _ _ => true
  | _ => false

def Placed (hasData : Bool) (data : OrderData R) : SendPoint R → Prop
  | writeId _ _ _ => hasData = false
  | writePrice id _ _ => hasData = false ∧ data.orderId = id
  | writeQty id p _ => hasData = false ∧ data.orderId = id ∧ data.price = p
  | writeValid id p q => hasData = false ∧ data.orderId = id ∧ data.price = p ∧ data.qty = q
  | publish id p q => hasData = false ∧ data = ⟨id, p, q, true⟩
  | _ => True

theorem Placed.of_full {data data' : OrderData R} {hasData : Bool} {point : SendPoint R} (h : point.Placed true data) :
    point.Placed hasData data' := by
  cases point with
  | writeId id p q => cases h
  | writePrice id p q => cases h.1
  | writeQty id p q => cases h.1
  | writeValid id p q => cases h.1
  | publish id p q => cases h.1
  | _ => trivial

theorem Placed.empty {data : OrderData R} {hasData : Bool} {point : SendPoint R} (h : point.Placed hasData data)
    (hwrites : point.writes = true) : hasData = false := by
  cases point with
  | writeId id p q => exact h
  | writePrice id p q => exact h.1
  | writeQty id p q => exact h.1
  | writeValid id p q => exact h.1
  | _ => cases hwrites

end SendPoint

namespace ReceivePoint

variable {R : Type}

def phase : ReceivePoint R → Phase (ChannelCall R) (ChannelAnswer R)
  | idle => .idle
  | load | readId | readPrice _ | readQty _ _ | readValid _ _ _ | acknowledge _ => .called .tryReceive
  | done out => .answered (.received out)

def reads : ReceivePoint R → Bool
  | readId | readPrice _ | readQty _ _ | readValid _ _ _ => true
  | _ => false

def Placed (hasData : Bool) (data : OrderData R) : ReceivePoint R → Prop
  | readId => hasData = true
  | readPrice id => hasData = true ∧ id = data.orderId
  | readQty id price => hasData = true ∧ id = data.orderId ∧ price = data.price
  | readValid id price qty => hasData = true ∧ id = data.orderId ∧ price = data.price ∧ qty = data.qty
  | acknowledge out => hasData = true ∧ out = data
  | _ => True

theorem Placed.of_empty {data data' : OrderData R} {hasData : Bool} {point : ReceivePoint R}
    (h : point.Placed false data) : point.Placed hasData data' := by
  cases point with
  | readId => cases h
  | readPrice id => cases h.1
  | readQty id price => cases h.1
  | readValid id price qty => cases h.1
  | acknowledge out => cases h.1
  | _ => trivial

theorem Placed.full {data : OrderData R} {hasData : Bool} {point : ReceivePoint R} (h : point.Placed hasData data)
    (hreads : point.reads = true) : hasData = true := by
  cases point with
  | readId => exact h
  | readPrice id => exact h.1
  | readQty id price => exact h.1
  | readValid id price qty => exact h.1
  | _ => cases hreads

end ReceivePoint

namespace AcquireReleaseChannel

variable {R : Type} {c : AcquireReleaseChannel R} {buffer : Option (OrderData R)}

def phases (c : AcquireReleaseChannel R) : Side → Phase (ChannelCall R) (ChannelAnswer R)
  | .sender => c.sender.phase
  | .receiver => c.receiver.phase

structure Inv (c : AcquireReleaseChannel R) (buffer : Option (OrderData R)) : Prop where
  linear : Linearized (channelSpec R) c.events buffer c.phases
  flag : c.hasData = buffer.isSome
  stored : ∀ d, buffer = some d → c.data = d
  sending : c.sender.Placed c.hasData c.data
  receiving : c.receiver.Placed c.hasData c.data

namespace Inv

theorem buffer_eq_none (h : c.Inv buffer) (hempty : c.hasData = false) : buffer = none := by
  rw [h.flag] at hempty
  exact Option.isSome_eq_false_iff.mp hempty |> Option.isNone_iff_eq_none.mp

theorem buffer_eq_some (h : c.Inv buffer) (hfull : c.hasData = true) : buffer = some c.data := by
  rw [h.flag] at hfull
  obtain ⟨d, hd⟩ := Option.isSome_iff_exists.mp hfull
  rw [hd, h.stored d hd]

section Sides

variable {c' : AcquireReleaseChannel R} {call : ChannelCall R} {answer : ChannelAnswer R}

theorem phases_receiver (hreceiver : c'.receiver = c.receiver) (side : Side) (hside : side ≠ .sender) :
    c'.phases side = c.phases side := by
  cases side with
  | sender => exact absurd rfl hside
  | receiver => exact congrArg ReceivePoint.phase hreceiver

theorem phases_sender (hsender : c'.sender = c.sender) (side : Side) (hside : side ≠ .receiver) :
    c'.phases side = c.phases side := by
  cases side with
  | receiver => exact absurd rfl hside
  | sender => exact congrArg SendPoint.phase hsender

variable (c' : AcquireReleaseChannel R) (h : Linearized (channelSpec R) c.events buffer c.phases)

include h

theorem sender_invoke (hp : c.sender.phase = .idle) (hphase : c'.sender.phase = .called call)
    (hreceiver : c'.receiver = c.receiver) :
    Linearized (channelSpec R) (c.events ++ [Event.invoked .sender call]) buffer c'.phases :=
  h.invoke hp hphase (phases_receiver hreceiver)

theorem sender_effect (hp : c.sender.phase = .called call)
    (hphase : c'.sender.phase = .answered ((channelSpec R).answer buffer call)) (hreceiver : c'.receiver = c.receiver) :
    Linearized (channelSpec R) (c.events ++ [Event.effected .sender call ((channelSpec R).answer buffer call)])
      ((channelSpec R).apply buffer call) c'.phases :=
  h.effect hp hphase (phases_receiver hreceiver)

theorem sender_finish (hp : c.sender.phase = .answered answer) (hphase : c'.sender.phase = .idle)
    (hreceiver : c'.receiver = c.receiver) :
    Linearized (channelSpec R) (c.events ++ [Event.returned .sender answer]) buffer c'.phases :=
  h.finish hp hphase (phases_receiver hreceiver)

theorem receiver_invoke (hp : c.receiver.phase = .idle) (hphase : c'.receiver.phase = .called call)
    (hsender : c'.sender = c.sender) :
    Linearized (channelSpec R) (c.events ++ [Event.invoked .receiver call]) buffer c'.phases :=
  h.invoke hp hphase (phases_sender hsender)

theorem receiver_effect (hp : c.receiver.phase = .called call)
    (hphase : c'.receiver.phase = .answered ((channelSpec R).answer buffer call)) (hsender : c'.sender = c.sender) :
    Linearized (channelSpec R) (c.events ++ [Event.effected .receiver call ((channelSpec R).answer buffer call)])
      ((channelSpec R).apply buffer call) c'.phases :=
  h.effect hp hphase (phases_sender hsender)

theorem receiver_finish (hp : c.receiver.phase = .answered answer) (hphase : c'.receiver.phase = .idle)
    (hsender : c'.sender = c.sender) :
    Linearized (channelSpec R) (c.events ++ [Event.returned .receiver answer]) buffer c'.phases :=
  h.finish hp hphase (phases_sender hsender)

end Sides

theorem write (h : c.Inv buffer) (hempty : c.hasData = false) {data : OrderData R} {point : SendPoint R}
    (hphase : point.phase = c.sender.phase) (hplaced : point.Placed c.hasData data) :
    Inv { c with data, sender := point } buffer := by
  refine ⟨h.linear.congr fun side => ?_, h.flag, fun d hd => ?_, hplaced, ?_⟩
  · cases side with
    | sender => exact hphase
    | receiver => rfl
  · rw [h.buffer_eq_none hempty] at hd
    cases hd
  · have hreceiving := h.receiving
    rw [hempty] at hreceiving
    exact hreceiving.of_empty

theorem read (h : c.Inv buffer) {point : ReceivePoint R} (hphase : point.phase = c.receiver.phase)
    (hplaced : point.Placed c.hasData c.data) : Inv { c with receiver := point } buffer := by
  refine ⟨h.linear.congr fun side => ?_, h.flag, h.stored, h.sending, hplaced⟩
  cases side with
  | sender => rfl
  | receiver => exact hphase

theorem send (h : c.Inv buffer) : ∃ buffer', c.send.Inv buffer' := by
  have hplaced := h.sending
  unfold AcquireReleaseChannel.send
  cases hp : c.sender with
  | idle => exact ⟨buffer, h⟩
  | load id p q =>
    dsimp only
    split_ifs with hfull
    · obtain rfl := h.buffer_eq_some hfull
      have hlinear := sender_effect { c with sender := .done false } h.linear (congrArg SendPoint.phase hp) rfl rfl
      exact ⟨some c.data, hlinear, h.flag, h.stored, trivial, h.receiving⟩
    · rw [Bool.not_eq_true] at hfull
      exact ⟨buffer, h.write hfull (by rw [hp]; rfl) hfull⟩
  | writeId id p q =>
    rw [hp] at hplaced
    exact ⟨buffer, h.write hplaced (by rw [hp]; rfl) ⟨hplaced, rfl⟩⟩
  | writePrice id p q =>
    rw [hp] at hplaced
    obtain ⟨hempty, hid⟩ := hplaced
    exact ⟨buffer, h.write hempty (by rw [hp]; rfl) ⟨hempty, hid, rfl⟩⟩
  | writeQty id p q =>
    rw [hp] at hplaced
    obtain ⟨hempty, hid, hprice⟩ := hplaced
    exact ⟨buffer, h.write hempty (by rw [hp]; rfl) ⟨hempty, hid, hprice, rfl⟩⟩
  | writeValid id p q =>
    rw [hp] at hplaced
    obtain ⟨hempty, rfl, rfl, rfl⟩ := hplaced
    exact ⟨buffer, h.write hempty (by rw [hp]; rfl) ⟨hempty, rfl⟩⟩
  | publish id p q =>
    rw [hp] at hplaced
    obtain ⟨hempty, hdata⟩ := hplaced
    obtain rfl := h.buffer_eq_none hempty
    have hreceiving := h.receiving
    rw [hempty] at hreceiving
    have hlinear := sender_effect { c with sender := .done true } h.linear (congrArg SendPoint.phase hp) rfl rfl
    exact ⟨some ⟨id, p, q, true⟩, hlinear, rfl, fun d hd => hdata.trans (Option.some.inj hd), trivial,
      hreceiving.of_empty⟩
  | done accepted =>
    have hlinear := sender_finish { c with sender := .idle } h.linear (congrArg SendPoint.phase hp) rfl rfl
    exact ⟨buffer, hlinear, h.flag, h.stored, trivial, h.receiving⟩

theorem receive (h : c.Inv buffer) : ∃ buffer', c.receive.Inv buffer' := by
  have hplaced := h.receiving
  unfold AcquireReleaseChannel.receive
  cases hp : c.receiver with
  | idle => exact ⟨buffer, h⟩
  | load =>
    dsimp only
    split_ifs with hfull
    · exact ⟨buffer, h.read (by rw [hp]; rfl) hfull⟩
    · obtain rfl := h.buffer_eq_none (Bool.not_eq_true _ ▸ hfull)
      have hphase := congrArg ReceivePoint.phase hp
      have hlinear := receiver_effect { c with receiver := .done none } h.linear hphase rfl rfl
      exact ⟨none, hlinear, h.flag, h.stored, h.sending, trivial⟩
  | readId =>
    rw [hp] at hplaced
    exact ⟨buffer, h.read (by rw [hp]; rfl) ⟨hplaced, rfl⟩⟩
  | readPrice id =>
    rw [hp] at hplaced
    exact ⟨buffer, h.read (by rw [hp]; rfl) ⟨hplaced.1, hplaced.2, rfl⟩⟩
  | readQty id price =>
    rw [hp] at hplaced
    exact ⟨buffer, h.read (by rw [hp]; rfl) ⟨hplaced.1, hplaced.2.1, hplaced.2.2, rfl⟩⟩
  | readValid id price qty =>
    rw [hp] at hplaced
    obtain ⟨hfull, rfl, rfl, rfl⟩ := hplaced
    exact ⟨buffer, h.read (by rw [hp]; rfl) ⟨hfull, rfl⟩⟩
  | acknowledge out =>
    rw [hp] at hplaced
    obtain ⟨hfull, rfl⟩ := hplaced
    obtain rfl := h.buffer_eq_some hfull
    have hsending := h.sending
    rw [hfull] at hsending
    have hphase := congrArg ReceivePoint.phase hp
    have hlinear := receiver_effect { c with receiver := .done (some c.data) } h.linear hphase rfl rfl
    exact ⟨none, hlinear, rfl, fun d hd => absurd hd.symm (Option.some_ne_none d), hsending.of_full, trivial⟩
  | done out =>
    have hlinear := receiver_finish { c with receiver := .idle } h.linear (congrArg ReceivePoint.phase hp) rfl rfl
    exact ⟨buffer, hlinear, h.flag, h.stored, h.sending, trivial⟩

theorem step (h : c.Inv buffer) (action : Action R) : ∃ buffer', (c.step action).Inv buffer' := by
  cases action with
  | send => exact h.send
  | receive => exact h.receive
  | trySend id p q =>
    unfold AcquireReleaseChannel.step
    dsimp only
    split
    · next hp =>
      have hlinear := sender_invoke { c with sender := .load id p q } h.linear (congrArg SendPoint.phase hp) rfl rfl
      exact ⟨buffer, hlinear, h.flag, h.stored, trivial, h.receiving⟩
    · exact ⟨buffer, h⟩
  | tryReceive =>
    unfold AcquireReleaseChannel.step
    dsimp only
    split
    · next hp =>
      have hlinear := receiver_invoke { c with receiver := .load } h.linear (congrArg ReceivePoint.phase hp) rfl rfl
      exact ⟨buffer, hlinear, h.flag, h.stored, h.sending, trivial⟩
    · exact ⟨buffer, h⟩

end Inv

theorem channel_linearizes (data : OrderData R) (actions : List (Action R)) :
    let c := run data actions
    (∃ buffer, Linearized (channelSpec R) c.events buffer c.phases ∧ c.hasData = buffer.isSome) ∧
      ¬ (c.sender.writes = true ∧ c.receiver.reads = true) := by
  intro c
  have hinv : ∃ buffer, c.Inv buffer := by
    apply run_induct (motive := fun c : AcquireReleaseChannel R => ∃ buffer, c.Inv buffer)
    · refine ⟨none, .start fun side => ?_, rfl, fun d hd => ?_, trivial, trivial⟩
      · cases side <;> rfl
      · cases hd
    · rintro c action ⟨buffer, h⟩
      exact h.step action
  obtain ⟨buffer, h⟩ := hinv
  refine ⟨⟨buffer, h.linear, h.flag⟩, ?_⟩
  rintro ⟨hwrites, hreads⟩
  exact Bool.false_ne_true ((h.sending.empty hwrites).symm.trans (h.receiving.full hreads))

end AcquireReleaseChannel

end SystemLevel.LockFree
