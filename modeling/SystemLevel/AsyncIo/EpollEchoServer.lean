import SystemLevel.Foundations.Runs

/-!
`EpollEchoServer::run` step by step, between the clients and a kernel that delivers edge-triggered events. A connection
is its file descriptor until it is closed; then what has become of it is kept in `closed`.
-/

namespace SystemLevel.AsyncIo

/-- A connection as the kernel has it. `ready` says that something has happened since the last event. -/
structure Socket where
  sent : List UInt8 := []
  unread : List UInt8 := []
  echoed : List UInt8 := []
  shut : Bool := false
  ready : Bool := false
  deriving DecidableEq, Repr

structure EpollEvent where
  fd : ℤ
  epollin : Bool := false
  epollrdhup : Bool := false
  epollhup : Bool := false
  epollerr : Bool := false
  deriving DecidableEq, Repr

inductive IoResult
  | count (n : ℕ)
  | again
  | failed
  deriving DecidableEq, Repr

inductive ServerPoint
  | dispatching (events : List EpollEvent)
  | accepting (events : List EpollEvent)
  | reading (fd : ℤ) (events : List EpollEvent)
  | writing (fd : ℤ) (buffer : List UInt8) (totalWritten : ℕ) (events : List EpollEvent)
  deriving DecidableEq, Repr

structure EpollEchoServer where
  listenFd : ℤ
  sockets : ℤ → Option Socket := fun _ => none
  closed : List Socket := []
  point : ServerPoint := .dispatching []
  totalBytesEchoed : UInt64 := 0
  totalConnections : UInt64 := 0

namespace Socket

def New (socket : Socket) : Prop :=
  socket.unread = socket.sent ∧ socket.echoed = [] ∧ (socket.sent ≠ [] → socket.ready = true)

instance decidableNew (socket : Socket) : Decidable socket.New := inferInstanceAs (Decidable (_ ∧ _))

def Reads (socket : Socket) : IoResult → Prop
  | .count 0 => socket.unread = [] ∧ socket.shut = true
  | .count n => n ≤ 4096 ∧ n ≤ socket.unread.length
  | .again => socket.unread = [] ∧ socket.shut = false
  | .failed => False

instance decidableReads (socket : Socket) : ∀ result, Decidable (socket.Reads result)
  | .count 0 => inferInstanceAs (Decidable (socket.unread = [] ∧ socket.shut = true))
  | .count (n + 1) => inferInstanceAs (Decidable (n + 1 ≤ 4096 ∧ n + 1 ≤ socket.unread.length))
  | .again => inferInstanceAs (Decidable (socket.unread = [] ∧ socket.shut = false))
  | .failed => inferInstanceAs (Decidable False)

end Socket

namespace EpollEchoServer

def setSocket (s : EpollEchoServer) (fd : ℤ) (socket : Socket) : EpollEchoServer :=
  { s with sockets := Function.update s.sockets fd (some socket) }

def closeClient (s : EpollEchoServer) (fd : ℤ) : EpollEchoServer :=
  match s.sockets fd with
  | none => s
  | some socket => { s with sockets := Function.update s.sockets fd none, closed := s.closed ++ [socket] }

def dispatch (s : EpollEchoServer) : EpollEchoServer :=
  match s.point with
  | .dispatching (event :: events) =>
    if event.epollerr || event.epollhup || event.epollrdhup then
      { s.closeClient event.fd with point := .dispatching events }
    else if event.fd = s.listenFd then { s with point := .accepting events }
    else if event.epollin then { s with point := .reading event.fd events }
    else { s with point := .dispatching events }
  | _ => s

def handleAccept (s : EpollEchoServer) (client : Option (ℤ × Socket)) (added : Bool) : EpollEchoServer :=
  match s.point, client with
  | .accepting _, some (fd, socket) =>
    if added then { s.setSocket fd socket with totalConnections := s.totalConnections + 1 }
    else { s with closed := s.closed ++ [socket] }
  | .accepting events, none => { s with point := .dispatching events }
  | _, _ => s

def handleRead (s : EpollEchoServer) (bytesRead : IoResult) : EpollEchoServer :=
  match s.point with
  | .reading fd events =>
    match s.sockets fd, bytesRead with
    | some socket, .count (n + 1) =>
      { s.setSocket fd { socket with unread := socket.unread.drop (n + 1) } with
        totalBytesEchoed := s.totalBytesEchoed + UInt64.ofNat (n + 1)
        point := .writing fd (socket.unread.take (n + 1)) 0 events }
    | _, .again => { s with point := .dispatching events }
    | _, _ => { s.closeClient fd with point := .dispatching events }
  | _ => s

def handleWrite (s : EpollEchoServer) (written : IoResult) : EpollEchoServer :=
  match s.point with
  | .writing fd buffer totalWritten events =>
    match s.sockets fd, written with
    | some socket, .count n =>
      { s.setSocket fd { socket with echoed := socket.echoed ++ (buffer.drop totalWritten).take n } with
        point :=
          if totalWritten + n < buffer.length then .writing fd buffer (totalWritten + n) events
          else .reading fd events }
    | _, .again => s
    | _, _ => { s.closeClient fd with point := .dispatching events }
  | _ => s

def notify (s : EpollEchoServer) (events : List EpollEvent) : ℤ → Option Socket :=
  fun fd => (s.sockets fd).map fun socket =>
    if fd ∈ events.map EpollEvent.fd then { socket with ready := false } else socket

def epollWait (s : EpollEchoServer) (events : List EpollEvent) : EpollEchoServer :=
  match s.point with
  | .dispatching [] => { s with sockets := s.notify events, point := .dispatching events }
  | _ => s

def arrive (s : EpollEchoServer) (fd : ℤ) (data : List UInt8) : EpollEchoServer :=
  match s.sockets fd with
  | none => s
  | some socket =>
    s.setSocket fd { socket with sent := socket.sent ++ data, unread := socket.unread ++ data, ready := true }

def shutdown (s : EpollEchoServer) (fd : ℤ) : EpollEchoServer :=
  match s.sockets fd with
  | none => s
  | some socket => s.setSocket fd { socket with shut := true, ready := true }

inductive Action
  | arrive (fd : ℤ) (data : List UInt8)
  | shutdown (fd : ℤ)
  | epollWait (events : List EpollEvent)
  | dispatch
  | accept (client : Option (ℤ × Socket)) (added : Bool)
  | read (bytesRead : IoResult)
  | write (written : IoResult)
  deriving DecidableEq, Repr

def step (s : EpollEchoServer) : Action → EpollEchoServer
  | .arrive fd data => s.arrive fd data
  | .shutdown fd => s.shutdown fd
  | .epollWait events => s.epollWait events
  | .dispatch => s.dispatch
  | .accept client added => s.handleAccept client added
  | .read bytesRead => s.handleRead bytesRead
  | .write written => s.handleWrite written

abbrev run (listenFd : ℤ) (actions : List Action) : EpollEchoServer := Runs.run step { listenFd } actions

def nextEvent (s : EpollEchoServer) : Option EpollEvent :=
  match s.point with
  | .dispatching (event :: _) => some event
  | _ => none

def readFrom (s : EpollEchoServer) : Option Socket :=
  match s.point with
  | .reading fd _ => s.sockets fd
  | _ => none

def unwritten (s : EpollEchoServer) : Option (List UInt8) :=
  match s.point with
  | .writing _ buffer totalWritten _ => some (buffer.drop totalWritten)
  | _ => none

def Writes (rest : List UInt8) : IoResult → Prop
  | .count n => n ≤ rest.length
  | .again => True
  | .failed => False

instance decidableWrites (rest : List UInt8) : ∀ result, Decidable (Writes rest result)
  | .count n => inferInstanceAs (Decidable (n ≤ rest.length))
  | .again => inferInstanceAs (Decidable True)
  | .failed => inferInstanceAs (Decidable False)

def Reports (s : EpollEchoServer) (event : EpollEvent) : Prop :=
  event.epollerr = false ∧ event.epollhup = false ∧
    ∀ socket ∈ s.sockets event.fd, event.epollrdhup = true → socket.shut = true

instance decidableReports (s : EpollEchoServer) (event : EpollEvent) : Decidable (s.Reports event) :=
  inferInstanceAs (Decidable (_ ∧ _))

def Possible (s : EpollEchoServer) : Action → Prop
  | .arrive fd _ => ∀ socket ∈ s.sockets fd, socket.shut = false
  | .epollWait events =>
    ∀ event ∈ events, ∀ socket ∈ s.sockets event.fd, socket.unread ≠ [] → event.epollin = true
  | .dispatch => ∀ event ∈ s.nextEvent, s.Reports event
  | .accept client _ => ∀ accepted ∈ client, s.sockets accepted.1 = none ∧ accepted.1 ≠ s.listenFd ∧ accepted.2.New
  | .read bytesRead => ∀ socket ∈ s.readFrom, socket.Reads bytesRead
  | .write written => ∀ rest ∈ s.unwritten, Writes rest written
  | .shutdown _ => True

instance decidablePossible (s : EpollEchoServer) : ∀ action, Decidable (s.Possible action)
  | .arrive fd _ => inferInstanceAs (Decidable (∀ socket ∈ s.sockets fd, socket.shut = false))
  | .epollWait events =>
    inferInstanceAs (Decidable (∀ event ∈ events, ∀ socket ∈ s.sockets event.fd,
      socket.unread ≠ [] → event.epollin = true))
  | .dispatch => inferInstanceAs (Decidable (∀ event ∈ s.nextEvent, s.Reports event))
  | .accept client _ =>
    inferInstanceAs (Decidable (∀ accepted ∈ client,
      s.sockets accepted.1 = none ∧ accepted.1 ≠ s.listenFd ∧ accepted.2.New))
  | .read bytesRead => inferInstanceAs (Decidable (∀ socket ∈ s.readFrom, socket.Reads bytesRead))
  | .write written => inferInstanceAs (Decidable (∀ rest ∈ s.unwritten, Writes rest written))
  | .shutdown _ => inferInstanceAs (Decidable True)

end EpollEchoServer

end SystemLevel.AsyncIo
