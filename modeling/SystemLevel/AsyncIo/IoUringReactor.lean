import SystemLevel.AsyncIo.SubmissionQueue
import SystemLevel.Foundations.Runs

/-!
`IoUringReactor::run` between the kernel, which takes every entry it is passed and posts one completion for each, and
the clients. Contexts are named by numbers that are never used twice; 0 is `nullptr`.
-/

namespace SystemLevel.AsyncIo

structure ConnectionContext where
  fd : ℤ := -1
  type : EventType := .accept
  bytesTransferred : UInt32 := 0
  deriving DecidableEq, Repr

/-- The reactor sees only `user_data` of the operation that has completed. -/
structure Cqe where
  op : Sqe
  res : ℤ
  deriving DecidableEq, Repr

inductive Point
  | entering
  | harvesting
  | handling (left : ℕ)
  deriving DecidableEq, Repr

structure IoUringReactor where
  listenFd : ℤ
  sq : SubmissionQueue
  contexts : ℕ → Option ConnectionContext := fun _ => none
  allocated : ℕ := 0
  inFlight : List Sqe := []
  completions : List Cqe := []
  point : Point := .entering
  clients : List ℤ := []
  totalBytesEchoed : UInt64 := 0

namespace IoUringReactor

def setContext (r : IoUringReactor) (ctx : ℕ) (context : Option ConnectionContext) : IoUringReactor :=
  { r with contexts := Function.update r.contexts ctx context }

def newContext (r : IoUringReactor) (context : ConnectionContext) : IoUringReactor :=
  { r.setContext (r.allocated + 1) (some context) with allocated := r.allocated + 1 }

def acceptSqe (listenFd : ℤ) (ctx : ℕ) : Sqe := { opcode := .accept, fd := listenFd, len := 0, userData := ctx }

def readSqe (fd : ℤ) (ctx : ℕ) : Sqe := { opcode := .read, fd, len := 2048, userData := ctx }

def writeSqe (fd : ℤ) (ctx : ℕ) (len : UInt32) : Sqe := { opcode := .write, fd, len, userData := ctx }

/-- Where `get_sqe` finds no entry nothing is changed, not even the context. -/
def submitSqe (r : IoUringReactor) (sqe : Sqe) (prepared : IoUringReactor) : IoUringReactor :=
  match r.sq.submit sqe with
  | none => r
  | some sq => { prepared with sq }

def submitAccept (r : IoUringReactor) : IoUringReactor :=
  r.submitSqe (acceptSqe r.listenFd (r.allocated + 1)) (r.newContext { fd := r.listenFd, type := .accept })

def submitRead (r : IoUringReactor) (ctx : ℕ) (context : ConnectionContext) : IoUringReactor :=
  r.submitSqe (readSqe context.fd ctx) (r.setContext ctx (some { context with type := .read }))

def submitWrite (r : IoUringReactor) (ctx : ℕ) (context : ConnectionContext) (len : UInt32) : IoUringReactor :=
  r.submitSqe (writeSqe context.fd ctx len)
    (r.setContext ctx (some { context with type := .write, bytesTransferred := len }))

def acceptClient (r : IoUringReactor) (fd : ℤ) : IoUringReactor :=
  let client : ConnectionContext := { fd }
  { (r.newContext client).submitRead (r.allocated + 1) client with clients := r.clients ++ [fd] }

def closeClient (r : IoUringReactor) (ctx : ℕ) (context : ConnectionContext) : IoUringReactor :=
  { r.setContext ctx none with clients := r.clients.erase context.fd }

def handleCompletion (r : IoUringReactor) (ctx : ℕ) (res : ℤ) : IoUringReactor :=
  match r.contexts ctx with
  | none => r
  | some context =>
    match context.type with
    | .accept => ((if 0 ≤ res then r.acceptClient res else r).submitAccept).setContext ctx none
    | .read =>
      if 0 < res then
        { r with totalBytesEchoed := r.totalBytesEchoed + UInt64.ofInt res }.submitWrite ctx context (UInt32.ofInt res)
      else r.closeClient ctx context
    | .write => if 0 < res then r.submitRead ctx context else r.closeClient ctx context

inductive Action
  | enter
  | harvest
  | handle
  | post (index : ℕ) (res : ℤ)
  deriving DecidableEq, Repr

def enter (r : IoUringReactor) : IoUringReactor :=
  match r.point with
  | .entering => { r with sq := r.sq.enter.2, inFlight := r.inFlight ++ r.sq.enter.1, point := .harvesting }
  | _ => r

/-- How many completions this pass handles is settled here; those posted later wait for the next one. -/
def harvest (r : IoUringReactor) : IoUringReactor :=
  match r.point with
  | .harvesting =>
    { r with point := if r.completions.length = 0 then .entering else .handling r.completions.length }
  | _ => r

def handle (r : IoUringReactor) : IoUringReactor :=
  match r.point, r.completions with
  | .handling left, cqe :: completions =>
    { r.handleCompletion cqe.op.userData cqe.res with
      completions
      point := if left = 1 then .entering else .handling (left - 1) }
  | _, _ => r

def post (r : IoUringReactor) (index : ℕ) (res : ℤ) : IoUringReactor :=
  match r.inFlight[index]? with
  | none => r
  | some op =>
    { r with inFlight := r.inFlight.eraseIdx index, completions := r.completions ++ [{ op, res }] }

def step (r : IoUringReactor) : Action → IoUringReactor
  | .enter => r.enter
  | .harvest => r.harvest
  | .handle => r.handle
  | .post index res => r.post index res

def init (listenFd : ℤ) (sqes : UInt32 → Sqe) (sqArray : UInt32 → UInt32) : IoUringReactor :=
  ({ listenFd, sq := { sqes, sqArray } } : IoUringReactor).submitAccept

abbrev run (listenFd : ℤ) (sqes : UInt32 → Sqe) (sqArray : UInt32 → UInt32) (actions : List Action) : IoUringReactor :=
  Runs.run step (init listenFd sqes sqArray) actions

/-- The file descriptor of a new connection is not one that is open. -/
def Possible (r : IoUringReactor) : Action → Prop
  | .post index res =>
    ∀ op ∈ r.inFlight[index]?, op.opcode = .accept → 0 ≤ res →
      res ∉ r.clients ∧ ∀ cqe ∈ r.completions, cqe.op.opcode = .accept → cqe.res ≠ res
  | _ => True

instance decidablePossible (r : IoUringReactor) : ∀ action, Decidable (r.Possible action)
  | .post index res =>
    inferInstanceAs (Decidable (∀ op ∈ r.inFlight[index]?, op.opcode = .accept → 0 ≤ res →
      res ∉ r.clients ∧ ∀ cqe ∈ r.completions, cqe.op.opcode = .accept → cqe.res ≠ res))
  | .enter | .harvest | .handle => inferInstanceAs (Decidable True)

def outstanding (r : IoUringReactor) : List Sqe :=
  r.sq.queued ++ r.inFlight ++ r.completions.map Cqe.op

def Transfers (op : Sqe) (fd : ℤ) : Prop := op.opcode ≠ .accept ∧ op.fd = fd

instance decidableTransfers (op : Sqe) (fd : ℤ) : Decidable (Transfers op fd) := inferInstanceAs (Decidable (_ ∧ _))

structure Serves (r : IoUringReactor) : Prop where
  accepts : r.outstanding.countP (fun op => decide (op.opcode = .accept)) = 1
  transfers : ∀ fd ∈ r.clients, r.outstanding.countP (fun op => decide (Transfers op fd)) = 1
  alive : ∀ op ∈ r.outstanding, ∃ context ∈ r.contexts op.userData, context.fd = op.fd ∧ context.type = op.opcode

def requests (cqe : Cqe) : ℕ :=
  match cqe.op.opcode with
  | .accept => if 0 ≤ cqe.res then 2 else 1
  | .read | .write => if 0 < cqe.res then 1 else 0

def Fits (r : IoUringReactor) : Action → Prop
  | .handle =>
    match r.point, r.completions with
    | .handling _, cqe :: _ => r.sq.count + requests cqe ≤ 512
    | _, _ => True
  | _ => True

instance decidableFits (r : IoUringReactor) : ∀ action, Decidable (r.Fits action)
  | .handle =>
    match hpoint : r.point, hcompletions : r.completions with
    | .handling _, cqe :: _ =>
      decidable_of_iff (r.sq.count + requests cqe ≤ 512) (by rw [Fits, hpoint, hcompletions])
    | .handling _, [] => .isTrue (by rw [Fits, hpoint, hcompletions]; trivial)
    | .entering, _ => .isTrue (by rw [Fits, hpoint]; trivial)
    | .harvesting, _ => .isTrue (by rw [Fits, hpoint]; trivial)
  | .enter | .harvest | .post _ _ => .isTrue trivial

end IoUringReactor

end SystemLevel.AsyncIo
