import SystemLevel.Foundations.IndexRings
import SystemLevel.AsyncIo.IoUringReactor

/-!
The completion queue as it is shared with the kernel: a ring between `*cq_head_` and `*cq_tail_`, from which `run`
takes the completions of a pass before it gives their cells back. A completion that finds the ring full, or others
waiting before it, waits in a list of the kernel.
-/

namespace SystemLevel.AsyncIo

open IndexRings

inductive RingPoint
  | entering
  | harvesting
  | handling (head tail : UInt32)
  | storing (head : UInt32)
  deriving DecidableEq, Repr

/-- `completions` and `point` of the reactor are not used: the ring and the point stand in their place. `posted` and
`handled` are histories that the source does not keep. -/
structure RingReactor where
  reactor : IoUringReactor
  cqes : UInt32 → Cqe
  cqHead : UInt32 := 0
  cqTail : UInt32 := 0
  point : RingPoint := .entering
  overflow : List Cqe := []
  posted : List Cqe := []
  handled : List Cqe := []

namespace RingReactor

/-- The kernel makes the completion ring twice as large as the submission ring. -/
def cqEntries : UInt32 := 1024

def cqMask : UInt32 := 1023

inductive Action
  | enter
  | harvest
  | handle
  | store
  | post (index : ℕ) (res : ℤ)
  | flushOverflow
  deriving DecidableEq, Repr

def enter (r : RingReactor) : RingReactor :=
  match r.point with
  | .entering =>
    { r with
      reactor := { r.reactor with sq := r.reactor.sq.enter.2, inFlight := r.reactor.inFlight ++ r.reactor.sq.enter.1 }
      point := .harvesting }
  | _ => r

def harvest (r : RingReactor) : RingReactor :=
  match r.point with
  | .harvesting => { r with point := if r.cqHead = r.cqTail then .entering else .handling r.cqHead r.cqTail }
  | _ => r

def answer (reactor : IoUringReactor) (cqe : Cqe) : IoUringReactor :=
  if cqe.op.userData = 0 then reactor else reactor.handleCompletion cqe.op.userData cqe.res

def handle (r : RingReactor) : RingReactor :=
  match r.point with
  | .handling head tail =>
    let cqe := r.cqes (head &&& cqMask)
    { r with
      reactor := answer r.reactor cqe
      handled := r.handled ++ [cqe]
      point := if head + 1 = tail then .storing (head + 1) else .handling (head + 1) tail }
  | _ => r

def store (r : RingReactor) : RingReactor :=
  match r.point with
  | .storing head => { r with cqHead := head, point := .entering }
  | _ => r

def place (r : RingReactor) (cqe : Cqe) : RingReactor :=
  { r with cqes := Function.update r.cqes (r.cqTail &&& cqMask) cqe, cqTail := r.cqTail + 1 }

def post (r : RingReactor) (index : ℕ) (res : ℤ) : RingReactor :=
  match r.reactor.inFlight[index]? with
  | none => r
  | some op =>
    let cqe : Cqe := { op, res }
    let r := { r with
      reactor := { r.reactor with inFlight := r.reactor.inFlight.eraseIdx index }
      posted := r.posted ++ [cqe] }
    if r.overflow = [] ∧ r.cqTail - r.cqHead < cqEntries then r.place cqe
    else { r with overflow := r.overflow ++ [cqe] }

def flushOverflow (r : RingReactor) : RingReactor :=
  match r.overflow with
  | [] => r
  | cqe :: overflow => if r.cqTail - r.cqHead < cqEntries then { r.place cqe with overflow } else r

def step (r : RingReactor) : Action → RingReactor
  | .enter => r.enter
  | .harvest => r.harvest
  | .handle => r.handle
  | .store => r.store
  | .post index res => r.post index res
  | .flushOverflow => r.flushOverflow

def init (listenFd : ℤ) (sqes : UInt32 → Sqe) (sqArray : UInt32 → UInt32) (cqes : UInt32 → Cqe) : RingReactor :=
  { reactor := IoUringReactor.init listenFd sqes sqArray, cqes }

abbrev run (listenFd : ℤ) (sqes : UInt32 → Sqe) (sqArray : UInt32 → UInt32) (cqes : UInt32 → Cqe)
    (actions : List Action) : RingReactor :=
  Runs.run step (init listenFd sqes sqArray cqes) actions

def position (r : RingReactor) : UInt32 :=
  match r.point with
  | .handling head _ => head
  | .storing head => head
  | _ => r.cqHead

def unhandled (r : RingReactor) : List Cqe := occupied r.cqes 10 r.position r.cqTail

end RingReactor

def RingPoint.point : RingPoint → Point
  | .entering => .entering
  | .harvesting => .harvesting
  | .handling head tail => .handling (tail - head).toNat
  | .storing _ => .entering

namespace RingReactor

def Refines (r : RingReactor) (reactor : IoUringReactor) : Prop :=
  ∃ inFlight, inFlight.Perm (r.reactor.inFlight ++ r.overflow.map Cqe.op) ∧
    reactor = { r.reactor with inFlight, completions := r.unhandled, point := r.point.point }

structure Laid (r : RingReactor) (placed : List Cqe) (start : ℕ) : Prop where
  posted : r.posted = placed ++ r.overflow
  handled : r.handled <+: placed
  stores : Stores r.cqes 10 placed start
  tail : r.cqTail = UInt32.ofNat placed.length
  head : r.cqHead = UInt32.ofNat start
  position : r.position = UInt32.ofNat r.handled.length
  start_le : start ≤ r.handled.length
  point : match r.point with
    | .handling _ tail => ∃ n, tail = UInt32.ofNat n ∧ r.handled.length < n ∧ n ≤ placed.length
    | .storing _ => True
    | _ => start = r.handled.length
  null : r.reactor.contexts 0 = none

variable {r : RingReactor} {placed : List Cqe} {start : ℕ}

theorem Laid.unhandled_eq (h : r.Laid placed start) : r.unhandled = placed.drop r.handled.length := by
  rw [unhandled, h.position, h.tail]
  exact h.stores.occupied_eq (by decide) h.start_le h.handled.length_le

theorem Laid.room_iff (h : r.Laid placed start) : r.cqTail - r.cqHead < cqEntries ↔ placed.length < start + 2 ^ 10 := by
  rw [h.tail, h.head]
  exact h.stores.room_iff (by decide) (h.start_le.trans h.handled.length_le)

end RingReactor

namespace IoUringReactor

variable (r : IoUringReactor) (inFlight : List Sqe) (completions : List Cqe) (point : Point)

theorem submitSqe_relist (sqe : Sqe) (prepared : IoUringReactor) :
    ({ r with inFlight, completions, point } : IoUringReactor).submitSqe sqe
        { prepared with inFlight, completions, point } =
      { r.submitSqe sqe prepared with inFlight, completions, point } := by
  unfold submitSqe
  cases r.sq.submit sqe <;> rfl

theorem submitAccept_relist : ({ r with inFlight, completions, point } : IoUringReactor).submitAccept =
    { r.submitAccept with inFlight, completions, point } :=
  submitSqe_relist r inFlight completions point (acceptSqe r.listenFd (r.allocated + 1))
    (r.newContext { fd := r.listenFd, type := .accept })

theorem acceptClient_relist (fd : ℤ) : ({ r with inFlight, completions, point } : IoUringReactor).acceptClient fd =
    { r.acceptClient fd with inFlight, completions, point } := by
  have hread := submitSqe_relist (r.newContext { fd }) inFlight completions point (readSqe fd (r.allocated + 1))
    ((r.newContext { fd }).setContext (r.allocated + 1) (some { fd, type := .read }))
  unfold acceptClient
  exact congrArg (fun r' : IoUringReactor => { r' with clients := r.clients ++ [fd] }) hread

theorem handleCompletion_relist (ctx : ℕ) (res : ℤ) :
    ({ r with inFlight, completions, point } : IoUringReactor).handleCompletion ctx res =
      { r.handleCompletion ctx res with inFlight, completions, point } := by
  unfold handleCompletion
  dsimp only
  cases r.contexts ctx with
  | none => rfl
  | some context =>
    dsimp only
    cases context.type with
    | accept =>
      dsimp only
      split_ifs
      · rw [acceptClient_relist, submitAccept_relist]
        rfl
      · rw [submitAccept_relist]
        rfl
    | read =>
      dsimp only
      split_ifs
      · exact submitSqe_relist { r with totalBytesEchoed := r.totalBytesEchoed + UInt64.ofInt res } inFlight
          completions point (writeSqe context.fd ctx (UInt32.ofInt res))
          ({ r with totalBytesEchoed := r.totalBytesEchoed + UInt64.ofInt res }.setContext ctx
            (some { context with type := .write, bytesTransferred := UInt32.ofInt res }))
      · rfl
    | write =>
      dsimp only
      split_ifs
      · exact submitSqe_relist r inFlight completions point (readSqe context.fd ctx)
          (r.setContext ctx (some { context with type := .read }))
      · rfl

section Null

variable {r} {ctx : ℕ} (h : r.contexts 0 = none)

include h

theorem setContext_null (hctx : ctx ≠ 0) (context : Option ConnectionContext) :
    (r.setContext ctx context).contexts 0 = none := by
  change Function.update r.contexts ctx context 0 = none
  rw [Function.update_of_ne hctx.symm]
  exact h

theorem newContext_null (context : ConnectionContext) : (r.newContext context).contexts 0 = none :=
  setContext_null h (Nat.succ_ne_zero r.allocated) (some context)

theorem submitSqe_null {prepared : IoUringReactor} (hprepared : prepared.contexts 0 = none) (sqe : Sqe) :
    (r.submitSqe sqe prepared).contexts 0 = none := by
  unfold submitSqe
  cases r.sq.submit sqe with
  | none => exact h
  | some sq => exact hprepared

theorem submitAccept_null : r.submitAccept.contexts 0 = none := submitSqe_null h (newContext_null h _) _

theorem acceptClient_null (fd : ℤ) : (r.acceptClient fd).contexts 0 = none := by
  have hnew := newContext_null h { fd }
  exact submitSqe_null hnew (setContext_null hnew (Nat.succ_ne_zero r.allocated) _) _

theorem handleCompletion_null (hctx : ctx ≠ 0) (res : ℤ) : (r.handleCompletion ctx res).contexts 0 = none := by
  unfold handleCompletion
  cases r.contexts ctx with
  | none => exact h
  | some context =>
    dsimp only
    cases context.type with
    | accept =>
      dsimp only
      split_ifs
      · exact setContext_null (submitAccept_null (acceptClient_null h res)) hctx none
      · exact setContext_null (submitAccept_null h) hctx none
    | read =>
      dsimp only
      split_ifs
      · apply @submitSqe_null { r with totalBytesEchoed := r.totalBytesEchoed + UInt64.ofInt res } h
        exact setContext_null h hctx _
      · exact setContext_null h hctx none
    | write =>
      dsimp only
      split_ifs
      · exact submitSqe_null h (setContext_null h hctx _) _
      · exact setContext_null h hctx none

end Null

theorem init_null (listenFd : ℤ) (sqes : UInt32 → Sqe) (sqArray : UInt32 → UInt32) :
    (init listenFd sqes sqArray).contexts 0 = none :=
  submitAccept_null rfl

end IoUringReactor

namespace RingReactor

variable {r r' : RingReactor} {placed : List Cqe} {start : ℕ} {reactor : IoUringReactor}

theorem answer_null (h : reactor.contexts 0 = none) (cqe : Cqe) : (answer reactor cqe).contexts 0 = none := by
  unfold answer
  split_ifs with hnull
  · exact h
  · exact IoUringReactor.handleCompletion_null h hnull cqe.res

theorem answer_relist (h : reactor.contexts 0 = none) (inFlight : List Sqe) (completions : List Cqe) (point : Point)
    (cqe : Cqe) :
    ({ reactor with inFlight, completions, point } : IoUringReactor).handleCompletion cqe.op.userData cqe.res =
      { answer reactor cqe with inFlight, completions, point } := by
  rw [IoUringReactor.handleCompletion_relist]
  unfold answer
  split_ifs with hnull
  · have hsame : reactor.handleCompletion cqe.op.userData cqe.res = reactor := by
      rw [hnull, IoUringReactor.handleCompletion, h]
    rw [hsame]
  · rfl

theorem answer_inFlight (reactor : IoUringReactor) (cqe : Cqe) : (answer reactor cqe).inFlight = reactor.inFlight := by
  unfold answer
  split_ifs
  · rfl
  · have hsame := reactor.handleCompletion_relist reactor.inFlight reactor.completions reactor.point cqe.op.userData
      cqe.res
    have hlists := congrArg (fun reactor' : IoUringReactor => reactor'.inFlight) hsame
    exact hlists

theorem taken {waiting others : List Sqe} {op : Sqe} (h : waiting.Perm (op :: others)) :
    ∃ index, waiting[index]? = some op ∧ (waiting.eraseIdx index).Perm others := by
  obtain ⟨index, hlt, hop⟩ := List.getElem_of_mem (h.mem_iff.mpr List.mem_cons_self)
  refine ⟨index, List.getElem?_eq_some_iff.mpr ⟨hlt, hop⟩, ?_⟩
  apply List.Perm.cons_inv (a := op)
  rw [← hop]
  exact (List.getElem_cons_eraseIdx_perm hlt).trans (hop ▸ h)

structure Goes (r r' : RingReactor) : Prop where
  laid : ∃ placed start, r'.Laid placed start
  refines : ∀ reactor, r.Refines reactor → ∃ actions, r'.Refines (Runs.run IoUringReactor.step reactor actions)

theorem Goes.stays (h : r.Laid placed start) : r.Goes r :=
  ⟨⟨placed, start, h⟩, fun _ hreactor => ⟨[], hreactor⟩⟩

namespace Laid

theorem enter (h : r.Laid placed start) : r.Goes r.enter := by
  unfold RingReactor.enter
  cases hpoint : r.point with
  | entering =>
    have hpos := h.position
    have hstart := h.point
    rw [hpoint] at hstart
    rw [RingReactor.position, hpoint] at hpos
    refine ⟨⟨placed, start, { h with position := hpos, point := hstart }⟩, ?_⟩
    rintro reactor ⟨inFlight, hperm, rfl⟩
    refine ⟨[.enter], inFlight ++ r.reactor.sq.enter.1, ?_, ?_⟩
    · refine (hperm.append_right _).trans ?_
      rw [List.append_assoc, List.append_assoc]
      exact List.perm_append_comm.append_left _
    · simp only [Runs.run, List.foldl_cons, List.foldl_nil, IoUringReactor.step, IoUringReactor.enter, hpoint,
        RingPoint.point, RingReactor.unhandled, RingReactor.position]
  | _ => exact Goes.stays h

theorem harvest (h : r.Laid placed start) : r.Goes r.harvest := by
  unfold RingReactor.harvest
  cases hpoint : r.point with
  | harvesting =>
    have hstart : start = r.handled.length := by
      have hstart := h.point
      rwa [hpoint] at hstart
    have hhead : r.cqHead = UInt32.ofNat r.handled.length := hstart ▸ h.head
    have hlength := h.stores.length_le
    have hle := h.handled.length_le
    have hunhandled := h.unhandled_eq
    have hcount : (r.cqTail - r.cqHead).toNat = placed.length - r.handled.length := by
      rw [h.tail, hhead, toNat_sub hle (by omega)]
    have hsame : r.cqHead = r.cqTail ↔ r.unhandled.length = 0 := by
      rw [hhead, h.tail, ofNat_inj hle (by omega), hunhandled, List.length_drop]
      omega
    have hposition : occupied r.cqes 10 r.cqHead r.cqTail = r.unhandled := by
      rw [RingReactor.unhandled, RingReactor.position, hpoint]
    constructor
    · refine ⟨placed, start, { h with position := ?_, point := ?_ }⟩
      · dsimp only [RingReactor.position]
        split_ifs
        · exact hhead
        · exact hhead
      · dsimp only
        split_ifs with hempty
        · exact hstart
        · refine ⟨placed.length, h.tail, ?_, le_rfl⟩
          rw [hsame, hunhandled, List.length_drop] at hempty
          omega
    · rintro reactor ⟨inFlight, hperm, rfl⟩
      refine ⟨[.harvest], inFlight, hperm, ?_⟩
      simp only [Runs.run, List.foldl_cons, List.foldl_nil, IoUringReactor.step, IoUringReactor.harvest, hpoint,
        RingPoint.point]
      by_cases hempty : r.cqHead = r.cqTail
      · rw [if_pos hempty, if_pos (hsame.mp hempty)]
        simp only [RingReactor.unhandled, RingReactor.position, hpoint]
      · rw [if_neg hempty, if_neg (hsame.not.mp hempty)]
        simp only [RingReactor.unhandled, RingReactor.position, hpoint]
        rw [hcount, hposition, hunhandled, List.length_drop]
  | _ => exact Goes.stays h

theorem store (h : r.Laid placed start) : r.Goes r.store := by
  unfold RingReactor.store
  cases hpoint : r.point with
  | storing head =>
    have hhead : head = UInt32.ofNat r.handled.length := by
      have hpos := h.position
      rwa [RingReactor.position, hpoint] at hpos
    constructor
    · exact ⟨placed, r.handled.length,
        { h with
          stores := h.stores.release h.start_le
          head := hhead
          position := hhead
          start_le := le_rfl
          point := rfl }⟩
    · rintro reactor ⟨inFlight, hperm, rfl⟩
      refine ⟨[], inFlight, hperm, ?_⟩
      simp only [Runs.run, List.foldl_nil, RingReactor.unhandled, RingReactor.position, hpoint, RingPoint.point]
  | _ => exact Goes.stays h

theorem next (h : r.Laid placed start) {head tail : UInt32} (hpoint : r.point = .handling head tail) :
    ∃ n cqe, r.cqes (head &&& cqMask) = cqe ∧ placed[r.handled.length]? = some cqe ∧
      r.handled.length < n ∧ n ≤ placed.length ∧ head + 1 = UInt32.ofNat (r.handled.length + 1) ∧
      tail = UInt32.ofNat n ∧ (head + 1 = tail ↔ r.handled.length + 1 = n) ∧
      (tail - head).toNat = n - r.handled.length ∧ (tail - (head + 1)).toNat = n - (r.handled.length + 1) := by
  have hhead : head = UInt32.ofNat r.handled.length := by
    have hpos := h.position
    rwa [RingReactor.position, hpoint] at hpos
  obtain ⟨n, htail, hlt, hle⟩ : ∃ n, tail = UInt32.ofNat n ∧ r.handled.length < n ∧ n ≤ placed.length := by
    have hbatch := h.point
    rwa [hpoint] at hbatch
  have hlength := h.stores.length_le
  have hstart := h.start_le
  have hnext : head + 1 = UInt32.ofNat (r.handled.length + 1) := by
    rw [hhead, UInt32.ofNat_add]
    rfl
  have hget := List.getElem?_eq_getElem (hlt.trans_le hle)
  refine ⟨n, _, hhead ▸ h.stores.cell _ _ hstart hget, hget, hlt, hle, hnext, htail, ?_, ?_, ?_⟩
  · rw [hnext, htail]
    exact ofNat_inj hlt (by omega)
  · rw [hhead, htail, toNat_sub hlt.le (by omega)]
  · rw [hnext, htail, toNat_sub hlt (by omega)]

theorem answered (h : r.Laid placed start) {head tail : UInt32} {cqe : Cqe} {n : ℕ}
    (hget : placed[r.handled.length]? = some cqe) (hlt : r.handled.length < n) (hle : n ≤ placed.length)
    (hnext : head + 1 = UInt32.ofNat (r.handled.length + 1)) (htail : tail = UInt32.ofNat n)
    (hlast : head + 1 = tail ↔ r.handled.length + 1 = n) :
    Laid
      { r with
        reactor := answer r.reactor cqe
        handled := r.handled ++ [cqe]
        point := if head + 1 = tail then .storing (head + 1) else .handling (head + 1) tail } placed start := by
  refine { h with handled := ?_, position := ?_, start_le := ?_, point := ?_, null := answer_null h.null cqe }
  · have hinitial : r.handled ++ [cqe] = placed.take (r.handled.length + 1) := by
      rw [List.take_add_one, hget, ← List.prefix_iff_eq_take.mp h.handled]
      rfl
    rw [hinitial]
    exact List.take_prefix _ _
  · rw [List.length_append, List.length_singleton, ← hnext]
    dsimp only [RingReactor.position]
    by_cases hend : head + 1 = tail
    · rw [if_pos hend]
    · rw [if_neg hend]
  · rw [List.length_append]
    exact h.start_le.trans (Nat.le_add_right _ _)
  · dsimp only
    by_cases hend : head + 1 = tail
    · rw [if_pos hend]
      trivial
    · rw [if_neg hend]
      refine ⟨n, htail, ?_, hle⟩
      rw [List.length_append, List.length_singleton]
      rw [hlast] at hend
      omega

theorem handle (h : r.Laid placed start) : r.Goes r.handle := by
  unfold RingReactor.handle
  cases hpoint : r.point with
  | handling head tail =>
    obtain ⟨n, cqe, hcqe, hget, hlt, hle, hnext, htail, hlast, hleft, hleft'⟩ := h.next hpoint
    obtain ⟨hindex, hget'⟩ := List.getElem?_eq_some_iff.mp hget
    have hdrop : r.unhandled = cqe :: placed.drop (r.handled.length + 1) := by
      rw [h.unhandled_eq, List.drop_eq_getElem_cons hindex, hget']
    dsimp only
    rw [hcqe]
    have hlaid := h.answered hget hlt hle hnext htail hlast
    have hunhandled := hlaid.unhandled_eq
    dsimp only at hunhandled
    rw [List.length_append, List.length_singleton] at hunhandled
    refine ⟨⟨placed, start, hlaid⟩, ?_⟩
    rintro reactor ⟨inFlight, hperm, rfl⟩
    refine ⟨[.handle], inFlight, ?_, ?_⟩
    · rw [answer_inFlight]
      exact hperm
    · simp only [Runs.run, List.foldl_cons, List.foldl_nil, IoUringReactor.step, IoUringReactor.handle, hpoint,
        RingPoint.point, hdrop, hunhandled]
      rw [answer_relist h.null]
      dsimp only
      by_cases hend : head + 1 = tail
      · have hone : (tail - head).toNat = 1 := by
          have := hlast.mp hend
          omega
        rw [if_pos hend, if_pos hone]
      · have hmore : (tail - head).toNat ≠ 1 := by
          have := hlast.not.mp hend
          omega
        rw [if_neg hend, if_neg hmore]
        dsimp only
        rw [hleft, hleft', Nat.sub_sub]
  | _ => exact Goes.stays h

theorem place (h : r.Laid placed start) (cqe : Cqe) (hroom : r.cqTail - r.cqHead < cqEntries)
    (hcqes : r'.cqes = Function.update r.cqes (r.cqTail &&& cqMask) cqe) (htail : r'.cqTail = r.cqTail + 1)
    (hhead : r'.cqHead = r.cqHead) (hpoint : r'.point = r.point) (hhandled : r'.handled = r.handled)
    (hposted : r'.posted = placed ++ [cqe] ++ r'.overflow) (hcontexts : r'.reactor.contexts = r.reactor.contexts) :
    r'.Laid (placed ++ [cqe]) start ∧ r'.unhandled = r.unhandled ++ [cqe] := by
  have hposition : r'.position = r.position := by
    unfold RingReactor.position
    rw [hpoint, hhead]
  have hlaid : r'.Laid (placed ++ [cqe]) start := by
    refine ⟨hposted, ?_, ?_, ?_, hhead.trans h.head, ?_, ?_, ?_, ?_⟩
    · rw [hhandled]
      exact h.handled.trans (List.prefix_append _ _)
    · rw [hcqes, h.tail]
      exact h.stores.place (by decide) (h.room_iff.mp hroom) cqe
    · rw [htail, h.tail, List.length_append, UInt32.ofNat_add]
      rfl
    · rw [hposition, hhandled]
      exact h.position
    · rw [hhandled]
      exact h.start_le
    · rw [hpoint, hhandled]
      have hbatch := h.point
      cases hp : r.point with
      | handling head tail =>
        rw [hp] at hbatch
        obtain ⟨n, hn, hlt, hle⟩ := hbatch
        exact ⟨n, hn, hlt, hle.trans (by simp)⟩
      | storing head => trivial
      | entering => rwa [hp] at hbatch
      | harvesting => rwa [hp] at hbatch
    · rw [hcontexts]
      exact h.null
  refine ⟨hlaid, ?_⟩
  rw [hlaid.unhandled_eq, h.unhandled_eq, hhandled]
  exact List.drop_append_of_le_length h.handled.length_le

theorem posts (h : r.Laid placed start) (cqe : Cqe) (hroom : r.cqTail - r.cqHead < cqEntries)
    (hcqes : r'.cqes = Function.update r.cqes (r.cqTail &&& cqMask) cqe) (htail : r'.cqTail = r.cqTail + 1)
    (hhead : r'.cqHead = r.cqHead) (hpoint : r'.point = r.point) (hhandled : r'.handled = r.handled)
    (hposted : r'.posted = placed ++ [cqe] ++ r'.overflow) {inFlight : List Sqe}
    (hreactor : r'.reactor = { r.reactor with inFlight })
    (hperm : (r.reactor.inFlight ++ r.overflow.map Cqe.op).Perm (cqe.op :: (inFlight ++ r'.overflow.map Cqe.op))) :
    r.Goes r' := by
  obtain ⟨hlaid, hunhandled⟩ := h.place cqe hroom hcqes htail hhead hpoint hhandled hposted (by rw [hreactor])
  refine ⟨⟨_, _, hlaid⟩, ?_⟩
  rintro reactor ⟨waiting, hwaiting, rfl⟩
  obtain ⟨index, hindex, herased⟩ := taken (hwaiting.trans hperm)
  refine ⟨[.post index cqe.res], waiting.eraseIdx index, ?_, ?_⟩
  · rw [hreactor]
    exact herased
  · simp only [Runs.run, List.foldl_cons, List.foldl_nil, IoUringReactor.step, IoUringReactor.post, hindex, hunhandled,
      hpoint, hreactor]

theorem post (h : r.Laid placed start) (index : ℕ) (res : ℤ) : r.Goes (r.post index res) := by
  unfold RingReactor.post
  cases hindex : r.reactor.inFlight[index]? with
  | none => exact Goes.stays h
  | some op =>
    have herase : (r.reactor.inFlight ++ r.overflow.map Cqe.op).Perm
        (op :: (r.reactor.inFlight.eraseIdx index ++ r.overflow.map Cqe.op)) := by
      obtain ⟨hlt, rfl⟩ := List.getElem?_eq_some_iff.mp hindex
      exact (List.getElem_cons_eraseIdx_perm hlt).symm.append_right _
    dsimp only
    split_ifs with hroom
    · refine h.posts { op, res } hroom.2 (by rfl) (by rfl) (by rfl) (by rfl) (by rfl) ?_ (by rfl) herase
      change r.posted ++ [_] = placed ++ [_] ++ r.overflow
      rw [h.posted, hroom.1, List.append_nil, List.append_nil]
    · refine ⟨⟨placed, start, { h with posted := ?_ }⟩, ?_⟩
      · rw [h.posted, List.append_assoc]
      · rintro reactor ⟨waiting, hwaiting, rfl⟩
        refine ⟨[], waiting, hwaiting.trans (herase.trans ?_), ?_⟩
        · rw [List.map_append, ← List.append_assoc]
          exact (List.perm_append_singleton _ _).symm
        · rfl

theorem flushOverflow (h : r.Laid placed start) : r.Goes r.flushOverflow := by
  unfold RingReactor.flushOverflow
  cases hoverflow : r.overflow with
  | nil => exact Goes.stays h
  | cons cqe overflow =>
    dsimp only
    split_ifs with hroom
    · refine h.posts cqe hroom (by rfl) (by rfl) (by rfl) (by rfl) (by rfl) ?_ (by rfl) ?_
      · change r.posted = placed ++ [cqe] ++ overflow
        rw [h.posted, hoverflow, List.append_assoc]
        rfl
      · rw [hoverflow]
        exact List.perm_middle
    · exact Goes.stays h

theorem step (h : r.Laid placed start) (action : Action) : r.Goes (r.step action) := by
  cases action with
  | enter => exact h.enter
  | harvest => exact h.harvest
  | handle => exact h.handle
  | store => exact h.store
  | post index res => exact h.post index res
  | flushOverflow => exact h.flushOverflow

end Laid

section Runs

variable (listenFd : ℤ) (sqes : UInt32 → Sqe) (sqArray : UInt32 → UInt32) (cqes : UInt32 → Cqe)

theorem laid_init : (init listenFd sqes sqArray cqes).Laid [] 0 where
  posted := rfl
  handled := List.prefix_refl _
  stores := Stores.empty cqes 10
  tail := rfl
  head := rfl
  position := rfl
  start_le := le_rfl
  point := rfl
  null := IoUringReactor.init_null listenFd sqes sqArray

theorem refines_init : (init listenFd sqes sqArray cqes).Refines (IoUringReactor.init listenFd sqes sqArray) := by
  have hempty : IoUringReactor.init listenFd sqes sqArray =
      { IoUringReactor.init listenFd sqes sqArray with inFlight := [], completions := [], point := .entering } :=
    IoUringReactor.submitAccept_relist { listenFd, sq := { sqes, sqArray } } [] [] .entering
  have hinFlight := congrArg IoUringReactor.inFlight hempty
  have hnone : (init listenFd sqes sqArray cqes).unhandled = [] :=
    (laid_init listenFd sqes sqArray cqes).unhandled_eq
  refine ⟨[], ?_, ?_⟩
  · change [].Perm ((IoUringReactor.init listenFd sqes sqArray).inFlight ++ [])
    rw [hinFlight]
    exact List.Perm.nil
  · rw [hnone]
    exact hempty

theorem goes_run (actions : List Action) :
    (∃ placed start, (run listenFd sqes sqArray cqes actions).Laid placed start) ∧
      ∃ actions', (run listenFd sqes sqArray cqes actions).Refines
        (IoUringReactor.run listenFd sqes sqArray actions') := by
  induction actions using List.reverseRecOn with
  | nil => exact ⟨⟨_, _, laid_init listenFd sqes sqArray cqes⟩, [], refines_init listenFd sqes sqArray cqes⟩
  | append_singleton actions action ih =>
    obtain ⟨⟨placed, start, h⟩, actions', hrefines⟩ := ih
    obtain ⟨hlaid, hnext⟩ := h.step action
    obtain ⟨added, hadded⟩ := hnext _ hrefines
    rw [run, Runs.run_snoc]
    refine ⟨hlaid, actions' ++ added, ?_⟩
    rw [IoUringReactor.run, Runs.run_append]
    exact hadded

theorem completions_refine_list (actions : List Action) :
    let r := run listenFd sqes sqArray cqes actions
    r.posted = r.handled ++ r.unhandled ++ r.overflow ∧
      ∃ actions', r.Refines (IoUringReactor.run listenFd sqes sqArray actions') := by
  obtain ⟨⟨placed, start, h⟩, hrefines⟩ := goes_run listenFd sqes sqArray cqes actions
  refine ⟨?_, hrefines⟩
  have hsplit := List.prefix_append_drop h.handled
  rw [h.unhandled_eq, ← hsplit, h.posted]

end Runs

end RingReactor

end SystemLevel.AsyncIo
