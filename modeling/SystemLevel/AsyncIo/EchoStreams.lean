import SystemLevel.AsyncIo.ReactorInvariant

/-!
The bytes that go through the buffers of the connections. A READ that completes has put its bytes at the beginning of
the buffer of its context, and a WRITE that completes has sent the first bytes of that buffer.
-/

namespace SystemLevel.AsyncIo

open Runs

namespace IoUringReactor

def nextCompletion (r : IoUringReactor) : Option Cqe :=
  match r.point, r.completions with
  | .handling _, cqe :: _ => some cqe
  | _, _ => none

variable {r : IoUringReactor} {cqe : Cqe}

theorem handle_of_none (hnext : r.nextCompletion = none) : r.handle = r := by
  rw [handle]
  split
  · next hpoint hcompletions => simp [nextCompletion, hpoint, hcompletions] at hnext
  · rfl

theorem mem_of_nextCompletion (hnext : r.nextCompletion = some cqe) : cqe ∈ r.completions := by
  unfold nextCompletion at hnext
  split at hnext
  · next left other completions hpoint hcompletions =>
    obtain rfl := Option.some.inj hnext
    rw [hcompletions]
    exact List.mem_cons_self
  · cases hnext

theorem handle_of_some (hnext : r.nextCompletion = some cqe) :
    ∃ completions point, r.completions = cqe :: completions ∧
      r.handle = { r.handleCompletion cqe.op.userData cqe.res with completions, point } := by
  unfold nextCompletion at hnext
  split at hnext
  · next left other completions hpoint hcompletions =>
    obtain rfl := Option.some.inj hnext
    refine ⟨completions, if left = 1 then .entering else .handling (left - 1), hcompletions, ?_⟩
    simp only [handle, hpoint, hcompletions]
  · cases hnext

end IoUringReactor

/-- `received` has been read from the client of a context, and `accepted` has been taken by the kernel for it. -/
structure EchoReactor where
  reactor : IoUringReactor
  buffers : ℕ → List UInt8 := fun _ => List.replicate 2048 0
  received : ℕ → List UInt8 := fun _ => []
  accepted : ℕ → List UInt8 := fun _ => []

namespace EchoReactor

open IoUringReactor (Owned wanted requests readSqe acceptSqe writeSqe)

inductive Action
  | enter
  | harvest
  | handle
  | post (index : ℕ) (res : ℤ) (data : List UInt8)
  deriving DecidableEq, Repr

def transfer (e : EchoReactor) (op : Sqe) (res : ℤ) (data : List UInt8) : EchoReactor :=
  match op.opcode with
  | .accept => e
  | .read =>
    { e with
      buffers := Function.update e.buffers op.userData (data ++ (e.buffers op.userData).drop data.length)
      received := Function.update e.received op.userData (e.received op.userData ++ data) }
  | .write =>
    { e with
      accepted := Function.update e.accepted op.userData
        (e.accepted op.userData ++ (e.buffers op.userData).take res.toNat) }

def post (e : EchoReactor) (index : ℕ) (res : ℤ) (data : List UInt8) : EchoReactor :=
  match e.reactor.inFlight[index]? with
  | none => e
  | some op => { e.transfer op res data with reactor := e.reactor.post index res }

def step (e : EchoReactor) : Action → EchoReactor
  | .enter => { e with reactor := e.reactor.enter }
  | .harvest => { e with reactor := e.reactor.harvest }
  | .handle => { e with reactor := e.reactor.handle }
  | .post index res data => e.post index res data

abbrev run (listenFd : ℤ) (sqes : UInt32 → Sqe) (sqArray : UInt32 → UInt32) (actions : List Action) : EchoReactor :=
  Runs.run step { reactor := IoUringReactor.init listenFd sqes sqArray } actions

def Action.withoutData : Action → IoUringReactor.Action
  | .enter => .enter
  | .harvest => .harvest
  | .handle => .handle
  | .post index res _ => .post index res

theorem step_reactor (e : EchoReactor) (action : Action) :
    (e.step action).reactor = e.reactor.step action.withoutData := by
  cases action with
  | enter => rfl
  | harvest => rfl
  | handle => rfl
  | post index res data =>
    change (e.post index res data).reactor = e.reactor.post index res
    rw [post]
    split
    · next hnone => simp only [IoUringReactor.post, hnone]
    · rfl

theorem run_reactor (listenFd : ℤ) (sqes : UInt32 → Sqe) (sqArray : UInt32 → UInt32) (actions : List Action) :
    (run listenFd sqes sqArray actions).reactor =
      IoUringReactor.run listenFd sqes sqArray (actions.map Action.withoutData) := by
  induction actions using List.reverseRecOn with
  | nil => rfl
  | append_singleton past action ih =>
    rw [List.map_append, List.map_singleton, run, run_snoc, IoUringReactor.run, run_snoc, step_reactor]
    exact congrArg (fun r => IoUringReactor.step r action.withoutData) ih

def Possible (e : EchoReactor) : Action → Prop
  | .post index res data =>
    ∀ op ∈ e.reactor.inFlight[index]?, op.opcode ≠ .accept →
      res ≤ op.len.toNat ∧ (op.opcode = .read → data.length = res.toNat)
  | _ => True

instance decidablePossible (e : EchoReactor) : ∀ action, Decidable (e.Possible action)
  | .post index res data =>
    inferInstanceAs (Decidable (∀ op ∈ e.reactor.inFlight[index]?, op.opcode ≠ .accept →
      res ≤ op.len.toNat ∧ (op.opcode = .read → data.length = res.toNat)))
  | .enter | .harvest | .handle => inferInstanceAs (Decidable True)

def submitted (e : EchoReactor) : List Sqe := e.reactor.sq.queued ++ e.reactor.inFlight

structure Faithful (e : EchoReactor) : Prop where
  inOrder : ∀ ctx, e.accepted ctx <+: e.received ctx
  caughtUp : ∀ op ∈ e.submitted, op.opcode = .read → e.accepted op.userData = e.received op.userData

/-- A WRITE that has sent something has sent all it was asked to, or there is no room for another READ. -/
def Completes (r : IoUringReactor) (cqe : Cqe) : Prop :=
  cqe.op.opcode = .write → 0 < cqe.res → cqe.res = cqe.op.len.toNat ∨ 512 ≤ r.sq.count

instance decidableCompletes (r : IoUringReactor) (cqe : Cqe) : Decidable (Completes r cqe) :=
  inferInstanceAs (Decidable (_ → _))

def SendsAll (e : EchoReactor) : Action → Prop
  | .handle => ∀ cqe ∈ e.reactor.nextCompletion, Completes e.reactor cqe
  | _ => True

instance decidableSendsAll (e : EchoReactor) : ∀ action, Decidable (e.SendsAll action)
  | .handle => inferInstanceAs (Decidable (∀ cqe ∈ e.reactor.nextCompletion, Completes e.reactor cqe))
  | .enter | .harvest | .post _ _ _ => inferInstanceAs (Decidable True)

def owed (buffer : List UInt8) (op : Sqe) : List UInt8 :=
  match op.opcode with
  | .accept | .read => []
  | .write => buffer.take op.len.toNat

def owedAfter (buffer : List UInt8) (cqe : Cqe) : List UInt8 :=
  match cqe.op.opcode with
  | .accept => []
  | .read => buffer.take cqe.res.toNat
  | .write => (buffer.take cqe.op.len.toNat).drop cqe.res.toNat

def Owes (e : EchoReactor) (ctx : ℕ) (rest : List UInt8) : Prop := e.received ctx = e.accepted ctx ++ rest

structure Inv (e : EchoReactor) : Prop where
  valid : e.reactor.sq.Valid
  owned : Owned e.reactor.outstanding e.reactor.contexts e.reactor.allocated
  buffers : ∀ ctx, (e.buffers ctx).length = 2048
  len_le : ∀ op ∈ e.reactor.outstanding, op.len.toNat ≤ 2048
  res_le : ∀ cqe ∈ e.reactor.completions, cqe.op.opcode ≠ .accept → cqe.res ≤ cqe.op.len.toNat
  submitted : ∀ op ∈ e.submitted, e.Owes op.userData (owed (e.buffers op.userData) op)
  completed : ∀ cqe ∈ e.reactor.completions, e.Owes cqe.op.userData (owedAfter (e.buffers cqe.op.userData) cqe)
  fresh : ∀ ctx, e.reactor.allocated < ctx → e.received ctx = [] ∧ e.accepted ctx = []
  inOrder : ∀ ctx, e.accepted ctx <+: e.received ctx

variable {e : EchoReactor} {op : Sqe} {res : ℤ} {data : List UInt8}

theorem toNat_ofInt (hpos : 0 < res) (hlt : res < 2 ^ 32) : (UInt32.ofInt res).toNat = res.toNat := by
  rw [UInt32.ofInt, UInt32.toNat_ofNat']
  omega

theorem Inv.faithful (h : e.Inv) : e.Faithful where
  inOrder := h.inOrder
  caughtUp := by
    intro op hop hread
    have howes := h.submitted op hop
    rw [Owes, owed, hread, List.append_nil] at howes
    exact howes.symm

section Transfer

theorem transfer_other {ctx : ℕ} (hne : ctx ≠ op.userData) :
    (e.transfer op res data).buffers ctx = e.buffers ctx ∧ (e.transfer op res data).received ctx = e.received ctx ∧
      (e.transfer op res data).accepted ctx = e.accepted ctx := by
  rw [transfer]
  split
  · exact ⟨rfl, rfl, rfl⟩
  · exact ⟨Function.update_of_ne hne _ _, Function.update_of_ne hne _ _, rfl⟩
  · exact ⟨rfl, rfl, Function.update_of_ne hne _ _⟩

theorem transfer_owes_other (rest : List UInt8 → List UInt8) {ctx : ℕ} (hne : ctx ≠ op.userData)
    (howes : e.Owes ctx (rest (e.buffers ctx))) :
    (e.transfer op res data).Owes ctx (rest ((e.transfer op res data).buffers ctx)) := by
  obtain ⟨hbuffer, hreceived, haccepted⟩ := @transfer_other e op res data ctx hne
  rw [Owes, hbuffer, hreceived, haccepted]
  exact howes

theorem transfer_owes (howes : e.Owes op.userData (owed (e.buffers op.userData) op))
    (hres : op.opcode ≠ .accept → res ≤ op.len.toNat ∧ (op.opcode = .read → data.length = res.toNat)) :
    (e.transfer op res data).Owes op.userData (owedAfter ((e.transfer op res data).buffers op.userData) ⟨op, res⟩) := by
  cases hop : op.opcode with
  | accept =>
    simp only [owed, hop] at howes
    simp only [transfer, owedAfter, hop]
    exact howes
  | read =>
    obtain ⟨-, hdata⟩ := hres (by simp [hop])
    simp only [Owes, owed, hop, List.append_nil] at howes
    simp only [transfer, Owes, owedAfter, hop, Function.update_self]
    rw [← hdata hop, List.take_left, howes]
  | write =>
    obtain ⟨hle, -⟩ := hres (by simp [hop])
    have hsent : (e.buffers op.userData).take res.toNat =
        ((e.buffers op.userData).take op.len.toNat).take res.toNat := by
      rw [List.take_take, min_eq_left (Int.toNat_le.mpr hle)]
    simp only [Owes, owed, hop] at howes
    simp only [transfer, Owes, owedAfter, hop, Function.update_self]
    rw [hsent, List.append_assoc, List.take_append_drop, howes]

theorem length_buffers_transfer (hbuffers : ∀ ctx, (e.buffers ctx).length = 2048)
    (hdata : op.opcode = .read → data.length ≤ 2048) (ctx : ℕ) :
    ((e.transfer op res data).buffers ctx).length = 2048 := by
  by_cases hctx : ctx = op.userData
  · subst hctx
    cases hop : op.opcode with
    | accept =>
      simp only [transfer, hop]
      apply hbuffers
    | read =>
      simp only [transfer, hop, Function.update_self, List.length_append, List.length_drop, hbuffers]
      exact Nat.add_sub_cancel' (hdata hop)
    | write =>
      simp only [transfer, hop]
      apply hbuffers
  · rw [(transfer_other hctx).1]
    apply hbuffers

end Transfer

namespace Inv

theorem of_perm {r : IoUringReactor} (h : e.Inv) (hvalid : r.sq.Valid)
    (hperm : (e.reactor.sq.queued ++ e.reactor.inFlight).Perm (r.sq.queued ++ r.inFlight))
    (hcompletions : r.completions = e.reactor.completions) (hcontexts : r.contexts = e.reactor.contexts)
    (hallocated : r.allocated = e.reactor.allocated) : ({ e with reactor := r } : EchoReactor).Inv := by
  have houtstanding : e.reactor.outstanding.Perm r.outstanding := by
    simp only [IoUringReactor.outstanding, hcompletions]
    exact hperm.append_right _
  refine ⟨hvalid, ?_, h.buffers, ?_, ?_, ?_, ?_, ?_, h.inOrder⟩
  · simp only [hcontexts, hallocated]
    exact h.owned.perm houtstanding
  · intro op hop
    exact h.len_le op (houtstanding.mem_iff.mpr hop)
  · simp only [hcompletions]
    exact h.res_le
  · intro op hop
    exact h.submitted op (hperm.mem_iff.mpr hop)
  · simp only [hcompletions]
    exact h.completed
  · simp only [hallocated]
    exact h.fresh

theorem enter (h : e.Inv) : (e.step .enter).Inv := by
  obtain ⟨htaken, hvalid, hempty⟩ := h.valid.enter
  simp only [step, IoUringReactor.enter]
  split
  · refine h.of_perm hvalid ?_ rfl rfl rfl
    rw [htaken, hempty, List.nil_append]
    exact List.perm_append_comm
  · exact h

theorem harvest (h : e.Inv) : (e.step .harvest).Inv := by
  simp only [step, IoUringReactor.harvest]
  split
  · exact h.of_perm h.valid (List.Perm.refl _) rfl rfl rfl
  · exact h

theorem post (h : e.Inv) {index : ℕ} (hpossible : e.Possible (.post index res data)) :
    (e.step (.post index res data)).Inv := by
  change (e.post index res data).Inv
  rw [EchoReactor.post]
  split
  · exact h
  · next op hop =>
    have hres := hpossible op hop
    have hperm := IoUringReactor.outstanding_inFlight hop
    have hpost := e.reactor.outstanding_post index res
    have howned := h.owned.perm hperm
    have hmem : op ∈ e.submitted := List.mem_append_right _ (List.mem_of_getElem? hop)
    have hlen := h.len_le op (hperm.mem_iff.mpr List.mem_cons_self)
    have howes := transfer_owes (h.submitted op hmem) hres
    simp only [IoUringReactor.post, hop] at hpost ⊢
    refine ⟨h.valid, h.owned.perm hpost, ?_, ?_, ?_, ?_, ?_, ?_, ?_⟩
    · apply length_buffers_transfer h.buffers
      intro hread
      obtain ⟨hle, hdata⟩ := hres (by simp [hread])
      rw [hdata hread]
      omega
    · intro other hother
      exact h.len_le other (hpost.mem_iff.mpr hother)
    · intro cqe hcqe
      rcases List.mem_append.mp hcqe with hcqe | hcqe
      · exact h.res_le cqe hcqe
      · obtain rfl := List.mem_singleton.mp hcqe
        exact fun haccept => (hres haccept).1
    · intro other hother
      have hne := howned.head_ne other (List.mem_append_left _ hother)
      apply transfer_owes_other (fun buffer => owed buffer other) hne
      apply h.submitted
      exact List.mem_append.mpr ((List.mem_append.mp hother).imp_right List.mem_of_mem_eraseIdx)
    · intro cqe hcqe
      rcases List.mem_append.mp hcqe with hcqe | hcqe
      · have hne := howned.head_ne cqe.op (List.mem_append_right _ (List.mem_map_of_mem hcqe))
        exact transfer_owes_other (fun buffer => owedAfter buffer cqe) hne (h.completed cqe hcqe)
      · obtain rfl := List.mem_singleton.mp hcqe
        exact howes
    · intro ctx hctx
      have hle := howned.le_allocated List.mem_cons_self
      obtain ⟨-, hreceived, haccepted⟩ := @transfer_other e op res data ctx (by simp only at hctx; omega)
      simp only [hreceived, haccepted]
      exact h.fresh ctx hctx
    · intro ctx
      by_cases hctx : ctx = op.userData
      · subst hctx
        exact ⟨_, howes.symm⟩
      · obtain ⟨-, hreceived, haccepted⟩ := @transfer_other e op res data ctx hctx
        simp only [hreceived, haccepted]
        exact h.inOrder ctx

theorem fresh_owes (h : e.Inv) (hctx : e.reactor.allocated < op.userData) (hop : op.opcode ≠ .write) :
    e.Owes op.userData (owed (e.buffers op.userData) op) := by
  obtain ⟨hreceived, haccepted⟩ := h.fresh op.userData hctx
  rw [Owes, hreceived, haccepted, owed]
  split
  · rfl
  · rfl
  · contradiction

theorem wanted_len_le (h : e.Inv) {cqe : Cqe} (hcqe : cqe ∈ e.reactor.completions) :
    ∀ op ∈ e.reactor.wanted cqe, op.len.toNat ≤ 2048 := by
  have hres := h.res_le cqe hcqe
  have hlen := h.len_le cqe.op (List.mem_append_right _ (List.mem_map_of_mem hcqe))
  cases hkind : cqe.op.opcode with
  | accept =>
    simp only [wanted, hkind]
    split_ifs <;> simp [readSqe, acceptSqe]
  | read =>
    simp only [wanted, hkind]
    split_ifs with hpos
    · have hle := hres (by simp [hkind])
      simp only [List.mem_singleton, forall_eq, writeSqe]
      rw [toNat_ofInt hpos (by omega)]
      omega
    · simp
  | write =>
    simp only [wanted, hkind]
    split_ifs <;> simp [readSqe]

theorem wanted_owes (h : e.Inv) {cqe : Cqe} (hcqe : cqe ∈ e.reactor.completions)
    (hall : cqe.op.opcode = .write → 0 < cqe.res → cqe.res = cqe.op.len.toNat) :
    ∀ op ∈ e.reactor.wanted cqe, e.Owes op.userData (owed (e.buffers op.userData) op) := by
  have howes := h.completed cqe hcqe
  have hres := h.res_le cqe hcqe
  have hlen := h.len_le cqe.op (List.mem_append_right _ (List.mem_map_of_mem hcqe))
  cases hkind : cqe.op.opcode with
  | accept =>
    simp only [wanted, hkind]
    split_ifs
    · intro op hop
      rcases List.mem_cons.mp hop with rfl | hop
      · exact h.fresh_owes (Nat.lt_succ_self _) (by simp [readSqe])
      · obtain rfl := List.mem_singleton.mp hop
        exact h.fresh_owes (Nat.lt_add_of_pos_right Nat.two_pos) (by simp [acceptSqe])
    · intro op hop
      obtain rfl := List.mem_singleton.mp hop
      exact h.fresh_owes (Nat.lt_succ_self _) (by simp [acceptSqe])
  | read =>
    simp only [owedAfter, hkind] at howes
    simp only [wanted, hkind]
    split_ifs with hpos
    · have hle := hres (by simp [hkind])
      intro op hop
      obtain rfl := List.mem_singleton.mp hop
      simp only [owed, writeSqe]
      rw [toNat_ofInt hpos (by omega)]
      exact howes
    · exact List.forall_mem_nil _
  | write =>
    simp only [owedAfter, hkind] at howes
    simp only [wanted, hkind]
    split_ifs with hpos
    · have hsent : ((e.buffers cqe.op.userData).take cqe.op.len.toNat).drop cqe.res.toNat = [] := by
        apply List.drop_eq_nil_of_le
        rw [List.length_take, hall hkind hpos]
        exact min_le_left _ _
      intro op hop
      obtain rfl := List.mem_singleton.mp hop
      rw [hsent] at howes
      exact howes
    · exact List.forall_mem_nil _

theorem handle (h : e.Inv) (hsends : e.SendsAll .handle) : (e.step .handle).Inv := by
  cases hnext : e.reactor.nextCompletion with
  | none =>
    rw [step, IoUringReactor.handle_of_none hnext]
    exact h
  | some cqe =>
    obtain ⟨completions, point, hcompletions, hhandle⟩ := IoUringReactor.handle_of_some hnext
    have hcqe := IoUringReactor.mem_of_nextCompletion hnext
    have hperm := IoUringReactor.outstanding_cons hcompletions
    obtain ⟨bytes, hcontext⟩ := h.owned.context cqe.op (hperm.mem_iff.mpr List.mem_cons_self)
    obtain ⟨added, hsubset, hhandled, hfull⟩ := IoUringReactor.handleCompletion_handled h.valid hcontext
    have hallocated := e.reactor.handleCompletion_allocated_le cqe.op.userData cqe.res
    have howes : ∀ op ∈ added, e.Owes op.userData (owed (e.buffers op.userData) op) := by
      intro op hop
      apply h.wanted_owes hcqe _ op (hsubset hop)
      intro hwrite hpos
      rcases hsends cqe hnext hwrite hpos with hall | hnone
      · exact hall
      · rw [hfull hwrite hpos hnone] at hop
        cases hop
    have hadded := IoUringReactor.added_perm e.reactor.sq.queued added e.reactor.inFlight (completions.map Cqe.op)
    have hkept : ∀ other ∈ completions, other ∈ e.reactor.completions := by
      rw [hcompletions]
      exact fun other hother => List.mem_cons_of_mem cqe hother
    rw [step, hhandle]
    refine ⟨hhandled.valid, ?_, h.buffers, ?_, ?_, ?_, ?_, ?_, h.inOrder⟩
    · simp only [IoUringReactor.outstanding, hhandled.queued, hhandled.inFlight]
      exact (hhandled.owned _ (h.owned.perm hperm)).perm hadded.symm
    · simp only [IoUringReactor.outstanding, hhandled.queued, hhandled.inFlight]
      intro op hop
      rcases List.mem_append.mp (hadded.mem_iff.mp hop) with hop | hop
      · exact h.wanted_len_le hcqe op (hsubset hop)
      · exact h.len_le op (hperm.mem_iff.mpr (List.mem_cons_of_mem cqe.op hop))
    · intro other hother
      exact h.res_le other (hkept other hother)
    · simp only [EchoReactor.submitted, hhandled.queued, hhandled.inFlight]
      intro op hop
      rcases List.mem_append.mp hop with hop | hop
      · rcases List.mem_append.mp hop with hop | hop
        · exact h.submitted op (List.mem_append_left _ hop)
        · exact howes op hop
      · exact h.submitted op (List.mem_append_right _ hop)
    · intro other hother
      exact h.completed other (hkept other hother)
    · intro ctx hctx
      exact h.fresh ctx (hallocated.trans_lt hctx)

theorem step (h : e.Inv) {action : Action} (hpossible : e.Possible action) (hsends : e.SendsAll action) :
    (e.step action).Inv := by
  cases action with
  | enter => exact h.enter
  | harvest => exact h.harvest
  | handle => exact h.handle hsends
  | post index res data => exact h.post hpossible

theorem not_faithful (h : e.Inv) {action : Action} (hsends : ¬ e.SendsAll action) : ¬ (e.step action).Faithful := by
  cases action with
  | enter => exact absurd trivial hsends
  | harvest => exact absurd trivial hsends
  | post index res data => exact absurd trivial hsends
  | handle =>
    simp only [SendsAll, Completes, not_forall, not_or] at hsends
    obtain ⟨cqe, hnext, hwrite, hpos, hpart, hroom⟩ := hsends
    obtain ⟨completions, point, hcompletions, hhandle⟩ := IoUringReactor.handle_of_some hnext
    have hcqe := IoUringReactor.mem_of_nextCompletion hnext
    have hmem : cqe.op ∈ e.reactor.outstanding := List.mem_append_right _ (List.mem_map_of_mem hcqe)
    obtain ⟨bytes, hcontext⟩ := h.owned.context cqe.op hmem
    have hanswered := IoUringReactor.handleCompletion_answered h.valid hcontext
      (by simp only [SubmissionQueue.length_queued, requests, hwrite, hpos, if_true]; omega)
    have howes := h.completed cqe hcqe
    have hle := h.res_le cqe hcqe (by simp [hwrite])
    have hlen := h.len_le cqe.op hmem
    have hbuffer := h.buffers cqe.op.userData
    intro hfaithful
    have hread : readSqe cqe.op.fd cqe.op.userData ∈ (e.step .handle).submitted := by
      simp only [EchoReactor.step, hhandle, EchoReactor.submitted, hanswered.queued, wanted, hwrite, hpos, if_true]
      exact List.mem_append_left _ (List.mem_append_right _ List.mem_cons_self)
    have hcaught := hfaithful.caughtUp _ hread rfl
    change e.accepted cqe.op.userData = e.received cqe.op.userData at hcaught
    have hlengths := congrArg List.length howes
    simp only [owedAfter, hwrite, hcaught, List.length_append, List.length_drop, List.length_take] at hlengths
    omega

end Inv

section Runs

variable (listenFd : ℤ) (sqes : UInt32 → Sqe) (sqArray : UInt32 → UInt32)

theorem inv_init : Inv { reactor := IoUringReactor.init listenFd sqes sqArray } := by
  have hinv := IoUringReactor.inv_init listenFd sqes sqArray
  have houtstanding := IoUringReactor.outstanding_init listenFd sqes sqArray
  have hcompletions : (IoUringReactor.init listenFd sqes sqArray).completions = [] := by
    obtain ⟨sq, -, -, hinit⟩ := IoUringReactor.init_eq listenFd sqes sqArray
    rw [hinit]
    rfl
  refine ⟨hinv.valid, hinv.owned, fun _ => List.length_replicate, ?_, ?_, ?_, ?_, fun _ _ => ⟨rfl, rfl⟩,
    fun _ => List.prefix_rfl⟩
  · simp only [houtstanding]
    intro op hop
    obtain rfl := List.mem_singleton.mp hop
    exact Nat.zero_le _
  · simp only [hcompletions]
    exact List.forall_mem_nil _
  · intro op hop
    have hmem : op ∈ (IoUringReactor.init listenFd sqes sqArray).outstanding := List.mem_append_left _ hop
    rw [houtstanding] at hmem
    obtain rfl := List.mem_singleton.mp hmem
    rfl
  · simp only [hcompletions]
    exact List.forall_mem_nil _

theorem echoes_faithfully_iff (actions : List Action)
    (hpossible : Lawful (fun past => (run listenFd sqes sqArray past).Possible) actions) :
    (∀ past, past <+: actions → (run listenFd sqes sqArray past).Faithful) ↔
      Lawful (fun past => (run listenFd sqes sqArray past).SendsAll) actions := by
  apply hpossible.always_iff (inv_init listenFd sqes sqArray)
  · intro e h
    exact h.faithful
  · intro e action h
    exact h.step
  · intro e action h
    exact h.not_faithful

end Runs

def threeBytes (sent : ℕ) : List Action :=
  [.enter, .post 0 5 [], .harvest, .handle, .enter, .post 0 3 [1, 2, 3], .harvest, .handle,
    .enter, .post 1 sent [], .harvest, .handle]

theorem whole_write_faithful :
    let initial := fun _ => acceptSqe 0 0
    (∀ past, past <+: threeBytes 3 → (run 3 initial id past).Faithful) ∧
      (run 3 initial id (threeBytes 3)).accepted 2 = [1, 2, 3] := by
  refine ⟨(echoes_faithfully_iff 3 (fun _ => acceptSqe 0 0) id (threeBytes 3) ?_).mpr ?_, ?_⟩
  · decide +kernel
  · decide +kernel
  · decide +kernel

theorem short_write_loses_bytes :
    let initial := fun _ => acceptSqe 0 0
    let later := threeBytes 1 ++ [Action.enter, Action.post 1 1 [4], Action.harvest, Action.handle, Action.enter,
      Action.post 1 1 []]
    Lawful (fun past => (run 3 initial id past).Possible) later ∧
      readSqe 5 2 ∈ (run 3 initial id (threeBytes 1)).submitted ∧
      (run 3 initial id (threeBytes 1)).received 2 = [1, 2, 3] ∧
      (run 3 initial id (threeBytes 1)).accepted 2 = [1] ∧
      (run 3 initial id later).received 2 = [1, 2, 3, 4] ∧ (run 3 initial id later).accepted 2 = [1, 4] := by
  decide +kernel

end EchoReactor

end SystemLevel.AsyncIo
