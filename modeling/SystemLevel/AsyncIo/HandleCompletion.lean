import SystemLevel.AsyncIo.IoUringReactor

namespace SystemLevel.AsyncIo.IoUringReactor

variable {r : IoUringReactor} {ops : List Sqe} {op : Sqe} {contexts : ℕ → Option ConnectionContext} {allocated : ℕ}

structure Owned (ops : List Sqe) (contexts : ℕ → Option ConnectionContext) (allocated : ℕ) : Prop where
  distinct : (ops.map Sqe.userData).Nodup
  context : ∀ op ∈ ops, ∃ bytes, contexts op.userData = some ⟨op.fd, op.opcode, bytes⟩
  fresh : ∀ ctx, allocated < ctx → contexts ctx = none

namespace Owned

theorem perm (h : Owned ops contexts allocated) {ops' : List Sqe} (hperm : ops.Perm ops') :
    Owned ops' contexts allocated where
  distinct := (hperm.map Sqe.userData).nodup_iff.mp h.distinct
  context := fun op hop => h.context op (hperm.mem_iff.mpr hop)
  fresh := h.fresh

theorem le_allocated (h : Owned ops contexts allocated) (hop : op ∈ ops) : op.userData ≤ allocated := by
  by_contra hlt
  obtain ⟨bytes, hcontext⟩ := h.context op hop
  rw [h.fresh op.userData (not_le.mp hlt)] at hcontext
  cases hcontext

theorem head_ne (h : Owned (op :: ops) contexts allocated) : ∀ other ∈ ops, other.userData ≠ op.userData := by
  intro other hother heq
  apply (List.nodup_cons.mp h.distinct).1
  rw [← heq]
  exact List.mem_map_of_mem hother

theorem allocate (h : Owned ops contexts allocated) (op : Sqe) (hop : op.userData = allocated + 1) (bytes : UInt32) :
    Owned (op :: ops) (Function.update contexts (allocated + 1) (some ⟨op.fd, op.opcode, bytes⟩)) (allocated + 1) := by
  have hne : ∀ other ∈ ops, other.userData ≠ allocated + 1 := by
    intro other hother
    have hle := h.le_allocated hother
    omega
  refine ⟨?_, ?_, ?_⟩
  · refine List.nodup_cons.mpr ⟨?_, h.distinct⟩
    intro hmem
    obtain ⟨other, hother, heq⟩ := List.mem_map.mp hmem
    exact hne other hother (heq.trans hop)
  · intro other hother
    rcases List.mem_cons.mp hother with rfl | hother
    · exact ⟨bytes, by rw [hop, Function.update_self]⟩
    · obtain ⟨bytes', hcontext⟩ := h.context other hother
      exact ⟨bytes', by rw [Function.update_of_ne (hne other hother), hcontext]⟩
  · intro ctx hctx
    rw [Function.update_of_ne (by omega), h.fresh ctx (by omega)]

theorem tail (h : Owned (op :: ops) contexts allocated) : Owned ops contexts allocated where
  distinct := (List.nodup_cons.mp h.distinct).2
  context := fun other hother => h.context other (List.mem_cons_of_mem op hother)
  fresh := h.fresh

theorem delete (h : Owned (op :: ops) contexts allocated) :
    Owned ops (Function.update contexts op.userData none) allocated where
  distinct := (List.nodup_cons.mp h.distinct).2
  context := by
    intro other hother
    obtain ⟨bytes, hcontext⟩ := h.context other (List.mem_cons_of_mem op hother)
    exact ⟨bytes, by rw [Function.update_of_ne (h.head_ne other hother), hcontext]⟩
  fresh := by
    intro ctx hctx
    rw [Function.update_of_ne (by have := h.le_allocated List.mem_cons_self; omega), h.fresh ctx hctx]

theorem reuse (h : Owned (op :: ops) contexts allocated) {next : Sqe} (hnext : next.userData = op.userData)
    (bytes : UInt32) :
    Owned (next :: ops) (Function.update contexts op.userData (some ⟨next.fd, next.opcode, bytes⟩)) allocated := by
  refine ⟨?_, ?_, ?_⟩
  · rw [List.map_cons, hnext]
    exact h.distinct
  · intro other hother
    rcases List.mem_cons.mp hother with rfl | hother
    · exact ⟨bytes, by rw [hnext, Function.update_self]⟩
    · obtain ⟨bytes', hcontext⟩ := h.context other (List.mem_cons_of_mem op hother)
      exact ⟨bytes', by rw [Function.update_of_ne (h.head_ne other hother), hcontext]⟩
  · intro ctx hctx
    rw [Function.update_of_ne (by have := h.le_allocated List.mem_cons_self; omega), h.fresh ctx hctx]

end Owned

def wanted (r : IoUringReactor) (cqe : Cqe) : List Sqe :=
  match cqe.op.opcode with
  | .accept =>
    if 0 ≤ cqe.res then [readSqe cqe.res (r.allocated + 1), acceptSqe r.listenFd (r.allocated + 2)]
    else [acceptSqe r.listenFd (r.allocated + 1)]
  | .read => if 0 < cqe.res then [writeSqe cqe.op.fd cqe.op.userData (UInt32.ofInt cqe.res)] else []
  | .write => if 0 < cqe.res then [readSqe cqe.op.fd cqe.op.userData] else []

def clientsAfter (r : IoUringReactor) (cqe : Cqe) : List ℤ :=
  match cqe.op.opcode with
  | .accept => if 0 ≤ cqe.res then r.clients ++ [cqe.res] else r.clients
  | .read | .write => if 0 < cqe.res then r.clients else r.clients.erase cqe.op.fd

structure Answered (r : IoUringReactor) (cqe : Cqe) (r' : IoUringReactor) : Prop where
  valid : r'.sq.Valid
  queued : r'.sq.queued = r.sq.queued ++ r.wanted cqe
  inFlight : r'.inFlight = r.inFlight
  clients : r'.clients = r.clientsAfter cqe
  owned : ∀ others, Owned (cqe.op :: others) r.contexts r.allocated →
    Owned (r.wanted cqe ++ others) r'.contexts r'.allocated

structure Handled (r : IoUringReactor) (cqe : Cqe) (added : List Sqe) (r' : IoUringReactor) : Prop where
  valid : r'.sq.Valid
  queued : r'.sq.queued = r.sq.queued ++ added
  inFlight : r'.inFlight = r.inFlight
  owned : ∀ others, Owned (cqe.op :: others) r.contexts r.allocated → Owned (added ++ others) r'.contexts r'.allocated

theorem submitSqe_of_full (hfull : 512 ≤ r.sq.queued.length) (sqe : Sqe) (prepared : IoUringReactor) :
    r.submitSqe sqe prepared = r := by
  rw [submitSqe, (SubmissionQueue.submit_eq_none_iff _ _).mpr hfull]

theorem acceptClient_of_full (hfull : 512 ≤ r.sq.queued.length) (fd : ℤ) :
    r.acceptClient fd = { r.newContext { fd } with clients := r.clients ++ [fd] } := by
  rw [acceptClient, submitRead, @submitSqe_of_full (r.newContext { fd }) hfull]

theorem submitSqe_of_room (hvalid : r.sq.Valid) (hroom : r.sq.queued.length < 512) (sqe : Sqe)
    (prepared : IoUringReactor) :
    ∃ sq, sq.Valid ∧ sq.queued = r.sq.queued ++ [sqe] ∧ r.submitSqe sqe prepared = { prepared with sq } := by
  obtain ⟨sq, hsubmit, hsq, hqueued⟩ := hvalid.exists_submit hroom sqe
  refine ⟨sq, hsq, hqueued, ?_⟩
  rw [submitSqe, hsubmit]

theorem acceptClient_of_room (hvalid : r.sq.Valid) (hroom : r.sq.queued.length < 512) (fd : ℤ) :
    ∃ sq, sq.Valid ∧ sq.queued = r.sq.queued ++ [readSqe fd (r.allocated + 1)] ∧
      r.acceptClient fd =
        { r.newContext { fd, type := .read } with sq, clients := r.clients ++ [fd] } := by
  obtain ⟨sq, hsq, hqueued, hread⟩ :=
    @submitSqe_of_room (r.newContext { fd }) hvalid hroom (readSqe fd (r.allocated + 1))
      ((r.newContext { fd }).setContext (r.allocated + 1) (some { fd, type := .read }))
  refine ⟨sq, hsq, hqueued, ?_⟩
  rw [acceptClient, submitRead, hread]
  simp only [newContext, setContext, Function.update_idem]

theorem resubmitted_answered {cqe : Cqe} {next : Sqe} {sq : SubmissionQueue} (hsq : sq.Valid)
    (hqueued : sq.queued = r.sq.queued ++ [next]) (hnext : next.userData = cqe.op.userData)
    (hwanted : r.wanted cqe = [next]) (hclients : r.clientsAfter cqe = r.clients) (bytes : UInt32) (total : UInt64) :
    r.Answered cqe
      { r.setContext cqe.op.userData (some ⟨next.fd, next.opcode, bytes⟩) with sq, totalBytesEchoed := total } where
  valid := hsq
  queued := by
    rw [hwanted]
    exact hqueued
  inFlight := rfl
  clients := hclients.symm
  owned := by
    intro others h
    rw [hwanted]
    exact h.reuse hnext bytes

theorem closeClient_answered {cqe : Cqe} {context : ConnectionContext} (hvalid : r.sq.Valid)
    (hwanted : r.wanted cqe = []) (hclients : r.clientsAfter cqe = r.clients.erase context.fd) :
    r.Answered cqe (r.closeClient cqe.op.userData context) where
  valid := hvalid
  queued := by
    rw [hwanted, List.append_nil]
    rfl
  inFlight := rfl
  clients := hclients.symm
  owned := by
    intro others h
    rw [hwanted]
    exact h.delete

section Handle

variable {fd : ℤ} {len bytes : UInt32} {ctx : ℕ} {res : ℤ}

theorem handle_accept_answered (hvalid : r.sq.Valid) (hcontext : r.contexts ctx = some ⟨fd, .accept, bytes⟩)
    (hroom : r.sq.queued.length + requests ⟨⟨.accept, fd, len, ctx⟩, res⟩ ≤ 512) :
    r.Answered ⟨⟨.accept, fd, len, ctx⟩, res⟩ (r.handleCompletion ctx res) := by
  by_cases hres : 0 ≤ res
  · simp only [requests, hres, if_true] at hroom
    have hwanted : r.wanted ⟨⟨.accept, fd, len, ctx⟩, res⟩ =
        [readSqe res (r.allocated + 1), acceptSqe r.listenFd (r.allocated + 2)] := if_pos hres
    obtain ⟨sq, hsq, hqueued, hclient⟩ := acceptClient_of_room hvalid (by omega) res
    obtain ⟨sq', hsq', hqueued', haccept⟩ := @submitSqe_of_room (r.acceptClient res)
      (by rw [hclient]; exact hsq) (by rw [hclient, hqueued, List.length_append, List.length_singleton]; omega)
      (acceptSqe (r.acceptClient res).listenFd ((r.acceptClient res).allocated + 1))
      ((r.acceptClient res).newContext { fd := (r.acceptClient res).listenFd, type := .accept })
    rw [hclient] at hqueued' haccept
    simp only [handleCompletion, hcontext, hres, if_true, submitAccept, hclient, haccept]
    refine ⟨hsq', hqueued'.trans ?_, rfl, (if_pos hres).symm, ?_⟩
    · rw [hqueued, hwanted, List.append_assoc]
      rfl
    · intro others h
      have hallocated := (h.allocate (readSqe res (r.allocated + 1)) rfl 0).allocate
        (acceptSqe r.listenFd (r.allocated + 2)) rfl 0
      rw [hwanted]
      exact (hallocated.perm ((List.reverse_perm [_, _, _]).append_right others)).delete
  · simp only [requests, hres, if_false] at hroom
    have hwanted : r.wanted ⟨⟨.accept, fd, len, ctx⟩, res⟩ = [acceptSqe r.listenFd (r.allocated + 1)] := if_neg hres
    obtain ⟨sq, hsq, hqueued, haccept⟩ := submitSqe_of_room hvalid (by omega)
      (acceptSqe r.listenFd (r.allocated + 1)) (r.newContext { fd := r.listenFd, type := .accept })
    simp only [handleCompletion, hcontext, hres, if_false, submitAccept, haccept]
    refine ⟨hsq, hqueued.trans (by rw [hwanted]), rfl, (if_neg hres).symm, ?_⟩
    intro others h
    have hallocated := h.allocate (acceptSqe r.listenFd (r.allocated + 1)) rfl 0
    rw [hwanted]
    exact (hallocated.perm (List.Perm.swap _ _ others)).delete

end Handle

theorem handle_transfer {cqe : Cqe} {bytes : UInt32} (hop : cqe.op.opcode ≠ .accept)
    (hcontext : r.contexts cqe.op.userData = some ⟨cqe.op.fd, cqe.op.opcode, bytes⟩) :
    ∃ (next : Sqe) (bytes' : UInt32) (total : UInt64), next.userData = cqe.op.userData ∧
      r.wanted cqe = (if 0 < cqe.res then [next] else []) ∧ requests cqe = (if 0 < cqe.res then 1 else 0) ∧
      r.clientsAfter cqe = (if 0 < cqe.res then r.clients else r.clients.erase cqe.op.fd) ∧
      r.handleCompletion cqe.op.userData cqe.res =
        if 0 < cqe.res then
          { r with totalBytesEchoed := total }.submitSqe next
            ({ r with totalBytesEchoed := total }.setContext cqe.op.userData (some ⟨next.fd, next.opcode, bytes'⟩))
        else r.closeClient cqe.op.userData ⟨cqe.op.fd, cqe.op.opcode, bytes⟩ := by
  obtain ⟨⟨opcode, fd, len, ctx⟩, res⟩ := cqe
  cases opcode with
  | accept => exact absurd rfl hop
  | read =>
    refine ⟨writeSqe fd ctx (UInt32.ofInt res), UInt32.ofInt res, r.totalBytesEchoed + UInt64.ofInt res, rfl, rfl, rfl,
      rfl, ?_⟩
    simp only [handleCompletion, hcontext]
    rfl
  | write =>
    refine ⟨readSqe fd ctx, bytes, r.totalBytesEchoed, rfl, rfl, rfl, rfl, ?_⟩
    simp only [handleCompletion, hcontext]
    rfl

theorem handle_transfer_answered {cqe : Cqe} {bytes : UInt32} (hvalid : r.sq.Valid) (hop : cqe.op.opcode ≠ .accept)
    (hcontext : r.contexts cqe.op.userData = some ⟨cqe.op.fd, cqe.op.opcode, bytes⟩)
    (hroom : r.sq.queued.length + requests cqe ≤ 512) :
    r.Answered cqe (r.handleCompletion cqe.op.userData cqe.res) := by
  obtain ⟨next, bytes', total, hnext, hwanted, hrequests, hclients, hhandle⟩ := handle_transfer hop hcontext
  rw [hhandle]
  rw [hrequests] at hroom
  split_ifs at hwanted hroom hclients ⊢ with hres
  · obtain ⟨sq, hsq, hqueued, hsubmit⟩ :=
      @submitSqe_of_room { r with totalBytesEchoed := total } hvalid hroom next
        ({ r with totalBytesEchoed := total }.setContext cqe.op.userData (some ⟨next.fd, next.opcode, bytes'⟩))
    rw [hsubmit]
    exact @resubmitted_answered r cqe next sq hsq hqueued hnext hwanted hclients bytes' total
  · exact closeClient_answered hvalid hwanted hclients

theorem handleCompletion_answered {cqe : Cqe} {bytes : UInt32} (hvalid : r.sq.Valid)
    (hcontext : r.contexts cqe.op.userData = some ⟨cqe.op.fd, cqe.op.opcode, bytes⟩)
    (hroom : r.sq.queued.length + requests cqe ≤ 512) :
    r.Answered cqe (r.handleCompletion cqe.op.userData cqe.res) := by
  by_cases hop : cqe.op.opcode = .accept
  · obtain ⟨⟨opcode, fd, len, ctx⟩, res⟩ := cqe
    obtain rfl : opcode = .accept := hop
    exact handle_accept_answered hvalid hcontext hroom
  · exact handle_transfer_answered hvalid hop hcontext hroom

theorem handle_accept_dropped {cqe : Cqe} {bytes : UInt32} (hvalid : r.sq.Valid) (hop : cqe.op.opcode = .accept)
    (hcontext : r.contexts cqe.op.userData = some ⟨cqe.op.fd, cqe.op.opcode, bytes⟩)
    (hfull : 512 < r.sq.queued.length + requests cqe) :
    ∃ added ⊆ r.wanted cqe, r.Handled cqe added (r.handleCompletion cqe.op.userData cqe.res) ∧
      ∀ op ∈ added, op.opcode ≠ .accept := by
  rw [hop] at hcontext
  by_cases hres : 0 ≤ cqe.res
  · simp only [requests, hop, hres, if_true] at hfull
    by_cases hroom : r.sq.queued.length < 512
    · obtain ⟨sq, hsq, hqueued, hclient⟩ := acceptClient_of_room hvalid hroom cqe.res
      have haccept := @submitSqe_of_full (r.acceptClient cqe.res)
        (by rw [hclient, hqueued, List.length_append, List.length_singleton]; omega)
      rw [hclient] at haccept
      simp only [handleCompletion, hcontext, hres, if_true, submitAccept, hclient, haccept]
      refine ⟨[readSqe cqe.res (r.allocated + 1)], ?_, ⟨hsq, hqueued, rfl, ?_⟩, ?_⟩
      · simp [wanted, hop, hres]
      · intro others h
        have hallocated := h.allocate (readSqe cqe.res (r.allocated + 1)) rfl 0
        exact (hallocated.perm (List.Perm.swap _ _ others)).delete
      · simp [readSqe]
    · have hclient := acceptClient_of_full (not_lt.mp hroom) cqe.res
      have haccept := @submitSqe_of_full (r.acceptClient cqe.res) (by rw [hclient]; exact not_lt.mp hroom)
      rw [hclient] at haccept
      simp only [handleCompletion, hcontext, hres, if_true, submitAccept, hclient, haccept]
      refine ⟨[], List.nil_subset _, ⟨hvalid, (List.append_nil _).symm, rfl, ?_⟩, List.forall_mem_nil _⟩
      intro others h
      -- the context of the client is left behind without an operation
      exact (h.allocate (acceptSqe cqe.res (r.allocated + 1)) rfl 0).tail.delete
  · simp only [requests, hop, hres, if_false] at hfull
    simp only [handleCompletion, hcontext, hres, if_false, submitAccept,
      submitSqe_of_full (Nat.le_of_lt_succ hfull)]
    exact ⟨[], List.nil_subset _, ⟨hvalid, (List.append_nil _).symm, rfl, fun _ h => h.delete⟩, List.forall_mem_nil _⟩

theorem handle_transfer_dropped {cqe : Cqe} {bytes : UInt32} (hvalid : r.sq.Valid)
    (hcontext : r.contexts cqe.op.userData = some ⟨cqe.op.fd, cqe.op.opcode, bytes⟩) (hop : cqe.op.opcode ≠ .accept)
    (hfull : 512 < r.sq.queued.length + requests cqe) :
    ∃ total, r.handleCompletion cqe.op.userData cqe.res = { r with totalBytesEchoed := total } := by
  have hcount := hvalid.count_le
  rw [← SubmissionQueue.length_queued] at hcount
  obtain ⟨next, bytes', total, -, -, hrequests, -, hhandle⟩ := handle_transfer hop hcontext
  rw [hrequests] at hfull
  split_ifs at hfull hhandle
  · refine ⟨total, hhandle.trans ?_⟩
    apply submitSqe_of_full
    exact Nat.le_of_lt_succ hfull
  · omega

theorem handleCompletion_handled {cqe : Cqe} {bytes : UInt32} (hvalid : r.sq.Valid)
    (hcontext : r.contexts cqe.op.userData = some ⟨cqe.op.fd, cqe.op.opcode, bytes⟩) :
    ∃ added ⊆ r.wanted cqe, r.Handled cqe added (r.handleCompletion cqe.op.userData cqe.res) ∧
      (cqe.op.opcode = .write → 0 < cqe.res → 512 ≤ r.sq.count → added = []) := by
  by_cases hroom : r.sq.queued.length + requests cqe ≤ 512
  · have hanswered := handleCompletion_answered hvalid hcontext hroom
    refine ⟨r.wanted cqe, List.Subset.refl _,
      ⟨hanswered.valid, hanswered.queued, hanswered.inFlight, hanswered.owned⟩, ?_⟩
    intro hop hres hfull
    simp only [requests, hop, hres, if_true, SubmissionQueue.length_queued] at hroom
    omega
  · by_cases hop : cqe.op.opcode = .accept
    · obtain ⟨added, hsubset, hhandled, -⟩ := handle_accept_dropped hvalid hop hcontext (not_le.mp hroom)
      refine ⟨added, hsubset, hhandled, ?_⟩
      intro hwrite
      rw [hop] at hwrite
      cases hwrite
    · obtain ⟨total, hdropped⟩ := handle_transfer_dropped hvalid hcontext hop (not_le.mp hroom)
      rw [hdropped]
      exact ⟨[], List.nil_subset _, ⟨hvalid, (List.append_nil _).symm, rfl, fun _ h => h.tail⟩, fun _ _ _ => rfl⟩

theorem submitSqe_allocated_le {prepared : IoUringReactor} (hprepared : r.allocated ≤ prepared.allocated) (sqe : Sqe) :
    r.allocated ≤ (r.submitSqe sqe prepared).allocated := by
  rw [submitSqe]
  split
  · exact le_rfl
  · exact hprepared

theorem acceptClient_allocated_le (r : IoUringReactor) (fd : ℤ) : r.allocated ≤ (r.acceptClient fd).allocated := by
  apply (Nat.le_succ r.allocated).trans
  exact @submitSqe_allocated_le (r.newContext { fd })
    ((r.newContext { fd }).setContext (r.allocated + 1) (some { fd, type := .read })) le_rfl _

theorem handleCompletion_allocated_le (r : IoUringReactor) (ctx : ℕ) (res : ℤ) :
    r.allocated ≤ (r.handleCompletion ctx res).allocated := by
  rw [handleCompletion]
  split
  · exact le_rfl
  · split
    · split_ifs
      · exact (r.acceptClient_allocated_le res).trans (submitSqe_allocated_le (Nat.le_succ _) _)
      · exact submitSqe_allocated_le (Nat.le_succ _) _
    · split_ifs
      · apply @submitSqe_allocated_le { r with totalBytesEchoed := r.totalBytesEchoed + UInt64.ofInt res }
        exact le_rfl
      · exact le_rfl
    · split_ifs
      · apply submitSqe_allocated_le
        exact le_rfl
      · exact le_rfl

end SystemLevel.AsyncIo.IoUringReactor
