import SystemLevel.AsyncIo.HandleCompletion

namespace SystemLevel.AsyncIo.IoUringReactor

variable {r : IoUringReactor} {ops others : List Sqe} {op : Sqe} {cqe : Cqe} {clients : List ℤ}

def transferFds (ops : List Sqe) : List ℤ := (ops.filter fun op => decide (op.opcode ≠ .accept)).map Sqe.fd

structure Balanced (ops : List Sqe) (clients : List ℤ) : Prop where
  accepts : ops.countP (fun op => decide (op.opcode = .accept)) = 1
  transfers : (transferFds ops).Perm clients
  distinct : clients.Nodup

theorem countP_transfers (ops : List Sqe) (fd : ℤ) :
    ops.countP (fun op => decide (Transfers op fd)) = (transferFds ops).count fd := by
  rw [transferFds, List.count, List.countP_map, List.countP_filter]
  apply List.countP_congr
  intro op _
  simp [Transfers, and_comm]

theorem transferFds_append (ops others : List Sqe) :
    transferFds (ops ++ others) = transferFds ops ++ transferFds others := by
  rw [transferFds, List.filter_append, List.map_append]
  rfl

theorem transferFds_cons_of_accept (hop : op.opcode = .accept) : transferFds (op :: others) = transferFds others := by
  rw [transferFds, List.filter_cons_of_neg (by simp [hop])]
  rfl

theorem transferFds_cons (hop : op.opcode ≠ .accept) : transferFds (op :: others) = op.fd :: transferFds others := by
  rw [transferFds, List.filter_cons_of_pos (by simp [hop])]
  rfl

namespace Balanced

theorem perm (h : Balanced ops clients) {ops' : List Sqe} (hperm : ops.Perm ops') : Balanced ops' clients where
  accepts := (hperm.countP_eq _).symm.trans h.accepts
  transfers := ((hperm.filter _).map Sqe.fd).symm.trans h.transfers
  distinct := h.distinct

theorem no_other_accept (h : Balanced (op :: others) clients) (hop : op.opcode = .accept) :
    others.countP (fun op => decide (op.opcode = .accept)) = 0 := by
  have haccepts := h.accepts
  rw [List.countP_cons_of_pos (by simp [hop])] at haccepts
  omega

theorem fd_mem (h : Balanced (op :: others) clients) (hop : op.opcode ≠ .accept) : op.fd ∈ clients := by
  apply h.transfers.mem_iff.mp
  rw [transferFds_cons hop]
  exact List.mem_cons_self

theorem no_other_transfer (h : Balanced (op :: others) clients) (hop : op.opcode ≠ .accept) :
    others.countP (fun other => decide (Transfers other op.fd)) = 0 := by
  have hdistinct := h.transfers.nodup_iff.mpr h.distinct
  rw [transferFds_cons hop] at hdistinct
  rw [countP_transfers, List.count_eq_zero]
  exact (List.nodup_cons.mp hdistinct).1

theorem accepted (h : Balanced (cqe.op :: others) r.clients) (hop : cqe.op.opcode = .accept)
    (hfresh : 0 ≤ cqe.res → cqe.res ∉ r.clients) : Balanced (r.wanted cqe ++ others) (r.clientsAfter cqe) := by
  have hnone := h.no_other_accept hop
  have hfds := h.transfers
  rw [transferFds_cons_of_accept hop] at hfds
  simp only [wanted, clientsAfter, hop]
  split_ifs with hres
  · refine ⟨?_, ?_, ?_⟩
    · simp [readSqe, acceptSqe, hnone]
    · rw [transferFds_append]
      exact (hfds.cons cqe.res).trans (List.perm_append_singleton cqe.res _).symm
    · exact (List.perm_append_singleton cqe.res _).nodup_iff.mpr (List.nodup_cons.mpr ⟨hfresh hres, h.distinct⟩)
  · refine ⟨?_, ?_, h.distinct⟩
    · simp [acceptSqe, hnone]
    · rw [transferFds_append]
      exact hfds

theorem goOn (h : Balanced (op :: others) clients) (hop : op.opcode ≠ .accept) {next : Sqe}
    (hnext : next.opcode ≠ .accept) (hfd : next.fd = op.fd) : Balanced (next :: others) clients where
  accepts := by
    have haccepts := h.accepts
    rw [List.countP_cons_of_neg (by simp [hop])] at haccepts
    rw [List.countP_cons_of_neg (by simp [hnext]), haccepts]
  transfers := by
    rw [transferFds_cons hnext, hfd, ← transferFds_cons hop]
    exact h.transfers
  distinct := h.distinct

theorem close (h : Balanced (op :: others) clients) (hop : op.opcode ≠ .accept) :
    Balanced others (clients.erase op.fd) where
  accepts := by
    have haccepts := h.accepts
    rw [List.countP_cons_of_neg (by simp [hop])] at haccepts
    exact haccepts
  transfers := by
    have herased := h.transfers.erase op.fd
    rw [transferFds_cons hop, List.erase_cons_head] at herased
    exact herased
  distinct := h.distinct.erase op.fd

theorem answered (h : Balanced (cqe.op :: others) r.clients)
    (hfresh : cqe.op.opcode = .accept → 0 ≤ cqe.res → cqe.res ∉ r.clients) :
    Balanced (r.wanted cqe ++ others) (r.clientsAfter cqe) := by
  cases hop : cqe.op.opcode with
  | accept => exact h.accepted hop (hfresh hop)
  | read =>
    have hne : cqe.op.opcode ≠ .accept := by simp [hop]
    simp only [wanted, clientsAfter, hop]
    split_ifs
    · exact h.goOn hne (by simp [writeSqe]) rfl
    · exact h.close hne
  | write =>
    have hne : cqe.op.opcode ≠ .accept := by simp [hop]
    simp only [wanted, clientsAfter, hop]
    split_ifs
    · exact h.goOn hne (by simp [readSqe]) rfl
    · exact h.close hne

end Balanced

structure Inv (r : IoUringReactor) : Prop where
  valid : r.sq.Valid
  owned : Owned r.outstanding r.contexts r.allocated
  balanced : Balanced r.outstanding r.clients
  posted : ∀ cqe ∈ r.completions, cqe.op.opcode = .accept → 0 ≤ cqe.res → cqe.res ∉ r.clients

theorem outstanding_cons {completions : List Cqe} (hcompletions : r.completions = cqe :: completions) :
    r.outstanding.Perm (cqe.op :: (r.sq.queued ++ r.inFlight ++ completions.map Cqe.op)) := by
  rw [outstanding, hcompletions, List.map_cons]
  exact List.perm_middle

theorem added_perm (queued added inFlight completed : List Sqe) :
    (queued ++ added ++ inFlight ++ completed).Perm (added ++ (queued ++ inFlight ++ completed)) := by
  rw [← List.append_assoc, ← List.append_assoc]
  exact (List.perm_append_comm.append_right _).append_right _

theorem outstanding_enter (hvalid : r.sq.Valid) : r.outstanding.Perm r.enter.outstanding := by
  obtain ⟨htaken, -, hempty⟩ := hvalid.enter
  rw [IoUringReactor.enter]
  split
  · simp only [outstanding, htaken, hempty, List.nil_append]
    exact List.perm_append_comm.append_right _
  · exact List.Perm.refl _

theorem outstanding_inFlight {index : ℕ} (hop : r.inFlight[index]? = some op) :
    r.outstanding.Perm (op :: (r.sq.queued ++ r.inFlight.eraseIdx index ++ r.completions.map Cqe.op)) := by
  obtain ⟨hindex, rfl⟩ := List.getElem?_eq_some_iff.mp hop
  apply (((List.getElem_cons_eraseIdx_perm hindex).symm.append_left _).append_right _).trans
  rw [List.append_assoc, List.cons_append, List.append_assoc]
  exact List.perm_middle

theorem outstanding_post (r : IoUringReactor) (index : ℕ) (res : ℤ) :
    r.outstanding.Perm (r.post index res).outstanding := by
  rw [IoUringReactor.post]
  split
  · exact List.Perm.refl _
  · next op hop =>
    apply (outstanding_inFlight hop).trans
    simp only [outstanding, List.map_append, List.map_singleton]
    rw [← List.append_assoc]
    exact (List.perm_append_singleton _ _).symm

theorem clientsAfter_subset (hop : cqe.op.opcode ≠ .accept) : r.clientsAfter cqe ⊆ r.clients := by
  intro fd hfd
  unfold clientsAfter at hfd
  split at hfd
  · contradiction
  all_goals
    split_ifs at hfd
    · exact hfd
    · exact List.mem_of_mem_erase hfd

theorem of_not_fits (h : ¬ r.Fits .handle) :
    ∃ left cqe completions, r.point = .handling left ∧ r.completions = cqe :: completions ∧
      512 < r.sq.queued.length + requests cqe := by
  cases hpoint : r.point with
  | entering => simp [Fits, hpoint] at h
  | harvesting => simp [Fits, hpoint] at h
  | handling left =>
    cases hcompletions : r.completions with
    | nil => simp [Fits, hpoint, hcompletions] at h
    | cons cqe completions =>
      simp only [Fits, hpoint, hcompletions, not_le] at h
      rw [← SubmissionQueue.length_queued] at h
      exact ⟨left, cqe, completions, rfl, rfl, h⟩

namespace Inv

theorem serves (h : Inv r) : r.Serves where
  accepts := h.balanced.accepts
  transfers := by
    intro fd hfd
    rw [countP_transfers, h.balanced.transfers.count_eq]
    exact List.count_eq_one_of_mem h.balanced.distinct hfd
  alive := by
    intro op hop
    obtain ⟨bytes, hcontext⟩ := h.owned.context op hop
    exact ⟨_, hcontext, rfl, rfl⟩

theorem of_perm {r' : IoUringReactor} (h : Inv r) (hvalid : r'.sq.Valid) (hperm : r.outstanding.Perm r'.outstanding)
    (hcontexts : r'.contexts = r.contexts) (hallocated : r'.allocated = r.allocated) (hclients : r'.clients = r.clients)
    (hposted : ∀ cqe ∈ r'.completions, cqe.op.opcode = .accept → 0 ≤ cqe.res → cqe.res ∉ r.clients) : Inv r' where
  valid := hvalid
  owned := by
    rw [hcontexts, hallocated]
    exact h.owned.perm hperm
  balanced := by
    rw [hclients]
    exact h.balanced.perm hperm
  posted := by
    rw [hclients]
    exact hposted

theorem enter (h : Inv r) : Inv r.enter := by
  have hperm := outstanding_enter h.valid
  obtain ⟨-, hvalid, -⟩ := h.valid.enter
  rw [IoUringReactor.enter] at hperm ⊢
  split
  · next hpoint =>
    simp only [hpoint] at hperm
    exact h.of_perm hvalid hperm rfl rfl rfl h.posted
  · exact h

theorem harvest (h : Inv r) : Inv r.harvest := by
  rw [IoUringReactor.harvest]
  split
  · exact h.of_perm h.valid (List.Perm.refl _) rfl rfl rfl h.posted
  · exact h

theorem post (h : Inv r) {index : ℕ} {res : ℤ} (hpossible : r.Possible (.post index res)) :
    Inv (r.post index res) := by
  rw [IoUringReactor.post]
  split
  · exact h
  · next op hop =>
    have hperm := r.outstanding_post index res
    simp only [IoUringReactor.post, hop] at hperm
    refine h.of_perm h.valid hperm rfl rfl rfl ?_
    · intro cqe hcqe haccept hres
      rcases List.mem_append.mp hcqe with hcqe | hcqe
      · exact h.posted cqe hcqe haccept hres
      · obtain rfl := List.mem_singleton.mp hcqe
        exact (hpossible op hop haccept hres).1

theorem handle (h : Inv r) (hfits : r.Fits .handle) : Inv r.handle := by
  rw [IoUringReactor.handle]
  split
  · next left cqe completions hpoint hcompletions =>
    have hperm := outstanding_cons hcompletions
    obtain ⟨bytes, hcontext⟩ := h.owned.context cqe.op (hperm.mem_iff.mpr List.mem_cons_self)
    have hroom : r.sq.queued.length + requests cqe ≤ 512 := by
      rw [SubmissionQueue.length_queued]
      simpa only [Fits, hpoint, hcompletions] using hfits
    have hanswered := handleCompletion_answered h.valid hcontext hroom
    have hfresh := h.posted cqe (by rw [hcompletions]; exact List.mem_cons_self)
    have hwanted := added_perm r.sq.queued (r.wanted cqe) r.inFlight (completions.map Cqe.op)
    refine ⟨hanswered.valid, ?_, ?_, ?_⟩
    · simp only [outstanding, hanswered.queued, hanswered.inFlight]
      exact (hanswered.owned _ (h.owned.perm hperm)).perm hwanted.symm
    · simp only [outstanding, hanswered.queued, hanswered.inFlight, hanswered.clients]
      exact ((h.balanced.perm hperm).answered hfresh).perm hwanted.symm
    · simp only [hanswered.clients]
      intro other hother haccept hres
      have hother' : other.op ∈ r.sq.queued ++ r.inFlight ++ completions.map Cqe.op :=
        List.mem_append_right _ (List.mem_map_of_mem hother)
      -- no second accept is outstanding, and a transfer adds no client
      by_cases hop : cqe.op.opcode = .accept
      · have hnone := List.countP_eq_zero.mp ((h.balanced.perm hperm).no_other_accept hop) other.op hother'
        simp [haccept] at hnone
      · intro hmem
        apply h.posted other _ haccept hres (clientsAfter_subset hop hmem)
        rw [hcompletions]
        exact List.mem_cons_of_mem cqe hother
  · exact h

theorem step (h : Inv r) {action : Action} (hpossible : r.Possible action) (hfits : r.Fits action) :
    Inv (r.step action) := by
  cases action with
  | enter => exact h.enter
  | harvest => exact h.harvest
  | handle => exact h.handle hfits
  | post index res => exact h.post hpossible

theorem not_serves (h : Inv r) (hfits : ¬ r.Fits .handle) : ¬ r.handle.Serves := by
  obtain ⟨left, cqe, completions, hpoint, hcompletions, hroom⟩ := of_not_fits hfits
  have hperm := outstanding_cons hcompletions
  obtain ⟨bytes, hcontext⟩ := h.owned.context cqe.op (hperm.mem_iff.mpr List.mem_cons_self)
  have hbalanced := h.balanced.perm hperm
  intro hserves
  simp only [IoUringReactor.handle, hpoint, hcompletions] at hserves
  by_cases hop : cqe.op.opcode = .accept
  · obtain ⟨added, -, hhandled, hadded⟩ := handle_accept_dropped h.valid hop hcontext hroom
    have hnone := hbalanced.no_other_accept hop
    have haccepts := hserves.accepts
    have hadded : added.countP (fun op => decide (op.opcode = .accept)) = 0 :=
      List.countP_eq_zero.mpr fun op hop => by simpa using hadded op hop
    simp only [outstanding, hhandled.queued, hhandled.inFlight, List.countP_append] at haccepts hnone
    omega
  · obtain ⟨total, hdropped⟩ := handle_transfer_dropped h.valid hcontext hop hroom
    have hserved := hserves.transfers cqe.op.fd
    rw [hdropped] at hserved
    have hnone := hbalanced.no_other_transfer hop
    exact absurd (hserved (hbalanced.fd_mem hop)) (hnone.trans_ne Nat.zero_ne_one)

end Inv

theorem init_eq (listenFd : ℤ) (sqes : UInt32 → Sqe) (sqArray : UInt32 → UInt32) :
    ∃ sq, sq.Valid ∧ sq.queued = [acceptSqe listenFd 1] ∧
      init listenFd sqes sqArray =
        { ({ listenFd, sq } : IoUringReactor).newContext { fd := listenFd, type := .accept } with sq } := by
  have hempty := SubmissionQueue.queued_initial sqes sqArray
  obtain ⟨sq, hsq, hqueued, hinit⟩ := @submitSqe_of_room { listenFd, sq := { sqes, sqArray } }
    (SubmissionQueue.valid_initial sqes sqArray) (by rw [hempty]; decide) (acceptSqe listenFd 1)
    (({ listenFd, sq := { sqes, sqArray } } : IoUringReactor).newContext { fd := listenFd, type := .accept })
  refine ⟨sq, hsq, ?_, hinit⟩
  rw [hqueued, hempty]
  rfl

theorem outstanding_init (listenFd : ℤ) (sqes : UInt32 → Sqe) (sqArray : UInt32 → UInt32) :
    (init listenFd sqes sqArray).outstanding = [acceptSqe listenFd 1] := by
  obtain ⟨sq, -, hqueued, hinit⟩ := init_eq listenFd sqes sqArray
  rw [hinit]
  simp only [outstanding, newContext, setContext, hqueued]
  rfl

theorem inv_init (listenFd : ℤ) (sqes : UInt32 → Sqe) (sqArray : UInt32 → UInt32) :
    Inv (init listenFd sqes sqArray) := by
  obtain ⟨sq, hsq, hqueued, hinit⟩ := init_eq listenFd sqes sqArray
  have houtstanding := outstanding_init listenFd sqes sqArray
  have hnone : Owned [] (fun _ => none) 0 := ⟨List.nodup_nil, List.forall_mem_nil _, fun _ _ => rfl⟩
  refine ⟨?_, ?_, ?_, ?_⟩
  · rw [hinit]
    exact hsq
  · rw [houtstanding, hinit]
    exact hnone.allocate (acceptSqe listenFd 1) rfl 0
  · rw [houtstanding, hinit]
    exact ⟨rfl, List.Perm.nil, List.nodup_nil⟩
  · rw [hinit]
    exact List.forall_mem_nil _

end SystemLevel.AsyncIo.IoUringReactor
