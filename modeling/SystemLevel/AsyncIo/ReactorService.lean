import SystemLevel.AsyncIo.ReactorInvariant

namespace SystemLevel.AsyncIo.IoUringReactor

open Runs

variable {r : IoUringReactor} {cqe : Cqe} {listenFd : ℤ} {sqes : UInt32 → Sqe} {sqArray : UInt32 → UInt32}
  {actions : List Action}

theorem run_concat (past : List Action) (action : Action) :
    run listenFd sqes sqArray (past ++ [action]) = (run listenFd sqes sqArray past).step action :=
  run_snoc step (init listenFd sqes sqArray) past action

theorem never_strands_iff
    (hpossible : Lawful (fun past action => (run listenFd sqes sqArray past).Possible action) actions) :
    (∀ done, done <+: actions → (run listenFd sqes sqArray done).Serves) ↔
      Lawful (fun past action => (run listenFd sqes sqArray past).Fits action) actions := by
  refine @Lawful.always_iff _ _ step (init listenFd sqes sqArray) Inv Serves Possible Fits
    (inv_init listenFd sqes sqArray) ?_ ?_ ?_ actions hpossible
  · intro r h
    exact h.serves
  · intro r action h
    exact h.step
  · intro r action h hfits
    cases action with
    | enter => exact absurd trivial hfits
    | harvest => exact absurd trivial hfits
    | post => exact absurd trivial hfits
    | handle => exact h.not_serves hfits

def oneMessage : List Action :=
  [.enter, .post 0 5, .harvest, .handle, .enter, .post 0 3, .harvest, .handle]

theorem oneMessage_never_strands :
    Lawful (fun past action => (run 3 (fun _ => acceptSqe 0 0) (fun _ => 0) past).Fits action) oneMessage ∧
      ∀ done, done <+: oneMessage → (run 3 (fun _ => acceptSqe 0 0) (fun _ => 0) done).Serves := by
  have hfits :
      Lawful (fun past action => (run 3 (fun _ => acceptSqe 0 0) (fun _ => 0) past).Fits action) oneMessage := by
    decide +kernel
  exact ⟨hfits, (never_strands_iff (by decide +kernel)).mpr hfits⟩

def followUps : EventType → List EventType
  | .accept => [.read, .accept]
  | .read => [.write]
  | .write => [.read]

theorem opcodes_wanted (hres : 0 < cqe.res) : (r.wanted cqe).map Sqe.opcode = followUps cqe.op.opcode := by
  cases hop : cqe.op.opcode <;> simp [wanted, hop, hres, hres.le, followUps, acceptSqe, readSqe, writeSqe]

theorem requests_eq (hres : 0 < cqe.res) : requests cqe = (followUps cqe.op.opcode).length := by
  cases hop : cqe.op.opcode <;> simp [requests, hop, hres, hres.le, followUps]

theorem clientsAfter_eq (hres : 0 < cqe.res) :
    r.clientsAfter cqe = if cqe.op.opcode = .accept then r.clients ++ [cqe.res] else r.clients := by
  cases hop : cqe.op.opcode <;> simp [clientsAfter, hop, hres, hres.le]

structure Looks (r : IoUringReactor) (queued inFlight : List EventType) (completions : List (EventType × ℤ))
    (clients : List ℤ) (point : Point) : Prop where
  inv : Inv r
  queued : r.sq.queued.map Sqe.opcode = queued
  inFlight : r.inFlight.map Sqe.opcode = inFlight
  completions : r.completions.map (fun cqe => (cqe.op.opcode, cqe.res)) = completions
  clients : r.clients = clients
  point : r.point = point

namespace Looks

variable {queued inFlight inFlight' : List EventType} {completions : List (EventType × ℤ)} {clients : List ℤ}
  {point : Point} {kind : EventType} {res : ℤ} {left : ℕ}

theorem init (listenFd : ℤ) (sqes : UInt32 → Sqe) (sqArray : UInt32 → UInt32) :
    Looks (init listenFd sqes sqArray) [.accept] [] [] [] .entering := by
  obtain ⟨sq, -, hqueued, hinit⟩ := init_eq listenFd sqes sqArray
  refine ⟨inv_init listenFd sqes sqArray, ?_, ?_, ?_, ?_, ?_⟩
  all_goals rw [hinit]
  · rw [hqueued]
    rfl
  all_goals rfl

theorem enter (h : Looks r queued inFlight completions clients .entering) :
    Looks r.enter [] (inFlight ++ queued) completions clients .harvesting := by
  obtain ⟨htaken, -, hempty⟩ := h.inv.valid.enter
  refine ⟨h.inv.enter, ?_, ?_, ?_, ?_, ?_⟩
  all_goals simp only [IoUringReactor.enter, h.point]
  · rw [hempty, List.map_nil]
  · rw [htaken, List.map_append, h.inFlight, h.queued]
  · exact h.completions
  · exact h.clients

theorem post (inFlight : List EventType) (res : ℤ)
    (h : Looks r queued (inFlight ++ kind :: inFlight') completions clients point)
    (hres : kind = .accept → 0 ≤ res → res ∉ clients ∧ ∀ cqe ∈ completions, cqe.1 = .accept → cqe.2 ≠ res) :
    r.Possible (.post inFlight.length res) ∧
      Looks (r.post inFlight.length res) queued (inFlight ++ inFlight') (completions ++ [(kind, res)]) clients
        point := by
  obtain ⟨before, rest, hsplit, rfl, hrest⟩ := List.map_eq_append_iff.mp h.inFlight
  obtain ⟨op, after, rfl, rfl, rfl⟩ := List.map_eq_cons_iff.mp hrest
  have hop : r.inFlight[(before.map Sqe.opcode).length]? = some op := by
    rw [hsplit, List.length_map, List.getElem?_append_right le_rfl, Nat.sub_self]
    rfl
  have hpossible : r.Possible (.post (before.map Sqe.opcode).length res) := by
    intro op' hop' haccept hpositive
    rw [hop] at hop'
    obtain rfl := Option.some.inj hop'
    obtain ⟨hclients, hcompletions⟩ := hres haccept hpositive
    refine ⟨by rw [h.clients]; exact hclients, fun cqe hcqe => hcompletions (cqe.op.opcode, cqe.res) ?_⟩
    rw [← h.completions]
    exact List.mem_map_of_mem hcqe
  refine ⟨hpossible, h.inv.post hpossible, ?_, ?_, ?_, ?_, ?_⟩
  all_goals simp only [IoUringReactor.post, hop]
  · exact h.queued
  · rw [hsplit, List.length_map, List.eraseIdx_append_of_length_le le_rfl, Nat.sub_self, List.eraseIdx_cons_zero,
      List.map_append]
  · rw [List.map_append, h.completions, List.map_singleton]
  · exact h.clients
  · exact h.point

theorem harvest (h : Looks r queued inFlight completions clients .harvesting) (hsome : completions ≠ []) :
    Looks r.harvest queued inFlight completions clients (.handling completions.length) := by
  have hlength : r.completions.length = completions.length := by rw [← h.completions, List.length_map]
  refine ⟨h.inv.harvest, ?_, ?_, ?_, ?_, ?_⟩
  all_goals simp only [IoUringReactor.harvest, h.point, hlength]
  · exact h.queued
  · exact h.inFlight
  · exact h.completions
  · exact h.clients
  · exact if_neg fun hzero => hsome (List.length_eq_zero_iff.mp hzero)

theorem handle (h : Looks r queued inFlight ((kind, res) :: completions) clients (.handling left)) (hres : 0 < res)
    (hroom : queued.length + (followUps kind).length ≤ 512) :
    Looks r.handle (queued ++ followUps kind) inFlight completions
      (if kind = .accept then clients ++ [res] else clients)
      (if left = 1 then .entering else .handling (left - 1)) := by
  obtain ⟨cqe, rest, hcompletions, hcqe, hrest⟩ := List.map_eq_cons_iff.mp h.completions
  obtain ⟨rfl, rfl⟩ := Prod.mk.inj hcqe
  obtain ⟨bytes, hcontext⟩ :=
    h.inv.owned.context cqe.op ((outstanding_cons hcompletions).mem_iff.mpr List.mem_cons_self)
  have hspace : r.sq.queued.length + requests cqe ≤ 512 := by
    rw [requests_eq hres, ← List.length_map Sqe.opcode, h.queued]
    exact hroom
  have hanswered := handleCompletion_answered h.inv.valid hcontext hspace
  have hfits : r.Fits .handle := by
    simp only [Fits, h.point, hcompletions]
    rw [← SubmissionQueue.length_queued]
    exact hspace
  refine ⟨h.inv.handle hfits, ?_, ?_, ?_, ?_, ?_⟩
  all_goals simp only [IoUringReactor.handle, h.point, hcompletions]
  · rw [hanswered.queued, List.map_append, h.queued, opcodes_wanted hres]
  · rw [hanswered.inFlight, h.inFlight]
  · exact hrest
  · rw [hanswered.clients, clientsAfter_eq hres, h.clients]

theorem stops_accepting (h : Looks r queued inFlight ((.accept, res) :: completions) clients (.handling 1))
    (hres : 0 ≤ res) (hfull : 511 ≤ queued.length) : r.handle.point = .entering ∧ ¬ r.handle.Serves := by
  obtain ⟨cqe, rest, hcompletions, hcqe, -⟩ := List.map_eq_cons_iff.mp h.completions
  obtain ⟨hop, rfl⟩ := Prod.mk.inj hcqe
  constructor
  · simp only [IoUringReactor.handle, h.point, hcompletions]
    rfl
  · apply h.inv.not_serves
    simp only [Fits, h.point, hcompletions, requests, hop, hres, if_true, not_le]
    rw [← SubmissionQueue.length_queued, ← List.length_map Sqe.opcode, h.queued]
    omega

end Looks

variable (listenFd sqes sqArray) in
def Reaches (past : List Action) (queued inFlight : List EventType) (completions : List (EventType × ℤ))
    (clients : List ℤ) (point : Point) : Prop :=
  Lawful (fun past action => (run listenFd sqes sqArray past).Possible action) past ∧
    Looks (run listenFd sqes sqArray past) queued inFlight completions clients point

namespace Reaches

variable {past : List Action} {queued inFlight inFlight' : List EventType} {completions : List (EventType × ℤ)}
  {clients : List ℤ} {point : Point} {kind : EventType} {res : ℤ} {left : ℕ}

theorem snoc (h : Reaches listenFd sqes sqArray past queued inFlight completions clients point) (action : Action)
    (hpossible : (run listenFd sqes sqArray past).Possible action) {queued' inFlight' : List EventType}
    {completions' : List (EventType × ℤ)} {clients' : List ℤ} {point' : Point}
    (hlooks : Looks ((run listenFd sqes sqArray past).step action) queued' inFlight' completions' clients' point') :
    Reaches listenFd sqes sqArray (past ++ [action]) queued' inFlight' completions' clients' point' := by
  rw [Reaches, lawful_snoc, run_concat]
  exact ⟨⟨h.1, hpossible⟩, hlooks⟩

theorem enter (h : Reaches listenFd sqes sqArray past queued inFlight completions clients .entering) :
    Reaches listenFd sqes sqArray (past ++ [Action.enter]) [] (inFlight ++ queued) completions clients .harvesting := by
  exact h.snoc .enter trivial h.2.enter

theorem post (inFlight : List EventType) (res : ℤ)
    (h : Reaches listenFd sqes sqArray past queued (inFlight ++ kind :: inFlight') completions clients point)
    (hres : kind = .accept → 0 ≤ res → res ∉ clients ∧ ∀ cqe ∈ completions, cqe.1 = .accept → cqe.2 ≠ res) :
    Reaches listenFd sqes sqArray (past ++ [Action.post inFlight.length res]) queued (inFlight ++ inFlight')
      (completions ++ [(kind, res)]) clients point := by
  obtain ⟨hpossible, hlooks⟩ := h.2.post inFlight res hres
  exact h.snoc _ hpossible hlooks

theorem harvest (h : Reaches listenFd sqes sqArray past queued inFlight completions clients .harvesting)
    (hsome : completions ≠ []) :
    Reaches listenFd sqes sqArray (past ++ [Action.harvest]) queued inFlight completions clients
      (.handling completions.length) := by
  exact h.snoc .harvest trivial (h.2.harvest hsome)

theorem handle
    (h : Reaches listenFd sqes sqArray past queued inFlight ((kind, res) :: completions) clients (.handling left))
    (hres : 0 < res) (hroom : queued.length + (followUps kind).length ≤ 512) :
    Reaches listenFd sqes sqArray (past ++ [Action.handle]) (queued ++ followUps kind) inFlight completions
      (if kind = .accept then clients ++ [res] else clients)
      (if left = 1 then .entering else .handling (left - 1)) := by
  exact h.snoc .handle trivial (h.2.handle hres hroom)

end Reaches

def arrivals (n : ℕ) : List Action :=
  .enter :: (List.range n).flatMap fun k : ℕ => [.post k (5 + (k : ℤ)), .harvest, .handle, .enter]

theorem arrivals_succ (n : ℕ) :
    arrivals (n + 1) =
      arrivals n ++ [Action.post n (5 + n)] ++ [Action.harvest] ++ [Action.handle] ++ [Action.enter] := by
  simp [arrivals, List.range_succ]

theorem reaches_arrivals (n : ℕ) :
    Reaches listenFd sqes sqArray (arrivals n) [] (List.replicate n EventType.read ++ [EventType.accept]) []
      ((List.range n).map fun k : ℕ => 5 + (k : ℤ)) .harvesting := by
  induction n with
  | zero => exact @Reaches.enter _ _ _ [] _ _ _ _ ⟨lawful_nil, Looks.init listenFd sqes sqArray⟩
  | succ n ih =>
    have hposted := ih.post (List.replicate n .read) (5 + n) fun _ _ => ⟨by simp, nofun⟩
    rw [List.length_replicate, List.append_nil, List.nil_append] at hposted
    have hhandled := (hposted.harvest (by simp)).handle (by omega) (by simp [followUps])
    have hentered := hhandled.enter
    rw [arrivals_succ, List.range_succ, List.map_append, List.replicate_succ']
    simpa [followUps] using hentered

theorem reaches_messages (n m : ℕ) (hm : m ≤ n) :
    Reaches listenFd sqes sqArray (arrivals n ++ List.replicate m (Action.post 0 1)) []
      (List.replicate (n - m) EventType.read ++ [EventType.accept]) (List.replicate m (.read, 1))
      ((List.range n).map fun k : ℕ => 5 + (k : ℤ)) .harvesting := by
  induction m with
  | zero => simpa using reaches_arrivals n
  | succ m ih =>
    have hread : n - m = n - (m + 1) + 1 := by omega
    have hstate := ih (by omega)
    rw [hread, List.replicate_succ] at hstate
    have hposted := Reaches.post [] 1 hstate nofun
    rw [List.replicate_succ', List.replicate_succ', ← List.append_assoc]
    exact hposted

def crowd (n : ℕ) : List Action :=
  arrivals n ++ List.replicate n (Action.post 0 1) ++ [Action.post 0 (5 + n)] ++ [Action.harvest]

theorem reaches_crowd (n m : ℕ) (hm : m ≤ n) (hroom : m ≤ 512) :
    Reaches listenFd sqes sqArray (crowd n ++ List.replicate m Action.handle) (List.replicate m .write) []
      (List.replicate (n - m) (EventType.read, 1) ++ [(EventType.accept, 5 + (n : ℤ))])
      ((List.range n).map fun k : ℕ => 5 + (k : ℤ)) (.handling (n + 1 - m)) := by
  induction m with
  | zero =>
    have hstate := @reaches_messages listenFd sqes sqArray n n le_rfl
    rw [Nat.sub_self] at hstate
    have hposted := Reaches.post [] (5 + n) hstate fun _ _ => ⟨by simp, by simp⟩
    have hharvested := hposted.harvest (by simp)
    simpa [crowd] using hharvested
  | succ m ih =>
    have hread : n - m = n - (m + 1) + 1 := by omega
    have hstate := ih (by omega) (by omega)
    rw [hread, List.replicate_succ] at hstate
    have hhandled := hstate.handle (by decide) (by simpa [followUps] using hroom)
    have hleft : n + 1 - m ≠ 1 := by omega
    rw [if_neg hleft] at hhandled
    rw [List.replicate_succ', List.replicate_succ', ← List.append_assoc]
    exact hhandled

def overload : List Action := crowd 511 ++ List.replicate 511 Action.handle ++ [Action.handle]

theorem overload_stops_accepting :
    Lawful (fun past action => (run 3 (fun _ => acceptSqe 0 0) (fun _ => 0) past).Possible action) overload ∧
      (run 3 (fun _ => acceptSqe 0 0) (fun _ => 0) overload).point = .entering ∧
      ¬ (run 3 (fun _ => acceptSqe 0 0) (fun _ => 0) overload).Serves := by
  have h := @reaches_crowd 3 (fun _ => acceptSqe 0 0) (fun _ => 0) 511 511 le_rfl (by decide)
  rw [Nat.sub_self, List.replicate_zero, List.nil_append, Nat.add_sub_cancel_left] at h
  rw [overload, lawful_snoc, run_concat]
  exact ⟨⟨h.1, trivial⟩, h.2.stops_accepting (by decide) (by rw [List.length_replicate])⟩

end SystemLevel.AsyncIo.IoUringReactor
