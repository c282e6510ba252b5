import SystemLevel.AsyncIo.EpollEchoServer

namespace SystemLevel.AsyncIo

open Runs

structure Socket.Served (socket : Socket) : Prop where
  shut : socket.shut = true
  echoed : socket.echoed = socket.sent

namespace ServerPoint

def inHand : ServerPoint → ℤ → List UInt8
  | .writing fd buffer totalWritten _, other => if other = fd then buffer.drop totalWritten else []
  | _, _ => []

def isAccepting : ServerPoint → Bool
  | .accepting _ => true
  | _ => false

theorem of_isAccepting {point : ServerPoint} (h : point.isAccepting = true) : ∃ events, point = .accepting events := by
  cases point with
  | accepting events => exact ⟨events, rfl⟩
  | dispatching events => cases h
  | reading fd events => cases h
  | writing fd buffer totalWritten events => cases h

end ServerPoint

theorem Socket.Reads.ended {socket : Socket} {result : IoResult} (h : socket.Reads result)
    (hagain : result ≠ .again) (hcount : ∀ n, result ≠ .count (n + 1)) : socket.shut = true ∧ socket.unread = [] := by
  cases result with
  | count n =>
    cases n with
    | zero => exact h.symm
    | succ n => exact absurd rfl (hcount n)
  | again => exact absurd rfl hagain
  | failed => exact h.elim

namespace EpollEchoServer

theorem Writes.not_failed {rest : List UInt8} {result : IoResult} (h : Writes rest result) (hagain : result ≠ .again)
    (hcount : ∀ n, result ≠ .count n) : False := by
  cases result with
  | count n => exact hcount n rfl
  | again => exact hagain rfl
  | failed => exact h

def ServesClosed (s : EpollEchoServer) : Prop := ∀ socket ∈ s.closed, socket.Served

/-- Nothing is unread when an event with `EPOLLRDHUP` is handled. A connection that `epoll_ctl` does not add was at its
end before it began. -/
def Drains (s : EpollEchoServer) : Action → Prop
  | .dispatch =>
    ∀ event ∈ s.nextEvent, event.epollrdhup = true → ∀ socket ∈ s.sockets event.fd, socket.unread = []
  | .accept client added =>
    s.point.isAccepting = true → added = false → ∀ accepted ∈ client, accepted.2.shut = true ∧ accepted.2.sent = []
  | _ => True

instance decidableDrains (s : EpollEchoServer) : ∀ action, Decidable (s.Drains action)
  | .dispatch =>
    inferInstanceAs (Decidable (∀ event ∈ s.nextEvent, event.epollrdhup = true →
      ∀ socket ∈ s.sockets event.fd, socket.unread = []))
  | .accept client added =>
    inferInstanceAs (Decidable (s.point.isAccepting = true → added = false →
      ∀ accepted ∈ client, accepted.2.shut = true ∧ accepted.2.sent = []))
  | .arrive _ _ | .shutdown _ | .epollWait _ | .read _ | .write _ => inferInstanceAs (Decidable True)

def Balanced (s : EpollEchoServer) : Prop :=
  ∀ fd, ∀ socket ∈ s.sockets fd, socket.sent = socket.echoed ++ (s.point.inHand fd ++ socket.unread)

variable {s : EpollEchoServer} {fd : ℤ} {socket : Socket} {events : List EpollEvent}

theorem mem_setSocket {other : ℤ} {found : Socket} (hmem : found ∈ (s.setSocket fd socket).sockets other) :
    other = fd ∧ found = socket ∨ other ≠ fd ∧ found ∈ s.sockets other := by
  simp only [setSocket] at hmem
  by_cases hother : other = fd
  · rw [hother, Function.update_self] at hmem
    exact Or.inl ⟨hother, (Option.some.inj hmem).symm⟩
  · rw [Function.update_of_ne hother] at hmem
    exact Or.inr ⟨hother, hmem⟩

theorem mem_closeClient {other : ℤ} (hmem : socket ∈ (s.closeClient fd).sockets other) :
    other ≠ fd ∧ socket ∈ s.sockets other := by
  have hne : other ≠ fd := by
    rintro rfl
    rw [closeClient] at hmem
    split at hmem
    · next hnone => exact Option.some_ne_none _ (hmem.symm.trans hnone)
    · simp only [Function.update_self, Option.mem_def, reduceCtorEq] at hmem
  refine ⟨hne, ?_⟩
  rw [closeClient] at hmem
  split at hmem
  · exact hmem
  · simp only [Function.update_of_ne hne] at hmem
    exact hmem

theorem servesClosed_closeClient (s : EpollEchoServer) (fd : ℤ) :
    (s.closeClient fd).ServesClosed ↔ s.ServesClosed ∧ ∀ socket ∈ s.sockets fd, socket.Served := by
  rw [closeClient]
  split
  · next hnone => simp [hnone]
  · next socket hsocket =>
    rw [ServesClosed, List.forall_mem_append, List.forall_mem_singleton, hsocket]
    simp [ServesClosed]

namespace Balanced

theorem of_point (h : s.Balanced) {point : ServerPoint} (hsame : ∀ fd, point.inHand fd = s.point.inHand fd) :
    ({ s with point } : EpollEchoServer).Balanced := by
  intro fd socket hsocket
  rw [hsame]
  exact h fd socket hsocket

theorem close (h : s.Balanced) (hother : ∀ other, other ≠ fd → s.point.inHand other = [])
    (events : List EpollEvent) :
    ({ s.closeClient fd with point := .dispatching events } : EpollEchoServer).Balanced := by
  intro other socket hsocket
  obtain ⟨hne, hsocket⟩ := mem_closeClient hsocket
  have hbalanced := h other socket hsocket
  rw [hother other hne] at hbalanced
  exact hbalanced

theorem advance (h : s.Balanced) {point : ServerPoint}
    (hother : ∀ other, other ≠ fd → point.inHand other = s.point.inHand other)
    (hsocket : socket.sent = socket.echoed ++ (point.inHand fd ++ socket.unread)) :
    ({ s.setSocket fd socket with point } : EpollEchoServer).Balanced := by
  intro other found hfound
  rcases mem_setSocket hfound with ⟨rfl, rfl⟩ | ⟨hne, hfound⟩
  · exact hsocket
  · rw [hother other hne]
    exact h other found hfound

theorem set (h : s.Balanced) (hsocket : socket.sent = socket.echoed ++ (s.point.inHand fd ++ socket.unread)) :
    (s.setSocket fd socket).Balanced :=
  h.advance (fun _ _ => rfl) hsocket

theorem served_iff (h : s.Balanced) (hsocket : socket ∈ s.sockets fd) (hinHand : s.point.inHand fd = []) :
    socket.Served ↔ socket.shut = true ∧ socket.unread = [] := by
  have hbalanced := h fd socket hsocket
  rw [hinHand, List.nil_append] at hbalanced
  constructor
  · rintro ⟨hshut, hechoed⟩
    refine ⟨hshut, ?_⟩
    rw [hechoed] at hbalanced
    exact List.self_eq_append_right.mp hbalanced
  · rintro ⟨hshut, hunread⟩
    refine ⟨hshut, ?_⟩
    rw [hbalanced, hunread, List.append_nil]

theorem arrive (h : s.Balanced) (fd : ℤ) (data : List UInt8) : (s.arrive fd data).Balanced := by
  rw [EpollEchoServer.arrive]
  split
  · exact h
  · next socket hsocket =>
    apply h.set
    simp only
    rw [h fd socket hsocket, List.append_assoc, List.append_assoc]

theorem shutdown (h : s.Balanced) (fd : ℤ) : (s.shutdown fd).Balanced := by
  rw [EpollEchoServer.shutdown]
  split
  · exact h
  · next socket hsocket => exact h.set (h fd socket hsocket)

theorem epollWait (h : s.Balanced) (events : List EpollEvent) : (s.epollWait events).Balanced := by
  rw [EpollEchoServer.epollWait]
  split
  · next hpoint =>
    intro fd socket hsocket
    obtain ⟨old, hold, rfl⟩ := Option.map_eq_some_iff.mp hsocket
    have hbalanced := h fd old hold
    rw [hpoint] at hbalanced
    split_ifs <;> exact hbalanced
  · exact h

theorem dispatch (h : s.Balanced) : s.dispatch.Balanced := by
  rw [EpollEchoServer.dispatch]
  split
  · next event events hpoint =>
    have hnone (fd : ℤ) : s.point.inHand fd = [] := by rw [hpoint]; rfl
    split_ifs
    · exact h.close (fun other _ => hnone other) events
    all_goals
      apply h.of_point
      intro fd
      rw [hnone]
      rfl
  · exact h

theorem handleAccept (h : s.Balanced) {client : Option (ℤ × Socket)} {added : Bool}
    (hpossible : s.Possible (.accept client added)) : (s.handleAccept client added).Balanced := by
  unfold EpollEchoServer.handleAccept
  split
  · next events fd socket hpoint =>
    obtain ⟨-, -, hunread, hechoed, -⟩ := hpossible _ rfl
    split_ifs
    · refine of_point (h.set ?_) fun fd => rfl
      rw [hpoint, hechoed, hunread]
      rfl
    · exact h
  · next events hpoint =>
    apply h.of_point
    intro fd
    rw [hpoint]
    rfl
  · exact h

theorem handleRead (h : s.Balanced) (bytesRead : IoResult) : (s.handleRead bytesRead).Balanced := by
  unfold EpollEchoServer.handleRead
  split
  · next fd events hpoint =>
    have hnone (fd : ℤ) : s.point.inHand fd = [] := by rw [hpoint]; rfl
    split
    · next socket n hsocket =>
      have hbalanced := h fd socket hsocket
      rw [hnone, List.nil_append] at hbalanced
      refine @advance s fd _ h (.writing fd (socket.unread.take (n + 1)) 0 events) ?_ ?_
      · intro other hne
        rw [hnone]
        exact if_neg hne
      · simp only [ServerPoint.inHand, if_true, List.drop_zero, List.take_append_drop]
        exact hbalanced
    · apply h.of_point
      intro fd
      rw [hnone]
      rfl
    · exact h.close (fun other _ => hnone other) events
  · exact h

theorem handleWrite (h : s.Balanced) (written : IoResult) : (s.handleWrite written).Balanced := by
  unfold EpollEchoServer.handleWrite
  split
  · next fd buffer totalWritten events hpoint =>
    have hother (other : ℤ) (hne : other ≠ fd) : s.point.inHand other = [] := by
      rw [hpoint]
      exact if_neg hne
    split
    · next socket n hsocket =>
      have hbalanced := h fd socket hsocket
      have hrest : (if totalWritten + n < buffer.length then ServerPoint.writing fd buffer (totalWritten + n) events
          else .reading fd events).inHand fd = (buffer.drop totalWritten).drop n := by
        rw [List.drop_drop]
        split_ifs with hmore
        · exact if_pos rfl
        · exact (List.drop_eq_nil_of_le (not_lt.mp hmore)).symm
      apply h.advance
      · intro other hne
        rw [hother other hne]
        split_ifs
        · exact if_neg hne
        · rfl
      · simp only [hpoint, ServerPoint.inHand, if_true] at hbalanced
        simp only [hrest]
        rw [List.append_assoc, ← List.append_assoc (List.take n _), List.take_append_drop]
        exact hbalanced
    · exact h
    · exact h.close hother events
  · exact h

theorem step (h : s.Balanced) {action : Action} (hpossible : s.Possible action) : (s.step action).Balanced := by
  cases action with
  | arrive fd data => exact h.arrive fd data
  | shutdown fd => exact h.shutdown fd
  | epollWait events => exact h.epollWait events
  | dispatch => exact h.dispatch
  | accept client added => exact h.handleAccept hpossible
  | read bytesRead => exact h.handleRead bytesRead
  | write written => exact h.handleWrite written

end Balanced

section Closing

theorem arrive_closed (s : EpollEchoServer) (fd : ℤ) (data : List UInt8) : (s.arrive fd data).closed = s.closed := by
  rw [arrive]
  split <;> rfl

theorem shutdown_closed (s : EpollEchoServer) (fd : ℤ) : (s.shutdown fd).closed = s.closed := by
  rw [shutdown]
  split <;> rfl

theorem epollWait_closed (s : EpollEchoServer) (events : List EpollEvent) :
    (s.epollWait events).closed = s.closed := by
  rw [epollWait]
  split <;> rfl

theorem dispatch_of_next {event : EpollEvent} (hnext : s.nextEvent = some event) :
    ∃ events, s.point = .dispatching (event :: events) := by
  unfold nextEvent at hnext
  split at hnext
  · next other events hpoint =>
    obtain rfl := Option.some.inj hnext
    exact ⟨events, hpoint⟩
  · cases hnext

theorem dispatch_serves_iff (h : s.Balanced) (hpossible : s.Possible .dispatch) :
    s.dispatch.ServesClosed ↔ s.ServesClosed ∧ s.Drains .dispatch := by
  rw [dispatch]
  split
  · next event events hpoint =>
    have hnext : s.nextEvent = some event := by rw [nextEvent, hpoint]
    obtain ⟨herr, hhup, hshut⟩ := hpossible event hnext
    have hdrains : s.Drains .dispatch ↔
        (event.epollrdhup = true → ∀ socket ∈ s.sockets event.fd, socket.unread = []) := by
      simp only [Drains, hnext, Option.mem_def, Option.some.injEq, forall_eq']
    rw [hdrains, herr, hhup, Bool.false_or, Bool.false_or]
    split_ifs with hrdhup
    · apply (servesClosed_closeClient s event.fd).trans
      apply and_congr_right'
      rw [forall_prop_of_true hrdhup]
      apply forall₂_congr
      intro socket hsocket
      rw [h.served_iff hsocket (by rw [hpoint]; rfl)]
      exact and_iff_right (hshut socket hsocket hrdhup)
    all_goals exact (and_iff_left fun htrue => absurd htrue hrdhup).symm
  · next hpoint =>
    refine (and_iff_left ?_).symm
    intro event hevent
    obtain ⟨events, hdispatching⟩ := dispatch_of_next hevent
    exact absurd hdispatching (hpoint event events)

theorem handleAccept_serves_iff {client : Option (ℤ × Socket)} {added : Bool}
    (hpossible : s.Possible (.accept client added)) :
    (s.handleAccept client added).ServesClosed ↔ s.ServesClosed ∧ s.Drains (.accept client added) := by
  unfold handleAccept
  split
  · next events fd socket hpoint =>
    obtain ⟨-, -, -, hechoed, -⟩ := hpossible _ rfl
    simp only [Drains, hpoint, ServerPoint.isAccepting, forall_true_left, Option.mem_def, Option.some.injEq, forall_eq']
    split_ifs with hadded
    · rw [hadded]
      exact (and_iff_left fun hfalse => absurd hfalse.symm Bool.false_ne_true).symm
    · rw [ServesClosed, List.forall_mem_append, List.forall_mem_singleton]
      apply and_congr_right'
      rw [forall_prop_of_true (Bool.eq_false_of_not_eq_true hadded)]
      constructor
      · intro hserved
        exact ⟨hserved.shut, hserved.echoed.symm.trans hechoed⟩
      · rintro ⟨hshut, hsent⟩
        exact ⟨hshut, hechoed.trans hsent.symm⟩
  · exact (and_iff_left fun _ _ _ hnone => absurd hnone (Option.not_mem_none _)).symm
  · next hsome hnone =>
    refine (and_iff_left ?_).symm
    intro haccepting _ accepted hclient
    obtain ⟨events, hpoint⟩ := ServerPoint.of_isAccepting haccepting
    exact absurd hclient (hsome events accepted.1 accepted.2 hpoint)

theorem handleRead_serves_iff (h : s.Balanced) {bytesRead : IoResult} (hpossible : s.Possible (.read bytesRead)) :
    (s.handleRead bytesRead).ServesClosed ↔ s.ServesClosed := by
  unfold handleRead
  split
  · next fd events hpoint =>
    have hnone : s.point.inHand fd = [] := by rw [hpoint]; rfl
    split
    · rfl
    · rfl
    · next hagain hcount =>
      apply (servesClosed_closeClient s fd).trans
      apply and_iff_left
      intro socket hsocket
      have hreads := hpossible socket (by rw [readFrom, hpoint]; exact hsocket)
      apply (h.served_iff hsocket hnone).mpr
      exact hreads.ended hagain fun n => hcount socket n hsocket
  · rfl

theorem handleWrite_serves_iff {written : IoResult} (hpossible : s.Possible (.write written)) :
    (s.handleWrite written).ServesClosed ↔ s.ServesClosed := by
  unfold handleWrite
  split
  · next fd buffer totalWritten events hpoint =>
    have hwrites := hpossible (buffer.drop totalWritten) (by rw [unwritten, hpoint]; rfl)
    split
    · rfl
    · rfl
    · next hagain hcount =>
      apply (servesClosed_closeClient s fd).trans
      apply and_iff_left
      intro socket hsocket
      exact (hwrites.not_failed hagain fun n => hcount socket n hsocket).elim
  · rfl

theorem step_serves_iff (h : s.Balanced) {action : Action} (hpossible : s.Possible action) :
    (s.step action).ServesClosed ↔ s.ServesClosed ∧ s.Drains action := by
  have hkept {s' : EpollEchoServer} (hclosed : s'.closed = s.closed) : s'.ServesClosed ↔ s.ServesClosed ∧ True := by
    rw [and_true, ServesClosed, hclosed]
    rfl
  cases action with
  | arrive fd data => exact hkept (s.arrive_closed fd data)
  | shutdown fd => exact hkept (s.shutdown_closed fd)
  | epollWait events => exact hkept (s.epollWait_closed events)
  | dispatch => exact dispatch_serves_iff h hpossible
  | accept client added => exact handleAccept_serves_iff hpossible
  | read bytesRead => exact (handleRead_serves_iff h hpossible).trans (and_true _).symm.to_iff
  | write written => exact (handleWrite_serves_iff hpossible).trans (and_true _).symm.to_iff

end Closing

theorem balanced_initial (listenFd : ℤ) : Balanced { listenFd } := by
  intro fd socket hsocket
  cases hsocket

theorem balanced_run (listenFd : ℤ) {actions : List Action}
    (hpossible : Lawful (fun past => (run listenFd past).Possible) actions) : (run listenFd actions).Balanced := by
  refine hpossible.induct (motive := fun _ (s : EpollEchoServer) => s.Balanced) (balanced_initial listenFd) ?_
  intro past action hallowed h
  exact h.step hallowed

theorem echoes_before_close_iff (listenFd : ℤ) (actions : List Action)
    (hpossible : Lawful (fun past => (run listenFd past).Possible) actions) :
    (∀ socket ∈ (run listenFd actions).closed, socket.Served) ↔
      Lawful (fun past => (run listenFd past).Drains) actions := by
  change (run listenFd actions).ServesClosed ↔ _
  apply hpossible.holds_iff (balanced_initial listenFd) (List.forall_mem_nil _)
  · intro s action h
    exact h.step
  · intro s action h
    exact step_serves_iff h

def sendsThree : List Action :=
  [.epollWait [{ fd := 3, epollin := true }], .dispatch, .accept (some (5, {})) true, .accept none true,
    .arrive 5 [1, 2, 3]]

def shutsDownLate : List Action :=
  sendsThree ++ [Action.epollWait [{ fd := 5, epollin := true }], Action.dispatch, Action.read (.count 2),
    Action.write .again, Action.write (.count 1), Action.write (.count 1), Action.read (.count 1),
    Action.write (.count 1), Action.read .again, Action.shutdown 5,
    Action.epollWait [{ fd := 5, epollin := true, epollrdhup := true }], Action.dispatch]

theorem shutsDownLate_echoed :
    (∀ socket ∈ (run 3 shutsDownLate).closed, socket.Served) ∧
      (run 3 shutsDownLate).closed = [{ sent := [1, 2, 3], echoed := [1, 2, 3], shut := true }] := by
  refine ⟨(echoes_before_close_iff 3 shutsDownLate ?_).mpr ?_, ?_⟩
  · decide +kernel
  · decide +kernel
  · decide +kernel

theorem unread_at_shutdown_lost :
    let actions := sendsThree ++
      [Action.shutdown 5, Action.epollWait [{ fd := 5, epollin := true, epollrdhup := true }], Action.dispatch]
    Lawful (fun past => (run 3 past).Possible) actions ∧
      (run 3 actions).closed = [{ sent := [1, 2, 3], unread := [1, 2, 3], shut := true }] := by
  decide +kernel

end EpollEchoServer

end SystemLevel.AsyncIo
