import SystemLevel.AsyncIo.EchoBeforeClose

/-!
An edge-triggered event comes only once. No bytes are left unread for want of another one, since `handle_read` goes on
until `EAGAIN`.
-/

namespace SystemLevel.AsyncIo

open Runs

namespace ServerPoint

def pending : ServerPoint → List EpollEvent
  | .dispatching events => events
  | .accepting events => events
  | .reading _ events => events
  | .writing _ _ _ events => events

def Handles : ServerPoint → ℤ → Prop
  | .reading fd _, other => other = fd
  | .writing fd _ _ _, other => other = fd
  | _, _ => False

def Awaits (point : ServerPoint) (fd : ℤ) : Prop :=
  point.Handles fd ∨ ∃ event ∈ point.pending, event.fd = fd ∧ event.epollin = true

theorem Awaits.elsewhere {current point point' : ServerPoint} (hpoint : current = point)
    (hpending : point'.pending = point.pending) (fd : ℤ) (hnot : ¬ point.Handles fd) (h : current.Awaits fd) :
    point'.Awaits fd := by
  rw [hpoint] at h
  rcases h with hfd | hevent
  · exact absurd hfd hnot
  · rw [← hpending] at hevent
    exact Or.inr hevent

end ServerPoint

namespace EpollEchoServer

structure Noticed (s : EpollEchoServer) : Prop where
  clients : ∀ fd, ∀ socket ∈ s.sockets fd, fd ≠ s.listenFd
  unread : ∀ fd, ∀ socket ∈ s.sockets fd, socket.unread ≠ [] → socket.ready = true ∨ s.point.Awaits fd

variable {s : EpollEchoServer} {fd : ℤ} {socket : Socket}

theorem closeClient_listenFd (s : EpollEchoServer) (fd : ℤ) : (s.closeClient fd).listenFd = s.listenFd := by
  rw [closeClient]
  split <;> rfl

namespace Noticed

theorem advance (h : s.Noticed) {point : ServerPoint} (hclient : fd ≠ s.listenFd)
    (hother : ∀ other, other ≠ fd → s.point.Awaits other → point.Awaits other)
    (hsocket : socket.unread ≠ [] → socket.ready = true ∨ point.Awaits fd) :
    ({ s.setSocket fd socket with point } : EpollEchoServer).Noticed where
  clients := by
    intro other found hfound
    rcases mem_setSocket hfound with ⟨rfl, rfl⟩ | ⟨-, hfound⟩
    · exact hclient
    · exact h.clients other found hfound
  unread := by
    intro other found hfound hunread
    rcases mem_setSocket hfound with ⟨rfl, rfl⟩ | ⟨hne, hfound⟩
    · exact hsocket hunread
    · exact (h.unread other found hfound hunread).imp_right (hother other hne)

theorem set (h : s.Noticed) (hclient : fd ≠ s.listenFd) (hready : socket.unread ≠ [] → socket.ready = true) :
    (s.setSocket fd socket).Noticed :=
  h.advance hclient (fun _ _ hawaits => hawaits) fun hunread => Or.inl (hready hunread)

theorem of_point (h : s.Noticed) {point : ServerPoint}
    (hawaits : ∀ fd, ∀ socket ∈ s.sockets fd, socket.unread ≠ [] → s.point.Awaits fd → point.Awaits fd) :
    ({ s with point } : EpollEchoServer).Noticed where
  clients := h.clients
  unread := by
    intro fd socket hsocket hunread
    exact (h.unread fd socket hsocket hunread).imp_right (hawaits fd socket hsocket hunread)

theorem close (h : s.Noticed) {events : List EpollEvent}
    (hother : ∀ other, other ≠ fd → s.point.Awaits other → (ServerPoint.dispatching events).Awaits other) :
    ({ s.closeClient fd with point := .dispatching events } : EpollEchoServer).Noticed where
  clients := by
    intro other found hfound
    simp only [closeClient_listenFd]
    exact h.clients other found (mem_closeClient hfound).2
  unread := by
    intro other found hfound hunread
    obtain ⟨hne, hfound⟩ := mem_closeClient hfound
    exact (h.unread other found hfound hunread).imp_right (hother other hne)

theorem arrive (h : s.Noticed) (fd : ℤ) (data : List UInt8) : (s.arrive fd data).Noticed := by
  rw [EpollEchoServer.arrive]
  split
  · exact h
  · next socket hsocket => exact h.set (h.clients fd socket hsocket) fun _ => rfl

theorem shutdown (h : s.Noticed) (fd : ℤ) : (s.shutdown fd).Noticed := by
  rw [EpollEchoServer.shutdown]
  split
  · exact h
  · next socket hsocket => exact h.set (h.clients fd socket hsocket) fun _ => rfl

theorem epollWait (h : s.Noticed) {events : List EpollEvent} (hpossible : s.Possible (.epollWait events)) :
    (s.epollWait events).Noticed := by
  rw [EpollEchoServer.epollWait]
  split
  · next hpoint =>
    refine ⟨?_, ?_⟩
    · intro fd socket hsocket
      obtain ⟨old, hold, -⟩ := Option.map_eq_some_iff.mp hsocket
      exact h.clients fd old hold
    · intro fd socket hsocket
      obtain ⟨old, hold, rfl⟩ := Option.map_eq_some_iff.mp hsocket
      split_ifs with hevent
      · intro hunread
        obtain ⟨event, hmem, rfl⟩ := List.mem_map.mp hevent
        exact Or.inr (Or.inr ⟨event, hmem, rfl, hpossible event hmem old hold hunread⟩)
      · intro hunread
        apply (h.unread fd old hold hunread).imp_right
        intro hawaits
        rw [hpoint] at hawaits
        rcases hawaits with hnone | ⟨event, hmem, -⟩
        · exact hnone.elim
        · cases hmem
  · exact h

theorem dispatch (h : s.Noticed) : s.dispatch.Noticed := by
  rw [EpollEchoServer.dispatch]
  split
  · next event events hpoint =>
    -- an event that is awaited on another connection is still to come
    have htail {point : ServerPoint} (hpending : point.pending = events) {fd : ℤ} (hne : ¬ (event.fd = fd ∧
        event.epollin = true)) (hawaits : s.point.Awaits fd) : point.Awaits fd := by
      rw [hpoint] at hawaits
      rcases hawaits with hnone | ⟨other, hother, hreads⟩
      · exact hnone.elim
      · rcases List.mem_cons.mp hother with rfl | hother
        · exact absurd hreads hne
        · exact Or.inr ⟨other, by rwa [hpending], hreads⟩
    split_ifs with hcloses hlisten hin
    · apply h.close
      intro other hne
      exact htail rfl fun hreads => hne hreads.1.symm
    · apply h.of_point
      intro fd socket hsocket _
      exact htail rfl fun hreads => h.clients fd socket hsocket (hreads.1.symm.trans hlisten)
    · apply h.of_point
      intro fd socket hsocket _ hawaits
      by_cases hfd : fd = event.fd
      · exact Or.inl hfd
      · exact htail rfl (fun hreads => hfd hreads.1.symm) hawaits
    · apply h.of_point
      intro fd socket hsocket _
      exact htail rfl fun hreads => hin hreads.2
  · exact h

theorem handleAccept (h : s.Noticed) {client : Option (ℤ × Socket)} {added : Bool}
    (hpossible : s.Possible (.accept client added)) : (s.handleAccept client added).Noticed := by
  unfold EpollEchoServer.handleAccept
  split
  · next events fd socket hpoint =>
    obtain ⟨-, hclient, hunread, -, hready⟩ := hpossible _ rfl
    split_ifs
    · have hset := h.set hclient (fun hne => hready (by rwa [hunread] at hne))
      exact ⟨hset.clients, hset.unread⟩
    · exact ⟨h.clients, h.unread⟩
  · next events hpoint =>
    apply h.of_point
    intro fd socket _ _ hawaits
    rw [hpoint] at hawaits
    exact hawaits
  · exact h

theorem handleRead (h : s.Noticed) {bytesRead : IoResult} (hpossible : s.Possible (.read bytesRead)) :
    (s.handleRead bytesRead).Noticed := by
  unfold EpollEchoServer.handleRead
  split
  · next fd events hpoint =>
    split
    · next socket n hsocket =>
      have hadvanced := @advance s fd { socket with unread := socket.unread.drop (n + 1) } h
        (.writing fd (socket.unread.take (n + 1)) 0 events) (h.clients fd socket hsocket)
        (ServerPoint.Awaits.elsewhere hpoint rfl) fun _ => Or.inr (Or.inl rfl)
      exact ⟨hadvanced.clients, hadvanced.unread⟩
    · apply h.of_point
      intro other socket hsocket hunread hawaits
      by_cases hne : other = fd
      · subst hne
        have hreads := hpossible socket (by rw [readFrom, hpoint]; exact hsocket)
        exact absurd hreads.1 hunread
      · refine ServerPoint.Awaits.elsewhere hpoint ?_ other hne hawaits
        rfl
    · exact h.close (ServerPoint.Awaits.elsewhere hpoint rfl)
  · exact h

theorem handleWrite (h : s.Noticed) (written : IoResult) : (s.handleWrite written).Noticed := by
  unfold EpollEchoServer.handleWrite
  split
  · next fd buffer totalWritten events hpoint =>
    split
    · next socket n hsocket =>
      apply h.advance (h.clients fd socket hsocket)
      · apply ServerPoint.Awaits.elsewhere hpoint
        split_ifs <;> rfl
      · intro _
        right
        left
        split_ifs <;> rfl
    · exact h
    · exact h.close (ServerPoint.Awaits.elsewhere hpoint rfl)
  · exact h

theorem step (h : s.Noticed) {action : Action} (hpossible : s.Possible action) : (s.step action).Noticed := by
  cases action with
  | arrive fd data => exact h.arrive fd data
  | shutdown fd => exact h.shutdown fd
  | epollWait events => exact h.epollWait hpossible
  | dispatch => exact h.dispatch
  | accept client added => exact h.handleAccept hpossible
  | read bytesRead => exact h.handleRead hpossible
  | write written => exact h.handleWrite written

end Noticed

theorem noticed_run (listenFd : ℤ) {actions : List Action}
    (hpossible : Lawful (fun past => (run listenFd past).Possible) actions) : (run listenFd actions).Noticed := by
  refine hpossible.induct (motive := fun _ (s : EpollEchoServer) => s.Noticed) ?_ ?_
  · refine ⟨?_, ?_⟩
    all_goals
      intro fd socket hsocket
      cases hsocket
  · intro past action hallowed h
    exact h.step hallowed

theorem echoed_of_quiet (listenFd : ℤ) {actions : List Action}
    (hpossible : Lawful (fun past => (run listenFd past).Possible) actions)
    (hwaiting : (run listenFd actions).point = .dispatching []) {fd : ℤ} {socket : Socket}
    (hsocket : socket ∈ (run listenFd actions).sockets fd) (hquiet : socket.ready = false) :
    socket.echoed = socket.sent := by
  have hbalanced := balanced_run listenFd hpossible fd socket hsocket
  have hunread : socket.unread = [] := by
    by_contra hunread
    rcases (noticed_run listenFd hpossible).unread fd socket hsocket hunread with hready | hawaits
    · exact Bool.false_ne_true (hquiet.symm.trans hready)
    · rw [hwaiting] at hawaits
      rcases hawaits with hnone | ⟨event, hevent, -⟩
      · exact hnone
      · cases hevent
  rw [hwaiting, hunread] at hbalanced
  exact (hbalanced.trans (List.append_nil _)).symm

end EpollEchoServer

end SystemLevel.AsyncIo
