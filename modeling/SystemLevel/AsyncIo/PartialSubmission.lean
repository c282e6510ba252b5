import SystemLevel.AsyncIo.HandleCompletion

/-!
`IoUringReactor::run` with a kernel that takes only some of the entries that `io_uring_enter` passes, or none with an
error. Everything else is as in `IoUringReactor.step`.
-/

namespace SystemLevel.AsyncIo

open Runs

namespace SubmissionQueue

def enterTaking (q : SubmissionQueue) (taken : UInt32) : List Sqe × SubmissionQueue :=
  if 0 < q.pendingSqes then (q.entries taken.toNat, { q with head := q.head + taken, pendingSqes := 0 }) else ([], q)

structure Bounded (q : SubmissionQueue) : Prop where
  pending_le : q.pendingSqes.toNat ≤ q.count
  count_le : q.count ≤ 512

def PendsAll (q : SubmissionQueue) : Prop := q.pendingSqes = q.tail - q.head

variable {q q' : SubmissionQueue}

theorem pendsAll_iff (q : SubmissionQueue) : q.PendsAll ↔ q.pendingSqes.toNat = q.count := UInt32.toNat_inj.symm

structure Extends (q q' : SubmissionQueue) : Prop where
  bounded : q.Bounded → q'.Bounded
  pendsAll_iff : q.Bounded → (q'.PendsAll ↔ q.PendsAll)

namespace Extends

theorem refl (q : SubmissionQueue) : q.Extends q := ⟨id, fun _ => Iff.rfl⟩

theorem trans {q'' : SubmissionQueue} (h : q.Extends q') (h' : q'.Extends q'') : q.Extends q'' :=
  ⟨fun hq => h'.bounded (h.bounded hq), fun hq => (h'.pendsAll_iff (h.bounded hq)).trans (h.pendsAll_iff hq)⟩

theorem submit {sqe : Sqe} (hsubmit : q.submit sqe = some q') : q.Extends q' := by
  have hroom : q.count < 512 := by
    by_contra hfull
    rw [(submit_eq_none_iff q sqe).mpr (q.length_queued.ge.trans' (not_lt.mp hfull))] at hsubmit
    cases hsubmit
  have hcount := count_push hroom
  have hpending (hq : q.Bounded) : (q.pendingSqes + 1).toNat = q.pendingSqes.toNat + 1 := by
    have hle := hq.pending_le
    rw [UInt32.toNat_add, UInt32.toNat_one]
    omega
  rw [SubmissionQueue.submit, getSqe, if_neg (by rw [full_iff, length_queued]; omega)] at hsubmit
  obtain rfl := Option.some.inj hsubmit
  refine ⟨fun hq => ⟨?_, hcount.trans_le hroom⟩, fun hq => ?_⟩
  · exact (hpending hq).trans_le ((Nat.succ_le_succ hq.pending_le).trans_eq hcount.symm)
  · rw [SubmissionQueue.pendsAll_iff, SubmissionQueue.pendsAll_iff]
    change (q.pendingSqes + 1).toNat = (q.tail + 1 - q.head).toNat ↔ _
    rw [hcount, hpending hq]
    exact Nat.succ_inj

end Extends

theorem Bounded.enterTaking (h : q.Bounded) {taken : UInt32} (htaken : taken ≤ q.pendingSqes) :
    (q.enterTaking taken).2.Bounded ∧
      ((q.enterTaking taken).2.PendsAll ↔ q.PendsAll ∧ taken = q.pendingSqes) := by
  rw [UInt32.le_iff_toNat_le] at htaken
  have hle := h.pending_le
  have hcount := h.count_le
  rw [SubmissionQueue.enterTaking]
  split_ifs with hpending
  · have hleft : (q.tail - (q.head + taken)).toNat = q.count - taken.toNat := by
      rw [sub_add_eq_sub_sub, UInt32.toNat_sub_of_le _ _ (UInt32.le_iff_toNat_le.mpr (htaken.trans hle))]
      rfl
    refine ⟨⟨Nat.zero_le _, hleft.trans_le ((Nat.sub_le _ _).trans hcount)⟩, ?_⟩
    rw [pendsAll_iff, pendsAll_iff, ← UInt32.toNat_inj]
    change 0 = (q.tail - (q.head + taken)).toNat ↔ _
    rw [hleft]
    omega
  · have hzero : q.pendingSqes.toNat = 0 := by
      simpa [UInt32.lt_iff_toNat_lt] using hpending
    refine ⟨h, (and_iff_left ?_).symm⟩
    rw [← UInt32.toNat_inj]
    omega

end SubmissionQueue

namespace IoUringReactor

open SubmissionQueue (Extends)

variable {r : IoUringReactor}

inductive PartialAction
  | enter (taken : UInt32)
  | harvest
  | handle
  | post (index : ℕ) (res : ℤ)
  deriving DecidableEq, Repr

def enterTaking (r : IoUringReactor) (taken : UInt32) : IoUringReactor :=
  match r.point with
  | .entering =>
    { r with
      sq := (r.sq.enterTaking taken).2
      inFlight := r.inFlight ++ (r.sq.enterTaking taken).1
      point := .harvesting }
  | _ => r

def stepTaking (r : IoUringReactor) : PartialAction → IoUringReactor
  | .enter taken => r.enterTaking taken
  | .harvest => r.harvest
  | .handle => r.handle
  | .post index res => r.post index res

abbrev runTaking (listenFd : ℤ) (sqes : UInt32 → Sqe) (sqArray : UInt32 → UInt32) (actions : List PartialAction) :
    IoUringReactor :=
  Runs.run stepTaking (init listenFd sqes sqArray) actions

/-- The kernel takes no more entries than it is passed. -/
def TakesOffered (r : IoUringReactor) : PartialAction → Prop
  | .enter taken => taken ≤ r.sq.pendingSqes
  | _ => True

def TakesAll (r : IoUringReactor) : PartialAction → Prop
  | .enter taken => r.point = .entering → taken = r.sq.pendingSqes
  | _ => True

instance decidableTakesOffered (r : IoUringReactor) : ∀ action, Decidable (r.TakesOffered action)
  | .enter taken => inferInstanceAs (Decidable (taken ≤ r.sq.pendingSqes))
  | .harvest | .handle | .post _ _ => inferInstanceAs (Decidable True)

instance decidableTakesAll (r : IoUringReactor) : ∀ action, Decidable (r.TakesAll action)
  | .enter taken => inferInstanceAs (Decidable (r.point = .entering → taken = r.sq.pendingSqes))
  | .harvest | .handle | .post _ _ => inferInstanceAs (Decidable True)

def OffersAll (r : IoUringReactor) : Prop :=
  r.sq.pendingSqes = r.sq.tail - r.sq.head ∧ r.sq.entries r.sq.pendingSqes.toNat = r.sq.queued

instance decidableOffersAll (r : IoUringReactor) : Decidable r.OffersAll := inferInstanceAs (Decidable (_ ∧ _))

theorem offersAll_iff (r : IoUringReactor) : r.OffersAll ↔ r.sq.PendsAll := by
  refine and_iff_left_of_imp ?_
  intro hpending
  rw [hpending]
  rfl

theorem submitSqe_extends (r : IoUringReactor) (sqe : Sqe) (prepared : IoUringReactor) :
    r.sq.Extends (r.submitSqe sqe prepared).sq := by
  rw [submitSqe]
  split
  · exact .refl r.sq
  · next sq hsubmit => exact .submit hsubmit

theorem acceptClient_extends (r : IoUringReactor) (fd : ℤ) : r.sq.Extends (r.acceptClient fd).sq :=
  submitSqe_extends (r.newContext { fd }) _ _

theorem handleCompletion_extends (r : IoUringReactor) (ctx : ℕ) (res : ℤ) :
    r.sq.Extends (r.handleCompletion ctx res).sq := by
  rw [handleCompletion]
  split
  · exact .refl r.sq
  · next context _ =>
    split
    · split_ifs
      · exact (r.acceptClient_extends res).trans (submitSqe_extends (r.acceptClient res) _ _)
      · exact r.submitSqe_extends _ _
    · split_ifs
      · exact submitSqe_extends { r with totalBytesEchoed := r.totalBytesEchoed + UInt64.ofInt res } _ _
      · exact .refl r.sq
    · split_ifs
      · exact r.submitSqe_extends _ _
      · exact .refl r.sq

theorem handle_extends (r : IoUringReactor) : r.sq.Extends r.handle.sq := by
  rw [handle]
  split
  · exact r.handleCompletion_extends _ _
  · exact .refl r.sq

theorem harvest_extends (r : IoUringReactor) : r.sq.Extends r.harvest.sq := by
  rw [harvest]
  split <;> exact .refl r.sq

theorem post_extends (r : IoUringReactor) (index : ℕ) (res : ℤ) : r.sq.Extends (r.post index res).sq := by
  rw [post]
  split <;> exact .refl r.sq

theorem enterTaking_pendsAll (h : r.sq.Bounded) {taken : UInt32} (htaken : taken ≤ r.sq.pendingSqes) :
    (r.enterTaking taken).sq.Bounded ∧
      ((r.enterTaking taken).sq.PendsAll ↔ r.sq.PendsAll ∧ r.TakesAll (.enter taken)) := by
  obtain ⟨hbounded, hiff⟩ := h.enterTaking htaken
  rw [enterTaking]
  split
  · next hpoint =>
    refine ⟨hbounded, hiff.trans (and_congr_right ?_)⟩
    intro _
    exact ⟨fun hall _ => hall, fun hall => hall hpoint⟩
  · next hpoint => exact ⟨h, (and_iff_left fun hentering => absurd hentering hpoint).symm⟩

theorem stepTaking_pendsAll (h : r.sq.Bounded) {action : PartialAction} (htaken : r.TakesOffered action) :
    (r.stepTaking action).sq.Bounded ∧
      ((r.stepTaking action).sq.PendsAll ↔ r.sq.PendsAll ∧ r.TakesAll action) := by
  have hextends {r' : IoUringReactor} (hr' : r.sq.Extends r'.sq) :
      r'.sq.Bounded ∧ (r'.sq.PendsAll ↔ r.sq.PendsAll ∧ True) :=
    ⟨hr'.bounded h, (hr'.pendsAll_iff h).trans (and_true _).symm.to_iff⟩
  cases action with
  | enter taken => exact enterTaking_pendsAll h htaken
  | harvest => exact hextends r.harvest_extends
  | handle => exact hextends r.handle_extends
  | post index res => exact hextends (r.post_extends index res)

def PartialAction.complete : PartialAction → Action
  | .enter _ => .enter
  | .harvest => .harvest
  | .handle => .handle
  | .post index res => .post index res

theorem stepTaking_eq_step {action : PartialAction} (hall : r.TakesAll action) :
    r.stepTaking action = r.step action.complete := by
  cases action with
  | enter taken =>
    change r.enterTaking taken = r.enter
    cases hpoint : r.point with
    | entering =>
      rw [hall hpoint]
      simp only [enterTaking, enter, hpoint]
      rfl
    | harvesting => simp only [enterTaking, enter, hpoint]
    | handling left => simp only [enterTaking, enter, hpoint]
  | harvest => rfl
  | handle => rfl
  | post index res => rfl

section Runs

variable (listenFd : ℤ) (sqes : UInt32 → Sqe) (sqArray : UInt32 → UInt32)

theorem runTaking_eq_run {actions : List PartialAction}
    (hall : Lawful (fun past => (runTaking listenFd sqes sqArray past).TakesAll) actions) :
    runTaking listenFd sqes sqArray actions = run listenFd sqes sqArray (actions.map PartialAction.complete) := by
  induction actions using List.reverseRecOn with
  | nil => rfl
  | append_singleton past action ih =>
    obtain ⟨hpast, hlast⟩ := (lawful_snoc past action).mp hall
    rw [List.map_append, List.map_singleton, run, run_snoc, runTaking, run_snoc, stepTaking_eq_step hlast]
    exact congrArg (fun r => step r action.complete) (ih hpast)

theorem init_pendsAll : (init listenFd sqes sqArray).sq.Bounded ∧ (init listenFd sqes sqArray).sq.PendsAll := by
  have hextends : ({ sqes, sqArray } : SubmissionQueue).Extends (init listenFd sqes sqArray).sq :=
    submitSqe_extends { listenFd, sq := { sqes, sqArray } } _ _
  have hvalid := SubmissionQueue.valid_initial sqes sqArray
  have hbounded : ({ sqes, sqArray } : SubmissionQueue).Bounded := ⟨Nat.zero_le _, hvalid.count_le⟩
  exact ⟨hextends.bounded hbounded, (hextends.pendsAll_iff hbounded).mpr hvalid.pending_eq⟩

theorem offers_all_iff (actions : List PartialAction)
    (htaken : Lawful (fun past => (runTaking listenFd sqes sqArray past).TakesOffered) actions) :
    (runTaking listenFd sqes sqArray actions).OffersAll ↔
      Lawful (fun past => (runTaking listenFd sqes sqArray past).TakesAll) actions := by
  obtain ⟨hbounded, hpends⟩ := init_pendsAll listenFd sqes sqArray
  refine @Lawful.holds_iff _ _ stepTaking (init listenFd sqes sqArray) (fun r => r.sq.Bounded) OffersAll TakesOffered
    TakesAll hbounded ((offersAll_iff _).mpr hpends) ?_ ?_ actions htaken
  · intro r action h htakes
    exact (stepTaking_pendsAll h htakes).1
  · intro r action h htakes
    rw [offersAll_iff, offersAll_iff]
    exact (stepTaking_pendsAll h htakes).2

end Runs

def takesBoth : List PartialAction := [.enter 1, .post 0 5, .harvest, .handle, .enter 2, .harvest]

theorem takesBoth_offers_all :
    Lawful (fun past => (runTaking 3 (fun _ => acceptSqe 0 0) id past).TakesAll) takesBoth ∧
      (runTaking 3 (fun _ => acceptSqe 0 0) id takesBoth).OffersAll := by
  have hall : Lawful (fun past => (runTaking 3 (fun _ => acceptSqe 0 0) id past).TakesAll) takesBoth := by
    decide +kernel
  exact ⟨hall, (offers_all_iff 3 (fun _ => acceptSqe 0 0) id takesBoth (by decide +kernel)).mpr hall⟩

theorem failed_enter_forgets :
    let actions : List PartialAction := [.enter 0, .harvest]
    let r := runTaking 3 (fun _ => acceptSqe 0 0) id actions
    Lawful (fun past => (runTaking 3 (fun _ => acceptSqe 0 0) id past).TakesOffered) actions ∧
      r.point = .entering ∧ r.sq.pendingSqes = 0 ∧ r.sq.tail - r.sq.head = 1 ∧ r.sq.queued = [acceptSqe 3 1] := by
  decide +kernel

end IoUringReactor

end SystemLevel.AsyncIo
