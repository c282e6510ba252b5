import SystemLevel.Foundations.Wraparound

namespace SystemLevel.AsyncIo

open Wraparound

inductive EventType
  | accept
  | read
  | write
  deriving DecidableEq, Repr

structure Sqe where
  opcode : EventType
  fd : ℤ
  len : UInt32
  userData : ℕ
  deriving DecidableEq, Repr

structure SubmissionQueue where
  sqes : UInt32 → Sqe
  sqArray : UInt32 → UInt32
  head : UInt32 := 0
  tail : UInt32 := 0
  pendingSqes : UInt32 := 0

namespace SubmissionQueue

/-- `io_uring_setup` makes a ring of `QUEUE_DEPTH` entries, which is a power of two. -/
def sqEntries : UInt32 := 512

def sqMask : UInt32 := 511

def getSqe (q : SubmissionQueue) : Option (UInt32 × SubmissionQueue) :=
  if sqEntries ≤ q.tail - q.head then none
  else
    let index := q.tail &&& sqMask
    some (index,
      { q with
        sqArray := Function.update q.sqArray index index
        tail := q.tail + 1
        pendingSqes := q.pendingSqes + 1 })

def fill (q : SubmissionQueue) (index : UInt32) (sqe : Sqe) : SubmissionQueue :=
  { q with sqes := Function.update q.sqes index sqe }

def submit (q : SubmissionQueue) (sqe : Sqe) : Option SubmissionQueue :=
  q.getSqe.map fun (index, q') => q'.fill index sqe

def place (q : SubmissionQueue) (i : ℕ) : UInt32 := (q.head + UInt32.ofNat i) &&& sqMask

def entries (q : SubmissionQueue) (count : ℕ) : List Sqe :=
  (List.range count).map fun i => q.sqes (q.sqArray (q.place i))

/-- The kernel takes all entries that it is passed. -/
def enter (q : SubmissionQueue) : List Sqe × SubmissionQueue :=
  if 0 < q.pendingSqes then
    (q.entries q.pendingSqes.toNat, { q with head := q.head + q.pendingSqes, pendingSqes := 0 })
  else ([], q)

def count (q : SubmissionQueue) : ℕ := (q.tail - q.head).toNat

def queued (q : SubmissionQueue) : List Sqe := q.entries q.count

structure Valid (q : SubmissionQueue) : Prop where
  pending_eq : q.pendingSqes = q.tail - q.head
  count_le : q.count ≤ 512
  array_eq : ∀ i < q.count, q.sqArray (q.place i) = q.place i

variable {q q' : SubmissionQueue} {sqe : Sqe}

theorem length_queued (q : SubmissionQueue) : q.queued.length = q.count := by
  rw [queued, entries, List.length_map, List.length_range]

theorem queued_initial (sqes : UInt32 → Sqe) (sqArray : UInt32 → UInt32) :
    ({ sqes, sqArray } : SubmissionQueue).queued = [] := by
  simp [queued, entries, count]

theorem valid_initial (sqes : UInt32 → Sqe) (sqArray : UInt32 → UInt32) :
    ({ sqes, sqArray } : SubmissionQueue).Valid := by
  constructor <;> simp [count]

theorem toNat_place (q : SubmissionQueue) (i : ℕ) : (q.place i).toNat = (q.head.toNat + i) % 512 := by
  have hmask : sqMask.toNat = 2 ^ 9 - 1 := rfl
  rw [place, UInt32.toNat_and, hmask, Nat.and_two_pow_sub_one_eq_mod, UInt32.toNat_add, UInt32.toNat_ofNat']
  omega

theorem place_ne {i j : ℕ} (hlt : i < j) (hnear : j < i + 512) : q.place i ≠ q.place j := by
  intro heq
  have hplaces := congrArg UInt32.toNat heq
  rw [toNat_place, toNat_place] at hplaces
  exact mod_ne (by omega) (by omega) hplaces

theorem place_count (q : SubmissionQueue) : q.place q.count = q.tail &&& sqMask := by
  rw [place, count, UInt32.ofNat_toNat, add_sub_cancel]

theorem full_iff (q : SubmissionQueue) : sqEntries ≤ q.tail - q.head ↔ 512 ≤ q.queued.length := by
  rw [length_queued, count, UInt32.le_iff_toNat_le]
  rfl

theorem push_sub (q : SubmissionQueue) : q.tail + 1 - q.head = q.tail - q.head + 1 := by
  rw [UInt32.sub_eq_add_neg, UInt32.sub_eq_add_neg, UInt32.add_assoc, UInt32.add_assoc, UInt32.add_comm 1]

theorem count_push (hroom : q.count < 512) : (q.tail + 1 - q.head).toNat = q.count + 1 := by
  rw [push_sub, UInt32.toNat_add, UInt32.toNat_one]
  change (q.count + 1) % 2 ^ 32 = q.count + 1
  omega

theorem submit_eq_none_iff (q : SubmissionQueue) (sqe : Sqe) : q.submit sqe = none ↔ 512 ≤ q.queued.length := by
  rw [submit, getSqe, ← full_iff]
  split_ifs with hfull <;> simp [hfull]

theorem Valid.submit (h : q.Valid) (hsubmit : q.submit sqe = some q') :
    q'.Valid ∧ q'.queued = q.queued ++ [sqe] := by
  have hroom : q.count < 512 := by
    rw [← length_queued]
    by_contra hfull
    rw [(submit_eq_none_iff q sqe).mpr (not_lt.mp hfull)] at hsubmit
    cases hsubmit
  have hnext := count_push hroom
  rw [SubmissionQueue.submit, getSqe, if_neg (by rw [full_iff, length_queued]; omega)] at hsubmit
  obtain rfl := Option.some.inj hsubmit
  have hplace : ∀ i < q.count, q.place i ≠ q.tail &&& sqMask := by
    intro i hi
    rw [← place_count]
    exact place_ne hi (by omega)
  refine ⟨⟨?_, ?_, ?_⟩, ?_⟩
  · exact (congrArg (· + 1) h.pending_eq).trans q.push_sub.symm
  · exact hnext.trans_le hroom
  · intro i hi
    change Function.update q.sqArray (q.tail &&& sqMask) (q.tail &&& sqMask) (q.place i) = q.place i
    rcases (Nat.lt_succ_iff.mp (hi.trans_eq hnext)).lt_or_eq with hi | rfl
    · rw [Function.update_of_ne (hplace i hi), h.array_eq i hi]
    · rw [place_count, Function.update_self]
  · change (List.range (q.tail + 1 - q.head).toNat).map (fun i => Function.update q.sqes (q.tail &&& sqMask) sqe
      (Function.update q.sqArray (q.tail &&& sqMask) (q.tail &&& sqMask) (q.place i))) = q.queued ++ [sqe]
    rw [hnext, List.range_succ, List.map_append, List.map_singleton, place_count, Function.update_self,
      Function.update_self]
    congr 1
    apply List.map_congr_left
    intro i hi
    have hi := List.mem_range.mp hi
    rw [Function.update_of_ne (hplace i hi), h.array_eq i hi, Function.update_of_ne (hplace i hi)]

theorem Valid.exists_submit (h : q.Valid) (hroom : q.queued.length < 512) (sqe : Sqe) :
    ∃ q', q.submit sqe = some q' ∧ q'.Valid ∧ q'.queued = q.queued ++ [sqe] := by
  cases hsubmit : q.submit sqe with
  | none =>
    have hfull := (submit_eq_none_iff q sqe).mp hsubmit
    omega
  | some q' => exact ⟨q', rfl, h.submit hsubmit⟩

theorem Valid.enter (h : q.Valid) : q.enter.1 = q.queued ∧ q.enter.2.Valid ∧ q.enter.2.queued = [] := by
  have hcount : q.pendingSqes.toNat = q.count := congrArg UInt32.toNat h.pending_eq
  rw [SubmissionQueue.enter]
  split_ifs with hpending
  · have hempty : q.tail - (q.head + q.pendingSqes) = 0 := by
      rw [h.pending_eq, add_sub_cancel, UInt32.sub_self]
    have hnone : ({ q with head := q.head + q.pendingSqes, pendingSqes := 0 } : SubmissionQueue).count = 0 :=
      congrArg UInt32.toNat hempty
    refine ⟨by rw [hcount, queued], ⟨hempty.symm, hnone.trans_le (Nat.zero_le _), ?_⟩, by rw [queued, hnone]; rfl⟩
    intro i hi
    exact absurd (hi.trans_eq hnone) (Nat.not_lt_zero i)
  · have hzero : q.count = 0 := by
      rw [← hcount]
      simpa [UInt32.lt_iff_toNat_lt] using hpending
    have hqueued : q.queued = [] := List.length_eq_zero_iff.mp (q.length_queued.trans hzero)
    exact ⟨hqueued.symm, h, hqueued⟩

end SubmissionQueue

end SystemLevel.AsyncIo
