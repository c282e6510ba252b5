import Mathlib

namespace SystemLevel.SharedMutexes

inductive Mode
  | shared
  | exclusive
  deriving DecidableEq, Repr

inductive SharedMutex (P : Type)
  | shared (readers : Finset P)
  | exclusive (writer : P)

namespace SharedMutex

variable {P : Type} [DecidableEq P]

def free : SharedMutex P := .shared ∅

/-- A call that has to wait has no result. -/
def lockShared (p : P) : SharedMutex P → Option (SharedMutex P)
  | shared readers => some (.shared (insert p readers))
  | exclusive _ => none

def lock (p : P) : SharedMutex P → Option (SharedMutex P)
  | shared readers => if readers = ∅ then some (.exclusive p) else none
  | exclusive _ => none

def unlockShared (p : P) : SharedMutex P → SharedMutex P
  | shared readers => .shared (readers.erase p)
  | exclusive writer => .exclusive writer

def unlock : SharedMutex P → SharedMutex P
  | shared readers => .shared readers
  | exclusive _ => free

def mode (p : P) : SharedMutex P → Option Mode
  | shared readers => if p ∈ readers then some .shared else none
  | exclusive writer => if p = writer then some .exclusive else none

variable {m m' : SharedMutex P} {p q : P}

theorem mode_shared (readers : Finset P) (p : P) :
    (shared readers).mode p = if p ∈ readers then some .shared else none := rfl

theorem mode_exclusive (writer p : P) : (exclusive writer).mode p = if p = writer then some .exclusive else none := rfl

@[simp] theorem mode_free (p : P) : (free : SharedMutex P).mode p = none := by
  rw [free, mode_shared, if_neg (Finset.notMem_empty p)]

theorem eq_exclusive (h : m.mode p = some .exclusive) : m = exclusive p := by
  cases m with
  | shared readers =>
    rw [mode_shared] at h
    split_ifs at h
    cases h
  | exclusive writer =>
    rw [mode_exclusive] at h
    split_ifs at h with hp
    rw [hp]

theorem eq_shared (h : m.mode p = some .shared) : ∃ readers, m = shared readers := by
  cases m with
  | shared readers => exact ⟨readers, rfl⟩
  | exclusive writer =>
    rw [mode_exclusive] at h
    split_ifs at h
    cases h

theorem mode_lockShared (h : m.lockShared p = some m') (q : P) :
    m'.mode q = if q = p then some .shared else m.mode q := by
  cases m with
  | shared readers =>
    obtain rfl := Option.some.inj h
    by_cases hq : q = p
    · simp [mode, hq]
    · simp [mode, hq]
  | exclusive writer => cases h

theorem mode_lock (h : m.lock p = some m') (q : P) : m'.mode q = if q = p then some .exclusive else m.mode q := by
  cases m with
  | shared readers =>
    rw [lock] at h
    split_ifs at h with hempty
    obtain rfl := Option.some.inj h
    simp [mode, hempty]
  | exclusive writer => cases h

theorem mode_unlockShared (h : m.mode p = some .shared) (q : P) :
    (m.unlockShared p).mode q = if q = p then none else m.mode q := by
  obtain ⟨readers, rfl⟩ := eq_shared h
  by_cases hq : q = p
  · simp [unlockShared, mode, hq]
  · simp [unlockShared, mode, hq]

theorem mode_unlock (h : m.mode p = some .exclusive) (q : P) :
    m.unlock.mode q = if q = p then none else m.mode q := by
  obtain rfl := eq_exclusive h
  rw [unlock, mode_free, mode_exclusive]
  split_ifs
  · rfl
  · rfl

def release (mode : Mode) (p : P) (m : SharedMutex P) : SharedMutex P :=
  match mode with
  | .shared => m.unlockShared p
  | .exclusive => m.unlock

theorem mode_release {mode : Mode} (h : m.mode p = some mode) (q : P) :
    (m.release mode p).mode q = if q = p then none else m.mode q := by
  cases mode with
  | shared => exact mode_unlockShared h q
  | exclusive => exact mode_unlock h q

theorem alone (h : m.mode p = some .exclusive) (hq : m.mode q ≠ none) : q = p := by
  obtain rfl := eq_exclusive h
  by_contra hne
  exact hq (if_neg hne)

theorem holder_of_lockShared_eq_none (h : m.lockShared p = none) : ∃ q, m.mode q ≠ none := by
  cases m with
  | shared readers => cases h
  | exclusive writer => exact ⟨writer, by simp [mode]⟩

theorem holder_of_lock_eq_none (h : m.lock p = none) : ∃ q, m.mode q ≠ none := by
  cases m with
  | shared readers =>
    rw [lock] at h
    split_ifs at h with hempty
    obtain ⟨q, hq⟩ := Finset.nonempty_iff_ne_empty.mpr hempty
    exact ⟨q, by simp [mode, hq]⟩
  | exclusive writer => exact ⟨writer, by simp [mode]⟩

theorem eq_free (h : ∀ p, m.mode p = none) : m = free := by
  cases m with
  | shared readers =>
    congr 1
    apply Finset.eq_empty_of_forall_notMem
    intro p hp
    have hmode := h p
    simp [mode, hp] at hmode
  | exclusive writer =>
    have hmode := h writer
    simp [mode] at hmode

end SharedMutex

section Order

variable {P L : Type} {awaits : P → Option L} {holds : P → L → Prop} (blocked : P → Prop) (rank : L → ℕ)

theorem exists_not_blocked (bound : ℕ) (hbound : ∀ l, rank l ≤ bound)
    (ordered : ∀ p l l', awaits p = some l → holds p l' → rank l' < rank l)
    (hblocked : ∀ p, blocked p → ∃ l, awaits p = some l ∧ ∃ q, holds q l) (p : P) :
    ∃ q, ¬ blocked q ∧ (q = p ∨ ∃ l, holds q l) := by
  -- along the holders, the rank of what is awaited goes up
  have hchain : ∀ n q l, holds q l → bound - rank l ≤ n → ∃ r, ¬ blocked r ∧ ∃ l, holds r l := by
    intro n
    induction n with
    | zero =>
      intro q l hq hrank
      refine ⟨q, fun hb => ?_, l, hq⟩
      obtain ⟨l', hawaits, -⟩ := hblocked q hb
      have hlt := ordered q l' l hawaits hq
      have hle := hbound l'
      omega
    | succ n ih =>
      intro q l hq hrank
      by_cases hb : blocked q
      · obtain ⟨l', hawaits, r, hr⟩ := hblocked q hb
        have hlt := ordered q l' l hawaits hq
        have hle := hbound l'
        exact ih r l' hr (by omega)
      · exact ⟨q, hb, l, hq⟩
  by_cases hb : blocked p
  · obtain ⟨l, -, q, hq⟩ := hblocked p hb
    obtain ⟨r, hr, l', hl'⟩ := hchain _ q l hq le_rfl
    exact ⟨r, hr, Or.inr ⟨l', hl'⟩⟩
  · exact ⟨p, hb, Or.inl rfl⟩

end Order

end SystemLevel.SharedMutexes
