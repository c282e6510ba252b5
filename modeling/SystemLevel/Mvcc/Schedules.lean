import SystemLevel.Mvcc.TransactionalEngine

namespace SystemLevel.Mvcc

open Runs

def begun (ops : List Op) : ℕ := ops.count .beginTransaction

def untilBegin : ℕ → List Op → List Op
  | _, [] => []
  | 0, .beginTransaction :: _ => []
  | t + 1, .beginTransaction :: ops => .beginTransaction :: untilBegin t ops
  | t, op :: ops => op :: untilBegin t ops

def Op.putOn (key : UInt64) : Op → Option (ℕ × Value)
  | .put t k value => if k = key then some (t, value) else none
  | _ => none

def putsOn (ops : List Op) (key : UInt64) : List (ℕ × Value) := ops.filterMap (Op.putOn key)

def Op.keyPutBy (t : ℕ) : Op → Option UInt64
  | .put u key _ => if u = t then some key else none
  | _ => none

def keysPutBy (ops : List Op) (t : ℕ) : List UInt64 := ops.filterMap (Op.keyPutBy t)

def Ended (ops : List Op) (t : ℕ) : Prop := .commit t ∈ ops ∨ .abort t ∈ ops

def Open (ops : List Op) (t : ℕ) : Prop := t < begun ops ∧ ¬ Ended ops t

instance (ops : List Op) (t : ℕ) : Decidable (Ended ops t) := inferInstanceAs (Decidable (_ ∨ _))
instance (ops : List Op) (t : ℕ) : Decidable (Open ops t) := inferInstanceAs (Decidable (_ ∧ _))

def PutsWhileOpen (past : List Op) : Op → Prop
  | .beginTransaction => True
  | .put t _ _ => Open past t
  | .get t _ => t < begun past
  | .commit t => t < begun past
  | .abort t => t < begun past

def ActsWhileOpen (past : List Op) : Op → Prop
  | .beginTransaction => True
  | .put t _ _ => Open past t
  | .get t _ => Open past t
  | .commit t => Open past t
  | .abort t => Open past t

instance (past : List Op) : ∀ op, Decidable (PutsWhileOpen past op)
  | .beginTransaction => inferInstanceAs (Decidable True)
  | .put _ _ _ => inferInstanceAs (Decidable (Open _ _))
  | .get _ _ => inferInstanceAs (Decidable (_ < _))
  | .commit _ => inferInstanceAs (Decidable (_ < _))
  | .abort _ => inferInstanceAs (Decidable (_ < _))

instance (past : List Op) : ∀ op, Decidable (ActsWhileOpen past op)
  | .beginTransaction => inferInstanceAs (Decidable True)
  | .put _ _ _ => inferInstanceAs (Decidable (Open _ _))
  | .get _ _ => inferInstanceAs (Decidable (Open _ _))
  | .commit _ => inferInstanceAs (Decidable (Open _ _))
  | .abort _ => inferInstanceAs (Decidable (Open _ _))

theorem ActsWhileOpen.putsWhileOpen {past : List Op} {op : Op} (h : ActsWhileOpen past op) :
    PutsWhileOpen past op := by
  cases op with
  | beginTransaction => trivial
  | put t key value => exact h
  | get t key => exact h.1
  | commit t => exact h.1
  | abort t => exact h.1

@[simp] theorem begun_nil : begun [] = 0 := rfl

@[simp] theorem begun_append (ops ops' : List Op) : begun (ops ++ ops') = begun ops + begun ops' := by
  simp [begun]

@[simp] theorem begun_begin : begun [.beginTransaction] = 1 := rfl
@[simp] theorem begun_put (t : ℕ) (key : UInt64) (value : Value) : begun [.put t key value] = 0 := rfl
@[simp] theorem begun_get (t : ℕ) (key : UInt64) : begun [.get t key] = 0 := rfl
@[simp] theorem begun_commit (t : ℕ) : begun [.commit t] = 0 := rfl
@[simp] theorem begun_abort (t : ℕ) : begun [.abort t] = 0 := rfl

theorem begun_cons (op : Op) (ops : List Op) : begun (op :: ops) = begun [op] + begun ops :=
  begun_append [op] ops

theorem untilBegin_append {t : ℕ} {ops : List Op} (h : t < begun ops) (ops' : List Op) :
    untilBegin t (ops ++ ops') = untilBegin t ops := by
  induction ops generalizing t with
  | nil => simp at h
  | cons op ops ih =>
    rw [begun_cons] at h
    cases op with
    | beginTransaction =>
      cases t with
      | zero => rfl
      | succ t => simp only [List.cons_append, untilBegin, ih (show t < begun ops by simp at h; omega)]
    | _ => simp only [List.cons_append, untilBegin, ih (show t < begun ops by simpa using h)]

theorem untilBegin_begun (ops : List Op) :
    untilBegin (begun ops) (ops ++ [Op.beginTransaction]) = ops := by
  induction ops with
  | nil => rfl
  | cons op ops ih =>
    rw [begun_cons]
    cases op with
    | beginTransaction => simp only [begun_begin, Nat.add_comm 1, List.cons_append, untilBegin, ih]
    | _ => simp [untilBegin, ih]

theorem untilBegin_initial (t : ℕ) (ops : List Op) : untilBegin t ops <+: ops := by
  induction ops generalizing t with
  | nil => exact List.prefix_refl _
  | cons op ops ih =>
    cases op with
    | beginTransaction =>
      cases t with
      | zero => exact List.nil_prefix
      | succ t => exact (List.prefix_cons_inj _).mpr (ih t)
    | _ => exact (List.prefix_cons_inj _).mpr (ih t)

theorem begun_untilBegin {t : ℕ} {ops : List Op} (h : t < begun ops) : begun (untilBegin t ops) = t := by
  induction ops generalizing t with
  | nil => simp at h
  | cons op ops ih =>
    rw [begun_cons] at h
    cases op with
    | beginTransaction =>
      cases t with
      | zero => rfl
      | succ t => rw [untilBegin, begun_cons, begun_begin, ih (by simp at h; omega), Nat.add_comm]
    | _ =>
      simp only [untilBegin]
      rw [begun_cons, ih (by simpa using h)]
      simp

@[simp] theorem putsOn_append (ops ops' : List Op) (key : UInt64) :
    putsOn (ops ++ ops') key = putsOn ops key ++ putsOn ops' key := by
  simp [putsOn]

@[simp] theorem keysPutBy_append (ops ops' : List Op) (t : ℕ) :
    keysPutBy (ops ++ ops') t = keysPutBy ops t ++ keysPutBy ops' t := by
  simp [keysPutBy]

theorem mem_putsOn {ops : List Op} {key : UInt64} {t : ℕ} {value : Value} :
    (t, value) ∈ putsOn ops key ↔ .put t key value ∈ ops := by
  simp only [putsOn, List.mem_filterMap]
  constructor
  · rintro ⟨op, hop, he⟩
    cases op with
    | put u k v =>
      simp only [Op.putOn] at he
      split_ifs at he with hk
      cases he
      exact hk ▸ hop
    | _ => simp [Op.putOn] at he
  · intro h
    exact ⟨_, h, by simp [Op.putOn]⟩

theorem count_keysPutBy (ops : List Op) (t : ℕ) (key : UInt64) :
    (keysPutBy ops t).count key = (putsOn ops key).countP (fun p => p.1 = t) := by
  induction ops with
  | nil => rfl
  | cons op ops ih =>
    rw [show op :: ops = [op] ++ ops from rfl, keysPutBy_append, putsOn_append, List.count_append,
      List.countP_append, ih]
    congr 1
    cases op with
    | put u k v =>
      by_cases hu : u = t <;> by_cases hk : k = key <;>
        simp [keysPutBy, putsOn, Op.keyPutBy, Op.putOn, hu, hk]
    | _ => rfl

theorem Ended.append {ops : List Op} {t : ℕ} (h : Ended ops t) (ops' : List Op) :
    Ended (ops ++ ops') t := by
  rcases h with h | h
  · exact Or.inl (by simp [h])
  · exact Or.inr (by simp [h])

theorem ended_append (ops ops' : List Op) (t : ℕ) :
    Ended (ops ++ ops') t ↔ Ended ops t ∨ Ended ops' t := by
  simp only [Ended, List.mem_append]
  tauto

theorem begun_of_ended {ops : List Op} (h : Lawful PutsWhileOpen ops) {t : ℕ} (he : Ended ops t) :
    t < begun ops := by
  induction ops using List.reverseRecOn with
  | nil => simp [Ended] at he
  | append_singleton ops op ih =>
    obtain ⟨h, hop⟩ := (lawful_snoc ops op).mp h
    rw [begun_append]
    rcases (ended_append ops [op] t).mp he with he | he
    · have := ih h he
      omega
    · simp only [Ended, List.mem_singleton] at he
      rcases he with rfl | rfl <;> exact Nat.lt_add_right _ hop

theorem begun_of_put {ops : List Op} (h : Lawful PutsWhileOpen ops) {key : UInt64} {p : ℕ × Value}
    (hp : p ∈ putsOn ops key) : p.1 < begun ops := by
  induction ops using List.reverseRecOn with
  | nil => simp [putsOn] at hp
  | append_singleton ops op ih =>
    obtain ⟨h, hop⟩ := (lawful_snoc ops op).mp h
    rw [begun_append]
    rw [putsOn_append, List.mem_append] at hp
    rcases hp with hp | hp
    · have := ih h hp
      omega
    · obtain ⟨t, value⟩ := p
      rw [mem_putsOn, List.mem_singleton] at hp
      subst hp
      exact Nat.lt_add_right _ hop.1

def idleBegins (n : ℕ) : List Op := List.replicate n .beginTransaction

theorem idleBegins_succ (n : ℕ) : idleBegins (n + 1) = idleBegins n ++ [Op.beginTransaction] :=
  List.replicate_succ'

theorem begun_idleBegins (n : ℕ) : begun (idleBegins n) = n := List.count_replicate_self

theorem idleBegins_lawful (n : ℕ) : Lawful ActsWhileOpen (idleBegins n) := by
  induction n with
  | zero => trivial
  | succ n ih =>
    rw [idleBegins_succ, lawful_snoc]
    exact ⟨ih, trivial⟩

end SystemLevel.Mvcc
