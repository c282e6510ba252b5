import Mathlib

namespace SystemLevel.Runs

variable {S O : Type} (step : S → O → S) (init : S) (allowed : List O → O → Prop)

def run (ops : List O) : S := ops.foldl step init

@[simp] theorem run_nil : run step init [] = init := rfl

@[simp] theorem run_snoc (ops : List O) (op : O) :
    run step init (ops ++ [op]) = step (run step init ops) op :=
  List.foldl_concat step init op ops

theorem run_append (ops ops' : List O) :
    run step init (ops ++ ops') = run step (run step init ops) ops' :=
  List.foldl_append

def LawfulFrom : List O → List O → Prop
  | _, [] => True
  | past, op :: ops => allowed past op ∧ LawfulFrom (past ++ [op]) ops

def Lawful (ops : List O) : Prop := LawfulFrom allowed [] ops

instance decidableLawfulFrom [∀ past op, Decidable (allowed past op)] :
    ∀ past ops, Decidable (LawfulFrom allowed past ops)
  | _, [] => inferInstanceAs (Decidable True)
  | past, op :: ops =>
    have := decidableLawfulFrom (past ++ [op]) ops
    inferInstanceAs (Decidable (_ ∧ _))

instance [∀ past op, Decidable (allowed past op)] (ops : List O) : Decidable (Lawful allowed ops) :=
  inferInstanceAs (Decidable (LawfulFrom allowed [] ops))

variable {step init allowed}

theorem lawfulFrom_nil (past : List O) : LawfulFrom allowed past [] := trivial

theorem lawfulFrom_cons (past : List O) (op : O) (ops : List O) :
    LawfulFrom allowed past (op :: ops) ↔ allowed past op ∧ LawfulFrom allowed (past ++ [op]) ops := Iff.rfl

theorem lawfulFrom_append (past ops ops' : List O) :
    LawfulFrom allowed past (ops ++ ops') ↔
      LawfulFrom allowed past ops ∧ LawfulFrom allowed (past ++ ops) ops' := by
  induction ops generalizing past with
  | nil => simp [lawfulFrom_nil]
  | cons op ops ih => simp [lawfulFrom_cons, ih, and_assoc]

@[simp] theorem lawful_nil : Lawful allowed [] := trivial

@[simp] theorem lawful_snoc (ops : List O) (op : O) :
    Lawful allowed (ops ++ [op]) ↔ Lawful allowed ops ∧ allowed ops op := by
  refine (lawfulFrom_append [] ops [op]).trans ?_
  rw [lawfulFrom_cons, List.nil_append]
  exact and_congr_right fun _ => and_iff_left (lawfulFrom_nil _)

theorem Lawful.left {ops ops' : List O} (h : Lawful allowed (ops ++ ops')) : Lawful allowed ops :=
  ((lawfulFrom_append [] ops ops').mp h).1

theorem Lawful.at {ops ops' : List O} {op : O} (h : Lawful allowed (ops ++ op :: ops')) :
    allowed ops op := by
  have hrest := ((lawfulFrom_append [] ops (op :: ops')).mp h).2
  rw [List.nil_append, lawfulFrom_cons] at hrest
  exact hrest.1

theorem Lawful.mono {allowed' : List O → O → Prop} {ops : List O} (h : Lawful allowed ops)
    (himp : ∀ past op, op ∈ ops → allowed past op → allowed' past op) : Lawful allowed' ops := by
  induction ops using List.reverseRecOn with
  | nil => trivial
  | append_singleton ops op ih =>
    obtain ⟨h, hop⟩ := (lawful_snoc ops op).mp h
    exact (lawful_snoc ops op).mpr
      ⟨ih h (fun past op' hm => himp past op' (by simp [hm])), himp ops op (by simp) hop⟩

theorem Lawful.and {allowed' : List O → O → Prop} {ops : List O} (h : Lawful allowed ops) (h' : Lawful allowed' ops) :
    Lawful (fun past op => allowed past op ∧ allowed' past op) ops := by
  induction ops using List.reverseRecOn with
  | nil => trivial
  | append_singleton ops op ih =>
    obtain ⟨h, hop⟩ := (lawful_snoc ops op).mp h
    obtain ⟨h', hop'⟩ := (lawful_snoc ops op).mp h'
    exact (lawful_snoc ops op).mpr ⟨ih h h', hop, hop'⟩

theorem run_induct {motive : S → Prop} (zero : motive init) (succ : ∀ s op, motive s → motive (step s op))
    (ops : List O) : motive (run step init ops) := by
  induction ops using List.reverseRecOn with
  | nil => exact zero
  | append_singleton ops op ih =>
    rw [run_snoc]
    exact succ _ op ih

theorem Lawful.induct {motive : List O → S → Prop} (zero : motive [] init)
    (succ : ∀ ops op, allowed ops op → motive ops (run step init ops) →
      motive (ops ++ [op]) (step (run step init ops) op))
    {ops : List O} (h : Lawful allowed ops) : motive ops (run step init ops) := by
  induction ops using List.reverseRecOn with
  | nil => exact zero
  | append_singleton ops op ih =>
    obtain ⟨h, hop⟩ := (lawful_snoc ops op).mp h
    rw [run_snoc]
    exact succ ops op hop (ih h)

section Conditions

variable {Inv good : S → Prop} {possible cond : S → O → Prop}

/-- What each step keeps exactly under its condition holds exactly in the runs that meet the conditions. -/
theorem Lawful.holds_iff (zero : Inv init) (holds : good init)
    (succ : ∀ s op, Inv s → possible s op → Inv (step s op))
    (keeps : ∀ s op, Inv s → possible s op → (good (step s op) ↔ good s ∧ cond s op))
    {ops : List O} (h : Lawful (fun past => possible (run step init past)) ops) :
    good (run step init ops) ↔ Lawful (fun past => cond (run step init past)) ops := by
  induction ops using List.reverseRecOn with
  | nil => exact iff_of_true holds lawful_nil
  | append_singleton ops op ih =>
    obtain ⟨hpast, hop⟩ := (lawful_snoc ops op).mp h
    have hinv : Inv (run step init ops) := hpast.induct (motive := fun _ => Inv) zero fun _ _ hop h => succ _ _ h hop
    rw [lawful_snoc, ← ih hpast, run_snoc]
    exact keeps _ op hinv hop

theorem Lawful.always_iff (zero : Inv init) (holds : ∀ s, Inv s → good s)
    (succ : ∀ s op, Inv s → possible s op → cond s op → Inv (step s op))
    (breaks : ∀ s op, Inv s → ¬ cond s op → ¬ good (step s op))
    {ops : List O} (h : Lawful (fun past => possible (run step init past)) ops) :
    (∀ past, past <+: ops → good (run step init past)) ↔ Lawful (fun past => cond (run step init past)) ops := by
  have hinv {past : List O} (hpast : Lawful (fun past => possible (run step init past)) past)
      (hcond : Lawful (fun past => cond (run step init past)) past) : Inv (run step init past) :=
    (hpast.and hcond).induct (motive := fun _ => Inv) zero fun _ _ hop h => succ _ _ h hop.1 hop.2
  constructor
  · intro hgood
    induction ops using List.reverseRecOn with
    | nil => exact lawful_nil
    | append_singleton ops op ih =>
      have hpast := ((lawful_snoc ops op).mp h).1
      have hcond := ih hpast fun past hearlier => hgood past (hearlier.trans (List.prefix_append ops [op]))
      refine (lawful_snoc ops op).mpr ⟨hcond, ?_⟩
      by_contra hbreaks
      apply breaks _ op (hinv hpast hcond) hbreaks
      rw [← run_snoc step init]
      exact hgood _ List.prefix_rfl
  · rintro hcond past ⟨rest, rfl⟩
    exact holds _ (hinv h.left hcond.left)

end Conditions

end SystemLevel.Runs
