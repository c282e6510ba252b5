import SystemLevel.Mvcc.Anomalies

namespace SystemLevel.Mvcc

open Runs

def Op.isPutBy (t : ℕ) : Op → Bool
  | .put u _ _ => u = t
  | _ => false

def erasePuts (t : ℕ) (ops : List Op) : List Op := ops.filter (fun op => !op.isPutBy t)

theorem erasePuts_append (t : ℕ) (ops ops' : List Op) :
    erasePuts t (ops ++ ops') = erasePuts t ops ++ erasePuts t ops' := by
  simp [erasePuts]

theorem erasePuts_snoc (t : ℕ) (ops : List Op) (op : Op) :
    erasePuts t (ops ++ [op]) = if op.isPutBy t then erasePuts t ops else erasePuts t ops ++ [op] := by
  rw [erasePuts_append]
  split_ifs with hput
  · have hnil : erasePuts t [op] = [] := List.filter_cons_of_neg (by simp [hput])
    rw [hnil, List.append_nil]
  · have hkeep : erasePuts t [op] = [op] := List.filter_cons_of_pos (by simp [hput])
    rw [hkeep]

theorem mem_erasePuts {t : ℕ} {ops : List Op} {op : Op} (h : op.isPutBy t = false) :
    op ∈ erasePuts t ops ↔ op ∈ ops := by
  simp [erasePuts, h]

theorem begun_erasePuts (t : ℕ) (ops : List Op) : begun (erasePuts t ops) = begun ops :=
  List.count_filter rfl

theorem ended_erasePuts (t : ℕ) (ops : List Op) (u : ℕ) : Ended (erasePuts t ops) u ↔ Ended ops u := by
  unfold Ended
  rw [mem_erasePuts rfl, mem_erasePuts rfl]

theorem putsOn_erasePuts (t : ℕ) (ops : List Op) (key : UInt64) :
    putsOn (erasePuts t ops) key = (putsOn ops key).filter (fun p => !decide (p.1 = t)) := by
  induction ops with
  | nil => rfl
  | cons op ops ih =>
    rw [show op :: ops = [op] ++ ops from rfl, erasePuts_append, putsOn_append, putsOn_append,
      List.filter_append, ih]
    congr 1
    cases op with
    | put u k value =>
      by_cases hu : u = t <;> by_cases hk : k = key <;>
        simp [erasePuts, Op.isPutBy, putsOn, Op.putOn, hu, hk]
    | _ => rfl

theorem untilBegin_cons {op : Op} (h : op ≠ .beginTransaction) (u : ℕ) (ops : List Op) :
    untilBegin u (op :: ops) = op :: untilBegin u ops := by
  cases op with
  | beginTransaction => exact absurd rfl h
  | _ => simp [untilBegin]

theorem untilBegin_erasePuts (t u : ℕ) (ops : List Op) :
    untilBegin u (erasePuts t ops) = erasePuts t (untilBegin u ops) := by
  induction ops generalizing u with
  | nil => rfl
  | cons op ops ih =>
    by_cases hbegin : op = .beginTransaction
    · subst hbegin
      have hkeep (l : List Op) : erasePuts t (.beginTransaction :: l) = .beginTransaction :: erasePuts t l := rfl
      cases u with
      | zero => rfl
      | succ u => rw [hkeep, untilBegin, untilBegin, hkeep, ih]
    · rw [untilBegin_cons hbegin]
      by_cases hput : op.isPutBy t = true
      · have hdrop (l : List Op) : erasePuts t (op :: l) = erasePuts t l :=
          List.filter_cons_of_neg (by simp [hput])
        rw [hdrop, hdrop, ih]
      · have hkeep (l : List Op) : erasePuts t (op :: l) = op :: erasePuts t l :=
          List.filter_cons_of_pos (by simp [hput])
        rw [hkeep, hkeep, untilBegin_cons hbegin, ih]

theorem livePuts_erasePuts (t : ℕ) (ops : List Op) (key : UInt64) :
    livePuts (erasePuts t ops) key = (livePuts ops key).filter (fun p => !decide (p.1 = t)) := by
  have hmem (u : ℕ) : .abort u ∈ erasePuts t ops ↔ .abort u ∈ ops := mem_erasePuts rfl
  simp only [livePuts, putsOn_erasePuts, List.filter_filter, hmem]
  apply List.filter_congr
  intro p hp
  rw [Bool.and_comm]

theorem take_filter {α : Type} (p : α → Bool) (l : List α) (n : ℕ) (h : ∀ x ∈ l.take n, p x = true) :
    (l.filter p).take n = l.take n := by
  have hsplit : l.filter p = l.take n ++ (l.drop n).filter p := by
    rw [← List.filter_eq_self.mpr h, ← List.filter_append, List.take_append_drop]
  rcases Nat.le_total n l.length with hle | hle
  · rw [hsplit, List.take_left' (by simpa using hle)]
  · rw [hsplit, List.drop_of_length_le hle, List.filter_nil, List.append_nil, List.take_of_length_le (by simp)]

theorem OwnOnTop.erasePuts {ops : List Op} {u : ℕ} (h : OwnOnTop ops u) (t : ℕ) : OwnOnTop (erasePuts t ops) u := by
  intro key
  by_cases hut : u = t
  · have hzero : putCount (Mvcc.erasePuts t ops) u key = 0 := by
      simp [putCount, putsOn_erasePuts, List.countP_filter, hut]
    simp [hzero]
  obtain ⟨hlen, hall⟩ := h key
  have hcount : putCount (Mvcc.erasePuts t ops) u key = putCount ops u key := by
    rw [putCount, putsOn_erasePuts, List.countP_filter, putCount]
    apply List.countP_congr
    intro p hp
    by_cases hp : p.1 = u <;> simp [hp, hut]
  have htake : (livePuts (Mvcc.erasePuts t ops) key).reverse.take (putCount ops u key) =
      (livePuts ops key).reverse.take (putCount ops u key) := by
    rw [livePuts_erasePuts, ← List.filter_reverse]
    apply take_filter
    intro p hp
    simp [hall p hp, hut]
  rw [hcount]
  constructor
  · have := congrArg List.length htake
    simp only [List.length_take, List.length_reverse] at this
    omega
  · rw [htake]
    exact hall

theorem actsWhileOpen_erasePuts (t : ℕ) {past : List Op} {op : Op} (h : ActsWhileOpen past op) :
    ActsWhileOpen (erasePuts t past) op := by
  have hopen (u : ℕ) : Open (erasePuts t past) u ↔ Open past u := by
    rw [Open, begun_erasePuts, ended_erasePuts, Open]
  cases op with
  | beginTransaction => trivial
  | put u key value => exact (hopen u).mpr h
  | get u key => exact (hopen u).mpr h
  | commit u => exact (hopen u).mpr h
  | abort u => exact (hopen u).mpr h

theorem erasePuts_lawful (t : ℕ) {ops : List Op} (h : Lawful ActsWhileOpen ops) :
    Lawful ActsWhileOpen (erasePuts t ops) := by
  induction ops using List.reverseRecOn with
  | nil => trivial
  | append_singleton ops op ih =>
    obtain ⟨hpast, hop⟩ := (lawful_snoc ops op).mp h
    rw [erasePuts_snoc]
    split_ifs
    · exact ih hpast
    · rw [lawful_snoc]
      exact ⟨ih hpast, actsWhileOpen_erasePuts t hop⟩

theorem erasePuts_abortsOwn (t : ℕ) {ops : List Op} (hops : Lawful ActsWhileOpen ops)
    (hown : Lawful AbortsOwn ops) (hb : begun ops < 2 ^ 64) : Lawful AbortsOwn (erasePuts t ops) := by
  induction ops using List.reverseRecOn with
  | nil => trivial
  | append_singleton ops op ih =>
    obtain ⟨hpast, hop⟩ := (lawful_snoc ops op).mp hops
    obtain ⟨hownpast, hownop⟩ := (lawful_snoc ops op).mp hown
    have hb' : begun ops < 2 ^ 64 := by rw [begun_append] at hb; omega
    have herased := ih hpast hownpast hb'
    rw [erasePuts_snoc]
    split_ifs
    · exact herased
    · rw [lawful_snoc]
      refine ⟨herased, ?_⟩
      cases op with
      | abort u =>
        have htop := (rollsBackOwn_run (Lawful.putsWhileOpen hpast) hownpast hb' hop.1).mp hownop
        apply (rollsBackOwn_run (Lawful.putsWhileOpen (erasePuts_lawful t hpast)) herased _ _).mpr (htop.erasePuts t)
        · rwa [begun_erasePuts]
        · rw [begun_erasePuts]
          exact hop.1
      | _ => trivial

theorem shownPut_erasePuts {ops : List Op} {t u : ℕ} (habort : .abort t ∈ ops) (key : UInt64) :
    shownPut (erasePuts t ops) u key = shownPut ops u key := by
  have hlive (w : ℕ) : .abort w ∈ erasePuts t ops ↔ .abort w ∈ ops := mem_erasePuts rfl
  have hsees (w : ℕ) : Sees (erasePuts t ops) u w ↔ Sees ops u w := by
    rw [Sees, untilBegin_erasePuts, mem_erasePuts rfl, Sees]
  simp only [shownPut, putsOn_erasePuts, List.filter_filter, hlive, hsees]
  congr 1
  apply List.filter_congr
  intro p hp
  by_cases ht : p.1 = t
  · simp [ht, habort]
  · simp [ht]

theorem abort_erases {ops : List Op} (hops : Lawful ActsWhileOpen ops) (hown : Lawful AbortsOwn ops)
    (hb : begun ops < 2 ^ 64) {t u : ℕ} (habort : .abort t ∈ ops) (hu : Open ops u) (key : UInt64) :
    (run ops).get u key = (run (erasePuts t ops)).get u key ↔
      ((∃ value, .put t key value ∈ ops) → ∃ w value, w ≠ t ∧ .put w key value ∈ ops) := by
  have hputs := Lawful.putsWhileOpen hops
  have herased := Lawful.putsWhileOpen (erasePuts_lawful t hops)
  have hnil : putsOn (erasePuts t ops) key = [] ↔ ∀ w value, w ≠ t → .put w key value ∉ ops := by
    rw [putsOn_erasePuts, List.filter_eq_nil_iff, Prod.forall]
    simp only [mem_putsOn, Bool.not_eq_true, Bool.not_eq_false', decide_eq_true_eq]
    exact forall₂_congr (fun w value => by tauto)
  rw [get_eq hputs hown hb hu.1, get_eq herased (erasePuts_abortsOwn t hops hown hb) (by rwa [begun_erasePuts])
    (by rw [begun_erasePuts]; exact hu.1), shownPut_erasePuts habort]
  by_cases hput : putsOn ops key = []
  · have hnone := putsOn_eq_nil.mp hput
    have herasednil := hnil.mpr (fun w value _ => hnone w value)
    simp [hput, herasednil, hnone]
  · by_cases hother : putsOn (erasePuts t ops) key = []
    · have hnone := hnil.mp hother
      obtain ⟨⟨w, value⟩, hw⟩ := List.exists_mem_of_ne_nil _ hput
      rw [mem_putsOn] at hw
      have hwt : w = t := by
        by_contra hne
        exact hnone w value hne hw
      subst hwt
      simp only [hput, hother, ↓reduceIte, reduceCtorEq, false_iff, not_forall]
      refine ⟨⟨value, hw⟩, ?_⟩
      rintro ⟨v, x, hne, hv⟩
      exact hnone v x hne hv
    · have hsome : ∃ w value, w ≠ t ∧ .put w key value ∈ ops := by
        by_contra hc
        push Not at hc
        exact hother (hnil.mpr hc)
      simp only [hput, hother, ↓reduceIte, true_iff]
      exact fun _ => hsome

def overwriteThenAbort : List Op :=
  [.beginTransaction, .put 0 5 [7], .commit 0, .beginTransaction, .put 1 5 [8], .put 1 5 [9], .abort 1,
    .beginTransaction]

theorem abort_erases_overwrites :
    (run overwriteThenAbort).get 2 5 = (run (erasePuts 1 overwriteThenAbort)).get 2 5 ↔
      ((∃ value, .put 1 5 value ∈ overwriteThenAbort) → ∃ w value, w ≠ 1 ∧ .put w 5 value ∈ overwriteThenAbort) :=
  abort_erases (by decide) (by decide +kernel) (by decide) (by decide) (by decide) 5

theorem abort_leaves_key :
    let ops : List Op := [.beginTransaction, .put 0 5 [7], .abort 0, .beginTransaction]
    Lawful ActsWhileOpen (ops ++ [.get 1 5]) ∧ .abort 0 ∈ ops ∧ (run ops).get 1 5 = some [] ∧
      (run (erasePuts 0 ops)).get 1 5 = none := by
  decide +kernel

end SystemLevel.Mvcc
