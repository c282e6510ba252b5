import SystemLevel.Mvcc.Schedules

namespace SystemLevel.Mvcc

open Runs

def Transaction.birth (txn : Transaction) : TxnId × ReadView := (txn.txnId, txn.readView)

def TransactionalEngine.births (e : TransactionalEngine) : List (TxnId × ReadView) :=
  e.txManager.txns.map Transaction.birth

theorem map_set_same {α β : Type} (f : α → β) (l : List α) (i : ℕ) (x y : α) (hx : l[i]? = some x)
    (hf : f y = f x) : (l.set i y).map f = l.map f := by
  obtain ⟨hi, rfl⟩ := List.getElem?_eq_some_iff.mp hx
  apply List.ext_getElem (by simp)
  intro j hj hj'
  by_cases hij : i = j
  · subst hij; simpa using hf
  · simp [hij]

theorem finish_births (m : TransactionManager) (t : ℕ) (state : TxnState) :
    (m.finish t state).txns.map Transaction.birth = m.txns.map Transaction.birth := by
  unfold TransactionManager.finish
  cases h : m.txns[t]? with
  | none => rfl
  | some txn => exact map_set_same _ _ _ _ _ h rfl

theorem finish_nextTxnId (m : TransactionManager) (t : ℕ) (state : TxnState) :
    (m.finish t state).nextTxnId = m.nextTxnId := by
  unfold TransactionManager.finish
  cases m.txns[t]? <;> rfl

theorem step_births (e : TransactionalEngine) (op : Op) (h : op ≠ .beginTransaction) :
    (step e op).births = e.births := by
  cases op with
  | beginTransaction => exact absurd rfl h
  | put t key value =>
    simp only [step, TransactionalEngine.put, TransactionalEngine.births]
    cases ht : e.txManager.txns[t]? with
    | none => rfl
    | some txn => exact map_set_same _ _ _ _ _ ht rfl
  | get t key => rfl
  | commit t =>
    simp only [step, TransactionalEngine.commit, TransactionalEngine.births]
    cases ht : e.txManager.txns[t]? with
    | none => rfl
    | some txn => exact finish_births _ _ _
  | abort t =>
    simp only [step, TransactionalEngine.abort, TransactionalEngine.births]
    cases ht : e.txManager.txns[t]? with
    | none => rfl
    | some txn => exact finish_births _ _ _

theorem begin_births (e : TransactionalEngine) :
    e.beginTransaction.births =
      e.births ++ [(e.txManager.nextTxnId, e.txManager.snapshot e.txManager.nextTxnId)] := by
  simp [TransactionalEngine.births, TransactionalEngine.beginTransaction,
    TransactionManager.beginTransaction, Transaction.birth]

theorem step_nextTxnId (e : TransactionalEngine) (op : Op) (h : op ≠ .beginTransaction) :
    (step e op).txManager.nextTxnId = e.txManager.nextTxnId := by
  cases op with
  | beginTransaction => exact absurd rfl h
  | put t key value => simp only [step, TransactionalEngine.put]; split <;> rfl
  | get t key => rfl
  | commit t =>
    simp only [step, TransactionalEngine.commit]
    cases e.txManager.txns[t]? with
    | none => rfl
    | some txn => exact finish_nextTxnId _ _ _
  | abort t =>
    simp only [step, TransactionalEngine.abort]
    cases e.txManager.txns[t]? with
    | none => rfl
    | some txn => exact finish_nextTxnId _ _ _

def idFrom (first : TxnId) (t : ℕ) : TxnId := first + UInt64.ofNat t

abbrev idOf (t : ℕ) : TxnId := idFrom 1 t

theorem begun_singleton {op : Op} (h : op ≠ .beginTransaction) : begun [op] = 0 := by
  cases op <;> first | rfl | exact absurd rfl h

theorem ids_from (e : TransactionalEngine) (he : e.txManager.txns = []) (ops : List Op) :
    (Runs.run step e ops).txManager.nextTxnId = idFrom e.txManager.nextTxnId (begun ops) ∧
      (Runs.run step e ops).births.map Prod.fst =
        (List.range (begun ops)).map (idFrom e.txManager.nextTxnId) := by
  induction ops using List.reverseRecOn with
  | nil => simp [idFrom, TransactionalEngine.births, he]
  | append_singleton ops op ih =>
    obtain ⟨hnext, hids⟩ := ih
    rw [run_snoc, begun_append]
    by_cases hop : op = .beginTransaction
    · subst hop
      constructor
      · simp only [step, TransactionalEngine.beginTransaction, TransactionManager.beginTransaction, hnext]
        simp only [idFrom, begun_begin, UInt64.ofNat_add, UInt64.add_assoc]
        rfl
      · rw [step, begin_births, List.map_append, hids, begun_begin, List.range_succ, List.map_append, hnext]
        rfl
    · rw [step_nextTxnId _ _ hop, step_births _ _ hop, begun_singleton hop]
      exact ⟨hnext, hids⟩

theorem txn_from (e : TransactionalEngine) (he : e.txManager.txns = []) {ops : List Op} {t : ℕ}
    (ht : t < begun ops) : ∃ txn, (Runs.run step e ops).txManager.txns[t]? = some txn ∧
      txn.txnId = idFrom e.txManager.nextTxnId t := by
  have hids := congrArg (fun l => l[t]?) (ids_from e he ops).2
  simp only [TransactionalEngine.births, List.getElem?_map, List.getElem?_range ht, Option.map_some,
    Option.map_map, Option.map_eq_some_iff] at hids
  exact hids

theorem txns_length (ops : List Op) : (run ops).txManager.txns.length = begun ops := by
  have := congrArg List.length (ids_from {} rfl ops).2
  simpa [TransactionalEngine.births] using this

theorem txnId_eq {ops : List Op} {t : ℕ} {txn : Transaction}
    (h : (run ops).txManager.txns[t]? = some txn) : txn.txnId = idOf t := by
  have ht : t < begun ops := by
    rw [← txns_length]
    exact (List.getElem?_eq_some_iff.mp h).1
  obtain ⟨txn', h', hid⟩ := txn_from {} rfl ht
  rw [h] at h'
  cases h'
  exact hid

theorem idFrom_toNat {first : TxnId} {t : ℕ} (h : first.toNat + t < 2 ^ 64) :
    (idFrom first t).toNat = first.toNat + t := by
  rw [idFrom, UInt64.toNat_add, UInt64.toNat_ofNat']
  omega

theorem idOf_toNat {t : ℕ} (h : t + 1 < 2 ^ 64) : (idOf t).toNat = t + 1 := by
  have : (1 : TxnId).toNat = 1 := rfl
  rw [idFrom_toNat (by omega), this, Nat.add_comm]

theorem idOf_inj {t u : ℕ} (ht : t + 1 < 2 ^ 64) (hu : u + 1 < 2 ^ 64) : idOf t = idOf u ↔ t = u := by
  rw [← UInt64.toNat_inj, idOf_toNat ht, idOf_toNat hu]
  omega

theorem idOf_ne_zero {t : ℕ} (ht : t + 1 < 2 ^ 64) : idOf t ≠ 0 := by
  rw [ne_eq, ← UInt64.toNat_inj, idOf_toNat ht]
  simp

theorem idOf_le_iff {t u : ℕ} (ht : t + 1 < 2 ^ 64) (hu : u + 1 < 2 ^ 64) : idOf t ≤ idOf u ↔ t ≤ u := by
  rw [UInt64.le_iff_toNat_le, idOf_toNat ht, idOf_toNat hu]
  omega

def TransactionalEngine.idAt (e : TransactionalEngine) (t : ℕ) : Option TxnId :=
  (e.txManager.txns[t]?).map Transaction.txnId

theorem idAt_eq {ops : List Op} {t : ℕ} {id : TxnId} (h : (run ops).idAt t = some id) : id = idOf t := by
  obtain ⟨txn, htxn, rfl⟩ := Option.map_eq_some_iff.mp h
  exact txnId_eq htxn

theorem idAt_of_begun {ops : List Op} {t : ℕ} (h : t < begun ops) : (run ops).idAt t = some (idOf t) := by
  have hlen := txns_length ops
  have hget := List.getElem?_eq_getElem (show t < (run ops).txManager.txns.length by omega)
  rw [TransactionalEngine.idAt, hget, Option.map_some, txnId_eq hget]

theorem begun_of_idAt {ops : List Op} {t : ℕ} {id : TxnId} (h : (run ops).idAt t = some id) : t < begun ops := by
  obtain ⟨txn, htxn, -⟩ := Option.map_eq_some_iff.mp h
  rw [← txns_length]
  exact (List.getElem?_eq_some_iff.mp htxn).1

end SystemLevel.Mvcc
