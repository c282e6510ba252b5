import SystemLevel.Mvcc.Recovery

namespace SystemLevel.Mvcc

open Runs Framing

def recordOf (first : TxnId) : Op → Option WalRecord
  | .put t key value => some (.put (idFrom first t) key value)
  | .commit t => some (.commit (idFrom first t))
  | .abort t => some (.abort (idFrom first t))
  | _ => none

def recordsFrom (first : TxnId) (ops : List Op) : List WalRecord := ops.filterMap (recordOf first)

theorem recordsFrom_append (first : TxnId) (ops ops' : List Op) :
    recordsFrom first (ops ++ ops') = recordsFrom first ops ++ recordsFrom first ops' := by
  simp [recordsFrom]

@[simp] theorem recordsFrom_begin (first : TxnId) : recordsFrom first [.beginTransaction] = [] := rfl
@[simp] theorem recordsFrom_put (first : TxnId) (t : ℕ) (key : UInt64) (value : Value) :
    recordsFrom first [.put t key value] = [.put (idFrom first t) key value] := rfl
@[simp] theorem recordsFrom_get (first : TxnId) (t : ℕ) (key : UInt64) : recordsFrom first [.get t key] = [] := rfl
@[simp] theorem recordsFrom_commit (first : TxnId) (t : ℕ) :
    recordsFrom first [.commit t] = [.commit (idFrom first t)] := rfl
@[simp] theorem recordsFrom_abort (first : TxnId) (t : ℕ) :
    recordsFrom first [.abort t] = [.abort (idFrom first t)] := rfl

theorem wal_from (e : TransactionalEngine) (he : e.txManager.txns = []) {ops : List Op}
    (hops : Lawful PutsWhileOpen ops) :
    (Runs.run step e ops).wal.bytes =
      e.wal.bytes ++ (recordsFrom e.txManager.nextTxnId ops).flatMap WalRecord.bytes := by
  induction ops using List.reverseRecOn with
  | nil => simp [recordsFrom]
  | append_singleton ops op ih =>
    obtain ⟨hpast, hop⟩ := (lawful_snoc ops op).mp hops
    have hih := ih hpast
    rw [run_snoc, recordsFrom_append, List.flatMap_append, ← List.append_assoc, ← hih]
    cases op with
    | beginTransaction => simp [step, TransactionalEngine.beginTransaction]
    | put t key value =>
      obtain ⟨txn, hget, hid⟩ := txn_from e he hop.1
      simp only [step, TransactionalEngine.put, hget, recordsFrom_put, WalFile.write, take_maxRwCount,
        List.flatMap_singleton, WalRecord.bytes, WalRecord.header, WalRecord.payload, hid, List.append_assoc]
    | get t key => simp [step]
    | commit t =>
      obtain ⟨txn, hget, hid⟩ := txn_from e he hop
      simp only [step, TransactionalEngine.commit, hget, recordsFrom_commit, WalFile.write, WalFile.fdatasync,
        take_maxRwCount, List.flatMap_singleton, WalRecord.bytes, WalRecord.header, WalRecord.payload, hid,
        List.append_nil]
    | abort t =>
      obtain ⟨txn, hget, hid⟩ := txn_from e he hop
      simp only [step, TransactionalEngine.abort, hget, recordsFrom_abort, WalFile.write, WalFile.fdatasync,
        take_maxRwCount, List.flatMap_singleton, WalRecord.bytes, WalRecord.header, WalRecord.payload, hid,
        List.append_nil]

def NotYetCommitted (past : List WalRecord) : WalRecord → Prop
  | .put id _ _ => .commit id ∉ past
  | _ => True

theorem idFrom_inj {first : TxnId} {t u : ℕ} (ht : first.toNat + t < 2 ^ 64) (hu : first.toNat + u < 2 ^ 64) :
    idFrom first t = idFrom first u ↔ t = u := by
  rw [← UInt64.toNat_inj, idFrom_toNat ht, idFrom_toNat hu]
  omega

theorem mem_recordsFrom {first : TxnId} {ops : List Op} {r : WalRecord} :
    r ∈ recordsFrom first ops ↔ ∃ op ∈ ops, recordOf first op = some r := List.mem_filterMap

theorem commit_mem_records {first : TxnId} {ops : List Op} (hops : Lawful PutsWhileOpen ops) {t : ℕ}
    (hb : first.toNat + begun ops ≤ 2 ^ 64) (ht : t < begun ops) :
    .commit (idFrom first t) ∈ recordsFrom first ops ↔ .commit t ∈ ops := by
  rw [mem_recordsFrom]
  constructor
  · rintro ⟨op, hop, he⟩
    cases op with
    | commit u =>
      have hu : u < begun ops := begun_of_ended hops (Or.inl hop)
      have hid : idFrom first u = idFrom first t := by simpa [recordOf] using he
      rw [idFrom_inj (by omega) (by omega)] at hid
      exact hid ▸ hop
    | _ => simp [recordOf] at he
  · intro h
    exact ⟨_, h, rfl⟩

theorem putsFirst_records {first : TxnId} {ops : List Op} (hops : Lawful PutsWhileOpen ops)
    (hb : first.toNat + begun ops ≤ 2 ^ 64) : Lawful NotYetCommitted (recordsFrom first ops) := by
  induction ops using List.reverseRecOn with
  | nil => trivial
  | append_singleton ops op ih =>
    obtain ⟨hpast, hop⟩ := (lawful_snoc ops op).mp hops
    rw [begun_append] at hb
    have hih := ih hpast (by omega)
    rw [recordsFrom_append]
    cases op with
    | beginTransaction => simpa using hih
    | put t key value =>
      rw [recordsFrom_put, lawful_snoc]
      refine ⟨hih, fun hmem => hop.2 (Or.inl ?_)⟩
      exact (commit_mem_records hpast (by omega) hop.1).mp hmem
    | get t key => simpa using hih
    | commit t => exact (lawful_snoc _ _).mpr ⟨hih, trivial⟩
    | abort t => exact (lawful_snoc _ _).mpr ⟨hih, trivial⟩

theorem tornAfter_cut {rs : List WalRecord} (hrs : ∀ r ∈ rs, r.Sized) (hlog : Lawful NotYetCommitted rs) (n : ℕ) :
    TornAfter (whole WalRecord.bytes rs n) (torn WalRecord.bytes rs n) := by
  rcases torn_cases WalRecord.bytes rs n with hnil | ⟨r, rest, m, hsplit, hm, ht⟩
  · exact Or.inl hnil
  · refine Or.inr ⟨r, m, hrs r (by rw [hsplit]; simp), hm, ht, ?_⟩
    rintro id key value rfl
    rw [hsplit] at hlog
    exact Lawful.at hlog

theorem analysis_take {rs : List WalRecord} (hrs : ∀ r ∈ rs, r.Sized) (n : ℕ) :
    ∃ headed, headed <+: rs ∧ analysis ((rs.flatMap WalRecord.bytes).take n) ([], 0) = noted headed ∧
      ∀ a r b, rs = a ++ r :: b → (a.flatMap WalRecord.bytes).length + headerSize ≤ n → r ∈ headed := by
  have hpre := whole_initial WalRecord.bytes rs n
  have hwhole : ∀ r ∈ whole WalRecord.bytes rs n, r.Sized := fun r hr => hrs r (hpre.mem hr)
  rw [take_flatMap]
  rcases torn_cases WalRecord.bytes rs n with hnil | ⟨x, rest, m, hsplit, hm, ht⟩
  · refine ⟨_, hpre, by rw [hnil, List.append_nil, analysis_whole hwhole], ?_⟩
    rintro a r b rfl hn
    rcases mem_whole_or_torn WalRecord.bytes (b := b) (x := r) (Nat.le_of_add_right_le hn) with h | ⟨-, h, hlt⟩
    · exact h.mem (by simp)
    · have hempty := congrArg List.length (hnil.symm.trans h)
      have hsize : headerSize = 21 := rfl
      simp only [List.length_nil, List.length_take] at hempty
      omega
  · have hx : x.Sized := hrs x (by rw [hsplit]; simp)
    rw [ht, analysis_cut hwhole hx hm]
    by_cases hsize : headerSize ≤ m
    · refine ⟨whole WalRecord.bytes rs n ++ [x], ?_, if_pos hsize, ?_⟩
      · conv_rhs => rw [hsplit]
        exact ⟨rest, by simp⟩
      · rintro a r b rfl hn
        rcases mem_whole_or_torn WalRecord.bytes (b := b) (x := r) (Nat.le_of_add_right_le hn) with h | ⟨h, -, -⟩
        · exact List.mem_append_left _ (h.mem (by simp))
        · rw [h] at hsplit ⊢
          simp [(List.cons.inj (List.append_cancel_left hsplit)).1]
    · refine ⟨whole WalRecord.bytes rs n, hpre, if_neg hsize, ?_⟩
      rintro a r b rfl hn
      rcases mem_whole_or_torn WalRecord.bytes (b := b) (x := r) (Nat.le_of_add_right_le hn) with h | ⟨-, h, hlt⟩
      · exact h.mem (by simp)
      · have hlen := congrArg List.length (ht.symm.trans h)
        simp only [List.length_take] at hlen
        omega

theorem not_committed_of_put {rs rest : List WalRecord} (hlog : Lawful NotYetCommitted (rs ++ rest)) {id : TxnId}
    {key : UInt64} {value : Value} (hput : .put id key value ∈ rest) : .commit id ∉ rs := by
  obtain ⟨a, b, rfl⟩ := List.append_of_mem hput
  rw [← List.append_assoc] at hlog
  intro hcommit
  exact Lawful.at hlog (List.mem_append_left a hcommit)

theorem committed_put_mem {rs rest : List WalRecord} (hlog : Lawful NotYetCommitted (rs ++ rest)) {id : TxnId}
    (hcommit : .commit id ∈ rs) {key : UInt64} {value : Value} (hput : .put id key value ∈ rs ++ rest) :
    .put id key value ∈ rs := by
  rcases List.mem_append.mp hput with h | h
  · exact h
  · exact absurd hcommit (not_committed_of_put hlog h)

theorem recordsFrom_split {first : TxnId} {ops : List Op} {a b : List WalRecord} {r : WalRecord}
    (h : recordsFrom first ops = a ++ r :: b) :
    ∃ past op rest, ops = past ++ op :: rest ∧ recordsFrom first past = a ∧ recordOf first op = some r ∧
      recordsFrom first rest = b := by
  obtain ⟨o₁, o₂, rfl, rfl, h₂⟩ := List.filterMap_eq_append_iff.mp h
  obtain ⟨o₃, op, o₄, rfl, hnone, hop, rfl⟩ := List.filterMap_eq_cons_iff.mp h₂
  have hnil : recordsFrom first o₃ = [] := List.filterMap_eq_nil_iff.mpr hnone
  refine ⟨o₁ ++ o₃, op, o₄, by simp, ?_, hop, rfl⟩
  rw [recordsFrom_append, hnil, List.append_nil]
  rfl

end SystemLevel.Mvcc
