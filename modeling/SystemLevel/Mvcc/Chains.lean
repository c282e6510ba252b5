import SystemLevel.Mvcc.Snapshots

namespace SystemLevel.Mvcc

open Runs

def TransactionalEngine.versionsOf (e : TransactionalEngine) (key : UInt64) : List (TxnId × Value) :=
  ((e.table.lookup key).map TupleSlot.versions).getD []

def undoKeys (txn : Transaction) : List UInt64 := txn.undoEntries.map Prod.fst

def rollsBackOwn (e : TransactionalEngine) (t : ℕ) : Bool :=
  match e.txManager.txns[t]? with
  | none => true
  | some txn => (undoKeys txn).all (fun key =>
      ((e.versionsOf key).take ((undoKeys txn).count key)).all (fun version => version.1 = txn.txnId))

def AbortsOwn (past : List Op) : Op → Prop
  | .abort t => rollsBackOwn (run past) t = true
  | _ => True

instance (past : List Op) : ∀ op, Decidable (AbortsOwn past op)
  | .beginTransaction => inferInstanceAs (Decidable True)
  | .put _ _ _ => inferInstanceAs (Decidable True)
  | .get _ _ => inferInstanceAs (Decidable True)
  | .commit _ => inferInstanceAs (Decidable True)
  | .abort _ => inferInstanceAs (Decidable (_ = true))

def livePuts (ops : List Op) (key : UInt64) : List (ℕ × Value) :=
  (putsOn ops key).filter (fun p => .abort p.1 ∉ ops)

def versionOf (p : ℕ × Value) : TxnId × Value := (idOf p.1, p.2)

/-- The chain of a key after `ops`: the puts that have not been rolled back, over the initial
version that the first put finds in the empty slot. -/
def chainOf (ops : List Op) (key : UInt64) : List (TxnId × Value) :=
  if putsOn ops key = [] then [] else (livePuts ops key).reverse.map versionOf ++ [(0, [])]

structure ChainInv (ops : List Op) (e : TransactionalEngine) : Prop where
  chain : ∀ key, e.versionsOf key = chainOf ops key
  undo : ∀ t txn, e.txManager.txns[t]? = some txn → undoKeys txn = keysPutBy ops t

def popVersion {α : Type} : List α → List α
  | _ :: next :: rest => next :: rest
  | chain => chain

theorem popVersion_iterate {α : Type} (n : ℕ) (chain : List α) (last : α) :
    popVersion^[n] (chain ++ [last]) = chain.drop n ++ [last] := by
  induction n generalizing chain with
  | zero => rfl
  | succ n ih =>
    rw [Function.iterate_succ_apply]
    cases chain with
    | nil =>
      have := ih []
      simpa [popVersion] using this
    | cons version chain =>
      have hp : popVersion (version :: chain ++ [last]) = chain ++ [last] := by
        cases chain <;> rfl
      rw [hp, ih, List.drop_succ_cons]

theorem pop_versions (slot : TupleSlot) : slot.pop.versions = popVersion slot.versions := by
  unfold TupleSlot.pop TupleSlot.versions
  cases h : slot.rollPtr with
  | nil => simp [popVersion, h]
  | cons undo prev => simp [popVersion, UndoRecord.version]

theorem push_versions (slot : TupleSlot) (key : UInt64) (id : TxnId) (value : Value) :
    (slot.push key id value).versions = (id, value) :: slot.versions := rfl

theorem initial_versions (slot : Option TupleSlot) :
    (slot.getD {}).versions =
      if (slot.map TupleSlot.versions).getD [] = [] then [(0, [])]
      else (slot.map TupleSlot.versions).getD [] := by
  cases slot with
  | none => rfl
  | some slot => simp [TupleSlot.versions]

theorem rollback_versions (table : AList (fun _ : UInt64 => TupleSlot)) (entry : UInt64 × Value)
    (key : UInt64) :
    (((TransactionalEngine.rollback table entry).lookup key).map TupleSlot.versions).getD [] =
      if entry.1 = key then popVersion (((table.lookup key).map TupleSlot.versions).getD [])
      else ((table.lookup key).map TupleSlot.versions).getD [] := by
  unfold TransactionalEngine.rollback
  by_cases hk : entry.1 = key
  · subst hk
    cases h : table.lookup entry.1 with
    | none => simp [h, popVersion]
    | some slot => simp [pop_versions]
  · cases h : table.lookup entry.1 with
    | none => simp [hk]
    | some slot => simp [AList.lookup_insert_ne (Ne.symm hk), hk]

theorem rollback_fold (entries : List (UInt64 × Value)) (table : AList (fun _ : UInt64 => TupleSlot))
    (key : UInt64) :
    (((entries.foldl TransactionalEngine.rollback table).lookup key).map TupleSlot.versions).getD [] =
      popVersion^[(entries.map Prod.fst).count key]
        (((table.lookup key).map TupleSlot.versions).getD []) := by
  induction entries generalizing table with
  | nil => rfl
  | cons entry entries ih =>
    rw [List.foldl_cons, ih, rollback_versions, List.map_cons, List.count_cons]
    by_cases hk : entry.1 = key
    · simp [hk, Function.iterate_succ_apply]
    · simp [hk]

theorem drop_eq_filter_not {α : Type} (p : α → Bool) (l : List α) (n : ℕ) (hn : n ≤ l.length)
    (htake : ∀ x ∈ l.take n, p x = true) (hcount : l.countP p ≤ n) :
    l.drop n = l.filter (fun x => !p x) := by
  have htaken : (l.take n).countP p = n := by
    rw [List.countP_eq_length.mpr htake, List.length_take]
    omega
  have hsplit : l.countP p = (l.take n).countP p + (l.drop n).countP p := by
    rw [← List.countP_append, List.take_append_drop]
  have hdrop : (l.drop n).countP p = 0 := by omega
  have hfilter : l.filter (fun x => !p x) =
      (l.take n).filter (fun x => !p x) ++ (l.drop n).filter (fun x => !p x) := by
    rw [← List.filter_append, List.take_append_drop]
  have hnone : (l.take n).filter (fun x => !p x) = [] := by
    rw [List.filter_eq_nil_iff]
    intro x hx
    simp [htake x hx]
  rw [hfilter, hnone, List.nil_append, eq_comm, List.filter_eq_self]
  intro x hx
  have := List.countP_eq_zero.mp hdrop x hx
  simpa using this

theorem chainOf_idle {ops : List Op} {op : Op} (hput : ∀ key, putsOn [op] key = [])
    (habort : ∀ t, op ≠ .abort t) (key : UInt64) : chainOf (ops ++ [op]) key = chainOf ops key := by
  have hlive : livePuts (ops ++ [op]) key = livePuts ops key := by
    simp only [livePuts, putsOn_append, hput, List.append_nil]
    apply List.filter_congr
    intro p hp
    simp [Ne.symm (habort p.1)]
  simp only [chainOf, putsOn_append, hput, List.append_nil, hlive]

theorem chainOf_put {ops : List Op} {t : ℕ} (hopen : Open ops t) (k key : UInt64) (value : Value) :
    chainOf (ops ++ [Op.put t k value]) key =
      if k = key then versionOf (t, value) :: (if chainOf ops key = [] then [(0, [])] else chainOf ops key)
      else chainOf ops key := by
  have hmem (u : ℕ) : Op.abort u ∉ ops ++ [Op.put t k value] ↔ Op.abort u ∉ ops := by simp
  by_cases hk : k = key
  · subst hk
    have hputs : putsOn (ops ++ [Op.put t k value]) k = putsOn ops k ++ [(t, value)] := by
      simp [putsOn, Op.putOn]
    have hlive : livePuts (ops ++ [Op.put t k value]) k = livePuts ops k ++ [(t, value)] := by
      have ht : Op.abort t ∉ ops := fun h => hopen.2 (Or.inr h)
      simp only [livePuts, hputs, hmem, List.filter_append]
      simp [ht]
    have hne : chainOf ops k = [] ↔ putsOn ops k = [] := by
      unfold chainOf
      split_ifs with h <;> simp [h]
    rw [chainOf, if_neg (by rw [hputs]; simp), hlive, if_pos rfl]
    by_cases hnil : putsOn ops k = []
    · rw [if_pos (hne.mpr hnil)]
      simp [livePuts, hnil]
    · rw [if_neg (hne.not.mpr hnil), chainOf, if_neg hnil]
      simp
  · have hputs : putsOn (ops ++ [Op.put t k value]) key = putsOn ops key := by
      simp [putsOn, Op.putOn, hk]
    simp only [chainOf, livePuts, hputs, hmem, hk, ↓reduceIte]

theorem livePuts_abort (ops : List Op) (t : ℕ) (key : UInt64) :
    livePuts (ops ++ [Op.abort t]) key = (livePuts ops key).filter (fun p => !decide (p.1 = t)) := by
  have hputs : putsOn (ops ++ [Op.abort t]) key = putsOn ops key := by simp [putsOn, Op.putOn]
  simp only [livePuts, hputs, List.filter_filter]
  apply List.filter_congr
  intro p hp
  simp [and_comm]

def putCount (ops : List Op) (t : ℕ) (key : UInt64) : ℕ := (putsOn ops key).countP (fun p => p.1 = t)

def OwnOnTop (ops : List Op) (t : ℕ) : Prop :=
  ∀ key, putCount ops t key ≤ (livePuts ops key).length ∧
    ∀ p ∈ (livePuts ops key).reverse.take (putCount ops t key), p.1 = t

theorem rollsBackOwn_iff {ops : List Op} {e : TransactionalEngine} {t : ℕ} {txn : Transaction}
    (hops : Lawful PutsWhileOpen ops) (hb : begun ops < 2 ^ 64) (ht : t < begun ops)
    (hget : e.txManager.txns[t]? = some txn) (hid : txn.txnId = idOf t) (h : ChainInv ops e) :
    rollsBackOwn e t = true ↔ OwnOnTop ops t := by
  have hcount (key : UInt64) : (keysPutBy ops t).count key = putCount ops t key := count_keysPutBy ops t key
  have hchain {key : UInt64} (hpos : 0 < putCount ops t key) :
      chainOf ops key = (livePuts ops key).reverse.map versionOf ++ [(0, [])] := by
    rw [chainOf, if_neg]
    intro hnil
    simp [putCount, hnil] at hpos
  simp only [rollsBackOwn, hget, List.all_eq_true, h.undo t txn hget, hid, decide_eq_true_eq, h.chain, hcount]
  constructor
  · intro hown key
    rcases Nat.eq_zero_or_pos (putCount ops t key) with hzero | hpos
    · simp [hzero]
    have hall := hown key (List.count_pos_iff.mp (by rw [hcount]; exact hpos))
    rw [hchain hpos] at hall
    have hlen : putCount ops t key ≤ (livePuts ops key).length := by
      by_contra hc
      have hzero := hall (0, []) (by rw [List.take_of_length_le (by simp; omega)]; simp)
      exact idOf_ne_zero (by omega) hzero.symm
    refine ⟨hlen, fun p hp => ?_⟩
    have hmem : versionOf p ∈ ((livePuts ops key).reverse.map versionOf ++ [(0, [])]).take
        (putCount ops t key) := by
      rw [List.take_append_of_le_length (by simpa using hlen), ← List.map_take]
      exact List.mem_map_of_mem hp
    have hput : p ∈ putsOn ops key := by
      have := List.mem_of_mem_take hp
      rw [List.mem_reverse] at this
      exact (List.mem_filter.mp this).1
    have := begun_of_put hops hput
    exact (idOf_inj (by omega) (by omega)).mp (hall _ hmem)
  · intro hown key hkey version hv
    obtain ⟨hlen, hall⟩ := hown key
    have hpos : 0 < putCount ops t key := by rw [← hcount]; exact List.count_pos_iff.mpr hkey
    rw [hchain hpos, List.take_append_of_le_length (by simpa using hlen), ← List.map_take] at hv
    obtain ⟨p, hp, rfl⟩ := List.mem_map.mp hv
    exact congrArg idOf (hall p hp)

theorem OwnOnTop.drop {ops : List Op} {t : ℕ} (h : OwnOnTop ops t) (key : UInt64) :
    (livePuts ops key).reverse.drop (putCount ops t key) =
      (livePuts ops key).reverse.filter (fun p => !decide (p.1 = t)) := by
  apply drop_eq_filter_not _ _ _ (by simpa using (h key).1)
  · intro p hp
    simpa using (h key).2 p hp
  · rw [List.countP_reverse]
    exact List.Sublist.countP_le List.filter_sublist

theorem keysPutBy_fresh {ops : List Op} (hops : Lawful PutsWhileOpen ops) {t : ℕ} (ht : begun ops ≤ t) :
    keysPutBy ops t = [] := by
  rw [List.eq_nil_iff_forall_not_mem]
  intro key hkey
  have hpos : 0 < (keysPutBy ops t).count key := List.count_pos_iff.mpr hkey
  rw [count_keysPutBy, List.countP_pos_iff] at hpos
  obtain ⟨p, hp, he⟩ := hpos
  have := begun_of_put hops hp
  simp only [decide_eq_true_eq] at he
  omega

theorem finish_undoKeys {m : TransactionManager} {t u : ℕ} {state : TxnState} {txn : Transaction}
    (h : (m.finish t state).txns[u]? = some txn) : ∃ old, m.txns[u]? = some old ∧ undoKeys txn = undoKeys old := by
  unfold TransactionManager.finish at h
  cases ht : m.txns[t]? with
  | none => exact ⟨txn, by simpa [ht] using h, rfl⟩
  | some old =>
    simp only [ht, List.getElem?_set] at h
    split_ifs at h with htu
    · cases h
      exact ⟨old, htu ▸ ht, rfl⟩
    · exact ⟨txn, h, rfl⟩

theorem chainInv_begin {ops : List Op} {e : TransactionalEngine} (hops : Lawful PutsWhileOpen ops)
    (hlen : e.txManager.txns.length = begun ops) (h : ChainInv ops e) :
    ChainInv (ops ++ [Op.beginTransaction]) e.beginTransaction := by
  refine ⟨fun key => ?_, ?_⟩
  · rw [chainOf_idle (fun _ => rfl) (by simp)]
    exact h.chain key
  · intro t txn ht
    have hnone : keysPutBy [.beginTransaction] t = [] := rfl
    rw [keysPutBy_append, hnone, List.append_nil]
    simp only [TransactionalEngine.beginTransaction, TransactionManager.beginTransaction,
      List.getElem?_append] at ht
    split_ifs at ht with hlt
    · exact h.undo t txn ht
    · obtain ⟨hi, rfl⟩ := List.getElem?_eq_some_iff.mp ht
      rw [keysPutBy_fresh hops (by omega)]
      simp [undoKeys]

theorem chainInv_put {ops : List Op} {e : TransactionalEngine} {t : ℕ} (key : UInt64) (value : Value)
    {txn : Transaction} (hget : e.txManager.txns[t]? = some txn) (hid : txn.txnId = idOf t)
    (hopen : Open ops t) (h : ChainInv ops e) : ChainInv (ops ++ [Op.put t key value]) (e.put t key value) := by
  refine ⟨fun k => ?_, ?_⟩
  · rw [chainOf_put hopen, ← h.chain k]
    simp only [TransactionalEngine.put, hget, TransactionalEngine.versionsOf]
    by_cases hk : key = k
    · subst hk
      rw [AList.lookup_insert, if_pos rfl, Option.map_some, Option.getD_some, push_versions, hid,
        initial_versions]
      rfl
    · rw [AList.lookup_insert_ne (Ne.symm hk), if_neg hk]
  · intro u txn' hu
    simp only [TransactionalEngine.put, hget, List.getElem?_set] at hu
    rw [keysPutBy_append]
    split_ifs at hu with htu
    · subst htu
      cases hu
      have := h.undo t txn hget
      simpa [undoKeys, keysPutBy, Op.keyPutBy] using this
    · have hnone : keysPutBy [.put t key value] u = [] := by simp [keysPutBy, Op.keyPutBy, htu]
      rw [hnone, List.append_nil]
      exact h.undo u txn' hu

theorem chainInv_finish {ops : List Op} {e e' : TransactionalEngine} {op : Op} {t : ℕ} {state : TxnState}
    (hm : e'.txManager = e.txManager.finish t state) (hput : ∀ u, keysPutBy [op] u = [])
    (hchain : ∀ key, e'.versionsOf key = chainOf (ops ++ [op]) key) (h : ChainInv ops e) :
    ChainInv (ops ++ [op]) e' := by
  refine ⟨hchain, ?_⟩
  intro u txn hu
  rw [hm] at hu
  obtain ⟨old, hold, he⟩ := finish_undoKeys hu
  rw [he, h.undo u old hold, keysPutBy_append, hput, List.append_nil]

theorem rollback_chain {ops : List Op} {e : TransactionalEngine} {t : ℕ} {txn : Transaction}
    (hget : e.txManager.txns[t]? = some txn) (hown : OwnOnTop ops t) (h : ChainInv ops e) (key : UInt64) :
    (e.abort t).versionsOf key = chainOf (ops ++ [Op.abort t]) key := by
  have hputs : putsOn (ops ++ [Op.abort t]) key = putsOn ops key := by simp [putsOn, Op.putOn]
  have hcount : (undoKeys txn).count key = putCount ops t key := by
    rw [h.undo t txn hget]
    exact count_keysPutBy ops t key
  have hfold := rollback_fold txn.undoEntries e.table key
  change _ = popVersion^[(undoKeys txn).count key] (e.versionsOf key) at hfold
  have habort : (e.abort t).versionsOf key = popVersion^[putCount ops t key] (e.versionsOf key) := by
    rw [← hcount, ← hfold]
    simp only [TransactionalEngine.abort, hget, TransactionalEngine.versionsOf]
  rw [habort, h.chain key, chainOf, chainOf, hputs]
  by_cases hnil : putsOn ops key = []
  · simp [putCount, hnil]
  · rw [if_neg hnil, if_neg hnil, popVersion_iterate, ← List.map_drop, hown.drop key, livePuts_abort,
      List.filter_reverse]

theorem chainInv_run {ops : List Op} (hops : Lawful PutsWhileOpen ops) (hown : Lawful AbortsOwn ops)
    (hb : begun ops < 2 ^ 64) : ChainInv ops (run ops) := by
  induction ops using List.reverseRecOn with
  | nil => exact ⟨fun key => rfl, by simp⟩
  | append_singleton ops op ih =>
    obtain ⟨hpast, hop⟩ := (lawful_snoc ops op).mp hops
    obtain ⟨hownpast, hownop⟩ := (lawful_snoc ops op).mp hown
    rw [begun_append] at hb
    have hinv := ih hpast hownpast (by omega)
    have hlen := txns_length ops
    have hget {t : ℕ} (ht : t < begun ops) : ∃ txn, (run ops).txManager.txns[t]? = some txn :=
      ⟨_, List.getElem?_eq_getElem (by omega)⟩
    rw [run_then]
    cases op with
    | beginTransaction => exact chainInv_begin hpast hlen hinv
    | put t key value =>
      obtain ⟨txn, ht⟩ := hget hop.1
      exact chainInv_put key value ht (txnId_eq ht) hop hinv
    | get t key =>
      refine ⟨fun k => ?_, fun u txn hu => ?_⟩
      · rw [chainOf_idle (fun _ => rfl) (by simp)]
        exact hinv.chain k
      · have hnone : keysPutBy [.get t key] u = [] := rfl
        rw [keysPutBy_append, hnone, List.append_nil]
        exact hinv.undo u txn hu
    | commit t =>
      obtain ⟨txn, ht⟩ := hget hop
      have hcommit : step (run ops) (.commit t) = (run ops).commit t := rfl
      rw [hcommit, TransactionalEngine.commit, ht]
      apply chainInv_finish rfl (fun _ => rfl) _ hinv
      intro key
      rw [chainOf_idle (fun _ => rfl) (by simp)]
      exact hinv.chain key
    | abort t =>
      obtain ⟨txn, ht⟩ := hget hop
      have hm : (step (run ops) (.abort t)).txManager = (run ops).txManager.finish t .aborted := by
        simp only [step, TransactionalEngine.abort, ht]
        rfl
      exact chainInv_finish hm (fun _ => rfl)
        (rollback_chain ht ((rollsBackOwn_iff hpast (by omega) hop ht (txnId_eq ht) hinv).mp hownop) hinv) hinv

theorem rollsBackOwn_run {ops : List Op} (hops : Lawful PutsWhileOpen ops) (hown : Lawful AbortsOwn ops)
    (hb : begun ops < 2 ^ 64) {t : ℕ} (ht : t < begun ops) :
    rollsBackOwn (run ops) t = true ↔ OwnOnTop ops t := by
  have hlen := txns_length ops
  have hget := List.getElem?_eq_getElem (show t < (run ops).txManager.txns.length by omega)
  exact rollsBackOwn_iff hops hb ht hget (txnId_eq hget) (chainInv_run hops hown hb)

end SystemLevel.Mvcc
