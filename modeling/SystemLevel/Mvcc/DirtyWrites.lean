import SystemLevel.Mvcc.Anomalies
import SystemLevel.Mvcc.Sessions

/-!
The engine takes no locks on keys. A caller that lets no transaction put a key while another open
transaction has put it gets snapshot isolation with aborts, and a log whose every prefix recovers to
a state that the engine went through.
-/

namespace SystemLevel.Mvcc

open Runs Framing

def WritesAlone (past : List Op) : Op → Prop
  | .put t key _ => ∀ p ∈ putsOn past key, p.1 = t ∨ Ended past p.1
  | _ => True

instance decidableWritesAlone (past : List Op) : ∀ op, Decidable (WritesAlone past op)
  | .beginTransaction => inferInstanceAs (Decidable True)
  | .put t key _ => inferInstanceAs (Decidable (∀ p ∈ putsOn past key, p.1 = t ∨ Ended past p.1))
  | .get _ _ => inferInstanceAs (Decidable True)
  | .commit _ => inferInstanceAs (Decidable True)
  | .abort _ => inferInstanceAs (Decidable True)

theorem putsOn_other {op : Op} {key : UInt64} (h : ∀ t value, op ≠ .put t key value) : putsOn [op] key = [] := by
  rw [List.eq_nil_iff_forall_not_mem]
  rintro ⟨t, value⟩ hp
  rw [mem_putsOn, List.mem_singleton] at hp
  exact h t value hp.symm

theorem putsOn_snoc_put (ops : List Op) (t : ℕ) (key : UInt64) (value : Value) :
    putsOn (ops ++ [Op.put t key value]) key = putsOn ops key ++ [(t, value)] := by
  simp [putsOn, Op.putOn]

theorem putsOn_open {ops : List Op} (halone : Lawful WritesAlone ops) {t : ℕ} (ht : ¬ Ended ops t) (key : UInt64) :
    ∃ before own, putsOn ops key = before ++ own ∧ (∀ p ∈ before, p.1 ≠ t) ∧ ∀ p ∈ own, p.1 = t := by
  induction ops using List.reverseRecOn with
  | nil => exact ⟨[], [], rfl, by simp, by simp⟩
  | append_singleton ops op ih =>
    obtain ⟨hpast, hop⟩ := (lawful_snoc ops op).mp halone
    obtain ⟨before, own, hputs, hbefore, hown⟩ := ih hpast (fun he => ht (he.append [op]))
    by_cases hput : ∃ u value, op = .put u key value
    · obtain ⟨u, value, rfl⟩ := hput
      rw [putsOn_snoc_put, hputs]
      by_cases hu : u = t
      · refine ⟨before, own ++ [(u, value)], List.append_assoc _ _ _, hbefore, ?_⟩
        intro p hp
        rcases List.mem_append.mp hp with hp | hp
        · exact hown p hp
        · rw [List.mem_singleton.mp hp]
          exact hu
      · -- another transaction may put the key only while `t` has put nothing on it
        have hnone : own = [] := by
          rw [List.eq_nil_iff_forall_not_mem]
          intro p hp
          have hpt := hown p hp
          rcases hop p (by rw [hputs]; exact List.mem_append_right _ hp) with he | he
          · exact hu (he.symm.trans hpt)
          · exact ht ((hpt ▸ he).append _)
        refine ⟨before ++ [(u, value)], [], by rw [hnone, List.append_nil, List.append_nil], ?_, by simp⟩
        intro p hp
        rcases List.mem_append.mp hp with hp | hp
        · exact hbefore p hp
        · rw [List.mem_singleton.mp hp]
          exact hu
    · refine ⟨before, own, ?_, hbefore, hown⟩
      rw [putsOn_append, putsOn_other (fun u value he => hput ⟨u, value, he⟩), List.append_nil, hputs]

theorem ownOnTop_open {ops : List Op} (halone : Lawful WritesAlone ops) {t : ℕ} (ht : ¬ Ended ops t) :
    OwnOnTop ops t := by
  intro key
  obtain ⟨before, own, hputs, hbefore, hown⟩ := putsOn_open halone ht key
  have hlive : livePuts ops key = before.filter (fun p => .abort p.1 ∉ ops) ++ own := by
    rw [livePuts, hputs, List.filter_append]
    congr 1
    rw [List.filter_eq_self]
    intro p hp
    rw [decide_eq_true_eq, hown p hp]
    exact fun habort => ht (Or.inr habort)
  have hcount : putCount ops t key = own.length := by
    rw [putCount, hputs, List.countP_append, List.countP_eq_zero.mpr (by simpa using hbefore),
      List.countP_eq_length.mpr (by simpa using hown), Nat.zero_add]
  rw [hlive, hcount, List.reverse_append, List.take_append_of_le_length (by simp)]
  constructor
  · simp
  · intro p hp
    exact hown p (List.mem_reverse.mp (List.mem_of_mem_take hp))

theorem abortsOwn_of_writesAlone {ops : List Op} (hops : Lawful ActsWhileOpen ops) (halone : Lawful WritesAlone ops)
    (hb : begun ops < 2 ^ 64) : Lawful AbortsOwn ops := by
  induction ops using List.reverseRecOn with
  | nil => trivial
  | append_singleton ops op ih =>
    obtain ⟨hpast, hop⟩ := (lawful_snoc ops op).mp hops
    obtain ⟨halonepast, -⟩ := (lawful_snoc ops op).mp halone
    rw [begun_append] at hb
    have hown := ih hpast halonepast (by omega)
    refine (lawful_snoc ops op).mpr ⟨hown, ?_⟩
    cases op with
    | abort t =>
      exact (rollsBackOwn_run (Lawful.putsWhileOpen hpast) hown (by omega) hop.1).mpr (ownOnTop_open halonepast hop.2)
    | _ => trivial

theorem snapshot_read_with_aborts {ops : List Op} (hops : Lawful ActsWhileOpen ops) (halone : Lawful WritesAlone ops)
    (hb : begun ops < 2 ^ 64) {t : ℕ} (ht : t < begun ops) (key : UInt64) :
    (run ops).get t key =
      if putsOn ops key = [] then none else some (((shownPut ops t key).map Prod.snd).getD []) :=
  get_eq (Lawful.putsWhileOpen hops) (abortsOwn_of_writesAlone hops halone hb) hb ht key

def lockedSchedule : List Op :=
  [.beginTransaction, .put 0 5 [7], .put 0 6 [1], .beginTransaction, .commit 0, .put 1 5 [8], .put 1 5 [9],
    .beginTransaction, .abort 1, .beginTransaction, .put 3 6 [2]]

theorem snapshot_read_with_aborts_of_locked :
    (run lockedSchedule).get 2 5 =
      (if putsOn lockedSchedule 5 = [] then none
        else some (((shownPut lockedSchedule 2 5).map Prod.snd).getD [])) ∧
      shownPut lockedSchedule 2 5 = some (0, [7]) :=
  ⟨snapshot_read_with_aborts (by decide) (by decide) (by decide) (by decide) 5, by decide⟩

def TransactionalEngine.freshRead (e : TransactionalEngine) (key : UInt64) : Option Value :=
  e.beginTransaction.get e.txManager.txns.length key

theorem shownPut_fresh {ops : List Op} (hops : Lawful ActsWhileOpen ops) (key : UInt64) :
    shownPut (ops ++ [Op.beginTransaction]) (begun ops) key =
      ((putsOn ops key).filter (fun p => .commit p.1 ∈ ops)).getLast? := by
  have hputs : putsOn (ops ++ [Op.beginTransaction]) key = putsOn ops key := by
    rw [putsOn_append, putsOn_other (by simp), List.append_nil]
  rw [shownPut, hputs]
  congr 1
  apply List.filter_congr
  intro p hp
  have hne : p.1 ≠ begun ops := (begun_of_put (Lawful.putsWhileOpen hops) hp).ne
  rw [decide_eq_decide, Sees, untilBegin_begun]
  constructor
  · rintro ⟨-, he | hcommit⟩
    · exact absurd he hne
    · exact hcommit
  · intro hcommit
    have habort := not_abort_of_commit hops hcommit
    exact ⟨by simpa using habort, Or.inr hcommit⟩

theorem freshRead_run {ops : List Op} (hops : Lawful ActsWhileOpen ops) (halone : Lawful WritesAlone ops)
    (hb : begun ops < 2 ^ 64 - 1) (key : UInt64) :
    (run ops).freshRead key =
      if putsOn ops key = [] then none else some ((committedValues ops key).getLast?.getD []) := by
  have hsnoc : run (ops ++ [Op.beginTransaction]) = (run ops).beginTransaction := run_then ops _
  have hputs : putsOn (ops ++ [Op.beginTransaction]) key = putsOn ops key := by
    rw [putsOn_append, putsOn_other (by simp), List.append_nil]
  have hops' : Lawful ActsWhileOpen (ops ++ [Op.beginTransaction]) := (lawful_snoc _ _).mpr ⟨hops, trivial⟩
  have halone' : Lawful WritesAlone (ops ++ [Op.beginTransaction]) := (lawful_snoc _ _).mpr ⟨halone, trivial⟩
  have hbegun : begun (ops ++ [Op.beginTransaction]) = begun ops + 1 := by simp
  have hread := get_eq (Lawful.putsWhileOpen hops') (abortsOwn_of_writesAlone hops' halone' (by omega)) (by omega)
    (show begun ops < _ by omega) key
  rw [TransactionalEngine.freshRead, txns_length, ← hsnoc, hread, hputs, shownPut_fresh hops, committedValues,
    List.getLast?_map]

theorem view_of_recovered (file : WalFile) :
    (recovered file).beginTransaction.txManager.txns[0]? =
      some { txnId := (recovered file).txManager.nextTxnId
             readView :=
               { creatorTxnId := (recovered file).txManager.nextTxnId
                 upLimitId := (recovered file).txManager.nextTxnId
                 lowLimitId := (recovered file).txManager.nextTxnId } } := rfl

theorem commit_wal {ops : List Op} {t : ℕ} (ht : t < begun ops) :
    (run (ops ++ [Op.commit t])).wal.bytes.length = (run ops).wal.bytes.length + headerSize := by
  obtain ⟨txn, hget, -⟩ := txn_from {} rfl ht
  rw [run_then]
  simp only [step, TransactionalEngine.commit, run, hget, WalFile.write, WalFile.fdatasync, take_maxRwCount,
    List.length_append, WalHeader.codec.encode_length]
  rfl

section

variable {ops : List Op} (hops : Lawful PutsWhileOpen ops) (hsize : ∀ op ∈ ops, op.valueSize ≤ maxRwCount)
  {n : ℕ} {file : WalFile} (hfile : file.bytes = (run ops).wal.bytes.take n)

include hops hsize hfile

theorem restored_before_next (hb : begun ops < 2 ^ 64 - 1) {key : UInt64} {slot : TupleSlot}
    (hslot : (recovered file).table.lookup key = some slot) : slot.xmin < (recovered file).txManager.nextTxnId := by
  obtain ⟨past, t, value, rest, -, hcommit, -, -, hid⟩ := prefix_slot hops hsize hfile (by omega) hslot
  obtain ⟨before, after, hsplit, hlen⟩ := hcommit
  have hlawful : Lawful PutsWhileOpen (before ++ Op.commit t :: after) := hsplit ▸ hops
  rw [commit_wal (Lawful.at hlawful)] at hlen
  rw [idAt_eq hid]
  exact prefix_nextTxnId hops hsize hfile hb hsplit rfl hlen

theorem freshRead_recovered (hb : begun ops < 2 ^ 64 - 1) (key : UInt64) :
    (recovered file).freshRead key =
      ((committedPuts (whole WalRecord.bytes (recordsFrom 1 ops) n) key).map Prod.snd).getLast? := by
  have hlookup := prefix_lookup hops hsize hfile (by omega) key
  have htable : (recovered file).beginTransaction.table = (recovered file).table := rfl
  change (recovered file).beginTransaction.get 0 key = _
  simp only [TransactionalEngine.get, view_of_recovered, htable, List.getLast?_map]
  cases hslot : (recovered file).table.lookup key with
  | none =>
    rw [hslot, eq_comm, Option.map_eq_none_iff] at hlookup
    rw [hlookup]
    rfl
  | some slot =>
    have hlt := restored_before_next hops hsize hfile hb hslot
    rw [hslot, eq_comm, Option.map_eq_some_iff] at hlookup
    obtain ⟨p, hp, rfl⟩ := hlookup
    rw [hp]
    have hvisible : ReadView.isVisible
        { creatorTxnId := (recovered file).txManager.nextTxnId
          upLimitId := (recovered file).txManager.nextTxnId
          lowLimitId := (recovered file).txManager.nextTxnId } (restoredSlot key p).xmin = true := by
      simp [ReadView.isVisible, hlt]
    simp only [readTupleSnapshot, hvisible, ↓reduceIte, Option.map_some]
    rfl

end

theorem exists_past {ops : List Op} (n : ℕ) :
    ∃ past rest, ops = past ++ rest ∧ recordsFrom 1 past = whole WalRecord.bytes (recordsFrom 1 ops) n := by
  obtain ⟨lost, hlost⟩ := whole_initial WalRecord.bytes (recordsFrom 1 ops) n
  obtain ⟨past, rest, hsplit, hpast, -⟩ := List.filterMap_eq_append_iff.mp hlost.symm
  exact ⟨past, rest, hsplit, hpast⟩

theorem committedWithin_past {past rest : List Op} {n : ℕ} (hops : Lawful PutsWhileOpen (past ++ rest))
    (hb : begun (past ++ rest) < 2 ^ 64)
    (hpast : recordsFrom 1 past = whole WalRecord.bytes (recordsFrom 1 (past ++ rest)) n) (t : ℕ) :
    CommittedWithin (past ++ rest) n t ↔ .commit t ∈ past := by
  have hone : (1 : TxnId).toNat = 1 := rfl
  constructor
  · intro h
    have ht := h.begun hops
    rw [committedWithin_iff hops hb ht, ← hpast, mem_recordsFrom] at h
    obtain ⟨op, hop, he⟩ := h
    cases op with
    | commit u =>
      have hu := begun_of_ended hops (Or.inl (List.mem_append_left rest hop))
      have hid : idOf u = idOf t := by simpa [recordOf] using he
      rw [idOf_inj (by omega) (by omega)] at hid
      exact hid ▸ hop
    | _ => simp [recordOf] at he
  · intro h
    have ht := begun_of_ended hops (Or.inl (List.mem_append_left rest h))
    rw [committedWithin_iff hops hb ht, ← hpast]
    exact mem_recordsFrom.mpr ⟨_, h, rfl⟩

theorem recovers_to_past_state {ops : List Op} (hops : Lawful ActsWhileOpen ops) (halone : Lawful WritesAlone ops)
    (hb : begun ops < 2 ^ 64 - 1) (hsize : ∀ op ∈ ops, op.valueSize ≤ maxRwCount) (n : ℕ) (file : WalFile)
    (hfile : file.bytes = (run ops).wal.bytes.take n) :
    ∃ past, past <+: ops ∧ (∀ t, CommittedWithin ops n t ↔ .commit t ∈ past) ∧
      ∀ key, (recovered file).freshRead key =
        if ∃ p ∈ putsOn past key, .commit p.1 ∈ past then (run past).freshRead key else none := by
  obtain ⟨past, rest, rfl, hpast⟩ := @exists_past ops n
  have hputs := Lawful.putsWhileOpen hops
  have hbpast : begun past < 2 ^ 64 - 1 := by
    rw [begun_append] at hb
    omega
  refine ⟨past, List.prefix_append _ _, committedWithin_past hputs (by omega) hpast, fun key => ?_⟩
  rw [freshRead_recovered hputs hsize hfile hb, ← hpast,
    committedPuts_records hputs.left (by change 1 + _ ≤ _; omega), freshRead_run hops.left halone.left hbpast]
  by_cases hkey : ∃ p ∈ putsOn past key, .commit p.1 ∈ past
  · obtain ⟨p, hp, hcommit⟩ := hkey
    have hne : committedValues past key ≠ [] := by
      apply List.ne_nil_of_mem (a := p.2)
      exact List.mem_map_of_mem (List.mem_filter.mpr ⟨hp, decide_eq_true hcommit⟩)
    rw [if_pos ⟨p, hp, hcommit⟩, if_neg (List.ne_nil_of_mem hp), List.getLast?_eq_some_getLast hne]
    rfl
  · have hnil : committedValues past key = [] := by
      rw [committedValues, List.map_eq_nil_iff, List.filter_eq_nil_iff]
      intro p hp hcommit
      exact hkey ⟨p, hp, of_decide_eq_true hcommit⟩
    rw [if_neg hkey, hnil]
    rfl

theorem recovers_to_past_state_of_locked :
    ∃ past, past <+: lockedSchedule ∧ (∀ t, CommittedWithin lockedSchedule 90 t ↔ .commit t ∈ past) ∧
      ∀ key, (recovered { bytes := (run lockedSchedule).wal.bytes.take 90 }).freshRead key =
        if ∃ p ∈ putsOn past key, .commit p.1 ∈ past then (run past).freshRead key else none :=
  recovers_to_past_state (by decide) (by decide) (by decide) (by decide) 90 _ rfl

end SystemLevel.Mvcc
