import SystemLevel.Mvcc.Chains

namespace SystemLevel.Mvcc

open Runs

def TransactionalEngine.selected (e : TransactionalEngine) (t : ℕ) (key : UInt64) : Option (TxnId × Value) :=
  match e.txManager.txns[t]? with
  | none => none
  | some txn =>
    match e.table.lookup key with
    | none => none
    | some slot => slot.selected txn.readView

theorem get_eq_selected (e : TransactionalEngine) (t : ℕ) (key : UInt64) :
    e.get t key = (e.selected t key).map Prod.snd := by
  unfold TransactionalEngine.get TransactionalEngine.selected
  cases e.txManager.txns[t]? with
  | none => rfl
  | some txn =>
    dsimp only
    cases e.table.lookup key with
    | none => rfl
    | some slot => exact readTupleSnapshot_eq _ _

def Sees (ops : List Op) (t u : ℕ) : Prop := u = t ∨ .commit u ∈ untilBegin t ops

instance (ops : List Op) (t u : ℕ) : Decidable (Sees ops t u) := inferInstanceAs (Decidable (_ ∨ _))

def seenPuts (ops : List Op) (t : ℕ) (key : UInt64) : List (ℕ × Value) :=
  (putsOn ops key).filter (fun p => Sees ops t p.1)

def shownPut (ops : List Op) (t : ℕ) (key : UInt64) : Option (ℕ × Value) :=
  ((putsOn ops key).filter (fun p => .abort p.1 ∉ ops ∧ Sees ops t p.1)).getLast?

theorem find?_reverse {α : Type} (p : α → Bool) (l : List α) : l.reverse.find? p = (l.filter p).getLast? := by
  rw [← List.head?_filter, List.filter_reverse, List.head?_reverse]

theorem isVisible_iff_sees {ops : List Op} (hops : Lawful PutsWhileOpen ops) (hb : begun ops < 2 ^ 64)
    {t : ℕ} (ht : t < begun ops) {view : ReadView} (hview : ViewOf (untilBegin t ops) t view)
    {u : ℕ} (hu : u < begun ops) (hlive : .abort u ∉ ops) :
    view.isVisible (idOf u) = true ↔ Sees ops t u := by
  obtain ⟨rest, hrest⟩ := untilBegin_initial t ops
  have hpast : Lawful PutsWhileOpen (untilBegin t ops) := Lawful.left (hrest.symm ▸ hops)
  have hsub : Op.abort u ∉ untilBegin t ops := fun h => hlive ((untilBegin_initial t ops).mem h)
  rw [hview.isVisible_iff (by omega) (by omega), Sees]
  apply or_congr Iff.rfl
  constructor
  · rintro ⟨-, h | h⟩
    · exact h
    · exact absurd h hsub
  · intro h
    have := begun_of_ended hpast (Or.inl h)
    rw [begun_untilBegin ht] at this
    exact ⟨this, Or.inl h⟩

theorem selected_eq {ops : List Op} (hops : Lawful PutsWhileOpen ops) (hown : Lawful AbortsOwn ops)
    (hb : begun ops < 2 ^ 64) {t : ℕ} (ht : t < begun ops) (key : UInt64) :
    (run ops).selected t key =
      if putsOn ops key = [] then none else some (((shownPut ops t key).map versionOf).getD (0, [])) := by
  have hlen := txns_length ops
  have hget : (run ops).txManager.txns[t]? = some ((run ops).txManager.txns.get ⟨t, by omega⟩) :=
    List.getElem?_eq_getElem (by omega)
  have hview := (managerInv_run hops hb).view t _ hget
  have hchain := (chainInv_run hops hown hb).chain key
  generalize (run ops).txManager.txns.get ⟨t, by omega⟩ = txn at hget hview
  simp only [TransactionalEngine.selected, hget]
  simp only [TransactionalEngine.versionsOf, chainOf] at hchain
  split
  · rename_i hnone
    rw [hnone] at hchain
    split_ifs at hchain ⊢ with hnil
    · rfl
    · simp at hchain
  · rename_i slot hsome
    rw [hsome] at hchain
    simp only [Option.map_some, Option.getD_some] at hchain
    split_ifs at hchain ⊢ with hnil
    · simp [TupleSlot.versions] at hchain
    · rw [TupleSlot.selected, hchain, List.find?_append, List.find?_map, find?_reverse]
      have hsame : (livePuts ops key).filter
          ((fun version : TxnId × Value => txn.readView.isVisible version.1) ∘ versionOf) =
          (putsOn ops key).filter (fun p => .abort p.1 ∉ ops ∧ Sees ops t p.1) := by
        rw [livePuts, List.filter_filter]
        apply List.filter_congr
        intro p hput
        rw [Bool.eq_iff_iff, Bool.and_eq_true, decide_eq_true_iff, decide_eq_true_iff, and_comm]
        apply and_congr_right
        intro hlive
        exact isVisible_iff_sees hops hb ht hview (begun_of_put hops hput) hlive
      rw [hsame, ← shownPut]
      cases shownPut ops t key with
      | none => simp [hview.isVisible_zero (by omega)]
      | some p => rfl

theorem get_eq {ops : List Op} (hops : Lawful PutsWhileOpen ops) (hown : Lawful AbortsOwn ops)
    (hb : begun ops < 2 ^ 64) {t : ℕ} (ht : t < begun ops) (key : UInt64) :
    (run ops).get t key =
      if putsOn ops key = [] then none else some (((shownPut ops t key).map Prod.snd).getD []) := by
  rw [get_eq_selected, selected_eq hops hown hb ht]
  split_ifs
  · rfl
  · cases shownPut ops t key <;> rfl

theorem abortsOwn_of_abortFree {ops : List Op} (hops : Lawful PutsWhileOpen ops)
    (habort : ∀ u, .abort u ∉ ops) : Lawful AbortsOwn ops := by
  apply hops.mono
  intro past op hop _
  cases op with
  | abort u => exact absurd hop (habort u)
  | _ => trivial

theorem shownPut_abortFree {ops : List Op} (habort : ∀ u, .abort u ∉ ops) (t : ℕ) (key : UInt64) :
    shownPut ops t key = (seenPuts ops t key).getLast? := by
  simp only [shownPut, seenPuts, habort, not_false_eq_true, true_and]

theorem snapshot_read {ops : List Op} (hops : Lawful PutsWhileOpen ops) (habort : ∀ u, .abort u ∉ ops)
    (hb : begun ops < 2 ^ 64) {t : ℕ} (ht : t < begun ops) {key : UInt64}
    (hput : ∃ p ∈ putsOn ops key, Sees ops t p.1) :
    ∃ p, (seenPuts ops t key).getLast? = some p ∧ (run ops).get t key = some p.2 := by
  obtain ⟨q, hq, hsees⟩ := hput
  have hne : seenPuts ops t key ≠ [] :=
    List.ne_nil_of_mem (List.mem_filter.mpr ⟨hq, decide_eq_true hsees⟩)
  obtain ⟨p, hp⟩ := Option.isSome_iff_exists.mp (List.getLast?_isSome.mpr hne)
  refine ⟨p, hp, ?_⟩
  rw [get_eq hops (abortsOwn_of_abortFree hops habort) hb ht, if_neg (List.ne_nil_of_mem hq),
    shownPut_abortFree habort, hp]
  rfl

theorem snapshot_read_under_writer :
    ∃ p, (seenPuts [.beginTransaction, .put 0 5 [7], .commit 0, .beginTransaction, .beginTransaction,
        .put 1 5 [8]] 2 5).getLast? = some p ∧
      (run [.beginTransaction, .put 0 5 [7], .commit 0, .beginTransaction, .beginTransaction,
        .put 1 5 [8]]).get 2 5 = some p.2 :=
  snapshot_read (by decide) (by simp) (by decide) (by decide) ⟨(0, [7]), by decide, by decide⟩

def firstView : ReadView := { creatorTxnId := 1, upLimitId := 1, lowLimitId := 1, activeIds := [] }

theorem idleBegins_firstView (n : ℕ) : (run (idleBegins (n + 1))).births[0]? = some (1, firstView) := by
  induction n with
  | zero => decide +kernel
  | succ n ih =>
    rw [idleBegins_succ, run_then, step, begin_births, List.getElem?_append_left]
    · exact ih
    · exact (List.getElem?_eq_some_iff.mp ih).1

/-- After `n` begins the first and the last transaction write key 5. With `n = 2 ^ 64` the ids have
wrapped, and the last transaction carries the id 0 of the initial versions. -/
def wrapSchedule (n : ℕ) : List Op := idleBegins n ++ [.put 0 5 [7]] ++ [.put (n - 1) 5 [8]]

theorem get_of_put {ops : List Op} {t u : ℕ} {key : UInt64} {value : Value} {id : TxnId} {view : ReadView}
    (ht : t < begun ops) (hu : (run ops).births[u]? = some (id, view)) (hvisible : view.isVisible (idOf t) = true) :
    (run (ops ++ [Op.put t key value])).get u key = some value := by
  have hlen := txns_length ops
  obtain ⟨txn, htxn⟩ : ∃ txn, (run ops).txManager.txns[t]? = some txn :=
    ⟨_, List.getElem?_eq_getElem (by omega)⟩
  have hbirths : (run (ops ++ [Op.put t key value])).births[u]? = some (id, view) := by
    rw [run_then, step_births _ _ (by simp)]
    exact hu
  simp only [TransactionalEngine.births, List.getElem?_map, Option.map_eq_some_iff, Transaction.birth,
    Prod.mk.injEq] at hbirths
  obtain ⟨reader, hreader, -, hview⟩ := hbirths
  have htable : (run (ops ++ [Op.put t key value])).table.lookup key =
      some (((run ops).table.lookup key).getD {} |>.push key txn.txnId value) := by
    rw [run_then]
    simp only [step, TransactionalEngine.put, htxn]
    exact AList.lookup_insert _
  simp only [TransactionalEngine.get, hreader, htable, readTupleSnapshot, TupleSlot.push, hview, txnId_eq htxn,
    hvisible, ↓reduceIte]

theorem wrapSchedule_get {n : ℕ} (hn : n = 2 ^ 64) : (run (wrapSchedule n)).get 0 5 = some [8] := by
  have hbirths : (run (idleBegins n ++ [Op.put 0 5 [7]])).births[0]? = some (1, firstView) := by
    rw [run_then, step_births _ _ (by simp), show n = (n - 1) + 1 by omega]
    exact idleBegins_firstView (n - 1)
  have hid : idOf (n - 1) = 0 := by rw [hn]; decide
  apply get_of_put _ hbirths
  · rw [hid]; decide
  · rw [begun_append, begun_idleBegins]; simp; omega

theorem wrapSchedule_begun (n : ℕ) : begun (wrapSchedule n) = n := by
  rw [wrapSchedule, begun_append, begun_append, begun_idleBegins]
  rfl

theorem wrapSchedule_lawful {n : ℕ} (hn : 0 < n) : Lawful PutsWhileOpen (wrapSchedule n) := by
  have hidle : Lawful PutsWhileOpen (idleBegins n) :=
    (idleBegins_lawful n).mono (fun _ _ _ h => h.putsWhileOpen)
  rw [wrapSchedule, lawful_snoc, lawful_snoc]
  refine ⟨⟨hidle, ?_, ?_⟩, ?_, ?_⟩
  · rwa [begun_idleBegins]
  · simp [Ended, idleBegins, List.mem_replicate]
  · rw [begun_append, begun_idleBegins]; simp; omega
  · simp [Ended, idleBegins, List.mem_replicate]

theorem wrapSchedule_putsOn (n : ℕ) : putsOn (wrapSchedule n) 5 = [(0, [7]), (n - 1, [8])] := by
  have hidle : putsOn (idleBegins n) 5 = [] := by
    simp [putsOn, idleBegins, List.filterMap_eq_nil_iff, List.mem_replicate, Op.putOn]
  rw [wrapSchedule, putsOn_append, putsOn_append, hidle]
  rfl

theorem wrapSchedule_untilBegin {n : ℕ} (hn : 0 < n) : untilBegin 0 (wrapSchedule n) = [] := by
  cases n with
  | zero => omega
  | succ n => rfl

theorem wrapSchedule_seenPuts {n : ℕ} (hn : 1 < n) : seenPuts (wrapSchedule n) 0 5 = [(0, [7])] := by
  have hlast : ¬ n - 1 = 0 := by omega
  simp only [seenPuts, wrapSchedule_putsOn, Sees, wrapSchedule_untilBegin (show 0 < n by omega)]
  simp [hlast]

theorem snapshot_read_wraps :
    Lawful PutsWhileOpen (wrapSchedule (2 ^ 64)) ∧ (∀ u, .abort u ∉ wrapSchedule (2 ^ 64)) ∧
      0 < begun (wrapSchedule (2 ^ 64)) ∧
      (∃ p ∈ putsOn (wrapSchedule (2 ^ 64)) 5, Sees (wrapSchedule (2 ^ 64)) 0 p.1) ∧
      (seenPuts (wrapSchedule (2 ^ 64)) 0 5).getLast? = some (0, [7]) ∧
      (run (wrapSchedule (2 ^ 64))).get 0 5 = some [8] := by
  refine ⟨wrapSchedule_lawful (by norm_num), ?_, ?_, ⟨(0, [7]), ?_, Or.inl rfl⟩, ?_, wrapSchedule_get rfl⟩
  · intro u
    simp only [wrapSchedule, idleBegins, List.mem_append, List.mem_replicate, List.mem_singleton]
    simp
  · rw [wrapSchedule_begun]; norm_num
  · rw [wrapSchedule_putsOn]; simp
  · rw [wrapSchedule_seenPuts (by norm_num)]; rfl

end SystemLevel.Mvcc
