import SystemLevel.Mvcc.Identifiers

namespace SystemLevel.Mvcc

open Runs

def isActive (txns : List Transaction) (entry : Σ _ : TxnId, ℕ) : Bool :=
  (txns[entry.2]?).any (fun t => t.state = .active)

theorem collect_spec (txns : List Transaction) (entries : List (Σ _ : TxnId, ℕ))
    (ids : List TxnId) (low : TxnId) :
    let scan := entries.foldl (TransactionManager.collect txns) (ids, low)
    let found := (entries.filter (isActive txns)).map Sigma.fst
    scan.1 = ids ++ found ∧ scan.2 ≤ low ∧ (∀ id ∈ found, scan.2 ≤ id) ∧
      (scan.2 = low ∨ scan.2 ∈ found) := by
  induction entries generalizing ids low with
  | nil => simp
  | cons entry entries ih =>
    simp only [List.foldl_cons]
    by_cases ha : isActive txns entry = true
    · have hc : TransactionManager.collect txns (ids, low) entry =
          (ids ++ [entry.1], if entry.1 < low then entry.1 else low) := if_pos ha
      obtain ⟨h1, h2, h3, h4⟩ := ih (ids ++ [entry.1]) (if entry.1 < low then entry.1 else low)
      rw [hc, List.filter_cons_of_pos ha, List.map_cons]
      have hmin : (if entry.1 < low then entry.1 else low) ≤ low ∧
          (if entry.1 < low then entry.1 else low) ≤ entry.1 := by
        split_ifs with hlt
        · exact ⟨UInt64.le_of_lt hlt, UInt64.le_refl _⟩
        · exact ⟨UInt64.le_refl _, UInt64.not_lt.mp hlt⟩
      refine ⟨by simpa using h1, UInt64.le_trans h2 hmin.1, ?_, ?_⟩
      · intro id hid
        rcases List.mem_cons.mp hid with rfl | hid
        · exact UInt64.le_trans h2 hmin.2
        · exact h3 id hid
      · rcases h4 with h4 | h4
        · rw [h4]
          split_ifs
          · exact Or.inr (by simp)
          · exact Or.inl rfl
        · exact Or.inr (List.mem_cons_of_mem _ h4)
    · have hc : TransactionManager.collect txns (ids, low) entry = (ids, low) := if_neg ha
      rw [hc, List.filter_cons_of_neg ha]
      exact ih ids low

structure ViewOf (past : List Op) (t : ℕ) (view : ReadView) : Prop where
  creator : view.creatorTxnId = idOf t
  low : view.lowLimitId = idOf t
  sorted : view.activeIds.Pairwise (· ≤ ·)
  active : ∀ u < t, idOf u ∈ view.activeIds ↔ ¬ Ended past u
  up_le : ∀ u < t, ¬ Ended past u → view.upLimitId ≤ idOf u
  up : view.upLimitId ≤ idOf t ∧ ∃ u ≤ t, view.upLimitId = idOf u

theorem ViewOf.isVisible_iff {past : List Op} {t u : ℕ} {view : ReadView} (h : ViewOf past t view)
    (ht : t + 1 < 2 ^ 64) (hu : u + 1 < 2 ^ 64) :
    view.isVisible (idOf u) = true ↔ u = t ∨ u < t ∧ Ended past u := by
  unfold ReadView.isVisible
  simp only [h.creator, h.low, idOf_inj hu ht]
  by_cases hut : u = t
  · simp [hut]
  simp only [hut, ↓reduceIte, false_or]
  by_cases hlt : u < t
  · have hge : ¬ idOf t ≤ idOf u := by rw [idOf_le_iff ht hu]; omega
    by_cases hup : idOf u < view.upLimitId
    · have hended : Ended past u := by
        by_contra hne
        exact UInt64.not_le.mpr hup (h.up_le u hlt hne)
      simp [hup, hlt, hended]
    · have hb := binarySearch_iff h.sorted (idOf u)
      rw [h.active u hlt] at hb
      simp only [hup, hge, ↓reduceIte, hlt, true_and, Bool.not_eq_true', ← Bool.not_eq_true, hb, not_not]
  · have hge : idOf t ≤ idOf u := by rw [idOf_le_iff ht hu]; omega
    have hup : ¬ idOf u < view.upLimitId :=
      UInt64.not_lt.mpr (UInt64.le_trans h.up.1 hge)
    simp [hup, hge, hlt]

theorem ViewOf.isVisible_zero {past : List Op} {t : ℕ} {view : ReadView} (h : ViewOf past t view)
    (ht : t + 1 < 2 ^ 64) : view.isVisible 0 = true := by
  obtain ⟨u, hu, hup⟩ := h.up.2
  have hlt : (0 : TxnId) < view.upLimitId := by
    rw [hup, UInt64.lt_iff_toNat_lt, idOf_toNat (by omega)]
    simp
  unfold ReadView.isVisible
  simp [hlt]

structure ManagerInv (ops : List Op) (m : TransactionManager) : Prop where
  view : ∀ t txn, m.txns[t]? = some txn → ViewOf (untilBegin t ops) t txn.readView
  active : ∀ t < begun ops, m.activeTxns.lookup (idOf t) = if Ended ops t then none else some t
  domain : ∀ id t, m.activeTxns.lookup id = some t → t < begun ops ∧ id = idOf t
  state : ∀ t txn, m.txns[t]? = some txn → (txn.state = .active ↔ ¬ Ended ops t)

theorem not_ended_begun {ops : List Op} (h : Lawful PutsWhileOpen ops) : ¬ Ended ops (begun ops) :=
  fun he => absurd (begun_of_ended h he) (Nat.lt_irrefl _)

instance total_le : Std.Total (fun a b : UInt64 => a ≤ b) := ⟨UInt64.le_total⟩
instance isTrans_le : IsTrans UInt64 (fun a b => a ≤ b) := ⟨fun _ _ _ => UInt64.le_trans⟩

theorem mem_found {ops : List Op} {m : TransactionManager} (hm : ManagerInv ops m)
    (hlen : m.txns.length = begun ops) (id : TxnId) :
    id ∈ (m.activeTxns.entries.filter (isActive m.txns)).map Sigma.fst ↔
      ∃ u < begun ops, ¬ Ended ops u ∧ id = idOf u := by
  simp only [List.mem_map, List.mem_filter]
  constructor
  · rintro ⟨⟨id', u⟩, ⟨hmem, hact⟩, rfl⟩
    obtain ⟨hu, rfl⟩ := hm.domain id' u (AList.mem_lookup_iff.mpr hmem)
    refine ⟨u, hu, fun he => ?_, rfl⟩
    have := AList.mem_lookup_iff.mpr hmem
    rw [hm.active u hu, if_pos he] at this
    exact absurd this (by simp)
  · rintro ⟨u, hu, hne, rfl⟩
    have hl := hm.active u hu
    rw [if_neg hne] at hl
    refine ⟨⟨idOf u, u⟩, ⟨AList.mem_lookup_iff.mp hl, ?_⟩, rfl⟩
    have hlt : u < m.txns.length := by omega
    have hstate := (hm.state u _ (List.getElem?_eq_getElem hlt)).mpr hne
    simp [isActive, List.getElem?_eq_getElem hlt, hstate]

theorem snapshot_viewOf {ops : List Op} {m : TransactionManager} (hm : ManagerInv ops m)
    (hlen : m.txns.length = begun ops) (hb : begun ops + 1 < 2 ^ 64) :
    ViewOf ops (begun ops) (m.snapshot (idOf (begun ops))) := by
  obtain ⟨hids, hlow, hmin, hcases⟩ :=
    collect_spec m.txns m.activeTxns.entries [] (idOf (begun ops))
  simp only [List.nil_append] at hids
  refine ⟨rfl, rfl, List.pairwise_insertionSort _ _, ?_, ?_, hlow, ?_⟩
  · intro u hu
    simp only [TransactionManager.snapshot, List.mem_insertionSort, hids, mem_found hm hlen]
    constructor
    · rintro ⟨w, hw, hne, he⟩
      rwa [(idOf_inj (by omega) (by omega)).mp he]
    · intro hne
      exact ⟨u, hu, hne, rfl⟩
  · intro u hu hne
    exact hmin _ ((mem_found hm hlen _).mpr ⟨u, hu, hne, rfl⟩)
  · rcases hcases with hc | hc
    · exact ⟨_, le_refl _, hc⟩
    · obtain ⟨u, hu, -, he⟩ := (mem_found hm hlen _).mp hc
      exact ⟨u, by omega, he⟩

theorem managerInv_begin {ops : List Op} {m : TransactionManager} (hops : Lawful PutsWhileOpen ops)
    (hm : ManagerInv ops m) (hlen : m.txns.length = begun ops) (hnext : m.nextTxnId = idOf (begun ops))
    (hb : begun ops + 1 < 2 ^ 64) : ManagerInv (ops ++ [Op.beginTransaction]) m.beginTransaction := by
  have hended (u : ℕ) : Ended (ops ++ [Op.beginTransaction]) u ↔ Ended ops u := by simp [Ended]
  refine ⟨?_, ?_, ?_, ?_⟩
  · intro t txn ht
    simp only [TransactionManager.beginTransaction, List.getElem?_append] at ht
    split_ifs at ht with hlt
    · rw [untilBegin_append (by omega)]
      exact hm.view t txn ht
    · obtain ⟨hi, rfl⟩ := List.getElem?_eq_some_iff.mp ht
      have he : t = begun ops := by simp at hi; omega
      subst he
      rw [untilBegin_begun]
      simpa [hnext] using snapshot_viewOf hm hlen hb
  · intro t ht
    simp only [TransactionManager.beginTransaction, hnext, hended]
    by_cases he : t = begun ops
    · subst he
      rw [AList.lookup_insert, if_neg (not_ended_begun hops), hlen]
    · have hlt : t < begun ops := by simp at ht; omega
      have hne : idOf t ≠ idOf (begun ops) := by rw [ne_eq, idOf_inj (by omega) hb]; exact he
      rw [AList.lookup_insert_ne hne]
      exact hm.active t hlt
  · intro id t hl
    simp only [TransactionManager.beginTransaction, hnext] at hl
    by_cases he : id = idOf (begun ops)
    · subst he
      rw [AList.lookup_insert] at hl
      cases hl
      exact ⟨by simp [hlen], by rw [hlen]⟩
    · rw [AList.lookup_insert_ne he] at hl
      obtain ⟨hlt, hid⟩ := hm.domain id t hl
      exact ⟨by simp; omega, hid⟩
  · intro t txn ht
    rw [hended]
    simp only [TransactionManager.beginTransaction, List.getElem?_append] at ht
    split_ifs at ht with hlt
    · exact hm.state t txn ht
    · obtain ⟨hi, rfl⟩ := List.getElem?_eq_some_iff.mp ht
      have he : t = begun ops := by simp at hi; omega
      subst he
      simpa using not_ended_begun hops

theorem managerInv_finish {ops : List Op} {m : TransactionManager} {op : Op} {t : ℕ} {state : TxnState}
    (hm : ManagerInv ops m) (hid : ∀ u txn, m.txns[u]? = some txn → txn.txnId = idOf u)
    (hlen : m.txns.length = begun ops) (hb : begun ops + 1 ≤ 2 ^ 64) (ht : t < begun ops)
    (hstate : state ≠ .active) (hbegun : begun [op] = 0)
    (hended : ∀ u, Ended (ops ++ [op]) u ↔ Ended ops u ∨ u = t) :
    ManagerInv (ops ++ [op]) (m.finish t state) := by
  have hlt : t < m.txns.length := by omega
  have hget := List.getElem?_eq_getElem hlt
  have hidt := hid t _ hget
  have hall : begun (ops ++ [op]) = begun ops := by simp [hbegun]
  have hfin : m.finish t state =
      { m with
        txns := m.txns.set t { m.txns[t] with state }
        activeTxns := m.activeTxns.erase (idOf t) } := by
    simp [TransactionManager.finish, hget, hidt]
  rw [hfin]
  refine ⟨?_, ?_, ?_, ?_⟩
  · intro u txn hu
    simp only [List.getElem?_set] at hu
    split_ifs at hu with htu
    · subst htu
      cases hu
      rw [untilBegin_append ht]
      exact hm.view t m.txns[t] hget
    · have hulen := (List.getElem?_eq_some_iff.mp hu).1
      rw [untilBegin_append (by omega)]
      exact hm.view u txn hu
  · intro u hu
    rw [hall] at hu
    by_cases htu : u = t
    · subst htu
      rw [if_pos ((hended u).mpr (Or.inr rfl))]
      exact AList.lookup_erase _ _
    · have hne : idOf u ≠ idOf t := by rw [ne_eq, idOf_inj (by omega) (by omega)]; exact htu
      rw [AList.lookup_erase_ne hne, hm.active u hu]
      simp only [hended, htu, or_false]
  · intro id u hl
    rw [hall]
    by_cases he : id = idOf t
    · subst he
      rw [AList.lookup_erase] at hl
      cases hl
    · rw [AList.lookup_erase_ne he] at hl
      exact hm.domain id u hl
  · intro u txn hu
    simp only [List.getElem?_set] at hu
    rw [hended]
    split_ifs at hu with htu
    · subst htu
      cases hu
      simpa using hstate
    · rw [hm.state u txn hu]
      simp [Ne.symm htu]

theorem managerInv_idle {ops : List Op} {m : TransactionManager} {op : Op} (hm : ManagerInv ops m)
    (hlen : m.txns.length = begun ops) (hbegun : begun [op] = 0)
    (hended : ∀ u, Ended (ops ++ [op]) u ↔ Ended ops u) : ManagerInv (ops ++ [op]) m := by
  have hall : begun (ops ++ [op]) = begun ops := by simp [hbegun]
  refine ⟨?_, ?_, ?_, ?_⟩
  · intro u txn hu
    have hulen := (List.getElem?_eq_some_iff.mp hu).1
    rw [untilBegin_append (by omega)]
    exact hm.view u txn hu
  · intro u hu
    rw [hall] at hu
    simp only [hended]
    exact hm.active u hu
  · intro id u hl
    rw [hall]
    exact hm.domain id u hl
  · intro u txn hu
    rw [hended]
    exact hm.state u txn hu

theorem managerInv_set {ops : List Op} {m : TransactionManager} {t : ℕ} {txn txn' : Transaction}
    (hm : ManagerInv ops m) (ht : m.txns[t]? = some txn) (hview : txn'.readView = txn.readView)
    (hstate : txn'.state = txn.state) : ManagerInv ops { m with txns := m.txns.set t txn' } := by
  have hold : ∀ (u : ℕ) (x : Transaction), (m.txns.set t txn')[u]? = some x →
      ∃ y, m.txns[u]? = some y ∧ x.readView = y.readView ∧ x.state = y.state := by
    intro u x hu
    rw [List.getElem?_set] at hu
    split_ifs at hu with htu
    · subst htu
      cases hu
      exact ⟨txn, ht, hview, hstate⟩
    · exact ⟨x, hu, rfl, rfl⟩
  refine ⟨?_, hm.active, hm.domain, ?_⟩
  · intro u x hu
    obtain ⟨y, hy, hv, -⟩ := hold u x hu
    rw [hv]
    exact hm.view u y hy
  · intro u x hu
    obtain ⟨y, hy, -, hs⟩ := hold u x hu
    rw [hs]
    exact hm.state u y hy

theorem managerInv_run {ops : List Op} (hops : Lawful PutsWhileOpen ops) (hb : begun ops < 2 ^ 64) :
    ManagerInv ops (run ops).txManager := by
  induction ops using List.reverseRecOn with
  | nil => exact ⟨by simp, by simp, by simp, by simp⟩
  | append_singleton ops op ih =>
    obtain ⟨hpast, hop⟩ := (lawful_snoc ops op).mp hops
    rw [begun_append] at hb
    have hm := ih hpast (by omega)
    have hlen := txns_length ops
    have hid : ∀ u txn, (run ops).txManager.txns[u]? = some txn → txn.txnId = idOf u :=
      fun u txn hu => txnId_eq hu
    have hget {t : ℕ} (ht : t < begun ops) : ∃ txn, (run ops).txManager.txns[t]? = some txn :=
      ⟨_, List.getElem?_eq_getElem (by omega)⟩
    rw [run_then]
    cases op with
    | beginTransaction =>
      exact managerInv_begin hpast hm hlen (ids_from {} rfl ops).1 (by simpa using hb)
    | put t key value =>
      obtain ⟨txn, ht⟩ := hget hop.1
      simp only [step, TransactionalEngine.put, ht]
      exact managerInv_idle (managerInv_set hm ht rfl rfl) (by simpa using hlen) rfl
        (fun u => by simp [Ended])
    | get t key => exact managerInv_idle hm hlen rfl (fun u => by simp [Ended])
    | commit t =>
      obtain ⟨txn, ht⟩ := hget hop
      simp only [step, TransactionalEngine.commit, ht, TransactionManager.commit]
      exact managerInv_finish hm hid hlen (by omega) hop (by simp) rfl (fun u => by simp [Ended]; tauto)
    | abort t =>
      obtain ⟨txn, ht⟩ := hget hop
      simp only [step, TransactionalEngine.abort, ht, TransactionManager.abort]
      exact managerInv_finish hm hid hlen (by omega) hop (by simp) rfl (fun u => by simp [Ended]; tauto)

end SystemLevel.Mvcc
