import SystemLevel.Mvcc.Isolation

namespace SystemLevel.Mvcc

open Runs

theorem Lawful.putsWhileOpen {ops : List Op} (h : Lawful ActsWhileOpen ops) : Lawful PutsWhileOpen ops :=
  h.mono (fun _ _ _ hop => hop.putsWhileOpen)

theorem no_dirty_read {ops : List Op} (hops : Lawful ActsWhileOpen ops) (hown : Lawful AbortsOwn ops)
    (hb : begun ops < 2 ^ 64) (t : ℕ) (ht : Open ops t) (key : UInt64) (version : TxnId × Value)
    (hsel : (run ops).selected t key = some version) :
    (version.1 = 0 ∨ (run ops).idAt t = some version.1 ∨
        ∃ u, .commit u ∈ untilBegin t ops ∧ (run ops).idAt u = some version.1) ∧
      ∀ u, u ≠ t → (run ops).idAt u = some version.1 → .abort u ∉ ops ∧ Ended (untilBegin t ops) u := by
  have hputs := Lawful.putsWhileOpen hops
  rw [selected_eq hputs hown hb ht.1] at hsel
  split_ifs at hsel with hnil
  cases hshown : shownPut ops t key with
  | none =>
    have hv : version = (0, []) := by simpa [hshown] using hsel.symm
    subst hv
    refine ⟨Or.inl rfl, fun u _ hid => ?_⟩
    have := begun_of_idAt hid
    exact absurd (idAt_eq hid).symm (idOf_ne_zero (by omega))
  | some p =>
    have hv : version = versionOf p := by simpa [hshown] using hsel.symm
    subst hv
    obtain ⟨hput, hshows⟩ := List.mem_filter.mp (List.mem_of_getLast? hshown)
    obtain ⟨halive, hsees⟩ := of_decide_eq_true hshows
    have hp := begun_of_put hputs hput
    constructor
    · rcases hsees with heq | hcommit
      · exact Or.inr (Or.inl (heq ▸ idAt_of_begun hp))
      · exact Or.inr (Or.inr ⟨p.1, hcommit, idAt_of_begun hp⟩)
    · intro u hut hid
      have hu := begun_of_idAt hid
      have heq : p.1 = u := (idOf_inj (by omega) (by omega)).mp (idAt_eq hid)
      subst heq
      exact ⟨halive, Or.inl (hsees.resolve_left hut)⟩

def rolledBackWriter : List Op :=
  [.beginTransaction, .put 0 5 [7], .commit 0, .beginTransaction, .beginTransaction, .put 1 5 [8], .abort 1]

theorem no_dirty_read_after_rollback :
    ((1 : TxnId) = 0 ∨ (run rolledBackWriter).idAt 2 = some 1 ∨
        ∃ u, .commit u ∈ untilBegin 2 rolledBackWriter ∧ (run rolledBackWriter).idAt u = some 1) ∧
      ∀ u, u ≠ 2 → (run rolledBackWriter).idAt u = some 1 →
        .abort u ∉ rolledBackWriter ∧ Ended (untilBegin 2 rolledBackWriter) u :=
  no_dirty_read (by decide) (by decide +kernel) (by decide) 2 (by decide) 5 (1, [7]) (by decide +kernel)

theorem reads_aborted_put :
    let ops : List Op := [.beginTransaction, .beginTransaction, .put 0 5 [1], .put 1 5 [2], .abort 0,
      .beginTransaction]
    Lawful ActsWhileOpen (ops ++ [.get 2 5]) ∧ (run ops).selected 2 5 = some (1, [1]) ∧
      (run ops).idAt 0 = some 1 ∧ .abort 0 ∈ ops := by
  decide +kernel

theorem open_of_put {before between : List Op} (hops : Lawful PutsWhileOpen (before ++ between)) {key : UInt64}
    {p : ℕ × Value} (hp : p ∈ putsOn between key) : ¬ Ended before p.1 := by
  rw [mem_putsOn] at hp
  obtain ⟨first, last, rfl⟩ := List.append_of_mem hp
  have hsplit : Lawful PutsWhileOpen ((before ++ first) ++ Op.put p.1 key p.2 :: last) := by simpa using hops
  exact fun he => (Lawful.at hsplit).2 (he.append first)

theorem not_abort_of_commit {ops : List Op} (hops : Lawful ActsWhileOpen ops) {u : ℕ}
    (hcommit : .commit u ∈ ops) : .abort u ∉ ops := by
  intro habort
  induction ops using List.reverseRecOn with
  | nil => simp at hcommit
  | append_singleton ops op ih =>
    obtain ⟨hpast, hop⟩ := (lawful_snoc ops op).mp hops
    simp only [List.mem_append, List.mem_singleton] at hcommit habort
    rcases hcommit with hcommit | rfl
    · rcases habort with habort | rfl
      · exact ih hpast hcommit habort
      · exact hop.2 (Or.inl hcommit)
    · rcases habort with habort | h
      · exact hop.2 (Or.inr habort)
      · cases h

theorem shownPut_stable {before between : List Op} (hops : Lawful ActsWhileOpen (before ++ between)) {t : ℕ}
    (ht : Open (before ++ between) t) (hbegun : t < begun before) {key : UInt64}
    (hno : ∀ value, .put t key value ∉ between) :
    shownPut (before ++ between) t key = shownPut before t key := by
  have huntil := untilBegin_append hbegun between
  have hsees (u : ℕ) : Sees (before ++ between) t u ↔ Sees before t u := by rw [Sees, huntil, Sees]
  have halive {u : ℕ} (hu : Sees before t u) : .abort u ∉ before ++ between := by
    rcases hu with rfl | hcommit
    · exact fun h => ht.2 (Or.inr h)
    · apply not_abort_of_commit hops
      exact List.mem_append_left _ ((untilBegin_initial t before).mem hcommit)
  have hnew : (putsOn between key).filter (fun p => .abort p.1 ∉ before ++ between ∧ Sees before t p.1) = [] := by
    rw [List.filter_eq_nil_iff]
    intro p hp
    simp only [decide_eq_true_eq, not_and]
    rintro - (heq | hcommit)
    · rw [mem_putsOn, heq] at hp
      exact hno _ hp
    · exact open_of_put (Lawful.putsWhileOpen hops) hp (Or.inl ((untilBegin_initial t before).mem hcommit))
  have hold : (putsOn before key).filter (fun p => .abort p.1 ∉ before ++ between ∧ Sees before t p.1) =
      (putsOn before key).filter (fun p => .abort p.1 ∉ before ∧ Sees before t p.1) := by
    apply List.filter_congr
    intro p hp
    by_cases hs : Sees before t p.1
    · have := halive hs
      have hb : .abort p.1 ∉ before := fun h => this (List.mem_append_left _ h)
      simp only [this, hb, hs]
    · simp [hs]
  simp only [shownPut, putsOn_append, hsees, List.filter_append]
  rw [hnew, hold, List.append_nil]

theorem mem_table_iff {ops : List Op} (hops : Lawful PutsWhileOpen ops) (hown : Lawful AbortsOwn ops)
    (hb : begun ops < 2 ^ 64) (key : UInt64) : key ∈ (run ops).table ↔ putsOn ops key ≠ [] := by
  have hchain := (chainInv_run hops hown hb).chain key
  rw [← AList.lookup_isSome]
  simp only [TransactionalEngine.versionsOf, chainOf] at hchain
  cases hl : (run ops).table.lookup key with
  | none =>
    rw [hl] at hchain
    split_ifs at hchain with hnil
    · simp [hnil]
    · simp at hchain
  | some slot =>
    rw [hl] at hchain
    split_ifs at hchain with hnil
    · simp [TupleSlot.versions] at hchain
    · simp [hnil]

theorem putsOn_eq_nil {ops : List Op} {key : UInt64} :
    putsOn ops key = [] ↔ ∀ u value, .put u key value ∉ ops := by
  rw [List.eq_nil_iff_forall_not_mem, Prod.forall]
  simp only [mem_putsOn]

theorem repeatable_read {before between : List Op} {t : ℕ} {key : UInt64}
    (hops : Lawful ActsWhileOpen (before ++ .get t key :: between ++ [.get t key]))
    (hown : Lawful AbortsOwn (before ++ .get t key :: between ++ [.get t key]))
    (hb : begun (before ++ .get t key :: between) < 2 ^ 64) (hno : ∀ value, .put t key value ∉ between) :
    (run before).get t key = (run (before ++ .get t key :: between)).get t key ↔
      key ∈ (run before).table ∨ ∀ u value, .put u key value ∉ between := by
  obtain ⟨hall, hopen⟩ := (lawful_snoc _ _).mp hops
  have hownall := ((lawful_snoc _ _).mp hown).1
  have hputs := Lawful.putsWhileOpen hall
  have hfirst : Open before t := Lawful.at hall
  have hbefore : begun before < 2 ^ 64 := by rw [begun_append] at hb; omega
  have hstable : shownPut (before ++ Op.get t key :: between) t key = shownPut before t key :=
    shownPut_stable hall hopen hfirst.1 (by simpa using hno)
  have hsplit : putsOn (before ++ Op.get t key :: between) key = putsOn before key ++ putsOn between key :=
    putsOn_append before (.get t key :: between) key
  rw [get_eq hputs.left hownall.left hbefore hfirst.1, get_eq hputs hownall hb hopen.1, hstable, hsplit,
    mem_table_iff hputs.left hownall.left hbefore, ← putsOn_eq_nil]
  by_cases hnil : putsOn before key = []
  · by_cases hnew : putsOn between key = [] <;> simp [hnil, hnew]
  · simp [hnil]

def ownPut : List Op := [.beginTransaction, .put 0 5 [7], .beginTransaction]

def otherCommit : List Op := [.put 1 5 [8], .commit 1]

theorem repeatable_read_over_commit :
    (run ownPut).get 0 5 = (run (ownPut ++ .get 0 5 :: otherCommit)).get 0 5 ↔
      5 ∈ (run ownPut).table ∨ ∀ u value, .put u 5 value ∉ otherCommit :=
  repeatable_read (by decide) (by decide +kernel) (by decide) (by simp [otherCommit])

theorem insertion_changes_read :
    let before : List Op := [.beginTransaction, .beginTransaction]
    let between : List Op := [.put 1 5 [8]]
    Lawful ActsWhileOpen (before ++ .get 0 5 :: between ++ [.get 0 5]) ∧ (∀ value, .put 0 5 value ∉ between) ∧
      (run before).get 0 5 = none ∧ (run (before ++ .get 0 5 :: between)).get 0 5 = some [] := by
  refine ⟨by decide, by simp, by decide +kernel, by decide +kernel⟩

end SystemLevel.Mvcc
