import SystemLevel.Mvcc.LogRecords

namespace SystemLevel.Mvcc

open Runs Framing

def CommittedWithin (ops : List Op) (n t : ℕ) : Prop :=
  ∃ past rest, ops = past ++ .commit t :: rest ∧ (run (past ++ [.commit t])).wal.bytes.length ≤ n

theorem wal_run {ops : List Op} (hops : Lawful PutsWhileOpen ops) :
    (run ops).wal.bytes = (recordsFrom 1 ops).flatMap WalRecord.bytes :=
  wal_from {} rfl hops

theorem committedWithin_iff {ops : List Op} (hops : Lawful PutsWhileOpen ops) (hb : begun ops < 2 ^ 64) {n t : ℕ}
    (ht : t < begun ops) :
    CommittedWithin ops n t ↔ .commit (idOf t) ∈ whole WalRecord.bytes (recordsFrom 1 ops) n := by
  constructor
  · rintro ⟨past, rest, rfl, hlen⟩
    have hsplit : past ++ Op.commit t :: rest = (past ++ [Op.commit t]) ++ rest := by simp
    rw [hsplit] at hops ⊢
    rw [wal_run hops.left] at hlen
    have hpre : recordsFrom 1 (past ++ [Op.commit t]) <+: recordsFrom 1 ((past ++ [Op.commit t]) ++ rest) := by
      rw [recordsFrom_append 1 _ rest]
      exact List.prefix_append _ _
    apply (prefix_whole WalRecord.bytes hpre hlen).mem
    rw [recordsFrom_append]
    simp
  · intro hmem
    obtain ⟨a, b, hab⟩ := List.append_of_mem hmem
    obtain ⟨tail, htail⟩ := whole_initial WalRecord.bytes (recordsFrom 1 ops) n
    have hsplit : recordsFrom 1 ops = a ++ WalRecord.commit (idOf t) :: (b ++ tail) := by
      rw [← htail, hab]
      simp
    obtain ⟨past, op, rest, rfl, hpast, hop, -⟩ := recordsFrom_split hsplit
    have hcut := hops
    rw [show past ++ op :: rest = (past ++ [op]) ++ rest by simp] at hcut
    cases op with
    | commit u =>
      have hu : u < begun (past ++ Op.commit u :: rest) := begun_of_ended hops (Or.inl (by simp))
      have hid : idOf u = idOf t := by simpa [recordOf] using hop
      rw [idOf_inj (by omega) (by omega)] at hid
      subst hid
      refine ⟨past, rest, rfl, ?_⟩
      have hlen := whole_length WalRecord.bytes (recordsFrom 1 (past ++ Op.commit u :: rest)) n
      rw [hab, show a ++ WalRecord.commit (idOf u) :: b = (a ++ [WalRecord.commit (idOf u)]) ++ b by simp,
        List.flatMap_append, List.length_append] at hlen
      rw [wal_run hcut.left, recordsFrom_append, hpast]
      exact le_trans (Nat.le_add_right _ _) hlen
    | _ => simp [recordOf] at hop

theorem CommittedWithin.begun {ops : List Op} (hops : Lawful PutsWhileOpen ops) {n t : ℕ}
    (h : CommittedWithin ops n t) : t < begun ops := by
  obtain ⟨past, rest, rfl, -⟩ := h
  exact begun_of_ended hops (Or.inl (by simp))

theorem recordOf_eq_put {first : TxnId} {op : Op} {id : TxnId} {key : UInt64} {value : Value}
    (h : recordOf first op = some (.put id key value)) : ∃ t, op = .put t key value ∧ idFrom first t = id := by
  cases op with
  | put t k v =>
    simp only [recordOf, Option.some.injEq, WalRecord.put.injEq] at h
    obtain ⟨hid, rfl, rfl⟩ := h
    exact ⟨t, rfl, hid⟩
  | _ => simp [recordOf] at h

def Op.valueSize : Op → ℕ
  | .put _ _ value => value.length
  | _ => 0

theorem records_sized {first : TxnId} {ops : List Op} (hsize : ∀ op ∈ ops, op.valueSize ≤ maxRwCount) :
    ∀ r ∈ recordsFrom first ops, r.Sized := by
  intro r hr
  obtain ⟨op, hop, he⟩ := mem_recordsFrom.mp hr
  cases r with
  | put id key value =>
    obtain ⟨t, rfl, -⟩ := recordOf_eq_put he
    exact hsize _ hop
  | _ => trivial

theorem putOn_eq_some {key : UInt64} {r : WalRecord} {p : TxnId × Value} :
    r.putOn key = some p ↔ r = .put p.1 key p.2 := by
  cases r with
  | put id k value =>
    simp only [WalRecord.putOn, Option.ite_none_right_eq_some, Option.some.injEq, WalRecord.put.injEq, Prod.ext_iff]
    tauto
  | _ => simp [WalRecord.putOn]

theorem mem_committedPuts {rs : List WalRecord} {key : UInt64} {p : TxnId × Value} :
    p ∈ committedPuts rs key ↔ .put p.1 key p.2 ∈ rs ∧ .commit p.1 ∈ rs := by
  simp [committedPuts, List.mem_filterMap, putOn_eq_some]

theorem committedPuts_last {rs : List WalRecord} {key : UInt64} {p : TxnId × Value}
    (h : (committedPuts rs key).getLast? = some p) :
    ∃ a b, rs = a ++ WalRecord.put p.1 key p.2 :: b ∧ WalRecord.commit p.1 ∈ rs ∧
      ∀ id value, WalRecord.put id key value ∈ b → WalRecord.commit id ∉ rs := by
  have hcommit := (mem_committedPuts.mp (List.mem_of_getLast? h)).2
  obtain ⟨earlier, hlast⟩ := List.getLast?_eq_some_iff.mp h
  rw [committedPuts, List.filter_filterMap] at hlast
  obtain ⟨a, l, hl, -, hl₂⟩ := List.filterMap_eq_append_iff.mp hlast
  obtain ⟨skipped, r, b, rfl, -, hr, hb⟩ := List.filterMap_eq_cons_iff.mp hl₂
  have hput := putOn_eq_some.mp (Option.filter_eq_some_iff.mp hr).1
  refine ⟨a ++ skipped, b, by rw [hl, hput, List.append_assoc], hcommit, ?_⟩
  intro id value hmem hid
  have hnone := List.filterMap_eq_nil_iff.mp hb _ hmem
  have hon : (WalRecord.put id key value).putOn key = some (id, value) := putOn_eq_some.mpr rfl
  simp [hon, hid] at hnone

def Op.writer : Op → Option ℕ
  | .put t _ _ => some t
  | .commit t => some t
  | .abort t => some t
  | _ => none

theorem recordOf_writer {op : Op} {t : ℕ} (h : op.writer = some t) (first : TxnId) :
    ∃ r, recordOf first op = some r ∧ r.id = idFrom first t := by
  cases op with
  | beginTransaction => simp [Op.writer] at h
  | get u key => simp [Op.writer] at h
  | put u key value => cases h; exact ⟨_, rfl, rfl⟩
  | commit u => cases h; exact ⟨_, rfl, rfl⟩
  | abort u => cases h; exact ⟨_, rfl, rfl⟩

theorem writer_begun {ops : List Op} (hops : Lawful PutsWhileOpen ops) {op : Op} (hop : op ∈ ops) {t : ℕ}
    (h : op.writer = some t) : t < begun ops := by
  cases op with
  | beginTransaction => simp [Op.writer] at h
  | get u key => simp [Op.writer] at h
  | put u key value => cases h; exact begun_of_put hops (mem_putsOn.mpr hop)
  | commit u => cases h; exact begun_of_ended hops (Or.inl hop)
  | abort u => cases h; exact begun_of_ended hops (Or.inr hop)

theorem record_id {ops : List Op} (hops : Lawful PutsWhileOpen ops) {first : TxnId} {r : WalRecord}
    (hr : r ∈ recordsFrom first ops) : ∃ t < begun ops, r.id = idFrom first t := by
  obtain ⟨op, hop, he⟩ := mem_recordsFrom.mp hr
  have hw : ∃ t, op.writer = some t := by
    cases op <;> simp_all [recordOf, Op.writer]
  obtain ⟨t, hw⟩ := hw
  obtain ⟨r', he', hid⟩ := recordOf_writer hw first
  rw [he] at he'
  cases he'
  exact ⟨t, writer_begun hops hop hw, hid⟩

theorem noted_bound {rs : List WalRecord} {bound : ℕ} (h : ∀ r ∈ rs, r.id.toNat ≤ bound) :
    (noted rs).2.toNat ≤ bound := by
  rcases (noted_max rs ([], 0)).2.2 with h0 | ⟨r, hr, he⟩
  · exact (congrArg UInt64.toNat h0).trans_le (Nat.zero_le _)
  · exact (congrArg UInt64.toNat he) ▸ h r hr

section

variable {ops : List Op} (hops : Lawful PutsWhileOpen ops) (hsize : ∀ op ∈ ops, op.valueSize ≤ maxRwCount)
  {n : ℕ} {file : WalFile} (hfile : file.bytes = (run ops).wal.bytes.take n)

include hops hsize hfile

theorem prefix_lookup (hb : begun ops < 2 ^ 64) (key : UInt64) :
    (recovered file).table.lookup key =
      (committedPuts (whole WalRecord.bytes (recordsFrom 1 ops) n) key).getLast?.map (restoredSlot key) := by
  have hrs : ∀ r ∈ recordsFrom 1 ops, r.Sized := records_sized hsize
  have hpre := whole_initial WalRecord.bytes (recordsFrom 1 ops) n
  have htorn := tornAfter_cut hrs (putsFirst_records hops (by change 1 + _ ≤ _; omega)) n
  apply recovered_lookup (fun r hr => hrs r (hpre.mem hr)) htorn
  rw [hfile, wal_run hops, take_flatMap]

theorem mem_prefix_table (hb : begun ops < 2 ^ 64) (key : UInt64) :
    key ∈ (recovered file).table ↔ ∃ t value, CommittedWithin ops n t ∧ .put t key value ∈ ops := by
  obtain ⟨lost, hlost⟩ := whole_initial WalRecord.bytes (recordsFrom 1 ops) n
  rw [← AList.lookup_isSome, prefix_lookup hops hsize hfile hb]
  constructor
  · intro h
    obtain ⟨slot, hs⟩ := Option.isSome_iff_exists.mp h
    obtain ⟨p, hp, -⟩ := Option.map_eq_some_iff.mp hs
    obtain ⟨hput, hcommit⟩ := mem_committedPuts.mp (List.mem_of_getLast? hp)
    obtain ⟨op, hop, he⟩ := mem_recordsFrom.mp (hlost ▸ List.mem_append_left lost hput)
    obtain ⟨t, rfl, hid⟩ := recordOf_eq_put he
    rw [← hid] at hcommit
    exact ⟨t, p.2, (committedWithin_iff hops hb (begun_of_put hops (mem_putsOn.mpr hop))).mpr hcommit, hop⟩
  · rintro ⟨t, value, ht, hput⟩
    have hcommit := (committedWithin_iff hops hb (ht.begun hops)).mp ht
    have hlog := @putsFirst_records 1 _ hops (by change 1 + _ ≤ _; omega)
    have hrec : .put (idOf t) key value ∈ recordsFrom 1 ops := mem_recordsFrom.mpr ⟨_, hput, rfl⟩
    rw [← hlost] at hrec hlog
    have hmem : (idOf t, value) ∈ committedPuts (whole WalRecord.bytes (recordsFrom 1 ops) n) key :=
      mem_committedPuts.mpr ⟨committed_put_mem hlog hcommit hrec, hcommit⟩
    simp [List.ne_nil_of_mem hmem]

theorem prefix_slot (hb : begun ops < 2 ^ 64) {key : UInt64} {slot : TupleSlot}
    (hslot : (recovered file).table.lookup key = some slot) :
    ∃ past t value rest, ops = past ++ Op.put t key value :: rest ∧ CommittedWithin ops n t ∧
      (∀ u v, .put u key v ∈ rest → ¬ CommittedWithin ops n u) ∧
      slot.val = value ∧ (run ops).idAt t = some slot.xmin := by
  obtain ⟨lost, hlost⟩ := whole_initial WalRecord.bytes (recordsFrom 1 ops) n
  rw [prefix_lookup hops hsize hfile hb] at hslot
  obtain ⟨p, hp, rfl⟩ := Option.map_eq_some_iff.mp hslot
  obtain ⟨a, b, hab, hcommit, hafter⟩ := committedPuts_last hp
  have hrs : recordsFrom 1 ops = a ++ WalRecord.put p.1 key p.2 :: (b ++ lost) := by
    rw [← hlost, hab]
    simp
  obtain ⟨past, op, rest, hsplit, -, hop, hrest⟩ := recordsFrom_split hrs
  obtain ⟨t, rfl, hid⟩ := recordOf_eq_put hop
  have hput : .put t key p.2 ∈ ops := by rw [hsplit]; simp
  have ht : t < begun ops := begun_of_put hops (mem_putsOn.mpr hput)
  rw [← hid] at hcommit
  refine ⟨past, t, p.2, rest, hsplit, (committedWithin_iff hops hb ht).mpr hcommit, ?_, rfl, ?_⟩
  · -- a later put on the key is behind the cut, or its transaction has no COMMIT inside the cut
    intro u v hput hu
    have hcommitted := (committedWithin_iff hops hb (hu.begun hops)).mp hu
    have hrec : .put (idOf u) key v ∈ b ++ lost := by
      rw [← hrest]
      exact mem_recordsFrom.mpr ⟨_, hput, rfl⟩
    rcases List.mem_append.mp hrec with h | h
    · exact hafter _ _ h hcommitted
    · have hlog := @putsFirst_records 1 _ hops (by change 1 + _ ≤ _; omega)
      rw [← hlost] at hlog
      exact not_committed_of_put hlog h hcommitted
  · rw [idAt_of_begun ht]
    exact congrArg some hid

theorem prefix_nextTxnId (hb : begun ops < 2 ^ 64 - 1) {past rest : List Op} {op : Op}
    (hsplit : ops = past ++ op :: rest) {t : ℕ} (ht : op.writer = some t)
    (hn : (run past).wal.bytes.length + headerSize ≤ n) :
    idOf t < (recovered file).txManager.nextTxnId := by
  obtain ⟨headed, hpre, hana, hmem⟩ := analysis_take (@records_sized 1 _ hsize) n
  obtain ⟨r, hr, hid⟩ := recordOf_writer ht 1
  have hrs : recordsFrom 1 ops = recordsFrom 1 past ++ r :: recordsFrom 1 rest := by
    rw [hsplit, recordsFrom_append, recordsFrom, recordsFrom, List.filterMap_cons, hr]
    rfl
  rw [wal_run (hsplit ▸ hops).left] at hn
  have hle := (noted_max headed ([], 0)).2.1 r (hmem _ _ _ hrs hn)
  have htop : (noted headed).2.toNat ≤ begun ops := by
    apply noted_bound
    intro x hx
    obtain ⟨u, hu, he⟩ := record_id hops (hpre.mem hx)
    rw [he, idOf_toNat (by omega)]
    omega
  have hnext : (recovered file).txManager.nextTxnId = (noted headed).2 + 1 := by
    rw [← hana, ← wal_run hops, ← hfile]
    rfl
  rw [hnext, UInt64.lt_iff_toNat_lt, UInt64.toNat_add]
  rw [hid, UInt64.le_iff_toNat_le] at hle
  change (idOf t).toNat ≤ (noted headed).2.toNat at hle
  have hone : (1 : TxnId).toNat = 1 := rfl
  omega

end

theorem prefix_recovery {ops : List Op} (hops : Lawful PutsWhileOpen ops) (hb : begun ops < 2 ^ 64 - 1)
    (hsize : ∀ op ∈ ops, op.valueSize ≤ maxRwCount) (n : ℕ) (file : WalFile)
    (hfile : file.bytes = (run ops).wal.bytes.take n) :
    (∀ key, key ∈ (recovered file).table ↔ ∃ t value, CommittedWithin ops n t ∧ .put t key value ∈ ops) ∧
    (∀ key slot, (recovered file).table.lookup key = some slot →
      ∃ past t value rest, ops = past ++ .put t key value :: rest ∧ CommittedWithin ops n t ∧
        (∀ u v, .put u key v ∈ rest → ¬ CommittedWithin ops n u) ∧
        slot.val = value ∧ (run ops).idAt t = some slot.xmin) ∧
    (∀ past op rest t, ops = past ++ op :: rest → op.writer = some t →
      (run past).wal.bytes.length + headerSize ≤ n →
      ∃ id, (run ops).idAt t = some id ∧ id < (recovered file).txManager.nextTxnId) := by
  refine ⟨mem_prefix_table hops hsize hfile (by omega),
    fun key slot hslot => prefix_slot hops hsize hfile (by omega) hslot, fun past op rest t hsplit ht hn => ?_⟩
  have hbegun : t < begun ops := writer_begun hops (by rw [hsplit]; simp) ht
  exact ⟨_, idAt_of_begun hbegun, prefix_nextTxnId hops hsize hfile hb hsplit ht hn⟩

def tornSchedule : List Op :=
  [.beginTransaction, .beginTransaction, .put 1 5 [8], .put 0 5 [7], .commit 0, .put 1 6 [1, 2, 3, 4]]

theorem prefix_recovery_torn :
    (recovered { bytes := (run tornSchedule).wal.bytes.take 88 }).table.lookup 5 =
        some { key := 5, val := [7], xmin := 1 } ∧
      (∃ past t value rest, tornSchedule = past ++ .put t 5 value :: rest ∧ CommittedWithin tornSchedule 88 t ∧
        (∀ u v, .put u 5 v ∈ rest → ¬ CommittedWithin tornSchedule 88 u) ∧
        [7] = value ∧ (run tornSchedule).idAt t = some 1) := by
  have hlook : (recovered { bytes := (run tornSchedule).wal.bytes.take 88 }).table.lookup 5 =
      some { key := 5, val := [7], xmin := 1 } := by decide +kernel
  exact ⟨hlook, (prefix_recovery (by decide) (by decide) (by decide) 88 _ rfl).2.1 5 _ hlook⟩

theorem recovered_id_wraps :
    ∃ ops n, Lawful PutsWhileOpen ops ∧ (∀ op ∈ ops, op.valueSize < 2 ^ 32) ∧ begun ops = 2 ^ 64 - 1 ∧
      ∃ past t rest, ops = past ++ .commit t :: rest ∧ (run past).wal.bytes.length + headerSize ≤ n ∧
        ∃ id, (run ops).idAt t = some id ∧
          ¬ id < (recovered { bytes := (run ops).wal.bytes.take n }).txManager.nextTxnId := by
  obtain ⟨m, hm⟩ : ∃ m, m = 2 ^ 64 - 1 := ⟨_, rfl⟩
  have hidle : Lawful PutsWhileOpen (idleBegins m) :=
    (idleBegins_lawful m).mono (fun _ _ _ h => h.putsWhileOpen)
  have hlt : m - 1 < begun (idleBegins m) := by rw [begun_idleBegins]; omega
  have hops : Lawful PutsWhileOpen (idleBegins m ++ [Op.commit (m - 1)]) := (lawful_snoc _ _).mpr ⟨hidle, hlt⟩
  have hbegun : begun (idleBegins m ++ [Op.commit (m - 1)]) = m := by rw [begun_append, begun_idleBegins]; rfl
  have hnone : recordsFrom 1 (idleBegins m) = [] := by
    apply List.filterMap_eq_nil_iff.mpr
    intro op hop
    rw [(List.mem_replicate.mp hop).2]
    rfl
  have hwal : (run (idleBegins m ++ [Op.commit (m - 1)])).wal.bytes =
      [WalRecord.commit (idOf (m - 1))].flatMap WalRecord.bytes := by
    rw [wal_run hops, recordsFrom_append, hnone]
    rfl
  refine ⟨idleBegins m ++ [Op.commit (m - 1)], headerSize, hops, ?_, hbegun.trans hm, idleBegins m, m - 1, [], rfl, ?_,
    idOf (m - 1), idAt_of_begun (by rw [hbegun]; omega), ?_⟩
  · intro op hop
    rcases List.mem_append.mp hop with h | h
    · rw [(List.mem_replicate.mp h).2]
      decide
    · rw [List.mem_singleton.mp h]
      exact (show (0 : ℕ) < 2 ^ 32 by omega)
  · rw [wal_run hidle, hnone]
    exact Nat.le_of_eq rfl
  · have hid : idOf (m - 1) = 18446744073709551615 := by rw [hm]; decide
    rw [hwal, hid]
    decide +kernel

def longPut (value : Value) : List Op := [.beginTransaction, .put 0 5 value, .commit 0]

theorem longPut_lawful (value : Value) : Lawful PutsWhileOpen (longPut value) := by
  refine ⟨trivial, ⟨by decide, ?_⟩, ?_, trivial⟩
  · simp [Ended]
  · change 0 < begun [Op.beginTransaction, Op.put 0 5 value]
    exact Nat.one_pos

theorem redo_nil (unread : Bytes) (table : Table) : redo [] unread table = table := by
  fun_induction redo [] unread table with
  | case1 unread table hsize header rest hput ih =>
    rw [ih, redoPut, if_neg List.not_mem_nil]
  | case2 unread table hsize header rest hput ih => exact ih
  | case3 unread table hsize => rfl

section

variable {value : Value} (hlong : maxRwCount < value.length) (hsize : value.length < 2 ^ 32)

include hlong hsize

theorem analysis_long (id : TxnId) (key : UInt64) :
    (analysis ((WalRecord.put id key value).bytes ++ (WalRecord.commit id).bytes) ([], 0)).1 = [] := by
  rw [analysis, if_pos (header_fits _ _)]
  simp only [decode_header, drop_after_header]
  rw [if_pos (put_header id key value), valSize_eq hsize, analysis_short]
  · rfl
  · rw [List.length_drop, List.length_append, WalRecord.bytes_length, WalRecord.payload, List.length_take,
      Nat.min_eq_left hlong.le, WalRecord.payload, List.length_nil]
    have hheader : headerSize = 21 := rfl
    omega

theorem longPut_lost :
    (recovered { bytes := (run (longPut value)).wal.bytes }).table = ∅ := by
  have hwal : (run (longPut value)).wal.bytes =
      (WalRecord.put (idOf 0) 5 value).bytes ++ (WalRecord.commit (idOf 0)).bytes := by
    rw [wal_run (longPut_lawful value)]
    exact congrArg _ (List.append_nil _)
  change redo (analysis (run (longPut value)).wal.bytes ([], 0)).1 (run (longPut value)).wal.bytes ∅ = ∅
  rw [hwal, analysis_long hlong hsize, redo_nil]

end

theorem prefix_recovery_fails :
    (∃ value n, value.length = 3000000000 ∧ Lawful PutsWhileOpen (longPut value) ∧
      (∀ op ∈ longPut value, op.valueSize < 2 ^ 32) ∧ begun (longPut value) = 1 ∧
      ¬ ∀ key, key ∈ (recovered { bytes := (run (longPut value)).wal.bytes.take n }).table ↔
        ∃ t value', CommittedWithin (longPut value) n t ∧ .put t key value' ∈ longPut value) ∧
    ∃ ops n, Lawful PutsWhileOpen ops ∧ (∀ op ∈ ops, op.valueSize < 2 ^ 32) ∧ begun ops = 2 ^ 64 - 1 ∧
      ∃ past t rest, ops = past ++ .commit t :: rest ∧ (run past).wal.bytes.length + headerSize ≤ n ∧
        ∃ id, (run ops).idAt t = some id ∧
          ¬ id < (recovered { bytes := (run ops).wal.bytes.take n }).txManager.nextTxnId := by
  refine ⟨?_, recovered_id_wraps⟩
  obtain ⟨value, hvalue⟩ : ∃ value : Value, value.length = 3000000000 :=
    ⟨List.replicate 3000000000 0, List.length_replicate⟩
  have hlong : maxRwCount < value.length := by
    rw [hvalue]
    decide
  have hsize : value.length < 2 ^ 32 := by
    rw [hvalue]
    decide
  refine ⟨value, (run (longPut value)).wal.bytes.length, hvalue, longPut_lawful value, ?_, rfl, ?_⟩
  · intro op hop
    simp only [longPut, List.mem_cons, List.not_mem_nil, or_false] at hop
    rcases hop with rfl | rfl | rfl
    · exact (show (0 : ℕ) < 2 ^ 32 by decide)
    · exact hsize
    · exact (show (0 : ℕ) < 2 ^ 32 by decide)
  · intro h
    have hmem : (5 : UInt64) ∈ (∅ : Table) := by
      rw [← longPut_lost hlong hsize, ← List.take_length (l := (run (longPut value)).wal.bytes)]
      refine (h 5).mpr ⟨0, value, ⟨[.beginTransaction, .put 0 5 value], [], rfl, le_rfl⟩, ?_⟩
      simp [longPut]
    exact AList.notMem_empty _ hmem

end SystemLevel.Mvcc
