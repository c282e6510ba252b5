import SystemLevel.Mvcc.CrashPrefix

namespace SystemLevel.Mvcc

open Runs Framing

def tornTail (unread : Bytes) : Bytes :=
  if headerSize ≤ unread.length then
    let header := WalHeader.codec.decode (unread.take headerSize)
    let rest := unread.drop headerSize
    if header.type = WalRecordType.put.code then
      if header.valSize.toNat ≤ rest.length then tornTail (rest.drop header.valSize.toNat) else unread
    else tornTail rest
  else unread
termination_by unread.length
decreasing_by all_goals (simp only [List.length_drop]; have : headerSize = 21 := rfl; omega)

theorem tornTail_record {r : WalRecord} (hr : r.Sized) (rest : Bytes) :
    tornTail (r.bytes ++ rest) = tornTail rest := by
  rw [tornTail, if_pos (header_fits r rest)]
  simp only [decode_header, drop_after_header]
  cases r with
  | put id key value =>
    rw [if_pos (put_header id key value), valSize_eq hr.lt, hr.payload, if_pos (by simp), List.drop_left]
  | commit id => rw [if_neg (commit_header id)]; rfl
  | abort id => rw [if_neg (abort_header id)]; rfl

theorem tornTail_records {rs : List WalRecord} (hrs : ∀ r ∈ rs, r.Sized) (rest : Bytes) :
    tornTail (rs.flatMap WalRecord.bytes ++ rest) = tornTail rest := by
  induction rs with
  | nil => rfl
  | cons r rs ih =>
    rw [List.flatMap_cons, List.append_assoc, tornTail_record (hrs r (by simp)), ih (fun r hr => hrs r (by simp [hr]))]

theorem tornTail_short {unread : Bytes} (h : unread.length < headerSize) : tornTail unread = unread := by
  rw [tornTail, if_neg (by omega)]

theorem tornTail_torn {r : WalRecord} (hr : r.Sized) {m : ℕ} (hlt : m < r.bytes.length) :
    tornTail (r.bytes.take m) = r.bytes.take m := by
  by_cases hm : headerSize ≤ m
  · obtain ⟨id, key, value, rfl, hlen, hdecode, hrest, hcut⟩ := torn_record hr hm hlt
    rw [tornTail, if_pos hlen]
    simp only [hdecode, hrest]
    rw [if_pos (put_header id key value), valSize_eq hr.lt, if_neg]
    rw [List.length_take]
    omega
  · exact tornTail_short (by simp; omega)

theorem tornTail_take {rs : List WalRecord} (hrs : ∀ r ∈ rs, r.Sized) (n : ℕ) :
    tornTail ((rs.flatMap WalRecord.bytes).take n) = torn WalRecord.bytes rs n := by
  have hpre := whole_initial WalRecord.bytes rs n
  rw [take_flatMap, tornTail_records (fun r hr => hrs r (hpre.mem hr))]
  rcases torn_cases WalRecord.bytes rs n with hnil | ⟨x, rest, m, hsplit, hm, ht⟩
  · rw [hnil]
    exact tornTail_short (show ([] : Bytes).length < 21 by decide)
  · rw [ht]
    exact tornTail_torn (hrs x (by rw [hsplit]; simp)) hm

theorem lawful_fresh {old new : List WalRecord} (hold : Lawful NotYetCommitted old)
    (hnew : Lawful NotYetCommitted new) (hids : ∀ r ∈ old, ∀ s ∈ new, r.id ≠ s.id) :
    Lawful NotYetCommitted (old ++ new) := by
  induction new using List.reverseRecOn with
  | nil => simpa using hold
  | append_singleton new r ih =>
    obtain ⟨hpast, hr⟩ := (lawful_snoc new r).mp hnew
    rw [← List.append_assoc, lawful_snoc]
    refine ⟨ih hpast (fun x hx s hs => hids x hx s (by simp [hs])), ?_⟩
    cases r with
    | put id key value =>
      intro hmem
      rcases List.mem_append.mp hmem with h | h
      · exact hids _ h (.put id key value) (by simp) rfl
      · exact hr h
    | commit id => trivial
    | abort id => trivial

theorem committedPuts_fresh {old new : List WalRecord} (hids : ∀ r ∈ old, ∀ s ∈ new, r.id ≠ s.id)
    (key : UInt64) : committedPuts (old ++ new) key = committedPuts old key ++ committedPuts new key := by
  rw [committedPuts, List.filterMap_append, List.filter_append]
  congr 1 <;> apply List.filter_congr <;> rintro ⟨id, value⟩ hp <;> rw [decide_eq_decide, List.mem_append] <;>
    obtain ⟨r, hr, he⟩ := List.mem_filterMap.mp hp <;> rw [putOn_eq_some] at he <;> subst he
  · constructor
    · rintro (h | h)
      · exact h
      · exact (hids _ hr _ h rfl).elim
    · exact Or.inl
  · constructor
    · rintro (h | h)
      · exact (hids _ h _ hr rfl).elim
      · exact h
    · exact Or.inr

theorem committedPuts_cut {kept lost : List WalRecord} (hlog : Lawful NotYetCommitted (kept ++ lost))
    (hlost : ∀ id, .commit id ∉ lost) (key : UInt64) :
    committedPuts (kept ++ lost) key = committedPuts kept key := by
  rw [committedPuts, List.filterMap_append, List.filter_append]
  have hnil : (lost.filterMap (WalRecord.putOn key)).filter (fun p => .commit p.1 ∈ kept ++ lost) = [] := by
    rw [List.filter_eq_nil_iff]
    rintro ⟨id, value⟩ hp
    obtain ⟨r, hr, he⟩ := List.mem_filterMap.mp hp
    rw [putOn_eq_some] at he
    subst he
    simp [not_committed_of_put hlog hr, hlost]
  rw [hnil, List.append_nil]
  apply List.filter_congr
  intro p _
  simp [hlost]

def committedValues (ops : List Op) (key : UInt64) : List Value :=
  ((putsOn ops key).filter (fun p => .commit p.1 ∈ ops)).map Prod.snd

theorem putsOn_records (first : TxnId) (ops : List Op) (key : UInt64) :
    (recordsFrom first ops).filterMap (WalRecord.putOn key) =
      (putsOn ops key).map (fun p => (idFrom first p.1, p.2)) := by
  rw [recordsFrom, putsOn, List.filterMap_filterMap, List.map_filterMap]
  apply List.filterMap_congr
  intro op _
  cases op with
  | put t k value =>
    by_cases hk : k = key <;> simp [recordOf, WalRecord.putOn, Op.putOn, hk]
  | _ => rfl

theorem committedPuts_records {first : TxnId} {ops : List Op} (hops : Lawful PutsWhileOpen ops)
    (hb : first.toNat + begun ops ≤ 2 ^ 64) (key : UInt64) :
    (committedPuts (recordsFrom first ops) key).map Prod.snd = committedValues ops key := by
  rw [committedPuts, putsOn_records, List.filter_map, List.map_map, committedValues]
  have hsame : (putsOn ops key).filter ((fun p : TxnId × Value => decide (.commit p.1 ∈ recordsFrom first ops)) ∘
      fun p => (idFrom first p.1, p.2)) = (putsOn ops key).filter (fun p => .commit p.1 ∈ ops) := by
    apply List.filter_congr
    intro p hp
    exact decide_eq_decide.mpr (commit_mem_records hops hb (begun_of_put hops hp))
  rw [hsame]
  rfl

structure Session where
  ops : List Op
  cut : ℕ
  deriving DecidableEq, Repr

namespace Session

def engine (s : Session) (file : WalFile) : TransactionalEngine := Runs.run step (recovered file) s.ops

def crash (file : WalFile) (s : Session) : WalFile :=
  { (s.engine file).wal with bytes := (s.engine file).wal.bytes.take s.cut }

def writes (s : Session) : Bool := s.ops.any (fun op => op.writer.isSome)

end Session

abbrev logAfter (sessions : List Session) : WalFile := Runs.run Session.crash {} sessions

def beganIn (sessions : List Session) : ℕ := (sessions.map (fun s => begun s.ops)).sum

/-- A session of transactions that ends with a crash no earlier than the last `fdatasync`. -/
structure Crashes (past : List Session) (s : Session) : Prop where
  lawful : Lawful PutsWhileOpen s.ops
  sized : ∀ op ∈ s.ops, op.valueSize < 2 ^ 32
  durable : (s.engine (logAfter past)).wal.synced ≤ s.cut

def WritesBehindWhole (past : List Session) (s : Session) : Prop :=
  s.writes = true → tornTail (logAfter past).bytes = []

instance (past : List Session) (s : Session) : Decidable (Crashes past s) :=
  decidable_of_iff (Lawful PutsWhileOpen s.ops ∧ (∀ op ∈ s.ops, op.valueSize < 2 ^ 32) ∧
      (s.engine (logAfter past)).wal.synced ≤ s.cut)
    ⟨fun h => ⟨h.1, h.2.1, h.2.2⟩, fun h => ⟨h.lawful, h.sized, h.durable⟩⟩

instance (past : List Session) (s : Session) : Decidable (WritesBehindWhole past s) :=
  inferInstanceAs (Decidable (_ → _))

def committedHistory (sessions : List Session) (key : UInt64) : List Value :=
  sessions.flatMap (fun s => committedValues s.ops key)

theorem step_synced {e : TransactionalEngine} (h : e.wal.synced ≤ e.wal.bytes.length) (op : Op) :
    e.wal.synced ≤ (step e op).wal.synced ∧ (step e op).wal.synced ≤ (step e op).wal.bytes.length := by
  cases op with
  | beginTransaction => exact ⟨le_rfl, h⟩
  | get t key => exact ⟨le_rfl, h⟩
  | put t key value =>
    simp only [step, TransactionalEngine.put]
    split
    · exact ⟨le_rfl, h⟩
    · simp only [WalFile.write, List.length_append]
      omega
  | commit t =>
    simp only [step, TransactionalEngine.commit]
    split
    · exact ⟨le_rfl, h⟩
    · simp only [WalFile.write, WalFile.fdatasync, List.length_append]
      omega
  | abort t =>
    simp only [step, TransactionalEngine.abort]
    split
    · exact ⟨le_rfl, h⟩
    · simp only [WalFile.write, WalFile.fdatasync, List.length_append]
      omega

theorem run_synced {e : TransactionalEngine} (h : e.wal.synced ≤ e.wal.bytes.length) (ops : List Op) :
    e.wal.synced ≤ (Runs.run step e ops).wal.synced ∧
      (Runs.run step e ops).wal.synced ≤ (Runs.run step e ops).wal.bytes.length := by
  induction ops using List.reverseRecOn with
  | nil => exact ⟨le_rfl, h⟩
  | append_singleton ops op ih =>
    rw [run_snoc]
    have hstep := step_synced ih.2 op
    exact ⟨le_trans ih.1 hstep.1, hstep.2⟩

theorem commit_synced {e : TransactionalEngine} (he : e.txManager.txns = []) {ops : List Op}
    (hops : Lawful PutsWhileOpen ops)
    {a b : List WalRecord} {id : TxnId}
    (hsplit : recordsFrom e.txManager.nextTxnId ops = a ++ WalRecord.commit id :: b) :
    (e.wal.bytes ++ (a ++ [WalRecord.commit id]).flatMap WalRecord.bytes).length ≤
      (Runs.run step e ops).wal.synced := by
  obtain ⟨past, op, rest, rfl, rfl, hop, -⟩ := recordsFrom_split hsplit
  cases op with
  | commit t =>
    have hat : t < begun past := Lawful.at hops
    rw [show past ++ Op.commit t :: rest = (past ++ [Op.commit t]) ++ rest by simp] at hops ⊢
    have hone : recordsFrom e.txManager.nextTxnId [.commit t] = [.commit id] := by
      rw [recordsFrom, List.filterMap_cons, hop]
      rfl
    have hfull : (Runs.run step e (past ++ [Op.commit t])).wal.synced =
        (Runs.run step e (past ++ [Op.commit t])).wal.bytes.length := by
      obtain ⟨txn, hget, -⟩ := txn_from e he hat
      simp only [run_snoc, step, TransactionalEngine.commit, hget, WalFile.fdatasync]
    rw [← hone, ← recordsFrom_append, ← wal_from e he hops.left, run_append step e _ rest, ← hfull]
    exact (run_synced hfull.le rest).1
  | _ => simp [recordOf] at hop

theorem wal_idle {ops : List Op} (h : ops.any (fun op => op.writer.isSome) = false) (e : TransactionalEngine) :
    (Runs.run step e ops).wal = e.wal := by
  induction ops using List.reverseRecOn with
  | nil => rfl
  | append_singleton ops op ih =>
    rw [List.any_append, Bool.or_eq_false_iff] at h
    rw [run_snoc]
    cases op with
    | beginTransaction => exact ih h.1
    | get t key => exact ih h.1
    | _ => simp [Op.writer] at h

structure LogOf (sessions : List Session) (file : WalFile) (rs : List WalRecord) (n : ℕ) : Prop where
  bytes : file.bytes = (rs.flatMap WalRecord.bytes).take n
  inside : file.synced ≤ file.bytes.length
  sized : ∀ r ∈ rs, r.Sized
  ordered : Lawful NotYetCommitted rs
  ids : ∀ r ∈ rs, r.id.toNat ≤ beganIn sessions
  synced : ∀ a id b, rs = a ++ WalRecord.commit id :: b →
    ((a ++ [WalRecord.commit id]).flatMap WalRecord.bytes).length ≤ file.synced
  history : ∀ key, (committedPuts rs key).map Prod.snd = committedHistory sessions key

theorem beganIn_snoc (sessions : List Session) (s : Session) :
    beganIn (sessions ++ [s]) = beganIn sessions + begun s.ops := by
  simp [beganIn]

theorem committedHistory_snoc (sessions : List Session) (s : Session) (key : UInt64) :
    committedHistory (sessions ++ [s]) key = committedHistory sessions key ++ committedValues s.ops key := by
  simp [committedHistory]

namespace LogOf

variable {sessions : List Session} {file : WalFile} {rs : List WalRecord} {n : ℕ}

theorem commit_kept (h : LogOf sessions file rs n) {lost : List WalRecord}
    (hlost : whole WalRecord.bytes rs n ++ lost = rs) (id : TxnId) : .commit id ∉ lost := by
  intro hmem
  obtain ⟨a, b, rfl⟩ := List.append_of_mem hmem
  have hsync := h.synced (whole WalRecord.bytes rs n ++ a) id b (by simpa using hlost.symm)
  have hn : file.bytes.length ≤ n := by rw [h.bytes]; exact List.length_take_le n _
  have hpre : whole WalRecord.bytes rs n ++ a ++ [WalRecord.commit id] <+: rs := ⟨b, by simpa using hlost⟩
  have hle := (prefix_whole WalRecord.bytes hpre (le_trans hsync (le_trans h.inside hn))).length_le
  simp only [List.length_append, List.length_singleton] at hle
  omega

theorem committed_whole (h : LogOf sessions file rs n) (key : UInt64) :
    (committedPuts (whole WalRecord.bytes rs n) key).map Prod.snd = committedHistory sessions key := by
  obtain ⟨lost, hlost⟩ := whole_initial WalRecord.bytes rs n
  have hlog := h.ordered
  rw [← hlost] at hlog
  rw [← committedPuts_cut hlog (h.commit_kept hlost), hlost, h.history]

theorem restores (h : LogOf sessions file rs n) (key : UInt64) :
    ((recovered file).table.lookup key).map TupleSlot.val = (committedHistory sessions key).getLast? := by
  have hpre := whole_initial WalRecord.bytes rs n
  have hfile : file.bytes = (whole WalRecord.bytes rs n).flatMap WalRecord.bytes ++ torn WalRecord.bytes rs n := by
    rw [h.bytes, take_flatMap]
  rw [recovered_lookup (fun r hr => h.sized r (hpre.mem hr)) (tornAfter_cut h.sized h.ordered n) hfile,
    ← h.committed_whole, List.getLast?_map, Option.map_map]
  rfl

theorem whole_bytes (h : LogOf sessions file rs n) (htorn : tornTail file.bytes = []) :
    file.bytes = (whole WalRecord.bytes rs n).flatMap WalRecord.bytes := by
  rw [h.bytes, tornTail_take h.sized] at htorn
  rw [h.bytes, take_flatMap, htorn, List.append_nil]

theorem nextTxnId (h : LogOf sessions file rs n) (htorn : tornTail file.bytes = [])
    (hb : beganIn sessions < 2 ^ 64 - 1) :
    (recovered file).txManager.nextTxnId.toNat ≤ beganIn sessions + 1 ∧
      ∀ r ∈ whole WalRecord.bytes rs n, r.id.toNat < (recovered file).txManager.nextTxnId.toNat := by
  have hpre := whole_initial WalRecord.bytes rs n
  have hnext : (recovered file).txManager.nextTxnId = (noted (whole WalRecord.bytes rs n)).2 + 1 := by
    rw [← analysis_whole (fun r hr => h.sized r (hpre.mem hr)), ← h.whole_bytes htorn]
    rfl
  have htop := noted_bound (fun r hr => h.ids r (hpre.mem hr))
  have hone : (1 : TxnId).toNat = 1 := rfl
  rw [hnext, UInt64.toNat_add]
  refine ⟨by omega, fun r hr => ?_⟩
  have hle : r.id.toNat ≤ (noted (whole WalRecord.bytes rs n)).2.toNat :=
    UInt64.le_iff_toNat_le.mp ((noted_max _ ([], 0)).2.1 r hr)
  omega

theorem idle (h : LogOf sessions file rs n) {s : Session} (hs : s.writes = false)
    (hcut : (s.engine file).wal.synced ≤ s.cut) :
    LogOf (sessions ++ [s]) (s.crash file) rs (min s.cut n) := by
  have hwal : (s.engine file).wal = file := wal_idle hs (recovered file)
  have hvalues (key : UInt64) : committedValues s.ops key = [] := by
    have hnil : putsOn s.ops key = [] := by
      apply List.filterMap_eq_nil_iff.mpr
      intro op hop
      have hw := List.any_eq_false.mp hs op hop
      cases op <;> simp_all [Op.putOn, Op.writer]
    rw [committedValues, hnil]
    rfl
  rw [hwal] at hcut
  constructor
  · simp only [Session.crash, hwal]
    rw [h.bytes, List.take_take]
  · simp only [Session.crash, hwal, List.length_take]
    have := h.inside
    omega
  · exact h.sized
  · exact h.ordered
  · intro r hr
    rw [beganIn_snoc]
    exact Nat.le_add_right_of_le (h.ids r hr)
  · simp only [Session.crash, hwal]
    exact h.synced
  · intro key
    rw [committedHistory_snoc, hvalues, List.append_nil, h.history]

theorem new_id (h : LogOf sessions file rs n) {s : Session} (htorn : tornTail file.bytes = [])
    (hops : Lawful PutsWhileOpen s.ops) (hb : beganIn sessions + begun s.ops < 2 ^ 64 - 1) {r : WalRecord}
    (hr : r ∈ recordsFrom (recovered file).txManager.nextTxnId s.ops) :
    (recovered file).txManager.nextTxnId.toNat ≤ r.id.toNat ∧ r.id.toNat ≤ beganIn sessions + begun s.ops := by
  have hfirst := (h.nextTxnId htorn (by omega)).1
  obtain ⟨t, ht, he⟩ := record_id hops hr
  rw [he, idFrom_toNat (by omega)]
  omega

theorem commit_flushed (h : LogOf sessions file rs n) {s : Session} (htorn : tornTail file.bytes = [])
    (hops : Lawful PutsWhileOpen s.ops) {a b : List WalRecord} {id : TxnId}
    (hsplit : whole WalRecord.bytes rs n ++ recordsFrom (recovered file).txManager.nextTxnId s.ops =
      a ++ WalRecord.commit id :: b) :
    ((a ++ [WalRecord.commit id]).flatMap WalRecord.bytes).length ≤ (s.engine file).wal.synced := by
  have hlate {a' : List WalRecord}
      (hnews : recordsFrom (recovered file).txManager.nextTxnId s.ops = a' ++ WalRecord.commit id :: b) :
      ((whole WalRecord.bytes rs n ++ a' ++ [WalRecord.commit id]).flatMap WalRecord.bytes).length ≤
        (s.engine file).wal.synced := by
    have hlen := commit_synced rfl hops hnews
    rw [List.append_assoc, List.flatMap_append, ← h.whole_bytes htorn]
    exact hlen
  -- A commit of this session was synced by it, an earlier one was already synced in the file it opened.
  rcases List.append_eq_append_iff.mp hsplit with ⟨a', rfl, hnews⟩ | ⟨c, hwhole, hnews⟩
  · exact hlate hnews
  · cases c with
    | nil =>
      rw [List.append_nil] at hwhole
      rw [← hwhole, ← List.append_nil (whole WalRecord.bytes rs n)]
      exact hlate hnews.symm
    | cons r c =>
      obtain ⟨rfl, -⟩ := List.cons.inj hnews
      obtain ⟨lost, hlost⟩ := whole_initial WalRecord.bytes rs n
      have hearly := h.synced a id (c ++ lost) (by rw [← hlost, hwhole]; simp)
      exact le_trans hearly (@run_synced (recovered file) h.inside s.ops).1

theorem extend (h : LogOf sessions file rs n) {s : Session} (htorn : tornTail file.bytes = [])
    (hops : Lawful PutsWhileOpen s.ops)
    (hsize : ∀ op ∈ s.ops, op.valueSize ≤ maxRwCount)
    (hcut : (s.engine file).wal.synced ≤ s.cut) (hb : beganIn (sessions ++ [s]) < 2 ^ 64 - 1) :
    LogOf (sessions ++ [s]) (s.crash file)
      (whole WalRecord.bytes rs n ++ recordsFrom (recovered file).txManager.nextTxnId s.ops) s.cut := by
  obtain ⟨lost, hlost⟩ := whole_initial WalRecord.bytes rs n
  have hmem {r : WalRecord} (hr : r ∈ whole WalRecord.bytes rs n) : r ∈ rs := hlost ▸ List.mem_append_left lost hr
  rw [beganIn_snoc] at hb
  obtain ⟨hfirst, hold⟩ := h.nextTxnId htorn (by omega)
  have hsync := @run_synced (recovered file) h.inside s.ops
  have hwal : (s.engine file).wal.bytes = (whole WalRecord.bytes rs n ++
      recordsFrom (recovered file).txManager.nextTxnId s.ops).flatMap WalRecord.bytes := by
    rw [Session.engine, wal_from (recovered file) rfl hops, List.flatMap_append, ← h.whole_bytes htorn]
    rfl
  have hfresh : ∀ r ∈ whole WalRecord.bytes rs n,
      ∀ x ∈ recordsFrom (recovered file).txManager.nextTxnId s.ops, r.id ≠ x.id := by
    intro r hr x hx heq
    have hlt := hold r hr
    rw [heq] at hlt
    exact absurd hlt (Nat.not_lt.mpr (h.new_id htorn hops hb hx).1)
  have hlog := h.ordered
  rw [← hlost] at hlog
  constructor
  · simp only [Session.crash, hwal]
  · simp only [Session.crash, List.length_take]
    exact le_min hcut hsync.2
  · intro r hr
    rcases List.mem_append.mp hr with hr | hr
    · exact h.sized r (hmem hr)
    · exact records_sized hsize r hr
  · exact lawful_fresh hlog.left (putsFirst_records hops (by omega)) hfresh
  · intro r hr
    rw [beganIn_snoc]
    rcases List.mem_append.mp hr with hr | hr
    · exact Nat.le_add_right_of_le (h.ids r (hmem hr))
    · exact (h.new_id htorn hops hb hr).2
  · intro a id b hsplit
    exact h.commit_flushed htorn hops hsplit
  · intro key
    rw [committedPuts_fresh hfresh, List.map_append, h.committed_whole, committedPuts_records hops (by omega),
      committedHistory_snoc]

end LogOf

theorem logOf_run {sessions : List Session} (h : Lawful Crashes sessions) (hwhole : Lawful WritesBehindWhole sessions)
    (hsize : ∀ s ∈ sessions, ∀ op ∈ s.ops, op.valueSize ≤ maxRwCount) (hb : beganIn sessions < 2 ^ 64 - 1) :
    ∃ rs n, LogOf sessions (logAfter sessions) rs n := by
  induction sessions using List.reverseRecOn with
  | nil => exact ⟨[], 0, rfl, le_rfl, by simp, trivial, by simp, by simp, fun _ => rfl⟩
  | append_singleton sessions s ih =>
    obtain ⟨hpast, hs⟩ := (lawful_snoc sessions s).mp h
    obtain ⟨hpast', hs'⟩ := (lawful_snoc sessions s).mp hwhole
    have hbefore : beganIn sessions < 2 ^ 64 - 1 := by
      rw [beganIn_snoc] at hb
      omega
    obtain ⟨rs, n, hlog⟩ := ih hpast hpast' (fun x hx => hsize x (List.mem_append_left [s] hx)) hbefore
    rw [logAfter, run_snoc]
    cases hw : s.writes with
    | false => exact ⟨_, _, hlog.idle hw hs.durable⟩
    | true => exact ⟨_, _, hlog.extend (hs' hw) hs.lawful (hsize s (by simp)) hs.durable hb⟩

theorem durable_across_crashes {sessions : List Session} (h : Lawful Crashes sessions)
    (hwhole : Lawful WritesBehindWhole sessions)
    (hsize : ∀ s ∈ sessions, ∀ op ∈ s.ops, op.valueSize ≤ maxRwCount) (hb : beganIn sessions < 2 ^ 64 - 1)
    (key : UInt64) :
    ((recovered (logAfter sessions)).table.lookup key).map TupleSlot.val =
      (committedHistory sessions key).getLast? := by
  obtain ⟨rs, n, hlog⟩ := logOf_run h hwhole hsize hb
  exact hlog.restores key

def twoSessions : List Session :=
  [{ ops := [.beginTransaction, .put 0 5 [7], .commit 0, .beginTransaction, .put 1 5 [9]], cut := 43 },
    { ops := [.beginTransaction, .put 0 6 [8], .commit 0, .beginTransaction, .put 1 6 [9]], cut := 100 }]

theorem durable_across_two_crashes :
    ((recovered (logAfter twoSessions)).table.lookup 6).map TupleSlot.val =
        (committedHistory twoSessions 6).getLast? ∧
      (committedHistory twoSessions 6).getLast? = some [8] :=
  ⟨durable_across_crashes (by decide +kernel) (by decide +kernel) (by decide) (by decide) 6, by decide⟩

def tornSessions : List Session :=
  [{ ops := [.beginTransaction, .put 0 5 [7]], cut := 10 },
    { ops := [.beginTransaction, .put 0 5 [8], .commit 0], cut := 53 }]

theorem commit_lost_behind_torn :
    Lawful Crashes tornSessions ∧ beganIn tornSessions = 2 ∧
      (committedHistory tornSessions 5).getLast? = some [8] ∧
      (recovered (logAfter tornSessions)).table.lookup 5 = none := by
  refine ⟨by decide +kernel, rfl, by decide, by decide +kernel⟩

end SystemLevel.Mvcc
