import SystemLevel.Foundations.Framing
import SystemLevel.Mvcc.Identifiers

/-!
`recover_from_wal`. The descriptor of the second `open` is represented by the bytes that it has not
read yet: a `read` takes away the bytes that it moves, and `lseek` from the current position drops
bytes, past the end if need be.
-/

namespace SystemLevel.Mvcc

abbrev Table := AList (fun _ : UInt64 => TupleSlot)

def noteHeader (acc : List TxnId × TxnId) (header : WalHeader) : List TxnId × TxnId :=
  (if header.type = WalRecordType.commit.code then header.txnId :: acc.1 else acc.1,
    if acc.2 < header.txnId then header.txnId else acc.2)

def headerSize : ℕ := WalHeader.codec.size

def analysis (unread : Bytes) (acc : List TxnId × TxnId) : List TxnId × TxnId :=
  if headerSize ≤ unread.length then
    let header := WalHeader.codec.decode (unread.take headerSize)
    let rest := unread.drop headerSize
    if header.type = WalRecordType.put.code then
      analysis (rest.drop header.valSize.toNat) (noteHeader acc header)
    else analysis rest (noteHeader acc header)
  else acc
termination_by unread.length
decreasing_by all_goals (simp only [List.length_drop]; have : headerSize = 21 := rfl; omega)

def readValue (rest : Bytes) (size : ℕ) : Value :=
  let moved := rest.take (min size maxRwCount)
  moved ++ List.replicate (size - moved.length) 0

theorem readValue_left {value : Value} (h : value.length ≤ maxRwCount) (rest : Bytes) :
    readValue (value ++ rest) value.length = value := by
  have hmoved : (value ++ rest).take (min value.length maxRwCount) = value := by
    rw [Nat.min_eq_left h, List.take_left]
  simp only [readValue, hmoved, Nat.sub_self, List.replicate_zero, List.append_nil]

def redoPut (committed : List TxnId) (table : Table) (header : WalHeader) (val : Value) : Table :=
  if header.txnId ∈ committed then
    let slot := (table.lookup header.key).getD {}
    table.insert header.key { slot with key := header.key, val := val, xmin := header.txnId }
  else table

def redo (committed : List TxnId) (unread : Bytes) (table : Table) : Table :=
  if headerSize ≤ unread.length then
    let header := WalHeader.codec.decode (unread.take headerSize)
    let rest := unread.drop headerSize
    if header.type = WalRecordType.put.code then
      redo committed (rest.drop (min header.valSize.toNat maxRwCount))
        (redoPut committed table header (readValue rest header.valSize.toNat))
    else redo committed rest table
  else table
termination_by unread.length
decreasing_by all_goals (simp only [List.length_drop]; have : headerSize = 21 := rfl; omega)

def TransactionalEngine.recoverFromWal (e : TransactionalEngine) : TransactionalEngine :=
  let found := analysis e.wal.bytes ([], 0)
  { e with
    txManager := e.txManager.setNextTxnId (found.2 + 1)
    table := redo found.1 e.wal.bytes ∅ }

def recovered (file : WalFile) : TransactionalEngine :=
  TransactionalEngine.recoverFromWal { wal := file }

inductive WalRecord
  | put (id : TxnId) (key : UInt64) (value : Value)
  | commit (id : TxnId)
  | abort (id : TxnId)
  deriving DecidableEq, Repr

namespace WalRecord

def id : WalRecord → TxnId
  | put id _ _ => id
  | commit id => id
  | abort id => id

def header : WalRecord → WalHeader
  | put id key value =>
    { type := WalRecordType.put.code, txnId := id, key, valSize := UInt32.ofNat value.length }
  | commit id => TransactionalEngine.endHeader .commit id
  | abort id => TransactionalEngine.endHeader .abort id

def payload : WalRecord → Bytes
  | put _ _ value => value.take maxRwCount
  | commit _ => []
  | abort _ => []

def bytes (r : WalRecord) : Bytes := WalHeader.codec.encode r.header ++ r.payload

def Sized : WalRecord → Prop
  | put _ _ value => value.length ≤ maxRwCount
  | _ => True

theorem bytes_length (r : WalRecord) : r.bytes.length = headerSize + r.payload.length := by
  rw [bytes, List.length_append, WalHeader.codec.encode_length]
  rfl

end WalRecord

theorem put_header (id : TxnId) (key : UInt64) (value : Value) :
    (WalRecord.put id key value).header.type = WalRecordType.put.code := rfl

theorem commit_header (id : TxnId) : (WalRecord.commit id).header.type ≠ WalRecordType.put.code :=
  show WalRecordType.commit.code ≠ WalRecordType.put.code by decide

theorem abort_header (id : TxnId) : (WalRecord.abort id).header.type ≠ WalRecordType.put.code :=
  show WalRecordType.abort.code ≠ WalRecordType.put.code by decide

theorem header_fits (r : WalRecord) (rest : Bytes) : headerSize ≤ (r.bytes ++ rest).length := by
  rw [List.length_append, r.bytes_length]
  omega

theorem drop_after_header (r : WalRecord) (rest : Bytes) :
    (r.bytes ++ rest).drop headerSize = r.payload ++ rest := by
  rw [WalRecord.bytes, List.append_assoc]
  exact WalHeader.codec.drop_encode _ _

theorem decode_header (r : WalRecord) (rest : Bytes) :
    WalHeader.codec.decode ((r.bytes ++ rest).take headerSize) = r.header := by
  rw [WalRecord.bytes, List.append_assoc]
  exact (congrArg _ (WalHeader.codec.take_encode _ _)).trans (WalHeader.codec.decode_encode _)

theorem valSize_eq {id : TxnId} {key : UInt64} {value : Value} (h : value.length < 2 ^ 32) :
    (WalRecord.put id key value).header.valSize.toNat = value.length := by
  simp only [WalRecord.header, UInt32.toNat_ofNat']
  omega

theorem WalRecord.Sized.lt {id : TxnId} {key : UInt64} {value : Value} (h : (WalRecord.put id key value).Sized) :
    value.length < 2 ^ 32 :=
  lt_of_le_of_lt h (by decide)

theorem WalRecord.Sized.payload {id : TxnId} {key : UInt64} {value : Value}
    (h : (WalRecord.put id key value).Sized) : (WalRecord.put id key value).payload = value :=
  List.take_of_length_le h

theorem analysis_record {r : WalRecord} (hr : r.Sized) (rest : Bytes) (acc : List TxnId × TxnId) :
    analysis (r.bytes ++ rest) acc = analysis rest (noteHeader acc r.header) := by
  rw [analysis, if_pos (header_fits r rest)]
  simp only [decode_header, drop_after_header]
  cases r with
  | put id key value =>
    rw [if_pos (put_header id key value), valSize_eq hr.lt, hr.payload, List.drop_left]
  | commit id => rw [if_neg (commit_header id)]; rfl
  | abort id => rw [if_neg (abort_header id)]; rfl

def applyRecord (committed : List TxnId) (table : Table) : WalRecord → Table
  | .put id key value => redoPut committed table (WalRecord.put id key value).header value
  | .commit _ => table
  | .abort _ => table

theorem redo_record (committed : List TxnId) {r : WalRecord} (hr : r.Sized) (rest : Bytes) (table : Table) :
    redo committed (r.bytes ++ rest) table = redo committed rest (applyRecord committed table r) := by
  rw [redo, if_pos (header_fits r rest)]
  simp only [decode_header, drop_after_header]
  cases r with
  | put id key value =>
    rw [if_pos (put_header id key value), valSize_eq hr.lt, hr.payload, Nat.min_eq_left hr, List.drop_left,
      readValue_left hr]
    rfl
  | commit id => rw [if_neg (commit_header id)]; rfl
  | abort id => rw [if_neg (abort_header id)]; rfl

theorem analysis_records {rs : List WalRecord} (hrs : ∀ r ∈ rs, r.Sized) (rest : Bytes)
    (acc : List TxnId × TxnId) :
    analysis (rs.flatMap WalRecord.bytes ++ rest) acc =
      analysis rest (rs.foldl (fun acc r => noteHeader acc r.header) acc) := by
  induction rs generalizing acc with
  | nil => rfl
  | cons r rs ih =>
    rw [List.flatMap_cons, List.append_assoc, analysis_record (hrs r (by simp)), ih (fun r hr => hrs r (by simp [hr])),
      List.foldl_cons]

theorem redo_records (committed : List TxnId) {rs : List WalRecord} (hrs : ∀ r ∈ rs, r.Sized) (rest : Bytes)
    (table : Table) :
    redo committed (rs.flatMap WalRecord.bytes ++ rest) table =
      redo committed rest (rs.foldl (applyRecord committed) table) := by
  induction rs generalizing table with
  | nil => rfl
  | cons r rs ih =>
    rw [List.flatMap_cons, List.append_assoc, redo_record committed (hrs r (by simp)),
      ih (fun r hr => hrs r (by simp [hr])), List.foldl_cons]

/-- What a crash can leave behind the records `rs`: nothing, or a strict prefix of one more record,
which is not a put of a transaction that `rs` commits. -/
def TornAfter (rs : List WalRecord) (tail : Bytes) : Prop :=
  tail = [] ∨ ∃ r m, WalRecord.Sized r ∧ m < r.bytes.length ∧ tail = r.bytes.take m ∧
    ∀ id key value, r = .put id key value → .commit id ∉ rs

theorem torn_record {r : WalRecord} (hr : r.Sized) {m : ℕ} (hm : headerSize ≤ m) (hlt : m < r.bytes.length) :
    ∃ id key value, r = .put id key value ∧ headerSize ≤ (r.bytes.take m).length ∧
      WalHeader.codec.decode ((r.bytes.take m).take headerSize) = r.header ∧
      (r.bytes.take m).drop headerSize = value.take (m - headerSize) ∧ m - headerSize < value.length := by
  have hpayload : m - headerSize < r.payload.length := by
    rw [r.bytes_length] at hlt
    omega
  have hheader : (r.bytes.take m).take headerSize = r.bytes.take headerSize := by
    rw [List.take_take, Nat.min_eq_left hm]
  have hdecode := decode_header r []
  have hdrop := drop_after_header r []
  rw [List.append_nil] at hdecode hdrop
  have hrest : (r.bytes.take m).drop headerSize = r.payload.take (m - headerSize) := by
    rw [List.drop_take, hdrop, List.append_nil]
  have hlen : headerSize ≤ (r.bytes.take m).length := by
    rw [List.length_take]
    omega
  cases r with
  | put id key value =>
    rw [hr.payload] at hrest hpayload
    exact ⟨id, key, value, rfl, hlen, by rw [hheader, hdecode], hrest, hpayload⟩
  | commit id => simp [WalRecord.payload] at hpayload
  | abort id => simp [WalRecord.payload] at hpayload

theorem analysis_short {unread : Bytes} (h : unread.length < headerSize) (acc : List TxnId × TxnId) :
    analysis unread acc = acc := by
  rw [analysis, if_neg (by omega)]

theorem redo_short (committed : List TxnId) {unread : Bytes} (h : unread.length < headerSize) (table : Table) :
    redo committed unread table = table := by
  rw [redo, if_neg (by omega)]

theorem analysis_torn {r : WalRecord} (hr : r.Sized) {m : ℕ} (hlt : m < r.bytes.length)
    (acc : List TxnId × TxnId) :
    analysis (r.bytes.take m) acc = if headerSize ≤ m then noteHeader acc r.header else acc := by
  split_ifs with hm
  · obtain ⟨id, key, value, rfl, hlen, hdecode, hrest, hcut⟩ := torn_record hr hm hlt
    rw [analysis, if_pos hlen]
    simp only [hdecode, hrest]
    rw [if_pos (put_header id key value), analysis_short]
    rw [valSize_eq hr.lt, List.drop_of_length_le (by simp)]
    exact (show (0 : ℕ) < 21 by omega)
  · exact analysis_short (by simp; omega) acc

theorem redo_torn (committed : List TxnId) {r : WalRecord} (hr : r.Sized) {m : ℕ} (hlt : m < r.bytes.length)
    (hid : ∀ id key value, r = .put id key value → id ∉ committed) (table : Table) :
    redo committed (r.bytes.take m) table = table := by
  by_cases hm : headerSize ≤ m
  · obtain ⟨id, key, value, rfl, hlen, hdecode, hrest, hcut⟩ := torn_record hr hm hlt
    have hnot : (WalRecord.put id key value).header.txnId ∉ committed := hid id key value rfl
    rw [redo, if_pos hlen]
    simp only [hdecode, hrest]
    rw [if_pos (put_header id key value), redoPut, if_neg hnot, redo_short]
    rw [valSize_eq hr.lt, Nat.min_eq_left hr, List.drop_of_length_le (by simp)]
    exact (show (0 : ℕ) < 21 by omega)
  · exact redo_short committed (by simp; omega) table

theorem mem_noted (rs : List WalRecord) (acc : List TxnId × TxnId) (id : TxnId) :
    id ∈ (rs.foldl (fun acc r => noteHeader acc r.header) acc).1 ↔ id ∈ acc.1 ∨ .commit id ∈ rs := by
  induction rs generalizing acc with
  | nil => simp
  | cons r rs ih =>
    rw [List.foldl_cons, ih, List.mem_cons]
    have hone : id ∈ (noteHeader acc r.header).1 ↔ id ∈ acc.1 ∨ .commit id = r := by
      unfold noteHeader
      cases r with
      | put u key value =>
        rw [if_neg (show ¬ (WalRecord.put u key value).header.type = WalRecordType.commit.code from
          (show WalRecordType.put.code ≠ WalRecordType.commit.code by decide))]
        simp
      | commit u =>
        rw [if_pos (show (WalRecord.commit u).header.type = WalRecordType.commit.code from rfl)]
        simp only [List.mem_cons, WalRecord.commit.injEq]
        exact or_comm
      | abort u =>
        rw [if_neg (show ¬ (WalRecord.abort u).header.type = WalRecordType.commit.code from
          (show WalRecordType.abort.code ≠ WalRecordType.commit.code by decide))]
        simp
    rw [hone]
    tauto

theorem header_txnId (r : WalRecord) : r.header.txnId = r.id := by cases r <;> rfl

theorem noted_max (rs : List WalRecord) (acc : List TxnId × TxnId) :
    let top := (rs.foldl (fun acc r => noteHeader acc r.header) acc).2
    acc.2 ≤ top ∧ (∀ r ∈ rs, r.id ≤ top) ∧ (top = acc.2 ∨ ∃ r ∈ rs, r.id = top) := by
  induction rs generalizing acc with
  | nil => simp
  | cons r rs ih =>
    obtain ⟨h1, h2, h3⟩ := ih (noteHeader acc r.header)
    have hmax : acc.2 ≤ (noteHeader acc r.header).2 ∧ r.id ≤ (noteHeader acc r.header).2 ∧
        ((noteHeader acc r.header).2 = acc.2 ∨ (noteHeader acc r.header).2 = r.id) := by
      simp only [noteHeader, header_txnId]
      split_ifs with hlt
      · exact ⟨UInt64.le_of_lt hlt, UInt64.le_refl _, Or.inr rfl⟩
      · exact ⟨UInt64.le_refl _, UInt64.not_lt.mp hlt, Or.inl rfl⟩
    simp only [List.foldl_cons]
    refine ⟨UInt64.le_trans hmax.1 h1, ?_, ?_⟩
    · intro x hx
      rcases List.mem_cons.mp hx with rfl | hx
      · exact UInt64.le_trans hmax.2.1 h1
      · exact h2 x hx
    · rcases h3 with h3 | ⟨x, hx, he⟩
      · rcases hmax.2.2 with hm | hm
        · exact Or.inl (h3.trans hm)
        · exact Or.inr ⟨r, by simp, (h3.trans hm).symm⟩
      · exact Or.inr ⟨x, by simp [hx], he⟩

def WalRecord.putOn (key : UInt64) : WalRecord → Option (TxnId × Value)
  | .put id k value => if k = key then some (id, value) else none
  | _ => none

def restoredPuts (committed : List TxnId) (rs : List WalRecord) (key : UInt64) : List (TxnId × Value) :=
  (rs.filterMap (WalRecord.putOn key)).filter (fun p => p.1 ∈ committed)

def restoredSlot (key : UInt64) (p : TxnId × Value) : TupleSlot := { key, val := p.2, xmin := p.1 }

theorem applyRecords_lookup (committed : List TxnId) (rs : List WalRecord) (key : UInt64) :
    (rs.foldl (applyRecord committed) ∅).lookup key =
      (restoredPuts committed rs key).getLast?.map (restoredSlot key) := by
  induction rs using List.reverseRecOn with
  | nil => rfl
  | append_singleton rs r ih =>
    rw [List.foldl_append, List.foldl_cons, List.foldl_nil, restoredPuts, List.filterMap_append,
      List.filter_append]
    cases r with
    | put id k value =>
      by_cases hid : id ∈ committed
      · have hredo (table : Table) : applyRecord committed table (.put id k value) =
            table.insert k { (table.lookup k).getD {} with key := k, val := value, xmin := id } :=
          if_pos hid
        rw [hredo]
        by_cases hk : k = key
        · subst hk
          have hone : ([WalRecord.put id k value].filterMap (WalRecord.putOn k)).filter (fun p => p.1 ∈ committed) =
              [(id, value)] := by simp [WalRecord.putOn, hid]
          rw [AList.lookup_insert, hone, List.getLast?_append, ih]
          cases (restoredPuts committed rs k).getLast? <;> rfl
        · have hone : ([WalRecord.put id k value].filterMap (WalRecord.putOn key)).filter
              (fun p => p.1 ∈ committed) = [] := by simp [WalRecord.putOn, hk]
          rw [AList.lookup_insert_ne (Ne.symm hk), hone, List.append_nil]
          exact ih
      · have hredo (table : Table) : applyRecord committed table (.put id k value) = table := if_neg hid
        have hone : ([WalRecord.put id k value].filterMap (WalRecord.putOn key)).filter
            (fun p => p.1 ∈ committed) = [] := by
          by_cases hk : k = key <;> simp [WalRecord.putOn, hk, hid]
        rw [hredo, hone, List.append_nil]
        exact ih
    | commit id =>
      have hone : [WalRecord.commit id].filterMap (WalRecord.putOn key) = [] := rfl
      rw [hone, List.filter_nil, List.append_nil]
      exact ih
    | abort id =>
      have hone : [WalRecord.abort id].filterMap (WalRecord.putOn key) = [] := rfl
      rw [hone, List.filter_nil, List.append_nil]
      exact ih

def committedPuts (rs : List WalRecord) (key : UInt64) : List (TxnId × Value) :=
  (rs.filterMap (WalRecord.putOn key)).filter (fun p => .commit p.1 ∈ rs)

def noted (rs : List WalRecord) : List TxnId × TxnId :=
  rs.foldl (fun acc r => noteHeader acc r.header) ([], 0)

theorem analysis_whole {rs : List WalRecord} (hrs : ∀ r ∈ rs, r.Sized) :
    analysis (rs.flatMap WalRecord.bytes) ([], 0) = noted rs := by
  have h := analysis_records hrs [] ([], 0)
  rw [List.append_nil] at h
  rw [h]
  exact analysis_short (show ([] : Bytes).length < 21 by decide) _

theorem analysis_cut {rs : List WalRecord} (hrs : ∀ r ∈ rs, r.Sized) {r : WalRecord} (hr : r.Sized) {m : ℕ}
    (hm : m < r.bytes.length) :
    analysis (rs.flatMap WalRecord.bytes ++ r.bytes.take m) ([], 0) =
      if headerSize ≤ m then noted (rs ++ [r]) else noted rs := by
  rw [analysis_records hrs, analysis_torn hr hm, noted, noted, List.foldl_append]
  rfl

theorem mem_analysis {rs : List WalRecord} {tail : Bytes} (hrs : ∀ r ∈ rs, r.Sized) (htail : TornAfter rs tail)
    (id : TxnId) : id ∈ (analysis (rs.flatMap WalRecord.bytes ++ tail) ([], 0)).1 ↔ .commit id ∈ rs := by
  rcases htail with rfl | ⟨r, m, hr, hm, rfl, -⟩
  · rw [List.append_nil, analysis_whole hrs, noted, mem_noted]
    simp
  · rw [analysis_cut hrs hr hm]
    split_ifs with hsize
    · obtain ⟨u, key, value, rfl, -⟩ := torn_record hr hsize hm
      rw [noted, mem_noted]
      simp
    · rw [noted, mem_noted]
      simp

theorem recovered_lookup {rs : List WalRecord} {tail : Bytes} {file : WalFile} (hrs : ∀ r ∈ rs, r.Sized)
    (htail : TornAfter rs tail) (hfile : file.bytes = rs.flatMap WalRecord.bytes ++ tail) (key : UInt64) :
    (recovered file).table.lookup key = (committedPuts rs key).getLast?.map (restoredSlot key) := by
  have hcommit := mem_analysis hrs htail
  have hredo : redo (analysis file.bytes ([], 0)).1 file.bytes ∅ =
      rs.foldl (applyRecord (analysis file.bytes ([], 0)).1) ∅ := by
    rw [hfile, redo_records _ hrs]
    rcases htail with rfl | ⟨r, m, hr, hm, rfl, hid⟩
    · exact redo_short _ (show ([] : Bytes).length < 21 by decide) _
    · apply redo_torn _ hr hm
      intro id key value he hmem
      exact hid id key value he ((hcommit id).mp hmem)
  have hputs : restoredPuts (analysis file.bytes ([], 0)).1 rs key = committedPuts rs key := by
    apply List.filter_congr
    intro p hp
    rw [hfile, decide_eq_decide]
    exact hcommit p.1
  change (redo (analysis file.bytes ([], 0)).1 file.bytes ∅).lookup key = _
  rw [hredo, applyRecords_lookup, hputs]

end SystemLevel.Mvcc
