import SystemLevel.Foundations.FixedCodec
import SystemLevel.Foundations.Runs
import SystemLevel.Mvcc.TransactionManager

namespace SystemLevel.Mvcc

inductive WalRecordType
  | put
  | commit
  | abort
  deriving DecidableEq, Repr

def WalRecordType.code : WalRecordType → UInt8
  | .put => 1
  | .commit => 2
  | .abort => 3

/-- The packed 21-byte header. A header read back from a file can carry any byte as its type. -/
structure WalHeader where
  type : UInt8
  txnId : TxnId
  key : UInt64
  valSize : UInt32
  deriving DecidableEq, Repr

def WalHeader.codec : FixedCodec WalHeader :=
  (FixedCodec.u8.prod (FixedCodec.u64.prod (FixedCodec.u64.prod FixedCodec.u32))).via
    (fun h => (h.type, h.txnId, h.key, h.valSize)) (fun x => ⟨x.1, x.2.1, x.2.2.1, x.2.2.2⟩)
    (fun _ => rfl)

structure WalFile where
  bytes : Bytes := []
  synced : ℕ := 0
  deriving DecidableEq, Repr

/-- One `read` or `write` moves at most this many bytes. The engine ignores the results of both. -/
def maxRwCount : ℕ := 0x7ffff000

def WalFile.write (f : WalFile) (bs : Bytes) : WalFile := { f with bytes := f.bytes ++ bs.take maxRwCount }

theorem take_maxRwCount (header : WalHeader) :
    (WalHeader.codec.encode header).take maxRwCount = WalHeader.codec.encode header := by
  apply List.take_of_length_le
  rw [WalHeader.codec.encode_length]
  exact (show (21 : ℕ) ≤ 0x7ffff000 by decide)

def WalFile.fdatasync (f : WalFile) : WalFile := { f with synced := f.bytes.length }

def TupleSlot.push (slot : TupleSlot) (key : UInt64) (txnId : TxnId) (value : Value) : TupleSlot :=
  { key
    val := value
    xmin := txnId
    rollPtr := { xmin := slot.xmin, oldVal := slot.val } :: slot.rollPtr }

def TupleSlot.pop (slot : TupleSlot) : TupleSlot :=
  match slot.rollPtr with
  | [] => slot
  | undo :: prev => { slot with val := undo.oldVal, xmin := undo.xmin, rollPtr := prev }

structure TransactionalEngine where
  wal : WalFile := {}
  txManager : TransactionManager := {}
  table : AList (fun _ : UInt64 => TupleSlot) := ∅

namespace TransactionalEngine

def beginTransaction (e : TransactionalEngine) : TransactionalEngine :=
  { e with txManager := e.txManager.beginTransaction }

def get (e : TransactionalEngine) (t : ℕ) (key : UInt64) : Option Value :=
  match e.txManager.txns[t]? with
  | none => none
  | some txn =>
    match e.table.lookup key with
    | none => none
    | some slot => readTupleSnapshot slot txn.readView

def put (e : TransactionalEngine) (t : ℕ) (key : UInt64) (value : Value) : TransactionalEngine :=
  match e.txManager.txns[t]? with
  | none => e
  | some txn =>
    let header : WalHeader :=
      { type := WalRecordType.put.code, txnId := txn.txnId, key, valSize := UInt32.ofNat value.length }
    let slot := (e.table.lookup key).getD {}
    { wal := (e.wal.write (WalHeader.codec.encode header)).write value
      table := e.table.insert key (slot.push key txn.txnId value)
      txManager :=
        { e.txManager with
          txns := e.txManager.txns.set t
            { txn with undoEntries := txn.undoEntries ++ [(key, slot.val)] } } }

def endHeader (type : WalRecordType) (txnId : TxnId) : WalHeader :=
  { type := type.code, txnId, key := 0, valSize := 0 }

def commit (e : TransactionalEngine) (t : ℕ) : TransactionalEngine :=
  match e.txManager.txns[t]? with
  | none => e
  | some txn =>
    { e with
      wal := (e.wal.write (WalHeader.codec.encode (endHeader .commit txn.txnId))).fdatasync
      txManager := e.txManager.commit t }

def rollback (table : AList (fun _ : UInt64 => TupleSlot)) (entry : UInt64 × Value) :
    AList (fun _ : UInt64 => TupleSlot) :=
  match table.lookup entry.1 with
  | none => table
  | some slot => table.insert entry.1 slot.pop

def abort (e : TransactionalEngine) (t : ℕ) : TransactionalEngine :=
  match e.txManager.txns[t]? with
  | none => e
  | some txn =>
    { wal := (e.wal.write (WalHeader.codec.encode (endHeader .abort txn.txnId))).fdatasync
      table := txn.undoEntries.foldl rollback e.table
      txManager := e.txManager.abort t }

end TransactionalEngine

inductive Op
  | beginTransaction
  | put (t : ℕ) (key : UInt64) (value : Value)
  | get (t : ℕ) (key : UInt64)
  | commit (t : ℕ)
  | abort (t : ℕ)
  deriving DecidableEq, Repr

def step (e : TransactionalEngine) : Op → TransactionalEngine
  | .beginTransaction => e.beginTransaction
  | .put t key value => e.put t key value
  | .get _ _ => e
  | .commit t => e.commit t
  | .abort t => e.abort t

abbrev run (ops : List Op) : TransactionalEngine := Runs.run step {} ops

theorem run_then (ops : List Op) (op : Op) : run (ops ++ [op]) = step (run ops) op :=
  Runs.run_snoc step {} ops op

end SystemLevel.Mvcc
