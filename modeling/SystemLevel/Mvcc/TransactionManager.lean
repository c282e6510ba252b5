import SystemLevel.Mvcc.Versions

/-!
A `shared_ptr<Transaction>` is the position of the object in `txns`, the list of all transaction
objects handed out so far.
-/

namespace SystemLevel.Mvcc

inductive TxnState
  | active
  | committed
  | aborted
  deriving DecidableEq, Repr

structure Transaction where
  txnId : TxnId := 0
  state : TxnState := .active
  readView : ReadView := {}
  undoEntries : List (UInt64 × Value) := []
  deriving DecidableEq, Repr

structure TransactionManager where
  nextTxnId : TxnId := 1
  activeTxns : AList (fun _ : TxnId => ℕ) := ∅
  txns : List Transaction := []

namespace TransactionManager

def collect (txns : List Transaction) (acc : List TxnId × TxnId) (entry : Σ _ : TxnId, ℕ) :
    List TxnId × TxnId :=
  if (txns[entry.2]?).any (fun t => t.state = .active) then
    (acc.1 ++ [entry.1], if entry.1 < acc.2 then entry.1 else acc.2)
  else acc

def snapshot (m : TransactionManager) (tid : TxnId) : ReadView :=
  let scan := m.activeTxns.entries.foldl (collect m.txns) ([], tid)
  { creatorTxnId := tid
    upLimitId := scan.2
    lowLimitId := tid
    activeIds := scan.1.insertionSort (· ≤ ·) }

def beginTransaction (m : TransactionManager) : TransactionManager :=
  let tid := m.nextTxnId
  { nextTxnId := tid + 1
    activeTxns := m.activeTxns.insert tid m.txns.length
    txns := m.txns ++ [{ txnId := tid, state := .active, readView := m.snapshot tid }] }

def finish (m : TransactionManager) (t : ℕ) (state : TxnState) : TransactionManager :=
  match m.txns[t]? with
  | none => m
  | some txn =>
    { m with
      txns := m.txns.set t { txn with state }
      activeTxns := m.activeTxns.erase txn.txnId }

def commit (m : TransactionManager) (t : ℕ) : TransactionManager := m.finish t .committed

def abort (m : TransactionManager) (t : ℕ) : TransactionManager := m.finish t .aborted

def setNextTxnId (m : TransactionManager) (nextId : TxnId) : TransactionManager :=
  { m with nextTxnId := nextId }

end TransactionManager

end SystemLevel.Mvcc
