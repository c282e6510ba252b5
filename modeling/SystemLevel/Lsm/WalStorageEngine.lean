import SystemLevel.Foundations.Runs
import SystemLevel.Lsm.FileSystem

namespace SystemLevel.Lsm

abbrev Reserved := { bs : Bytes // bs.length = 4096 - 48 }

def Reserved.zero : Reserved := ⟨List.replicate (4096 - 48) 0, List.length_replicate⟩

structure WalBlock where
  magic : UInt32 := 0x57414C31
  checksum : UInt32 := 0
  seqNum : UInt64 := 0
  timestampNs : UInt64 := 0
  op : UInt32 := 1
  padding : UInt32 := 0
  key : UInt64 := 0
  value : UInt64 := 0
  reserved : Reserved := Reserved.zero

inductive WalOp
  | put
  | del
  deriving DecidableEq, Repr

def WalOp.code : WalOp → UInt32
  | .put => 1
  | .del => 2

namespace WalBlock

open FixedCodec

abbrev Payload := UInt64 × UInt64 × UInt32 × UInt32 × UInt64 × UInt64 × Reserved

def payload (b : WalBlock) : Payload := (b.seqNum, b.timestampNs, b.op, b.padding, b.key, b.value, b.reserved)

def payloadCodec : FixedCodec Payload :=
  u64.prod (u64.prod (u32.prod (u32.prod (u64.prod (u64.prod (raw (4096 - 48)))))))

def codec : FixedCodec WalBlock :=
  (u32.prod (u32.prod payloadCodec)).via (fun b => (b.magic, b.checksum, b.payload))
    (fun ⟨magic, checksum, seqNum, timestampNs, op, padding, key, value, reserved⟩ =>
      { magic, checksum, seqNum, timestampNs, op, padding, key, value, reserved })
    (fun _ => rfl)

def computeChecksum (b : WalBlock) : UInt32 :=
  (payloadCodec.encode b.payload).foldl (fun crc byte => (crc ^^^ byte.toUInt32) * 0x01000193) 0x811C9DC5

def Accepted (b : WalBlock) : Bool := b.magic == 0x57414C31 && b.checksum == b.computeChecksum

def withChecksum (b : WalBlock) : WalBlock := { b with checksum := b.computeChecksum }

def sealed (seqNum : UInt64) (op : WalOp) (key value : UInt64) : WalBlock :=
  withChecksum { seqNum, op := op.code, key, value }

theorem accepted_withChecksum {b : WalBlock} (h : b.magic = 0x57414C31) : b.withChecksum.Accepted = true := by
  have hpayload : b.withChecksum.payload = b.payload := rfl
  have hchecksum : b.withChecksum.computeChecksum = b.computeChecksum := by
    rw [computeChecksum, hpayload, computeChecksum]
  rw [Accepted, hchecksum, withChecksum, h, beq_self_eq_true, beq_self_eq_true, Bool.and_true]

end WalBlock

abbrev WalIndex := AList (fun _ : UInt64 => UInt64)

/-- An open descriptor is the offset of its next `read` or `write`. -/
structure WalStorageEngine where
  file : Bytes
  fd : Option ℕ := none
  currentSeq : UInt64 := 0
  index : WalIndex := ∅

namespace WalStorageEngine

open Runs

def write (t : Transfer) (e : WalStorageEngine) (bs : Bytes) : ℕ × WalStorageEngine :=
  match e.fd with
  | none => (0, e)
  | some offset =>
    let stored := transfer t bs
    (stored.length,
      { e with
        file := e.file.take offset ++ stored ++ e.file.drop (offset + stored.length)
        fd := some (offset + stored.length) })

def log (t : Transfer) (e : WalStorageEngine) (op : WalOp) (key value : UInt64) : Bool × WalStorageEngine :=
  let seq := e.currentSeq + 1
  let written := write t { e with currentSeq := seq } (WalBlock.codec.encode (WalBlock.sealed seq op key value))
  (written.1 == WalBlock.codec.size, written.2)

def put (t : Transfer) (e : WalStorageEngine) (key value : UInt64) : Bool × WalStorageEngine :=
  let logged := e.log t .put key value
  if logged.1 then (true, { logged.2 with index := logged.2.index.insert key value }) else logged

def del (t : Transfer) (e : WalStorageEngine) (key : UInt64) : Bool × WalStorageEngine :=
  let logged := e.log t .del key 0
  if logged.1 then (true, { logged.2 with index := logged.2.index.erase key }) else logged

def get (e : WalStorageEngine) (key : UInt64) : Option UInt64 := e.index.lookup key

def close (e : WalStorageEngine) : WalStorageEngine := { e with fd := none, index := ∅ }

/-- The blocks that the loop of `recover` takes over. It ends where a `read` does not return 4096, at the
end of the file or because the call after so many others fails, and at the first block that is not
accepted. -/
def recoverable (reads : Option ℕ) (file : Bytes) : List WalBlock :=
  let blocks := WalBlock.codec.decodeAll (file.length / WalBlock.codec.size) file
  let read := match reads with
    | none => blocks
    | some n => blocks.take n
  read.takeWhile WalBlock.Accepted

def replay (e : WalStorageEngine) (b : WalBlock) : WalStorageEngine :=
  { e with
    currentSeq := if e.currentSeq < b.seqNum then b.seqNum else e.currentSeq
    index :=
      if b.op = WalOp.put.code then e.index.insert b.key b.value
      else if b.op = WalOp.del.code then e.index.erase b.key
      else e.index }

def recover (reads : Option ℕ) (e : WalStorageEngine) : Bool × WalStorageEngine :=
  let cleared := { e with index := ∅, currentSeq := 0 }
  match e.fd with
  | none => (false, cleared)
  | some _ => (true, { (recoverable reads e.file).foldl replay cleared with fd := some e.file.length })

def openFile (opened : Bool) (reads : Option ℕ) (e : WalStorageEngine) : Bool × WalStorageEngine :=
  if opened then recover reads { e with fd := some 0 } else (false, { e with fd := none })

inductive Change
  | put (key value : UInt64)
  | del (key : UInt64)
  deriving DecidableEq, Repr

def Change.perform (t : Transfer) (e : WalStorageEngine) : Change → Bool × WalStorageEngine
  | .put key value => e.put t key value
  | .del key => e.del t key

def Change.apply (index : WalIndex) : Change → WalIndex
  | .put key value => index.insert key value
  | .del key => index.erase key

/-- A crash may come between two calls, or interrupt one behind its `write`. -/
inductive Op
  | openFile (opened : Bool) (reads : Option ℕ)
  | close
  | change (c : Change) (t : Transfer)
  | crash
  | interrupted (c : Change) (t : Transfer)

def step (e : WalStorageEngine) : Op → WalStorageEngine
  | .openFile opened reads => (e.openFile opened reads).2
  | .close => e.close
  | .change c t => (c.perform t e).2
  | .crash => { file := e.file }
  | .interrupted c t => { file := (c.perform t e).2.file }

abbrev run (ops : List Op) : WalStorageEngine := Runs.run step { file := [] } ops

def Op.applied (e : WalStorageEngine) : Op → Option Change
  | .change c t | .interrupted c t => if (c.perform t e).1 then some c else none
  | _ => none

def applied : WalStorageEngine → List Op → List Change
  | _, [] => []
  | e, op :: ops => (op.applied e).toList ++ applied (e.step op) ops

end WalStorageEngine

end SystemLevel.Lsm
