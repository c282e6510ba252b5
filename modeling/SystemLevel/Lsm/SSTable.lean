import SystemLevel.Lsm.BloomFilter
import SystemLevel.Lsm.FileSystem
import SystemLevel.Lsm.SortedPairs

namespace SystemLevel.Lsm

def pairCodec : FixedCodec Pair := FixedCodec.u64.prod FixedCodec.u64

structure BlockIndexEntry where
  lastKey : UInt64 := 0
  offset : UInt64 := 0
  count : UInt64 := 0
  deriving DecidableEq, Repr

def BlockIndexEntry.codec : FixedCodec BlockIndexEntry :=
  (FixedCodec.u64.prod (FixedCodec.u64.prod FixedCodec.u64)).via
    (fun e => (e.lastKey, e.offset, e.count)) (fun x => ⟨x.1, x.2.1, x.2.2⟩) (fun _ => rfl)

def Footer.magicValue : UInt32 := 0x53535431

structure Footer where
  magic : UInt32 := Footer.magicValue
  indexOffset : UInt64 := 0
  indexCount : UInt64 := 0
  bloomOffset : UInt64 := 0
  bloomNumBits : UInt64 := 0
  bloomNumHashes : UInt64 := 0
  deriving DecidableEq, Repr

/-- The layout of the struct: four bytes of padding follow the magic number. Nothing reads them. -/
def Footer.codec : FixedCodec Footer :=
  (FixedCodec.u32.prod (FixedCodec.u32.prod (FixedCodec.u64.prod (FixedCodec.u64.prod
      (FixedCodec.u64.prod (FixedCodec.u64.prod FixedCodec.u64)))))).via
    (fun f => (f.magic, 0, f.indexOffset, f.indexCount, f.bloomOffset, f.bloomNumBits, f.bloomNumHashes))
    (fun x => ⟨x.1, x.2.2.1, x.2.2.2.1, x.2.2.2.2.1, x.2.2.2.2.2.1, x.2.2.2.2.2.2⟩) (fun _ => rfl)

structure OpenIo where
  opened : Bool := true
  seeked : Bool := true
  footer : Transfer := none
  index : Transfer := none
  bloom : Transfer := none
  deriving DecidableEq, Repr

/-- The outcomes of the system calls of a flush: the `open` of `SSTable::build`, its `write`s by
number, and the calls of `SSTable::open`. -/
structure FlushIo where
  create : Bool := true
  write : ℕ → Transfer := fun _ => none
  reopen : OpenIo := {}

structure Output where
  bytes : Bytes := []
  calls : ℕ := 0
  deriving DecidableEq, Repr

def Output.write (io : FlushIo) (out : Output) (bs : Bytes) : Output :=
  { bytes := out.bytes ++ transfer (io.write out.calls) bs, calls := out.calls + 1 }

structure SSTable where
  filename : FileName
  bloom : BloomFilter
  index : List BlockIndexEntry
  deriving DecidableEq, Repr

namespace SSTable

def recordsPerBlock : ℕ := 128

def lastKey (chunk : List Pair) : UInt64 := (chunk.getLast?.map Prod.fst).getD 0

def blockEntry (chunk : List Pair) (offset : UInt64) : BlockIndexEntry :=
  { lastKey := lastKey chunk, offset, count := UInt64.ofNat chunk.length }

def writeBlocks (io : FlushIo) (pairs : List Pair) (out : Output) (offset : UInt64) :
    Output × UInt64 × List BlockIndexEntry :=
  if pairs = [] then (out, offset, [])
  else
    let chunk := pairs.take recordsPerBlock
    let rest := writeBlocks io (pairs.drop recordsPerBlock) (out.write io (pairCodec.encodeAll chunk))
      (offset + UInt64.ofNat (chunk.length * pairCodec.size))
    (rest.1, rest.2.1, blockEntry chunk offset :: rest.2.2)
termination_by pairs.length
decreasing_by
  have hpos : 0 < pairs.length := List.length_pos_iff.mpr ‹_›
  simp only [List.length_drop, recordsPerBlock]
  omega

def bloomOf (sizing : BloomSizing) (pairs : List Pair) : BloomFilter :=
  (pairs.map Prod.fst).foldl BloomFilter.add (BloomFilter.new sizing (UInt64.ofNat pairs.length))

def writtenWith (bloom : BloomFilter) (io : FlushIo) (pairs : List Pair) : Bytes :=
  let blocks := writeBlocks io pairs {} 0
  let index := blocks.2.2
  let indexOffset := blocks.2.1
  let bloomOffset := indexOffset + UInt64.ofNat (index.length * BlockIndexEntry.codec.size)
  let footer : Footer :=
    { indexOffset
      indexCount := UInt64.ofNat index.length
      bloomOffset
      bloomNumBits := bloom.numBits
      bloomNumHashes := bloom.numHashes }
  (((blocks.1.write io (BlockIndexEntry.codec.encodeAll index)).write io (FixedCodec.u64.encodeAll bloom.bits)).write io
    (Footer.codec.encode footer)).bytes

def buildWith (bloom : BloomFilter) (io : FlushIo) (dir : Directory) (filename : FileName) (pairs : List Pair) :
    Directory × Bool :=
  if pairs = [] then (dir, false)
  else if io.create then (dir.insert filename (writtenWith bloom io pairs), true)
  else (dir, false)

def written (sizing : BloomSizing) (io : FlushIo) (pairs : List Pair) : Bytes :=
  writtenWith (bloomOf sizing pairs) io pairs

def build (sizing : BloomSizing) (io : FlushIo) (dir : Directory) (filename : FileName) (pairs : List Pair) :
    Directory × Bool :=
  buildWith (bloomOf sizing pairs) io dir filename pairs

theorem build_eq (sizing : BloomSizing) (io : FlushIo) (dir : Directory) (filename : FileName) (pairs : List Pair) :
    build sizing io dir filename pairs =
      if pairs = [] then (dir, false)
      else if io.create then (dir.insert filename (written sizing io pairs), true)
      else (dir, false) := rfl

/-- `SSTable::open` on a file of these contents. The footer is read over one that has the magic number
already. -/
def load (io : OpenIo) (filename : FileName) (file : Bytes) : Option SSTable :=
  if io.seeked = false ∨ file.length < Footer.codec.size then none
  else
    let data := pread file (UInt64.ofNat Footer.codec.size) (UInt64.ofNat (file.length - Footer.codec.size)) io.footer
    let footer := Footer.codec.decode (fill (Footer.codec.encode {}) data)
    if footer.magic ≠ Footer.magicValue then none
    else
      let bloomWords := (footer.bloomNumBits + 63) / 64
      some
        { filename
          index := readVector BlockIndexEntry.codec file footer.indexCount footer.indexOffset io.index
          bloom := BloomFilter.setRawBits (readVector FixedCodec.u64 file bloomWords footer.bloomOffset io.bloom)
            footer.bloomNumBits footer.bloomNumHashes }

def openFile (io : OpenIo) (dir : Directory) (filename : FileName) : Option SSTable :=
  if io.opened then (dir.lookup filename).bind (load io filename) else none

theorem openFile_filename {io : OpenIo} {dir : Directory} {filename : FileName} {t : SSTable}
    (h : openFile io dir filename = some t) : t.filename = filename := by
  rw [openFile] at h
  split_ifs at h
  obtain ⟨file, -, hload⟩ := Option.bind_eq_some_iff.mp h
  simp only [load] at hload
  split_ifs at hload
  rw [← Option.some.inj hload]

def findBlock (index : List BlockIndexEntry) (key : UInt64) : ℕ :=
  Bisection.bisectIn (fun e => decide (key ≤ e.lastKey)) index

def get (dir : Directory) (t : SSTable) (key : UInt64) : Option UInt64 :=
  if t.bloom.contains key then
    match t.index[findBlock t.index key]? with
    | none => none
    | some entry =>
      let records := readVector pairCodec ((dir.lookup t.filename).getD []) entry.count entry.offset none
      match records[Bisection.lowerBoundIn (fun p => decide (p.1 < key)) records]? with
      | none => none
      | some p => if p.1 = key then some p.2 else none
  else none

theorem get_congr {dir dir' : Directory} {t : SSTable} (h : dir'.lookup t.filename = dir.lookup t.filename)
    (key : UInt64) : t.get dir' key = t.get dir key := by
  simp only [get, h]

end SSTable

end SystemLevel.Lsm
