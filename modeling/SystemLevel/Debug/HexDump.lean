import SystemLevel.Foundations.HexNumerals
import SystemLevel.Logging.FormatArg

/-!
`MemoryInspector::hex_dump`, and how the bytes are read back from the text.
-/

namespace SystemLevel.Debug

open HexNumerals TextLines
open Logging (ascii)

inductive Base
  | dec
  | oct
  | hex
  deriving DecidableEq, Repr

inductive Adjust
  | left
  | right
  | internal
  deriving DecidableEq, Repr

structure Flags where
  base : Base := .dec
  adjust : Adjust := .right
  uppercase : Bool := false
  showbase : Bool := false
  deriving DecidableEq, Repr

/-- What an `std::ostream` of the classic locale in a good state has been given so far, and the part of its state that
formats what it is given next. -/
structure OStream where
  text : Bytes := []
  flags : Flags := {}
  fill : UInt8 := 32
  width : ℕ := 0
  deriving DecidableEq, Repr

namespace OStream

def hex (s : OStream) : OStream := { s with flags := { s.flags with base := .hex } }

def setw (s : OStream) (width : ℕ) : OStream := { s with width }

def setfill (s : OStream) (fill : UInt8) : OStream := { s with fill }

/-- An insertion pads once: `front` is the part of a number that `internal` keeps in front of the padding. -/
def insert (s : OStream) (front text : Bytes) : OStream :=
  let padding := List.replicate (s.width - (front.length + text.length)) s.fill
  let field :=
    match s.flags.adjust with
    | .left => front ++ text ++ padding
    | .right => padding ++ front ++ text
    | .internal => front ++ padding ++ text
  { s with text := s.text ++ field, width := 0 }

def put (s : OStream) (text : Bytes) : OStream := s.insert [] text

def putHex (s : OStream) (n : ℕ) : OStream :=
  s.insert (if s.flags.showbase ∧ n ≠ 0 then [48, if s.flags.uppercase then 88 else 120] else [])
    (hexNumeral s.flags.uppercase n)

def isprint (b : UInt8) : Bool := 32 ≤ b ∧ b ≤ 126

section Rows

variable (address : UInt64) (bytes : Bytes) (offset : ℕ)

def hexByte (s : OStream) (i : ℕ) : OStream :=
  let s := if i = 8 then s.put (ascii "| ") else s
  if offset + i < bytes.length then
    (((s.hex.setw 2).setfill 48).putHex (bytes.getD (offset + i) 0).toNat).put (ascii " ")
  else s.put (ascii "   ")

def asciiByte (s : OStream) (i : ℕ) : OStream :=
  let s := if i = 8 then s.put (ascii " ") else s
  if offset + i < bytes.length then
    let b := bytes.getD (offset + i) 0
    s.put [if isprint b then b else 46]
  else s.put (ascii " ")

def row (s : OStream) : OStream :=
  let s := (((s.put (ascii "0x")).hex.setw 8).setfill 48).putHex (address + UInt64.ofNat offset).toNat
  let s := s.put (ascii "  ")
  let s := (List.range 16).foldl (hexByte bytes offset) s
  let s := s.put (ascii " | ")
  let s := (List.range 16).foldl (asciiByte bytes offset) s
  s.put (ascii "\n")

end Rows

def hexDump (s : OStream) (address : UInt64) (bytes : Bytes) : OStream :=
  if address = 0 ∨ bytes.length = 0 then s.put (ascii "[Empty or null buffer]\n")
  else
    let offsets := (List.range ((bytes.length + 15) / 16)).map (16 * ·)
    let dumped := offsets.foldl (fun s offset => s.row address bytes offset) s
    { dumped with flags := s.flags, fill := s.fill }

def hexDumpStr (address : UInt64) (bytes : Bytes) : Bytes := (({} : OStream).hexDump address bytes).text

end OStream

def parseBar (i : ℕ) (line : Bytes) : Option Bytes := if i = 8 then expect (ascii "| ") line else some line

def parseCell (line : Bytes) : Option Bytes :=
  if line.take 3 = ascii "   " then some [] else (readHex (line.take 2)).map fun b => [UInt8.ofNat b]

def parseCells : List ℕ → Bytes → Option (Bytes × Bytes)
  | [], line => some ([], line)
  | i :: is, line => do
    let line ← parseBar i line
    let cell ← parseCell line
    let (bytes, rest) ← parseCells is (line.drop 3)
    some (cell ++ bytes, rest)

def parseRow (line : Bytes) : Option (ℕ × Bytes) := do
  let line ← expect (ascii "0x") line
  let address ← readHex (line.takeWhile (· ≠ 32))
  let line ← expect (ascii "  ") (line.dropWhile (· ≠ 32))
  let (bytes, _) ← parseCells (List.range 16) line
  some (address, bytes)

def readDump (text : Bytes) : Option (List (ℕ × Bytes)) := (lines 10 text).1.mapM parseRow

section Texts

variable (uppercase : Bool) (address : UInt64) (bytes : Bytes) (offset : ℕ)

def hexText (i : ℕ) : Bytes :=
  (if i = 8 then ascii "| " else []) ++
    if offset + i < bytes.length then padded uppercase 2 (bytes.getD (offset + i) 0).toNat ++ ascii " " else ascii "   "

def asciiText (i : ℕ) : Bytes :=
  (if i = 8 then ascii " " else []) ++
    if offset + i < bytes.length then
      [if OStream.isprint (bytes.getD (offset + i) 0) then bytes.getD (offset + i) 0 else 46]
    else ascii " "

def rowText : Bytes :=
  ascii "0x" ++ (padded uppercase 8 (address + UInt64.ofNat offset).toNat ++ (ascii "  " ++
    ((List.range 16).flatMap (hexText uppercase bytes offset) ++
      (ascii " | " ++ (List.range 16).flatMap (asciiText bytes offset)))))

end Texts

namespace OStream

def append (s : OStream) (text : Bytes) : OStream := { s with text := s.text ++ text }

def ready (s : OStream) : OStream := s.hex.setfill 48

structure Plain (s : OStream) : Prop where
  width : s.width = 0
  adjust : s.flags.adjust ≠ .left
  showbase : s.flags.showbase = false

variable {s : OStream} {address : UInt64} {bytes : Bytes} {offset : ℕ}

@[simp] theorem append_append (s : OStream) (text more : Bytes) :
    (s.append text).append more = s.append (text ++ more) := by
  rw [append, append, append, List.append_assoc]

@[simp] theorem append_nil (s : OStream) : s.append [] = s := by
  rw [append, List.append_nil]

theorem Plain.append (h : s.Plain) (text : Bytes) : (s.append text).Plain := ⟨h.width, h.adjust, h.showbase⟩

theorem Plain.ready (h : s.Plain) : s.ready.Plain := ⟨h.width, h.adjust, h.showbase⟩

theorem Plain.put (h : s.Plain) (text : Bytes) : s.put text = s.append text := by
  have hgap : List.replicate (s.width - (([] : Bytes).length + text.length)) s.fill = [] := by
    rw [h.width, Nat.zero_sub]
    rfl
  unfold OStream.put insert
  simp only [hgap, List.nil_append, List.append_nil]
  cases hadjust : s.flags.adjust <;> simp [OStream.append, h.width]

theorem Plain.number (h : s.Plain) (width n : ℕ) :
    ((s.hex.setw width).setfill 48).putHex n = s.ready.append (padded s.flags.uppercase width n) := by
  unfold putHex insert padded
  simp only [hex, setw, setfill, h.showbase, Bool.false_eq_true, false_and, if_false, List.length_nil, Nat.zero_add,
    List.nil_append]
  cases hadjust : s.flags.adjust with
  | left => exact absurd hadjust h.adjust
  | right => simp [OStream.append, OStream.ready, hex, setfill, hadjust, h.width, h.showbase]
  | internal => simp [OStream.append, OStream.ready, hex, setfill, hadjust, h.width, h.showbase]

theorem foldl_append {α : Type} {f : OStream → α → OStream} {g : α → Bytes}
    (hf : ∀ text x, f (s.append text) x = s.append (text ++ g x)) (xs : List α) :
    xs.foldl f s = s.append (xs.flatMap g) := by
  have hfrom : ∀ text, xs.foldl f (s.append text) = s.append (text ++ xs.flatMap g) := by
    induction xs with
    | nil =>
      intro text
      rw [List.flatMap_nil, List.append_nil]
      rfl
    | cons x xs ih =>
      intro text
      rw [List.foldl_cons, hf, ih, List.flatMap_cons, List.append_assoc]
  have := hfrom []
  rwa [append_nil] at this

theorem ready_append (s : OStream) (text : Bytes) : (s.append text).ready = s.ready.append text := rfl

theorem Plain.put_if (h : s.Plain) (p : Prop) [Decidable p] (text : Bytes) :
    (if p then s.put text else s) = s.append (if p then text else []) := by
  split_ifs
  · exact h.put text
  · rw [append_nil]

theorem Plain.hexByte (h : s.Plain) (hready : s.ready = s) (i : ℕ) :
    s.hexByte bytes offset i = s.append (hexText s.flags.uppercase bytes offset i) := by
  unfold OStream.hexByte hexText
  rw [h.put_if]
  generalize (if i = 8 then ascii "| " else []) = front
  dsimp only
  split_ifs
  · rw [(h.append front).number, ready_append, hready, ((h.append front).append _).put, append_append, append_append]
    rfl
  · rw [(h.append front).put, append_append]

theorem Plain.asciiByte (h : s.Plain) (i : ℕ) : s.asciiByte bytes offset i = s.append (asciiText bytes offset i) := by
  unfold OStream.asciiByte asciiText
  rw [h.put_if]
  generalize (if i = 8 then ascii " " else []) = front
  dsimp only
  rw [(h.append front).put, (h.append front).put, append_append, append_append]
  split_ifs <;> rfl

theorem Plain.row (h : s.Plain) :
    s.row address bytes offset = s.ready.append (rowText s.flags.uppercase address bytes offset ++ [10]) := by
  have hhex (text : Bytes) : (List.range 16).foldl (OStream.hexByte bytes offset) (s.ready.append text) =
      s.ready.append (text ++ (List.range 16).flatMap (hexText s.flags.uppercase bytes offset)) := by
    rw [foldl_append, append_append]
    intro more i
    exact (((h.ready.append _).append _).hexByte rfl i).trans (append_append _ _ _)
  have hascii (text : Bytes) : (List.range 16).foldl (OStream.asciiByte bytes offset) (s.ready.append text) =
      s.ready.append (text ++ (List.range 16).flatMap (asciiText bytes offset)) := by
    rw [foldl_append, append_append]
    intro more i
    exact ((h.ready.append _).append _).asciiByte i |>.trans (append_append _ _ _)
  unfold OStream.row
  dsimp only
  rw [h.put, (h.append _).number, ready_append, append_append, (h.ready.append _).put, append_append, hhex,
    (h.ready.append _).put, append_append, hascii, (h.ready.append _).put, append_append]
  unfold rowText
  simp only [List.append_assoc]
  rfl

theorem Plain.hexDump (h : s.Plain) (haddress : address ≠ 0) (hbytes : bytes ≠ []) :
    s.hexDump address bytes = s.append (((List.range ((bytes.length + 15) / 16)).map (16 * ·)).flatMap fun offset =>
      rowText s.flags.uppercase address bytes offset ++ [10]) := by
  have hlength : bytes.length ≠ 0 := mt List.length_eq_zero_iff.mp hbytes
  have hrows (offsets : List ℕ) : offsets.foldl (fun s offset => s.row address bytes offset) s.ready =
      s.ready.append (offsets.flatMap fun offset => rowText s.flags.uppercase address bytes offset ++ [10]) := by
    apply foldl_append
    intro text offset
    exact (h.ready.append text).row.trans (append_append _ _ _)
  have hfirst (offset : ℕ) (offsets : List ℕ) :
      (offset :: offsets).foldl (fun s offset => s.row address bytes offset) s =
        (offset :: offsets).foldl (fun s offset => s.row address bytes offset) s.ready := by
    rw [List.foldl_cons, List.foldl_cons, h.row, h.ready.row]
    rfl
  obtain ⟨count, hcount⟩ : ∃ count, (bytes.length + 15) / 16 = count + 1 := ⟨(bytes.length - 1) / 16, by omega⟩
  rw [OStream.hexDump, if_neg (not_or.mpr ⟨haddress, hlength⟩)]
  dsimp only
  rw [hcount, List.range_succ_eq_map, List.map_cons, hfirst, hrows]
  rfl

end OStream

section Reading

variable {uppercase : Bool} {address : UInt64} {bytes : Bytes} {offset : ℕ}

theorem filterMap_range {α : Type} (xs : List α) (n : ℕ) : (List.range n).filterMap (xs[·]?) = xs.take n := by
  induction n with
  | zero => rfl
  | succ n ih =>
    rw [List.range_succ, List.filterMap_append, ih, List.take_add_one]
    congr 1

theorem parseBar_append (i : ℕ) (more : Bytes) :
    parseBar i ((if i = 8 then ascii "| " else []) ++ more) = some more := by
  unfold parseBar
  split_ifs
  · exact expect_append _ _
  · rfl

def cellText (uppercase : Bool) (cell : Option UInt8) : Bytes :=
  match cell with
  | some b => padded uppercase 2 b.toNat ++ ascii " "
  | none => ascii "   "

theorem hexText_eq (uppercase : Bool) (bytes : Bytes) (offset i : ℕ) :
    hexText uppercase bytes offset i =
      (if i = 8 then ascii "| " else []) ++ cellText uppercase bytes[offset + i]? := by
  unfold hexText cellText
  congr 1
  split_ifs with hin
  · rw [List.getElem?_eq_getElem hin, List.getD_eq_getElem bytes 0 hin]
  · rw [List.getElem?_eq_none (not_lt.mp hin)]

theorem length_cellText (uppercase : Bool) (cell : Option UInt8) : (cellText uppercase cell).length = 3 := by
  cases cell with
  | none => rfl
  | some b =>
    rw [cellText, List.length_append, length_padded (by decide) b.toNat_lt]
    rfl

theorem parseCell_cellText (uppercase : Bool) (cell : Option UInt8) (more : Bytes) :
    parseCell (cellText uppercase cell ++ more) = some cell.toList := by
  unfold parseCell
  rw [List.take_left' (length_cellText uppercase cell)]
  cases cell with
  | none => rfl
  | some b =>
    have hlength : (padded uppercase 2 b.toNat).length = 2 := length_padded (by decide) b.toNat_lt
    have hblank : padded uppercase 2 b.toNat ++ ascii " " ≠ ascii "   " := by
      intro h
      change padded uppercase 2 b.toNat ++ ascii " " = [32, 32] ++ ascii " " at h
      have hmem : 32 ∈ padded uppercase 2 b.toNat := by
        rw [(List.append_inj h hlength).1]
        exact List.mem_cons_self
      exact notMem_padded (by decide) hmem
    rw [cellText, if_neg hblank, List.append_assoc, List.take_left' hlength, readHex_padded, Option.map_some,
      UInt8.ofNat_toNat]
    rfl

theorem parseCells_hexText (uppercase : Bool) (bytes : Bytes) (offset : ℕ) (is : List ℕ) (rest : Bytes) :
    parseCells is (is.flatMap (hexText uppercase bytes offset) ++ rest) =
      some (is.filterMap fun i => bytes[offset + i]?, rest) := by
  induction is with
  | nil => rfl
  | cons i is ih =>
    rw [List.flatMap_cons, List.append_assoc, hexText_eq, List.append_assoc, parseCells, parseBar_append,
      Option.bind_eq_bind, Option.bind_some, parseCell_cellText, Option.bind_eq_bind, Option.bind_some,
      List.drop_left' (length_cellText _ _), ih]
    rw [List.filterMap_cons]
    cases bytes[offset + i]? with
    | none => rfl
    | some b => rfl

theorem parseRow_rowText (uppercase : Bool) (address : UInt64) (bytes : Bytes) (offset : ℕ) :
    parseRow (rowText uppercase address bytes offset) =
      some ((address + UInt64.ofNat offset).toNat, (bytes.drop offset).take 16) := by
  have hblank : 32 ∉ padded uppercase 8 (address + UInt64.ofNat offset).toNat := notMem_padded (by decide)
  have hcells : ((List.range 16).filterMap fun i => bytes[offset + i]?) = (bytes.drop offset).take 16 := by
    rw [← filterMap_range]
    simp only [List.getElem?_drop]
  have hspace (rest : Bytes) : ascii "  " ++ rest = 32 :: (ascii " " ++ rest) := rfl
  rw [rowText, parseRow, expect_append, Option.bind_eq_bind, Option.bind_some, hspace, takeWhile_ne hblank,
    dropWhile_ne hblank, ← hspace, readHex_padded, Option.bind_eq_bind, Option.bind_some, expect_append,
    Option.bind_eq_bind, Option.bind_some, parseCells_hexText, hcells]
  rfl

theorem notMem_cellText (uppercase : Bool) (cell : Option UInt8) : 10 ∉ cellText uppercase cell := by
  cases cell with
  | none =>
    rw [cellText]
    decide +kernel
  | some b =>
    rw [cellText, List.mem_append, not_or]
    exact ⟨notMem_padded (by decide), by decide +kernel⟩

theorem notMem_hexText (uppercase : Bool) (bytes : Bytes) (offset i : ℕ) : 10 ∉ hexText uppercase bytes offset i := by
  rw [hexText_eq, List.mem_append, not_or]
  refine ⟨?_, notMem_cellText _ _⟩
  split_ifs
  · decide +kernel
  · exact List.not_mem_nil

theorem notMem_asciiText (bytes : Bytes) (offset i : ℕ) : 10 ∉ asciiText bytes offset i := by
  rw [asciiText, List.mem_append, not_or]
  constructor
  · split_ifs
    · decide +kernel
    · exact List.not_mem_nil
  · split_ifs with hin hprint
    · intro hmem
      rw [← List.mem_singleton.mp hmem] at hprint
      revert hprint
      decide
    · decide
    · decide +kernel

theorem notMem_rowText (uppercase : Bool) (address : UInt64) (bytes : Bytes) (offset : ℕ) :
    10 ∉ rowText uppercase address bytes offset := by
  simp only [rowText, List.mem_append, List.mem_flatMap, not_or, not_exists, not_and]
  refine ⟨by decide +kernel, notMem_padded (by decide), by decide +kernel, ?_, by decide +kernel, ?_⟩
  · intro i _
    exact notMem_hexText uppercase bytes offset i
  · intro i _
    exact notMem_asciiText bytes offset i

theorem rows_join (bytes : Bytes) (count : ℕ) (hcount : bytes.length ≤ 16 * count) :
    (List.range count).flatMap (fun k => (bytes.drop (16 * k)).take 16) = bytes := by
  have htake : (List.range count).flatMap (fun k => (bytes.drop (16 * k)).take 16) = bytes.take (16 * count) := by
    clear hcount
    induction count with
    | zero => rfl
    | succ count ih =>
      rw [List.range_succ, List.flatMap_append, ih, List.flatMap_singleton, Nat.mul_succ, List.take_add]
  rw [htake, List.take_of_length_le hcount]

theorem readDump_rows (uppercase : Bool) (address : UInt64) (bytes : Bytes) (offsets : List ℕ) :
    readDump (offsets.flatMap fun offset => rowText uppercase address bytes offset ++ [10]) =
      some (offsets.map fun offset =>
        ((address + UInt64.ofNat offset).toNat, (bytes.drop offset).take 16)) := by
  have hlines : lines 10 (offsets.flatMap fun offset => rowText uppercase address bytes offset ++ [10]) =
      (offsets.map (rowText uppercase address bytes), []) := by
    rw [← lines_flatMap (fun offset _ => notMem_rowText uppercase address bytes offset) List.not_mem_nil,
      List.append_nil]
  rw [readDump, hlines]
  apply mapM_map
  intro offset _
  exact parseRow_rowText uppercase address bytes offset

end Reading

theorem OStream.hexDump_reads_back {s : OStream} (hwidth : s.width = 0) (hadjust : s.flags.adjust ≠ .left)
    (hshowbase : s.flags.showbase = false) {address : UInt64} (haddress : address ≠ 0) {bytes : Bytes}
    (hbytes : bytes ≠ []) :
    ∃ dump rows, s.hexDump address bytes = { s with text := s.text ++ dump } ∧ readDump dump = some rows ∧
      rows.flatMap Prod.snd = bytes ∧
      ∀ k row, rows[k]? = some row →
        row = ((address + UInt64.ofNat (16 * k)).toNat, (bytes.drop (16 * k)).take 16) := by
  have hplain : s.Plain := ⟨hwidth, hadjust, hshowbase⟩
  refine ⟨_, _, hplain.hexDump haddress hbytes, readDump_rows _ _ _ _, ?_, ?_⟩
  · rw [List.flatMap_map, List.flatMap_map]
    exact rows_join bytes _ (by omega)
  · intro k row hrow
    simp only [List.getElem?_map, Option.map_eq_some_iff] at hrow
    obtain ⟨offset, ⟨k', hk, rfl⟩, rfl⟩ := hrow
    obtain ⟨-, rfl⟩ := List.getElem?_eq_some_iff.mp hk
    rw [List.getElem_range]

theorem OStream.hexDump_reads_back_internal :
    ∃ dump rows,
      ({ flags := { base := .oct, adjust := .internal, uppercase := true }, fill := 42 } : OStream).hexDump 0xFFF8
          ((List.range 20).map UInt8.ofNat) =
        { text := dump, flags := { base := .oct, adjust := .internal, uppercase := true }, fill := 42 } ∧
      readDump dump = some rows ∧ rows.flatMap Prod.snd = (List.range 20).map UInt8.ofNat ∧
      ∀ k row, rows[k]? = some row → row = (((0xFFF8 : UInt64) + UInt64.ofNat (16 * k)).toNat,
        (((List.range 20).map UInt8.ofNat).drop (16 * k)).take 16) :=
  OStream.hexDump_reads_back rfl (by decide) rfl (by decide) (by decide)

end SystemLevel.Debug
