import SystemLevel.Foundations.Bisection

/-!
The version chains and read views of `mvcc_undo_log.hpp`. An undo record is never changed after
`put` has built it, so the chain behind a `roll_ptr` is the list of its records, newest first.
-/

namespace SystemLevel.Mvcc

open Bisection

abbrev TxnId := UInt64
abbrev Value := List UInt8

def binarySearch (ids : List TxnId) (x : TxnId) : Bool :=
  match ids[lowerBoundIn (· < x) ids]? with
  | none => false
  | some id => !decide (x < id)

theorem binarySearch_iff {ids : List TxnId} (hs : ids.Pairwise (· ≤ ·)) (x : TxnId) :
    binarySearch ids x = true ↔ x ∈ ids := by
  obtain ⟨-, hp⟩ := lowerBoundIn_spec (fun id => decide (id < x)) ids (hs.imp (fun hab hb => by
    simp only [decide_eq_true_eq] at hb ⊢
    exact UInt64.lt_of_le_of_lt hab hb))
  unfold binarySearch
  generalize lowerBoundIn (· < x) ids = p at hp ⊢
  simp only [decide_eq_true_eq] at hp
  have hx (i : ℕ) (hi : i < ids.length) (he : ids[i] = x) : p ≤ i := by
    have := (hp i hi).not
    simp only [he, UInt64.lt_irrefl, not_false_eq_true, true_iff] at this
    omega
  by_cases hlen : p < ids.length
  · have hge : x ≤ ids[p] := UInt64.not_lt.mp ((hp p hlen).not.mpr (by omega))
    simp only [List.getElem?_eq_getElem hlen, Bool.not_eq_true', decide_eq_false_iff_not, UInt64.not_lt]
    constructor
    · intro hle
      rw [UInt64.le_antisymm hge hle]
      exact List.getElem_mem hlen
    · intro hmem
      obtain ⟨i, hi, rfl⟩ := List.getElem_of_mem hmem
      rcases Nat.eq_or_lt_of_le (hx i hi rfl) with rfl | hlt
      · exact UInt64.le_refl _
      · exact List.pairwise_iff_getElem.mp hs p i hlen hi hlt
  · rw [List.getElem?_eq_none (by omega)]
    simp only [Bool.false_eq_true, false_iff]
    intro hmem
    obtain ⟨i, hi, rfl⟩ := List.getElem_of_mem hmem
    have := hx i hi rfl
    omega

structure ReadView where
  creatorTxnId : TxnId := 0
  upLimitId : TxnId := 0
  lowLimitId : TxnId := 0
  activeIds : List TxnId := []
  deriving DecidableEq, Repr

def ReadView.isVisible (view : ReadView) (xmin : TxnId) : Bool :=
  if xmin = view.creatorTxnId then true
  else if xmin < view.upLimitId then true
  else if view.lowLimitId ≤ xmin then false
  else !binarySearch view.activeIds xmin

structure UndoRecord where
  xmin : TxnId := 0
  oldVal : Value := []
  deriving DecidableEq, Repr

structure TupleSlot where
  key : UInt64 := 0
  val : Value := []
  xmin : TxnId := 0
  rollPtr : List UndoRecord := []
  deriving DecidableEq, Repr

def walkUndo (view : ReadView) : List UndoRecord → Option Value
  | [] => none
  | curr :: prev => if view.isVisible curr.xmin then some curr.oldVal else walkUndo view prev

def readTupleSnapshot (tuple : TupleSlot) (view : ReadView) : Option Value :=
  if view.isVisible tuple.xmin then some tuple.val else walkUndo view tuple.rollPtr

def UndoRecord.version (undo : UndoRecord) : TxnId × Value := (undo.xmin, undo.oldVal)

def TupleSlot.versions (tuple : TupleSlot) : List (TxnId × Value) :=
  (tuple.xmin, tuple.val) :: tuple.rollPtr.map UndoRecord.version

def TupleSlot.selected (tuple : TupleSlot) (view : ReadView) : Option (TxnId × Value) :=
  tuple.versions.find? (fun version => view.isVisible version.1)

theorem walkUndo_eq (view : ReadView) (chain : List UndoRecord) :
    walkUndo view chain =
      ((chain.map UndoRecord.version).find? (fun version => view.isVisible version.1)).map Prod.snd := by
  induction chain with
  | nil => rfl
  | cons curr prev ih =>
    simp only [walkUndo, List.map_cons, List.find?_cons, UndoRecord.version]
    cases view.isVisible curr.xmin
    · simpa using ih
    · rfl

theorem readTupleSnapshot_eq (tuple : TupleSlot) (view : ReadView) :
    readTupleSnapshot tuple view = (tuple.selected view).map Prod.snd := by
  simp only [readTupleSnapshot, walkUndo_eq, TupleSlot.selected, TupleSlot.versions, List.find?_cons]
  cases view.isVisible tuple.xmin <;> rfl

end SystemLevel.Mvcc
