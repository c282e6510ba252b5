import SystemLevel.Foundations.Shifts

/-!
`L2OrderBook` over prices of any type with a test for equality and an order. The prices of the source are doubles.
-/

namespace SystemLevel.Trading

open Shifts

inductive Side
  | buy
  | sell
  deriving DecidableEq, Repr

structure PriceLevel (P : Type) where
  price : P
  qty : UInt32 := 0
  orderCount : UInt32 := 0
  deriving DecidableEq, Repr

abbrev maxDepth : ℕ := 32

structure BookSide (P : Type) where
  levels : Vector (PriceLevel P) maxDepth
  count : ℕ
  count_le : count ≤ maxDepth

namespace BookSide

variable {P : Type}

theorem index_lt (side : BookSide P) (i : Fin side.count) : i.val < maxDepth := i.isLt.trans_le side.count_le

def level (side : BookSide P) (i : Fin side.count) : PriceLevel P := side.levels.get ⟨i, side.index_lt i⟩

def find (side : BookSide P) (test : PriceLevel P → Bool) : Option (Fin side.count) :=
  Fin.find? fun i => test (side.level i)

theorem last_lt (side : BookSide P) (i : Fin side.count) : i.val + (side.count - 1 - i.val) < maxDepth := by
  have hi := i.isLt
  have hcount := side.count_le
  omega

def remove (side : BookSide P) (i : Fin side.count) : BookSide P where
  levels := shiftDown side.levels i (side.count - 1 - i) (side.last_lt i)
  count := side.count - 1
  count_le := (Nat.sub_le _ _).trans side.count_le

def replace (side : BookSide P) (i : Fin side.count) (qty orderCount : UInt32) : BookSide P :=
  { side with levels := side.levels.set i { side.level i with qty, orderCount } (side.index_lt i) }

def insertPos (side : BookSide P) (cmp : P → P → Bool) (price : P) : ℕ :=
  match side.find fun level => cmp price level.price with
  | some i => i
  | none => side.count

def limit (side : BookSide P) : ℕ := min (side.count + 1) maxDepth

theorem limit_lt (side : BookSide P) {pos : ℕ} (hpos : pos < maxDepth) :
    pos + (side.limit - 1 - pos) < maxDepth := by
  have hlimit : side.limit ≤ maxDepth := Nat.min_le_right _ _
  omega

def insertAt (side : BookSide P) (pos : ℕ) (hpos : pos < maxDepth) (level : PriceLevel P) : BookSide P where
  levels := (shiftUp side.levels pos (side.limit - 1 - pos) (side.limit_lt hpos)).set pos level hpos
  count := if side.count < maxDepth then side.count + 1 else side.count
  count_le := by
    split_ifs with h
    · exact h
    · exact side.count_le

def updateSide [BEq P] (side : BookSide P) (price : P) (qty orderCount : UInt32) (cmp : P → P → Bool) : BookSide P :=
  match side.find fun level => level.price == price with
  | some i => if qty = 0 then side.remove i else side.replace i qty orderCount
  | none =>
    if qty = 0 then side
    else if hpos : side.insertPos cmp price < maxDepth then
      side.insertAt (side.insertPos cmp price) hpos { price, qty, orderCount }
    else side

def best (side : BookSide P) : Option (PriceLevel P) :=
  if side.count = 0 then none else some (side.levels.get ⟨0, Nat.succ_pos _⟩)

end BookSide

structure L2OrderBook (P : Type) where
  bids : BookSide P
  asks : BookSide P

namespace L2OrderBook

variable {P : Type}

def empty [Zero P] : L2OrderBook P :=
  let side : BookSide P := { levels := Vector.replicate maxDepth { price := 0 }, count := 0, count_le := Nat.zero_le _ }
  { bids := side, asks := side }

def updateLevel [BEq P] [LT P] [DecidableLT P] (book : L2OrderBook P) (side : Side) (price : P)
    (qty count : UInt32) : L2OrderBook P :=
  if side = .buy then { book with bids := book.bids.updateSide price qty count fun a b => b < a }
  else { book with asks := book.asks.updateSide price qty count fun a b => a < b }

def bestBid (book : L2OrderBook P) : Option (PriceLevel P) := book.bids.best

def bestAsk (book : L2OrderBook P) : Option (PriceLevel P) := book.asks.best

def clear (book : L2OrderBook P) : L2OrderBook P where
  bids := { book.bids with count := 0, count_le := Nat.zero_le _ }
  asks := { book.asks with count := 0, count_le := Nat.zero_le _ }

end L2OrderBook

end SystemLevel.Trading
