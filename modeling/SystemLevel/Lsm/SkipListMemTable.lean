import SystemLevel.Foundations.Towers

/-!
`SkipListMemTable`. The nodes stand in a list in the order of their allocation: a `Node*` is a
position in it, `head_` is position 0, and `nullptr` is `none`. The level of a node is the length of
its `forward`. The level that `random_level` draws is an argument of `put`.
-/

namespace SystemLevel.Lsm

structure Node where
  key : UInt64
  value : UInt64
  forward : List (Option ℕ)
  deriving DecidableEq, Repr

def maxLevel : ℕ := 16

abbrev Level := { level : ℕ // 1 ≤ level ∧ level ≤ maxLevel }

def levelOf (level : ℕ) : Level :=
  ⟨max 1 (min level maxLevel), le_max_left _ _, max_le (by decide) (min_le_right _ _)⟩

abbrev Nodes := List Node

namespace Nodes

def forward (nodes : Nodes) (a i : ℕ) : Option ℕ := ((nodes[a]?).bind (fun n => n.forward[i]?)).join

def keyAt (nodes : Nodes) (a : ℕ) : UInt64 := (nodes[a]?).elim 0 Node.key

def valueAt (nodes : Nodes) (a : ℕ) : UInt64 := (nodes[a]?).elim 0 Node.value

def height (nodes : Nodes) (a : ℕ) : ℕ := (nodes[a]?).elim 0 (fun n => n.forward.length)

def setForward (nodes : Nodes) (a i : ℕ) (target : Option ℕ) : Nodes :=
  nodes.modify a (fun n => { n with forward := n.forward.set i target })

def setValue (nodes : Nodes) (a : ℕ) (value : UInt64) : Nodes :=
  nodes.modify a (fun n => { n with value })

def link (n : ℕ) (update : List ℕ) (nodes : Nodes) (i : ℕ) : Nodes :=
  match update[i]? with
  | none => nodes
  | some u => (nodes.setForward n i (nodes.forward u i)).setForward u i (some n)

end Nodes

structure SkipListMemTable where
  nodes : Nodes := [{ key := 0, value := 0, forward := List.replicate maxLevel none }]
  currentLevel : ℕ := 1
  size : UInt64 := 0
  byteSize : UInt64 := 0
  deriving DecidableEq, Repr

namespace SkipListMemTable

def search (m : SkipListMemTable) (key : UInt64) : ℕ × List ℕ :=
  Towers.descend m.nodes.forward (fun b => decide (m.nodes.keyAt b < key)) m.nodes.length m.currentLevel 0

def insert (m : SkipListMemTable) (key value : UInt64) (newLevel : ℕ) (update : List ℕ) : SkipListMemTable :=
  let n := m.nodes.length
  let nodes : Nodes := m.nodes ++ [{ key, value, forward := List.replicate newLevel none }]
  let update := update ++ List.replicate (newLevel - m.currentLevel) 0
  { nodes := (List.range newLevel).foldl (Nodes.link n update) nodes
    currentLevel := if m.currentLevel < newLevel then newLevel else m.currentLevel
    size := m.size + 1
    byteSize := m.byteSize + (48 + UInt64.ofNat newLevel * 8) }

def put (m : SkipListMemTable) (key value : UInt64) (newLevel : ℕ) : SkipListMemTable :=
  let found := m.search key
  match m.nodes.forward found.1 0 with
  | none => m.insert key value newLevel found.2
  | some curr =>
    if m.nodes.keyAt curr = key then { m with nodes := m.nodes.setValue curr value }
    else m.insert key value newLevel found.2

def get (m : SkipListMemTable) (key : UInt64) : Option UInt64 :=
  match m.nodes.forward (m.search key).1 0 with
  | none => none
  | some curr => if m.nodes.keyAt curr = key then some (m.nodes.valueAt curr) else none

def toVector (m : SkipListMemTable) : List (UInt64 × UInt64) :=
  (Towers.chain m.nodes.forward m.nodes.length (m.nodes.forward 0 0)).map
    (fun a => (m.nodes.keyAt a, m.nodes.valueAt a))

end SkipListMemTable

end SystemLevel.Lsm
