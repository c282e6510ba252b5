import SystemLevel.Foundations.Linearization
import SystemLevel.Foundations.Runs
import SystemLevel.Foundations.SharedMutexes
import SystemLevel.Indexing.LinkedBTree

/-!
`ConcurrentBTree` called by any number of threads. A step takes or gives back one latch, or reads or changes the nodes
that are latched. A thread whose latch is not free stays where it is.
-/

namespace SystemLevel.Indexing

open Linearization SharedMutexes
open Node (childIndex insertIntoLeaf)

inductive Call (K V : Type)
  | search (key : K)
  | insert (key : K) (val : V)

inductive Answer (V : Type)
  | found (result : Option V)
  | inserted

inductive Point (K V : Type)
  | idle
  -- `search`: takes `root_guard`.
  | searchGuard (key : K)
  -- Loads `root_` and takes its latch.
  | searchRoot (key : K)
  | searchUnguard (key : K) (curr : ℕ)
  -- Reads `curr`.
  | searchNode (key : K) (curr : ℕ)
  | searchChild (key : K) (curr child : ℕ)
  | searchLeave (key : K) (curr child : ℕ)
  | searchReturn (leaf : ℕ) (result : Option V)
  -- `insert`: takes `root_guard`.
  | insertGuard (key : K) (val : V)
  -- Reads `root_->is_leaf`.
  | insertRoot (key : K) (val : V)
  | leafLatch (key : K) (val : V) (leaf : ℕ)
  | leafWrite (key : K) (val : V) (leaf : ℕ)
  | leafUnlatch (leaf : ℕ)
  | insertUnguard
  | rootLatch (key : K) (val : V) (curr : ℕ)
  | rootCheck (key : K) (val : V) (curr : ℕ)
  -- Reads `curr`, or changes it if it is a leaf. `guarded` is `root_guard.owns_lock()`.
  | insertNode (key : K) (val : V) (curr : ℕ) (lockedAncestors : List ℕ) (guarded : Bool)
  | insertChild (key : K) (val : V) (child : ℕ) (lockedAncestors : List ℕ) (guarded : Bool)
  | insertCheck (key : K) (val : V) (child : ℕ) (lockedAncestors : List ℕ) (guarded : Bool)
  -- `child` is safe: gives back what is latched above it.
  | insertDrop (key : K) (val : V) (child : ℕ) (lockedAncestors : List ℕ) (guarded : Bool)
  | insertRelease (lockedAncestors : List ℕ) (guarded : Bool)

def Cell.isSafeForInsert {K V : Type} (maxKeys : ℕ) : Cell K V → Bool
  | leaf keys _ _ | internal keys _ => keys.length < maxKeys

structure LatchedBTree (P K V : Type) where
  tree : ConcurrentBTree K V := ConcurrentBTree.init
  rootLatch : SharedMutex P := SharedMutex.free
  latches : ℕ → SharedMutex P := fun _ => SharedMutex.free
  points : P → Point K V := fun _ => .idle
  events : List (Event P (Call K V) (Answer V)) := []

namespace LatchedBTree

variable {P K V : Type} [DecidableEq P]

inductive Action (P K V : Type)
  | call (p : P) (call : Call K V)
  | go (p : P)

section Steps

variable (s : LatchedBTree P K V) (p : P)

def goTo (point : Point K V) : LatchedBTree P K V := { s with points := Function.update s.points p point }

def record (event : Event P (Call K V) (Answer V)) : LatchedBTree P K V := { s with events := s.events ++ [event] }

def setLatch (n : ℕ) (latch : SharedMutex P) : LatchedBTree P K V :=
  { s with latches := Function.update s.latches n latch }

def lockGuard (locked : Option (SharedMutex P)) (point : Point K V) : LatchedBTree P K V :=
  match locked with
  | some rootLatch => { s.goTo p point with rootLatch }
  | none => s

def lockNode (n : ℕ) (locked : Option (SharedMutex P)) (point : Point K V) : LatchedBTree P K V :=
  match locked with
  | some latch => (s.goTo p point).setLatch n latch
  | none => s

def unguard (point : Point K V) : LatchedBTree P K V := { s.goTo p point with rootLatch := s.rootLatch.unlock }

def unlatch (n : ℕ) (point : Point K V) : LatchedBTree P K V := (s.goTo p point).setLatch n (s.latches n).unlock

def unlatchShared (n : ℕ) (point : Point K V) : LatchedBTree P K V :=
  (s.goTo p point).setLatch n ((s.latches n).unlockShared p)

variable [LinearOrder K] (maxKeys : ℕ)

def searchAt (key : K) (curr : ℕ) : LatchedBTree P K V :=
  match s.tree.cells[curr]? with
  | some (Cell.internal keys children) =>
    match children[childIndex key keys]? with
    | some child => s.goTo p (.searchChild key curr child)
    | none => s
  | some (Cell.leaf keys values _) =>
    match ConcurrentBTree.searchLeaf key keys values with
    | some result => (s.goTo p (.searchReturn curr result)).record (.effected p (.search key) (.found result))
    | none => s
  | none => s

def writeRoot (key : K) (val : V) (leaf : ℕ) : LatchedBTree P K V :=
  match s.tree.cells[leaf]? with
  | some (Cell.leaf keys values next) =>
    let contents := insertIntoLeaf keys values key val
    let tree :=
      if maxKeys < contents.1.length then s.tree.splitRoot contents next else s.tree.setLeaf leaf contents next
    ({ s.goTo p (.leafUnlatch leaf) with tree }).record (.effected p (.insert key val) .inserted)
  | _ => s

def insertAt (key : K) (val : V) (curr : ℕ) (lockedAncestors : List ℕ) (guarded : Bool) : LatchedBTree P K V :=
  match s.tree.cells[curr]? with
  | some (Cell.internal keys children) =>
    match children[childIndex key keys]? with
    | some child => s.goTo p (.insertChild key val child lockedAncestors guarded)
    | none => s
  | some (Cell.leaf keys values next) =>
    let tree := s.tree.setLeaf curr (insertIntoLeaf keys values key val) next
    ({ s.goTo p (.insertRelease lockedAncestors guarded) with tree }).record (.effected p (.insert key val) .inserted)
  | none => s

def go : Point K V → LatchedBTree P K V
  | .idle => s
  | .searchGuard key => s.lockGuard p (s.rootLatch.lockShared p) (.searchRoot key)
  | .searchRoot key =>
    s.lockNode p s.tree.root ((s.latches s.tree.root).lockShared p) (.searchUnguard key s.tree.root)
  | .searchUnguard key curr =>
    { s.goTo p (.searchNode key curr) with rootLatch := s.rootLatch.unlockShared p }
  | .searchNode key curr => s.searchAt p key curr
  | .searchChild key curr child => s.lockNode p child ((s.latches child).lockShared p) (.searchLeave key curr child)
  | .searchLeave key curr child => s.unlatchShared p curr (.searchNode key child)
  | .searchReturn leaf result => (s.unlatchShared p leaf .idle).record (.returned p (.found result))
  | .insertGuard key val => s.lockGuard p (s.rootLatch.lock p) (.insertRoot key val)
  | .insertRoot key val =>
    match s.tree.cells[s.tree.root]? with
    | some (Cell.leaf _ _ _) => s.goTo p (.leafLatch key val s.tree.root)
    | some (Cell.internal _ _) => s.goTo p (.rootLatch key val s.tree.root)
    | none => s
  | .leafLatch key val leaf => s.lockNode p leaf ((s.latches leaf).lock p) (.leafWrite key val leaf)
  | .leafWrite key val leaf => s.writeRoot p maxKeys key val leaf
  | .leafUnlatch leaf => s.unlatch p leaf .insertUnguard
  | .insertUnguard => (s.unguard p .idle).record (.returned p .inserted)
  | .rootLatch key val curr => s.lockNode p curr ((s.latches curr).lock p) (.rootCheck key val curr)
  | .rootCheck key val curr =>
    match s.tree.cells[curr]? with
    | some cell =>
      if cell.isSafeForInsert maxKeys then s.unguard p (.insertNode key val curr [curr] false)
      else s.goTo p (.insertNode key val curr [curr] true)
    | none => s
  | .insertNode key val curr lockedAncestors guarded => s.insertAt p key val curr lockedAncestors guarded
  | .insertChild key val child lockedAncestors guarded =>
    s.lockNode p child ((s.latches child).lock p) (.insertCheck key val child lockedAncestors guarded)
  | .insertCheck key val child lockedAncestors guarded =>
    match s.tree.cells[child]? with
    | some cell =>
      if cell.isSafeForInsert maxKeys then s.goTo p (.insertDrop key val child lockedAncestors guarded)
      else s.goTo p (.insertNode key val child (lockedAncestors ++ [child]) guarded)
    | none => s
  | .insertDrop key val child (anc :: rest) guarded => s.unlatch p anc (.insertDrop key val child rest guarded)
  | .insertDrop key val child [] true => s.unguard p (.insertNode key val child [child] false)
  | .insertDrop key val child [] false => s.goTo p (.insertNode key val child [child] false)
  | .insertRelease (anc :: rest) guarded => s.unlatch p anc (.insertRelease rest guarded)
  -- The destructor of `root_guard`.
  | .insertRelease [] true => (s.unguard p .idle).record (.returned p .inserted)
  | .insertRelease [] false => (s.goTo p .idle).record (.returned p .inserted)

end Steps

def start : Call K V → Point K V
  | .search key => .searchGuard key
  | .insert key val => .insertGuard key val

variable [LinearOrder K]

def step (maxKeys : ℕ) (s : LatchedBTree P K V) : Action P K V → LatchedBTree P K V
  | .call p call =>
    match s.points p with
    | .idle => (s.goTo p (start call)).record (.invoked p call)
    | _ => s
  | .go p => s.go p maxKeys (s.points p)

abbrev run (maxKeys : ℕ) (actions : List (Action P K V)) : LatchedBTree P K V := Runs.run (step maxKeys) {} actions

end LatchedBTree

end SystemLevel.Indexing
