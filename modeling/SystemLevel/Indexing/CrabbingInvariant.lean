import SystemLevel.Indexing.LatchCrabbing

namespace SystemLevel.Indexing

open Linearization SharedMutexes
open Node (Ascending childIndex insertIntoLeaf)

namespace ConcurrentBTree

variable {K V : Type} [LinearOrder K] {t t' : ConcurrentBTree K V} {maxKeys : ℕ} {map : K → Option V}

def Sprouted (t : ConcurrentBTree K V) : Prop := ∃ keys children, t.cells[t.root]? = some (Cell.internal keys children)

def Grown (maxKeys : ℕ) (map : K → Option V) (t : ConcurrentBTree K V) : Prop :=
  ∃ entries : List (K × V), built maxKeys entries = some t ∧ ∀ key, entries.reverse.lookup key = map key

namespace Grown

theorem init : Grown maxKeys (fun _ => none) (init : ConcurrentBTree K V) := ⟨[], rfl, fun _ => rfl⟩

theorem shape (h : Grown maxKeys map t) :
    (∃ keys values, t = ⟨[Cell.leaf keys values none], 0⟩) ∨ ∃ s low high lowValues highValues,
      t = ⟨[Cell.leaf low lowValues (some 2), Cell.internal [s] [0, 2], Cell.leaf high highValues none], 1⟩ := by
  obtain ⟨entries, hbuilt, -⟩ := h
  obtain ⟨t', ht', hlaid⟩ := laid_built maxKeys entries
  obtain rfl : t = t' := Option.some.inj (hbuilt.symm.trans ht')
  cases hroot : Node.built maxKeys entries with
  | leaf keys values =>
    rw [hroot] at hlaid
    cases hlaid
    exact Or.inl ⟨keys, values, rfl⟩
  | internal keys children =>
    rw [hroot] at hlaid
    cases hlaid
    exact Or.inr ⟨_, _, _, _, _, rfl⟩

theorem search (h : Grown maxKeys map t) (key : K) : t.search key = some (map key) := by
  obtain ⟨entries, hbuilt, hmap⟩ := h
  obtain ⟨t', ht', hlaid⟩ := laid_built maxKeys entries
  obtain rfl : t = t' := Option.some.inj (hbuilt.symm.trans ht')
  rw [(hlaid.spec (Node.shaped_built maxKeys entries)).1 key, hmap]

theorem insert (h : Grown maxKeys map t) {key : K} {val : V} (hinsert : t.insert maxKeys key val = some t') :
    Grown maxKeys (Function.update map key (some val)) t' := by
  obtain ⟨entries, hbuilt, hmap⟩ := h
  refine ⟨entries ++ [(key, val)], ?_, fun k => ?_⟩
  · rw [built] at hbuilt ⊢
    rw [List.foldlM_append, hbuilt]
    simpa using hinsert
  · rw [List.reverse_append, List.reverse_singleton, List.singleton_append, Function.update_apply]
    split_ifs with hk
    · rw [hk, List.lookup_cons_self]
    · rw [Lookup.lookup_cons_ne (Ne.symm hk), hmap]

theorem findLeaf_of_not_sprouted (h : Grown maxKeys map t) (hroot : ¬ t.Sprouted) (key : K) :
    t.findLeaf key = some t.root := by
  rcases h.shape with ⟨keys, values, rfl⟩ | ⟨s, low, high, lowValues, highValues, rfl⟩
  · rfl
  · exact absurd ⟨_, _, rfl⟩ hroot

theorem child_eq_findLeaf (h : Grown maxKeys map t) {keys : List K} {children : List ℕ}
    (hroot : t.cells[t.root]? = some (Cell.internal keys children)) (key : K) :
    children[childIndex key keys]? = t.findLeaf key := by
  rcases h.shape with ⟨keys', values, rfl⟩ | ⟨s, low, high, lowValues, highValues, rfl⟩
  · cases hroot
  · cases hroot
    rw [findLeaf_pair, childIndex_singleton]
    split_ifs <;> rfl

theorem exists_leaf (h : Grown maxKeys map t) (key : K) :
    ∃ a keys values next, t.findLeaf key = some a ∧ t.cells[a]? = some (Cell.leaf keys values next) ∧
      (t.Sprouted → a ≠ t.root) := by
  rcases h.shape with ⟨keys, values, rfl⟩ | ⟨s, low, high, lowValues, highValues, rfl⟩
  · refine ⟨0, keys, values, none, rfl, rfl, ?_⟩
    rintro ⟨keys', children, hroot⟩
    cases hroot
  · rw [findLeaf_pair]
    split_ifs
    · exact ⟨2, high, highValues, none, rfl, rfl, fun _ => Nat.succ_ne_self 1⟩
    · exact ⟨0, low, lowValues, some 2, rfl, rfl, fun _ => Nat.zero_ne_one⟩

theorem leaf_of_findLeaf (h : Grown maxKeys map t) {key : K} {a : ℕ} (hleaf : t.findLeaf key = some a) :
    (∃ keys values next, t.cells[a]? = some (Cell.leaf keys values next)) ∧ (t.Sprouted → a ≠ t.root) := by
  obtain ⟨b, keys, values, next, hb, hcell, hne⟩ := h.exists_leaf key
  obtain rfl : a = b := Option.some.inj (hleaf.symm.trans hb)
  exact ⟨⟨keys, values, next, hcell⟩, hne⟩

theorem root_leaf (h : Grown maxKeys map t) (hroot : ¬ t.Sprouted) :
    ∃ keys values next, t.cells[t.root]? = some (Cell.leaf keys values next) := by
  rcases h.shape with ⟨keys, values, rfl⟩ | ⟨s, low, high, lowValues, highValues, rfl⟩
  · exact ⟨keys, values, none, rfl⟩
  · exact absurd ⟨_, _, rfl⟩ hroot

end Grown

structure SameRoutes (t t' : ConcurrentBTree K V) : Prop where
  root : t'.root = t.root
  findLeaf : ∀ key, t'.findLeaf key = t.findLeaf key
  sprouted : t'.Sprouted ↔ t.Sprouted

theorem Grown.sameRoutes_setLeaf (h : Grown maxKeys map t) (hroot : t.Sprouted) {a : ℕ} {keys : List K}
    {values : List V} {next : Option ℕ} (hcell : t.cells[a]? = some (Cell.leaf keys values next))
    (contents : List K × List V) : SameRoutes t (t.setLeaf a contents next) := by
  rcases h.shape with ⟨keys', values', rfl⟩ | ⟨s, low, high, lowValues, highValues, rfl⟩
  · obtain ⟨keys, children, hroot⟩ := hroot
    cases hroot
  · rcases a with _ | _ | _ | a
    · exact ⟨rfl, fun key => (findLeaf_pair ..).trans (findLeaf_pair ..).symm, iff_of_true ⟨_, _, rfl⟩ ⟨_, _, rfl⟩⟩
    · cases hcell
    · exact ⟨rfl, fun key => (findLeaf_pair ..).trans (findLeaf_pair ..).symm, iff_of_true ⟨_, _, rfl⟩ ⟨_, _, rfl⟩⟩
    · cases hcell

end ConcurrentBTree

namespace Point

variable {K V : Type}

def kind : Point K V → Mode
  | idle | searchGuard _ | searchRoot _ | searchUnguard _ _ | searchNode _ _ | searchChild _ _ _ | searchLeave _ _ _
  | searchReturn _ _ => .shared
  | _ => .exclusive

def isGuarded : Point K V → Bool
  | searchRoot _ | searchUnguard _ _ | insertRoot _ _ | leafLatch _ _ _ | leafWrite _ _ _ | leafUnlatch _
  | insertUnguard | rootLatch _ _ _ | rootCheck _ _ _ => true
  | insertNode _ _ _ _ guarded | insertChild _ _ _ _ guarded | insertCheck _ _ _ _ guarded | insertDrop _ _ _ _ guarded
  | insertRelease _ guarded => guarded
  | _ => false

def latched : Point K V → List ℕ
  | searchUnguard _ curr | searchNode _ curr | searchChild _ curr _ | searchReturn curr _ | leafWrite _ _ curr
  | leafUnlatch curr | rootCheck _ _ curr => [curr]
  | searchLeave _ curr child => [curr, child]
  | insertNode _ _ _ lockedAncestors _ | insertChild _ _ _ lockedAncestors _ | insertRelease lockedAncestors _ =>
    lockedAncestors
  | insertCheck _ _ child lockedAncestors _ | insertDrop _ _ child lockedAncestors _ => lockedAncestors ++ [child]
  | _ => []

def guardMode (point : Point K V) : Option Mode := if point.isGuarded then some point.kind else none

def latchMode (point : Point K V) (n : ℕ) : Option Mode := if n ∈ point.latched then some point.kind else none

theorem latchMode_congr {point point' : Point K V} {n : ℕ} (hkind : point.kind = point'.kind)
    (hlatched : n ∈ point.latched ↔ n ∈ point'.latched) : point.latchMode n = point'.latchMode n := by
  simp only [latchMode, hkind, hlatched]

def phase : Point K V → Phase (Call K V) (Answer V)
  | idle => .idle
  | searchGuard key | searchRoot key | searchUnguard key _ | searchNode key _ | searchChild key _ _
  | searchLeave key _ _ => .called (.search key)
  | searchReturn _ result => .answered (.found result)
  | insertGuard key val | insertRoot key val | leafLatch key val _ | leafWrite key val _ | rootLatch key val _
  | rootCheck key val _ | insertNode key val _ _ _ | insertChild key val _ _ _ | insertCheck key val _ _ _
  | insertDrop key val _ _ _ => .called (.insert key val)
  | leafUnlatch _ | insertUnguard | insertRelease _ _ => .answered .inserted

variable [LinearOrder K]

def Placed (t : ConcurrentBTree K V) : Point K V → Prop
  | searchUnguard key curr | searchNode key curr => curr = t.root ∨ t.findLeaf key = some curr
  | searchChild key curr child | searchLeave key curr child =>
    t.Sprouted ∧ curr = t.root ∧ t.findLeaf key = some child
  | leafLatch _ _ leaf | leafWrite _ _ leaf => ¬ t.Sprouted ∧ leaf = t.root
  | rootLatch _ _ curr | rootCheck _ _ curr => t.Sprouted ∧ curr = t.root
  | insertNode key _ curr lockedAncestors _ => t.Sprouted ∧ ((curr = t.root ∧ lockedAncestors = [curr]) ∨
    (t.findLeaf key = some curr ∧ (lockedAncestors = [t.root, curr] ∨ lockedAncestors = [curr])))
  | insertChild key _ child lockedAncestors _ | insertCheck key _ child lockedAncestors _ =>
    t.Sprouted ∧ t.findLeaf key = some child ∧ lockedAncestors = [t.root]
  | insertDrop key _ child lockedAncestors _ =>
    t.Sprouted ∧ t.findLeaf key = some child ∧ (lockedAncestors = [t.root] ∨ lockedAncestors = [])
  | insertRelease lockedAncestors _ => lockedAncestors.Nodup
  | _ => True

theorem Placed.sameRoutes {t t' : ConcurrentBTree K V} {point : Point K V} (h : point.Placed t)
    (hroutes : t.SameRoutes t') : point.Placed t' := by
  cases point <;> simp only [Placed, hroutes.root, hroutes.findLeaf, hroutes.sprouted] at h ⊢ <;> exact h

theorem Placed.of_not_sprouted {t : ConcurrentBTree K V} {maxKeys : ℕ} {map : K → Option V} {point : Point K V}
    (h : point.Placed t) (hgrown : t.Grown maxKeys map) (hroot : ¬ t.Sprouted) (hguard : point.guardMode = none)
    (hlatch : point.latchMode t.root = none) (t' : ConcurrentBTree K V) : point.Placed t' := by
  cases point with
  | searchNode key curr =>
    rw [Placed, hgrown.findLeaf_of_not_sprouted hroot, Option.some.injEq, eq_comm (a := t.root), or_self] at h
    rw [latchMode, latched, h] at hlatch
    simp at hlatch
  | searchUnguard key curr => cases hguard
  | leafLatch key val leaf => cases hguard
  | leafWrite key val leaf => cases hguard
  | insertRelease lockedAncestors guarded => exact h
  | idle => trivial
  | searchGuard key => trivial
  | searchRoot key => trivial
  | searchReturn leaf result => trivial
  | insertGuard key val => trivial
  | insertRoot key val => trivial
  | leafUnlatch leaf => trivial
  | insertUnguard => trivial
  | _ => exact absurd h.1 hroot

end Point

def mapSpec (K V : Type) [DecidableEq K] : Spec (K → Option V) (Call K V) (Answer V) where
  init := fun _ => none
  apply map call :=
    match call with
    | .search _ => map
    | .insert key val => Function.update map key (some val)
  answer map call :=
    match call with
    | .search key => .found (map key)
    | .insert _ _ => .inserted

namespace LatchedBTree

variable {P K V : Type} [DecidableEq P] {rootLatch m : SharedMutex P} {latches : ℕ → SharedMutex P}
  {points : P → Point K V} {p : P} {point : Point K V} {n : ℕ}

structure Held (rootLatch : SharedMutex P) (latches : ℕ → SharedMutex P) (points : P → Point K V) : Prop where
  guards : ∀ p, rootLatch.mode p = (points p).guardMode
  nodes : ∀ n p, (latches n).mode p = (points p).latchMode n

namespace Held

theorem goTo (h : Held rootLatch latches points) (hguard : point.guardMode = (points p).guardMode)
    (hlatch : ∀ a, point.latchMode a = (points p).latchMode a) :
    Held rootLatch latches (Function.update points p point) := by
  constructor
  · intro q
    rw [h.guards, Function.update_apply]
    split_ifs with hq
    · rw [hguard, hq]
    · rfl
  · intro a q
    rw [h.nodes, Function.update_apply]
    split_ifs with hq
    · rw [hlatch, hq]
    · rfl

theorem setGuard (h : Held rootLatch latches points)
    (hm : ∀ q, m.mode q = if q = p then point.guardMode else rootLatch.mode q)
    (hlatch : ∀ a, point.latchMode a = (points p).latchMode a) :
    Held m latches (Function.update points p point) := by
  constructor
  · intro q
    rw [hm, h.guards, Function.update_apply]
    split_ifs <;> rfl
  · intro a q
    rw [h.nodes, Function.update_apply]
    split_ifs with hq
    · rw [hlatch, hq]
    · rfl

theorem setLatch (h : Held rootLatch latches points)
    (hm : ∀ q, m.mode q = if q = p then point.latchMode n else (latches n).mode q)
    (hguard : point.guardMode = (points p).guardMode)
    (hlatch : ∀ a, a ≠ n → point.latchMode a = (points p).latchMode a) :
    Held rootLatch (Function.update latches n m) (Function.update points p point) := by
  constructor
  · intro q
    rw [h.guards, Function.update_apply]
    split_ifs with hq
    · rw [hguard, hq]
    · rfl
  · intro a q
    rw [Function.update_apply, Function.update_apply]
    by_cases ha : a = n
    · rw [if_pos ha, hm, ha, h.nodes]
      split_ifs <;> rfl
    · rw [if_neg ha, h.nodes]
      split_ifs with hq
      · rw [hlatch a ha, hq]
      · rfl

end Held

variable [LinearOrder K] {s : LatchedBTree P K V} {maxKeys : ℕ}

structure Inv (maxKeys : ℕ) (s : LatchedBTree P K V) : Prop where
  held : Held s.rootLatch s.latches s.points
  placed : ∀ p, (s.points p).Placed s.tree
  linear : ∃ map, Linearized (mapSpec K V) s.events map (fun p => (s.points p).phase) ∧ s.tree.Grown maxKeys map

namespace Inv

theorem init : Inv maxKeys ({} : LatchedBTree P K V) := by
  refine ⟨⟨fun p => ?_, fun n p => ?_⟩, fun p => trivial, _, .start fun p => rfl, .init⟩
  · exact SharedMutex.mode_free p
  · exact SharedMutex.mode_free p

theorem grown (h : Inv maxKeys s) : ∃ map, s.tree.Grown maxKeys map := h.linear.imp fun _ hmap => hmap.2

theorem placed_update (h : Inv maxKeys s) (hplaced : point.Placed s.tree) (q : P) :
    (Function.update s.points p point q).Placed s.tree := by
  rw [Function.update_apply]
  split_ifs
  · exact hplaced
  · exact h.placed q

omit [LinearOrder K] in
theorem phases_of_ne {points : P → Point K V} (q : P) (hq : q ≠ p) :
    (Function.update points p point q).phase = (points q).phase := by
  rw [Function.update_of_ne hq]

theorem call (h : Inv maxKeys s) (hp : s.points p = .idle) (call : Call K V) :
    Inv maxKeys ((s.goTo p (start call)).record (.invoked p call)) := by
  obtain ⟨map, hlinear, hgrown⟩ := h.linear
  refine ⟨h.held.goTo ?_ ?_, h.placed_update ?_, map, hlinear.invoke ?_ ?_ phases_of_ne, hgrown⟩
  · rw [hp]
    cases call <;> rfl
  · intro a
    rw [hp]
    cases call <;> simp [start, Point.latchMode, Point.latched]
  · cases call <;> trivial
  · rw [hp]
    rfl
  · change (Function.update s.points p (start call) p).phase = _
    rw [Function.update_self]
    cases call <;> rfl

section Moves

variable {old : Point K V} {mode : Mode} {locked : Option (SharedMutex P)} {tree : ConcurrentBTree K V}
  {call : Call K V} {answer : Answer V} (h : Inv maxKeys s) (hp : s.points p = old)

include h hp

theorem effect (hcalled : old.phase = .called call) (hphase : point.phase = .answered answer)
    (hguard : point.guardMode = old.guardMode) (hlatch : ∀ a, point.latchMode a = old.latchMode a)
    (hplaced : point.Placed tree) (hothers : ∀ q, q ≠ p → (s.points q).Placed tree)
    (happly : ∀ map, s.tree.Grown maxKeys map →
      (mapSpec K V).answer map call = answer ∧ tree.Grown maxKeys ((mapSpec K V).apply map call)) :
    Inv maxKeys (({ s.goTo p point with tree } : LatchedBTree P K V).record (.effected p call answer)) := by
  subst hp
  obtain ⟨map, hlinear, hgrown⟩ := h.linear
  obtain ⟨hanswer, hafter⟩ := happly map hgrown
  refine ⟨h.held.goTo hguard hlatch, fun q => ?_, _, ?_, hafter⟩
  · change (Function.update s.points p point q).Placed tree
    rw [Function.update_apply]
    split_ifs with hq
    · exact hplaced
    · exact hothers q hq
  · subst hanswer
    refine hlinear.effect hcalled ?_ phases_of_ne
    change (Function.update s.points p point p).phase = _
    rw [Function.update_self]
    exact hphase

theorem finish (hphase : old.phase = .answered answer)
    (hheld : Held rootLatch latches (Function.update s.points p .idle)) :
    Inv maxKeys (({ s.goTo p .idle with rootLatch, latches } : LatchedBTree P K V).record (.returned p answer)) := by
  subst hp
  refine ⟨hheld, h.placed_update trivial, ?_⟩
  obtain ⟨map, hlinear, hgrown⟩ := h.linear
  refine ⟨map, hlinear.finish hphase ?_ phases_of_ne, hgrown⟩
  change (Function.update s.points p Point.idle p).phase = _
  rw [Function.update_self]
  rfl

variable (hphase : point.phase = old.phase) (hplaced : point.Placed s.tree)

include hphase hplaced

theorem silent (hheld : Held rootLatch latches (Function.update s.points p point)) :
    Inv maxKeys { s.goTo p point with rootLatch, latches } := by
  subst hp
  refine ⟨hheld, h.placed_update hplaced, ?_⟩
  obtain ⟨map, hlinear, hgrown⟩ := h.linear
  refine ⟨map, hlinear.congr fun q => ?_, hgrown⟩
  change (Function.update s.points p point q).phase = _
  rw [Function.update_apply]
  split_ifs with hq
  · rw [hphase, hq]
  · rfl

theorem goTo (hguard : point.guardMode = old.guardMode) (hlatch : ∀ a, point.latchMode a = old.latchMode a) :
    Inv maxKeys (s.goTo p point) := by
  subst hp
  exact h.silent rfl hphase hplaced (h.held.goTo hguard hlatch)

theorem lockGuard
    (hlocked : ∀ m, locked = some m → ∀ q, m.mode q = if q = p then some mode else s.rootLatch.mode q)
    (hguard : point.guardMode = some mode) (hlatch : ∀ a, point.latchMode a = old.latchMode a) :
    Inv maxKeys (s.lockGuard p locked point) := by
  subst hp
  cases locked with
  | none => exact h
  | some m =>
    rw [← hguard] at hlocked
    exact h.silent rfl hphase hplaced (h.held.setGuard (hlocked m rfl) hlatch)

theorem lockNode
    (hlocked : ∀ m, locked = some m → ∀ q, m.mode q = if q = p then some mode else (s.latches n).mode q)
    (hn : point.latchMode n = some mode) (hguard : point.guardMode = old.guardMode)
    (hlatch : ∀ a, a ≠ n → point.latchMode a = old.latchMode a) :
    Inv maxKeys (s.lockNode p n locked point) := by
  subst hp
  cases locked with
  | none => exact h
  | some m =>
    rw [← hn] at hlocked
    exact h.silent rfl hphase hplaced (h.held.setLatch (hlocked m rfl) hguard hlatch)

end Moves

section Releases

variable {old : Point K V} (h : Inv maxKeys s) (hp : s.points p = old) (mode : Mode)

include h hp

theorem held_unguard (howns : old.guardMode = some mode) (hguard : point.guardMode = none)
    (hlatch : ∀ a, point.latchMode a = old.latchMode a) :
    Held (s.rootLatch.release mode p) s.latches (Function.update s.points p point) := by
  subst hp
  have hmode := SharedMutex.mode_release ((h.held.guards p).trans howns)
  rw [← hguard] at hmode
  exact h.held.setGuard hmode hlatch

theorem held_unlatch (howns : old.latchMode n = some mode) (hn : point.latchMode n = none)
    (hguard : point.guardMode = old.guardMode) (hlatch : ∀ a, a ≠ n → point.latchMode a = old.latchMode a) :
    Held s.rootLatch (Function.update s.latches n ((s.latches n).release mode p))
      (Function.update s.points p point) := by
  subst hp
  have hmode := SharedMutex.mode_release ((h.held.nodes n p).trans howns)
  rw [← hn] at hmode
  exact h.held.setLatch hmode hguard hlatch

end Releases

end Inv

end LatchedBTree

end SystemLevel.Indexing
