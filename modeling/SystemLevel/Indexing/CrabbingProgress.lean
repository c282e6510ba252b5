import SystemLevel.Indexing.CrabbingSteps

namespace SystemLevel.Indexing

open SharedMutexes
open Node (childIndex insertIntoLeaf)

namespace ConcurrentBTree

variable {K V : Type} {t : ConcurrentBTree K V} {n : ℕ}

def isLeaf (t : ConcurrentBTree K V) (n : ℕ) : Bool :=
  match t.cells[n]? with
  | some (Cell.leaf _ _ _) => true
  | _ => false

theorem isLeaf_iff : t.isLeaf n = true ↔ ∃ keys values next, t.cells[n]? = some (Cell.leaf keys values next) := by
  unfold isLeaf
  split
  · next keys values next hcell => exact iff_of_true rfl ⟨keys, values, next, hcell⟩
  · next hcell =>
    refine iff_of_false Bool.false_ne_true ?_
    rintro ⟨keys, values, next, hleaf⟩
    exact hcell keys values next hleaf

theorem Sprouted.not_isLeaf (hroot : t.Sprouted) : ¬ t.isLeaf t.root = true := by
  obtain ⟨keys, children, hroot⟩ := hroot
  rw [isLeaf_iff]
  rintro ⟨keys', values, next, hleaf⟩
  rw [hroot] at hleaf
  cases hleaf

theorem isLeaf_setLeaf {a : ℕ} {contents : List K × List V} {next : Option ℕ} (hn : t.isLeaf n = true) :
    (t.setLeaf a contents next).isLeaf n = true := by
  rw [isLeaf_iff] at hn ⊢
  obtain ⟨keys, values, next', hcell⟩ := hn
  by_cases ha : a = n
  · subst ha
    exact ⟨_, _, _, List.getElem?_set_self (List.getElem?_eq_some_iff.mp hcell).1⟩
  · exact ⟨_, _, _, (List.getElem?_set_ne ha).trans hcell⟩

theorem isLeaf_splitRoot {contents : List K × List V} {next : Option ℕ} (hn : t.isLeaf n = true) :
    (t.splitRoot contents next).isLeaf n = true := by
  rw [isLeaf_iff] at hn ⊢
  obtain ⟨keys, values, next', hcell⟩ := hn
  obtain ⟨hlt, -⟩ := List.getElem?_eq_some_iff.mp hcell
  rw [splitRoot]
  dsimp only
  rw [List.getElem?_append_left (by rwa [List.length_set])]
  by_cases hroot : t.root = n
  · subst hroot
    exact ⟨_, _, _, List.getElem?_set_self hlt⟩
  · exact ⟨_, _, _, (List.getElem?_set_ne hroot).trans hcell⟩

end ConcurrentBTree

namespace Point

variable {K V : Type}

def touches : Point K V → Option (ℕ × Mode)
  | searchNode _ curr | rootCheck _ _ curr | insertCheck _ _ curr _ _ => some (curr, .shared)
  | leafWrite _ _ curr | insertNode _ _ curr _ _ => some (curr, .exclusive)
  | _ => none

def touchesRoot : Point K V → Option Mode
  | searchRoot _ | insertRoot _ _ => some .shared
  | leafWrite _ _ _ => some .exclusive
  | _ => none

def awaits (root : ℕ) : Point K V → Option (Option ℕ)
  | searchGuard _ | insertGuard _ _ => some none
  | searchRoot _ => some (some root)
  | searchChild _ _ n | leafLatch _ _ n | rootLatch _ _ n | insertChild _ _ n _ _ => some (some n)
  | _ => none

def Holds (point : Point K V) : Option ℕ → Prop
  | none => point.guardMode ≠ none
  | some n => point.latchMode n ≠ none

def work (isLeaf : ℕ → Bool) : Point K V → ℕ
  | idle => 0
  | searchGuard _ => 8
  | searchRoot _ => 7
  | searchUnguard _ _ => 6
  | searchNode _ curr => if isLeaf curr then 2 else 5
  | searchChild _ _ _ => 4
  | searchLeave _ _ _ => 3
  | searchReturn _ _ => 1
  | insertGuard _ _ => 13
  | insertRoot _ _ => 12
  | leafLatch _ _ _ => 4
  | leafWrite _ _ _ => 3
  | leafUnlatch _ => 2
  | insertUnguard => 1
  | rootLatch _ _ _ => 11
  | rootCheck _ _ _ => 10
  | insertNode _ _ curr lockedAncestors _ => lockedAncestors.length + if isLeaf curr then 2 else 8
  | insertChild _ _ _ lockedAncestors _ => lockedAncestors.length + 7
  | insertCheck _ _ _ lockedAncestors _ => lockedAncestors.length + 6
  | insertDrop _ _ _ lockedAncestors _ => lockedAncestors.length + 4
  | insertRelease lockedAncestors _ => lockedAncestors.length + 1

theorem work_mono {isLeaf isLeaf' : ℕ → Bool} (h : ∀ n, isLeaf n = true → isLeaf' n = true) (point : Point K V) :
    point.work isLeaf' ≤ point.work isLeaf := by
  cases point with
  | searchNode key curr =>
    simp only [work]
    by_cases hleaf : isLeaf curr = true
    · rw [if_pos hleaf, if_pos (h curr hleaf)]
    · rw [if_neg hleaf]
      split_ifs <;> omega
  | insertNode key val curr lockedAncestors guarded =>
    simp only [work]
    by_cases hleaf : isLeaf curr = true
    · rw [if_pos hleaf, if_pos (h curr hleaf)]
    · rw [if_neg hleaf]
      split_ifs <;> omega
  | _ => exact le_rfl

theorem guardMode_of_touchesRoot {point : Point K V} (h : point.touchesRoot ≠ none) : point.guardMode ≠ none := by
  cases point with
  | searchRoot key => exact Option.some_ne_none _
  | insertRoot key val => exact Option.some_ne_none _
  | leafWrite key val leaf => exact Option.some_ne_none _
  | _ => exact absurd rfl h

theorem guardMode_of_changesRoot {point : Point K V} (h : point.touchesRoot = some .exclusive) :
    point.guardMode = some .exclusive := by
  cases point with
  | leafWrite key val leaf => rfl
  | _ => cases h

variable [LinearOrder K] {t : ConcurrentBTree K V}

theorem mem_latched_of_touches {point : Point K V} (hplaced : point.Placed t) {n : ℕ} {mode : Mode}
    (h : point.touches = some (n, mode)) : n ∈ point.latched := by
  cases point with
  | searchNode key curr =>
    cases h
    exact List.mem_singleton_self n
  | rootCheck key val curr =>
    cases h
    exact List.mem_singleton_self n
  | leafWrite key val curr =>
    cases h
    exact List.mem_singleton_self n
  | insertCheck key val child lockedAncestors guarded =>
    cases h
    exact List.mem_append_right _ (List.mem_singleton_self n)
  | insertNode key val curr lockedAncestors guarded =>
    cases h
    obtain ⟨-, ⟨-, rfl⟩ | ⟨-, rfl | rfl⟩⟩ := hplaced
    · exact List.mem_singleton_self n
    · exact List.mem_cons_of_mem _ (List.mem_singleton_self n)
    · exact List.mem_singleton_self n
  | _ => cases h

omit [LinearOrder K] in
theorem kind_of_changes {point : Point K V} {n : ℕ} (h : point.touches = some (n, .exclusive)) :
    point.kind = .exclusive := by
  cases point with
  | leafWrite key val curr => rfl
  | insertNode key val curr lockedAncestors guarded => rfl
  | _ => cases h

end Point

namespace LatchedBTree

variable {P K V : Type} [DecidableEq P] [LinearOrder K] {s : LatchedBTree P K V} {maxKeys : ℕ} {p : P}

theorem accesses_never_race (maxKeys : ℕ) (actions : List (Action P K V)) :
    let s := run maxKeys actions
    (∀ n, (∀ p, (s.points p).touches ≠ some (n, .exclusive)) ∨
      {p | ∃ mode, (s.points p).touches = some (n, mode)}.Subsingleton) ∧
    ((∀ p, (s.points p).touchesRoot ≠ some .exclusive) ∨ {p | (s.points p).touchesRoot ≠ none}.Subsingleton) := by
  intro s
  have h : s.Inv maxKeys := inv_run maxKeys actions
  constructor
  · intro n
    by_cases hchanges : ∃ p, (s.points p).touches = some (n, .exclusive)
    · right
      obtain ⟨p, hp⟩ := hchanges
      have hexclusive : (s.latches n).mode p = some .exclusive := by
        rw [h.held.nodes, Point.latchMode, if_pos (Point.mem_latched_of_touches (h.placed p) hp),
          Point.kind_of_changes hp]
      have halone : ∀ q, (∃ mode, (s.points q).touches = some (n, mode)) → q = p := by
        rintro q ⟨mode, hq⟩
        apply SharedMutex.alone hexclusive
        rw [h.held.nodes, Point.latchMode, if_pos (Point.mem_latched_of_touches (h.placed q) hq)]
        exact Option.some_ne_none _
      exact fun q hq r hr => (halone q hq).trans (halone r hr).symm
    · left
      exact fun p hp => hchanges ⟨p, hp⟩
  · by_cases hchanges : ∃ p, (s.points p).touchesRoot = some .exclusive
    · right
      obtain ⟨p, hp⟩ := hchanges
      have hexclusive : s.rootLatch.mode p = some .exclusive := by
        rw [h.held.guards, Point.guardMode_of_changesRoot hp]
      have halone : ∀ q, (s.points q).touchesRoot ≠ none → q = p := by
        intro q hq
        apply SharedMutex.alone hexclusive
        rw [h.held.guards]
        exact Point.guardMode_of_touchesRoot hq
      exact fun q hq r hr => (halone q hq).trans (halone r hr).symm
    · left
      exact fun p hp => hchanges ⟨p, hp⟩

structure Advances (s s' : LatchedBTree P K V) (p : P) (point : Point K V) : Prop where
  points : s'.points = Function.update s.points p point
  leaves : ∀ n, s.tree.isLeaf n = true → s'.tree.isLeaf n = true
  work : point.work s'.tree.isLeaf < (s.points p).work s.tree.isLeaf

def Waits (s : LatchedBTree P K V) (p : P) : Prop :=
  ∃ l, (s.points p).awaits s.tree.root = some l ∧ ∃ q, (s.points q).Holds l

omit [LinearOrder K] in
theorem advances_of_tree {s' : LatchedBTree P K V} {old point : Point K V} (hp : s.points p = old)
    (hpoints : s'.points = Function.update s.points p point) (htree : s'.tree = s.tree)
    (hwork : point.work s.tree.isLeaf < old.work s.tree.isLeaf) : Advances s s' p point := by
  subst hp
  exact ⟨hpoints, fun n => by rw [htree]; exact id, by rw [htree]; exact hwork⟩

namespace Inv

variable {old point : Point K V}

theorem isLeaf_child (h : Inv maxKeys s) {key : K} {child : ℕ} (hleaf : s.tree.findLeaf key = some child) :
    s.tree.isLeaf child = true := by
  obtain ⟨map, hgrown⟩ := h.grown
  exact ConcurrentBTree.isLeaf_iff.mpr (hgrown.leaf_of_findLeaf hleaf).1

theorem lockGuard_advances (h : Inv maxKeys s) (hp : s.points p = old) {locked : Option (SharedMutex P)}
    (hlocked : locked = none → ∃ q, s.rootLatch.mode q ≠ none) (hawaits : old.awaits s.tree.root = some none)
    (hwork : point.work s.tree.isLeaf < old.work s.tree.isLeaf) :
    s.Waits p ∨ ∃ point', Advances s (s.lockGuard p locked point) p point' := by
  cases locked with
  | none =>
    obtain ⟨q, hq⟩ := hlocked rfl
    rw [h.held.guards] at hq
    exact Or.inl ⟨none, hp ▸ hawaits, q, hq⟩
  | some m => exact Or.inr ⟨point, advances_of_tree hp rfl rfl hwork⟩

theorem lockNode_advances (h : Inv maxKeys s) (hp : s.points p = old) {n : ℕ} {locked : Option (SharedMutex P)}
    (hlocked : locked = none → ∃ q, (s.latches n).mode q ≠ none) (hawaits : old.awaits s.tree.root = some (some n))
    (hwork : point.work s.tree.isLeaf < old.work s.tree.isLeaf) :
    s.Waits p ∨ ∃ point', Advances s (s.lockNode p n locked point) p point' := by
  cases locked with
  | none =>
    obtain ⟨q, hq⟩ := hlocked rfl
    rw [h.held.nodes] at hq
    exact Or.inl ⟨some n, hp ▸ hawaits, q, hq⟩
  | some m => exact Or.inr ⟨point, advances_of_tree hp rfl rfl hwork⟩

theorem leaf_or_root (h : Inv maxKeys s) {key : K} {curr : ℕ}
    (hplaced : curr = s.tree.root ∨ s.tree.findLeaf key = some curr) :
    (∃ keys values next, s.tree.findLeaf key = some curr ∧ s.tree.cells[curr]? = some (Cell.leaf keys values next)) ∨
      ∃ keys children child, s.tree.Sprouted ∧ curr = s.tree.root ∧ s.tree.findLeaf key = some child ∧
        s.tree.cells[curr]? = some (Cell.internal keys children) ∧ children[childIndex key keys]? = some child := by
  obtain ⟨map, hgrown⟩ := h.grown
  obtain ⟨child, keys, values, next, hchild, hcell, -⟩ := hgrown.exists_leaf key
  by_cases hleaf : s.tree.findLeaf key = some curr
  · obtain rfl : child = curr := Option.some.inj (hchild.symm.trans hleaf)
    exact Or.inl ⟨keys, values, next, hleaf, hcell⟩
  · obtain rfl : curr = s.tree.root := hplaced.resolve_right hleaf
    have hsprouted : s.tree.Sprouted := by
      by_contra hunsprouted
      exact hleaf (hgrown.findLeaf_of_not_sprouted hunsprouted key)
    obtain ⟨keys, children, hroot⟩ := id hsprouted
    exact Or.inr ⟨keys, children, child, hsprouted, rfl, hchild, hroot,
      (hgrown.child_eq_findLeaf hroot key).trans hchild⟩

theorem searchAt_advances (h : Inv maxKeys s) {key : K} {curr : ℕ} (hp : s.points p = .searchNode key curr) :
    ∃ point, Advances s (s.searchAt p key curr) p point := by
  unfold LatchedBTree.searchAt
  rcases h.leaf_or_root (h.placed_at hp) with ⟨keys, values, next, hleaf, hcell⟩ | ⟨keys, children, child, hsprouted,
    rfl, hleaf, hcell, hchild⟩
  · obtain ⟨map, hgrown⟩ := h.grown
    have hsearch := hgrown.search key
    rw [ConcurrentBTree.search, hleaf, Option.bind_some, hcell] at hsearch
    rw [hcell]
    dsimp only at hsearch ⊢
    rw [hsearch]
    refine ⟨_, advances_of_tree hp rfl rfl ?_⟩
    simp [Point.work, h.isLeaf_child hleaf]
  · rw [hcell]
    dsimp only
    rw [hchild]
    refine ⟨_, advances_of_tree hp rfl rfl ?_⟩
    simp [Point.work, hsprouted.not_isLeaf]

theorem insertAt_advances (h : Inv maxKeys s) {key : K} {val : V} {curr : ℕ} {lockedAncestors : List ℕ}
    {guarded : Bool} (hp : s.points p = .insertNode key val curr lockedAncestors guarded) :
    ∃ point, Advances s (s.insertAt p key val curr lockedAncestors guarded) p point := by
  have hplaced := (h.placed_at hp).2.imp And.left And.left
  unfold LatchedBTree.insertAt
  rcases h.leaf_or_root hplaced with ⟨keys, values, next, hleaf, hcell⟩ | ⟨keys, children, child, hsprouted, rfl, hleaf,
    hcell, hchild⟩
  · rw [hcell]
    refine ⟨_, rfl, fun n => ConcurrentBTree.isLeaf_setLeaf, ?_⟩
    rw [hp]
    simp [Point.work, h.isLeaf_child hleaf]
  · rw [hcell]
    dsimp only
    rw [hchild]
    refine ⟨_, advances_of_tree hp rfl rfl ?_⟩
    simp [Point.work, hsprouted.not_isLeaf]

theorem writeRoot_advances (h : Inv maxKeys s) {key : K} {val : V} {leaf : ℕ}
    (hp : s.points p = .leafWrite key val leaf) : ∃ point, Advances s (s.writeRoot p maxKeys key val leaf) p point := by
  obtain ⟨hroot, rfl⟩ := h.placed_at hp
  obtain ⟨map, hgrown⟩ := h.grown
  obtain ⟨keys, values, next, hcell⟩ := hgrown.root_leaf hroot
  unfold LatchedBTree.writeRoot
  rw [hcell]
  refine ⟨_, rfl, fun n hn => ?_, ?_⟩
  · dsimp only [record]
    split_ifs
    · exact ConcurrentBTree.isLeaf_splitRoot hn
    · exact ConcurrentBTree.isLeaf_setLeaf hn
  · rw [hp]
    exact Nat.lt_succ_self 2

theorem insertRoot_advances (h : Inv maxKeys s) {key : K} {val : V} (hp : s.points p = .insertRoot key val) :
    ∃ point, Advances s (s.go p maxKeys (.insertRoot key val)) p point := by
  obtain ⟨map, hgrown⟩ := h.grown
  unfold LatchedBTree.go
  by_cases hroot : s.tree.Sprouted
  · obtain ⟨keys, children, hcell⟩ := hroot
    simp only [hcell]
    exact ⟨_, advances_of_tree hp rfl rfl (Nat.lt_succ_self 11)⟩
  · obtain ⟨keys, values, next, hcell⟩ := hgrown.root_leaf hroot
    simp only [hcell]
    exact ⟨_, advances_of_tree hp rfl rfl (Nat.lt_add_of_pos_right (Nat.succ_pos 7))⟩

theorem rootCheck_advances (h : Inv maxKeys s) {key : K} {val : V} {curr : ℕ}
    (hp : s.points p = .rootCheck key val curr) :
    ∃ point, Advances s (s.go p maxKeys (.rootCheck key val curr)) p point := by
  obtain ⟨hsprouted, rfl⟩ := h.placed_at hp
  have hwork (guarded : Bool) : (Point.insertNode key val s.tree.root [s.tree.root] guarded).work s.tree.isLeaf <
      (Point.rootCheck key val s.tree.root).work s.tree.isLeaf := by
    simp [Point.work, hsprouted.not_isLeaf]
  obtain ⟨keys, children, hcell⟩ := hsprouted
  unfold LatchedBTree.go
  simp only [hcell]
  split_ifs
  · exact ⟨_, advances_of_tree hp rfl rfl (hwork false)⟩
  · exact ⟨_, advances_of_tree hp rfl rfl (hwork true)⟩

theorem insertCheck_advances (h : Inv maxKeys s) {key : K} {val : V} {child : ℕ} {lockedAncestors : List ℕ}
    {guarded : Bool} (hp : s.points p = .insertCheck key val child lockedAncestors guarded) :
    ∃ point, Advances s (s.go p maxKeys (.insertCheck key val child lockedAncestors guarded)) p point := by
  obtain ⟨-, hleaf, -⟩ := h.placed_at hp
  have hisLeaf := h.isLeaf_child hleaf
  obtain ⟨keys, values, next, hcell⟩ := ConcurrentBTree.isLeaf_iff.mp hisLeaf
  unfold LatchedBTree.go
  simp only [hcell]
  split_ifs
  · exact ⟨_, advances_of_tree hp rfl rfl (by simp [Point.work])⟩
  · exact ⟨_, advances_of_tree hp rfl rfl (by simp [Point.work, hisLeaf])⟩

theorem insertDrop_advances (h : Inv maxKeys s) {key : K} {val : V} {child : ℕ} {lockedAncestors : List ℕ}
    {guarded : Bool} (hp : s.points p = .insertDrop key val child lockedAncestors guarded) :
    ∃ point, Advances s (s.go p maxKeys (.insertDrop key val child lockedAncestors guarded)) p point := by
  obtain ⟨-, hleaf, -⟩ := h.placed_at hp
  have hisLeaf := h.isLeaf_child hleaf
  cases lockedAncestors with
  | cons anc rest => exact ⟨_, advances_of_tree hp rfl rfl (by simp [Point.work])⟩
  | nil =>
    cases guarded with
    | true => exact ⟨_, advances_of_tree hp rfl rfl (by simp [Point.work, hisLeaf])⟩
    | false => exact ⟨_, advances_of_tree hp rfl rfl (by simp [Point.work, hisLeaf])⟩

theorem advances (h : Inv maxKeys s) (hbusy : s.points p ≠ .idle) :
    s.Waits p ∨ ∃ point, Advances s (s.go p maxKeys (s.points p)) p point := by
  cases hp : s.points p with
  | idle => exact absurd hp hbusy
  | searchGuard key => exact h.lockGuard_advances hp SharedMutex.holder_of_lockShared_eq_none rfl (Nat.lt_succ_self 7)
  | searchRoot key => exact h.lockNode_advances hp SharedMutex.holder_of_lockShared_eq_none rfl (Nat.lt_succ_self 6)
  | searchUnguard key curr =>
    refine Or.inr ⟨_, advances_of_tree hp rfl rfl ?_⟩
    simp only [Point.work]
    split_ifs <;> decide
  | searchNode key curr => exact Or.inr (h.searchAt_advances hp)
  | searchChild key curr child =>
    exact h.lockNode_advances hp SharedMutex.holder_of_lockShared_eq_none rfl (Nat.lt_succ_self 3)
  | searchLeave key curr child =>
    have hplaced := h.placed_at hp
    refine Or.inr ⟨_, advances_of_tree hp rfl rfl ?_⟩
    simp [Point.work, h.isLeaf_child hplaced.2.2]
  | searchReturn leaf result => exact Or.inr ⟨_, advances_of_tree hp rfl rfl Nat.one_pos⟩
  | insertGuard key val => exact h.lockGuard_advances hp SharedMutex.holder_of_lock_eq_none rfl (Nat.lt_succ_self 12)
  | insertRoot key val => exact Or.inr (h.insertRoot_advances hp)
  | leafLatch key val leaf => exact h.lockNode_advances hp SharedMutex.holder_of_lock_eq_none rfl (Nat.lt_succ_self 3)
  | leafWrite key val leaf => exact Or.inr (h.writeRoot_advances hp)
  | leafUnlatch leaf => exact Or.inr ⟨_, advances_of_tree hp rfl rfl (Nat.lt_succ_self 1)⟩
  | insertUnguard => exact Or.inr ⟨_, advances_of_tree hp rfl rfl Nat.one_pos⟩
  | rootLatch key val curr => exact h.lockNode_advances hp SharedMutex.holder_of_lock_eq_none rfl (Nat.lt_succ_self 10)
  | rootCheck key val curr => exact Or.inr (h.rootCheck_advances hp)
  | insertNode key val curr lockedAncestors guarded => exact Or.inr (h.insertAt_advances hp)
  | insertChild key val child lockedAncestors guarded =>
    exact h.lockNode_advances hp SharedMutex.holder_of_lock_eq_none rfl (Nat.lt_succ_self _)
  | insertCheck key val child lockedAncestors guarded => exact Or.inr (h.insertCheck_advances hp)
  | insertDrop key val child lockedAncestors guarded => exact Or.inr (h.insertDrop_advances hp)
  | insertRelease lockedAncestors guarded =>
    right
    cases lockedAncestors with
    | cons anc rest => exact ⟨_, advances_of_tree hp rfl rfl (by simp [Point.work])⟩
    | nil =>
      cases guarded with
      | true => exact ⟨_, advances_of_tree hp rfl rfl Nat.one_pos⟩
      | false => exact ⟨_, advances_of_tree hp rfl rfl Nat.one_pos⟩

/-- `root_latch_` is taken before the root, and the root before the other nodes. -/
def rank (root : ℕ) : Option ℕ → ℕ
  | none => 0
  | some n => if n = root then 1 else 2

theorem rank_le (root : ℕ) (l : Option ℕ) : rank root l ≤ 2 := by
  cases l with
  | none => exact Nat.zero_le 2
  | some n =>
    rw [rank]
    split_ifs <;> decide

theorem rank_lt (h : Inv maxKeys s) {l l' : Option ℕ} (hawaits : (s.points p).awaits s.tree.root = some l)
    (hholds : (s.points p).Holds l') : rank s.tree.root l' < rank s.tree.root l := by
  have hplaced := h.placed p
  generalize s.points p = point at hawaits hholds hplaced
  -- what is held while something is awaited
  have hheld : ∀ n, l' = some n → n ∈ point.latched := by
    rintro n rfl
    by_contra hn
    exact hholds (if_neg hn)
  cases point with
  | searchGuard key =>
    cases l' with
    | none => exact absurd rfl hholds
    | some n => exact absurd (hheld n rfl) List.not_mem_nil
  | insertGuard key val =>
    cases l' with
    | none => exact absurd rfl hholds
    | some n => exact absurd (hheld n rfl) List.not_mem_nil
  | searchRoot key =>
    cases hawaits
    cases l' with
    | none => simp [rank]
    | some n => exact absurd (hheld n rfl) List.not_mem_nil
  | leafLatch key val leaf =>
    cases hawaits
    cases l' with
    | none =>
      obtain ⟨-, rfl⟩ := hplaced
      simp [rank]
    | some n => exact absurd (hheld n rfl) List.not_mem_nil
  | rootLatch key val curr =>
    cases hawaits
    cases l' with
    | none =>
      obtain ⟨-, rfl⟩ := hplaced
      simp [rank]
    | some n => exact absurd (hheld n rfl) List.not_mem_nil
  | searchChild key curr child =>
    cases hawaits
    obtain ⟨hsprouted, rfl, hleaf⟩ := hplaced
    have hne := h.child_ne_root hsprouted hleaf
    cases l' with
    | none => simp [rank, hne]
    | some n =>
      obtain rfl := List.mem_singleton.mp (hheld n rfl)
      simp [rank, hne]
  | insertChild key val child lockedAncestors guarded =>
    cases hawaits
    obtain ⟨hsprouted, hleaf, rfl⟩ := hplaced
    have hne := h.child_ne_root hsprouted hleaf
    cases l' with
    | none => simp [rank, hne]
    | some n =>
      obtain rfl := List.mem_singleton.mp (hheld n rfl)
      simp [rank, hne]
  | _ => cases hawaits

theorem exists_advances (h : Inv maxKeys s) (hbusy : s.points p ≠ .idle) :
    ∃ q point, Advances s (s.step maxKeys (.go q)) q point := by
  obtain ⟨q, hq, hholds⟩ := exists_not_blocked s.Waits (rank s.tree.root) 2 (rank_le s.tree.root)
    (fun q l l' hawaits hholds => h.rank_lt hawaits hholds) (fun q hq => hq) p
  have hbusy : s.points q ≠ .idle := by
    rcases hholds with rfl | ⟨l, hl⟩
    · exact hbusy
    · intro hidle
      rw [hidle] at hl
      cases l <;> exact hl rfl
  exact ⟨q, (h.advances hbusy).resolve_left hq⟩

theorem exists_finish (n : ℕ) (h : Inv maxKeys s) (threads : Finset P) (hothers : ∀ q, q ∉ threads → s.points q = .idle)
    (hwork : ∑ q ∈ threads, (s.points q).work s.tree.isLeaf ≤ n) :
    ∃ more : List P, ∀ q, (Runs.run (LatchedBTree.step maxKeys) s (more.map Action.go)).points q = .idle := by
  induction n generalizing s with
  | zero =>
    refine ⟨[], fun q => ?_⟩
    by_contra hbusy
    obtain ⟨r, point, hadvances⟩ := h.exists_advances hbusy
    by_cases hr : r ∈ threads
    · have hle := Finset.single_le_sum (fun q _ => Nat.zero_le ((s.points q).work s.tree.isLeaf)) hr
      exact absurd hadvances.work (by omega)
    · have hidle := hadvances.work
      rw [hothers r hr] at hidle
      exact absurd hidle (Nat.not_lt_zero _)
  | succ n ih =>
    by_cases hidle : ∀ q, s.points q = .idle
    · exact ⟨[], hidle⟩
    · obtain ⟨p, hp⟩ := not_forall.mp hidle
      obtain ⟨r, point, hadvances⟩ := h.exists_advances hp
      have hr : r ∈ threads := by
        by_contra hr
        have hidle := hadvances.work
        rw [hothers r hr] at hidle
        exact absurd hidle (Nat.not_lt_zero _)
      have hless : ∑ q ∈ threads, ((s.step maxKeys (.go r)).points q).work (s.step maxKeys (.go r)).tree.isLeaf <
          ∑ q ∈ threads, (s.points q).work s.tree.isLeaf := by
        apply Finset.sum_lt_sum
        · intro q _
          rw [hadvances.points, Function.update_apply]
          split_ifs with hq
          · rw [hq]
            exact hadvances.work.le
          · exact Point.work_mono hadvances.leaves _
        · refine ⟨r, hr, ?_⟩
          rw [hadvances.points, Function.update_self]
          exact hadvances.work
      have hstill : ∀ q, q ∉ threads → (s.step maxKeys (.go r)).points q = .idle := by
        intro q hq
        have hne : q ≠ r := by
          rintro rfl
          exact hq hr
        rw [hadvances.points, Function.update_of_ne hne]
        exact hothers q hq
      obtain ⟨more, hmore⟩ := ih (h.step (.go r)) hstill (by omega)
      exact ⟨r :: more, hmore⟩

end Inv

theorem points_go (s : LatchedBTree P K V) (p : P) (maxKeys : ℕ) (point : Point K V) :
    ∃ point', (s.go p maxKeys point).points = Function.update s.points p point' := by
  have hsame : ∃ point', s.points = Function.update s.points p point' :=
    ⟨s.points p, (Function.update_eq_self p s.points).symm⟩
  unfold go lockGuard lockNode searchAt writeRoot insertAt
  repeat' split
  all_goals first | exact hsame | exact ⟨_, rfl⟩

theorem exists_threads (maxKeys : ℕ) (actions : List (Action P K V)) :
    ∃ threads : Finset P, ∀ q, q ∉ threads → (run maxKeys actions).points q = .idle := by
  induction actions using List.reverseRecOn with
  | nil => exact ⟨∅, fun q _ => rfl⟩
  | append_singleton actions action ih =>
    obtain ⟨threads, hidle⟩ := ih
    rw [run, Runs.run_snoc]
    cases action with
    | go p =>
      obtain ⟨point, hpoint⟩ := points_go (run maxKeys actions) p maxKeys ((run maxKeys actions).points p)
      refine ⟨insert p threads, fun q hq => ?_⟩
      rw [Finset.mem_insert, not_or] at hq
      change ((run maxKeys actions).go p maxKeys ((run maxKeys actions).points p)).points q = _
      rw [hpoint, Function.update_of_ne hq.1]
      exact hidle q hq.2
    | call p call =>
      refine ⟨insert p threads, fun q hq => ?_⟩
      rw [Finset.mem_insert, not_or] at hq
      unfold step
      dsimp only
      split
      · exact (Function.update_of_ne hq.1 _ _).trans (hidle q hq.2)
      · exact hidle q hq.2

theorem calls_can_return (maxKeys : ℕ) (actions : List (Action P K V)) :
    ∃ more : List P, let s := run maxKeys (actions ++ more.map .go)
      (∀ p, s.points p = .idle) ∧ s.rootLatch = SharedMutex.free ∧ ∀ n, s.latches n = SharedMutex.free := by
  obtain ⟨threads, hidle⟩ := exists_threads maxKeys actions
  obtain ⟨more, hmore⟩ := (inv_run maxKeys actions).exists_finish _ threads hidle le_rfl
  rw [← Runs.run_append] at hmore
  have h := inv_run maxKeys (actions ++ more.map .go)
  refine ⟨more, hmore, SharedMutex.eq_free fun p => ?_, fun n => SharedMutex.eq_free fun p => ?_⟩
  · rw [h.held.guards, hmore]
    rfl
  · rw [h.held.nodes, hmore]
    rfl

end LatchedBTree

end SystemLevel.Indexing
