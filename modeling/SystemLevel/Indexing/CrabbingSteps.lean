import SystemLevel.Indexing.CrabbingInvariant

namespace SystemLevel.Indexing.LatchedBTree

open Linearization SharedMutexes
open Node (childIndex insertIntoLeaf)

variable {P K V : Type} [DecidableEq P] [LinearOrder K] {s : LatchedBTree P K V} {maxKeys : ℕ} {p : P}

namespace Inv

theorem placed_at (h : Inv maxKeys s) {point : Point K V} (hp : s.points p = point) : point.Placed s.tree :=
  hp ▸ h.placed p

theorem findLeaf_of_leaf (h : Inv maxKeys s) {key : K} {curr : ℕ} {keys : List K} {values : List V} {next : Option ℕ}
    (hplaced : curr = s.tree.root ∨ s.tree.findLeaf key = some curr)
    (hcell : s.tree.cells[curr]? = some (Cell.leaf keys values next)) : s.tree.findLeaf key = some curr := by
  obtain ⟨map, hgrown⟩ := h.grown
  rcases hplaced with rfl | hleaf
  · apply hgrown.findLeaf_of_not_sprouted
    rintro ⟨keys', children, hroot⟩
    rw [hcell] at hroot
    cases hroot
  · exact hleaf

theorem root_of_internal (h : Inv maxKeys s) {key : K} {curr : ℕ} {keys : List K} {children : List ℕ}
    (hplaced : curr = s.tree.root ∨ s.tree.findLeaf key = some curr)
    (hcell : s.tree.cells[curr]? = some (Cell.internal keys children)) : curr = s.tree.root := by
  obtain ⟨map, hgrown⟩ := h.grown
  rcases hplaced with hroot | hleaf
  · exact hroot
  · obtain ⟨⟨keys', values, next, hleaf⟩, -⟩ := hgrown.leaf_of_findLeaf hleaf
    rw [hcell] at hleaf
    cases hleaf

theorem child_placed (h : Inv maxKeys s) {key : K} {keys : List K} {children : List ℕ} {child : ℕ}
    (hcell : s.tree.cells[s.tree.root]? = some (Cell.internal keys children))
    (hchild : children[childIndex key keys]? = some child) :
    s.tree.Sprouted ∧ s.tree.findLeaf key = some child := by
  obtain ⟨map, hgrown⟩ := h.grown
  exact ⟨⟨_, _, hcell⟩, (hgrown.child_eq_findLeaf hcell key).symm.trans hchild⟩

theorem child_ne_root (h : Inv maxKeys s) {key : K} {child : ℕ} (hroot : s.tree.Sprouted)
    (hleaf : s.tree.findLeaf key = some child) : child ≠ s.tree.root := by
  obtain ⟨map, hgrown⟩ := h.grown
  exact (hgrown.leaf_of_findLeaf hleaf).2 hroot

theorem searchAt (h : Inv maxKeys s) {key : K} {curr : ℕ} (hp : s.points p = .searchNode key curr) :
    Inv maxKeys (s.searchAt p key curr) := by
  have hplaced := h.placed_at hp
  unfold LatchedBTree.searchAt
  cases hcell : s.tree.cells[curr]? with
  | none => exact h
  | some cell =>
    cases cell with
    | internal keys children =>
      have hroot := h.root_of_internal hplaced hcell
      dsimp only
      cases hchild : children[childIndex key keys]? with
      | none => exact h
      | some child =>
        subst hroot
        obtain ⟨hsprouted, hleaf⟩ := h.child_placed hcell hchild
        have hnext : (Point.searchChild key s.tree.root child : Point K V).Placed s.tree := ⟨hsprouted, rfl, hleaf⟩
        exact h.goTo hp rfl hnext rfl fun a => rfl
    | leaf keys values next =>
      have hleaf := h.findLeaf_of_leaf hplaced hcell
      dsimp only
      cases hresult : ConcurrentBTree.searchLeaf key keys values with
      | none => exact h
      | some result =>
        refine h.effect hp rfl rfl rfl (fun a => rfl) trivial (fun q _ => h.placed q) fun map hgrown => ?_
        have hsearch := hgrown.search key
        rw [ConcurrentBTree.search, hleaf, Option.bind_some, hcell] at hsearch
        obtain rfl := Option.some.inj (hresult.symm.trans hsearch)
        exact ⟨rfl, hgrown⟩

theorem writeRoot (h : Inv maxKeys s) {key : K} {val : V} {leaf : ℕ} (hp : s.points p = .leafWrite key val leaf) :
    Inv maxKeys (s.writeRoot p maxKeys key val leaf) := by
  obtain ⟨hroot, rfl⟩ := h.placed_at hp
  obtain ⟨map, hgrown⟩ := h.grown
  obtain ⟨keys, values, next, hcell⟩ := hgrown.root_leaf hroot
  have hguard : s.rootLatch.mode p = some .exclusive := by
    rw [h.held.guards, hp]
    rfl
  have hlatch : (s.latches s.tree.root).mode p = some .exclusive := by
    rw [h.held.nodes, hp]
    exact if_pos List.mem_cons_self
  unfold LatchedBTree.writeRoot
  rw [hcell]
  refine h.effect hp rfl rfl rfl (fun a => rfl) trivial (fun q hq => ?_) fun map hgrown => ⟨rfl, hgrown.insert ?_⟩
  · -- the others hold neither the guard nor the old root
    apply (h.placed q).of_not_sprouted hgrown hroot
    · rw [← h.held.guards]
      by_contra hother
      exact hq (SharedMutex.alone hguard hother)
    · rw [← h.held.nodes]
      by_contra hother
      exact hq (SharedMutex.alone hlatch hother)
  · rw [ConcurrentBTree.insert, hcell]

theorem insertAt (h : Inv maxKeys s) {key : K} {val : V} {curr : ℕ} {lockedAncestors : List ℕ} {guarded : Bool}
    (hp : s.points p = .insertNode key val curr lockedAncestors guarded) :
    Inv maxKeys (s.insertAt p key val curr lockedAncestors guarded) := by
  obtain ⟨hsprouted, hplaced⟩ := h.placed_at hp
  have hleads : curr = s.tree.root ∨ s.tree.findLeaf key = some curr := hplaced.imp And.left And.left
  unfold LatchedBTree.insertAt
  cases hcell : s.tree.cells[curr]? with
  | none => exact h
  | some cell =>
    cases cell with
    | internal keys children =>
      have hroot := h.root_of_internal hleads hcell
      dsimp only
      cases hchild : children[childIndex key keys]? with
      | none => exact h
      | some child =>
        subst hroot
        have hleaf := (h.child_placed hcell hchild).2
        have hlocked : lockedAncestors = [s.tree.root] := by
          rcases hplaced with ⟨-, hlocked⟩ | ⟨hself, -⟩
          · exact hlocked
          · exact absurd rfl (h.child_ne_root hsprouted hself)
        have hnext : (Point.insertChild key val child lockedAncestors guarded).Placed s.tree :=
          ⟨hsprouted, hleaf, hlocked⟩
        exact h.goTo hp rfl hnext rfl fun a => rfl
    | leaf keys values next =>
      have hleaf := h.findLeaf_of_leaf hleads hcell
      have hne := h.child_ne_root hsprouted hleaf
      have hnodup : lockedAncestors.Nodup := by
        rcases hplaced with ⟨hroot, -⟩ | ⟨-, rfl | rfl⟩
        · exact absurd hroot hne
        · simpa using hne.symm
        · exact List.nodup_singleton curr
      obtain ⟨map, hgrown⟩ := h.grown
      have hroutes := hgrown.sameRoutes_setLeaf hsprouted hcell
      refine h.effect hp rfl rfl rfl (fun a => rfl) hnodup (fun q _ => (h.placed q).sameRoutes (hroutes _))
        fun map hgrown => ⟨rfl, hgrown.insert ?_⟩
      obtain ⟨keys', children, hroot⟩ := hsprouted
      rw [ConcurrentBTree.insert, hroot]
      dsimp only
      rw [hleaf, Option.bind_some, hcell]

section Points

variable {key : K} {val : V} {curr child leaf : ℕ} {result : Option V} {lockedAncestors : List ℕ} {guarded : Bool}
  (h : Inv maxKeys s)

include h

theorem searchRoot (hp : s.points p = .searchRoot key) : Inv maxKeys (s.go p maxKeys (.searchRoot key)) := by
  refine h.lockNode hp rfl (Or.inl rfl) (fun m hm => SharedMutex.mode_lockShared hm) ?_ rfl fun a ha => ?_
  · simp [Point.latchMode, Point.latched, Point.kind]
  · simp [Point.latchMode, Point.latched, ha]

theorem searchUnguard (hp : s.points p = .searchUnguard key curr) :
    Inv maxKeys (s.go p maxKeys (.searchUnguard key curr)) := by
  have hplaced := h.placed_at hp
  exact h.silent hp rfl hplaced (h.held_unguard hp .shared rfl rfl fun a => rfl)

theorem searchChild (hp : s.points p = .searchChild key curr child) :
    Inv maxKeys (s.go p maxKeys (.searchChild key curr child)) := by
  have hplaced := h.placed_at hp
  refine h.lockNode hp rfl hplaced (fun m hm => SharedMutex.mode_lockShared hm) ?_ rfl fun a ha => ?_
  · simp [Point.latchMode, Point.latched, Point.kind]
  · simp [Point.latchMode, Point.latched, Point.kind, ha]

theorem searchLeave (hp : s.points p = .searchLeave key curr child) :
    Inv maxKeys (s.go p maxKeys (.searchLeave key curr child)) := by
  obtain ⟨hsprouted, rfl, hleaf⟩ := h.placed_at hp
  have hne := h.child_ne_root hsprouted hleaf
  refine h.silent hp rfl (Or.inr hleaf) (h.held_unlatch hp .shared ?_ ?_ rfl fun a ha => ?_)
  · simp [Point.latchMode, Point.latched, Point.kind]
  · simp [Point.latchMode, Point.latched, hne.symm]
  · simp [Point.latchMode, Point.latched, Point.kind, ha]

theorem searchReturn (hp : s.points p = .searchReturn leaf result) :
    Inv maxKeys (s.go p maxKeys (.searchReturn leaf result)) := by
  refine h.finish hp rfl (h.held_unlatch hp .shared ?_ rfl rfl fun a ha => ?_)
  · simp [Point.latchMode, Point.latched, Point.kind]
  · simp [Point.latchMode, Point.latched, ha]

theorem insertRoot (hp : s.points p = .insertRoot key val) : Inv maxKeys (s.go p maxKeys (.insertRoot key val)) := by
  unfold LatchedBTree.go
  dsimp only
  cases hcell : s.tree.cells[s.tree.root]? with
  | none => exact h
  | some cell =>
    cases cell with
    | leaf keys values next =>
      have hroot : ¬ s.tree.Sprouted := by
        rintro ⟨keys', children, hroot⟩
        rw [hcell] at hroot
        cases hroot
      exact h.goTo hp rfl ⟨hroot, rfl⟩ rfl fun a => rfl
    | internal keys children => exact h.goTo hp rfl ⟨⟨_, _, hcell⟩, rfl⟩ rfl fun a => rfl

theorem leafLatch (hp : s.points p = .leafLatch key val leaf) :
    Inv maxKeys (s.go p maxKeys (.leafLatch key val leaf)) := by
  have hplaced := h.placed_at hp
  refine h.lockNode hp rfl hplaced (fun m hm => SharedMutex.mode_lock hm) ?_ rfl fun a ha => ?_
  · simp [Point.latchMode, Point.latched, Point.kind]
  · simp [Point.latchMode, Point.latched, ha]

theorem leafUnlatch (hp : s.points p = .leafUnlatch leaf) : Inv maxKeys (s.go p maxKeys (.leafUnlatch leaf)) := by
  refine h.silent hp rfl trivial (h.held_unlatch hp .exclusive ?_ rfl rfl fun a ha => ?_)
  · simp [Point.latchMode, Point.latched, Point.kind]
  · simp [Point.latchMode, Point.latched, ha]

theorem rootLatch (hp : s.points p = .rootLatch key val curr) :
    Inv maxKeys (s.go p maxKeys (.rootLatch key val curr)) := by
  have hplaced := h.placed_at hp
  refine h.lockNode hp rfl hplaced (fun m hm => SharedMutex.mode_lock hm) ?_ rfl fun a ha => ?_
  · simp [Point.latchMode, Point.latched, Point.kind]
  · simp [Point.latchMode, Point.latched, ha]

theorem rootCheck (hp : s.points p = .rootCheck key val curr) :
    Inv maxKeys (s.go p maxKeys (.rootCheck key val curr)) := by
  obtain ⟨hsprouted, hroot⟩ := h.placed_at hp
  have hnext (guarded : Bool) : (Point.insertNode key val curr [curr] guarded).Placed s.tree :=
    ⟨hsprouted, Or.inl ⟨hroot, rfl⟩⟩
  unfold LatchedBTree.go
  dsimp only
  cases hcell : s.tree.cells[curr]? with
  | none => exact h
  | some cell =>
    dsimp only
    split_ifs
    · exact h.silent hp rfl (hnext false) (h.held_unguard hp .exclusive rfl rfl fun a => rfl)
    · exact h.goTo hp rfl (hnext true) rfl fun a => rfl

theorem insertChild (hp : s.points p = .insertChild key val child lockedAncestors guarded) :
    Inv maxKeys (s.go p maxKeys (.insertChild key val child lockedAncestors guarded)) := by
  have hplaced := h.placed_at hp
  refine h.lockNode hp rfl hplaced (fun m hm => SharedMutex.mode_lock hm) ?_ rfl fun a ha => ?_
  · simp [Point.latchMode, Point.latched, Point.kind]
  · refine Point.latchMode_congr ?_ ?_
    · rfl
    · simp [Point.latched, ha]

theorem insertCheck (hp : s.points p = .insertCheck key val child lockedAncestors guarded) :
    Inv maxKeys (s.go p maxKeys (.insertCheck key val child lockedAncestors guarded)) := by
  obtain ⟨hsprouted, hleaf, rfl⟩ := h.placed_at hp
  unfold LatchedBTree.go
  dsimp only
  cases hcell : s.tree.cells[child]? with
  | none => exact h
  | some cell =>
    dsimp only
    split_ifs
    · exact h.goTo hp rfl ⟨hsprouted, hleaf, Or.inl rfl⟩ rfl fun a => rfl
    · exact h.goTo hp rfl ⟨hsprouted, Or.inr ⟨hleaf, Or.inl rfl⟩⟩ rfl fun a => rfl

theorem insertDrop (hp : s.points p = .insertDrop key val child lockedAncestors guarded) :
    Inv maxKeys (s.go p maxKeys (.insertDrop key val child lockedAncestors guarded)) := by
  obtain ⟨hsprouted, hleaf, rfl | rfl⟩ := h.placed_at hp
  · have hne := h.child_ne_root hsprouted hleaf
    refine h.silent hp rfl ⟨hsprouted, hleaf, Or.inr rfl⟩ (h.held_unlatch hp .exclusive ?_ ?_ rfl fun a ha => ?_)
    · simp [Point.latchMode, Point.latched, Point.kind]
    · simp [Point.latchMode, Point.latched, hne.symm]
    · simp [Point.latchMode, Point.latched, Point.kind, ha]
  · have hnext : (Point.insertNode key val child [child] false).Placed s.tree :=
      ⟨hsprouted, Or.inr ⟨hleaf, Or.inr rfl⟩⟩
    cases guarded with
    | true => exact h.silent hp rfl hnext (h.held_unguard hp .exclusive rfl rfl fun a => rfl)
    | false => exact h.goTo hp rfl hnext rfl fun a => rfl

theorem insertRelease (hp : s.points p = .insertRelease lockedAncestors guarded) :
    Inv maxKeys (s.go p maxKeys (.insertRelease lockedAncestors guarded)) := by
  have hplaced := h.placed_at hp
  cases lockedAncestors with
  | nil =>
    cases guarded with
    | true => exact h.finish hp rfl (h.held_unguard hp .exclusive rfl rfl fun a => rfl)
    | false =>
      have hheld : Held s.rootLatch s.latches (Function.update s.points p Point.idle) := by
        apply h.held.goTo
        · rw [hp]
          rfl
        · intro a
          rw [hp]
          rfl
      exact h.finish hp rfl hheld
  | cons anc rest =>
    obtain ⟨hfresh, hrest⟩ := List.nodup_cons.mp hplaced
    refine h.silent hp rfl hrest (h.held_unlatch hp .exclusive ?_ ?_ rfl fun a ha => ?_)
    · simp [Point.latchMode, Point.latched, Point.kind]
    · simp [Point.latchMode, Point.latched, hfresh]
    · refine Point.latchMode_congr ?_ ?_
      · rfl
      · simp [Point.latched, ha]

end Points

theorem go (h : Inv maxKeys s) (p : P) : Inv maxKeys (s.go p maxKeys (s.points p)) := by
  cases hp : s.points p with
  | idle => exact h
  | searchGuard key =>
    exact h.lockGuard hp rfl trivial (fun m hm => SharedMutex.mode_lockShared hm) rfl fun a => rfl
  | searchRoot key => exact h.searchRoot hp
  | searchUnguard key curr => exact h.searchUnguard hp
  | searchNode key curr => exact h.searchAt hp
  | searchChild key curr child => exact h.searchChild hp
  | searchLeave key curr child => exact h.searchLeave hp
  | searchReturn leaf result => exact h.searchReturn hp
  | insertGuard key val =>
    exact h.lockGuard hp rfl trivial (fun m hm => SharedMutex.mode_lock hm) rfl fun a => rfl
  | insertRoot key val => exact h.insertRoot hp
  | leafLatch key val leaf => exact h.leafLatch hp
  | leafWrite key val leaf => exact h.writeRoot hp
  | leafUnlatch leaf => exact h.leafUnlatch hp
  | insertUnguard => exact h.finish hp rfl (h.held_unguard hp .exclusive rfl rfl fun a => rfl)
  | rootLatch key val curr => exact h.rootLatch hp
  | rootCheck key val curr => exact h.rootCheck hp
  | insertNode key val curr lockedAncestors guarded => exact h.insertAt hp
  | insertChild key val child lockedAncestors guarded => exact h.insertChild hp
  | insertCheck key val child lockedAncestors guarded => exact h.insertCheck hp
  | insertDrop key val child lockedAncestors guarded => exact h.insertDrop hp
  | insertRelease lockedAncestors guarded => exact h.insertRelease hp

theorem step (h : Inv maxKeys s) (action : Action P K V) : Inv maxKeys (s.step maxKeys action) := by
  cases action with
  | go p => exact h.go p
  | call p call =>
    unfold LatchedBTree.step
    dsimp only
    split
    · next hp => exact h.call hp call
    · exact h

end Inv

theorem inv_run (maxKeys : ℕ) (actions : List (Action P K V)) : (run maxKeys actions).Inv maxKeys :=
  Runs.run_induct .init (fun _ action h => h.step action) actions

theorem calls_linearize (maxKeys : ℕ) (actions : List (Action P K V)) :
    let s := run maxKeys actions
    ∃ map, Linearized (mapSpec K V) s.events map (fun p => (s.points p).phase) ∧
      ∀ key, s.tree.search key = some (map key) := by
  obtain ⟨map, hlinear, hgrown⟩ := (inv_run maxKeys actions).linear
  exact ⟨map, hlinear, hgrown.search⟩

end SystemLevel.Indexing.LatchedBTree
