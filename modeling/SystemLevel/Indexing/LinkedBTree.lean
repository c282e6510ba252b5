import SystemLevel.Indexing.BTreeShape

/-!
`ConcurrentBTree` with its nodes in memory and the links between its leaves. A `shared_ptr` is the index of the node
that it points to. A call that would read behind the children or the values of a node has no result.
-/

namespace SystemLevel.Indexing

open Bisection

inductive Cell (K V : Type)
  | leaf (keys : List K) (values : List V) (next : Option ℕ)
  | internal (keys : List K) (children : List ℕ)

structure ConcurrentBTree (K V : Type) where
  cells : List (Cell K V)
  root : ℕ

namespace ConcurrentBTree

open Node

variable {K V : Type}

def init : ConcurrentBTree K V := { cells := [Cell.leaf [] [] none], root := 0 }

section Calls

variable [LinearOrder K] (t : ConcurrentBTree K V)

/-- The loop of `search` and `insert`; a path has no more nodes than there are. -/
def descend (cells : List (Cell K V)) (key : K) : ℕ → ℕ → Option ℕ
  | 0, _ => none
  | fuel + 1, curr =>
    match cells[curr]? with
    | some (.leaf _ _ _) => some curr
    | some (.internal keys children) => children[childIndex key keys]?.bind (descend cells key fuel)
    | none => none

def findLeaf (key : K) : Option ℕ := descend t.cells key t.cells.length t.root

def searchLeaf (key : K) (keys : List K) (values : List V) : Option (Option V) :=
  let idx := lowerBoundIn (fun k => decide (k < key)) keys
  if keys[idx]? = some key then values[idx]?.map some else some none

def search (key : K) : Option (Option V) :=
  (t.findLeaf key).bind fun a =>
    match t.cells[a]? with
    | some (.leaf keys values _) => searchLeaf key keys values
    | _ => none

def setLeaf (a : ℕ) (leaf : List K × List V) (next : Option ℕ) : ConcurrentBTree K V :=
  { t with cells := t.cells.set a (Cell.leaf leaf.1 leaf.2 next) }

def splitRoot (leaf : List K × List V) (next : Option ℕ) : ConcurrentBTree K V :=
  let mid := leaf.1.length / 2
  let newRoot := t.cells.length
  let newLeaf := t.cells.length + 1
  { cells := t.cells.set t.root (Cell.leaf (leaf.1.take mid) (leaf.2.take mid) (some newLeaf)) ++
      [Cell.internal leaf.1[mid]?.toList [t.root, newLeaf], Cell.leaf (leaf.1.drop mid) (leaf.2.drop mid) next]
    root := newRoot }

def insert (maxKeys : ℕ) (key : K) (val : V) : Option (ConcurrentBTree K V) :=
  match t.cells[t.root]? with
  | some (.leaf keys values next) =>
    let leaf := insertIntoLeaf keys values key val
    some (if maxKeys < leaf.1.length then t.splitRoot leaf next else t.setLeaf t.root leaf next)
  | some (.internal _ _) =>
    (t.findLeaf key).bind fun a =>
      match t.cells[a]? with
      | some (.leaf keys values next) => some (t.setLeaf a (insertIntoLeaf keys values key val) next)
      | _ => none
  | none => none

def built (maxKeys : ℕ) (entries : List (K × V)) : Option (ConcurrentBTree K V) :=
  entries.foldlM (fun t entry => t.insert maxKeys entry.1 entry.2) init

end Calls

section Links

def leftmost (cells : List (Cell K V)) : ℕ → ℕ → Option ℕ
  | 0, _ => none
  | fuel + 1, curr =>
    match cells[curr]? with
    | some (.leaf _ _ _) => some curr
    | some (.internal _ children) => children[0]?.bind (leftmost cells fuel)
    | none => none

def follow (cells : List (Cell K V)) : ℕ → Option ℕ → Option (List K)
  | _, none => some []
  | 0, some _ => none
  | fuel + 1, some a =>
    match cells[a]? with
    | some (.leaf keys _ next) => (follow cells fuel next).map (keys ++ ·)
    | _ => none

def scan (t : ConcurrentBTree K V) : Option (List K) :=
  (leftmost t.cells t.cells.length t.root).bind fun first => follow t.cells t.cells.length (some first)

end Links

inductive Laid : ConcurrentBTree K V → Node K V → Prop
  | leaf (keys : List K) (values : List V) : Laid ⟨[Cell.leaf keys values none], 0⟩ (.leaf keys values)
  | halves (s : K) (low high : List K) (lowValues highValues : List V) :
      Laid ⟨[Cell.leaf low lowValues (some 2), Cell.internal [s] [0, 2], Cell.leaf high highValues none], 1⟩
        (.internal [s] [.leaf low lowValues, .leaf high highValues])

variable [LinearOrder K] {t : ConcurrentBTree K V} {root : Node K V}

theorem childIndex_singleton (key s : K) : childIndex key [s] = if s ≤ key then 1 else 0 := rfl

omit [LinearOrder K] in
theorem laid_splitRoot (leaf : List K × List V) (h : leaf.1 ≠ []) (keys : List K) (values : List V) :
    Laid (splitRoot ⟨[Cell.leaf keys values none], 0⟩ leaf none) (splitRootLeaf leaf.1 leaf.2) := by
  have hmid : leaf.1.length / 2 < leaf.1.length := Nat.div_lt_self (List.length_pos_iff.mpr h) one_lt_two
  rw [splitRoot, splitRootLeaf, List.getElem?_eq_getElem hmid]
  exact Laid.halves _ _ _ _ _

theorem Laid.insert (h : Laid t root) (maxKeys : ℕ) (key : K) (val : V) :
    ∃ t', t.insert maxKeys key val = some t' ∧ Laid t' (root.insert maxKeys key val) := by
  cases h with
  | leaf keys values =>
    refine ⟨_, rfl, ?_⟩
    rw [Node.insert]
    split_ifs with hfull
    · exact laid_splitRoot _ (List.ne_nil_of_length_pos (Nat.zero_lt_of_lt hfull)) keys values
    · exact Laid.leaf _ _
  | halves s low high lowValues highValues =>
    rw [Node.insert, insertBelow, childIndex_singleton]
    simp only [ConcurrentBTree.insert, findLeaf, descend, List.getElem?_cons_succ, List.getElem?_cons_zero,
      List.length_cons, List.length_nil, childIndex_singleton]
    split_ifs with hkey
    · exact ⟨_, rfl, Laid.halves _ _ _ _ _⟩
    · exact ⟨_, rfl, Laid.halves _ _ _ _ _⟩

theorem laid_built (maxKeys : ℕ) (entries : List (K × V)) :
    ∃ t, built maxKeys entries = some t ∧ Laid t (Node.built maxKeys entries) := by
  induction entries using List.reverseRecOn with
  | nil => exact ⟨init, rfl, Laid.leaf [] []⟩
  | append_singleton entries entry ih =>
    obtain ⟨t, ht, hlaid⟩ := ih
    obtain ⟨t', ht', hlaid'⟩ := hlaid.insert maxKeys entry.1 entry.2
    refine ⟨t', ?_, built_concat maxKeys entries entry ▸ hlaid'⟩
    rw [built] at ht ⊢
    rw [List.foldlM_append, ht]
    simpa using ht'

def Routed (t : ConcurrentBTree K V) : Prop :=
  ∀ a keys values next, t.cells[a]? = some (Cell.leaf keys values next) →
    keys.Pairwise (· < ·) ∧ ∀ key ∈ keys, t.findLeaf key = some a

theorem searchLeaf_eq {pairs : List (K × V)} (h : Ascending pairs) (key : K) :
    searchLeaf key (pairs.map Prod.fst) (pairs.map Prod.snd) = some (pairs.lookup key) := by
  rw [← search_leafOf h, leafOf, Node.search, searchLeaf]
  split_ifs with hkey
  · obtain ⟨hidx, -⟩ := List.getElem?_eq_some_iff.mp hkey
    rw [List.length_map, ← List.length_map Prod.snd] at hidx
    rw [List.getElem?_eq_getElem hidx, Option.map_some]
  · rfl

def single (pairs : List (K × V)) : ConcurrentBTree K V :=
  ⟨[Cell.leaf (pairs.map Prod.fst) (pairs.map Prod.snd) none], 0⟩

def halved (s : K) (low high : List (K × V)) : ConcurrentBTree K V :=
  ⟨[Cell.leaf (low.map Prod.fst) (low.map Prod.snd) (some 2), Cell.internal [s] [0, 2],
    Cell.leaf (high.map Prod.fst) (high.map Prod.snd) none], 1⟩

theorem single_search {pairs : List (K × V)} (h : Ascending pairs) (key : K) :
    (single pairs).search key = some (pairs.lookup key) := searchLeaf_eq h key

theorem single_routed {pairs : List (K × V)} (h : Ascending pairs) : Routed (single pairs) := by
  intro a keys values next hcell
  rcases a with _ | a
  · cases hcell
    exact ⟨List.pairwise_map.mpr h, fun key _ => rfl⟩
  · cases hcell

omit [LinearOrder K] in
theorem single_scan (pairs : List (K × V)) : (single pairs).scan = some (pairs.map Prod.fst) := by
  rw [← List.append_nil (pairs.map Prod.fst)]
  rfl

theorem findLeaf_pair (s key : K) (low high : List K) (lowValues highValues : List V) (a b : Option ℕ) :
    findLeaf ⟨[Cell.leaf low lowValues a, Cell.internal [s] [0, 2], Cell.leaf high highValues b], 1⟩ key =
      some (if s ≤ key then 2 else 0) := by
  simp only [findLeaf, descend, List.getElem?_cons_succ, List.getElem?_cons_zero, List.length_cons, List.length_nil,
    childIndex_singleton]
  split_ifs <;> rfl

section Halves

variable {s : K} {low high : List (K × V)}

theorem halved_findLeaf (key : K) : (halved s low high).findLeaf key = some (if s ≤ key then 2 else 0) :=
  findLeaf_pair ..

theorem halved_search (hlow : Ascending low) (hhigh : Ascending high) (key : K) :
    (halved s low high).search key = some (if s ≤ key then high.lookup key else low.lookup key) := by
  rw [search, halved_findLeaf, Option.bind_some]
  split_ifs
  · exact searchLeaf_eq hhigh key
  · exact searchLeaf_eq hlow key

theorem halved_routed (hlow : Ascending low) (hhigh : Ascending high) (hbelow : ∀ p ∈ low, p.1 < s)
    (habove : ∀ p ∈ high, s ≤ p.1) : Routed (halved s low high) := by
  intro a keys values next hcell
  rcases a with _ | _ | _ | a
  · cases hcell
    refine ⟨List.pairwise_map.mpr hlow, List.forall_mem_map.mpr fun p hp => ?_⟩
    rw [halved_findLeaf, if_neg (hbelow p hp).not_ge]
  · cases hcell
  · cases hcell
    refine ⟨List.pairwise_map.mpr hhigh, List.forall_mem_map.mpr fun p hp => ?_⟩
    rw [halved_findLeaf, if_pos (habove p hp)]
  · cases hcell

omit [LinearOrder K] in
theorem halved_scan : (halved s low high).scan = some ((low ++ high).map Prod.fst) := by
  rw [List.map_append, ← List.append_nil (high.map Prod.fst)]
  rfl

end Halves

theorem Laid.spec {maxKeys : ℕ} {inserted : List K} {map : K → Option V} (h : Laid t root)
    (hshaped : Shaped maxKeys inserted map root) :
    (∀ key, t.search key = some (map key)) ∧ t.Routed ∧
      ∃ keys, t.scan = some keys ∧ keys.Pairwise (· < ·) ∧ keys.Perm inserted := by
  cases hshaped with
  | @leaf pairs ascending keys fits values =>
    obtain rfl : t = single pairs := by
      rw [leafOf] at h
      cases h
      rfl
    refine ⟨fun key => ?_, single_routed ascending, _, single_scan pairs, List.pairwise_map.mpr ascending, keys⟩
    rw [single_search ascending, values]
  | @halves s low high split lowAscending highAscending lowKeys highKeys values =>
    obtain rfl : t = halved s low high := by
      rw [leafOf, leafOf] at h
      cases h
      rfl
    have hbelow : ∀ p ∈ low, p.1 < s := by
      intro p hp
      have hmem := lowKeys.mem_iff.mp (List.mem_map_of_mem hp)
      exact of_decide_eq_true (List.mem_filter.mp hmem).2
    have habove : ∀ p ∈ high, s ≤ p.1 := by
      intro p hp
      have hmem := highKeys.mem_iff.mp (List.mem_map_of_mem hp)
      exact of_decide_eq_true (List.mem_filter.mp hmem).2
    refine ⟨fun key => ?_, halved_routed lowAscending highAscending hbelow habove, _, halved_scan, ?_, ?_⟩
    · rw [halved_search lowAscending highAscending, values]
    · apply List.pairwise_map.mpr
      apply List.pairwise_append.mpr
      exact ⟨lowAscending, highAscending, fun p hp q hq => (hbelow p hp).trans_le (habove q hq)⟩
    · rw [List.map_append]
      apply (lowKeys.append highKeys).trans
      simp only [← not_lt, decide_not]
      exact List.filter_append_perm _ inserted

theorem mem_distinctKeys (entries : List (K × V)) (key : K) :
    key ∈ distinctKeys entries ↔ key ∈ entries.map Prod.fst := by
  induction entries using List.reverseRecOn with
  | nil => rfl
  | append_singleton entries entry ih =>
    rw [distinctKeys_concat, List.map_append, List.mem_append, ← ih, List.map_singleton, List.mem_singleton]
    unfold note
    split_ifs with hmem
    · refine ⟨Or.inl, fun h => ?_⟩
      rcases h with h | rfl
      · exact h
      · exact hmem
    · rw [List.mem_append, List.mem_singleton]

theorem lookups_and_links (maxKeys : ℕ) (entries : List (K × V)) :
    ∃ t, built maxKeys entries = some t ∧
      (∀ key, t.search key = some (entries.reverse.lookup key)) ∧
      (∀ a keys values next, t.cells[a]? = some (Cell.leaf keys values next) →
        keys.Pairwise (· < ·) ∧ ∀ key ∈ keys, t.findLeaf key = some a) ∧
      ∃ keys, t.scan = some keys ∧ keys.Pairwise (· < ·) ∧ ∀ key, key ∈ keys ↔ key ∈ entries.map Prod.fst := by
  obtain ⟨t, ht, hlaid⟩ := laid_built maxKeys entries
  obtain ⟨hsearch, hrouted, keys, hscan, hsorted, hperm⟩ := hlaid.spec (shaped_built maxKeys entries)
  refine ⟨t, ht, hsearch, hrouted, keys, hscan, hsorted, fun key => ?_⟩
  rw [hperm.mem_iff, mem_distinctKeys]

end ConcurrentBTree

end SystemLevel.Indexing
