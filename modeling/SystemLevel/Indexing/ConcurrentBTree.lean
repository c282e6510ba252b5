import SystemLevel.Foundations.Bisection
import SystemLevel.Foundations.Lookup

/-!
`ConcurrentBTree`, for calls that come one after the other: the latches are left out, and so are the links
between the leaves, which no call follows.
-/

namespace SystemLevel.Indexing

open Bisection Lookup

inductive Node (K V : Type)
  | leaf (keys : List K) (values : List V)
  | internal (keys : List K) (children : List (Node K V))

namespace Node

variable {K V : Type} [LinearOrder K]

def childIndex (key : K) : List K → ℕ
  | [] => 0
  | k :: keys => if k ≤ key then childIndex key keys + 1 else 0

def insertIntoLeaf (keys : List K) (values : List V) (key : K) (val : V) : List K × List V :=
  let idx := lowerBoundIn (fun k => decide (k < key)) keys
  if keys[idx]? = some key then (keys, values.set idx val)
  else (keys.insertIdx idx key, values.insertIdx idx val)

mutual

def insertBelow (key : K) (val : V) : Node K V → Node K V
  | .leaf keys values => .leaf (insertIntoLeaf keys values key val).1 (insertIntoLeaf keys values key val).2
  | .internal keys children => .internal keys (insertChild key val (childIndex key keys) children)

def insertChild (key : K) (val : V) : ℕ → List (Node K V) → List (Node K V)
  | _, [] => []
  | 0, child :: children => insertBelow key val child :: children
  | i + 1, child :: children => child :: insertChild key val i children

end

mutual

def search (key : K) : Node K V → Option V
  | .leaf keys values =>
    let idx := lowerBoundIn (fun k => decide (k < key)) keys
    if keys[idx]? = some key then values[idx]? else none
  | .internal keys children => searchChild key (childIndex key keys) children

def searchChild (key : K) : ℕ → List (Node K V) → Option V
  | _, [] => none
  | 0, child :: _ => search key child
  | i + 1, _ :: children => searchChild key i children

end

def splitRootLeaf (keys : List K) (values : List V) : Node K V :=
  let mid := keys.length / 2
  .internal keys[mid]?.toList
    [.leaf (keys.take mid) (values.take mid), .leaf (keys.drop mid) (values.drop mid)]

def insert (maxKeys : ℕ) (root : Node K V) (key : K) (val : V) : Node K V :=
  match root with
  | .leaf keys values =>
    let leaf := insertIntoLeaf keys values key val
    if maxKeys < leaf.1.length then splitRootLeaf leaf.1 leaf.2 else .leaf leaf.1 leaf.2
  | .internal _ _ => insertBelow key val root

def built (maxKeys : ℕ) (entries : List (K × V)) : Node K V :=
  entries.foldl (fun root entry => insert maxKeys root entry.1 entry.2) (.leaf [] [])

structure Census where
  depth : ℕ
  keys : ℕ
  children : Option ℕ
  deriving DecidableEq, Repr

mutual

def census (depth : ℕ) : Node K V → List Census
  | .leaf keys _ => [{ depth, keys := keys.length, children := none }]
  | .internal keys children =>
    { depth, keys := keys.length, children := some children.length } :: censusBelow (depth + 1) children

def censusBelow (depth : ℕ) : List (Node K V) → List Census
  | [] => []
  | child :: children => census depth child ++ censusBelow depth children

end

def IsBPlusTree (maxKeys : ℕ) (root : Node K V) : Prop :=
  (∀ n ∈ census 0 root, n.keys ≤ maxKeys) ∧
    (∀ n ∈ census 0 root, ∀ count ∈ n.children, count = n.keys + 1) ∧
    ∀ m ∈ census 0 root, ∀ n ∈ census 0 root, m.children = none → n.children = none → m.depth = n.depth

instance decidableIsBPlusTree (maxKeys : ℕ) (root : Node K V) : Decidable (IsBPlusTree maxKeys root) :=
  inferInstanceAs (Decidable (_ ∧ _ ∧ _))

def note (keys : List K) (key : K) : List K := if key ∈ keys then keys else keys ++ [key]

def distinctKeys (entries : List (K × V)) : List K := entries.foldl (fun keys entry => note keys entry.1) []

def splitKey (maxKeys : ℕ) (keys : List K) : Option K :=
  if maxKeys < keys.length then
    ((keys.take (maxKeys + 1)).mergeSort fun a b => decide (a ≤ b))[(maxKeys + 1) / 2]?
  else none

def HalvesFit (maxKeys : ℕ) (keys : List K) : Prop :=
  ∀ s, splitKey maxKeys keys = some s →
    keys.countP (fun k => decide (k < s)) ≤ maxKeys ∧ keys.countP (fun k => decide (s ≤ k)) ≤ maxKeys

def leafOf (pairs : List (K × V)) : Node K V := .leaf (pairs.map Prod.fst) (pairs.map Prod.snd)

abbrev Ascending (pairs : List (K × V)) : Prop := pairs.Pairwise fun p q => p.1 < q.1

theorem leaf_split {pairs : List (K × V)} (h : Ascending pairs) (key : K) :
    ∃ below same above, pairs = below ++ (same ++ above) ∧ (∀ p ∈ below, p.1 < key) ∧
      (same = [] ∨ ∃ v, same = [(key, v)]) ∧ (∀ p ∈ above, key < p.1) ∧
      lowerBoundIn (fun k => decide (k < key)) (pairs.map Prod.fst) = below.length := by
  obtain ⟨below, rest, rfl, hbelow, hrest⟩ := exists_split (fun p : K × V => decide (p.1 < key)) pairs
    (h.imp fun hpq hq => by simpa using hpq.trans (by simpa using hq))
  simp only [decide_eq_true_eq, decide_eq_false_iff_not, not_lt] at hbelow hrest
  have hidx : lowerBoundIn (fun k => decide (k < key)) ((below ++ rest).map Prod.fst) = below.length := by
    rw [List.map_append, lowerBoundIn_append, List.length_map]
    · intro k hk
      obtain ⟨p, hp, rfl⟩ := List.mem_map.mp hk
      simpa using hbelow p hp
    · intro k hk
      obtain ⟨p, hp, rfl⟩ := List.mem_map.mp hk
      simpa using hrest p hp
  cases rest with
  | nil => exact ⟨below, [], [], rfl, hbelow, .inl rfl, nofun, hidx⟩
  | cons p rest =>
    have habove := (List.pairwise_cons.mp (List.pairwise_append.mp h).2.1).1
    rcases (hrest p List.mem_cons_self).eq_or_lt with hp | hp
    · subst hp
      exact ⟨below, [p], rest, rfl, hbelow, .inr ⟨p.2, rfl⟩, habove, hidx⟩
    · refine ⟨below, [], p :: rest, rfl, hbelow, .inl rfl, fun q hq => ?_, hidx⟩
      rcases List.mem_cons.mp hq with rfl | hq
      · exact hp
      · exact hp.trans (habove q hq)

omit [LinearOrder K] in
theorem keys_at_split (below rest : List (K × V)) :
    ((below ++ rest).map Prod.fst)[below.length]? = rest.head?.map Prod.fst := by
  rw [List.map_append, List.getElem?_append_right (by rw [List.length_map]), List.length_map, Nat.sub_self,
    List.head?_eq_getElem?, List.getElem?_map]

theorem keys_at_above {below above : List (K × V)} {key : K} (habove : ∀ p ∈ above, key < p.1) :
    ((below ++ above).map Prod.fst)[below.length]? ≠ some key := by
  rw [keys_at_split]
  intro hhead
  obtain ⟨p, hp, rfl⟩ := Option.map_eq_some_iff.mp hhead
  exact (habove p (List.mem_of_head? hp)).false

omit [LinearOrder K] in
theorem keys_at_same (below above : List (K × V)) (key : K) (v : V) :
    ((below ++ ([(key, v)] ++ above)).map Prod.fst)[below.length]? = some key := by
  rw [keys_at_split]
  rfl

theorem insertIdx_split {α : Type} (below rest : List α) (a : α) :
    (below ++ rest).insertIdx below.length a = below ++ a :: rest := by
  induction below with
  | nil => rfl
  | cons b below ih => rw [List.cons_append, List.length_cons, List.insertIdx_succ_cons, ih, List.cons_append]

theorem search_leafOf {pairs : List (K × V)} (h : Ascending pairs) (key : K) :
    search key (leafOf pairs) = pairs.lookup key := by
  obtain ⟨below, same, above, rfl, hbelow, hsame, habove, hidx⟩ := leaf_split h key
  rw [leafOf, search, hidx, lookup_skip fun p hp => (hbelow p hp).ne]
  rcases hsame with rfl | ⟨v, rfl⟩
  · rw [List.nil_append, if_neg (keys_at_above habove), lookup_eq_none fun p hp => (habove p hp).ne']
  · have hvalue : ((below ++ ([(key, v)] ++ above)).map Prod.snd)[below.length]? = some v := by
      rw [List.map_append, List.getElem?_append_right (by rw [List.length_map]), List.length_map, Nat.sub_self]
      rfl
    rw [if_pos (keys_at_same below above key v), hvalue, List.singleton_append, List.lookup_cons_self]

theorem ascending_replace {below same above : List (K × V)} (h : Ascending (below ++ (same ++ above))) {key : K}
    (hbelow : ∀ p ∈ below, p.1 < key) (habove : ∀ p ∈ above, key < p.1) (val : V) :
    Ascending (below ++ (key, val) :: above) := by
  obtain ⟨hlow, hhigh, hcross⟩ := List.pairwise_append.mp h
  refine List.pairwise_append.mpr ⟨hlow, List.pairwise_cons.mpr ⟨habove, (List.pairwise_append.mp hhigh).2.1⟩, ?_⟩
  intro p hp q hq
  rcases List.mem_cons.mp hq with rfl | hq
  · exact hbelow p hp
  · exact hcross p hp q (List.mem_append_right same hq)

theorem note_of_mem {keys : List K} {key : K} (h : key ∈ keys) : note keys key = keys := if_pos h

theorem note_of_notMem {keys : List K} {key : K} (h : key ∉ keys) : note keys key = keys ++ [key] := if_neg h

theorem insertIntoLeaf_spec {pairs : List (K × V)} (h : Ascending pairs) (key : K) (val : V) :
    ∃ pairs' : List (K × V),
      insertIntoLeaf (pairs.map Prod.fst) (pairs.map Prod.snd) key val = (pairs'.map Prod.fst, pairs'.map Prod.snd) ∧
      Ascending pairs' ∧ (pairs'.map Prod.fst).Perm (note (pairs.map Prod.fst) key) ∧
      ∀ k, pairs'.lookup k = if k = key then some val else pairs.lookup k := by
  obtain ⟨below, same, above, rfl, hbelow, hsame, habove, hidx⟩ := leaf_split h key
  have hold : ∀ p ∈ same, p.1 = key := by
    rcases hsame with rfl | ⟨v, rfl⟩ <;> simp
  refine ⟨below ++ (key, val) :: above, ?_, ascending_replace h hbelow habove val, ?_,
    lookup_replaced (fun p hp => (hbelow p hp).ne) same hold⟩
  · rw [insertIntoLeaf, hidx]
    rcases hsame with rfl | ⟨v, rfl⟩
    · have hkeys := insertIdx_split (below.map Prod.fst) (above.map Prod.fst) key
      have hvalues := insertIdx_split (below.map Prod.snd) (above.map Prod.snd) val
      rw [List.length_map] at hkeys hvalues
      rw [List.nil_append, if_neg (keys_at_above habove), List.map_append, List.map_append, hkeys, hvalues]
      simp
    · rw [if_pos (keys_at_same below above key v)]
      simp
  · rcases hsame with rfl | ⟨v, rfl⟩
    · have hfresh : key ∉ (below ++ ([] ++ above)).map Prod.fst := by
        intro hmem
        obtain ⟨p, hp, rfl⟩ := List.mem_map.mp hmem
        rcases List.mem_append.mp hp with hp | hp
        · exact (hbelow p hp).false
        · exact (habove p hp).false
      rw [note_of_notMem hfresh, List.nil_append, List.map_append, List.map_append, List.map_cons]
      exact List.perm_middle.trans (List.perm_append_singleton key _).symm
    · rw [note_of_mem (by simp), List.map_append, List.map_append]
      rfl

end Node

end SystemLevel.Indexing
