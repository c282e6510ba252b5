import SystemLevel.Foundations.Bisection
import SystemLevel.Foundations.Lookup

namespace SystemLevel.Lsm

open Lookup Bisection

abbrev Pair := UInt64 × UInt64

abbrev Ascending (pairs : List Pair) : Prop := pairs.Pairwise (fun p q => p.1 < q.1)

theorem ascending_split {pairs : List Pair} (h : Ascending pairs) (key : UInt64) :
    ∃ below rest, pairs = below ++ rest ∧ (∀ p ∈ below, p.1 < key) ∧ ∀ p ∈ rest, ¬ p.1 < key := by
  obtain ⟨below, rest, hsplit, hbelow, hrest⟩ := exists_split (fun p : Pair => decide (p.1 < key)) pairs
    (h.imp (fun hpq hq => by simpa using UInt64.lt_trans hpq (by simpa using hq)))
  exact ⟨below, rest, hsplit, by simpa using hbelow, by simpa using hrest⟩

theorem lookup_ascending {below rest : List Pair} (h : Ascending (below ++ rest)) {key : UInt64}
    (hbelow : ∀ p ∈ below, p.1 < key) (hrest : ∀ p ∈ rest, ¬ p.1 < key) :
    (below ++ rest).lookup key =
      match rest.head? with
      | none => none
      | some p => if p.1 = key then some p.2 else none := by
  rw [lookup_skip (fun p hp => UInt64.ne_of_lt (hbelow p hp))]
  cases rest with
  | nil => rfl
  | cons p rest =>
    simp only [List.head?_cons]
    split_ifs with hp
    · subst hp
      exact List.lookup_cons_self
    · have hkp : key < p.1 := UInt64.lt_of_le_of_ne (UInt64.not_lt.mp (hrest p (by simp))) (Ne.symm hp)
      have habove := (List.pairwise_cons.mp (List.pairwise_append.mp h).2.1).1
      apply lookup_eq_none
      rintro q (_ | ⟨_, hq⟩)
      · exact hp
      · exact (UInt64.ne_of_lt (UInt64.lt_trans hkp (habove q hq))).symm

theorem lookup_lowerBound {pairs : List Pair} (h : Ascending pairs) (key : UInt64) :
    pairs.lookup key =
      match pairs[lowerBoundIn (fun p => decide (p.1 < key)) pairs]? with
      | none => none
      | some p => if p.1 = key then some p.2 else none := by
  obtain ⟨below, rest, rfl, hbelow, hrest⟩ := ascending_split h key
  have hposition : lowerBoundIn (fun p : Pair => decide (p.1 < key)) (below ++ rest) = below.length :=
    lowerBoundIn_append (by simpa using hbelow) (by simpa using hrest)
  rw [lookup_ascending h hbelow hrest, hposition, List.getElem?_append_right le_rfl, Nat.sub_self,
    List.head?_eq_getElem?]

theorem mem_iff_lookup_ascending {pairs : List Pair} (h : Ascending pairs) (k v : UInt64) :
    (k, v) ∈ pairs ↔ pairs.lookup k = some v := by
  constructor
  · intro hmem
    obtain ⟨below, above, rfl⟩ := List.append_of_mem hmem
    have hbelow : ∀ p ∈ below, p.1 ≠ k := by
      intro p hp
      exact UInt64.ne_of_lt ((List.pairwise_append.mp h).2.2 p hp (k, v) List.mem_cons_self)
    rw [lookup_skip hbelow, List.lookup_cons_self]
  · intro hlookup
    obtain ⟨below, above, rfl, -⟩ := List.lookup_eq_some_iff.mp hlookup
    simp

theorem ascending_nodup {pairs : List Pair} (h : Ascending pairs) : (pairs.map Prod.fst).Nodup := by
  rw [List.Nodup, List.pairwise_map]
  exact h.imp fun hlt => UInt64.ne_of_lt hlt

theorem ascending_ext {pairs pairs' : List Pair} (h : Ascending pairs) (h' : Ascending pairs')
    (hlookup : ∀ k, pairs.lookup k = pairs'.lookup k) : pairs = pairs' := by
  have hperm : pairs.Perm pairs' := by
    rw [List.perm_ext_iff_of_nodup (ascending_nodup h).of_map (ascending_nodup h').of_map]
    rintro ⟨k, v⟩
    rw [mem_iff_lookup_ascending h, mem_iff_lookup_ascending h', hlookup]
  apply hperm.eq_of_pairwise _ h h'
  intro p q _ _ hpq hqp
  exact absurd hqp (UInt64.not_lt.mpr (UInt64.le_of_lt hpq))

end SystemLevel.Lsm
