import SystemLevel.Indexing.ConcurrentBTree

namespace SystemLevel.Indexing.Node

open Lookup

variable {K V : Type} [LinearOrder K]

theorem note_perm {keys keys' : List K} (h : keys.Perm keys') (key : K) : (note keys key).Perm (note keys' key) := by
  unfold note
  simp only [h.mem_iff]
  split_ifs
  · exact h
  · exact h.append_right [key]

theorem filter_note (p : K → Bool) (keys : List K) (key : K) :
    (note keys key).filter p = if p key then note (keys.filter p) key else keys.filter p := by
  unfold note
  by_cases hp : p key = true
  · simp only [List.mem_filter, hp, and_true, if_true]
    split_ifs
    · rfl
    · rw [List.filter_append, List.filter_cons_of_pos hp, List.filter_nil]
  · rw [if_neg hp]
    split_ifs
    · rfl
    · rw [List.filter_append, List.filter_cons_of_neg hp, List.filter_nil, List.append_nil]

theorem prefix_note (keys : List K) (key : K) : keys <+: note keys key := by
  unfold note
  split_ifs
  · exact List.prefix_refl keys
  · exact List.prefix_append keys [key]

theorem splitKey_mono {maxKeys : ℕ} {keys keys' : List K} {s : K} (hkeys : keys <+: keys')
    (h : splitKey maxKeys keys = some s) : splitKey maxKeys keys' = some s := by
  obtain ⟨more, rfl⟩ := hkeys
  unfold splitKey at h
  split_ifs at h with hfull
  rw [splitKey, if_pos (by rw [List.length_append]; omega), List.take_append_of_le_length hfull, h]

theorem mem_of_splitKey {maxKeys : ℕ} {keys : List K} {s : K} (h : splitKey maxKeys keys = some s) : s ∈ keys := by
  unfold splitKey at h
  split_ifs at h
  exact List.mem_of_mem_take (List.mem_mergeSort.mp (List.mem_of_getElem? h))

theorem mergeSort_eq {keys sorted : List K} (hsorted : sorted.Pairwise (· < ·)) (hperm : sorted.Perm keys) :
    (keys.mergeSort fun a b => decide (a ≤ b)) = sorted := by
  have hmerged : (keys.mergeSort fun a b => decide (a ≤ b)).Pairwise fun a b => decide (a ≤ b) = true := by
    apply List.pairwise_mergeSort
    · intro a b c hab hbc
      exact decide_eq_true ((of_decide_eq_true hab).trans (of_decide_eq_true hbc))
    · intro a b
      simpa using le_total a b
  apply ((List.mergeSort_perm keys _).trans hperm.symm).eq_of_pairwise _ (hmerged.imp of_decide_eq_true)
    (hsorted.imp fun hab => hab.le)
  intro a b _ _ hab hba
  exact hab.antisymm hba

section Halves

variable {low high : List (K × V)} {s : K} (hlow : ∀ p ∈ low, p.1 < s) (hhigh : ∀ p ∈ high, s ≤ p.1)

include hlow hhigh

theorem filter_low : ((low ++ high).map Prod.fst).filter (fun k => decide (k < s)) = low.map Prod.fst := by
  rw [List.map_append, List.filter_append, List.filter_eq_self.mpr, List.filter_eq_nil_iff.mpr, List.append_nil]
  · intro k hk
    obtain ⟨p, hp, rfl⟩ := List.mem_map.mp hk
    simpa using hhigh p hp
  · intro k hk
    obtain ⟨p, hp, rfl⟩ := List.mem_map.mp hk
    simpa using hlow p hp

theorem filter_high : ((low ++ high).map Prod.fst).filter (fun k => decide (s ≤ k)) = high.map Prod.fst := by
  rw [List.map_append, List.filter_append, List.filter_eq_nil_iff.mpr, List.filter_eq_self.mpr, List.nil_append]
  · intro k hk
    obtain ⟨p, hp, rfl⟩ := List.mem_map.mp hk
    simpa using hhigh p hp
  · intro k hk
    obtain ⟨p, hp, rfl⟩ := List.mem_map.mp hk
    simpa using hlow p hp

theorem lookup_halves (k : K) : (if s ≤ k then high.lookup k else low.lookup k) = (low ++ high).lookup k := by
  split_ifs with hk
  · rw [lookup_skip fun p hp => ((hlow p hp).trans_le hk).ne]
  · rw [lookup_before fun p hp => ((not_le.mp hk).trans_le (hhigh p hp)).ne']

end Halves

omit [LinearOrder K] in
theorem splitRootLeaf_eq {low rest : List (K × V)} {p : K × V} (hmid : low.length = (low ++ p :: rest).length / 2) :
    splitRootLeaf ((low ++ p :: rest).map Prod.fst) ((low ++ p :: rest).map Prod.snd) =
      .internal [p.1] [leafOf low, leafOf (p :: rest)] := by
  rw [splitRootLeaf, List.length_map, ← hmid, keys_at_split]
  simp only [leafOf, ← List.map_take, ← List.map_drop, List.take_left, List.drop_left]
  rfl

/-- The root is one leaf, or has two leaves below it that the first split has made. -/
inductive Shaped (maxKeys : ℕ) (inserted : List K) (map : K → Option V) : Node K V → Prop
  | leaf {pairs : List (K × V)} (ascending : Ascending pairs) (keys : (pairs.map Prod.fst).Perm inserted)
      (fits : inserted.length ≤ maxKeys) (values : ∀ k, pairs.lookup k = map k) :
      Shaped maxKeys inserted map (leafOf pairs)
  | halves {s : K} {low high : List (K × V)} (split : splitKey maxKeys inserted = some s)
      (lowAscending : Ascending low) (highAscending : Ascending high)
      (lowKeys : (low.map Prod.fst).Perm (inserted.filter fun k => decide (k < s)))
      (highKeys : (high.map Prod.fst).Perm (inserted.filter fun k => decide (s ≤ k)))
      (values : ∀ k, (if s ≤ k then high.lookup k else low.lookup k) = map k) :
      Shaped maxKeys inserted map (.internal [s] [leafOf low, leafOf high])

namespace Shaped

variable {maxKeys : ℕ} {inserted : List K} {map : K → Option V} {root : Node K V}

theorem of_split {pairs : List (K × V)} (h : Ascending pairs) (hkeys : (pairs.map Prod.fst).Perm inserted)
    (hlength : inserted.length = maxKeys + 1) (hvalues : ∀ k, pairs.lookup k = map k) :
    Shaped maxKeys inserted map (splitRootLeaf (pairs.map Prod.fst) (pairs.map Prod.snd)) := by
  have hpairs : pairs.length = maxKeys + 1 := by rw [← hlength, ← hkeys.length_eq, List.length_map]
  obtain ⟨low, p, rest, rfl, hlow⟩ : ∃ low p rest, pairs = low ++ p :: rest ∧ low.length = (maxKeys + 1) / 2 := by
    have hmid : (maxKeys + 1) / 2 < pairs.length := by omega
    refine ⟨pairs.take ((maxKeys + 1) / 2), pairs[(maxKeys + 1) / 2], pairs.drop ((maxKeys + 1) / 2 + 1), ?_, ?_⟩
    · rw [← List.drop_eq_getElem_cons hmid, List.take_append_drop]
    · rw [List.length_take, min_eq_left hmid.le]
  obtain ⟨hlowAscending, hhighAscending, hcross⟩ := List.pairwise_append.mp h
  have hbelow : ∀ q ∈ low, q.1 < p.1 := fun q hq => hcross q hq p List.mem_cons_self
  have habove : ∀ q ∈ p :: rest, p.1 ≤ q.1 := by
    intro q hq
    rcases List.mem_cons.mp hq with rfl | hq
    · exact le_rfl
    · exact ((List.pairwise_cons.mp hhighAscending).1 q hq).le
  rw [splitRootLeaf_eq (by rw [hlow, hpairs])]
  refine halves ?_ hlowAscending hhighAscending ?_ ?_ ?_
  · -- the leaf holds exactly the first `maxKeys + 1` keys, in order
    rw [splitKey, if_pos (by omega), List.take_of_length_le hlength.le,
      mergeSort_eq (List.pairwise_map.mpr h) hkeys, ← hlow, keys_at_split]
    rfl
  · rw [← filter_low hbelow habove]
    exact hkeys.filter _
  · rw [← filter_high hbelow habove]
    exact hkeys.filter _
  · intro k
    rw [lookup_halves hbelow habove, hvalues]

theorem insert (h : Shaped maxKeys inserted map root) (key : K) (val : V) :
    Shaped maxKeys (note inserted key) (fun k => if k = key then some val else map k)
      (Node.insert maxKeys root key val) := by
  cases h with
  | @leaf pairs ascending keys fits values =>
    obtain ⟨pairs', hleaf, hascending, hkeys, hvalues⟩ := insertIntoLeaf_spec ascending key val
    have hnote : (pairs'.map Prod.fst).Perm (note inserted key) := hkeys.trans (note_perm keys key)
    simp only [values] at hvalues
    simp only [leafOf, Node.insert, hleaf]
    split_ifs with hfull
    · apply of_split hascending hnote _ hvalues
      have hbound : (note inserted key).length ≤ inserted.length + 1 := by
        unfold note
        split_ifs <;> simp
      rw [hnote.length_eq] at hfull
      omega
    · refine .leaf hascending hnote ?_ hvalues
      rw [← hnote.length_eq]
      omega
  | @halves s low high split lowAscending highAscending lowKeys highKeys values =>
    rw [Node.insert, insertBelow, childIndex, childIndex]
    split_ifs with hkey
    · obtain ⟨high', hleaf, hascending, hkeys, hvalues⟩ := insertIntoLeaf_spec highAscending key val
      simp only [insertChild, leafOf, insertBelow, hleaf]
      refine halves (splitKey_mono (prefix_note _ key) split) lowAscending hascending ?_ ?_ ?_
      · rw [filter_note, if_neg (by simpa using hkey)]
        exact lowKeys
      · rw [filter_note, if_pos (by simpa using hkey)]
        exact hkeys.trans (note_perm highKeys key)
      · intro k
        rw [hvalues, ← values k]
        by_cases hk : k = key
        · rw [if_pos hk, if_pos hk, if_pos (hk ▸ hkey)]
        · rw [if_neg hk, if_neg hk]
    · obtain ⟨low', hleaf, hascending, hkeys, hvalues⟩ := insertIntoLeaf_spec lowAscending key val
      simp only [insertChild, leafOf, insertBelow, hleaf]
      refine halves (splitKey_mono (prefix_note _ key) split) hascending highAscending ?_ ?_ ?_
      · rw [filter_note, if_pos (by simpa using hkey)]
        exact hkeys.trans (note_perm lowKeys key)
      · rw [filter_note, if_neg (by simpa using hkey)]
        exact highKeys
      · intro k
        rw [hvalues, ← values k]
        by_cases hk : k = key
        · rw [if_pos hk, if_pos hk, if_neg (hk ▸ hkey)]
        · rw [if_neg hk, if_neg hk]

theorem search (h : Shaped maxKeys inserted map root) (key : K) : Node.search key root = map key := by
  cases h with
  | leaf ascending _ _ values => rw [search_leafOf ascending, values]
  | halves _ lowAscending highAscending _ _ values =>
    rw [Node.search, childIndex, childIndex, ← values key]
    split_ifs
    · rw [searchChild, searchChild, search_leafOf highAscending]
    · rw [searchChild, search_leafOf lowAscending]

theorem isBPlusTree_iff (h : Shaped maxKeys inserted map root) :
    IsBPlusTree maxKeys root ↔ HalvesFit maxKeys inserted := by
  cases h with
  | @leaf pairs _ keys fits _ =>
    have hcensus : census 0 (leafOf pairs) = [⟨0, inserted.length, none⟩] := by
      rw [leafOf, census, keys.length_eq]
    have hunsplit : splitKey maxKeys inserted = none := if_neg (not_lt.mpr fits)
    simp [IsBPlusTree, HalvesFit, hcensus, hunsplit, fits]
  | @halves s low high split _ _ lowKeys highKeys _ =>
    have hcensus : census 0 (.internal [s] [leafOf low, leafOf high]) =
        [⟨0, 1, some 2⟩, ⟨1, inserted.countP fun k => decide (k < s), none⟩,
          ⟨1, inserted.countP fun k => decide (s ≤ k), none⟩] := by
      simp only [census, censusBelow, leafOf, lowKeys.length_eq, highKeys.length_eq, List.countP_eq_length_filter]
      rfl
    have hpositive : 0 < inserted.countP fun k => decide (s ≤ k) :=
      List.countP_pos_iff.mpr ⟨s, mem_of_splitKey split, decide_eq_true le_rfl⟩
    simp only [IsBPlusTree, HalvesFit, hcensus, split]
    simp
    omega

end Shaped

theorem built_concat (maxKeys : ℕ) (entries : List (K × V)) (entry : K × V) :
    built maxKeys (entries ++ [entry]) = insert maxKeys (built maxKeys entries) entry.1 entry.2 := by
  simp only [built, List.foldl_append, List.foldl_cons, List.foldl_nil]

theorem distinctKeys_concat (entries : List (K × V)) (entry : K × V) :
    distinctKeys (entries ++ [entry]) = note (distinctKeys entries) entry.1 := by
  simp only [distinctKeys, List.foldl_append, List.foldl_cons, List.foldl_nil]

theorem shaped_built (maxKeys : ℕ) (entries : List (K × V)) :
    Shaped maxKeys (distinctKeys entries) (fun k => entries.reverse.lookup k) (built maxKeys entries) := by
  induction entries using List.reverseRecOn with
  | nil => exact @Shaped.leaf K V _ maxKeys _ _ [] .nil .nil (Nat.zero_le _) fun _ => rfl
  | append_singleton entries entry ih =>
    rw [built_concat, distinctKeys_concat]
    convert ih.insert entry.1 entry.2 using 2 with k
    rw [List.reverse_append, List.reverse_singleton, List.singleton_append]
    split_ifs with hk
    · rw [hk, List.lookup_cons_self]
    · exact lookup_cons_ne (Ne.symm hk)

theorem search_built (maxKeys : ℕ) (entries : List (K × V)) (key : K) :
    search key (built maxKeys entries) = entries.reverse.lookup key :=
  (shaped_built maxKeys entries).search key

theorem prefix_distinctKeys {done entries : List (K × V)} (h : done <+: entries) :
    distinctKeys done <+: distinctKeys entries := by
  obtain ⟨more, rfl⟩ := h
  induction more using List.reverseRecOn with
  | nil => rw [List.append_nil]
  | append_singleton more entry ih =>
    rw [← List.append_assoc, distinctKeys_concat]
    exact ih.trans (prefix_note _ _)

theorem HalvesFit.mono {maxKeys : ℕ} {keys keys' : List K} (h : HalvesFit maxKeys keys')
    (hkeys : keys <+: keys') : HalvesFit maxKeys keys := by
  intro s hs
  obtain ⟨hlow, hhigh⟩ := h s (splitKey_mono hkeys hs)
  exact ⟨(hkeys.sublist.countP_le).trans hlow, (hkeys.sublist.countP_le).trans hhigh⟩

theorem stays_b_plus_tree_iff (maxKeys : ℕ) (entries : List (K × V)) :
    (∀ done, done <+: entries → IsBPlusTree maxKeys (built maxKeys done)) ↔
      HalvesFit maxKeys (distinctKeys entries) := by
  constructor
  · intro h
    exact (shaped_built maxKeys entries).isBPlusTree_iff.mp (h entries (List.prefix_refl entries))
  · intro h done hdone
    exact (shaped_built maxKeys done).isBPlusTree_iff.mpr (h.mono (prefix_distinctKeys hdone))

theorem fourth_key_overfills_leaf :
    ¬ IsBPlusTree 2 (built 2 [((1 : ℕ), 10), (2, 20), (3, 30), (4, 40)]) := by
  decide +kernel

end SystemLevel.Indexing.Node
