import SystemLevel.Lsm.MemTable

namespace SystemLevel.Lsm.SkipListMemTable

open Towers Lookup

structure Put where
  key : UInt64
  value : UInt64
  level : Level

def Put.entry (p : Put) : Pair := (p.key, p.value)

def built (puts : List Put) : SkipListMemTable := puts.foldl (fun m p => m.put p.key p.value p.level) {}

theorem built_snoc (puts : List Put) (p : Put) : built (puts ++ [p]) = (built puts).put p.key p.value p.level := by
  rw [built, List.foldl_append, List.foldl_cons, List.foldl_nil, built]

theorem built_ordered (puts : List Put) : ∃ order, (built puts).Ordered order := by
  induction puts using List.reverseRecOn with
  | nil => exact ⟨[], ordered_empty⟩
  | append_singleton puts p ih =>
    obtain ⟨order, h⟩ := ih
    obtain ⟨order', h', -⟩ := put_spec h p.key p.value p.level
    rw [built_snoc]
    exact ⟨order', h'⟩

theorem built_lookup (puts : List Put) (k : UInt64) :
    (built puts).toVector.lookup k = latest (puts.map Put.entry) k := by
  induction puts using List.reverseRecOn with
  | nil => rfl
  | append_singleton puts p ih =>
    obtain ⟨order, h⟩ := built_ordered puts
    obtain ⟨-, -, hlookup⟩ := put_spec h p.key p.value p.level
    rw [built_snoc, hlookup, List.map_append, List.map_singleton, Put.entry, latest_snoc, Function.update_apply, ih]

theorem built_size (puts : List Put) : (built puts).size = UInt64.ofNat (built puts).toVector.length := by
  induction puts using List.reverseRecOn with
  | nil => rfl
  | append_singleton puts p ih =>
    obtain ⟨order, h⟩ := built_ordered puts
    obtain ⟨below, same, above, hvector, -, hput, -, hsame⟩ := put_split h p.key p.value p.level
    rw [built_snoc, hput]
    rw [hvector] at ih
    obtain ⟨rfl, hsize⟩ | ⟨⟨old, rfl⟩, hsize⟩ := hsame
    · rw [hsize, ih, List.nil_append, List.length_append, List.length_append, List.length_cons, ← Nat.add_assoc,
        UInt64.ofNat_add _ 1]
      rfl
    · rw [hsize, ih, List.singleton_append, List.length_append, List.length_append, List.length_cons,
        List.length_cons]

theorem Ordered.levels {m : SkipListMemTable} {order : List ℕ} (h : m.Ordered order) {i : ℕ} (hi : i < maxLevel) :
    Traverses m.nodes.forward i (m.nodes.forward 0 i) (order.filter fun a => i < m.nodes.height a) := by
  apply h.linked.traverses
  rwa [h.head]

theorem Ordered.level_zero {m : SkipListMemTable} {order : List ℕ} (h : m.Ordered order) :
    Traverses m.nodes.forward 0 (m.nodes.forward 0 0) order := by
  have hall : order.filter (fun a => 0 < m.nodes.height a) = order := by
    rw [List.filter_eq_self]
    intro a ha
    simpa using (h.heights a ha).1
  have hlevels := h.levels (show 0 < maxLevel by decide)
  rwa [hall] at hlevels

theorem built_ascending (puts : List Put) : Ascending (built puts).toVector := by
  obtain ⟨order, h⟩ := built_ordered puts
  exact h.toVector_sorted

theorem built_keys (puts : List Put) :
    ((built puts).toVector.map Prod.fst).toFinset = (puts.map Put.key).toFinset := by
  have hentries : puts.map Put.key = (puts.map Put.entry).map Prod.fst := by
    rw [List.map_map]
    rfl
  ext k
  rw [List.mem_toFinset, List.mem_toFinset, hentries, ← not_iff_not, ← latest_eq_none (puts.map Put.entry),
    ← built_lookup, List.lookup_eq_none_iff]
  simp only [List.mem_map, not_exists, not_and, bne_iff_ne, ne_eq]
  exact forall₂_congr fun p _ => not_congr eq_comm

theorem built_size_eq_card (puts : List Put) :
    (built puts).size = UInt64.ofNat (puts.map Put.key).toFinset.card := by
  rw [built_size, ← built_keys, List.toFinset_card_of_nodup (ascending_nodup (built_ascending puts)), List.length_map]

theorem built_congr {puts puts' : List Put} (h : puts'.map Put.entry = puts.map Put.entry) :
    (built puts').get = (built puts).get ∧ (built puts').toVector = (built puts).toVector ∧
      (built puts').size = (built puts).size := by
  have hvector : (built puts').toVector = (built puts).toVector := by
    apply ascending_ext (built_ascending puts') (built_ascending puts)
    intro k
    rw [built_lookup, built_lookup, h]
  refine ⟨?_, hvector, ?_⟩
  · obtain ⟨order, hordered⟩ := built_ordered puts
    obtain ⟨order', hordered'⟩ := built_ordered puts'
    funext k
    rw [hordered'.get_eq, hordered.get_eq, hvector]
  · rw [built_size, built_size, hvector]

theorem skip_list_is_sorted_map (puts : List Put) :
    (∃ order, Traverses (built puts).nodes.forward 0 ((built puts).nodes.forward 0 0) order ∧
      ∀ i < maxLevel, ∃ level, Traverses (built puts).nodes.forward i ((built puts).nodes.forward 0 i) level ∧
        level = order.filter (fun a => i < (built puts).nodes.height a) ∧
        level.Pairwise fun a b => (built puts).nodes.keyAt a < (built puts).nodes.keyAt b) ∧
    (∀ k, (built puts).get k = latest (puts.map Put.entry) k) ∧
    Ascending (built puts).toVector ∧
    (∀ k v, (k, v) ∈ (built puts).toVector ↔ latest (puts.map Put.entry) k = some v) ∧
    (built puts).size = UInt64.ofNat (puts.map Put.key).toFinset.card ∧
    ∀ puts' : List Put, puts'.map Put.entry = puts.map Put.entry →
      (built puts').get = (built puts).get ∧ (built puts').toVector = (built puts).toVector ∧
        (built puts').size = (built puts).size := by
  obtain ⟨order, h⟩ := built_ordered puts
  have hascending := built_ascending puts
  refine ⟨⟨order, h.level_zero, fun i hi => ⟨_, h.levels hi, rfl, h.sorted.filter _⟩⟩, ?_, hascending, ?_,
    built_size_eq_card puts, fun puts' => built_congr⟩
  · intro k
    rw [h.get_eq, built_lookup]
  · intro k v
    rw [mem_iff_lookup_ascending hascending, built_lookup]

example : (built [⟨5, 1, levelOf 1⟩, ⟨0, 7, levelOf 16⟩, ⟨0, 8, levelOf 2⟩]).toVector = [(0, 8), (5, 1)] := by
  decide +kernel

end SystemLevel.Lsm.SkipListMemTable
