import SystemLevel.Lsm.SkipListOrder

namespace SystemLevel.Lsm

open Lookup

namespace SkipListMemTable

structure WellFormed (m : SkipListMemTable) : Prop where
  ordered : ∃ order, m.Ordered order
  size_eq : m.toVector = [] → m.size = 0

theorem put_split {m : SkipListMemTable} {order : List ℕ} (h : m.Ordered order) (key value : UInt64) (level : Level) :
    ∃ below same above, m.toVector = below ++ (same ++ above) ∧ (∀ p ∈ below, p.1 < key) ∧
      (m.put key value level).toVector = below ++ (key, value) :: above ∧
      (∃ order', (m.put key value level).Ordered order') ∧
      (same = [] ∧ (m.put key value level).size = m.size + 1 ∨
        (∃ old, same = [(key, old)]) ∧ (m.put key value level).size = m.size) := by
  obtain ⟨lt, ge, hsplit, hlt, hge⟩ := h.split key
  obtain ⟨hlen, hupdate, hcurr⟩ := h.search_spec hsplit hlt hge
  have hbelow : ∀ p ∈ lt.map m.entry, p.1 < key := by
    intro p hp
    obtain ⟨a, ha, rfl⟩ := List.mem_map.mp hp
    exact hlt a ha
  have hvector : m.toVector = lt.map m.entry ++ ge.map m.entry := by
    rw [h.toVector_eq, hsplit, List.map_append]
  have hinsert (hgt : ∀ a ∈ ge, key < m.nodes.keyAt a) :
      (m.insert key value level (m.search key).2).toVector = lt.map m.entry ++ (key, value) :: ge.map m.entry ∧
        ∃ order', (m.insert key value level (m.search key).2).Ordered order' := by
    obtain ⟨hordered, hentries⟩ := h.insert hsplit hlt hgt value level hlen hupdate
    exact ⟨hordered.toVector_eq.trans hentries, _, hordered⟩
  simp only [put, hcurr]
  cases ge with
  | nil =>
    obtain ⟨hentries, hordered⟩ := hinsert (by simp)
    exact ⟨lt.map m.entry, [], [], hvector, hbelow, hentries, hordered, .inl ⟨rfl, rfl⟩⟩
  | cons b ge =>
    simp only [List.head?_cons]
    split_ifs with hb
    · obtain ⟨hordered, hentries⟩ := h.setValue hsplit value
      refine ⟨lt.map m.entry, [m.entry b], ge.map m.entry, hvector, hbelow, ?_, ⟨order, hordered⟩,
        .inr ⟨⟨m.nodes.valueAt b, ?_⟩, rfl⟩⟩
      · rw [hordered.toVector_eq, hentries, hb]
      · rw [entry, hb]
    · have hkb : key < m.nodes.keyAt b := UInt64.lt_of_le_of_ne (UInt64.not_lt.mp (hge b (by simp))) (Ne.symm hb)
      have hsorted := h.sorted
      rw [hsplit] at hsorted
      have habove := (List.pairwise_cons.mp (List.pairwise_append.mp hsorted).2.1).1
      have hgt : ∀ a ∈ b :: ge, key < m.nodes.keyAt a := by
        rintro a (_ | ⟨_, ha⟩)
        · exact hkb
        · exact UInt64.lt_trans hkb (habove a ha)
      obtain ⟨hentries, hordered⟩ := hinsert hgt
      exact ⟨lt.map m.entry, [], (b :: ge).map m.entry, hvector, hbelow, hentries, hordered, .inl ⟨rfl, rfl⟩⟩

theorem put_spec {m : SkipListMemTable} {order : List ℕ} (h : m.Ordered order) (key value : UInt64) (level : Level) :
    ∃ order', (m.put key value level).Ordered order' ∧
      ∀ k, (m.put key value level).toVector.lookup k = if k = key then some value else m.toVector.lookup k := by
  obtain ⟨below, same, above, hvector, hbelow, hput, ⟨order', hordered⟩, hsame⟩ := put_split h key value level
  refine ⟨order', hordered, fun k => ?_⟩
  rw [hput, hvector]
  apply lookup_replaced (fun p hp => UInt64.ne_of_lt (hbelow p hp))
  obtain ⟨rfl, -⟩ | ⟨⟨old, rfl⟩, -⟩ := hsame
  · simp
  · simp

theorem wellFormed_put {m : SkipListMemTable} (h : m.WellFormed) (key value : UInt64) (level : Level) :
    (m.put key value level).WellFormed := by
  obtain ⟨order, hordered⟩ := h.ordered
  obtain ⟨order', hordered', hlookup⟩ := put_spec hordered key value level
  refine ⟨⟨order', hordered'⟩, fun hnil => ?_⟩
  have hkey := hlookup key
  simp [hnil] at hkey

end SkipListMemTable

abbrev MemTable := { m : SkipListMemTable // m.WellFormed }

namespace MemTable

def empty : MemTable := ⟨{}, ⟨[], SkipListMemTable.ordered_empty⟩, fun _ => rfl⟩

def put (m : MemTable) (key value : UInt64) (level : Level) : MemTable :=
  ⟨m.1.put key value level, SkipListMemTable.wellFormed_put m.2 key value level⟩

def get (m : MemTable) (key : UInt64) : Option UInt64 := m.1.get key

def toVector (m : MemTable) : List (UInt64 × UInt64) := m.1.toVector

def size (m : MemTable) : UInt64 := m.1.size

def byteSize (m : MemTable) : UInt64 := m.1.byteSize

theorem get_eq_lookup (m : MemTable) (key : UInt64) : m.get key = m.toVector.lookup key := by
  obtain ⟨order, h⟩ := m.2.ordered
  exact h.get_eq key

theorem toVector_sorted (m : MemTable) : Ascending m.toVector := by
  obtain ⟨order, h⟩ := m.2.ordered
  exact h.toVector_sorted

@[simp] theorem get_empty (key : UInt64) : empty.get key = none := by
  rw [get_eq_lookup]
  rfl

@[simp] theorem get_put (m : MemTable) (key value : UInt64) (level : Level) (k : UInt64) :
    (m.put key value level).get k = if k = key then some value else m.get k := by
  rw [get_eq_lookup, get_eq_lookup]
  obtain ⟨order, h⟩ := m.2.ordered
  obtain ⟨-, -, hlookup⟩ := SkipListMemTable.put_spec h key value level
  exact hlookup k

end MemTable

end SystemLevel.Lsm
