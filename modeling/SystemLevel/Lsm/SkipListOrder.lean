import SystemLevel.Lsm.SkipListLinks
import SystemLevel.Lsm.SortedPairs

namespace SystemLevel.Lsm

open Towers Nodes

structure SkipListMemTable.Ordered (m : SkipListMemTable) (order : List ℕ) : Prop where
  nodup : (0 :: order).Nodup
  valid : ∀ a ∈ 0 :: order, a < m.nodes.length
  head : m.nodes.height 0 = maxLevel
  heights : ∀ a ∈ order, 0 < m.nodes.height a ∧ m.nodes.height a ≤ m.currentLevel
  level_pos : 0 < m.currentLevel
  level_le : m.currentLevel ≤ maxLevel
  sorted : order.Pairwise (fun a b => m.nodes.keyAt a < m.nodes.keyAt b)
  linked : Linked m.nodes.forward m.nodes.height (0 :: order)

namespace SkipListMemTable

def entry (m : SkipListMemTable) (a : ℕ) : UInt64 × UInt64 := (m.nodes.keyAt a, m.nodes.valueAt a)

theorem forward_head {i : ℕ} (hi : i < maxLevel) : ({} : SkipListMemTable).nodes.forward 0 i = none := by
  simp [Nodes.forward, hi]

theorem ordered_empty : ({} : SkipListMemTable).Ordered [] := by
  constructor
  · simp
  · simp
  · rfl
  · simp
  · exact Nat.zero_lt_one
  · decide
  · simp
  · intro pre a post hsplit i hi
    cases pre with
    | nil =>
      obtain ⟨rfl, rfl⟩ := List.cons.inj hsplit
      rw [next, List.find?_nil]
      exact forward_head hi
    | cons b pre => simp at hsplit

namespace Ordered

variable {m : SkipListMemTable} {order : List ℕ} (h : m.Ordered order)

include h

theorem height_pos {a : ℕ} (ha : a ∈ 0 :: order) : 0 < m.nodes.height a := by
  rcases List.mem_cons.mp ha with rfl | ha
  · rw [h.head]
    decide
  · exact (h.heights a ha).1

theorem length_le : (0 :: order).length ≤ m.nodes.length := by
  have hsub : 0 :: order ⊆ List.range m.nodes.length := fun a ha => List.mem_range.mpr (h.valid a ha)
  have := (h.nodup.subperm hsub).length_le
  rwa [List.length_range] at this

theorem toVector_eq : m.toVector = order.map m.entry := by
  have hlen := h.length_le
  rw [List.length_cons] at hlen
  rw [toVector, chain_eq h.linked (fun a ha => h.height_pos ha) (show 0 :: order = [] ++ 0 :: order from rfl)
    (by omega)]
  rfl

theorem toVector_sorted : m.toVector.Pairwise (fun p q => p.1 < q.1) := by
  rw [h.toVector_eq, List.pairwise_map]
  exact h.sorted

theorem split (key : UInt64) : ∃ lt ge, order = lt ++ ge ∧ (∀ a ∈ lt, m.nodes.keyAt a < key) ∧
    ∀ a ∈ ge, ¬ m.nodes.keyAt a < key := by
  obtain ⟨lt, ge, hsplit, hlt, hge⟩ := Bisection.exists_split (fun a => decide (m.nodes.keyAt a < key)) order
    (h.sorted.imp (fun hab hb => by simpa using UInt64.lt_trans hab (by simpa using hb)))
  exact ⟨lt, ge, hsplit, by simpa using hlt, by simpa using hge⟩

theorem search_spec {key : UInt64} {lt ge : List ℕ} (hsplit : order = lt ++ ge)
    (hlt : ∀ a ∈ lt, m.nodes.keyAt a < key) (hge : ∀ a ∈ ge, ¬ m.nodes.keyAt a < key) :
    (m.search key).2.length = m.currentLevel ∧
      (∀ i u, (m.search key).2[i]? = some u → LastAt m.nodes.height i (0 :: lt) u) ∧
      m.nodes.forward (m.search key).1 0 = ge.head? := by
  have hlinked : Linked m.nodes.forward m.nodes.height ((0 :: lt) ++ ge) := by
    have := h.linked
    rwa [hsplit] at this
  have hfuel : (0 :: lt).length ≤ m.nodes.length := by
    have := h.length_le
    simp only [hsplit, List.length_cons, List.length_append] at this ⊢
    omega
  have hbefore : ∀ a ∈ (0 :: lt).tail, decide (m.nodes.keyAt a < key) = true := by simpa using hlt
  have hafter : ∀ a ∈ ge, decide (m.nodes.keyAt a < key) = false := by simpa using hge
  obtain ⟨hlen, hlast, hcurr⟩ := descend_last hlinked hbefore hafter (List.mem_cons_self) (h.head ▸ h.level_le) hfuel
  refine ⟨hlen, hlast, ?_⟩
  rw [search, hlinked.forward_last (hcurr h.level_pos)]
  cases ge with
  | nil => rfl
  | cons b ge =>
    have hb : 0 < m.nodes.height b := (h.heights b (by simp [hsplit])).1
    simp [next, hb]

theorem get_eq (key : UInt64) : m.get key = m.toVector.lookup key := by
  obtain ⟨lt, ge, hsplit, hlt, hge⟩ := h.split key
  have hsorted := h.toVector_sorted
  rw [get, (h.search_spec hsplit hlt hge).2.2]
  rw [h.toVector_eq, hsplit, List.map_append] at hsorted ⊢
  rw [lookup_ascending hsorted (by simpa [entry] using hlt) (by simpa [entry] using hge), List.head?_map]
  cases ge.head? with
  | none => rfl
  | some b => rfl

theorem entries_ne {lt ge : List ℕ} {b : ℕ} (hsplit : order = lt ++ b :: ge) : b ∉ lt ∧ b ∉ ge := by
  have hnodup := (List.nodup_cons.mp h.nodup).2
  rw [hsplit] at hnodup
  obtain ⟨-, hge, hne⟩ := List.nodup_append.mp hnodup
  exact ⟨fun hb => hne b hb b (by simp) rfl, (List.nodup_cons.mp hge).1⟩

theorem setValue {lt ge : List ℕ} {b : ℕ} (hsplit : order = lt ++ b :: ge) (value : UInt64) :
    Ordered { m with nodes := m.nodes.setValue b value } order ∧
      order.map (entry { m with nodes := m.nodes.setValue b value }) =
        lt.map m.entry ++ (m.nodes.keyAt b, value) :: ge.map m.entry := by
  have hkey (a : ℕ) : (m.nodes.setValue b value).keyAt a = m.nodes.keyAt a := (setValue_at _ b value a).1
  have hheight : (m.nodes.setValue b value).height = m.nodes.height := by
    funext a
    exact (setValue_at _ b value a).2.1
  have hforward : (m.nodes.setValue b value).forward = m.nodes.forward := by
    funext a i
    exact (setValue_at _ b value a).2.2.1 i
  have hlength : (m.nodes.setValue b value).length = m.nodes.length := List.length_modify ..
  have hother {l : List ℕ} (hl : b ∉ l) :
      l.map (entry { m with nodes := m.nodes.setValue b value }) = l.map m.entry := by
    apply List.map_congr_left
    intro a ha
    have hab : a ≠ b := fun he => hl (he ▸ ha)
    simp only [entry, hkey, (setValue_at _ b value a).2.2.2 hab]
  constructor
  · constructor
    · exact h.nodup
    · simpa only [hlength] using h.valid
    · simpa only [hheight] using h.head
    · simpa only [hheight] using h.heights
    · exact h.level_pos
    · exact h.level_le
    · simpa only [hkey] using h.sorted
    · simpa only [hheight, hforward] using h.linked
  · obtain ⟨hlt, hge⟩ := h.entries_ne hsplit
    have hb : b < m.nodes.length := h.valid b (by simp [hsplit])
    rw [hsplit, List.map_append, List.map_cons, hother hlt, hother hge, entry]
    simp only [hkey, setValue_value hb]

theorem update_last {lt : List ℕ} (hlt : lt ⊆ order) {update : List ℕ} (hlen : update.length = m.currentLevel)
    (hupdate : ∀ i u, update[i]? = some u → LastAt m.nodes.height i (0 :: lt) u) {newLevel : ℕ}
    (hle : newLevel ≤ maxLevel) {i : ℕ} (hi : i < newLevel) :
    ∃ u, (update ++ List.replicate (newLevel - m.currentLevel) 0)[i]? = some u ∧
      LastAt m.nodes.height i (0 :: lt) u := by
  rcases Nat.lt_or_ge i m.currentLevel with hlow | hhigh
  · have hget := List.getElem?_eq_getElem (show i < update.length by omega)
    exact ⟨_, by rw [List.getElem?_append_left (by omega), hget], hupdate i _ hget⟩
  · refine ⟨0, ?_, [], lt, rfl, by rw [h.head]; omega, ?_⟩
    · rw [List.getElem?_append_right (by omega), List.getElem?_replicate, if_pos (by omega)]
    · intro a ha
      have := (h.heights a (hlt ha)).2
      omega

section Grown

variable {grown : SkipListMemTable} {key value : UInt64} {newLevel : ℕ} {update lt ge : List ℕ}
  (hsplit : order = lt ++ ge) (hgrown : Grown m.nodes key value newLevel update grown.nodes)

include hsplit

theorem inside {a : ℕ} (ha : a ∈ 0 :: (lt ++ ge)) : a < m.nodes.length := h.valid a (by rwa [hsplit])

theorem inside_last {a i : ℕ} (ha : LastAt m.nodes.height i (0 :: lt) a) : a < m.nodes.length := by
  obtain ⟨p, q, hpq, -⟩ := ha
  exact h.inside hsplit (List.mem_append_left ge (show a ∈ 0 :: lt by rw [hpq]; simp))

theorem grown_nodup : (0 :: (lt ++ m.nodes.length :: ge)).Nodup := by
  have hnodup := h.nodup
  rw [hsplit, ← List.cons_append] at hnodup
  rw [← List.cons_append, List.nodup_middle, List.nodup_cons]
  exact ⟨fun hmem => absurd (h.inside hsplit hmem) (Nat.lt_irrefl _), hnodup⟩

include hgrown

theorem grown_key {a : ℕ} (ha : a ∈ lt ++ ge) : grown.nodes.keyAt a = m.nodes.keyAt a :=
  (hgrown.old a (h.inside hsplit (List.mem_cons_of_mem 0 ha))).1

theorem grown_height {a : ℕ} (ha : a ∈ 0 :: (lt ++ ge)) : grown.nodes.height a = m.nodes.height a :=
  (hgrown.old a (h.inside hsplit ha)).2.2

theorem grown_sorted (hlt : ∀ a ∈ lt, m.nodes.keyAt a < key) (hge : ∀ a ∈ ge, key < m.nodes.keyAt a) :
    (lt ++ m.nodes.length :: ge).Pairwise fun a b => grown.nodes.keyAt a < grown.nodes.keyAt b := by
  have hsorted := h.sorted
  rw [hsplit, List.pairwise_append] at hsorted
  obtain ⟨hlow, hhigh, hcross⟩ := hsorted
  have hsame {a b : ℕ} (ha : a ∈ lt ++ ge) (hb : b ∈ lt ++ ge) (hab : m.nodes.keyAt a < m.nodes.keyAt b) :
      grown.nodes.keyAt a < grown.nodes.keyAt b := by
    rwa [h.grown_key hsplit hgrown ha, h.grown_key hsplit hgrown hb]
  rw [List.pairwise_append, List.pairwise_cons]
  refine ⟨hlow.imp_of_mem ?_, ⟨?_, hhigh.imp_of_mem ?_⟩, ?_⟩
  · intro a b ha hb
    exact hsame (by simp [ha]) (by simp [hb])
  · intro b hb
    rw [hgrown.new.1, h.grown_key hsplit hgrown (by simp [hb])]
    exact hge b hb
  · intro a b ha hb
    exact hsame (by simp [ha]) (by simp [hb])
  · intro a ha b hb
    rcases List.mem_cons.mp hb with rfl | hb
    · rw [hgrown.new.1, h.grown_key hsplit hgrown (by simp [ha])]
      exact hlt a ha
    · exact hsame (by simp [ha]) (by simp [hb]) (hcross a ha b hb)

theorem grown_linked
    (hlast : ∀ i, i < newLevel → ∃ u, update[i]? = some u ∧ LastAt m.nodes.height i (0 :: lt) u) :
    Linked grown.nodes.forward grown.nodes.height (0 :: (lt ++ m.nodes.length :: ge)) := by
  have hlinked := h.linked
  have hnodup := h.nodup
  rw [hsplit, ← List.cons_append] at hlinked hnodup
  rw [← List.cons_append]
  apply hlinked.splice hnodup (fun a ha => h.grown_height hsplit hgrown ha)
  · intro i hi
    rw [hgrown.new.2.2] at hi
    obtain ⟨u, hu, hat⟩ := hlast i hi
    rw [hgrown.forward_new u i (h.inside_last hsplit hat) hi hu, hlinked.forward_last hat]
  · intro i c hi hc
    rw [hgrown.new.2.2] at hi
    obtain ⟨u, hu, hat⟩ := hlast i hi
    rw [hc.unique hat]
    exact hgrown.forward_last u i (h.inside_last hsplit hat) hi hu
  · intro a ha i hnot
    apply hgrown.forward_old a i (h.inside hsplit ha)
    rintro ⟨hi, hu⟩
    obtain ⟨v, hv, hat⟩ := hlast i hi
    rw [hu, Option.some.injEq] at hv
    exact hnot ⟨by rwa [hgrown.new.2.2], hv ▸ hat⟩

theorem grown_entries : (lt ++ m.nodes.length :: ge).map grown.entry =
    lt.map m.entry ++ (key, value) :: ge.map m.entry := by
  have hsame {l : List ℕ} (hl : l ⊆ lt ++ ge) : l.map grown.entry = l.map m.entry := by
    apply List.map_congr_left
    intro a ha
    obtain ⟨hkey, hvalue, -⟩ := hgrown.old a (h.inside hsplit (List.mem_cons_of_mem 0 (hl ha)))
    rw [entry, entry, hkey, hvalue]
  rw [List.map_append, List.map_cons, hsame (List.subset_append_left lt ge), hsame (List.subset_append_right lt ge),
    entry, hgrown.new.1, hgrown.new.2.1]

end Grown

theorem insert {key : UInt64} {lt ge : List ℕ} (hsplit : order = lt ++ ge)
    (hlt : ∀ a ∈ lt, m.nodes.keyAt a < key) (hge : ∀ a ∈ ge, key < m.nodes.keyAt a) (value : UInt64) (level : Level)
    {update : List ℕ} (hlen : update.length = m.currentLevel)
    (hupdate : ∀ i u, update[i]? = some u → LastAt m.nodes.height i (0 :: lt) u) :
    Ordered (m.insert key value level update) (lt ++ m.nodes.length :: ge) ∧
      (lt ++ m.nodes.length :: ge).map (entry (m.insert key value level update)) =
        lt.map m.entry ++ (key, value) :: ge.map m.entry := by
  obtain ⟨newLevel, hpos, hle⟩ := level
  have hlast (i : ℕ) (hi : i < newLevel) := h.update_last (show lt ⊆ order by simp [hsplit]) hlen hupdate hle hi
  have hgrown : Grown m.nodes key value newLevel (update ++ List.replicate (newLevel - m.currentLevel) 0)
      (m.insert key value newLevel update).nodes := by
    apply grown_links
    intro i hi
    obtain ⟨u, hu, hat⟩ := hlast i hi
    exact ⟨u, hu, h.inside_last hsplit hat, by obtain ⟨p, q, -, hheight, -⟩ := hat; exact hheight⟩
  have hlevel : (m.insert key value newLevel update).currentLevel =
      if m.currentLevel < newLevel then newLevel else m.currentLevel := rfl
  generalize m.insert key value newLevel update = grown at *
  have hcases {a : ℕ} (ha : a ∈ lt ++ m.nodes.length :: ge) : a = m.nodes.length ∨ a ∈ lt ++ ge := by
    simpa [or_left_comm] using ha
  have hlevels := h.level_le
  refine ⟨⟨h.grown_nodup hsplit, ?_, ?_, ?_, ?_, ?_, h.grown_sorted hsplit hgrown hlt hge,
    h.grown_linked hsplit hgrown hlast⟩, h.grown_entries hsplit hgrown⟩
  · intro a ha
    rw [hgrown.length]
    rcases List.mem_cons.mp ha with rfl | ha
    · exact (h.valid 0 List.mem_cons_self).trans (Nat.lt_succ_self _)
    · rcases hcases ha with rfl | ha
      · exact Nat.lt_succ_self _
      · exact (h.inside hsplit (List.mem_cons_of_mem 0 ha)).trans (Nat.lt_succ_self _)
  · rw [h.grown_height hsplit hgrown List.mem_cons_self, h.head]
  · intro a ha
    rw [hlevel]
    rcases hcases ha with rfl | ha
    · rw [hgrown.new.2.2]
      split_ifs <;> omega
    · rw [h.grown_height hsplit hgrown (List.mem_cons_of_mem 0 ha)]
      have hheight := h.heights a (by rwa [hsplit])
      split_ifs <;> omega
  · rw [hlevel]
    split_ifs <;> omega
  · rw [hlevel]
    split_ifs <;> assumption

end Ordered

end SkipListMemTable

end SystemLevel.Lsm
