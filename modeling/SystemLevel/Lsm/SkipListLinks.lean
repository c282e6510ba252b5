import SystemLevel.Lsm.SkipListMemTable

namespace SystemLevel.Lsm.Nodes

def shape (nodes : Nodes) : List (UInt64 × UInt64 × ℕ) := nodes.map (fun n => (n.key, n.value, n.forward.length))

variable {nodes nodes' : Nodes}

theorem shape_getElem? (h : nodes'.shape = nodes.shape) (a : ℕ) :
    (nodes'[a]?).map (fun n => (n.key, n.value, n.forward.length)) =
      (nodes[a]?).map (fun n => (n.key, n.value, n.forward.length)) := by
  rw [← List.getElem?_map, ← List.getElem?_map]
  exact congrArg (fun l => l[a]?) h

theorem shape_length (h : nodes'.shape = nodes.shape) : nodes'.length = nodes.length := by
  have := congrArg List.length h
  simpa [shape] using this

theorem shape_at (h : nodes'.shape = nodes.shape) (a : ℕ) :
    nodes'.keyAt a = nodes.keyAt a ∧ nodes'.valueAt a = nodes.valueAt a ∧ nodes'.height a = nodes.height a := by
  have hat := shape_getElem? h a
  unfold keyAt valueAt height
  cases h' : nodes'[a]? with
  | none =>
    rw [h'] at hat
    cases ho : nodes[a]? with
    | none => simp
    | some n => simp [ho] at hat
  | some n' =>
    rw [h'] at hat
    cases ho : nodes[a]? with
    | none => simp [ho] at hat
    | some n => simpa [ho] using hat

theorem height_pos {a i : ℕ} (h : i < nodes.height a) :
    ∃ n, nodes[a]? = some n ∧ i < n.forward.length := by
  unfold height at h
  cases ha : nodes[a]? with
  | none => simp [ha] at h
  | some n => exact ⟨n, rfl, by simpa [ha] using h⟩

theorem setForward_shape (nodes : Nodes) (b j : ℕ) (target : Option ℕ) :
    (nodes.setForward b j target).shape = nodes.shape := by
  apply List.ext_getElem?
  intro a
  simp only [shape, setForward, List.getElem?_map, List.getElem?_modify]
  cases nodes[a]? with
  | none => simp
  | some n => by_cases hb : b = a <;> simp [hb]

theorem forward_setForward {b j : ℕ} (hj : j < nodes.height b) (target : Option ℕ) (a i : ℕ) :
    (nodes.setForward b j target).forward a i = if a = b ∧ i = j then target else nodes.forward a i := by
  obtain ⟨n, hn, hlen⟩ := height_pos hj
  unfold forward setForward
  rw [List.getElem?_modify]
  by_cases hb : b = a
  · subst hb
    by_cases hi : i = j
    · subst hi
      simp [hn, hlen]
    · simp [hn, hi, List.getElem?_set_ne (Ne.symm hi)]
  · have hab : ¬ a = b := fun h => hb h.symm
    simp [hb, hab]

theorem link_shape (n : ℕ) (update : List ℕ) (nodes : Nodes) (i : ℕ) : (link n update nodes i).shape = nodes.shape := by
  unfold link
  split
  · rfl
  · rw [setForward_shape, setForward_shape]

theorem forward_link {n u i : ℕ} {update : List ℕ} (hu : update[i]? = some u) (hn : i < nodes.height n)
    (hheight : i < nodes.height u) (a j : ℕ) :
    (link n update nodes i).forward a j =
      if j = i then (if a = u then some n else if a = n then nodes.forward u i else nodes.forward a i)
      else nodes.forward a j := by
  have hshape := (shape_at (setForward_shape nodes n i (nodes.forward u i)) u).2.2
  simp only [link, hu]
  rw [forward_setForward (by rw [hshape]; exact hheight), forward_setForward hn]
  by_cases hj : j = i
  · subst hj
    by_cases ha : a = u <;> simp [ha]
  · simp [hj]

theorem forward_links {n newLevel : ℕ} {update : List ℕ} (hn : nodes.height n = newLevel)
    (hupdate : ∀ i, i < newLevel → ∃ u, update[i]? = some u ∧ i < nodes.height u) {k : ℕ} (hk : k ≤ newLevel) :
    ((List.range k).foldl (link n update) nodes).shape = nodes.shape ∧
      ∀ a j, ((List.range k).foldl (link n update) nodes).forward a j =
        match update[j]? with
        | none => nodes.forward a j
        | some u =>
          if j < k then (if a = u then some n else if a = n then nodes.forward u j else nodes.forward a j)
          else nodes.forward a j := by
  induction k with
  | zero =>
    refine ⟨rfl, fun a j => ?_⟩
    cases update[j]? <;> simp
  | succ k ih =>
    obtain ⟨hshape, hforward⟩ := ih (by omega)
    obtain ⟨u, hu, hheight⟩ := hupdate k (by omega)
    rw [List.range_succ, List.foldl_append, List.foldl_cons, List.foldl_nil]
    generalize (List.range k).foldl (link n update) nodes = linked at *
    have hheights (a : ℕ) : linked.height a = nodes.height a := (shape_at hshape a).2.2
    refine ⟨(link_shape n update linked k).trans hshape, fun a j => ?_⟩
    rw [forward_link hu (by rw [hheights, hn]; omega) (by rw [hheights]; exact hheight)]
    by_cases hj : j = k
    · subst hj
      simp [hforward, hu]
    · rw [if_neg hj, hforward]
      cases update[j]? with
      | none => rfl
      | some v =>
        have hlt : j < k + 1 ↔ j < k := by omega
        simp only [hlt]

theorem setValue_at (nodes : Nodes) (b : ℕ) (value : UInt64) (a : ℕ) :
    (nodes.setValue b value).keyAt a = nodes.keyAt a ∧ (nodes.setValue b value).height a = nodes.height a ∧
      (∀ i, (nodes.setValue b value).forward a i = nodes.forward a i) ∧
      (a ≠ b → (nodes.setValue b value).valueAt a = nodes.valueAt a) := by
  unfold keyAt height forward valueAt setValue
  rw [List.getElem?_modify]
  cases nodes[a]? with
  | none => simp
  | some n =>
    by_cases hb : b = a
    · simp [hb]
    · simp [hb]

theorem setValue_value {b : ℕ} (hb : b < nodes.length) (value : UInt64) :
    (nodes.setValue b value).valueAt b = value := by
  simp [valueAt, setValue, List.getElem?_eq_getElem hb]

theorem append_at {a : ℕ} (ha : a < nodes.length) (n : Node) :
    Nodes.keyAt (nodes ++ [n]) a = nodes.keyAt a ∧ Nodes.valueAt (nodes ++ [n]) a = nodes.valueAt a ∧
      Nodes.height (nodes ++ [n]) a = nodes.height a ∧
      ∀ i, Nodes.forward (nodes ++ [n]) a i = nodes.forward a i := by
  unfold keyAt valueAt height forward
  rw [List.getElem?_append_left ha]
  simp

theorem append_new (nodes : Nodes) (n : Node) :
    Nodes.keyAt (nodes ++ [n]) nodes.length = n.key ∧ Nodes.valueAt (nodes ++ [n]) nodes.length = n.value ∧
      Nodes.height (nodes ++ [n]) nodes.length = n.forward.length := by
  simp [keyAt, valueAt, height]

structure Grown (nodes : Nodes) (key value : UInt64) (newLevel : ℕ) (update : List ℕ) (grown : Nodes) : Prop where
  length : grown.length = nodes.length + 1
  old : ∀ a, a < nodes.length → grown.keyAt a = nodes.keyAt a ∧ grown.valueAt a = nodes.valueAt a ∧
    grown.height a = nodes.height a
  new : grown.keyAt nodes.length = key ∧ grown.valueAt nodes.length = value ∧ grown.height nodes.length = newLevel
  forward_last : ∀ u j, u < nodes.length → j < newLevel → update[j]? = some u → grown.forward u j = some nodes.length
  forward_old : ∀ a j, a < nodes.length → ¬ (j < newLevel ∧ update[j]? = some a) → grown.forward a j = nodes.forward a j
  forward_new : ∀ u j, u < nodes.length → j < newLevel → update[j]? = some u →
    grown.forward nodes.length j = nodes.forward u j

theorem grown_links (key value : UInt64) {newLevel : ℕ} {update : List ℕ}
    (hupdate : ∀ i, i < newLevel → ∃ u, update[i]? = some u ∧ u < nodes.length ∧ i < nodes.height u) :
    Grown nodes key value newLevel update ((List.range newLevel).foldl (link nodes.length update)
      (nodes ++ [{ key, value, forward := List.replicate newLevel none }])) := by
  have hnew := append_new nodes { key, value, forward := List.replicate newLevel none }
  have hold {a : ℕ} (ha : a < nodes.length) := append_at ha { key, value, forward := List.replicate newLevel none }
  rw [List.length_replicate] at hnew
  obtain ⟨hshape, hforward⟩ := forward_links hnew.2.2
    (fun i hi => by
      obtain ⟨u, hu, hlt, hheight⟩ := hupdate i hi
      exact ⟨u, hu, by rw [(hold hlt).2.2.1]; exact hheight⟩) le_rfl
  have hat (a : ℕ) := shape_at hshape a
  constructor
  · rw [shape_length hshape]
    simp
  · intro a ha
    rw [(hat a).1, (hat a).2.1, (hat a).2.2, (hold ha).1, (hold ha).2.1, (hold ha).2.2.1]
    exact ⟨rfl, rfl, rfl⟩
  · rw [(hat _).1, (hat _).2.1, (hat _).2.2]
    exact hnew
  · intro u j hu hj hget
    simp [hforward, hget, hj]
  · intro a j ha hnot
    rw [hforward, (hold ha).2.2.2]
    cases hget : update[j]? with
    | none => rfl
    | some u =>
      have hne : a ≠ nodes.length := by omega
      by_cases hj : j < newLevel
      · have hau : a ≠ u := fun he => hnot ⟨hj, by rw [hget, he]⟩
        simp [hj, hau, hne]
      · simp [hj]
  · intro u j hu hj hget
    have hne : nodes.length ≠ u := by omega
    simp only [hforward, hget, if_pos hj, if_neg hne, if_true, (hold hu).2.2.2]

end SystemLevel.Lsm.Nodes
