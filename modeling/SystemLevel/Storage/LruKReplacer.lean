import Mathlib

namespace SystemLevel.Storage

/-- The order in which an iteration over an `unordered_map` meets its elements. -/
structure IterationOrder (α : Type) where
  visit : List α → List α
  perm : ∀ l, (visit l).Perm l

def IterationOrder.stored (α : Type) : IterationOrder α := ⟨id, List.Perm.refl⟩

abbrev FrameId := ℕ

structure FrameNode where
  history : List UInt64 := []
  isEvictable : Bool := false
  deriving DecidableEq, Repr

abbrev FrameEntry := Sigma fun _ : FrameId => FrameNode

structure LruKReplacer where
  k : ℕ
  currSize : UInt64 := 0
  currentTimestamp : UInt64 := 0
  entries : AList (fun _ : FrameId => FrameNode) := ∅

namespace LruKReplacer

def recordAccess (r : LruKReplacer) (frameId : FrameId) : LruKReplacer :=
  let timestamp := r.currentTimestamp + 1
  let node := (r.entries.lookup frameId).getD {}
  let history := node.history ++ [timestamp]
  { r with
    currentTimestamp := timestamp
    entries := r.entries.insert frameId
      { node with history := if r.k < history.length then history.tail else history } }

def setEvictable (r : LruKReplacer) (frameId : FrameId) (evictable : Bool) : LruKReplacer :=
  match r.entries.lookup frameId with
  | none => r
  | some node =>
    if node.isEvictable = evictable then r
    else
      { r with
        entries := r.entries.insert frameId { node with isEvictable := evictable }
        currSize := if evictable then r.currSize + 1 else r.currSize - 1 }

structure Scan where
  victimId : FrameId := 0
  maxKDistance : UInt64 := 0
  earliestInfTimestamp : UInt64 := UInt64.ofNat (2 ^ 64 - 1)
  foundInf : Bool := false
  foundAny : Bool := false

/-- One round of that loop. With `k = 0` every history is empty, and `front` stands for what is read as
the front of one. -/
def scan (r : LruKReplacer) (front : UInt64) (s : Scan) (entry : FrameEntry) : Scan :=
  let ⟨fid, node⟩ := entry
  if node.isEvictable = false then s
  else if node.history.length < r.k then
    let earliest := node.history.headD 0
    if s.foundInf = false ∨ earliest < s.earliestInfTimestamp then
      { s with foundInf := true, earliestInfTimestamp := earliest, victimId := fid, foundAny := true }
    else s
  else if s.foundInf = false then
    let kDistance := r.currentTimestamp - node.history.headD front
    if s.foundAny = false ∨ s.maxKDistance < kDistance then
      { s with maxKDistance := kDistance, victimId := fid, foundAny := true }
    else s
  else s

def victim (r : LruKReplacer) (order : IterationOrder FrameEntry) (front : UInt64) : Option FrameId × LruKReplacer :=
  if r.currSize = 0 then (none, r)
  else
    let s := (order.visit r.entries.entries).foldl (r.scan front) {}
    if s.foundAny then
      (some s.victimId, { r with entries := r.entries.erase s.victimId, currSize := r.currSize - 1 })
    else (none, r)

def remove (r : LruKReplacer) (frameId : FrameId) : LruKReplacer :=
  match r.entries.lookup frameId with
  | none => r
  | some node =>
    { r with
      currSize := if node.isEvictable then r.currSize - 1 else r.currSize
      entries := r.entries.erase frameId }

def size (r : LruKReplacer) : UInt64 := r.currSize

def evictable (r : LruKReplacer) (frameId : FrameId) : Bool :=
  match r.entries.lookup frameId with
  | none => false
  | some node => node.isEvictable

structure Holds (r : LruKReplacer) (known free : Finset FrameId) : Prop where
  mem_known : ∀ f, f ∈ known ↔ f ∈ r.entries
  mem_free : ∀ f, f ∈ free ↔ r.evictable f = true
  size : r.currSize = UInt64.ofNat free.card

namespace Holds

variable {r : LruKReplacer} {known free : Finset FrameId} (h : r.Holds known free)

theorem empty (k : ℕ) : Holds { k } ∅ ∅ where
  mem_known f := by simp
  mem_free f := by simp [evictable]
  size := rfl

include h

theorem free_subset : free ⊆ known := by
  intro f hf
  have hev := (h.mem_free f).mp hf
  rw [evictable] at hev
  rw [h.mem_known]
  by_contra hnone
  rw [AList.lookup_eq_none.mpr hnone] at hev
  exact Bool.false_ne_true hev

theorem recordAccess (f : FrameId) : (r.recordAccess f).Holds (insert f known) free where
  mem_known g := by
    rw [Finset.mem_insert, h.mem_known, LruKReplacer.recordAccess, AList.mem_insert]
  mem_free g := by
    rw [h.mem_free, evictable, evictable, LruKReplacer.recordAccess]
    by_cases hg : g = f
    · subst hg
      rw [AList.lookup_insert]
      cases r.entries.lookup g <;> rfl
    · rw [AList.lookup_insert_ne hg]
  size := h.size

theorem size_erase {f : FrameId} (hf : f ∈ free) : r.currSize - 1 = UInt64.ofNat (free.erase f).card := by
  rw [h.size, ← Finset.card_erase_add_one hf, UInt64.ofNat_add]
  exact UInt64.add_sub_cancel _ _

theorem setEvictable {f : FrameId} (hf : f ∈ known) (b : Bool) :
    (r.setEvictable f b).Holds known (if b then insert f free else free.erase f) := by
  obtain ⟨node, hnode⟩ := Option.isSome_iff_exists.mp (AList.lookup_isSome.mpr ((h.mem_known f).mp hf))
  have hfree : f ∈ free ↔ node.isEvictable = true := by rw [h.mem_free, evictable, hnode]
  by_cases hsame : node.isEvictable = b
  · have hset : (if b then insert f free else free.erase f) = free := by
      cases b with
      | true => exact Finset.insert_eq_self.mpr (hfree.mpr hsame)
      | false => exact Finset.erase_eq_of_notMem (mt hfree.mp (by rw [hsame]; decide))
    simp only [LruKReplacer.setEvictable, hnode, if_pos hsame]
    rw [hset]
    exact h
  · simp only [LruKReplacer.setEvictable, hnode, if_neg hsame]
    refine ⟨fun g => ?_, fun g => ?_, ?_⟩
    · rw [AList.mem_insert, h.mem_known]
      exact ⟨Or.inr, fun hg => hg.elim (fun he => he ▸ (h.mem_known f).mp hf) id⟩
    · rw [evictable]
      by_cases hg : g = f
      · rw [hg, AList.lookup_insert]
        cases b <;> simp
      · have hother := h.mem_free g
        rw [evictable] at hother
        rw [AList.lookup_insert_ne hg, ← hother]
        cases b <;> simp [hg]
    · cases b with
      | true =>
        change r.currSize + 1 = UInt64.ofNat (insert f free).card
        rw [Finset.card_insert_of_notMem (mt hfree.mp hsame), h.size, UInt64.ofNat_add]
        rfl
      | false => exact h.size_erase (hfree.mpr (by simpa using hsame))

end Holds

theorem scan_cases (r : LruKReplacer) (front : UInt64) {s : Scan} (hinf : s.foundInf = true → s.foundAny = true)
    (fid : FrameId) (node : FrameNode) :
    r.scan front s ⟨fid, node⟩ = s ∧ (node.isEvictable = true → s.foundAny = true) ∨
      node.isEvictable = true ∧ (r.scan front s ⟨fid, node⟩).victimId = fid ∧
        (r.scan front s ⟨fid, node⟩).foundAny = true := by
  simp only [scan]
  split_ifs with hev hshort hinf' hnoinf hany
  · exact Or.inl ⟨rfl, fun htrue => absurd hev (by rw [htrue]; decide)⟩
  · exact Or.inr ⟨by simpa using hev, rfl, rfl⟩
  · exact Or.inl ⟨rfl, fun _ => hinf (by simpa using (not_or.mp hinf').1)⟩
  · exact Or.inr ⟨by simpa using hev, rfl, rfl⟩
  · exact Or.inl ⟨rfl, fun _ => by simpa using (not_or.mp hany).1⟩
  · exact Or.inl ⟨rfl, fun _ => hinf (by simpa using hnoinf)⟩

structure Found (visited : List FrameEntry) (s : Scan) : Prop where
  victim : s.foundAny = true → ∃ node, ⟨s.victimId, node⟩ ∈ visited ∧ node.isEvictable = true
  any : ∀ entry ∈ visited, entry.2.isEvictable = true → s.foundAny = true
  inf : s.foundInf = true → s.foundAny = true

theorem found_scan (r : LruKReplacer) (front : UInt64) (visited : List FrameEntry) :
    Found visited (visited.foldl (r.scan front) {}) := by
  induction visited using List.reverseRecOn with
  | nil => exact ⟨nofun, nofun, nofun⟩
  | append_singleton visited entry ih =>
    obtain ⟨fid, node⟩ := entry
    rw [List.foldl_append, List.foldl_cons, List.foldl_nil]
    generalize visited.foldl (r.scan front) {} = s at ih ⊢
    rcases scan_cases r front ih.inf fid node with ⟨hsame, hany⟩ | ⟨hev, hvictim, hany⟩
    · rw [hsame]
      refine ⟨fun hfound => ?_, fun entry hentry hev => ?_, ih.inf⟩
      · obtain ⟨node', hmem, hev⟩ := ih.victim hfound
        exact ⟨node', List.mem_append_left _ hmem, hev⟩
      · rcases List.mem_append.mp hentry with hold | hnew
        · exact ih.any entry hold hev
        · rw [List.mem_singleton.mp hnew] at hev
          exact hany hev
    · refine ⟨fun _ => ⟨node, ?_, hev⟩, fun _ _ _ => hany, fun _ => hany⟩
      rw [hvictim]
      exact List.mem_append_right _ (List.mem_singleton_self _)

theorem evictable_iff (r : LruKReplacer) (f : FrameId) :
    r.evictable f = true ↔ ∃ node, ⟨f, node⟩ ∈ r.entries.entries ∧ node.isEvictable = true := by
  simp only [← AList.mem_lookup_iff, evictable]
  cases r.entries.lookup f <;> simp

theorem Holds.erase_entry {r : LruKReplacer} {known free : Finset FrameId} (h : r.Holds known free) (f : FrameId)
    {size : UInt64} (hsize : size = UInt64.ofNat (free.erase f).card) :
    Holds { r with entries := r.entries.erase f, currSize := size } (known.erase f) (free.erase f) := by
  refine ⟨fun g => ?_, fun g => ?_, hsize⟩
  · rw [Finset.mem_erase, AList.mem_erase, h.mem_known]
  · have hg := h.mem_free g
    rw [evictable] at hg
    rw [Finset.mem_erase, evictable]
    by_cases he : g = f
    · rw [he, AList.lookup_erase]
      simp
    · rw [AList.lookup_erase_ne he, ← hg]
      simp [he]

theorem Holds.remove {r : LruKReplacer} {known free : Finset FrameId} (h : r.Holds known free) (f : FrameId) :
    (r.remove f).Holds (known.erase f) (free.erase f) := by
  have hfree := h.mem_free f
  rw [evictable] at hfree
  cases hnode : r.entries.lookup f with
  | none =>
    have hknown : f ∉ known := by
      rw [h.mem_known]
      exact AList.lookup_eq_none.mp hnode
    simp only [hnode, Bool.false_eq_true, iff_false] at hfree
    simp only [LruKReplacer.remove, hnode]
    rw [Finset.erase_eq_of_notMem hknown, Finset.erase_eq_of_notMem hfree]
    exact h
  | some node =>
    simp only [hnode] at hfree
    simp only [LruKReplacer.remove, hnode]
    apply h.erase_entry f
    split_ifs with hev
    · exact h.size_erase (hfree.mpr hev)
    · rw [Finset.erase_eq_of_notMem (mt hfree.mp hev)]
      exact h.size

theorem Holds.victim {r : LruKReplacer} {known free : Finset FrameId} (h : r.Holds known free)
    (hcard : free.card < 2 ^ 64) (order : IterationOrder FrameEntry) (front : UInt64) :
    (free = ∅ ∧ r.victim order front = (none, r)) ∨
      ∃ f ∈ free, ∃ r', r.victim order front = (some f, r') ∧ r'.Holds (known.erase f) (free.erase f) := by
  have hzero : r.currSize = 0 ↔ free = ∅ := by
    rw [h.size, ← Finset.card_eq_zero, ← UInt64.toNat_inj, UInt64.toNat_ofNat', Nat.mod_eq_of_lt hcard]
    rfl
  rw [LruKReplacer.victim]
  by_cases hempty : free = ∅
  · exact Or.inl ⟨hempty, if_pos (hzero.mpr hempty)⟩
  · right
    rw [if_neg (mt hzero.mp hempty)]
    have hfound := found_scan r front (order.visit r.entries.entries)
    generalize (order.visit r.entries.entries).foldl (r.scan front) {} = s at hfound ⊢
    have hvisit : ∀ entry, entry ∈ order.visit r.entries.entries ↔ entry ∈ r.entries.entries :=
      fun _ => (order.perm _).mem_iff
    have hany : s.foundAny = true := by
      obtain ⟨f, hf⟩ := Finset.nonempty_iff_ne_empty.mpr hempty
      obtain ⟨node, hmem, hev⟩ := (r.evictable_iff f).mp ((h.mem_free f).mp hf)
      exact hfound.any _ ((hvisit _).mpr hmem) hev
    obtain ⟨node, hmem, hev⟩ := hfound.victim hany
    have hf : s.victimId ∈ free := (h.mem_free _).mpr ((r.evictable_iff _).mpr ⟨node, (hvisit _).mp hmem, hev⟩)
    exact ⟨s.victimId, hf, _, if_pos hany, h.erase_entry s.victimId (h.size_erase hf)⟩

end LruKReplacer

end SystemLevel.Storage
