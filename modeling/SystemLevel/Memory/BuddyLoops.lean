import SystemLevel.Memory.BuddyTiling

namespace SystemLevel.Memory.BuddyAllocator

variable {a : BuddyAllocator} {held : Multiset DyadicBlock} {order offset : ℕ}

theorem growOrder_spec (bytes left order : ℕ) :
    growOrder bytes left (orderToSize order) order ≤ order + left ∧
      (bytes ≤ orderToSize (order + left) →
        bytes ≤ orderToSize (growOrder bytes left (orderToSize order) order)) := by
  induction left generalizing order with
  | zero => exact ⟨le_rfl, id⟩
  | succ left ih =>
    rw [growOrder]
    split_ifs with hlt
    · have hshift : orderToSize order <<< 1 = orderToSize (order + 1) := (Nat.shiftLeft_add _ _ _).symm
      obtain ⟨hle, hfits⟩ := ih (order + 1)
      rw [hshift]
      rw [Nat.add_right_comm] at hle hfits
      exact ⟨hle, hfits⟩
    · exact ⟨Nat.le_add_right _ _, fun _ => not_lt.mp hlt⟩

theorem growOrder_least {bytes left order o : ℕ} (hle : order ≤ o)
    (hlt : o < growOrder bytes left (orderToSize order) order) : orderToSize o < bytes := by
  induction left generalizing order with
  | zero => exact absurd hlt hle.not_gt
  | succ left ih =>
    rw [growOrder] at hlt
    split_ifs at hlt with hsmall
    · rcases hle.eq_or_lt with rfl | hless
      · exact hsmall
      · have hshift : orderToSize order <<< 1 = orderToSize (order + 1) := (Nat.shiftLeft_add _ _ _).symm
        rw [hshift] at hlt
        exact ih hless hlt
    · exact absurd hlt hle.not_gt

theorem sizeToOrder_le (bytes : ℕ) : sizeToOrder bytes ≤ maxOrder := by
  unfold sizeToOrder
  split_ifs
  · exact Nat.zero_le _
  · exact (growOrder_spec bytes maxOrder 0).1.trans_eq (Nat.zero_add _)

theorem le_sizeToOrder {bytes : ℕ} (h : bytes ≤ poolSize) : bytes ≤ orderToSize (sizeToOrder bytes) := by
  unfold sizeToOrder
  split_ifs with hle
  · exact hle
  · exact (growOrder_spec bytes maxOrder 0).2 (by rw [Nat.zero_add]; exact h)

theorem sizeToOrder_isLeast {bytes : ℕ} (h : bytes ≤ poolSize) :
    IsLeast {order | bytes ≤ orderToSize order} (sizeToOrder bytes) := by
  refine ⟨le_sizeToOrder h, fun o ho => ?_⟩
  by_contra hlt
  rw [not_le, sizeToOrder] at hlt
  split_ifs at hlt
  · exact Nat.not_lt_zero o hlt
  · exact ho.not_gt (growOrder_least (Nat.zero_le o) hlt)

theorem findOrder_eq_none {left order : ℕ} (h : a.findOrder left order = none) :
    ∀ o, order ≤ o → o < order + left → a.freeLists o = [] := by
  induction left generalizing order with
  | zero => exact fun o hle hlt => absurd hlt hle.not_gt
  | succ left ih =>
    intro o hle hlt
    rw [findOrder] at h
    split_ifs at h with hempty
    rcases hle.eq_or_lt with rfl | hless
    · exact List.isEmpty_iff.mp hempty
    · exact ih h o hless (by omega)

theorem findOrder_spec {left order current : ℕ} (h : a.findOrder left order = some current) :
    order ≤ current ∧ current < order + left ∧ a.freeLists current ≠ [] ∧
      ∀ o, order ≤ o → o < current → a.freeLists o = [] := by
  induction left generalizing order with
  | zero => simp [findOrder] at h
  | succ left ih =>
    rw [findOrder] at h
    split_ifs at h with hempty
    · obtain ⟨hle, hlt, hne, hbelow⟩ := ih h
      refine ⟨by omega, by omega, hne, fun o ho hcurrent => ?_⟩
      rcases ho.eq_or_lt with rfl | ho
      · exact List.isEmpty_iff.mp hempty
      · exact hbelow o ho hcurrent
    · obtain rfl := Option.some.inj h
      exact ⟨le_rfl, by omega, fun hnil => hempty (List.isEmpty_iff.mpr hnil), fun o ho hlt => absurd ho (by omega)⟩

theorem splitDown_rule (Inv : ℕ → BuddyAllocator → Prop) (done : BuddyAllocator → Prop) {current : ℕ}
    (h : Inv current a)
    (hsplit : ∀ current a, order ≤ current → Inv (current + 1) a →
      Inv current { a.pushBack current (offset + orderToSize current) with splitCount := a.splitCount + 1 })
    (hdone : ∀ current a, current ≤ order → Inv current a → done a) : done (a.splitDown order offset current) := by
  induction current generalizing a with
  | zero => exact hdone 0 a (Nat.zero_le order) h
  | succ current ih =>
    rw [splitDown]
    split_ifs with hlt
    · exact ih (hsplit current a (Nat.lt_succ_iff.mp hlt) h)
    · exact hdone (current + 1) a (not_lt.mp hlt) h

theorem coalesce_rule (Inv : ℕ → ℕ → ℕ → BuddyAllocator → Prop) (done : BuddyAllocator → Prop) {left : ℕ}
    (h : Inv left offset order a)
    (hmerge : ∀ left offset order a, offset ^^^ orderToSize order ∈ a.freeLists order → Inv (left + 1) offset order a →
      Inv left (min offset (offset ^^^ orderToSize order)) (order + 1)
        { a.setList order ((a.freeLists order).erase (offset ^^^ orderToSize order)) with
          mergeCount := a.mergeCount + 1 })
    (hdone : ∀ left offset order a, left = 0 ∨ offset ^^^ orderToSize order ∉ a.freeLists order →
      Inv left offset order a → done (a.pushBack order offset)) : done (a.coalesce left offset order) := by
  induction left generalizing a offset order with
  | zero => exact hdone 0 offset order a (Or.inl rfl) h
  | succ left ih =>
    rw [coalesce]
    by_cases hmem : offset ^^^ orderToSize order ∈ a.freeLists order
    · have hmin : (if offset < offset ^^^ orderToSize order then offset else offset ^^^ orderToSize order) =
          min offset (offset ^^^ orderToSize order) := by
        split_ifs <;> omega
      rw [if_pos hmem, hmin]
      exact ih (hmerge left offset order a hmem h)
    · rw [if_neg hmem]
      exact hdone (left + 1) offset order a (Or.inr hmem) h

def NoFreeBuddies (a : BuddyAllocator) : Prop :=
  ∀ order < maxOrder, ∀ offset ∈ a.freeLists order, offset ^^^ orderToSize order ∉ a.freeLists order

theorem orderToSize_pos (order : ℕ) : 0 < orderToSize order := by
  rw [← block_size order 0]
  exact DyadicBlock.size_pos _

namespace NoFreeBuddies

theorem construct : NoFreeBuddies BuddyAllocator.construct := by
  intro order horder offset hoffset
  simp [BuddyAllocator.construct, horder.ne] at hoffset

theorem setList (h : a.NoFreeBuddies) {blocks : List ℕ} (hsub : ∀ offset ∈ blocks, offset ∈ a.freeLists order) :
    (a.setList order blocks).NoFreeBuddies := by
  intro o ho offset hoffset
  rw [setList_freeLists] at hoffset ⊢
  split_ifs at hoffset ⊢ with he
  · subst he
    exact fun hbuddy => h o ho offset (hsub offset hoffset) (hsub _ hbuddy)
  · exact h o ho offset hoffset

theorem pushBack (h : a.NoFreeBuddies) (hbuddy : order < maxOrder → offset ^^^ orderToSize order ∉ a.freeLists order) :
    (a.pushBack order offset).NoFreeBuddies := by
  intro o ho other hother
  rw [BuddyAllocator.pushBack, setList_freeLists] at hother ⊢
  split_ifs at hother ⊢ with he
  · subst he
    have hbuddy := hbuddy ho
    have hself : ∀ s, s ^^^ orderToSize o ≠ s := by
      intro s hs
      have hzero : orderToSize o = 0 := Nat.xor_right_injective (hs.trans (Nat.xor_zero s).symm)
      exact (orderToSize_pos o).ne' hzero
    rw [List.mem_append, List.mem_singleton] at hother ⊢
    rintro (hmem | heq)
    · rcases hother with hother | rfl
      · exact h o ho other hother hmem
      · exact hbuddy hmem
    · rcases hother with hother | rfl
      · rw [← heq, Nat.xor_xor_cancel_right] at hbuddy
        exact hbuddy hother
      · exact hself other heq
  · exact h o ho other hother

theorem splitDown {current : ℕ} (h : a.NoFreeBuddies) (hbelow : ∀ o, order ≤ o → o < current → a.freeLists o = []) :
    (a.splitDown order offset current).NoFreeBuddies := by
  apply splitDown_rule (fun current a => a.NoFreeBuddies ∧ ∀ o, order ≤ o → o < current → a.freeLists o = [])
    NoFreeBuddies ⟨h, hbelow⟩
  · rintro current a hle ⟨h, hbelow⟩
    constructor
    · apply h.pushBack
      rw [hbelow current hle (Nat.lt_succ_self current)]
      exact fun _ => List.not_mem_nil
    · intro o hle ho
      change (a.pushBack current _).freeLists o = []
      rw [BuddyAllocator.pushBack, setList_freeLists, if_neg ho.ne]
      exact hbelow o hle (ho.trans (Nat.lt_succ_self current))
  · exact fun _ _ _ h => h.1

theorem coalesce {left : ℕ} (h : a.NoFreeBuddies) (horder : order + left = maxOrder) :
    (a.coalesce left offset order).NoFreeBuddies := by
  apply coalesce_rule (fun left _ order a => a.NoFreeBuddies ∧ order + left = maxOrder) NoFreeBuddies ⟨h, horder⟩
  · rintro left offset order a _ ⟨h, horder⟩
    exact ⟨h.setList fun _ hother => List.mem_of_mem_erase hother, by omega⟩
  · rintro left offset order a hstop ⟨h, horder⟩
    apply h.pushBack
    intro hlt
    exact hstop.resolve_left (by omega)

end NoFreeBuddies

theorem Tiled.splitDown {current : ℕ} (h : Tiled a (block current offset ::ₘ held)) (hle : order ≤ current)
    (hmax : current ≤ maxOrder) : Tiled (a.splitDown order offset current) (block order offset ::ₘ held) := by
  apply splitDown_rule (fun current a =>
    Tiled a (block current offset ::ₘ held) ∧ order ≤ current ∧ current ≤ maxOrder)
    (fun a => Tiled a (block order offset ::ₘ held)) ⟨h, hle, hmax⟩
  · rintro current a hle ⟨h, -, hmax⟩
    exact ⟨h.split.pushBack (by omega), hle, by omega⟩
  · rintro current a hge ⟨h, hle, -⟩
    obtain rfl := hle.antisymm hge
    exact h

theorem Tiled.coalesce {left : ℕ} (h : Tiled a (block order offset ::ₘ held)) (horder : order + left = maxOrder) :
    Tiled (a.coalesce left offset order) held := by
  apply coalesce_rule (fun left offset order a =>
    Tiled a (block order offset ::ₘ held) ∧ order + left = maxOrder) (fun a => Tiled a held) ⟨h, horder⟩
  · rintro left offset order a hmem ⟨h, horder⟩
    exact ⟨(h.take (by omega) (List.perm_cons_erase hmem)).merge, by omega⟩
  · rintro left offset order a - ⟨h, horder⟩
    exact h.pushBack (by omega)

theorem splitDown_allocatedBytes (a : BuddyAllocator) (order offset current : ℕ) :
    (a.splitDown order offset current).allocatedBytes = a.allocatedBytes := by
  apply splitDown_rule (fun _ a' => a'.allocatedBytes = a.allocatedBytes)
    (fun a' => a'.allocatedBytes = a.allocatedBytes) rfl
  · exact fun _ _ _ h => h
  · exact fun _ _ _ h => h

theorem coalesce_allocatedBytes (a : BuddyAllocator) (left offset order : ℕ) :
    (a.coalesce left offset order).allocatedBytes = a.allocatedBytes := by
  apply coalesce_rule (fun _ _ _ a' => a'.allocatedBytes = a.allocatedBytes)
    (fun a' => a'.allocatedBytes = a.allocatedBytes) rfl
  · exact fun _ _ _ _ _ h => h
  · exact fun _ _ _ _ _ h => h

theorem allocate_cases (a : BuddyAllocator) (bytes : ℕ) :
    a.allocate bytes = (none, a) ∨
      ∃ offset current blocks, 0 < bytes ∧ bytes ≤ poolSize ∧ sizeToOrder bytes ≤ current ∧ current ≤ maxOrder ∧
        a.freeLists current = blocks ++ [offset] ∧ (∀ o, sizeToOrder bytes ≤ o → o < current → a.freeLists o = []) ∧
        a.allocate bytes = (some offset,
          { (a.setList current blocks).splitDown (sizeToOrder bytes) offset current with
            allocatedBytes := a.allocatedBytes + UInt64.ofNat (orderToSize (sizeToOrder bytes)) }) := by
  have horder := sizeToOrder_le bytes
  rw [allocate]
  by_cases hbytes : bytes = 0 ∨ poolSize < bytes
  · rw [if_pos hbytes]
    exact Or.inl rfl
  · simp only [if_neg hbytes, if_neg horder.not_gt]
    cases hfind : a.findOrder (maxOrder + 1 - sizeToOrder bytes) (sizeToOrder bytes) with
    | none => exact Or.inl rfl
    | some current =>
      obtain ⟨hle, hlt, hne, hbelow⟩ := findOrder_spec hfind
      have hlast : a.freeLists current = (a.freeLists current).dropLast ++ [(a.freeLists current).getLastD 0] := by
        rw [List.getLastD_eq_getLast?, List.getLast?_eq_some_getLast hne]
        exact (List.dropLast_append_getLast hne).symm
      refine Or.inr ⟨_, current, _, by omega, by omega, hle, by omega, hlast, hbelow, ?_⟩
      simp only [splitDown_allocatedBytes]
      rfl

theorem allocate_eq_none_iff {bytes : ℕ} (hpos : 0 < bytes) (hle : bytes ≤ poolSize) :
    (a.allocate bytes).1 = none ↔ ∀ o, sizeToOrder bytes ≤ o → o ≤ maxOrder → a.freeLists o = [] := by
  have horder := sizeToOrder_le bytes
  constructor
  · intro hnone o ho hmax
    have hbytes : ¬ (bytes = 0 ∨ poolSize < bytes) := by omega
    rw [allocate] at hnone
    simp only [if_neg hbytes, if_neg horder.not_gt] at hnone
    cases hfind : a.findOrder (maxOrder + 1 - sizeToOrder bytes) (sizeToOrder bytes) with
    | none => exact findOrder_eq_none hfind o ho (by omega)
    | some current =>
      rw [hfind] at hnone
      cases hnone
  · intro hempty
    rcases a.allocate_cases bytes with hnone | ⟨offset, current, blocks, -, -, ho, hmax, hlist, -⟩
    · rw [hnone]
    · rw [hempty current ho hmax] at hlist
      exact absurd hlist.symm (List.append_ne_nil_of_right_ne_nil _ (List.cons_ne_nil _ _))

end SystemLevel.Memory.BuddyAllocator
