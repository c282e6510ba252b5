import SystemLevel.Trading.TopOfBook

namespace SystemLevel.Trading

open Runs Shifts

namespace BookSide

variable {P : Type}

theorem list_split (side : BookSide P) (i : Fin side.count) :
    side.list = side.list.take i ++ side.level i :: side.list.drop (i + 1) := by
  rw [← drop_list, List.take_append_drop]

variable [DecidableEq P]

def entriesAfter (levels : List (PriceLevel P)) (price : P) (qty orderCount : UInt32) : List (PriceLevel P) :=
  levels.filter (fun level => decide (level.price ≠ price)) ++
    if qty = 0 then [] else [({ price, qty, orderCount } : PriceLevel P)]

variable {R : P → P → Prop} [IsStrictTotalOrder P R] {side : BookSide P} {price : P} {qty orderCount : UInt32}
  (hsorted : (side.list.map PriceLevel.price).Pairwise R)

theorem filter_of_ne {levels : List (PriceLevel P)} (h : ∀ l ∈ levels, l.price ≠ price) :
    levels.filter (fun level => decide (level.price ≠ price)) = levels :=
  List.filter_eq_self.mpr fun l hl => decide_eq_true (h l hl)

include hsorted

omit [DecidableEq P] [IsStrictTotalOrder P R] in
theorem around (i : Fin side.count) :
    (∀ l ∈ side.list.take i, R l.price (side.level i).price) ∧
      (∀ l ∈ side.list.drop (i + 1), R (side.level i).price l.price) ∧
      ((side.list.take i ++ side.list.drop (i + 1)).map PriceLevel.price).Pairwise R := by
  rw [side.list_split i, List.map_append, List.map_cons, List.pairwise_append, List.pairwise_cons] at hsorted
  obtain ⟨hbefore, ⟨hworse, hbehind⟩, hcross⟩ := hsorted
  refine ⟨fun l hl => ?_, fun l hl => hworse _ (List.mem_map_of_mem hl), ?_⟩
  · exact hcross _ (List.mem_map_of_mem hl) _ List.mem_cons_self
  · rw [List.map_append, List.pairwise_append]
    exact ⟨hbefore, hbehind, fun p hp q hq => hcross p hp q (List.mem_cons_of_mem _ hq)⟩

theorem filter_split {i : Fin side.count} (hi : (side.level i).price = price) :
    side.list.filter (fun level => decide (level.price ≠ price)) = side.list.take i ++ side.list.drop (i + 1) := by
  obtain ⟨hbefore, hbehind, -⟩ := around hsorted i
  rw [hi] at hbefore hbehind
  conv_lhs => rw [side.list_split i, List.filter_append, List.filter_cons_of_neg (by simpa using hi)]
  rw [filter_of_ne fun l hl => ne_of_irrefl (hbefore l hl), filter_of_ne fun l hl => (ne_of_irrefl (hbehind l hl)).symm]

variable (price qty orderCount) in
theorem updateSide_list {cmp : P → P → Bool} (hcmp : ∀ p q, cmp p q = true ↔ R p q) :
    ∃ sorted : List (PriceLevel P), sorted.Perm (entriesAfter side.list price qty orderCount) ∧
      (sorted.map PriceLevel.price).Pairwise R ∧
      (side.updateSide price qty orderCount cmp).list = sorted.take maxDepth := by
  rw [BookSide.updateSide, entriesAfter]
  cases hfind : side.find fun level => level.price == price with
  | some i =>
    have hi : (side.level i).price = price := beq_iff_eq.mp (find_some hfind).1
    rw [filter_split hsorted hi]
    by_cases hqty : qty = 0
    · have hlist : (side.remove i).list = side.list.take i ++ side.list.drop (i + 1) := by
        rw [list_remove, List.eraseIdx_eq_take_drop_succ]
      simp only [if_pos hqty, List.append_nil]
      refine ⟨_, ?_, ?_, (take_list _).symm⟩
      · rw [hlist]
      · rw [hlist]
        exact (around hsorted i).2.2
    · have hlist : (side.replace i qty orderCount).list =
          side.list.take i ++ { price, qty, orderCount } :: side.list.drop (i + 1) := by
        rw [list_replace, List.set_eq_take_append_cons_drop, if_pos (side.length_list.symm ▸ i.isLt), hi]
      simp only [if_neg hqty]
      refine ⟨_, ?_, ?_, (take_list _).symm⟩
      · rw [hlist]
        exact List.perm_middle.trans (List.perm_append_singleton _ _).symm
      · rw [side.list_split i, List.map_append, List.map_cons, hi] at hsorted
        rw [hlist, List.map_append, List.map_cons]
        exact hsorted
  | none =>
    have hne : ∀ l ∈ side.list, l.price ≠ price := fun l hl => beq_eq_false_iff_ne.mp (find_none hfind l hl)
    rw [filter_of_ne hne]
    by_cases hqty : qty = 0
    · simp only [if_pos hqty, List.append_nil]
      exact ⟨side.list, List.Perm.refl _, hsorted, side.take_list.symm⟩
    · obtain ⟨hle, hbefore, hafter⟩ := insertPos_spec hsorted hcmp hne
      simp only [if_neg hqty]
      refine ⟨side.list.insertIdx (side.insertPos cmp price) { price, qty, orderCount }, ?_,
        sorted_insertIdx hsorted hle _ hbefore hafter, ?_⟩
      · exact (List.perm_insertIdx _ _ (side.length_list ▸ hle)).trans (List.perm_append_singleton _ _).symm
      · split_ifs with hpos
        · exact side.list_insertAt_take hpos _ hle
        · -- all 32 levels are better
          rw [List.take_insertIdx_eq_take_of_le _ _ _ _ (not_lt.mp hpos), take_list]

omit hsorted in
theorem mem_entriesAfter {levels : List (PriceLevel P)} {l : PriceLevel P}
    (h : l ∈ entriesAfter levels price qty orderCount) : l ∈ levels ∨ qty ≠ 0 ∧ l.qty = qty := by
  rcases List.mem_append.mp h with hold | hnew
  · exact Or.inl (List.mem_of_mem_filter hold)
  · split_ifs at hnew with hqty
    · cases hnew
    · rw [List.mem_singleton.mp hnew]
      exact Or.inr ⟨hqty, rfl⟩

end BookSide

namespace L2OrderBook

variable {P : Type} [LinearOrder P]

structure Ordered (s : Side) (side : BookSide P) : Prop where
  sorted : (side.list.map PriceLevel.price).Pairwise (Better s)
  positive : ∀ l ∈ side.list, 0 < l.qty

theorem ordered_of_count {s : Side} {side : BookSide P} (h : side.count = 0) : Ordered s side := by
  have hnil : side.list = [] := by
    rw [BookSide.list, h, List.take_zero]
  refine ⟨?_, ?_⟩
  · rw [hnil]
    exact List.Pairwise.nil
  · rw [hnil]
    exact List.forall_mem_nil _

theorem updateLevel_side (book : L2OrderBook P) (s : Side) (price : P) (qty count : UInt32) :
    ∃ cmp : P → P → Bool, (∀ p q, cmp p q = true ↔ Better s p q) ∧
      (book.updateLevel s price qty count).side s = (book.side s).updateSide price qty count cmp ∧
      ∀ s', s' ≠ s → (book.updateLevel s price qty count).side s' = book.side s' := by
  cases s with
  | buy =>
    refine ⟨fun a b => decide (b < a), fun p q => decide_eq_true_iff, rfl, fun s' hne => ?_⟩
    cases s' with
    | buy => exact absurd rfl hne
    | sell => rfl
  | sell =>
    refine ⟨fun a b => decide (a < b), fun p q => decide_eq_true_iff, rfl, fun s' hne => ?_⟩
    cases s' with
    | buy => rfl
    | sell => exact absurd rfl hne

theorem Ordered.updateLevel {book : L2OrderBook P} (h : ∀ s, Ordered s (book.side s)) (target : Side) (price : P)
    (qty count : UInt32) (s : Side) : Ordered s ((book.updateLevel target price qty count).side s) := by
  obtain ⟨cmp, hcmp, hside, hother⟩ := book.updateLevel_side target price qty count
  by_cases hs : s = target
  · subst hs
    obtain ⟨sorted, hperm, hsorted, hlist⟩ := BookSide.updateSide_list price qty count (h s).sorted hcmp
    rw [hside]
    refine ⟨?_, fun l hl => ?_⟩
    · rw [hlist, List.map_take]
      exact hsorted.sublist (List.take_sublist _ _)
    · rw [hlist] at hl
      rcases BookSide.mem_entriesAfter (hperm.mem_iff.mp (List.mem_of_mem_take hl)) with hold | ⟨hqty, hnew⟩
      · exact (h s).positive l hold
      · rw [hnew]
        exact UInt32.pos_iff_ne_zero.mpr hqty
  · rw [hother s hs]
    exact h s

theorem ordered_run [Zero P] (calls : List (Call P)) (s : Side) : Ordered s ((run calls).side s) := by
  induction calls using List.reverseRecOn generalizing s with
  | nil =>
    cases s with
    | buy => exact ordered_of_count rfl
    | sell => exact ordered_of_count rfl
  | append_singleton calls call ih =>
    rw [run, run_snoc]
    cases call with
    | updateLevel side price qty count => exact Ordered.updateLevel ih side price qty count s
    | clear =>
      cases s with
      | buy => exact ordered_of_count rfl
      | sell => exact ordered_of_count rfl

theorem update_level_law [Zero P] (calls : List (Call P)) :
    let book := run calls
    (∀ s, ((book.side s).list.map PriceLevel.price).Pairwise (Better s) ∧
        ((book.side s).list.map PriceLevel.price).Nodup ∧ (∀ l ∈ (book.side s).list, 0 < l.qty) ∧
        (book.side s).list.length ≤ 32) ∧
      ∀ s price qty count,
        (∃ sorted : List (PriceLevel P), sorted.Perm (BookSide.entriesAfter (book.side s).list price qty count) ∧
          (sorted.map PriceLevel.price).Pairwise (Better s) ∧
          ((book.updateLevel s price qty count).side s).list = sorted.take 32) ∧
        ∀ s', s' ≠ s → ((book.updateLevel s price qty count).side s').list = (book.side s').list := by
  intro book
  have hordered : ∀ s, Ordered s (book.side s) := ordered_run calls
  refine ⟨fun s => ?_, fun s price qty count => ?_⟩
  · refine ⟨(hordered s).sorted, (hordered s).sorted.imp fun hab => ne_of_irrefl hab, (hordered s).positive, ?_⟩
    rw [BookSide.length_list]
    exact (book.side s).count_le
  · obtain ⟨cmp, hcmp, hside, hother⟩ := book.updateLevel_side s price qty count
    refine ⟨?_, fun s' hne => ?_⟩
    · rw [hside]
      exact BookSide.updateSide_list price qty count (hordered s).sorted hcmp
    · rw [hother s' hne]

end L2OrderBook

end SystemLevel.Trading
