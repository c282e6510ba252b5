import SystemLevel.Foundations.Runs
import SystemLevel.Trading.L2OrderBook

namespace SystemLevel.Trading

open Runs Shifts

namespace BookSide

variable {P : Type} (side : BookSide P)

def list : List (PriceLevel P) := side.levels.toList.take side.count

theorem length_list : side.list.length = side.count := by
  rw [list, List.length_take, Vector.length_toList, Nat.min_eq_left side.count_le]

theorem getElem?_list (i : Fin side.count) : side.list[i.val]? = some (side.level i) := by
  rw [list, List.getElem?_take_of_lt i.isLt, Vector.getElem?_toList, Vector.getElem?_eq_getElem (side.index_lt i)]
  rfl

theorem drop_list (i : Fin side.count) : side.list.drop i = side.level i :: side.list.drop (i + 1) := by
  have hlevel := List.getElem?_eq_some_iff.mp (side.getElem?_list i)
  rw [List.drop_eq_getElem_cons hlevel.1, hlevel.2]

theorem take_list : side.list.take maxDepth = side.list :=
  List.take_of_length_le (side.length_list.trans_le side.count_le)

theorem mem_list_iff (l : PriceLevel P) : l ∈ side.list ↔ ∃ i, side.level i = l := by
  rw [List.mem_iff_getElem?]
  constructor
  · rintro ⟨i, hi⟩
    have hlt : i < side.count := by
      rw [← side.length_list]
      exact (List.getElem?_eq_some_iff.mp hi).1
    refine ⟨⟨i, hlt⟩, ?_⟩
    rw [side.getElem?_list ⟨i, hlt⟩] at hi
    exact Option.some.inj hi
  · rintro ⟨i, rfl⟩
    exact ⟨i, side.getElem?_list i⟩

theorem best_eq : side.best = side.list.head? := by
  rw [best, List.head?_eq_getElem?]
  split_ifs with h
  · rw [eq_comm, List.getElem?_eq_none_iff, length_list, h]
  · exact (side.getElem?_list ⟨0, Nat.pos_of_ne_zero h⟩).symm

theorem list_remove (i : Fin side.count) : (side.remove i).list = side.list.eraseIdx i := by
  have hi := i.isLt
  have hlast : i.val + (side.count - 1 - i) = side.count - 1 := by omega
  have hall : side.count - 1 + 1 = side.count := by omega
  have htake := take_shiftDown side.levels i (side.count - 1 - i) (side.last_lt i)
  rwa [hlast, hall] at htake

theorem list_replace (i : Fin side.count) (qty orderCount : UInt32) :
    (side.replace i qty orderCount).list = side.list.set i { price := (side.level i).price, qty, orderCount } := by
  rw [list, replace, Vector.toList_set, List.take_set]
  rfl

theorem list_insertAt_take {pos : ℕ} (hpos : pos < maxDepth) (l : PriceLevel P) (hle : pos ≤ side.count) :
    (side.insertAt pos hpos l).list = (side.list.insertIdx pos l).take maxDepth := by
  have hfull := side.count_le
  have hlimit : side.limit = min (side.count + 1) maxDepth := rfl
  have hcount : (side.insertAt pos hpos l).count = side.limit := by
    change (if side.count < maxDepth then side.count + 1 else side.count) = _
    split_ifs <;> omega
  have hlast : pos + (side.limit - 1 - pos) = side.limit - 1 := by omega
  have htake := take_shiftUp side.levels pos (side.limit - 1 - pos) (side.limit_lt hpos) l
  rw [hlast, ← take_insertIdx (by omega), Nat.sub_add_cancel (by omega)] at htake
  rw [list, hcount, list, ← take_insertIdx hle, List.take_take, min_comm, ← hlimit]
  exact htake

theorem list_insertAt {pos : ℕ} (hpos : pos < maxDepth) (l : PriceLevel P) (hle : pos ≤ side.count)
    (hroom : side.count < maxDepth) : (side.insertAt pos hpos l).list = side.list.insertIdx pos l := by
  rw [side.list_insertAt_take hpos l hle, List.take_of_length_le]
  rw [List.length_insertIdx_of_le_length (side.length_list ▸ hle), length_list]
  exact hroom

section Find

variable {side} {test : PriceLevel P → Bool}

theorem find_none (h : side.find test = none) : ∀ l ∈ side.list, test l = false := by
  intro l hl
  obtain ⟨i, rfl⟩ := (side.mem_list_iff l).mp hl
  exact Fin.find?_eq_none_iff.mp h i

theorem find_some {i : Fin side.count} (h : side.find test = some i) :
    test (side.level i) = true ∧ ∀ l ∈ side.list.take i, test l = false := by
  obtain ⟨hi, hbefore⟩ := Fin.find?_eq_some_iff.mp h
  refine ⟨hi, fun l hl => ?_⟩
  obtain ⟨j, hj⟩ := List.mem_iff_getElem?.mp hl
  rw [List.getElem?_take] at hj
  split_ifs at hj with hlt
  rw [side.getElem?_list ⟨j, hlt.trans i.isLt⟩] at hj
  cases hj
  exact hbefore ⟨j, hlt.trans i.isLt⟩ hlt

end Find

section Order

variable {R : P → P → Prop} [IsStrictTotalOrder P R] {side} {price : P}

theorem insertPos_spec (h : (side.list.map PriceLevel.price).Pairwise R) {cmp : P → P → Bool}
    (hcmp : ∀ p q, cmp p q = true ↔ R p q) (hne : ∀ l ∈ side.list, l.price ≠ price) :
    side.insertPos cmp price ≤ side.count ∧ (∀ l ∈ side.list.take (side.insertPos cmp price), R l.price price) ∧
      ∀ l ∈ side.list.drop (side.insertPos cmp price), R price l.price := by
  have hbetter : ∀ l ∈ side.list, cmp price l.price = false → R l.price price := by
    intro l hl hfalse
    have hnot : ¬ R price l.price := fun hR => Bool.noConfusion (hfalse.symm.trans ((hcmp _ _).mpr hR))
    rcases trichotomous_of R price l.price with hR | heq | hR
    · exact absurd hR hnot
    · exact absurd heq.symm (hne l hl)
    · exact hR
  rw [insertPos]
  cases hfind : side.find fun level => cmp price level.price with
  | none =>
    refine ⟨le_rfl, fun l hl => ?_, fun l hl => ?_⟩
    · have hmem := List.mem_of_mem_take hl
      exact hbetter l hmem (find_none hfind l hmem)
    · change l ∈ side.list.drop side.count at hl
      rw [List.drop_of_length_le side.length_list.le] at hl
      cases hl
  | some i =>
    obtain ⟨hi, hbefore⟩ := find_some hfind
    refine ⟨i.isLt.le, fun l hl => hbetter l (List.mem_of_mem_take hl) (hbefore l hl), fun l hl => ?_⟩
    have hR : R price (side.level i).price := (hcmp _ _).mp hi
    have hdrop := side.drop_list i
    have hsorted := h.sublist ((List.drop_sublist i side.list).map _)
    rw [hdrop, List.map_cons, List.pairwise_cons] at hsorted
    rw [hdrop, List.mem_cons] at hl
    rcases hl with rfl | hl
    · exact hR
    · exact trans_of R hR (hsorted.1 _ (List.mem_map_of_mem hl))

omit [IsStrictTotalOrder P R] in
theorem sorted_insertIdx (h : (side.list.map PriceLevel.price).Pairwise R) {pos : ℕ} (hle : pos ≤ side.count)
    (l : PriceLevel P) (hbefore : ∀ l' ∈ side.list.take pos, R l'.price l.price)
    (hafter : ∀ l' ∈ side.list.drop pos, R l.price l'.price) :
    ((side.list.insertIdx pos l).map PriceLevel.price).Pairwise R := by
  rw [List.map_insertIdx]
  refine pairwise_insertIdx h ?_ ?_ ?_
  · rw [List.length_map, length_list]
    exact hle
  · rw [← List.map_take]
    exact List.forall_mem_map.mpr hbefore
  · rw [← List.map_drop]
    exact List.forall_mem_map.mpr hafter

end Order

/-- The levels in use are those of `table`, the best price first. `R p q` says that `p` is better than `q`. -/
structure Mirrors (R : P → P → Prop) (side : BookSide P) (table : P → Option (PriceLevel P)) : Prop where
  sorted : (side.list.map PriceLevel.price).Pairwise R
  keyed : ∀ p l, table p = some l → l.price = p
  mem_iff : ∀ l, l ∈ side.list ↔ table l.price = some l

namespace Mirrors

variable {R : P → P → Prop} [IsStrictTotalOrder P R] {side} {table : P → Option (PriceLevel P)}

theorem nodup (h : side.Mirrors R table) : (side.list.map PriceLevel.price).Nodup :=
  h.sorted.imp fun hab => ne_of_irrefl hab

theorem eq_of_price (h : side.Mirrors R table) {i j : ℕ} {l l' : PriceLevel P} (hl : side.list[i]? = some l)
    (hl' : side.list[j]? = some l') (hprice : l.price = l'.price) : i = j := by
  have hi : i < (side.list.map PriceLevel.price).length := by
    rw [List.length_map]
    exact (List.getElem?_eq_some_iff.mp hl).1
  refine (List.getElem?_inj hi h.nodup).mp ?_
  rw [List.getElem?_map, List.getElem?_map, hl, hl', Option.map_some, Option.map_some, hprice]

omit [IsStrictTotalOrder P R] in
theorem mem_price_iff (h : side.Mirrors R table) (p : P) :
    p ∈ side.list.map PriceLevel.price ↔ table p ≠ none := by
  rw [List.mem_map]
  constructor
  · rintro ⟨l, hl, rfl⟩
    rw [(h.mem_iff l).mp hl]
    exact Option.some_ne_none l
  · intro hp
    obtain ⟨l, hl⟩ := Option.ne_none_iff_exists'.mp hp
    have hprice := h.keyed p l hl
    refine ⟨l, (h.mem_iff l).mpr ?_, hprice⟩
    rw [hprice]
    exact hl

theorem encard_eq (h : side.Mirrors R table) : { p | table p ≠ none }.encard = side.count := by
  classical
  have hset : { p | table p ≠ none } = ((side.list.map PriceLevel.price).toFinset : Set P) := by
    ext p
    rw [List.coe_toFinset]
    exact (h.mem_price_iff p).symm
  rw [hset, Set.encard_coe_eq_coe_finsetCard, List.toFinset_card_of_nodup h.nodup, List.length_map, length_list]

section Update

variable [DecidableEq P] {price : P} {qty orderCount : UInt32}

theorem remove (h : side.Mirrors R table) {i : Fin side.count} (hi : (side.level i).price = price) :
    (side.remove i).Mirrors R (Function.update table price none) where
  sorted := by
    rw [list_remove]
    exact h.sorted.sublist ((List.eraseIdx_sublist _ _).map _)
  keyed p l hl := by
    rw [Function.update_apply] at hl
    split_ifs at hl
    exact h.keyed p l hl
  mem_iff l := by
    rw [list_remove, List.mem_eraseIdx_iff_getElem?]
    by_cases hprice : l.price = price
    · rw [hprice, Function.update_self]
      refine iff_of_false ?_ (Option.some_ne_none l).symm
      rintro ⟨j, hne, hj⟩
      exact hne (h.eq_of_price hj (side.getElem?_list i) (hprice.trans hi.symm))
    · rw [Function.update_of_ne hprice, ← h.mem_iff, List.mem_iff_getElem?]
      refine ⟨fun ⟨j, _, hj⟩ => ⟨j, hj⟩, fun ⟨j, hj⟩ => ⟨j, ?_, hj⟩⟩
      rintro rfl
      rw [side.getElem?_list i] at hj
      cases hj
      exact hprice hi

omit [IsStrictTotalOrder P R] in
theorem keyed_update (h : side.Mirrors R table) {p : P} {l : PriceLevel P}
    (hl : Function.update table price (some { price, qty, orderCount }) p = some l) : l.price = p := by
  rw [Function.update_apply] at hl
  split_ifs at hl with hp
  · cases hl
    exact hp.symm
  · exact h.keyed p l hl

theorem replace (h : side.Mirrors R table) {i : Fin side.count} (hi : (side.level i).price = price) :
    (side.replace i qty orderCount).Mirrors R (Function.update table price (some { price, qty, orderCount })) where
  sorted := by
    have hsame : (side.replace i qty orderCount).list.map PriceLevel.price = side.list.map PriceLevel.price := by
      apply List.ext_getElem?
      intro j
      rw [list_replace, List.getElem?_map, List.getElem?_map, List.getElem?_set]
      split_ifs with hj hlt
      · rw [← hj, side.getElem?_list i, Option.map_some, Option.map_some]
      · rw [← hj, List.getElem?_eq_none (not_lt.mp hlt), Option.map_none]
      · rfl
    rw [hsame]
    exact h.sorted
  keyed _ _ := h.keyed_update
  mem_iff l := by
    have hlt : i.val < side.list.length := by
      rw [length_list]
      exact i.isLt
    rw [list_replace, hi, List.mem_iff_getElem?]
    simp only [List.getElem?_set, hlt, if_true]
    by_cases hprice : l.price = price
    · rw [hprice, Function.update_self]
      constructor
      · rintro ⟨j, hj⟩
        split_ifs at hj with hij
        · exact hj
        · exact absurd (h.eq_of_price (side.getElem?_list i) hj (hi.trans hprice.symm)) hij
      · intro hl
        exact ⟨i, (if_pos rfl).trans hl⟩
    · rw [Function.update_of_ne hprice, ← h.mem_iff, List.mem_iff_getElem?]
      refine exists_congr fun j => ?_
      split_ifs with hij
      · rw [← hij, side.getElem?_list i]
        refine iff_of_false ?_ ?_
        · intro hl
          cases hl
          exact hprice rfl
        · intro hl
          cases hl
          exact hprice hi
      · rfl

omit [IsStrictTotalOrder P R] in
theorem insertAt (h : side.Mirrors R table) (hnew : table price = none) {pos : ℕ} (hpos : pos < maxDepth)
    (hle : pos ≤ side.count) (hroom : side.count < maxDepth)
    (hbefore : ∀ l ∈ side.list.take pos, R l.price price) (hafter : ∀ l ∈ side.list.drop pos, R price l.price) :
    (side.insertAt pos hpos { price, qty, orderCount }).Mirrors R
      (Function.update table price (some { price, qty, orderCount })) where
  sorted := by
    rw [side.list_insertAt hpos _ hle hroom]
    exact sorted_insertIdx h.sorted hle { price, qty, orderCount } hbefore hafter
  keyed _ _ := h.keyed_update
  mem_iff l := by
    have hlength : pos ≤ side.list.length := by
      rw [length_list]
      exact hle
    rw [side.list_insertAt hpos _ hle hroom, List.mem_insertIdx hlength, h.mem_iff]
    by_cases hprice : l.price = price
    · rw [hprice, Function.update_self, hnew, Option.some_inj, eq_comm (a := l)]
      exact or_iff_left (Option.some_ne_none l).symm
    · rw [Function.update_of_ne hprice]
      refine or_iff_right ?_
      rintro rfl
      exact hprice rfl

theorem count_lt (h : side.Mirrors R table) (hnew : table price = none) {l : PriceLevel P}
    (hroom : { p | Function.update table price (some l) p ≠ none }.encard ≤ maxDepth) : side.count < maxDepth := by
  have hset : { p | Function.update table price (some l) p ≠ none } = insert price { p | table p ≠ none } := by
    ext p
    change Function.update table price (some l) p ≠ none ↔ p = price ∨ table p ≠ none
    rw [Function.update_apply]
    split_ifs with hp
    · exact iff_of_true (Option.some_ne_none l) (Or.inl hp)
    · exact (or_iff_right hp).symm
  have hnot : price ∉ { p | table p ≠ none } := not_not_intro hnew
  rw [hset, Set.encard_insert_of_notMem hnot, h.encard_eq] at hroom
  exact_mod_cast hroom

theorem updateSide (h : side.Mirrors R table) {cmp : P → P → Bool} (hcmp : ∀ p q, cmp p q = true ↔ R p q)
    (hroom : { p | Function.update table price (if qty = 0 then none else some { price, qty, orderCount }) p ≠
      none }.encard ≤ maxDepth) :
    (side.updateSide price qty orderCount cmp).Mirrors R
      (Function.update table price (if qty = 0 then none else some { price, qty, orderCount })) := by
  rw [BookSide.updateSide]
  cases hfind : side.find fun level => level.price == price with
  | some i =>
    have hi : (side.level i).price = price := beq_iff_eq.mp (find_some hfind).1
    simp only
    split_ifs with hqty
    · exact h.remove hi
    · exact h.replace hi
  | none =>
    have hne : ∀ l ∈ side.list, l.price ≠ price := fun l hl => beq_eq_false_iff_ne.mp (find_none hfind l hl)
    have hnew : table price = none := by
      by_contra hsome
      obtain ⟨l, hl, hprice⟩ := List.mem_map.mp ((h.mem_price_iff price).mpr hsome)
      exact hne l hl hprice
    by_cases hqty : qty = 0
    · rw [if_pos hqty, if_pos hqty, ← hnew, Function.update_eq_self]
      exact h
    · rw [if_neg hqty] at hroom ⊢
      rw [if_neg hqty]
      have hcount := h.count_lt hnew hroom
      obtain ⟨hle, hbefore, hafter⟩ := insertPos_spec h.sorted hcmp hne
      rw [dif_pos (hle.trans_lt hcount)]
      exact h.insertAt hnew _ hle hcount hbefore hafter

end Update

theorem best_iff (h : side.Mirrors R table) (l : PriceLevel P) :
    side.best = some l ↔ table l.price = some l ∧ ∀ p, table p ≠ none → p = l.price ∨ R l.price p := by
  have hprices := h.mem_price_iff
  have hsorted := h.sorted
  rw [best_eq, ← h.mem_iff]
  simp only [← hprices]
  cases hlist : side.list with
  | nil => simp
  | cons first rest =>
    rw [hlist, List.map_cons, List.pairwise_cons] at hsorted
    rw [List.head?_cons, Option.some_inj]
    constructor
    · rintro rfl
      refine ⟨List.mem_cons_self, fun p hp => ?_⟩
      rw [List.map_cons, List.mem_cons] at hp
      exact hp.imp_right (hsorted.1 p)
    · rintro ⟨hl, hbest⟩
      rcases List.mem_cons.mp hl with hl | hl
      · exact hl.symm
      · have hR := hsorted.1 l.price (List.mem_map_of_mem hl)
        rcases hbest first.price (List.mem_map_of_mem List.mem_cons_self) with heq | hR'
        · rw [heq] at hR
          exact absurd hR (irrefl_of R _)
        · exact absurd hR' (asymm_of R hR)

omit [IsStrictTotalOrder P R] in
theorem best_none_iff (h : side.Mirrors R table) : side.best = none ↔ ∀ p, table p = none := by
  rw [best_eq, List.head?_eq_none_iff]
  constructor
  · intro hnil p
    by_contra hp
    have hmem := (h.mem_price_iff p).mpr hp
    rw [hnil] at hmem
    cases hmem
  · intro hnone
    rw [List.eq_nil_iff_forall_not_mem]
    intro l hl
    exact Option.some_ne_none l (((h.mem_iff l).mp hl).symm.trans (hnone _))

end Mirrors

end BookSide

namespace L2OrderBook

variable {P : Type} [LinearOrder P]

inductive Call (P : Type)
  | updateLevel (side : Side) (price : P) (qty count : UInt32)
  | clear

def step (book : L2OrderBook P) : Call P → L2OrderBook P
  | .updateLevel side price qty count => book.updateLevel side price qty count
  | .clear => book.clear

abbrev run [Zero P] (calls : List (Call P)) : L2OrderBook P := Runs.run step empty calls

/-- A side of a book without a limit: the latest update of each price, unless its quantity is zero. -/
def record (s : Side) (table : P → Option (PriceLevel P)) : Call P → P → Option (PriceLevel P)
  | .updateLevel side price qty orderCount =>
    if side = s then Function.update table price (if qty = 0 then none else some { price, qty, orderCount }) else table
  | .clear => fun _ => none

abbrev liveLevels (s : Side) (calls : List (Call P)) : P → Option (PriceLevel P) :=
  Runs.run (record s) (fun _ => none) calls

def keep (kept : List (Call P)) : Call P → List (Call P)
  | .updateLevel side price qty count => kept ++ [.updateLevel side price qty count]
  | .clear => []

abbrev sinceClear (calls : List (Call P)) : List (Call P) := Runs.run keep [] calls

/-- After the call no more levels of the side are live than the book has room for. -/
def Fits (s : Side) (past : List (Call P)) (call : Call P) : Prop :=
  { p | liveLevels s (past ++ [call]) p ≠ none }.encard ≤ maxDepth

def side (book : L2OrderBook P) : Side → BookSide P
  | .buy => book.bids
  | .sell => book.asks

def Better : Side → P → P → Prop
  | .buy => fun p q => q < p
  | .sell => fun p q => p < q

instance isStrictTotalOrder_better : (s : Side) → IsStrictTotalOrder P (Better s)
  | .buy => inferInstanceAs (IsStrictTotalOrder P (· > ·))
  | .sell => inferInstanceAs (IsStrictTotalOrder P (· < ·))

omit [LinearOrder P] in
theorem mirrors_of_count {R : P → P → Prop} {side : BookSide P} (h : side.count = 0) :
    side.Mirrors R fun _ => none := by
  have hnil : side.list = [] := by
    rw [BookSide.list, h, List.take_zero]
  refine ⟨?_, fun p l hl => ?_, fun l => ?_⟩
  · rw [hnil]
    exact List.Pairwise.nil
  · cases hl
  · rw [hnil]
    exact iff_of_false List.not_mem_nil (Option.some_ne_none l).symm

theorem mirrors_updateLevel {book : L2OrderBook P} {s side : Side} {table : P → Option (PriceLevel P)} {price : P}
    {qty count : UInt32} (h : (book.side s).Mirrors (Better s) table)
    (hroom : { p | record s table (.updateLevel side price qty count) p ≠ none }.encard ≤ maxDepth) :
    ((book.updateLevel side price qty count).side s).Mirrors (Better s)
      (record s table (.updateLevel side price qty count)) := by
  rw [record] at hroom ⊢
  by_cases hs : side = s
  · rw [if_pos hs] at hroom ⊢
    subst hs
    cases side with
    | buy => exact h.updateSide (fun _ _ => decide_eq_true_iff) hroom
    | sell => exact h.updateSide (fun _ _ => decide_eq_true_iff) hroom
  · rw [if_neg hs]
    have hsame : (book.updateLevel side price qty count).side s = book.side s := by
      cases side with
      | buy =>
        cases s with
        | buy => exact absurd rfl hs
        | sell => rfl
      | sell =>
        cases s with
        | buy => rfl
        | sell => exact absurd rfl hs
    rw [hsame]
    exact h

theorem liveLevels_sinceClear (s : Side) (calls : List (Call P)) :
    liveLevels s (sinceClear calls) = liveLevels s calls := by
  induction calls using List.reverseRecOn with
  | nil => rfl
  | append_singleton calls call ih =>
    cases call with
    | updateLevel side price qty count =>
      rw [sinceClear, run_snoc, keep, liveLevels, run_snoc, liveLevels, run_snoc]
      exact congrArg (record s · (.updateLevel side price qty count)) ih
    | clear =>
      rw [sinceClear, run_snoc, keep, liveLevels, liveLevels, run_snoc]
      rfl

theorem mirrors_run [Zero P] {s : Side} {calls : List (Call P)} (h : Lawful (Fits s) (sinceClear calls)) :
    ((run calls).side s).Mirrors (Better s) (liveLevels s calls) := by
  induction calls using List.reverseRecOn with
  | nil =>
    cases s with
    | buy => exact mirrors_of_count rfl
    | sell => exact mirrors_of_count rfl
  | append_singleton calls call ih =>
    rw [run, run_snoc, liveLevels, run_snoc]
    cases call with
    | updateLevel side price qty count =>
      rw [sinceClear, run_snoc, keep] at h
      obtain ⟨hpast, hfits⟩ := (lawful_snoc _ _).mp h
      rw [Fits, liveLevels, run_snoc] at hfits
      have hsame := liveLevels_sinceClear s calls
      rw [liveLevels] at hsame
      rw [hsame] at hfits
      exact mirrors_updateLevel (ih hpast) hfits
    | clear =>
      cases s with
      | buy => exact mirrors_of_count rfl
      | sell => exact mirrors_of_count rfl

theorem top_is_best_live_level [Zero P] (calls : List (Call P)) :
    (Lawful (Fits .buy) (sinceClear calls) →
      (∀ level, (run calls).bestBid = some level ↔ liveLevels .buy calls level.price = some level ∧
        ∀ p, liveLevels .buy calls p ≠ none → p ≤ level.price) ∧
      ((run calls).bestBid = none ↔ ∀ p, liveLevels .buy calls p = none)) ∧
    (Lawful (Fits .sell) (sinceClear calls) →
      (∀ level, (run calls).bestAsk = some level ↔ liveLevels .sell calls level.price = some level ∧
        ∀ p, liveLevels .sell calls p ≠ none → level.price ≤ p) ∧
      ((run calls).bestAsk = none ↔ ∀ p, liveLevels .sell calls p = none)) := by
  refine ⟨fun h => ?_, fun h => ?_⟩
  · have hbids := mirrors_run h
    refine ⟨fun level => (hbids.best_iff level).trans (and_congr_right fun _ => ?_), hbids.best_none_iff⟩
    exact forall_congr' fun p => imp_congr_right fun _ => le_iff_eq_or_lt.symm
  · have hasks := mirrors_run h
    refine ⟨fun level => (hasks.best_iff level).trans (and_congr_right fun _ => ?_), hasks.best_none_iff⟩
    exact forall_congr' fun p => imp_congr_right fun _ => (le_iff_eq_or_lt.trans (or_congr_left eq_comm)).symm

theorem encard_record_le (s : Side) (table : P → Option (PriceLevel P)) (call : Call P) :
    { p | record s table call p ≠ none }.encard ≤ { p | table p ≠ none }.encard + 1 := by
  cases call with
  | updateLevel side price qty count =>
    have hsubset : { p | record s table (.updateLevel side price qty count) p ≠ none } ⊆
        insert price { p | table p ≠ none } := by
      intro p hp
      by_cases hprice : p = price
      · exact Or.inl hprice
      · refine Or.inr fun hnone => hp ?_
        rw [record]
        by_cases hs : side = s
        · rw [if_pos hs, Function.update_of_ne hprice]
          exact hnone
        · rw [if_neg hs]
          exact hnone
    exact (Set.encard_le_encard hsubset).trans (Set.encard_insert_le _ _)
  | clear =>
    have hempty : { p | record s table .clear p ≠ none } = ∅ := Set.eq_empty_of_forall_notMem fun p hp => hp rfl
    rw [hempty, Set.encard_empty]
    exact zero_le

theorem encard_liveLevels_le (s : Side) (calls : List (Call P)) :
    { p | liveLevels s calls p ≠ none }.encard ≤ calls.length := by
  induction calls using List.reverseRecOn with
  | nil =>
    have hempty : { p : P | liveLevels s [] p ≠ none } = ∅ := Set.eq_empty_of_forall_notMem fun p hp => hp rfl
    rw [hempty, Set.encard_empty]
    exact zero_le
  | append_singleton calls call ih =>
    rw [List.length_append, List.length_singleton, Nat.cast_add, liveLevels, run_snoc]
    exact (encard_record_le s _ call).trans (add_le_add_left ih 1)

theorem lawful_fits_of_length (s : Side) {calls : List (Call P)} (h : calls.length ≤ maxDepth) :
    Lawful (Fits s) calls := by
  induction calls using List.reverseRecOn with
  | nil => trivial
  | append_singleton calls call ih =>
    refine (lawful_snoc calls call).mpr ⟨ih ?_, ?_⟩
    · rw [List.length_append] at h
      exact (Nat.le_add_right _ _).trans h
    · exact (encard_liveLevels_le s (calls ++ [call])).trans (Nat.cast_le.mpr h)

def quotes : List (Call ℕ) :=
  [.updateLevel .buy 5 10 1, .updateLevel .buy 7 3 1, .clear, .updateLevel .buy 6 2 1, .updateLevel .sell 9 4 2,
    .updateLevel .buy 8 1 1, .updateLevel .buy 6 4 2, .updateLevel .buy 8 0 0]

theorem top_is_best_live_level_of_quotes :
    (run quotes).bestBid = some { price := 6, qty := 4, orderCount := 2 } ∧
      ∀ p, liveLevels .buy quotes p ≠ none → p ≤ 6 := by
  have hlawful : Lawful (Fits .buy) (sinceClear quotes) := lawful_fits_of_length .buy (by decide)
  have htop : (run quotes).bestBid = some { price := 6, qty := 4, orderCount := 2 } := by decide +kernel
  refine ⟨htop, ?_⟩
  exact ((((top_is_best_live_level quotes).1 hlawful).1 _).mp htop).2

def thirtyThreeBids : List (Call ℕ) :=
  (List.range 33).map (fun i => .updateLevel .buy (33 - i) 1 1) ++
    (List.range 32).map (fun i => .updateLevel .buy (i + 2) 0 0)

theorem dropped_level_is_missing :
    liveLevels .buy thirtyThreeBids 1 = some { price := 1, qty := 1, orderCount := 1 } ∧
      (run thirtyThreeBids).bestBid = none := by
  decide +kernel

end L2OrderBook

end SystemLevel.Trading
