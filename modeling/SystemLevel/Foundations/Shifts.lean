import Mathlib

/-!
The two loops that close and open a gap in an array. `k` is the number of elements that move.
-/

namespace SystemLevel.Shifts

variable {α : Type} {n : ℕ}

def shiftDown (v : Vector α n) (i : ℕ) : (k : ℕ) → i + k < n → Vector α n
  | 0, _ => v
  | k + 1, h => shiftDown (v.set i v[i + 1]) (i + 1) k (by omega)

def shiftUp (v : Vector α n) (i : ℕ) : (k : ℕ) → i + k < n → Vector α n
  | 0, _ => v
  | k + 1, h => shiftUp (v.set (i + k + 1) v[i + k]) i k (by omega)

theorem getElem?_shiftDown (v : Vector α n) (i k : ℕ) (h : i + k < n) (j : ℕ) :
    (shiftDown v i k h)[j]? = if i ≤ j ∧ j < i + k then v[j + 1]? else v[j]? := by
  induction k generalizing v i with
  | zero =>
    rw [if_neg (by omega)]
    rfl
  | succ k ih =>
    rw [shiftDown, ih, Vector.getElem?_set, Vector.getElem?_set]
    rcases lt_trichotomy j i with hlt | rfl | hgt
    · rw [if_neg (by omega), if_neg (by omega), if_neg (by omega)]
    · rw [if_neg (by omega), if_pos rfl, if_pos (by omega), Vector.getElem?_eq_getElem]
    · rw [if_neg (c := i = j + 1) (by omega), if_neg (c := i = j) (by omega)]
      exact if_congr (by omega) rfl rfl

theorem getElem?_shiftUp (v : Vector α n) (i k : ℕ) (h : i + k < n) (j : ℕ) :
    (shiftUp v i k h)[j]? = if i < j ∧ j ≤ i + k then v[j - 1]? else v[j]? := by
  induction k generalizing v with
  | zero =>
    rw [if_neg (by omega)]
    rfl
  | succ k ih =>
    rw [shiftUp, ih, Vector.getElem?_set, Vector.getElem?_set]
    by_cases hlast : i + k + 1 = j
    · subst hlast
      rw [if_neg (by omega), if_pos rfl, if_pos (by omega), Nat.add_sub_cancel, Vector.getElem?_eq_getElem]
    · rw [if_neg hlast]
      by_cases hin : i < j ∧ j ≤ i + k
      · rw [if_pos hin, if_neg (by omega), if_pos (by omega)]
      · rw [if_neg hin, if_neg (by omega)]

theorem take_shiftDown (v : Vector α n) (i k : ℕ) (h : i + k < n) :
    (shiftDown v i k h).toList.take (i + k) = (v.toList.take (i + k + 1)).eraseIdx i := by
  apply List.ext_getElem?
  intro j
  rw [List.getElem?_take, List.getElem?_eraseIdx, List.getElem?_take, List.getElem?_take, Vector.getElem?_toList,
    Vector.getElem?_toList, Vector.getElem?_toList, getElem?_shiftDown]
  by_cases hj : j < i + k
  · by_cases hi : j < i
    · rw [if_pos hj, if_neg (by omega), if_pos hi, if_pos (by omega)]
    · rw [if_pos hj, if_pos (by omega), if_neg hi, if_pos (by omega)]
  · rw [if_neg hj, if_neg (by omega), if_neg (by omega)]

theorem take_shiftUp (v : Vector α n) (i k : ℕ) (h : i + k < n) (x : α) :
    ((shiftUp v i k h).set i x).toList.take (i + k + 1) = (v.toList.take (i + k)).insertIdx i x := by
  apply List.ext_getElem?
  intro j
  rw [List.getElem?_take, List.getElem?_insertIdx, List.getElem?_take, List.getElem?_take, Vector.getElem?_toList,
    Vector.getElem?_toList, Vector.getElem?_toList, Vector.getElem?_set, getElem?_shiftUp]
  have hlength : i ≤ (v.toList.take (i + k)).length := by
    rw [List.length_take, Vector.length_toList]
    omega
  rcases lt_trichotomy j i with hlt | rfl | hgt
  · rw [if_pos (by omega), if_neg (by omega), if_neg (by omega), if_pos hlt, if_pos (by omega)]
  · rw [if_pos (by omega), if_pos rfl, if_neg (lt_irrefl j), if_pos rfl, if_pos hlength]
  · rw [if_neg (c := i = j) (by omega), if_neg (c := j < i) (by omega), if_neg (c := j = i) (by omega)]
    by_cases hj : j ≤ i + k
    · rw [if_pos (by omega), if_pos ⟨hgt, hj⟩, if_pos (by omega)]
    · rw [if_neg (by omega), if_neg (by omega)]

theorem take_insertIdx {l : List α} {i k : ℕ} (h : i ≤ k) (x : α) :
    (l.insertIdx i x).take (k + 1) = (l.take k).insertIdx i x := by
  induction i generalizing l k with
  | zero => rfl
  | succ i ih =>
    obtain ⟨k, rfl⟩ := Nat.exists_eq_add_of_le' (Nat.zero_lt_of_lt h)
    cases l with
    | nil => rfl
    | cons y l =>
      rw [List.insertIdx_succ_cons, List.take_succ_cons, ih (Nat.le_of_succ_le_succ h), List.take_succ_cons,
        List.insertIdx_succ_cons]

theorem pairwise_insertIdx {R : α → α → Prop} {l : List α} {x : α} {i : ℕ} (h : l.Pairwise R) (hi : i ≤ l.length)
    (hbefore : ∀ y ∈ l.take i, R y x) (hafter : ∀ y ∈ l.drop i, R x y) : (l.insertIdx i x).Pairwise R := by
  induction l generalizing i with
  | nil =>
    cases Nat.le_zero.mp hi
    exact List.pairwise_singleton R x
  | cons y l ih =>
    obtain ⟨hy, hl⟩ := List.pairwise_cons.mp h
    cases i with
    | zero => exact List.pairwise_cons.mpr ⟨hafter, h⟩
    | succ i =>
      have hle : i ≤ l.length := Nat.le_of_succ_le_succ hi
      rw [List.insertIdx_succ_cons, List.pairwise_cons]
      refine ⟨fun z hz => ?_, ih hl hle (fun z hz => hbefore z (List.mem_cons_of_mem y hz)) hafter⟩
      rcases (List.mem_insertIdx hle).mp hz with rfl | hz
      · exact hbefore y List.mem_cons_self
      · exact hy z hz

end SystemLevel.Shifts
