import Mathlib

/-!
Texts that are read line by line. A line is what stands in front of a separator.
-/

namespace SystemLevel.TextLines

variable {α β : Type} [DecidableEq α] {separator : α}

def lines (separator : α) : List α → List (List α) × List α
  | [] => ([], [])
  | x :: xs =>
    if x = separator then ([] :: (lines separator xs).1, (lines separator xs).2)
    else
      match lines separator xs with
      | ([], rest) => ([], x :: rest)
      | (line :: more, rest) => ((x :: line) :: more, rest)

def expect (text line : List α) : Option (List α) :=
  if line.take text.length = text then some (line.drop text.length) else none

@[simp] theorem expect_append (text rest : List α) : expect text (text ++ rest) = some rest := by
  rw [expect, List.take_left, if_pos rfl, List.drop_left]

theorem lines_of_notMem {xs : List α} (h : separator ∉ xs) : lines separator xs = ([], xs) := by
  induction xs with
  | nil => rfl
  | cons x xs ih =>
    rw [List.mem_cons, not_or] at h
    obtain ⟨hx, hxs⟩ := h
    rw [lines, if_neg (Ne.symm hx), ih hxs]

theorem lines_append {line : List α} (h : separator ∉ line) (rest : List α) :
    lines separator (line ++ separator :: rest) = (line :: (lines separator rest).1, (lines separator rest).2) := by
  induction line with
  | nil => rw [List.nil_append, lines, if_pos rfl]
  | cons x line ih =>
    rw [List.mem_cons, not_or] at h
    obtain ⟨hx, hline⟩ := h
    rw [List.cons_append, lines, if_neg (Ne.symm hx), ih hline]

theorem lines_flatMap {f : β → List α} {items : List β} (hitems : ∀ item ∈ items, separator ∉ f item) {rest : List α}
    (hrest : separator ∉ rest) :
    lines separator (items.flatMap (fun item => f item ++ [separator]) ++ rest) = (items.map f, rest) := by
  induction items with
  | nil => exact lines_of_notMem hrest
  | cons item items ih =>
    obtain ⟨hitem, hmore⟩ := List.forall_mem_cons.mp hitems
    rw [List.flatMap_cons, List.append_assoc, List.append_assoc, List.singleton_append, lines_append hitem, ih hmore]
    rfl

omit [DecidableEq α] in
theorem mapM_map {γ : Type} {f : β → α} {g : β → γ} {parse : α → Option γ} {items : List β}
    (h : ∀ item ∈ items, parse (f item) = some (g item)) : (items.map f).mapM parse = some (items.map g) := by
  induction items with
  | nil => rfl
  | cons item items ih =>
    obtain ⟨hitem, hmore⟩ := List.forall_mem_cons.mp h
    rw [List.map_cons, List.mapM_cons, hitem, ih hmore]
    rfl

theorem takeWhile_ne {text : List α} (h : separator ∉ text) (rest : List α) :
    (text ++ separator :: rest).takeWhile (· ≠ separator) = text := by
  rw [List.takeWhile_append_of_pos, List.takeWhile_cons_of_neg (by simp), List.append_nil]
  intro x hx
  apply decide_eq_true
  rintro rfl
  exact h hx

theorem dropWhile_ne {text : List α} (h : separator ∉ text) (rest : List α) :
    (text ++ separator :: rest).dropWhile (· ≠ separator) = separator :: rest := by
  rw [List.dropWhile_append_of_pos, List.dropWhile_cons_of_neg (by simp)]
  intro x hx
  apply decide_eq_true
  rintro rfl
  exact h hx

end SystemLevel.TextLines
