import Mathlib

/-!
A log is the concatenation of its encoded records. Cutting it after `n` symbols leaves the records
that fit, and a strict prefix of the next one.
-/

namespace SystemLevel.Framing

variable {α β : Type} (f : α → List β)

def whole : List α → ℕ → List α
  | [], _ => []
  | x :: xs, n => if (f x).length ≤ n then x :: whole xs (n - (f x).length) else []

def torn : List α → ℕ → List β
  | [], _ => []
  | x :: xs, n => if (f x).length ≤ n then torn xs (n - (f x).length) else (f x).take n

@[simp] theorem whole_nil (n : ℕ) : whole f [] n = [] := rfl

@[simp] theorem torn_nil (n : ℕ) : torn f [] n = [] := rfl

theorem whole_cons (x : α) (xs : List α) (n : ℕ) :
    whole f (x :: xs) n = if (f x).length ≤ n then x :: whole f xs (n - (f x).length) else [] := rfl

theorem torn_cons (x : α) (xs : List α) (n : ℕ) :
    torn f (x :: xs) n = if (f x).length ≤ n then torn f xs (n - (f x).length) else (f x).take n := rfl

theorem take_flatMap (xs : List α) (n : ℕ) :
    (xs.flatMap f).take n = (whole f xs n).flatMap f ++ torn f xs n := by
  induction xs generalizing n with
  | nil => simp
  | cons x xs ih =>
    simp only [whole_cons, torn_cons]
    split_ifs with h
    · rw [List.flatMap_cons, List.take_append, List.take_of_length_le h, ih, List.flatMap_cons,
        List.append_assoc]
    · rw [List.flatMap_cons, List.take_append_of_le_length (by omega), List.flatMap_nil, List.nil_append]

theorem whole_initial (xs : List α) (n : ℕ) : whole f xs n <+: xs := by
  induction xs generalizing n with
  | nil => exact List.prefix_refl _
  | cons x xs ih =>
    rw [whole_cons]
    split_ifs
    · exact (List.prefix_cons_inj x).mpr (ih _)
    · exact List.nil_prefix

theorem whole_length (xs : List α) (n : ℕ) : ((whole f xs n).flatMap f).length ≤ n := by
  induction xs generalizing n with
  | nil => simp
  | cons x xs ih =>
    rw [whole_cons]
    split_ifs with h
    · rw [List.flatMap_cons, List.length_append]
      have := ih (n - (f x).length)
      omega
    · simp

theorem torn_cases (xs : List α) (n : ℕ) :
    torn f xs n = [] ∨ ∃ x rest m, xs = whole f xs n ++ x :: rest ∧ m < (f x).length ∧
      torn f xs n = (f x).take m := by
  induction xs generalizing n with
  | nil => exact Or.inl rfl
  | cons x xs ih =>
    simp only [whole_cons, torn_cons]
    split_ifs with h
    · rcases ih (n - (f x).length) with hnil | ⟨y, rest, m, hxs, hm, ht⟩
      · exact Or.inl hnil
      · exact Or.inr ⟨y, rest, m, by rw [List.cons_append, ← hxs], hm, ht⟩
    · exact Or.inr ⟨x, xs, n, rfl, by omega, rfl⟩

theorem prefix_whole {pre xs : List α} {n : ℕ} (hpre : pre <+: xs) (hn : (pre.flatMap f).length ≤ n) :
    pre <+: whole f xs n := by
  induction pre generalizing xs n with
  | nil => exact List.nil_prefix
  | cons x pre ih =>
    obtain ⟨rest, rfl⟩ := hpre
    rw [List.flatMap_cons, List.length_append] at hn
    rw [List.cons_append, whole_cons, if_pos (by omega)]
    exact (List.prefix_cons_inj x).mpr (ih (List.prefix_append pre rest) (by omega))

theorem mem_whole_or_torn {a b : List α} {x : α} {n : ℕ} (hn : (a.flatMap f).length ≤ n) :
    a ++ [x] <+: whole f (a ++ x :: b) n ∨
      whole f (a ++ x :: b) n = a ∧ torn f (a ++ x :: b) n = (f x).take (n - (a.flatMap f).length) ∧
        n - (a.flatMap f).length < (f x).length := by
  induction a generalizing n with
  | nil =>
    simp only [List.nil_append, whole_cons, torn_cons, List.flatMap_nil, List.length_nil, Nat.sub_zero]
    split_ifs with h
    · exact Or.inl (by simp)
    · exact Or.inr ⟨rfl, rfl, by omega⟩
  | cons y a ih =>
    rw [List.flatMap_cons, List.length_append] at hn
    have hy : (f y).length ≤ n := by omega
    simp only [List.cons_append, whole_cons, torn_cons, if_pos hy]
    rcases ih (show (a.flatMap f).length ≤ n - (f y).length by omega) with h | ⟨hw, ht, hlt⟩
    · exact Or.inl ((List.prefix_cons_inj y).mpr h)
    · have hsub : n - (f y).length - (a.flatMap f).length = n - ((y :: a).flatMap f).length := by
        rw [List.flatMap_cons, List.length_append]
        omega
      rw [hsub] at ht hlt
      exact Or.inr ⟨by rw [hw], ht, hlt⟩

end SystemLevel.Framing
