import Mathlib

namespace SystemLevel.Bisection

def lowerBound (before : ℕ → Bool) (first len : ℕ) : ℕ :=
  if len = 0 then first
  else if before (first + len / 2) then lowerBound before (first + len / 2 + 1) (len - len / 2 - 1)
  else lowerBound before first (len / 2)
termination_by len

theorem lowerBound_le (before : ℕ → Bool) (first len : ℕ) : lowerBound before first len ≤ first + len := by
  fun_induction lowerBound before first len with
  | case1 first => exact le_rfl
  | case2 first len hlen hbefore ih => omega
  | case3 first len hlen hbefore ih => omega

theorem lowerBound_spec (before : ℕ → Bool) (first len : ℕ)
    (mono : ∀ i j, i ≤ j → j < first + len → before j = true → before i = true) :
    first ≤ lowerBound before first len ∧ lowerBound before first len ≤ first + len ∧
      (∀ i, first ≤ i → i < lowerBound before first len → before i = true) ∧
      ∀ i, lowerBound before first len ≤ i → i < first + len → before i = false := by
  fun_induction lowerBound before first len with
  | case1 first => exact ⟨le_refl _, le_refl _, by omega, by omega⟩
  | case2 first len hlen hb ih =>
    obtain ⟨h1, h2, h3, h4⟩ := ih (fun i j hij hj => mono i j hij (by omega))
    refine ⟨by omega, by omega, ?_, fun i hi hl => h4 i hi (by omega)⟩
    intro i hi hl
    by_cases h : i ≤ first + len / 2
    · exact mono i _ h (by omega) hb
    · exact h3 i (by omega) hl
  | case3 first len hlen hb ih =>
    obtain ⟨h1, h2, h3, h4⟩ := ih (fun i j hij hj => mono i j hij (by omega))
    refine ⟨h1, by omega, h3, ?_⟩
    intro i hi hl
    by_cases h : i < first + len / 2
    · exact h4 i hi h
    · by_contra hc
      exact hb (mono _ i (by omega) hl (by simpa using hc))

def lowerBoundIn {α : Type} (before : α → Bool) (l : List α) : ℕ :=
  lowerBound (fun i => (l[i]?).any before) 0 l.length

theorem lowerBoundIn_spec {α : Type} (before : α → Bool) (l : List α)
    (mono : l.Pairwise (fun a b => before b = true → before a = true)) :
    lowerBoundIn before l ≤ l.length ∧
      ∀ i (hi : i < l.length), before l[i] = true ↔ i < lowerBoundIn before l := by
  have hmono : ∀ i j, i ≤ j → j < 0 + l.length → (l[j]?).any before = true →
      (l[i]?).any before = true := by
    intro i j hij hj h
    have hj' : j < l.length := by omega
    have hi' : i < l.length := by omega
    simp only [List.getElem?_eq_getElem hj', List.getElem?_eq_getElem hi', Option.any_some] at h ⊢
    rcases Nat.eq_or_lt_of_le hij with rfl | hlt
    · exact h
    · exact List.pairwise_iff_getElem.mp mono i j hi' hj' hlt h
  obtain ⟨-, hle, hbelow, habove⟩ := lowerBound_spec _ 0 l.length hmono
  refine ⟨by simpa [lowerBoundIn] using hle, fun i hi => ⟨fun h => ?_, fun h => ?_⟩⟩
  · by_contra hc
    have := habove i (by unfold lowerBoundIn at hc; omega) (by omega)
    simp [List.getElem?_eq_getElem hi, h] at this
  · have := hbelow i (by omega) h
    simpa [List.getElem?_eq_getElem hi] using this

theorem lowerBoundIn_append {α : Type} {before : α → Bool} {l₁ l₂ : List α} (h₁ : ∀ a ∈ l₁, before a = true)
    (h₂ : ∀ a ∈ l₂, before a = false) : lowerBoundIn before (l₁ ++ l₂) = l₁.length := by
  have mono : (l₁ ++ l₂).Pairwise (fun a b => before b = true → before a = true) := by
    rw [List.pairwise_append]
    refine ⟨?_, ?_, fun a ha b _ _ => h₁ a ha⟩
    · exact List.pairwise_of_forall_mem_list (fun a ha b _ _ => h₁ a ha)
    · exact List.pairwise_of_forall_mem_list (fun a _ b hb hbb => absurd hbb (by simp [h₂ b hb]))
  obtain ⟨hle, hspec⟩ := lowerBoundIn_spec before (l₁ ++ l₂) mono
  rw [List.length_append] at hle
  rcases Nat.lt_trichotomy (lowerBoundIn before (l₁ ++ l₂)) l₁.length with hlt | heq | hgt
  · have hin : lowerBoundIn before (l₁ ++ l₂) < (l₁ ++ l₂).length := by rw [List.length_append]; omega
    have hbefore : before (l₁ ++ l₂)[lowerBoundIn before (l₁ ++ l₂)] = true := by
      rw [List.getElem_append_left hlt]
      exact h₁ _ (List.getElem_mem hlt)
    exact absurd ((hspec _ hin).mp hbefore) (Nat.lt_irrefl _)
  · exact heq
  · have hin : l₁.length < (l₁ ++ l₂).length := by rw [List.length_append]; omega
    have hafter := (hspec _ hin).mpr hgt
    rw [List.getElem_append_right le_rfl, h₂ _ (List.getElem_mem _)] at hafter
    exact absurd hafter (by decide)

def bisect (hit : ℕ → Bool) (low high found : ℕ) : ℕ :=
  if low < high then
    if hit (low + (high - low) / 2) then bisect hit low (low + (high - low) / 2) (low + (high - low) / 2)
    else bisect hit (low + (high - low) / 2 + 1) high found
  else found
termination_by high - low

theorem bisect_spec (hit : ℕ → Bool) (n low high found : ℕ)
    (mono : ∀ i j, i ≤ j → j < n → hit i = true → hit j = true) (hle : low ≤ high) (hn : high ≤ n)
    (hfound : found = high) (hlow : ∀ i, i < low → hit i = false)
    (hhigh : ∀ i, high ≤ i → i < n → hit i = true) :
    bisect hit low high found ≤ n ∧ (∀ i, i < bisect hit low high found → hit i = false) ∧
      ∀ i, bisect hit low high found ≤ i → i < n → hit i = true := by
  fun_induction bisect hit low high found with
  | case1 low high found hlt hmid ih =>
    apply ih (by omega) (by omega) rfl hlow
    intro i hi hin
    exact mono _ i hi hin hmid
  | case2 low high found hlt hmid ih =>
    apply ih (by omega) hn hfound _ hhigh
    intro i hi
    by_contra hc
    exact hmid (mono i _ (by omega) (by omega) (by simpa using hc))
  | case3 low high found hlt =>
    subst hfound
    exact ⟨hn, fun i hi => hlow i (by omega), hhigh⟩

def bisectIn {α : Type} (hit : α → Bool) (l : List α) : ℕ :=
  bisect (fun i => (l[i]?).any hit) 0 l.length l.length

theorem bisectIn_append {α : Type} {hit : α → Bool} {l₁ l₂ : List α} (h₁ : ∀ a ∈ l₁, hit a = false)
    (h₂ : ∀ a ∈ l₂, hit a = true) : bisectIn hit (l₁ ++ l₂) = l₁.length := by
  have hlow {i : ℕ} (hi : i < l₁.length) : ((l₁ ++ l₂)[i]?).any hit = false := by
    rw [List.getElem?_append_left hi, List.getElem?_eq_getElem hi]
    exact h₁ _ (List.getElem_mem hi)
  have hhigh {i : ℕ} (hi : l₁.length ≤ i) (hlt : i < (l₁ ++ l₂).length) : ((l₁ ++ l₂)[i]?).any hit = true := by
    rw [List.length_append] at hlt
    rw [List.getElem?_append_right hi, List.getElem?_eq_getElem (by omega)]
    exact h₂ _ (List.getElem_mem _)
  obtain ⟨hle, hbelow, habove⟩ := bisect_spec (fun i => ((l₁ ++ l₂)[i]?).any hit) (l₁ ++ l₂).length 0
    (l₁ ++ l₂).length (l₁ ++ l₂).length
    (fun i j hij hj hi => by
      by_cases hi' : i < l₁.length
      · simp [hlow hi'] at hi
      · exact hhigh (by omega) hj)
    (Nat.zero_le _) le_rfl rfl (by omega) (by omega)
  change bisectIn hit (l₁ ++ l₂) ≤ _ at hle
  rcases Nat.lt_trichotomy (bisectIn hit (l₁ ++ l₂)) l₁.length with hlt | heq | hgt
  · have hin : bisectIn hit (l₁ ++ l₂) < (l₁ ++ l₂).length := by rw [List.length_append]; omega
    exact absurd ((hlow hlt).symm.trans (habove _ le_rfl hin)) (by decide)
  · exact heq
  · exact absurd ((hbelow _ hgt).symm.trans (hhigh le_rfl (by omega))) (by decide)

theorem exists_split {α : Type} (before : α → Bool) (l : List α)
    (mono : l.Pairwise (fun a b => before b = true → before a = true)) :
    ∃ l₁ l₂, l = l₁ ++ l₂ ∧ (∀ a ∈ l₁, before a = true) ∧ ∀ a ∈ l₂, before a = false := by
  induction l with
  | nil => exact ⟨[], [], rfl, by simp, by simp⟩
  | cons a l ih =>
    obtain ⟨ha, hl⟩ := List.pairwise_cons.mp mono
    cases hb : before a with
    | true =>
      obtain ⟨l₁, l₂, rfl, h₁, h₂⟩ := ih hl
      exact ⟨a :: l₁, l₂, rfl, List.forall_mem_cons.mpr ⟨hb, h₁⟩, h₂⟩
    | false =>
      refine ⟨[], a :: l, rfl, by simp, List.forall_mem_cons.mpr ⟨hb, fun b hmem => ?_⟩⟩
      cases hbb : before b with
      | false => rfl
      | true => rw [ha b hmem hbb] at hb; exact hb

section Checked

variable {ε : Type}

def lowerBoundM (before : ℕ → Except ε Bool) (first len : ℕ) : Except ε ℕ :=
  if len = 0 then .ok first
  else do
    if ← before (first + len / 2) then lowerBoundM before (first + len / 2 + 1) (len - len / 2 - 1)
    else lowerBoundM before first (len / 2)
termination_by len

theorem lowerBoundM_eq_ok {before : ℕ → Except ε Bool} {passes : ℕ → Bool} {first len : ℕ}
    (h : ∀ i, first ≤ i → i < first + len → before i = .ok (passes i)) :
    lowerBoundM before first len = .ok (lowerBound passes first len) := by
  fun_induction lowerBound passes first len with
  | case1 first => rw [lowerBoundM, if_pos rfl]
  | case2 first len hlen hpass ih =>
    have htest := h (first + len / 2) (by omega) (by omega)
    rw [hpass] at htest
    rw [lowerBoundM, if_neg hlen, htest]
    exact ih fun i hfirst hlast => h i (by omega) (by omega)
  | case3 first len hlen hpass ih =>
    have htest := h (first + len / 2) (by omega) (by omega)
    rw [Bool.eq_false_of_not_eq_true hpass] at htest
    rw [lowerBoundM, if_neg hlen, htest]
    exact ih fun i hfirst hlast => h i (by omega) (by omega)

def bisectM (hit : ℕ → Except ε Bool) (low high found : ℕ) : Except ε ℕ :=
  if low < high then do
    if ← hit (low + (high - low) / 2) then bisectM hit low (low + (high - low) / 2) (low + (high - low) / 2)
    else bisectM hit (low + (high - low) / 2 + 1) high found
  else .ok found
termination_by high - low

theorem bisectM_eq_ok {hit : ℕ → Except ε Bool} {passes : ℕ → Bool} {low high found : ℕ}
    (h : ∀ i, low ≤ i → i < high → hit i = .ok (passes i)) :
    bisectM hit low high found = .ok (bisect passes low high found) := by
  fun_induction bisect passes low high found with
  | case1 low high found hlt hpass ih =>
    have htest := h (low + (high - low) / 2) (by omega) (by omega)
    rw [hpass] at htest
    rw [bisectM, if_pos hlt, htest]
    exact ih fun i hlow hhigh => h i hlow (by omega)
  | case2 low high found hlt hpass ih =>
    have htest := h (low + (high - low) / 2) (by omega) (by omega)
    rw [Bool.eq_false_of_not_eq_true hpass] at htest
    rw [bisectM, if_pos hlt, htest]
    exact ih fun i hlow hhigh => h i (by omega) hhigh
  | case3 low high found hlt => rw [bisectM, if_neg hlt]

end Checked

end SystemLevel.Bisection
