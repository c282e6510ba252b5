import Mathlib

/-!
A queue of members that take turns: the first one takes a turn and goes to the end, unless it was its last one.
-/

namespace SystemLevel.Rotation

def numbered : List ℕ → List ℕ → List (ℕ × ℕ)
  | _, [] => []
  | past, f :: turns => (past.count f, f) :: numbered (past ++ [f]) turns

theorem numbered_snoc (past turns : List ℕ) (f : ℕ) :
    numbered past (turns ++ [f]) = numbered past turns ++ [((past ++ turns).count f, f)] := by
  induction turns generalizing past with
  | nil => simp [numbered]
  | cons g turns ih => simp [numbered, ih]

theorem mem_numbered {turns : List ℕ} {k f : ℕ} : (k, f) ∈ numbered [] turns ↔ k < turns.count f := by
  induction turns using List.reverseRecOn with
  | nil => simp [numbered]
  | append_singleton turns g ih =>
    rw [numbered_snoc, List.mem_append, ih, List.mem_singleton, List.nil_append, List.count_append,
      List.count_singleton]
    by_cases hg : g = f
    · subst hg
      simp only [Prod.mk.injEq, and_true, beq_self_eq_true, if_true]
      omega
    · simp [hg, Ne.symm hg]

def Earlier (p q : ℕ × ℕ) : Prop := p.1 < q.1 ∨ p.1 = q.1 ∧ p.2 < q.2

theorem Earlier.trans {p q r : ℕ × ℕ} (hpq : Earlier p q) (hqr : Earlier q r) : Earlier p r := by
  unfold Earlier at *
  omega

/-- The members that have turns left are in the queue, in the order of their next turns, and the queue spans less than
a round. -/
structure Rotates (n : ℕ) (turns : ℕ → ℕ) (past queue : List ℕ) : Prop where
  waiting : ∀ f, f ∈ queue ↔ f < n ∧ past.count f < turns f
  others : ∀ f, f < n ∨ past.count f = 0
  ordered : queue.Pairwise fun f g => Earlier (past.count f, f) (past.count g, g)
  span : ∀ f ∈ queue, ∀ g ∈ queue, Earlier (past.count g, g) (past.count f + 1, f)
  bounded : ∀ f < n, past.count f ≤ turns f
  sorted : (numbered [] past).Pairwise Earlier
  before : ∀ p ∈ numbered [] past, ∀ f ∈ queue, Earlier p (past.count f, f)

def requeue (turns : ℕ → ℕ) (past : List ℕ) (f : ℕ) (queue : List ℕ) : List ℕ :=
  if past.count f + 1 < turns f then queue ++ [f] else queue

namespace Rotates

variable {n : ℕ} {turns : ℕ → ℕ} {past queue : List ℕ} {f : ℕ}

theorem start (hturns : ∀ f < n, 0 < turns f) : Rotates n turns [] (List.range n) where
  waiting f := by
    rw [List.mem_range, List.count_nil]
    exact ⟨fun hf => ⟨hf, hturns f hf⟩, fun h => h.1⟩
  others f := Or.inr List.count_nil
  ordered := List.pairwise_lt_range.imp fun hlt => Or.inr ⟨rfl, hlt⟩
  span f _ g _ := Or.inl Nat.zero_lt_one
  bounded f _ := Nat.zero_le _
  sorted := List.Pairwise.nil
  before := List.forall_mem_nil _

theorem count_turn (past : List ℕ) (f g : ℕ) :
    (past ++ [f]).count g = if g = f then past.count f + 1 else past.count g := by
  rw [List.count_append, List.count_singleton]
  by_cases hg : g = f
  · subst hg
    simp
  · simp [hg, Ne.symm hg]

theorem mem_requeue (g : ℕ) :
    g ∈ requeue turns past f queue ↔ g ∈ queue ∨ g = f ∧ past.count f + 1 < turns f := by
  unfold requeue
  split_ifs with hmore
  · simp [hmore]
  · simp [hmore]

section Turn

variable (h : Rotates n turns past (f :: queue))

include h

theorem first : f < n ∧ past.count f < turns f := (h.waiting f).mp List.mem_cons_self

theorem after {g : ℕ} (hg : g ∈ queue) : Earlier (past.count f, f) (past.count g, g) :=
  (List.pairwise_cons.mp h.ordered).1 g hg

theorem ne_of_mem {g : ℕ} (hg : g ∈ queue) : g ≠ f := by
  rintro rfl
  have hlater := h.after hg
  unfold Earlier at hlater
  omega

theorem count_of_mem {g : ℕ} (hg : g ∈ queue) : (past ++ [f]).count g = past.count g := by
  rw [count_turn, if_neg (h.ne_of_mem hg)]

theorem waiting_turn (g : ℕ) :
    g ∈ requeue turns past f queue ↔ g < n ∧ (past ++ [f]).count g < turns g := by
  rw [mem_requeue, count_turn]
  by_cases hg : g = f
  · subst hg
    have habsent : g ∉ queue := fun hmem => h.ne_of_mem hmem rfl
    simp [habsent, h.first.1]
  · have hwaiting := h.waiting g
    rw [List.mem_cons] at hwaiting
    simp [hg] at hwaiting ⊢
    exact hwaiting

theorem around {g : ℕ} (hg : g ∈ requeue turns past f queue) :
    Earlier (past.count f, f) ((past ++ [f]).count g, g) := by
  rcases (mem_requeue g).mp hg with hg | ⟨rfl, -⟩
  · rw [h.count_of_mem hg]
    exact h.after hg
  · rw [count_turn, if_pos rfl]
    exact Or.inl (Nat.lt_succ_self _)

theorem ordered_turn :
    (requeue turns past f queue).Pairwise fun g g' =>
      Earlier ((past ++ [f]).count g, g) ((past ++ [f]).count g', g') := by
  have hqueue : queue.Pairwise fun g g' =>
      Earlier ((past ++ [f]).count g, g) ((past ++ [f]).count g', g') := by
    refine (List.pairwise_cons.mp h.ordered).2.imp_of_mem ?_
    intro g g' hg hg' hearlier
    rw [h.count_of_mem hg, h.count_of_mem hg']
    exact hearlier
  unfold requeue
  split_ifs
  · refine List.pairwise_append.mpr ⟨hqueue, List.pairwise_singleton _ _, ?_⟩
    intro g hg g' hg'
    obtain rfl := List.mem_singleton.mp hg'
    rw [h.count_of_mem hg, count_turn, if_pos rfl]
    exact h.span _ List.mem_cons_self _ (List.mem_cons_of_mem _ hg)
  · exact hqueue

theorem span_turn {g g' : ℕ} (hg : g ∈ requeue turns past f queue) (hg' : g' ∈ requeue turns past f queue) :
    Earlier ((past ++ [f]).count g', g') ((past ++ [f]).count g + 1, g) := by
  rcases (mem_requeue g).mp hg with hq | ⟨rfl, -⟩ <;> rcases (mem_requeue g').mp hg' with hq' | ⟨rfl, -⟩
  · rw [h.count_of_mem hq, h.count_of_mem hq']
    exact h.span _ (List.mem_cons_of_mem _ hq) _ (List.mem_cons_of_mem _ hq')
  · have hafter := h.after hq
    rw [h.count_of_mem hq, count_turn, if_pos rfl]
    unfold Earlier at *
    omega
  · have hspan := h.span _ List.mem_cons_self _ (List.mem_cons_of_mem _ hq')
    rw [h.count_of_mem hq', count_turn, if_pos rfl]
    unfold Earlier at *
    omega
  · exact Or.inl (Nat.lt_succ_self _)

theorem turn : Rotates n turns (past ++ [f]) (requeue turns past f queue) where
  waiting := h.waiting_turn
  others g := by
    rw [count_turn]
    by_cases hg : g = f
    · exact Or.inl (hg ▸ h.first.1)
    · rw [if_neg hg]
      exact h.others g
  ordered := h.ordered_turn
  span g hg g' hg' := h.span_turn hg hg'
  bounded g hg := by
    rw [count_turn]
    split_ifs with hgf
    · rw [hgf]
      exact h.first.2
    · exact h.bounded g hg
  sorted := by
    rw [numbered_snoc]
    refine List.pairwise_append.mpr ⟨h.sorted, List.pairwise_singleton _ _, ?_⟩
    intro p hp q hq
    obtain rfl := List.mem_singleton.mp hq
    exact h.before p hp f List.mem_cons_self
  before := by
    rw [numbered_snoc]
    intro p hp g hg
    rcases List.mem_append.mp hp with hp | hp
    · exact (h.before p hp f List.mem_cons_self).trans (h.around hg)
    · obtain rfl := List.mem_singleton.mp hp
      exact h.around hg

theorem remaining_lt :
    ∑ g ∈ Finset.range n, (turns g - (past ++ [f]).count g) < ∑ g ∈ Finset.range n, (turns g - past.count g) := by
  obtain ⟨hf, hleft⟩ := h.first
  apply Finset.sum_lt_sum
  · intro g _
    rw [count_turn]
    split_ifs with hg
    · rw [hg]
      omega
    · exact le_rfl
  · refine ⟨f, Finset.mem_range.mpr hf, ?_⟩
    rw [count_turn, if_pos rfl]
    omega

end Turn

theorem finishes {motive : List ℕ → List ℕ → Prop}
    (turn : ∀ past f queue, Rotates n turns past (f :: queue) → motive past (f :: queue) →
      motive (past ++ [f]) (requeue turns past f queue))
    (h : Rotates n turns past queue) (hstart : motive past queue) :
    ∃ past, Rotates n turns past [] ∧ motive past [] := by
  induction hleft : ∑ g ∈ Finset.range n, (turns g - past.count g) using Nat.strong_induction_on
    generalizing past queue with
  | _ left ih =>
    cases queue with
    | nil => exact ⟨past, h, hstart⟩
    | cons f queue => exact ih _ (hleft ▸ h.remaining_lt) h.turn (turn past f queue h hstart) rfl

theorem count_eq (h : Rotates n turns past []) {f : ℕ} (hf : f < n) : past.count f = turns f := by
  apply le_antisymm (h.bounded f hf)
  by_contra hleft
  exact absurd ((h.waiting f).mpr ⟨hf, not_le.mp hleft⟩) List.not_mem_nil

theorem mem_numbered_iff (h : Rotates n turns past []) (k f : ℕ) :
    (k, f) ∈ numbered [] past ↔ f < n ∧ k < turns f := by
  rw [mem_numbered]
  constructor
  · intro hk
    have hf := (h.others f).resolve_right (Nat.ne_of_gt (Nat.zero_lt_of_lt hk))
    exact ⟨hf, hk.trans_le (h.bounded f hf)⟩
  · rintro ⟨hf, hk⟩
    rwa [h.count_eq hf]

end Rotates

end SystemLevel.Rotation
