import Mathlib

/-!
Linked towers. Every element of a list has a height, and below that height, at each level, a link to
the next element of the list that is high enough to have that level.
-/

namespace SystemLevel.Towers

variable {α : Type}

section

variable (forward : α → ℕ → Option α) (before : α → Bool)

def advance (i : ℕ) : ℕ → α → α
  | 0, a => a
  | fuel + 1, a =>
    match forward a i with
    | none => a
    | some b => if before b then advance i fuel b else a

/-- Advance on level `level - 1`, then on the level below, and so on. The result is the element
reached on level 0 and the list of the elements reached, by level. -/
def descend (fuel : ℕ) : ℕ → α → α × List α
  | 0, a => (a, [])
  | i + 1, a =>
    let b := advance forward before i fuel a
    let below := descend fuel i b
    (below.1, below.2 ++ [b])

def chain : ℕ → Option α → List α
  | 0, _ => []
  | _, none => []
  | fuel + 1, some a => a :: chain fuel (forward a 0)

end

variable (forward : α → ℕ → Option α) (height : α → ℕ)

def next (i : ℕ) (l : List α) : Option α := l.find? (fun b => i < height b)

def Linked (l : List α) : Prop :=
  ∀ pre a post, l = pre ++ a :: post → ∀ i, i < height a → forward a i = next height i post

def LastAt (i : ℕ) (l : List α) (c : α) : Prop :=
  ∃ p q, l = p ++ c :: q ∧ i < height c ∧ ∀ x ∈ q, height x ≤ i

variable {forward height}

theorem next_append_of_low {i : ℕ} {low l : List α} (h : ∀ x ∈ low, height x ≤ i) :
    next height i (low ++ l) = next height i l := by
  have hnone : low.find? (fun b => decide (i < height b)) = none := by
    rw [List.find?_eq_none]
    intro x hx
    simp [h x hx]
  rw [next, List.find?_append, hnone, Option.none_or]
  rfl

theorem Linked.forward_last {xs ys : List α} (h : Linked forward height (xs ++ ys)) {i : ℕ} {c : α}
    (hc : LastAt height i xs c) : forward c i = next height i ys := by
  obtain ⟨p, q, rfl, hi, hq⟩ := hc
  rw [h p c (q ++ ys) (by simp) i hi, next_append_of_low hq]

theorem LastAt.unique {i : ℕ} {l : List α} {c d : α} (hc : LastAt height i l c) (hd : LastAt height i l d) :
    c = d := by
  obtain ⟨p, q, rfl, hci, hq⟩ := hc
  obtain ⟨p', q', hl, hdi, hq'⟩ := hd
  rcases List.append_eq_append_iff.mp hl with ⟨r, rfl, hr⟩ | ⟨r, rfl, hr⟩
  · cases r with
    | nil => exact (List.cons.inj hr).1
    | cons x r =>
      have hmem : d ∈ q := by rw [(List.cons.inj hr).2]; simp
      exact absurd hdi (not_lt.mpr (hq d hmem))
  · cases r with
    | nil => exact (List.cons.inj hr).1.symm
    | cons x r =>
      have hmem : c ∈ q' := by rw [(List.cons.inj hr).2]; simp
      exact absurd hci (not_lt.mpr (hq' c hmem))

theorem LastAt.low {i : ℕ} {p q : List α} {c : α} (h : LastAt height i (p ++ c :: q) c)
    (hnodup : (p ++ c :: q).Nodup) : ∀ x ∈ q, height x ≤ i := by
  obtain ⟨p', q', hl, -, hq⟩ := h
  have hne := List.nodup_append.mp hnodup
  rcases List.append_eq_append_iff.mp hl with ⟨r, rfl, hr⟩ | ⟨r, rfl, hr⟩
  · cases r with
    | nil => exact (List.cons.inj hr).2 ▸ hq
    | cons x r =>
      have hmem : c ∈ q := by rw [(List.cons.inj hr).2]; simp
      exact absurd hmem (List.nodup_cons.mp hne.2.1).1
  · cases r with
    | nil => exact (List.cons.inj hr).2 ▸ hq
    | cons x r =>
      obtain ⟨rfl, -⟩ := List.cons.inj hr
      exact absurd rfl (hne.2.2 c (by simp) c (by simp))

theorem mem_tail_of_split {l p q : List α} {a x : α} (h : l = p ++ a :: q) (hx : x ∈ q) : x ∈ l.tail := by
  subst h
  cases p with
  | nil => exact hx
  | cons b p => simp [hx]

section

variable {before : α → Bool} {xs ys : List α} (hlinked : Linked forward height (xs ++ ys))
  (hxs : ∀ x ∈ xs.tail, before x = true) (hys : ∀ y ∈ ys, before y = false)

include hlinked hxs hys

theorem advance_last {i fuel : ℕ} {a : α} {p q : List α} (hsplit : xs = p ++ a :: q) (hi : i < height a)
    (hfuel : q.length ≤ fuel) : LastAt height i xs (advance forward before i fuel a) := by
  induction fuel generalizing a p q with
  | zero =>
    have hnil : q = [] := List.length_eq_zero_iff.mp (by omega)
    subst hnil
    exact ⟨p, [], hsplit, hi, by simp⟩
  | succ fuel ih =>
    have hforward : forward a i = next height i (q ++ ys) := hlinked p a (q ++ ys) (by simp [hsplit]) i hi
    rw [advance, hforward]
    cases hfind : q.find? (fun b => decide (i < height b)) with
    | none =>
      have hlow : ∀ x ∈ q, height x ≤ i := by simpa using List.find?_eq_none.mp hfind
      have hstop : LastAt height i xs a := ⟨p, q, hsplit, hi, hlow⟩
      rw [next_append_of_low hlow]
      cases hnext : next height i ys with
      | none => exact hstop
      | some b =>
        have hb : before b = false := hys b (List.mem_of_find?_eq_some hnext)
        simpa [hb] using hstop
    | some b =>
      obtain ⟨hib, q₁, q₂, rfl, -⟩ := List.find?_eq_some_iff_append.mp hfind
      have hnext : next height i (q₁ ++ b :: q₂ ++ ys) = some b := by
        rw [next, List.find?_append, hfind, Option.some_or]
      have hb : before b = true := hxs b (mem_tail_of_split hsplit (by simp))
      simp only [hnext, hb, if_true]
      simp only [List.length_append, List.length_cons] at hfuel
      exact ih (p := p ++ a :: q₁) (q := q₂) (by simp [hsplit]) (by simpa using hib) (by omega)

theorem descend_last {level fuel : ℕ} {a : α} (ha : a ∈ xs) (hlevel : level ≤ height a)
    (hfuel : xs.length ≤ fuel) :
    (descend forward before fuel level a).2.length = level ∧
      (∀ i c, (descend forward before fuel level a).2[i]? = some c → LastAt height i xs c) ∧
      (0 < level → LastAt height 0 xs (descend forward before fuel level a).1) := by
  induction level generalizing a with
  | zero => simp [descend]
  | succ i ih =>
    obtain ⟨p, q, hsplit⟩ := List.append_of_mem ha
    have hlen : q.length ≤ fuel := by
      rw [hsplit, List.length_append, List.length_cons] at hfuel
      omega
    have hreach := advance_last hlinked hxs hys hsplit hlevel hlen
    obtain ⟨p', q', hsplit', hi, -⟩ := id hreach
    obtain ⟨hcount, hlast, hcurr⟩ := ih (show _ ∈ xs by rw [hsplit']; simp) (Nat.le_of_lt hi)
    refine ⟨by simp [descend, hcount], ?_, fun _ => ?_⟩
    · intro j c hj
      simp only [descend] at hj
      rcases Nat.lt_or_ge j i with hlt | hge
      · rw [List.getElem?_append_left (by omega)] at hj
        exact hlast j c hj
      · rw [List.getElem?_append_right (by omega), List.getElem?_singleton] at hj
        split_ifs at hj with hzero
        cases hj
        have hji : j = i := by omega
        exact hji ▸ hreach
    · cases i with
      | zero => exact hreach
      | succ i => exact hcurr (by omega)

end

theorem chain_eq {l pre post : List α} (hlinked : Linked forward height l) (hl : ∀ a ∈ l, 0 < height a) {a : α}
    (hsplit : l = pre ++ a :: post) {fuel : ℕ} (hfuel : post.length ≤ fuel) :
    chain forward fuel (forward a 0) = post := by
  induction fuel generalizing pre a post with
  | zero =>
    rw [List.length_eq_zero_iff.mp (show post.length = 0 by omega)]
    rfl
  | succ fuel ih =>
    rw [hlinked pre a post hsplit 0 (hl a (by simp [hsplit]))]
    cases post with
    | nil => rfl
    | cons b post =>
      have hb : next height 0 (b :: post) = some b := by
        simp [next, hl b (by simp [hsplit])]
      have hrest := ih (show l = (pre ++ [a]) ++ b :: post by simp [hsplit]) (by simpa using hfuel)
      rw [hb, chain, hrest]

def Traverses (forward : α → ℕ → Option α) (i : ℕ) : Option α → List α → Prop
  | start, [] => start = none
  | start, a :: l => start = some a ∧ Traverses forward i (forward a i) l

theorem Linked.traverses_next {l pre post : List α} (hlinked : Linked forward height l) (hsplit : l = pre ++ post)
    (i : ℕ) : Traverses forward i (next height i post) (post.filter fun a => i < height a) := by
  induction post generalizing pre with
  | nil => rfl
  | cons b post ih =>
    have hrest := ih (show l = (pre ++ [b]) ++ post by simp [hsplit])
    by_cases hb : i < height b
    · have hforward := hlinked pre b post hsplit i hb
      rw [List.filter_cons_of_pos (by simpa using hb), next, List.find?_cons_of_pos (by simpa using hb)]
      refine ⟨rfl, ?_⟩
      rwa [hforward]
    · rw [List.filter_cons_of_neg (by simpa using hb), next, List.find?_cons_of_neg (by simpa using hb)]
      exact hrest

theorem Linked.traverses {a : α} {l : List α} (hlinked : Linked forward height (a :: l)) {i : ℕ} (hi : i < height a) :
    Traverses forward i (forward a i) (l.filter fun b => i < height b) := by
  rw [hlinked [] a l rfl i hi]
  exact hlinked.traverses_next (List.singleton_append).symm i

theorem next_congr {height' : α → ℕ} {l : List α} (h : ∀ a ∈ l, height' a = height a) (i : ℕ) :
    next height' i l = next height i l := by
  apply List.find?_congr
  intro a ha
  rw [h a ha]

theorem next_append {i : ℕ} {l l' : List α} {b : α} (h : next height i l = some b) :
    next height i (l ++ l') = some b := by
  unfold next at h ⊢
  rw [List.find?_append, h, Option.some_or]

theorem Linked.splice {xs ys : List α} (h : Linked forward height (xs ++ ys)) (hnodup : (xs ++ ys).Nodup) {n : α}
    {forward' : α → ℕ → Option α} {height' : α → ℕ} (hheight : ∀ a ∈ xs ++ ys, height' a = height a)
    (hnew : ∀ i, i < height' n → forward' n i = next height i ys)
    (hlast : ∀ i c, i < height' n → LastAt height i xs c → forward' c i = some n)
    (hkeep : ∀ a ∈ xs ++ ys, ∀ i, ¬ (i < height' n ∧ LastAt height i xs a) → forward' a i = forward a i) :
    Linked forward' height' (xs ++ n :: ys) := by
  intro pre a post hsplit i hi
  have hys : next height' i ys = next height i ys := next_congr (fun b hb => hheight b (by simp [hb])) i
  rcases List.append_eq_append_iff.mp hsplit with ⟨r, rfl, hr⟩ | ⟨r, rfl, hr⟩
  · cases r with
    | nil =>
      obtain ⟨rfl, rfl⟩ := List.cons.inj hr
      rw [hnew i hi, hys]
    | cons x r =>
      -- `a` comes after the new element: nothing has changed from here on
      obtain ⟨rfl, rfl⟩ := List.cons.inj hr
      have ha : a ∉ xs := by
        intro hax
        exact (List.nodup_append.mp hnodup).2.2 a hax a (by simp) rfl
      have hnot : ¬ LastAt height i xs a := by
        rintro ⟨p, q, rfl, -⟩
        simp at ha
      rw [hheight a (by simp)] at hi
      rw [hkeep a (by simp) i (fun hc => hnot hc.2), h (xs ++ r) a post (by simp) i hi]
      exact (next_congr (fun b hb => hheight b (by simp [hb])) i).symm
  · cases r with
    | nil =>
      obtain ⟨rfl, rfl⟩ := List.cons.inj hr
      simp only [List.append_nil] at *
      rw [hnew i hi, hys]
    | cons x r =>
      rw [List.cons_append, List.cons.injEq] at hr
      obtain ⟨rfl, rfl⟩ := hr
      have hsame : next height' i r = next height i r := next_congr (fun b hb => hheight b (by simp [hb])) i
      rw [hheight a (by simp)] at hi
      have hold : forward a i = next height i (r ++ ys) := h pre a (r ++ ys) (by simp) i hi
      cases hfind : next height i r with
      | some b =>
        -- a higher element stands between `a` and the new one
        have hnot : ¬ LastAt height i (pre ++ a :: r) a := by
          intro hat
          have hlow := hat.low (List.nodup_append.mp hnodup).1 b (List.mem_of_find?_eq_some hfind)
          have hhigh : i < height b := by simpa using List.find?_some hfind
          omega
        rw [hkeep a (by simp) i (fun hc => hnot hc.2), hold, next_append hfind, next_append (hsame.trans hfind)]
      | none =>
        have hlow : ∀ x ∈ r, height x ≤ i := by simpa using List.find?_eq_none.mp hfind
        have hlow' : ∀ x ∈ r, height' x ≤ i := fun x hx => (hheight x (by simp [hx])).trans_le (hlow x hx)
        have hat : LastAt height i (pre ++ a :: r) a := ⟨pre, r, rfl, hi, hlow⟩
        rw [next_append_of_low hlow']
        by_cases hni : i < height' n
        · rw [hlast i a hni hat, next, List.find?_cons_of_pos (by simpa using hni)]
        · have hskip : next height' i (n :: ys) = next height' i ys := List.find?_cons_of_neg (by simpa using hni)
          rw [hkeep a (by simp) i (fun hc => hni hc.1), hold, next_append_of_low hlow, hskip, hys]

end SystemLevel.Towers
