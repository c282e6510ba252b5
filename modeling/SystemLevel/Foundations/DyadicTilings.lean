import Mathlib

namespace SystemLevel

@[ext] structure DyadicBlock where
  exponent : ℕ
  start : ℕ
  deriving DecidableEq, Repr

namespace DyadicBlock

variable {b c : DyadicBlock}

def size (b : DyadicBlock) : ℕ := 2 ^ b.exponent

def Contains (b : DyadicBlock) (x : ℕ) : Prop := b.start ≤ x ∧ x < b.start + b.size

instance (b : DyadicBlock) (x : ℕ) : Decidable (b.Contains x) := inferInstanceAs (Decidable (_ ∧ _))

def Aligned (b : DyadicBlock) : Prop := b.size ∣ b.start

def buddy (b : DyadicBlock) : DyadicBlock := { b with start := b.start ^^^ b.size }

def parent (b : DyadicBlock) : DyadicBlock := ⟨b.exponent + 1, min b.start b.buddy.start⟩

theorem size_pos (b : DyadicBlock) : 0 < b.size := Nat.two_pow_pos b.exponent

theorem contains_start (b : DyadicBlock) : b.Contains b.start := ⟨le_rfl, Nat.lt_add_of_pos_right b.size_pos⟩

theorem Aligned.contains_iff (h : b.Aligned) (x : ℕ) : b.Contains x ↔ x / b.size = b.start / b.size := by
  obtain ⟨k, hk⟩ := h
  rw [Contains, hk, Nat.mul_div_cancel_left k b.size_pos, Nat.div_eq_iff b.size_pos, Nat.mul_comm]
  have hpos := b.size_pos
  omega

theorem Aligned.buddy_start (h : b.Aligned) : b.buddy.start = ((b.start / b.size) ^^^ 1) * b.size := by
  obtain ⟨k, hk⟩ := h
  rw [buddy, hk, Nat.mul_div_cancel_left k b.size_pos, size, ← Nat.shiftLeft_eq, Nat.shiftLeft_xor_distrib,
    Nat.shiftLeft_eq, Nat.shiftLeft_eq, Nat.one_mul, Nat.mul_comm k]

theorem Aligned.buddy_cases (h : b.Aligned) :
    (2 * b.size ∣ b.start ∧ b.buddy.start = b.start + b.size) ∨
      (2 * b.size ∣ b.buddy.start ∧ b.start = b.buddy.start + b.size) := by
  have hbuddy := h.buddy_start
  have hstart : b.start = b.start / b.size * b.size := (Nat.div_mul_cancel h).symm
  rcases Nat.even_or_odd' (b.start / b.size) with ⟨k, hk | hk⟩
  · rw [hk, Nat.xor_one_of_even (even_two_mul k), Nat.add_mul, Nat.one_mul, ← hk, ← hstart] at hbuddy
    rw [hk] at hstart
    exact Or.inl ⟨⟨k, by rw [hstart]; ring⟩, hbuddy⟩
  · rw [hk, Nat.xor_one_of_odd (odd_two_mul_add_one k), Nat.add_sub_cancel] at hbuddy
    rw [hk] at hstart
    exact Or.inr ⟨⟨k, by rw [hbuddy]; ring⟩, by rw [hstart, hbuddy]; ring⟩

theorem buddy_size (b : DyadicBlock) : b.buddy.size = b.size := rfl

theorem parent_size (b : DyadicBlock) : b.parent.size = 2 * b.size := Nat.pow_succ'

theorem Aligned.buddy (h : b.Aligned) : b.buddy.Aligned := by
  rw [Aligned, buddy_size, h.buddy_start]
  exact Nat.dvd_mul_left _ _

theorem Aligned.parent (h : b.Aligned) : b.parent.Aligned := by
  rw [Aligned, parent_size]
  change _ ∣ min b.start b.buddy.start
  rcases h.buddy_cases with ⟨hdvd, hstart⟩ | ⟨hdvd, hstart⟩
  · rwa [min_eq_left (by omega)]
  · rwa [min_eq_right (by omega)]

theorem Aligned.parent_contains (h : b.Aligned) (x : ℕ) :
    (b.parent.Contains x ↔ b.Contains x ∨ b.buddy.Contains x) ∧ ¬ (b.Contains x ∧ b.buddy.Contains x) := by
  have hparent : b.parent.start = min b.start b.buddy.start := rfl
  rw [Contains, Contains, Contains, buddy_size, parent_size, hparent]
  rcases h.buddy_cases with ⟨-, hstart⟩ | ⟨-, hstart⟩ <;> omega

theorem Aligned.eq_of_contains (hb : b.Aligned) (hc : c.Aligned) (hexponent : b.exponent = c.exponent)
    (hstart : c.Contains b.start) : b = c := by
  have hsize : b.size = c.size := congrArg (2 ^ ·) hexponent
  rw [hc.contains_iff, ← hsize] at hstart
  apply DyadicBlock.ext hexponent
  rw [← Nat.div_mul_cancel hb, hstart]
  exact Nat.div_mul_cancel (hsize ▸ hc)

theorem Aligned.contains_of_buddy (hb : b.Aligned) (hc : c.Aligned) (hlt : b.exponent < c.exponent)
    (hbuddy : c.Contains b.buddy.start) : c.Contains b.start := by
  have hsize : c.size = 2 * b.size * 2 ^ (c.exponent - b.exponent - 1) := by
    rw [size, size, ← Nat.pow_succ', ← Nat.pow_add]
    congr 1
    omega
  have hhalf : b.size / (2 * b.size) = 0 := Nat.div_eq_of_lt (by have := b.size_pos; omega)
  have hdiv : b.start / (2 * b.size) = b.buddy.start / (2 * b.size) := by
    rcases hb.buddy_cases with ⟨hdvd, hstart⟩ | ⟨hdvd, hstart⟩
    · rw [hstart, Nat.add_div_of_dvd_right hdvd, hhalf, add_zero]
    · rw [hstart, Nat.add_div_of_dvd_right hdvd, hhalf, add_zero]
  rw [hc.contains_iff, hsize, ← Nat.div_div_eq_div_mul] at hbuddy ⊢
  rw [hdiv]
  exact hbuddy

theorem Aligned.contains_start_of_le (hb : b.Aligned) (hc : c.Aligned) (hle : b.exponent ≤ c.exponent) {x : ℕ}
    (hbx : b.Contains x) (hcx : c.Contains x) : c.Contains b.start := by
  have hsize : c.size = b.size * 2 ^ (c.exponent - b.exponent) := by
    rw [size, size, ← Nat.pow_add, Nat.add_sub_of_le hle]
  rw [hb.contains_iff] at hbx
  rw [hc.contains_iff, hsize, ← Nat.div_div_eq_div_mul] at hcx ⊢
  rw [← hbx]
  exact hcx

theorem buddy_buddy (b : DyadicBlock) : b.buddy.buddy = b :=
  DyadicBlock.ext rfl (Nat.xor_xor_cancel_right b.start b.size)

end DyadicBlock

open DyadicBlock

structure Tiles (P : Multiset DyadicBlock) (n : ℕ) : Prop where
  aligned : ∀ b ∈ P, b.Aligned
  covers : ∀ x, P.countP (·.Contains x) = if x < n then 1 else 0

namespace Tiles

variable {P : Multiset DyadicBlock} {b c : DyadicBlock} {n : ℕ}

theorem whole (e : ℕ) : Tiles {⟨e, 0⟩} (2 ^ e) where
  aligned b hb := by
    rw [Multiset.mem_singleton.mp hb]
    exact Nat.dvd_zero _
  covers x := by
    rw [← Multiset.cons_zero, Multiset.countP_cons, Multiset.countP_zero]
    simp [Contains, size]

theorem buddies_iff (haligned : b.Aligned) : Tiles (b ::ₘ b.buddy ::ₘ P) n ↔ Tiles (b.parent ::ₘ P) n := by
  have hcovers : ∀ x, (b ::ₘ b.buddy ::ₘ P).countP (·.Contains x) = (b.parent ::ₘ P).countP (·.Contains x) := by
    intro x
    obtain ⟨hor, hnot⟩ := haligned.parent_contains x
    rw [Multiset.countP_cons, Multiset.countP_cons, Multiset.countP_cons]
    by_cases hb : b.Contains x
    · rw [if_pos hb, if_pos (hor.mpr (Or.inl hb)), if_neg fun hbuddy => hnot ⟨hb, hbuddy⟩]
    · by_cases hbuddy : b.buddy.Contains x
      · rw [if_neg hb, if_pos hbuddy, if_pos (hor.mpr (Or.inr hbuddy))]
      · rw [if_neg hb, if_neg hbuddy, if_neg fun hparent => (hor.mp hparent).elim hb hbuddy]
  constructor
  · rintro ⟨hall, hcount⟩
    refine ⟨fun c hc => ?_, fun x => (hcovers x).symm.trans (hcount x)⟩
    rcases Multiset.mem_cons.mp hc with rfl | hc
    · exact haligned.parent
    · exact hall c (Multiset.mem_cons_of_mem (Multiset.mem_cons_of_mem hc))
  · rintro ⟨hall, hcount⟩
    refine ⟨fun c hc => ?_, fun x => (hcovers x).trans (hcount x)⟩
    rcases Multiset.mem_cons.mp hc with rfl | hc
    · exact haligned
    · rcases Multiset.mem_cons.mp hc with rfl | hc
      · exact haligned.buddy
      · exact hall c (Multiset.mem_cons_of_mem hc)

theorem merge (h : Tiles (b ::ₘ b.buddy ::ₘ P) n) : Tiles (b.parent ::ₘ P) n :=
  (buddies_iff (h.aligned b (Multiset.mem_cons_self _ _))).mp h

theorem split {e s : ℕ} (h : Tiles (⟨e + 1, s⟩ ::ₘ P) n) : Tiles (⟨e, s⟩ ::ₘ ⟨e, s + 2 ^ e⟩ ::ₘ P) n := by
  have hs : 2 ^ (e + 1) ∣ s := h.aligned _ (Multiset.mem_cons_self _ _)
  have haligned : (DyadicBlock.mk e s).Aligned := (Nat.pow_dvd_pow 2 (Nat.le_succ e)).trans hs
  have hbuddy : (DyadicBlock.mk e s).buddy = ⟨e, s + 2 ^ e⟩ := by
    rw [DyadicBlock.ext_iff]
    refine ⟨rfl, ?_⟩
    rcases haligned.buddy_cases with ⟨-, hstart⟩ | ⟨hdvd, hstart⟩
    · exact hstart
    · obtain ⟨j, hj⟩ := hdvd
      obtain ⟨k, hk⟩ := hs
      change s = (DyadicBlock.mk e s).buddy.start + 2 ^ e at hstart
      rw [hj, hk, Nat.pow_succ, DyadicBlock.size] at hstart
      have heq : 2 ^ e * (2 * k) = 2 ^ e * (2 * j + 1) := by linarith
      have hodd := Nat.eq_of_mul_eq_mul_left (Nat.two_pow_pos e) heq
      omega
  have hparent : (DyadicBlock.mk e s).parent = ⟨e + 1, s⟩ := by
    rw [DyadicBlock.ext_iff]
    refine ⟨rfl, ?_⟩
    change min s (DyadicBlock.mk e s).buddy.start = s
    rw [hbuddy]
    exact min_eq_left (Nat.le_add_right _ _)
  rw [← hbuddy, buddies_iff haligned, hparent]
  exact h

theorem lt_of_contains (h : Tiles P n) (hb : b ∈ P) {x : ℕ} (hx : b.Contains x) : x < n := by
  have hpos : 0 < P.countP (·.Contains x) := Multiset.countP_pos.mpr ⟨b, hb, hx⟩
  rw [h.covers] at hpos
  by_contra hge
  rw [if_neg hge] at hpos
  exact lt_irrefl 0 hpos

theorem exists_contains (h : Tiles P n) {x : ℕ} (hx : x < n) : ∃ b ∈ P, b.Contains x := by
  apply Multiset.countP_pos.mp
  rw [h.covers, if_pos hx]
  exact Nat.one_pos

theorem not_both (h : Tiles (b ::ₘ c ::ₘ P) n) (x : ℕ) : ¬ (b.Contains x ∧ c.Contains x) := by
  rintro ⟨hb, hc⟩
  have hcount := h.covers x
  rw [Multiset.countP_cons, Multiset.countP_cons, if_pos hb, if_pos hc] at hcount
  split_ifs at hcount
  omega

theorem eq_of_contains (h : Tiles P n) (hb : b ∈ P) (hc : c ∈ P) {x : ℕ} (hbx : b.Contains x) (hcx : c.Contains x) :
    b = c := by
  by_contra hne
  obtain ⟨Q, rfl⟩ := Multiset.exists_cons_of_mem hb
  rcases Multiset.mem_cons.mp hc with rfl | hc
  · exact hne rfl
  · obtain ⟨Q, rfl⟩ := Multiset.exists_cons_of_mem hc
    exact h.not_both x ⟨hbx, hcx⟩

theorem nodup (h : Tiles P n) : P.Nodup := by
  rw [Multiset.nodup_iff_le]
  intro b hle
  obtain ⟨Q, rfl⟩ := Multiset.le_iff_exists_add.mp hle
  rw [Multiset.cons_add, Multiset.cons_add, zero_add] at h
  exact h.not_both b.start ⟨b.contains_start, b.contains_start⟩

theorem sum_contains {P : Multiset DyadicBlock} {n : ℕ} (hinside : ∀ b ∈ P, b.start + b.size ≤ n) :
    ∑ x ∈ Finset.range n, P.countP (·.Contains x) = (P.map DyadicBlock.size).sum := by
  induction P using Multiset.induction_on with
  | empty => simp
  | cons b P ih =>
    have hb := hinside b (Multiset.mem_cons_self b P)
    have hfilter : (Finset.range n).filter b.Contains = Finset.Ico b.start (b.start + b.size) := by
      ext x
      rw [Finset.mem_filter, Finset.mem_range, Finset.mem_Ico, Contains]
      omega
    simp only [Multiset.countP_cons, Finset.sum_add_distrib, Multiset.map_cons, Multiset.sum_cons]
    rw [ih fun c hc => hinside c (Multiset.mem_cons_of_mem hc), Finset.sum_boole, hfilter, Nat.card_Ico,
      Nat.add_sub_cancel_left, Nat.cast_id, add_comm]

theorem inside (h : Tiles P n) (hb : b ∈ P) : b.start + b.size ≤ n := by
  have hpos := b.size_pos
  have hlast : b.Contains (b.start + (b.size - 1)) := ⟨Nat.le_add_right _ _, by omega⟩
  have hlt := h.lt_of_contains hb hlast
  omega

theorem sum_size (h : Tiles P n) : (P.map DyadicBlock.size).sum = n := by
  rw [← sum_contains fun b hb => h.inside hb]
  have hone : ∀ x ∈ Finset.range n, P.countP (·.Contains x) = 1 := by
    intro x hx
    rw [h.covers, if_pos (Finset.mem_range.mp hx)]
  rw [Finset.sum_congr rfl hone, Finset.sum_const, Finset.card_range, smul_eq_mul, Nat.mul_one]

theorem card_le (h : Tiles P n) : P.card ≤ n := by
  have hle := Multiset.card_nsmul_le_sum (s := P.map DyadicBlock.size) (a := 1) fun x hx => by
    obtain ⟨b, -, rfl⟩ := Multiset.mem_map.mp hx
    exact b.size_pos
  rwa [Multiset.card_map, smul_eq_mul, Nat.mul_one, h.sum_size] at hle

theorem exists_covering (h : Tiles P n) {r : DyadicBlock} (hr : r.Aligned) (hinside : r.start + r.size ≤ n)
    (hbuddy : ∀ b ∈ P, b.exponent < r.exponent → r.Contains b.start → r.Contains b.buddy.start → b.buddy ∉ P) :
    ∃ b ∈ P, r.exponent ≤ b.exponent ∧ b.Contains r.start := by
  by_contra hnone
  push Not at hnone
  have hnested : ∀ c ∈ P, ∀ x, c.Contains x → r.Contains x → c.exponent < r.exponent ∧ r.Contains c.start := by
    intro c hc x hcx hrx
    have hlt : c.exponent < r.exponent := by
      by_contra hge
      exact hnone c hc (not_lt.mp hge) (hr.contains_start_of_le (h.aligned c hc) (not_lt.mp hge) hrx hcx)
    exact ⟨hlt, (h.aligned c hc).contains_start_of_le hr hlt.le hcx hrx⟩
  have hbelow : ∀ x, r.Contains x → x < n := fun x hx => hx.2.trans_le hinside
  have hne : P.filter (r.Contains ·.start) ≠ 0 := by
    obtain ⟨c, hc, hcr⟩ := h.exists_contains (hbelow r.start r.contains_start)
    intro hzero
    have hmem : c ∈ P.filter (r.Contains ·.start) :=
      Multiset.mem_filter.mpr ⟨hc, (hnested c hc r.start hcr r.contains_start).2⟩
    rw [hzero] at hmem
    exact Multiset.notMem_zero c hmem
  obtain ⟨b, hb, hmin⟩ := Multiset.exists_min_image DyadicBlock.exponent hne
  obtain ⟨hb, hrb⟩ := Multiset.mem_filter.mp hb
  have hlt := (hnested b hb b.start b.contains_start hrb).1
  have haligned := h.aligned b hb
  have hrbuddy : r.Contains b.buddy.start := haligned.buddy.contains_of_buddy hr hlt (b.buddy_buddy.symm ▸ hrb)
  obtain ⟨c, hc, hstart⟩ := h.exists_contains (hbelow _ hrbuddy)
  have hrc := (hnested c hc _ hstart hrbuddy).2
  rcases (hmin c (Multiset.mem_filter.mpr ⟨hc, hrc⟩)).eq_or_lt with heq | hless
  · have hsame : b.buddy = c := haligned.buddy.eq_of_contains (h.aligned c hc) heq hstart
    exact hbuddy b hb hlt hrb hrbuddy (hsame ▸ hc)
  · have hboth := haligned.contains_of_buddy (h.aligned c hc) hless hstart
    have he := h.eq_of_contains hb hc b.contains_start hboth
    rw [he] at hless
    exact lt_irrefl _ hless

variable {e : ℕ}

theorem eq_whole (h : Tiles P (2 ^ e)) (hle : ∀ b ∈ P, b.exponent ≤ e)
    (hbuddy : ∀ b ∈ P, b.exponent < e → b.buddy ∉ P) : P = {⟨e, 0⟩} := by
  obtain ⟨b, hb, hlarge, hzero⟩ := h.exists_covering (r := ⟨e, 0⟩) (Nat.dvd_zero _) (Nat.zero_add _).le
    fun b hb hlt _ _ => hbuddy b hb hlt
  have hwhole : b = ⟨e, 0⟩ := DyadicBlock.ext ((hle b hb).antisymm hlarge) (Nat.le_zero.mp hzero.1)
  have hall : ∀ c ∈ P, c = b := by
    intro c hc
    have hlt := h.lt_of_contains hc c.contains_start
    apply h.eq_of_contains hc hb c.contains_start
    rw [hwhole, Contains, size, Nat.zero_add]
    exact ⟨Nat.zero_le _, hlt⟩
  obtain ⟨Q, rfl⟩ := Multiset.exists_cons_of_mem hb
  have hrest : Q = 0 := by
    apply Multiset.eq_zero_of_forall_notMem
    intro c hc
    have hsame := hall c (Multiset.mem_cons_of_mem hc)
    exact (Multiset.nodup_cons.mp h.nodup).1 (hsame ▸ hc)
  rw [hrest, hwhole, Multiset.cons_zero]

end Tiles

end SystemLevel
