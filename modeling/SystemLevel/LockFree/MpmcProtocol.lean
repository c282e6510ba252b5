import SystemLevel.Foundations.BitSmearing
import SystemLevel.Foundations.Wraparound
import SystemLevel.LockFree.MpmcQueue

namespace SystemLevel.LockFree

open Runs Wraparound BitSmearing

def ThreadPoint.fills {T : Type} : ThreadPoint T → Option UInt64
  | .writing _ pos | .publishing pos => some pos
  | _ => none

def ThreadPoint.empties {T : Type} : ThreadPoint T → Option UInt64
  | .reading pos | .releasing pos _ => some pos
  | _ => none

namespace MpmcQueue

variable {P T : Type} {q q' : MpmcQueue P T} {c t u : ℕ}

theorem smeared_eq (v : UInt64) :
    let v₁ := v ||| v >>> 1
    let v₂ := v₁ ||| v₁ >>> 2
    let v₃ := v₂ ||| v₂ >>> 4
    let v₄ := v₃ ||| v₃ >>> 8
    let v₅ := v₄ ||| v₄ >>> 16
    Smears 6 v.toNat (v₅ ||| v₅ >>> 32).toNat := by
  simp only [UInt64.toNat_or, UInt64.toNat_shiftRight]
  exact (((((smears_zero v.toNat).step).step).step).step).step.step

theorem exponent_bounds {n : ℕ} (hn : n ≤ 2 ^ 63) : 1 ≤ Nat.clog 2 (max n 2) ∧ Nat.clog 2 (max n 2) < 64 := by
  constructor
  · exact Nat.clog_pos (by decide) (lt_max_of_lt_right (by decide))
  · apply Nat.lt_succ_of_le
    exact Nat.clog_le_of_le_pow (max_le hn (by decide))

theorem toNat_roundUpPow2 {v : UInt64} (hv : v.toNat ≤ 2 ^ 63) :
    (roundUpPow2 v).toNat = 2 ^ Nat.clog 2 (max v.toNat 2) := by
  have hexponent := (exponent_bounds hv).2
  have hlt : 2 ^ Nat.clog 2 (max v.toNat 2) < 2 ^ 64 := Nat.pow_lt_pow_right (by decide) hexponent
  rw [roundUpPow2]
  by_cases hsmall : v < 2
  · have hle : v.toNat ≤ 2 := UInt64.le_iff_toNat_le.mp (UInt64.le_of_lt hsmall)
    rw [if_pos hsmall, max_eq_right hle, Nat.clog_eq_one le_rfl le_rfl]
    rfl
  · rw [if_neg hsmall]
    have htwo : 2 ≤ v.toNat := UInt64.le_iff_toNat_le.mp (UInt64.not_lt.mp hsmall)
    rw [max_eq_left htwo] at hlt ⊢
    have hpred : (v - 1).toNat = v.toNat - 1 :=
      UInt64.toNat_sub_of_le _ _ (UInt64.le_iff_toNat_le.mpr (Nat.one_le_of_lt htwo))
    have hsmeared := smeared_eq (v - 1)
    rw [hpred] at hsmeared
    rw [UInt64.toNat_add]
    exact (congrArg (· % 2 ^ 64) (hsmeared.succ_eq htwo (v.toNat_lt.le))).trans (Nat.mod_eq_of_lt hlt)

theorem roundUpPow2_eq {capacity : UInt64} (h : capacity ≤ UInt64.ofNat (2 ^ 63)) :
    ∃ c, 1 ≤ c ∧ c < 64 ∧ roundUpPow2 capacity = UInt64.ofNat (2 ^ c) := by
  rw [UInt64.le_iff_toNat_le, toNat_two_pow (by decide)] at h
  obtain ⟨hpos, hlt⟩ := exponent_bounds h
  refine ⟨_, hpos, hlt, ?_⟩
  rw [← UInt64.toNat_inj, toNat_roundUpPow2 h, toNat_two_pow hlt]

theorem slot_construct {v : UInt64} (hv : v.toNat ≤ 2 ^ 63) (blank : T) (memory : ℕ → Cell T) (pos : UInt64) :
    (construct v blank memory : MpmcQueue P T).slot pos = pos.toNat % (roundUpPow2 v).toNat := by
  have hlt := (exponent_bounds hv).2
  have hvalue := toNat_roundUpPow2 hv
  have heq : roundUpPow2 v = UInt64.ofNat (2 ^ Nat.clog 2 (max v.toNat 2)) := by
    rw [← UInt64.toNat_inj, hvalue, toNat_two_pow hlt]
  have hmask := toNat_and_mask hlt pos.toNat
  rw [← heq, UInt64.ofNat_toNat, ← hvalue] at hmask
  exact hmask

theorem capacity_least_power_of_two {v : UInt64} (hv : v.toNat ≤ 2 ^ 63) :
    IsLeast {n : ℕ | (∃ c, n = 2 ^ c) ∧ max v.toNat 2 ≤ n} (roundUpPow2 v).toNat ∧
      ∀ (blank : T) (memory : ℕ → Cell T) (pos : UInt64), let q : MpmcQueue P T := construct v blank memory
        (pos &&& q.mask).toNat = pos.toNat % q.capacity.toNat ∧ q.slot pos < q.capacity.toNat := by
  have hvalue := toNat_roundUpPow2 hv
  refine ⟨⟨⟨⟨_, hvalue⟩, ?_⟩, ?_⟩, ?_⟩
  · rw [hvalue]
    exact Nat.le_pow_clog (by decide) _
  · rintro n ⟨⟨c, rfl⟩, hle⟩
    rw [hvalue]
    apply Nat.pow_le_pow_right (by decide)
    exact Nat.clog_le_of_le_pow hle
  · intro blank memory pos q
    have hslot : q.slot pos = pos.toNat % q.capacity.toNat := slot_construct hv blank memory pos
    refine ⟨hslot, ?_⟩
    rw [hslot]
    apply Nat.mod_lt
    change 0 < (roundUpPow2 v).toNat
    rw [hvalue]
    exact Nat.two_pow_pos _

theorem capacity_of_five :
    (5 : UInt64).toNat ≤ 2 ^ 63 ∧ IsLeast {n : ℕ | (∃ c, n = 2 ^ c) ∧ max 5 2 ≤ n} (roundUpPow2 5).toNat ∧
      ∀ pos : UInt64, (construct 5 0 fun _ => ⟨0, 0⟩ : MpmcQueue Bool UInt8).slot pos < (roundUpPow2 5).toNat :=
  have h := capacity_least_power_of_two (P := Bool) (T := UInt8) (v := 5) (by decide)
  ⟨by decide, h.1, fun pos => (h.2 0 (fun _ => ⟨0, 0⟩) pos).2⟩

def Open (q : MpmcQueue P T) (c t : ℕ) : Prop := (q.cells (t % 2 ^ c)).sequence = UInt64.ofNat t

def Full (q : MpmcQueue P T) (c t : ℕ) : Prop := (q.cells (t % 2 ^ c)).sequence = UInt64.ofNat (t + 1)

theorem succ_mod_ne (hc : 1 ≤ c) (t : ℕ) : (t + 1) % 2 ^ c ≠ t % 2 ^ c := by
  intro heq
  have hdvd : 2 ^ c ∣ t + 1 - t := (Nat.modEq_iff_dvd' (Nat.le_succ t)).mp heq.symm
  rw [Nat.add_sub_cancel_left] at hdvd
  have hle := Nat.le_of_dvd Nat.one_pos hdvd
  have htwo : 2 ^ 1 ≤ 2 ^ c := Nat.pow_le_pow_right (by decide) hc
  omega

theorem Open.eq (ht : q.Open c t) (hu : q.Open c u) (hcell : t % 2 ^ c = u % 2 ^ c) (htlt : t < 2 ^ 64)
    (hult : u < 2 ^ 64) : t = u := by
  rw [Open, hcell] at ht
  exact (ofNat_inj htlt hult).mp (ht.symm.trans hu)

theorem Full.eq (ht : q.Full c t) (hu : q.Full c u) (hcell : t % 2 ^ c = u % 2 ^ c) (htlt : t + 1 < 2 ^ 64)
    (hult : u + 1 < 2 ^ 64) : t = u := by
  rw [Full, hcell] at ht
  exact Nat.succ_injective ((ofNat_inj htlt hult).mp (ht.symm.trans hu))

theorem Open.not_full (ht : q.Open c t) (hu : q.Full c u) (hcell : t % 2 ^ c = u % 2 ^ c) (hc : 1 ≤ c)
    (htlt : t < 2 ^ 64) (hult : u + 1 < 2 ^ 64) : False := by
  rw [Open, hcell] at ht
  have heq := (ofNat_inj htlt hult).mp (ht.symm.trans hu)
  rw [heq] at hcell
  exact succ_mod_ne hc u hcell

def Ready (q : MpmcQueue P T) (c : ℕ) : ThreadPoint T → Prop
  | .loading _ pos => ∃ t ≤ q.claims.length, pos = UInt64.ofNat t
  | .claiming _ pos => ∃ t ≤ q.claims.length, pos = UInt64.ofNat t ∧ (t < q.claims.length ∨ q.Open c t)
  | .writing value pos => ∃ t < q.claims.length, pos = UInt64.ofNat t ∧ q.Open c t ∧ q.claims[t]? = some (pos, value)
  | .publishing pos => ∃ t < q.claims.length, pos = UInt64.ofNat t ∧ q.Open c t ∧
    q.claims[t]? = some (pos, (q.cells (t % 2 ^ c)).data)
  | .popLoading pos => ∃ t ≤ q.takes.length, pos = UInt64.ofNat t
  | .popClaiming pos => ∃ t ≤ q.takes.length, pos = UInt64.ofNat t ∧ (t < q.takes.length ∨ q.Full c t)
  | .reading pos => ∃ t < q.takes.length, pos = UInt64.ofNat t ∧ q.Full c t
  | .releasing pos out => ∃ t < q.takes.length, pos = UInt64.ofNat t ∧ q.Full c t ∧ q.claims[t]? = some (pos, out)
  | .idle _ | .reloading _ | .popReloading => True

theorem Ready.fills {point : ThreadPoint T} {pos : UInt64} (h : q.Ready c point) (hfills : point.fills = some pos) :
    ∃ t < q.claims.length, pos = UInt64.ofNat t ∧ q.Open c t := by
  cases point with
  | writing value pos' =>
    obtain ⟨t, hlt, hpos, hopen, -⟩ := h
    exact ⟨t, hlt, (Option.some.inj hfills).symm.trans hpos, hopen⟩
  | publishing pos' =>
    obtain ⟨t, hlt, hpos, hopen, -⟩ := h
    exact ⟨t, hlt, (Option.some.inj hfills).symm.trans hpos, hopen⟩
  | _ => cases hfills

theorem Ready.empties {point : ThreadPoint T} {pos : UInt64} (h : q.Ready c point)
    (hempties : point.empties = some pos) :
    ∃ t < q.takes.length, pos = UInt64.ofNat t ∧ q.Full c t := by
  cases point with
  | reading pos' =>
    obtain ⟨t, hlt, hpos, hfull⟩ := h
    exact ⟨t, hlt, (Option.some.inj hempties).symm.trans hpos, hfull⟩
  | releasing pos' out =>
    obtain ⟨t, hlt, hpos, hfull, -⟩ := h
    exact ⟨t, hlt, (Option.some.inj hempties).symm.trans hpos, hfull⟩
  | _ => cases hempties

theorem getElem?_of_prefix {α : Type} {l l' : List α} (h : l <+: l') {i : ℕ} {x : α} (hx : l[i]? = some x) :
    l'[i]? = some x := by
  obtain ⟨tail, rfl⟩ := h
  rw [List.getElem?_append_left (List.getElem?_eq_some_iff.mp hx).1]
  exact hx

theorem Ready.transfer {point : ThreadPoint T} (h : q.Ready c point) (hclaims : q.claims <+: q'.claims)
    (htakes : q.takes.length ≤ q'.takes.length)
    (hopen : ∀ t ≤ q.claims.length, q.Open c t →
      (q'.Open c t ∧ (q'.cells (t % 2 ^ c)).data = (q.cells (t % 2 ^ c)).data) ∨
        (t < q'.claims.length ∧ point.fills ≠ some (UInt64.ofNat t)))
    (hfull : ∀ t ≤ q.takes.length, q.Full c t →
      q'.Full c t ∨ (t < q'.takes.length ∧ point.empties ≠ some (UInt64.ofNat t))) : q'.Ready c point := by
  have hlength := hclaims.length_le
  cases point with
  | loading value pos =>
    obtain ⟨t, hle, hpos⟩ := h
    exact ⟨t, hle.trans hlength, hpos⟩
  | claiming value pos =>
    obtain ⟨t, hle, hpos, hlt | ht⟩ := h
    · exact ⟨t, hle.trans hlength, hpos, Or.inl (hlt.trans_le hlength)⟩
    · rcases hopen t hle ht with ⟨ht, -⟩ | ⟨hlt, -⟩
      · exact ⟨t, hle.trans hlength, hpos, Or.inr ht⟩
      · exact ⟨t, hle.trans hlength, hpos, Or.inl hlt⟩
  | writing value pos =>
    obtain ⟨t, hlt, hpos, ht, hvalue⟩ := h
    rcases hopen t hlt.le ht with ⟨ht, -⟩ | ⟨-, hne⟩
    · exact ⟨t, hlt.trans_le hlength, hpos, ht, getElem?_of_prefix hclaims hvalue⟩
    · exact absurd (congrArg some hpos) hne
  | publishing pos =>
    obtain ⟨t, hlt, hpos, ht, hvalue⟩ := h
    rcases hopen t hlt.le ht with ⟨ht, hdata⟩ | ⟨-, hne⟩
    · exact ⟨t, hlt.trans_le hlength, hpos, ht, hdata ▸ getElem?_of_prefix hclaims hvalue⟩
    · exact absurd (congrArg some hpos) hne
  | popLoading pos =>
    obtain ⟨t, hle, hpos⟩ := h
    exact ⟨t, hle.trans htakes, hpos⟩
  | popClaiming pos =>
    obtain ⟨t, hle, hpos, hlt | ht⟩ := h
    · exact ⟨t, hle.trans htakes, hpos, Or.inl (hlt.trans_le htakes)⟩
    · rcases hfull t hle ht with ht | ⟨hlt, -⟩
      · exact ⟨t, hle.trans htakes, hpos, Or.inr ht⟩
      · exact ⟨t, hle.trans htakes, hpos, Or.inl hlt⟩
  | reading pos =>
    obtain ⟨t, hlt, hpos, ht⟩ := h
    rcases hfull t hlt.le ht with ht | ⟨-, hne⟩
    · exact ⟨t, hlt.trans_le htakes, hpos, ht⟩
    · exact absurd (congrArg some hpos) hne
  | releasing pos out =>
    obtain ⟨t, hlt, hpos, ht, hvalue⟩ := h
    rcases hfull t hlt.le ht with ht | ⟨-, hne⟩
    · exact ⟨t, hlt.trans_le htakes, hpos, ht, getElem?_of_prefix hclaims hvalue⟩
    · exact absurd (congrArg some hpos) hne
  | _ => trivial

def Phase (q : MpmcQueue P T) (c i : ℕ) : Prop :=
  ∃ t, t % 2 ^ c = i ∧ q.claims.length ≤ t + 2 ^ c ∧ t < q.takes.length + 2 ^ c ∧
    ((q.Open c t ∧ q.takes.length ≤ t) ∨
      (q.Full c t ∧ t < q.claims.length ∧ q.claims[t]? = some (UInt64.ofNat t, (q.cells i).data) ∧
        UInt64.ofNat t ∈ q.published))

structure Protocol (q : MpmcQueue P T) (c : ℕ) : Prop where
  exponent_pos : 1 ≤ c
  exponent_lt : c < 64
  mask_eq : q.mask = UInt64.ofNat (2 ^ c) - 1
  few : q.claims.length < 2 ^ 63
  ordered : q.takes.length ≤ q.claims.length
  enqueuePos_eq : q.enqueuePos = UInt64.ofNat q.claims.length
  dequeuePos_eq : q.dequeuePos = UInt64.ofNat q.takes.length
  claims_eq : q.claims.map Prod.fst = (List.range q.claims.length).map UInt64.ofNat
  takes_eq : q.takes = (List.range q.takes.length).map UInt64.ofNat
  cells : ∀ i < 2 ^ c, q.Phase c i
  ready : ∀ p, q.Ready c (q.points p)
  filled_once : ∀ p p' pos, (q.points p).fills = some pos → (q.points p').fills = some pos → p = p'
  emptied_once : ∀ p p' pos, (q.points p).empties = some pos → (q.points p').empties = some pos → p = p'
  returned : ∀ r ∈ q.returned, r ∈ q.claims

namespace Protocol

variable (h : q.Protocol c)

include h

theorem slot_ofNat (t : ℕ) : q.slot (UInt64.ofNat t) = t % 2 ^ c := by
  rw [slot, h.mask_eq]
  exact toNat_and_mask h.exponent_lt t

theorem setCell_cells (t : ℕ) (cell : Cell T) (i : ℕ) :
    (q.setCell (UInt64.ofNat t) cell).cells i = if i = t % 2 ^ c then cell else q.cells i := by
  change Function.update q.cells (q.slot (UInt64.ofNat t)) cell i = _
  rw [h.slot_ofNat, Function.update_apply]

theorem ticket_lt (ht : t ≤ q.claims.length) : t + 1 < 2 ^ 64 := by
  have hfew := h.few
  omega

theorem phase_lt (ht : t < q.takes.length + 2 ^ c) : t + 1 < 2 ^ 64 := by
  have hfew := h.few
  have hordered := h.ordered
  have hpow : 2 ^ c ≤ 2 ^ 63 := Nat.pow_le_pow_right (by decide) (Nat.le_of_lt_succ h.exponent_lt)
  omega

theorem phase_open (ht : t ≤ q.claims.length) (hopen : q.Open c t) :
    q.claims.length ≤ t + 2 ^ c ∧ t < q.takes.length + 2 ^ c ∧ q.takes.length ≤ t := by
  obtain ⟨u, hcell, hclaims, htakes, hphase⟩ := h.cells (t % 2 ^ c) (Nat.mod_lt _ (Nat.two_pow_pos c))
  have hu := h.phase_lt htakes
  have hlt := h.ticket_lt ht
  rcases hphase with ⟨huopen, hle⟩ | ⟨hfull, -⟩
  · obtain rfl := hopen.eq huopen hcell.symm (by omega) (by omega)
    exact ⟨hclaims, htakes, hle⟩
  · exact (hopen.not_full hfull hcell.symm h.exponent_pos (by omega) hu).elim

theorem phase_full (ht : t ≤ q.claims.length) (hfull : q.Full c t) :
    q.claims.length ≤ t + 2 ^ c ∧ t < q.claims.length ∧
      q.claims[t]? = some (UInt64.ofNat t, (q.cells (t % 2 ^ c)).data) ∧ UInt64.ofNat t ∈ q.published := by
  obtain ⟨u, hcell, hclaims, htakes, hphase⟩ := h.cells (t % 2 ^ c) (Nat.mod_lt _ (Nat.two_pow_pos c))
  have hu := h.phase_lt htakes
  have hlt := h.ticket_lt ht
  rcases hphase with ⟨huopen, -⟩ | ⟨hufull, huclaims, hvalue, hpublished⟩
  · exact (huopen.not_full hfull hcell h.exponent_pos (by omega) hlt).elim
  · obtain rfl := hfull.eq hufull hcell.symm hlt hu
    exact ⟨hclaims, huclaims, hvalue, hpublished⟩

end Protocol

end MpmcQueue

end SystemLevel.LockFree
