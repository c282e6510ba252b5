import SystemLevel.LockFree.MpmcFifo

namespace SystemLevel.LockFree

open Runs Wraparound

theorem ThreadPoint.fills_of_empties {T : Type} {point : ThreadPoint T} {pos : UInt64} (h : point.empties = some pos) :
    point.fills = none := by
  cases point with
  | reading pos => rfl
  | releasing pos out => rfl
  | _ => cases h

theorem ThreadPoint.empties_of_fills {T : Type} {point : ThreadPoint T} {pos : UInt64} (h : point.fills = some pos) :
    point.empties = none := by
  cases point with
  | writing value pos => rfl
  | publishing pos => rfl
  | _ => cases h

namespace MpmcQueue

variable {P T : Type} {q q' : MpmcQueue P T} {c t : ℕ} {p : P}

structure Held (q : MpmcQueue P T) (c : ℕ) : Prop where
  producer : ∀ t < q.claims.length, q.Open c t → ∃ p, (q.points p).fills = some (UInt64.ofNat t)
  consumer : ∀ t < q.takes.length, q.Full c t → ∃ p, (q.points p).empties = some (UInt64.ofNat t)

theorem Held.move [DecidableEq P] (h : q.Held c) {point : ThreadPoint T}
    (hpoints : q'.points = Function.update q.points p point)
    (hopen : ∀ t < q'.claims.length, q'.Open c t → point.fills = some (UInt64.ofNat t) ∨
      (t < q.claims.length ∧ q.Open c t ∧ (q.points p).fills ≠ some (UInt64.ofNat t)))
    (hfull : ∀ t < q'.takes.length, q'.Full c t → point.empties = some (UInt64.ofNat t) ∨
      (t < q.takes.length ∧ q.Full c t ∧ (q.points p).empties ≠ some (UInt64.ofNat t))) : q'.Held c := by
  have hself : q'.points p = point := by rw [hpoints, Function.update_self]
  have hother {p' : P} (hne : p' ≠ p) : q'.points p' = q.points p' := by rw [hpoints, Function.update_of_ne hne]
  constructor
  · intro t ht hq'
    rcases hopen t ht hq' with hp | ⟨ht, hq, hp⟩
    · exact ⟨p, hself ▸ hp⟩
    · obtain ⟨p', hp'⟩ := h.producer t ht hq
      have hne : p' ≠ p := by
        rintro rfl
        exact hp hp'
      exact ⟨p', hother hne ▸ hp'⟩
  · intro t ht hq'
    rcases hfull t ht hq' with hp | ⟨ht, hq, hp⟩
    · exact ⟨p, hself ▸ hp⟩
    · obtain ⟨p', hp'⟩ := h.consumer t ht hq
      have hne : p' ≠ p := by
        rintro rfl
        exact hp hp'
      exact ⟨p', hother hne ▸ hp'⟩

namespace Held

variable [DecidableEq P]

theorem goTo (h : q.Held c) {point : ThreadPoint T}
    (hfills : ∀ pos, (q.points p).fills = some pos → point.fills = some pos)
    (hempties : ∀ pos, (q.points p).empties = some pos → point.empties = some pos) : (q.goTo p point).Held c := by
  refine h.move rfl (fun t ht hopen => ?_) fun t ht hfull => ?_
  · by_cases hp : (q.points p).fills = some (UInt64.ofNat t)
    · exact Or.inl (hfills _ hp)
    · exact Or.inr ⟨ht, hopen, hp⟩
  · by_cases hp : (q.points p).empties = some (UInt64.ofNat t)
    · exact Or.inl (hempties _ hp)
    · exact Or.inr ⟨ht, hfull, hp⟩

theorem goTo_unclaimed (h : q.Held c) (hfills : (q.points p).fills = none) (hempties : (q.points p).empties = none)
    (point : ThreadPoint T) : (q.goTo p point).Held c := by
  refine h.goTo (fun pos hpos => ?_) fun pos hpos => ?_
  · exact absurd (hpos.symm.trans hfills) (Option.some_ne_none pos)
  · exact absurd (hpos.symm.trans hempties) (Option.some_ne_none pos)

theorem claim (h : q.Held c) (hq : q.Protocol c) {value : T} {pos : UInt64}
    (hpoint : q.points p = .claiming value pos) (hpos : q.enqueuePos = pos) :
    Held { q.goTo p (.writing value pos) with enqueuePos := pos + 1, claims := q.claims ++ [(pos, value)] } c := by
  refine h.move (p := p) rfl (fun t ht hopen => ?_) fun t ht hfull => Or.inr ⟨ht, hfull, ?_⟩
  · have hlt : t < q.claims.length + 1 := ht.trans_eq List.length_append
    rcases Nat.lt_succ_iff_lt_or_eq.mp hlt with hlt | rfl
    · refine Or.inr ⟨hlt, hopen, ?_⟩
      rw [hpoint]
      exact (Option.some_ne_none _).symm
    · left
      rw [← hq.enqueuePos_eq, hpos]
      rfl
  · rw [hpoint]
    exact (Option.some_ne_none _).symm

theorem take (h : q.Held c) (hq : q.Protocol c) {pos : UInt64} (hpoint : q.points p = .popClaiming pos)
    (hpos : q.dequeuePos = pos) :
    Held { q.goTo p (.reading pos) with dequeuePos := pos + 1, takes := q.takes ++ [pos] } c := by
  refine h.move (p := p) rfl (fun t ht hopen => Or.inr ⟨ht, hopen, ?_⟩) fun t ht hfull => ?_
  · rw [hpoint]
    exact (Option.some_ne_none _).symm
  · have hlt : t < q.takes.length + 1 := ht.trans_eq List.length_append
    rcases Nat.lt_succ_iff_lt_or_eq.mp hlt with hlt | rfl
    · refine Or.inr ⟨hlt, hfull, ?_⟩
      rw [hpoint]
      exact (Option.some_ne_none _).symm
    · left
      rw [← hq.dequeuePos_eq, hpos]
      rfl

theorem write (h : q.Held c) {value : T} {pos : UInt64} (hpoint : q.points p = .writing value pos) :
    ((q.setCell pos { q.cells (q.slot pos) with data := value }).goTo p (.publishing pos)).Held c := by
  have hsequence (i : ℕ) : ((q.setCell pos { q.cells (q.slot pos) with data := value }).cells i).sequence =
      (q.cells i).sequence := by
    change (Function.update q.cells (q.slot pos) _ i).sequence = _
    rw [Function.update_apply]
    split_ifs with hi
    · rw [hi]
    · rfl
  refine h.move (p := p) rfl (fun t ht hopen => ?_) fun t ht hfull => Or.inr ⟨ht, ?_, ?_⟩
  · by_cases hp : (q.points p).fills = some (UInt64.ofNat t)
    · rw [hpoint] at hp
      exact Or.inl hp
    · exact Or.inr ⟨ht, (hsequence _).symm.trans hopen, hp⟩
  · exact (hsequence _).symm.trans hfull
  · rw [hpoint]
    exact (Option.some_ne_none _).symm

theorem refill (h : q.Held c) (hq : q.Protocol c) {cell : Cell T} {point : ThreadPoint T}
    (hr : Refilled q q' c p t cell point)
    (hopen : ∀ u < q.claims.length, u % 2 ^ c = t % 2 ^ c → cell.sequence ≠ UInt64.ofNat u)
    (hfull : ∀ u < q.takes.length, u % 2 ^ c = t % 2 ^ c → cell.sequence ≠ UInt64.ofNat (u + 1)) : q'.Held c := by
  have hcell {u : ℕ} (hu : u % 2 ^ c = t % 2 ^ c) : q'.cells (u % 2 ^ c) = cell := by rw [hr.cells_eq, if_pos hu]
  refine h.move hr.points_eq (fun u hu huopen => ?_) fun u hu hufull => ?_
  · rw [hr.claims_eq] at hu
    have hne : u % 2 ^ c ≠ t % 2 ^ c := by
      intro heq
      rw [Open, hcell heq] at huopen
      exact hopen u hu heq huopen
    rw [Open, hr.cells_ne hne] at huopen
    refine Or.inr ⟨hu, huopen, fun hfills => hne ?_⟩
    have hult := hq.ticket_lt hu.le
    rcases hr.held with ⟨hp, ht, -⟩ | ⟨hp, -, -⟩
    · have htlt := hq.ticket_lt ht.le
      rw [(ofNat_inj (by omega) (by omega)).mp (Option.some.inj (hfills.symm.trans hp))]
    · rw [ThreadPoint.fills_of_empties hp] at hfills
      cases hfills
  · rw [hr.takes_eq] at hu
    have hne : u % 2 ^ c ≠ t % 2 ^ c := by
      intro heq
      rw [Full, hcell heq] at hufull
      exact hfull u hu heq hufull
    rw [Full, hr.cells_ne hne] at hufull
    refine Or.inr ⟨hu, hufull, fun hempties => hne ?_⟩
    have hult := hq.ticket_lt (hu.le.trans hq.ordered)
    rcases hr.held with ⟨hp, -, -⟩ | ⟨hp, ht, -⟩
    · rw [ThreadPoint.empties_of_fills hp] at hempties
      cases hempties
    · have htlt := hq.ticket_lt (ht.le.trans hq.ordered)
      rw [(ofNat_inj (by omega) (by omega)).mp (Option.some.inj (hempties.symm.trans hp))]

theorem publish (h : q.Held c) (hq : q.Protocol c) {pos : UInt64} (hpoint : q.points p = .publishing pos) :
    Held { (q.setCell pos { q.cells (q.slot pos) with sequence := pos + 1 }).goTo p (.idle (some true)) with
      published := q.published ++ [pos] } c := by
  have hready := hq.ready p
  rw [hpoint] at hready
  obtain ⟨t, hlt, rfl, hopen, -⟩ := hready
  obtain ⟨-, -, hle⟩ := hq.phase_open hlt.le hopen
  have htlt := hq.ticket_lt hlt.le
  have hfills : (q.points p).fills = some (UInt64.ofNat t) := congrArg ThreadPoint.fills hpoint
  refine h.refill hq (hq.refilled (Or.inl ⟨hfills, hlt, hopen⟩) _ _ (List.subset_append_left _ _) hq.returned)
    (fun u hu hcell hseq => ?_) fun u hu hcell hseq => ?_
  · have hult := hq.ticket_lt hu.le
    have heq := (ofNat_inj htlt (by omega)).mp ((UInt64.ofNat_add t 1).trans hseq)
    rw [← heq] at hcell
    exact succ_mod_ne hq.exponent_pos t hcell
  · have hult := hq.ticket_lt (hu.le.trans hq.ordered)
    have heq := (ofNat_inj htlt hult).mp ((UInt64.ofNat_add t 1).trans hseq)
    omega

theorem release (h : q.Held c) (hq : q.Protocol c) {pos : UInt64} {out : T} (hpoint : q.points p = .releasing pos out) :
    Held
      { (q.setCell pos { q.cells (q.slot pos) with sequence := pos + q.mask + 1 }).goTo p (.idle (some true)) with
        returned := q.returned ++ [(pos, out)] } c := by
  have hreturned := (hq.release hpoint).returned
  have hready := hq.ready p
  rw [hpoint] at hready
  obtain ⟨t, hlt, rfl, hfull, -⟩ := hready
  obtain ⟨hle, -⟩ := hq.phase_full (hlt.le.trans hq.ordered) hfull
  have htlt := hq.phase_lt (show t + 2 ^ c < q.takes.length + 2 ^ c by omega)
  have hnext : UInt64.ofNat t + q.mask + 1 = UInt64.ofNat (t + 2 ^ c) := by
    rw [hq.mask_eq, UInt64.add_assoc, UInt64.sub_add_cancel, UInt64.ofNat_add]
  have hempties : (q.points p).empties = some (UInt64.ofNat t) := congrArg ThreadPoint.empties hpoint
  refine h.refill hq (hq.refilled (Or.inr ⟨hempties, hlt, hfull⟩) _ _ (List.Subset.refl _) hreturned)
    (fun u hu hcell hseq => ?_) fun u hu hcell hseq => ?_
  · have hult := hq.ticket_lt hu.le
    have heq := (ofNat_inj (by omega) (by omega)).mp (hnext.symm.trans hseq)
    omega
  · have hult := hq.ticket_lt (hu.le.trans hq.ordered)
    have heq := (ofNat_inj (by omega) hult).mp (hnext.symm.trans hseq)
    apply succ_mod_ne hq.exponent_pos u
    rw [← heq, Nat.add_mod_right, hcell]

theorem advance (h : q.Held c) (hq : q.Protocol c) (p : P) (spurious : Bool) : (q.advance p spurious).Held c := by
  unfold MpmcQueue.advance
  have hunclaimed (hfills : (q.points p).fills = none) (hempties : (q.points p).empties = none) (point) :
      (q.goTo p point).Held c :=
    h.goTo_unclaimed hfills hempties point
  cases hpoint : q.points p with
  | idle returned => exact h
  | writing value pos => exact h.write hpoint
  | publishing pos => exact h.publish hq hpoint
  | releasing pos out => exact h.release hq hpoint
  | reading pos =>
    refine h.goTo (fun pos' hpos => ?_) fun pos' hpos => ?_
    · rw [hpoint] at hpos
      cases hpos
    · rw [hpoint] at hpos
      exact hpos
  | claiming value pos =>
    rw [hpoint] at hunclaimed
    dsimp only
    split_ifs with hexchange
    · exact h.claim hq hpoint hexchange.1
    · exact hunclaimed rfl rfl _
  | popClaiming pos =>
    rw [hpoint] at hunclaimed
    dsimp only
    split_ifs with hexchange
    · exact h.take hq hpoint hexchange.1
    · exact hunclaimed rfl rfl _
  | loading value pos =>
    rw [hpoint] at hunclaimed
    dsimp only
    split_ifs
    all_goals exact hunclaimed rfl rfl _
  | popLoading pos =>
    rw [hpoint] at hunclaimed
    dsimp only
    split_ifs
    all_goals exact hunclaimed rfl rfl _
  | reloading value =>
    rw [hpoint] at hunclaimed
    exact hunclaimed rfl rfl _
  | popReloading =>
    rw [hpoint] at hunclaimed
    exact hunclaimed rfl rfl _

theorem step (h : q.Held c) (hq : q.Protocol c) (action : Action P T) : (q.step action).Held c := by
  cases action with
  | advance p spurious => exact h.advance hq p spurious
  | emplace p value =>
    simp only [MpmcQueue.step]
    split
    · next hpoint => exact h.goTo_unclaimed (congrArg ThreadPoint.fills hpoint) (congrArg ThreadPoint.empties hpoint) _
    · exact h
  | pop p =>
    simp only [MpmcQueue.step]
    split
    · next hpoint => exact h.goTo_unclaimed (congrArg ThreadPoint.fills hpoint) (congrArg ThreadPoint.empties hpoint) _
    · exact h

end Held

theorem difference_neg_iff {s t : ℕ} (hs : s < 2 ^ 63) (ht : t < 2 ^ 63) :
    difference (UInt64.ofNat s) (UInt64.ofNat t) < 0 ↔ s < t := by
  have htoInt (n : ℕ) (hn : n < 2 ^ 63) : (UInt64.ofNat n).toInt64.toInt = n := by
    rw [UInt64.toInt64_ofNat', Int64.toInt_ofNat_of_lt hn]
  rw [difference, Int64.lt_iff_toInt_lt, Int64.toInt_sub, htoInt s hs, htoInt t ht,
    Int.bmod_eq_of_le (by omega) (by omega)]
  change (s : ℤ) - t < 0 ↔ _
  omega

/-- The tickets and the cells are few enough that the sign of a difference tells which sequence is ahead. -/
structure Near (q : MpmcQueue P T) (c : ℕ) : Prop where
  claims_lt : q.claims.length < 2 ^ 62
  exponent_le : c ≤ 62

namespace Protocol

variable (h : q.Protocol c) (hnear : q.Near c)

include h hnear

theorem sequence_cases (t : ℕ) : ∃ u, u % 2 ^ c = t % 2 ^ c ∧ q.claims.length ≤ u + 2 ^ c ∧
    u < q.takes.length + 2 ^ c ∧ u + 1 < 2 ^ 63 ∧
      ((q.Open c u ∧ q.takes.length ≤ u) ∨ (q.Full c u ∧ u < q.claims.length)) := by
  obtain ⟨u, hcell, hclaims, htakes, hphase⟩ := h.cells (t % 2 ^ c) (Nat.mod_lt _ (Nat.two_pow_pos c))
  have hpow : 2 ^ c ≤ 2 ^ 62 := Nat.pow_le_pow_right (by decide) hnear.exponent_le
  have hfew := hnear.claims_lt
  have hordered := h.ordered
  exact ⟨u, hcell, hclaims, htakes, by omega, hphase.imp_right fun hfull => ⟨hfull.1, hfull.2.1⟩⟩

theorem in_flight : q.claims.length ≤ q.takes.length + 2 ^ c := by
  obtain ⟨u, hcell, hclaims, htakes, -⟩ := h.sequence_cases hnear q.takes.length
  have hle : u ≤ q.takes.length := by
    by_contra hlt
    exact mod_ne (not_le.mp hlt) htakes hcell.symm
  omega

theorem behind_emplace (ht : t ≤ q.claims.length)
    (hdiff : difference (q.cells (t % 2 ^ c)).sequence (UInt64.ofNat t) < 0) :
    ∃ u, q.claims.length = u + 2 ^ c ∧ ((q.Open c u ∧ q.takes.length ≤ u) ∨ (q.Full c u ∧ u < q.claims.length)) := by
  obtain ⟨u, hcell, hclaims, htakes, hult, hphase⟩ := h.sequence_cases hnear t
  have hfew := hnear.claims_lt
  have hlt : u < t := by
    rcases hphase with ⟨hopen, -⟩ | ⟨hfull, -⟩
    · rw [← hcell, hopen, difference_neg_iff (by omega) (by omega)] at hdiff
      exact hdiff
    · rw [← hcell, hfull, difference_neg_iff (by omega) (by omega)] at hdiff
      omega
  have hfar : u + 2 ^ c ≤ t := by
    by_contra hclose
    exact mod_ne hlt (not_le.mp hclose) hcell
  exact ⟨u, by omega, hphase⟩

theorem behind_pop (ht : t ≤ q.takes.length)
    (hdiff : difference (q.cells (t % 2 ^ c)).sequence (UInt64.ofNat t + 1) < 0) :
    q.claims.length = q.takes.length ∨ (t = q.takes.length ∧ t < q.claims.length ∧ q.Open c t) := by
  obtain ⟨u, hcell, hclaims, htakes, hult, hphase⟩ := h.sequence_cases hnear t
  have hfew := hnear.claims_lt
  have hordered := h.ordered
  rw [show UInt64.ofNat t + 1 = UInt64.ofNat (t + 1) from (UInt64.ofNat_add t 1).symm] at hdiff
  rcases hphase with ⟨hopen, hle⟩ | ⟨hfull, -⟩
  · rw [← hcell, hopen, difference_neg_iff (by omega) (by omega)] at hdiff
    obtain rfl : u = t := by omega
    by_cases hempty : q.claims.length = q.takes.length
    · exact Or.inl hempty
    · exact Or.inr ⟨by omega, by omega, hopen⟩
  · rw [← hcell, hfull, difference_neg_iff (by omega) (by omega)] at hdiff
    have hlt : u < t := by omega
    have hfar : u + 2 ^ c ≤ t := by
      by_contra hclose
      exact mod_ne hlt (not_le.mp hclose) hcell
    omega

end Protocol

section Capacity

variable [DecidableEq P]

theorem step_capacity (q : MpmcQueue P T) (action : Action P T) :
    (q.step action).capacity = q.capacity ∧ (q.step action).mask = q.mask := by
  cases action with
  | emplace p value =>
    simp only [step]
    split <;> exact ⟨rfl, rfl⟩
  | pop p =>
    simp only [step]
    split <;> exact ⟨rfl, rfl⟩
  | advance p spurious =>
    simp only [step, advance]
    split
    all_goals try split_ifs
    all_goals exact ⟨rfl, rfl⟩

theorem mask_run (capacity : UInt64) (blank : T) (memory : ℕ → Cell T) (actions : List (Action P T)) :
    let q := run capacity blank memory actions
    q.capacity = roundUpPow2 capacity ∧ q.mask = q.capacity - 1 := by
  apply run_induct (motive := fun q : MpmcQueue P T => q.capacity = roundUpPow2 capacity ∧ q.mask = q.capacity - 1)
  · exact ⟨rfl, rfl⟩
  · rintro q action ⟨hcapacity, hmask⟩
    obtain ⟨hcapacity', hmask'⟩ := step_capacity q action
    rw [hmask', hcapacity']
    exact ⟨hcapacity, hmask⟩

theorem protocol_held_run {capacity : UInt64} (h : capacity ≤ UInt64.ofNat (2 ^ 62)) (blank : T) (memory : ℕ → Cell T)
    {actions : List (Action P T)} (hfew : (run capacity blank memory actions).claims.length < 2 ^ 62) :
    ∃ c, (run capacity blank memory actions).Protocol c ∧ (run capacity blank memory actions).Held c ∧
      (run capacity blank memory actions).Near c ∧ (run capacity blank memory actions).capacity.toNat = 2 ^ c := by
  have hle : capacity.toNat ≤ 2 ^ 62 := by
    rw [UInt64.le_iff_toNat_le, toNat_two_pow (by decide)] at h
    exact h
  have hsmall : capacity ≤ UInt64.ofNat (2 ^ 63) := by
    rw [UInt64.le_iff_toNat_le, toNat_two_pow (by decide)]
    omega
  have hheld : ∃ c, (run capacity blank memory actions).Protocol c ∧ (run capacity blank memory actions).Held c := by
    induction actions using List.reverseRecOn with
    | nil =>
      obtain ⟨c, hq⟩ := construct_protocol (P := P) hsmall blank memory
      exact ⟨c, hq, fun t ht => absurd ht (Nat.not_lt_zero t), fun t ht => absurd ht (Nat.not_lt_zero t)⟩
    | append_singleton actions action ih =>
      rw [run, run_snoc] at hfew ⊢
      obtain ⟨c, hq, hheld⟩ := ih ((step_claims _ action).length_le.trans_lt hfew)
      exact ⟨c, hq.step action (hfew.trans (by decide)), hheld.step hq action⟩
  obtain ⟨c, hq, hheld⟩ := hheld
  obtain ⟨hcapacity, hmask⟩ := mask_run capacity blank memory actions
  have heq : (run capacity blank memory actions).capacity = UInt64.ofNat (2 ^ c) := by
    rw [hq.mask_eq] at hmask
    rw [← UInt64.sub_add_cancel (run capacity blank memory actions).capacity 1, ← hmask, UInt64.sub_add_cancel]
  have hpow : (run capacity blank memory actions).capacity.toNat = 2 ^ c := by
    rw [heq, toNat_two_pow hq.exponent_lt]
  refine ⟨c, hq, hheld, ⟨hfew, ?_⟩, hpow⟩
  have hclog : 2 ^ c = 2 ^ Nat.clog 2 (max capacity.toNat 2) := by
    rw [← hpow, hcapacity, toNat_roundUpPow2 (by omega)]
  rw [Nat.pow_right_injective le_rfl hclog]
  exact Nat.clog_le_of_le_pow (max_le hle (by decide))

theorem refusals_true {capacity : UInt64} (h : capacity ≤ UInt64.ofNat (2 ^ 62)) (blank : T) (memory : ℕ → Cell T)
    {actions : List (Action P T)} (hfew : (run capacity blank memory actions).claims.length < 2 ^ 62) (p : P)
    (spurious : Bool) :
    let q := run capacity blank memory actions
    (∀ value pos, q.points p = .loading value pos → (q.advance p spurious).points p = .idle (some false) →
      q.claims.length = q.takes.length + q.capacity.toNat ∨
        ∃ p', (q.points p').empties = some (UInt64.ofNat (q.claims.length - q.capacity.toNat))) ∧
    (∀ pos, q.points p = .popLoading pos → (q.advance p spurious).points p = .idle (some false) →
      q.claims.length = q.takes.length ∨ ∃ p', (q.points p').fills = some q.dequeuePos) := by
  intro q
  obtain ⟨c, hq, hheld, hnear, hcapacity⟩ := protocol_held_run h blank memory hfew
  change q.Protocol c at hq
  have hready := hq.ready p
  have hself (point : ThreadPoint T) : (q.goTo p point).points p = point := Function.update_self _ _ _
  constructor
  · intro value pos hpoint hrefused
    rw [hpoint] at hready
    obtain ⟨t, ht, rfl⟩ := hready
    simp only [advance, hpoint, hq.slot_ofNat] at hrefused
    split_ifs at hrefused with hzero hneg
    · rw [hself] at hrefused
      cases hrefused
    · obtain ⟨u, hu, hphase⟩ := hq.behind_emplace hnear ht hneg
      have hinFlight := hq.in_flight hnear
      by_cases htaken : u < q.takes.length
      · have hfull : q.Full c u := (hphase.resolve_left fun hopen => absurd htaken (not_lt.mpr hopen.2)).1
        rw [hcapacity, show q.claims.length - 2 ^ c = u by omega]
        exact Or.inr (hheld.consumer u htaken hfull)
      · rw [hcapacity]
        omega
    · rw [hself] at hrefused
      cases hrefused
  · intro pos hpoint hrefused
    rw [hpoint] at hready
    obtain ⟨t, ht, rfl⟩ := hready
    simp only [advance, hpoint, hq.slot_ofNat] at hrefused
    split_ifs at hrefused with hzero hneg
    · rw [hself] at hrefused
      cases hrefused
    · refine (hq.behind_pop hnear ht hneg).imp id ?_
      rintro ⟨rfl, hlt, hopen⟩
      rw [hq.dequeuePos_eq]
      exact hheld.producer _ hlt hopen
    · rw [hself] at hrefused
      cases hrefused

def unpublished : List (Action Bool ℕ) := [.emplace false 7, .advance false false, .advance false false, .pop true]

theorem refusals_true_of_unpublished :
    let q := run 2 0 (fun _ => ⟨0, 0⟩) unpublished
    (q.points true = .popLoading 0 ∧ (q.advance true false).points true = .idle (some false)) ∧
      (q.claims.length = q.takes.length ∨ ∃ p', (q.points p').fills = some q.dequeuePos) := by
  have hpoint : (run 2 0 (fun _ => ⟨0, 0⟩) unpublished).points true = .popLoading 0 := by decide +kernel
  have hrefused : ((run 2 0 (fun _ => ⟨0, 0⟩) unpublished).advance true false).points true = .idle (some false) := by
    decide +kernel
  refine ⟨⟨hpoint, hrefused⟩, (refusals_true ?_ 0 (fun _ => ⟨0, 0⟩) ?_ true false).2 0 hpoint hrefused⟩
  · decide
  · decide +kernel

end Capacity

end MpmcQueue

end SystemLevel.LockFree
