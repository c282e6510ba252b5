import SystemLevel.LockFree.MpmcProtocol

namespace SystemLevel.LockFree.MpmcQueue

open Wraparound

variable {P T : Type} [DecidableEq P]

theorem difference_eq_zero (seq pos : UInt64) : difference seq pos = 0 ↔ seq = pos := by
  constructor
  · intro h
    have hsub := congrArg Int64.toUInt64 h
    rw [difference, Int64.toUInt64_sub, UInt64.toUInt64_toInt64, UInt64.toUInt64_toInt64] at hsub
    rw [← UInt64.sub_add_cancel seq pos, hsub]
    exact UInt64.zero_add pos
  · rintro rfl
    exact Int64.sub_self _

theorem unique_update {points : P → ThreadPoint T} {f : ThreadPoint T → Option UInt64} {p : P} {point : ThreadPoint T}
    (h : ∀ p p' pos, f (points p) = some pos → f (points p') = some pos → p = p')
    (hnew : ∀ pos, f point = some pos → ∀ p', p' ≠ p → f (points p') ≠ some pos) :
    ∀ p₁ p₂ pos, f (Function.update points p point p₁) = some pos → f (Function.update points p point p₂) = some pos →
      p₁ = p₂ := by
  intro p₁ p₂ pos h₁ h₂
  rw [Function.update_apply] at h₁ h₂
  split_ifs at h₁ h₂ with hp₁ hp₂ hp₂
  · rw [hp₁, hp₂]
  · exact absurd h₂ (hnew pos h₁ p₂ hp₂)
  · exact absurd h₁ (hnew pos h₂ p₁ hp₁)
  · exact h p₁ p₂ pos h₁ h₂

theorem ready_update {points : P → ThreadPoint T} {q q' : MpmcQueue P T} {c : ℕ} {p : P} {point : ThreadPoint T}
    (hpoints : points = Function.update q.points p point) (hself : q'.Ready c point)
    (hother : ∀ p', p' ≠ p → q'.Ready c (q.points p')) (p' : P) : q'.Ready c (points p') := by
  rw [hpoints, Function.update_apply]
  split_ifs with he
  · exact hself
  · exact hother p' he

namespace Protocol

variable {q : MpmcQueue P T} {c : ℕ} {p : P} (h : q.Protocol c)

include h

theorem goTo {point : ThreadPoint T} (hready : q.Ready c point)
    (hfills : ∀ pos, point.fills = some pos → (q.points p).fills = some pos)
    (hempties : ∀ pos, point.empties = some pos → (q.points p).empties = some pos) : (q.goTo p point).Protocol c :=
  { h with
    ready := ready_update rfl hready fun p' _ => h.ready p'
    filled_once := unique_update h.filled_once fun pos hpos p' hne hp' =>
      hne (h.filled_once p' p pos hp' (hfills pos hpos))
    emptied_once := unique_update h.emptied_once fun pos hpos p' hne hp' =>
      hne (h.emptied_once p' p pos hp' (hempties pos hpos)) }

theorem goTo_unclaimed {point : ThreadPoint T} (hready : q.Ready c point) (hfills : point.fills = none)
    (hempties : point.empties = none) : (q.goTo p point).Protocol c := by
  refine h.goTo hready (fun pos hpos => ?_) fun pos hpos => ?_
  · exact absurd (hpos.symm.trans hfills) (Option.some_ne_none pos)
  · exact absurd (hpos.symm.trans hempties) (Option.some_ne_none pos)

theorem loading (value : T) : (q.goTo p (.loading value q.enqueuePos)).Protocol c :=
  h.goTo_unclaimed ⟨_, le_rfl, h.enqueuePos_eq⟩ rfl rfl

theorem popLoading : (q.goTo p (.popLoading q.dequeuePos)).Protocol c :=
  h.goTo_unclaimed ⟨_, le_rfl, h.dequeuePos_eq⟩ rfl rfl

theorem loadSequence {value : T} {pos : UInt64} (hpoint : q.points p = .loading value pos)
    (hseq : (q.cells (q.slot pos)).sequence = pos) : (q.goTo p (.claiming value pos)).Protocol c := by
  have hready := h.ready p
  rw [hpoint] at hready
  obtain ⟨t, hle, rfl⟩ := hready
  rw [h.slot_ofNat] at hseq
  exact h.goTo_unclaimed ⟨t, hle, rfl, Or.inr hseq⟩ rfl rfl

theorem popLoadSequence {pos : UInt64} (hpoint : q.points p = .popLoading pos)
    (hseq : (q.cells (q.slot pos)).sequence = pos + 1) : (q.goTo p (.popClaiming pos)).Protocol c := by
  have hready := h.ready p
  rw [hpoint] at hready
  obtain ⟨t, hle, rfl⟩ := hready
  rw [h.slot_ofNat] at hseq
  have hfull : q.Full c t := by
    rw [Full, UInt64.ofNat_add]
    exact hseq
  exact h.goTo_unclaimed ⟨t, hle, rfl, Or.inr hfull⟩ rfl rfl

theorem claim {value : T} {pos : UInt64} (hpoint : q.points p = .claiming value pos) (hpos : q.enqueuePos = pos)
    (hfew : q.claims.length + 1 < 2 ^ 63) :
    Protocol { q.goTo p (.writing value pos) with enqueuePos := pos + 1, claims := q.claims ++ [(pos, value)] } c := by
  have hready := h.ready p
  rw [hpoint] at hready
  obtain ⟨t, hle, heq, hopen⟩ := hready
  have ht : t = q.claims.length := by
    have hlt := h.ticket_lt le_rfl
    have hlt' := h.ticket_lt hle
    apply (ofNat_inj (by omega) (by omega)).mp
    rw [← heq, ← hpos, h.enqueuePos_eq]
  subst ht
  have hopen := hopen.resolve_left (lt_irrefl _)
  have hlength : (q.claims ++ [(pos, value)]).length = q.claims.length + 1 := List.length_append
  refine
    { h with
      few := by rw [hlength]; exact hfew
      ordered := by rw [hlength]; exact h.ordered.trans (Nat.le_succ _)
      enqueuePos_eq := ?_
      claims_eq := ?_
      cells := fun i hi => ?_
      ready := ?_
      filled_once := ?_
      emptied_once := unique_update h.emptied_once fun _ hpos => nomatch hpos
      returned := fun r hr => List.mem_append_left _ (h.returned r hr) }
  · change pos + 1 = UInt64.ofNat (q.claims ++ [(pos, value)]).length
    rw [ofNat_length_concat, ← heq]
  · change (q.claims ++ [(pos, value)]).map Prod.fst = (List.range (q.claims ++ [(pos, value)]).length).map UInt64.ofNat
    rw [hlength, List.map_append, h.claims_eq, List.range_succ, List.map_append, heq]
    rfl
  · obtain ⟨u, hcell, hclaims, htakes, hphase⟩ := h.cells i hi
    have hu := h.phase_lt htakes
    -- A ticket is claimed in a cell only after the one before it has been released there.
    have hne : q.claims.length ≠ u + 2 ^ c := by
      intro hnext
      have hsame : q.claims.length % 2 ^ c = u % 2 ^ c := by rw [hnext, Nat.add_mod_right]
      have hlt := h.ticket_lt le_rfl
      have htwo := Nat.one_lt_two_pow (Nat.one_le_iff_ne_zero.mp h.exponent_pos)
      rcases hphase with ⟨huopen, -⟩ | ⟨hfull, -⟩
      · have := hopen.eq huopen hsame (by omega) (by omega)
        omega
      · exact hopen.not_full hfull hsame h.exponent_pos (by omega) hu
    refine ⟨u, hcell, ?_, htakes, hphase.imp_right fun ⟨hfull, hlt, hvalue, hpublished⟩ => ⟨hfull, ?_, ?_, hpublished⟩⟩
    · change (q.claims ++ [(pos, value)]).length ≤ u + 2 ^ c
      omega
    · change u < (q.claims ++ [(pos, value)]).length
      omega
    · exact getElem?_of_prefix (List.prefix_append _ _) hvalue
  · refine ready_update rfl ⟨q.claims.length, ?_, heq, hopen, ?_⟩ fun p' hp' => ?_
    · change q.claims.length < (q.claims ++ [(pos, value)]).length
      omega
    · exact List.getElem?_concat_length
    · exact (h.ready p').transfer (List.prefix_append _ _) le_rfl (fun u _ hu => Or.inl ⟨hu, rfl⟩)
        fun u _ hu => Or.inl hu
  · apply unique_update h.filled_once
    rintro pos' hpos' p' - hp'
    obtain rfl := Option.some.inj hpos'
    obtain ⟨u, hu, hpos'', -⟩ := (h.ready p').fills hp'
    have hlt := h.ticket_lt hu.le
    have hlt' := h.ticket_lt le_rfl
    have := (ofNat_inj (by omega) (by omega)).mp (heq.symm.trans hpos'')
    omega

theorem take {pos : UInt64} (hpoint : q.points p = .popClaiming pos) (hpos : q.dequeuePos = pos) :
    Protocol { q.goTo p (.reading pos) with dequeuePos := pos + 1, takes := q.takes ++ [pos] } c := by
  have hready := h.ready p
  rw [hpoint] at hready
  obtain ⟨t, hle, heq, hfull⟩ := hready
  have ht : t = q.takes.length := by
    have hlt := h.ticket_lt h.ordered
    have hlt' := h.ticket_lt (hle.trans h.ordered)
    apply (ofNat_inj (by omega) (by omega)).mp
    rw [← heq, ← hpos, h.dequeuePos_eq]
  subst ht
  have hfull := hfull.resolve_left (lt_irrefl _)
  obtain ⟨hclaims, hlt, -⟩ := h.phase_full h.ordered hfull
  have hlength : (q.takes ++ [pos]).length = q.takes.length + 1 := List.length_append
  refine
    { h with
      ordered := by rw [hlength]; exact hlt
      dequeuePos_eq := ?_
      takes_eq := ?_
      cells := fun i hi => ?_
      ready := ?_
      filled_once := unique_update h.filled_once fun _ hpos => nomatch hpos
      emptied_once := ?_ }
  · change pos + 1 = UInt64.ofNat (q.takes ++ [pos]).length
    rw [ofNat_length_concat, ← heq]
  · change q.takes ++ [pos] = (List.range (q.takes ++ [pos]).length).map UInt64.ofNat
    rw [hlength, List.range_succ, List.map_append, ← h.takes_eq, heq]
    rfl
  · obtain ⟨u, hcell, hclaims, htakes, hphase⟩ := h.cells i hi
    have hu := h.phase_lt htakes
    refine ⟨u, hcell, hclaims, ?_, hphase.imp_left fun ⟨hopen, hle⟩ => ⟨hopen, ?_⟩⟩
    · change u < (q.takes ++ [pos]).length + 2 ^ c
      omega
    · have hne : u ≠ q.takes.length := by
        rintro rfl
        exact hopen.not_full hfull rfl h.exponent_pos (by omega) hu
      change (q.takes ++ [pos]).length ≤ u
      omega
  · refine ready_update rfl ⟨q.takes.length, ?_, heq, hfull⟩ fun p' hp' => ?_
    · change q.takes.length < (q.takes ++ [pos]).length
      omega
    · exact (h.ready p').transfer (List.prefix_refl _) (by rw [hlength]; exact Nat.le_succ _)
        (fun u _ hu => Or.inl ⟨hu, rfl⟩) fun u _ hu => Or.inl hu
  · apply unique_update h.emptied_once
    rintro pos' hpos' p' - hp'
    obtain rfl := Option.some.inj hpos'
    obtain ⟨u, hu, hpos'', -⟩ := (h.ready p').empties hp'
    have hlt := h.ticket_lt (hu.le.trans h.ordered)
    have hlt' := h.ticket_lt h.ordered
    have := (ofNat_inj (by omega) (by omega)).mp (heq.symm.trans hpos'')
    omega

theorem read {pos : UInt64} (hpoint : q.points p = .reading pos) :
    (q.goTo p (.releasing pos (q.cells (q.slot pos)).data)).Protocol c := by
  have hready := h.ready p
  rw [hpoint] at hready
  obtain ⟨t, hlt, rfl, hfull⟩ := hready
  obtain ⟨-, -, hvalue, -⟩ := h.phase_full (hlt.le.trans h.ordered) hfull
  refine h.goTo ⟨t, hlt, rfl, hfull, ?_⟩ (fun _ hpos => nomatch hpos) fun pos hpos => ?_
  · rw [h.slot_ofNat]
    exact hvalue
  · rw [hpoint]
    exact hpos

end Protocol

end SystemLevel.LockFree.MpmcQueue
