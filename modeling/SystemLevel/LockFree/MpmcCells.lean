import SystemLevel.LockFree.MpmcClaims

namespace SystemLevel.LockFree.MpmcQueue

variable {P T : Type} [DecidableEq P]

structure Refilled (q q' : MpmcQueue P T) (c : ℕ) (p : P) (t : ℕ) (cell : Cell T) (point : ThreadPoint T) : Prop where
  held : ((q.points p).fills = some (UInt64.ofNat t) ∧ t < q.claims.length ∧ q.Open c t) ∨
    ((q.points p).empties = some (UInt64.ofNat t) ∧ t < q.takes.length ∧ q.Full c t)
  mask_eq : q'.mask = q.mask
  cells_eq : ∀ i, q'.cells i = if i = t % 2 ^ c then cell else q.cells i
  enqueuePos_eq : q'.enqueuePos = q.enqueuePos
  dequeuePos_eq : q'.dequeuePos = q.dequeuePos
  points_eq : q'.points = Function.update q.points p point
  claims_eq : q'.claims = q.claims
  published : q.published ⊆ q'.published
  takes_eq : q'.takes = q.takes
  returned : ∀ r ∈ q'.returned, r ∈ q.claims

namespace Refilled

variable {q q' : MpmcQueue P T} {c t : ℕ} {p : P} {cell : Cell T} {point : ThreadPoint T}

theorem cells_ne (hr : Refilled q q' c p t cell point) {i : ℕ} (hi : i ≠ t % 2 ^ c) : q'.cells i = q.cells i := by
  rw [hr.cells_eq, if_neg hi]

theorem others (hr : Refilled q q' c p t cell point) (h : q.Protocol c) {p' : P} (hp' : p' ≠ p) :
    q'.Ready c (q.points p') := by
  have hclaims : q.claims <+: q'.claims := by
    rw [hr.claims_eq]
  have hopen : ∀ u, u % 2 ^ c ≠ t % 2 ^ c → q.Open c u →
      q'.Open c u ∧ (q'.cells (u % 2 ^ c)).data = (q.cells (u % 2 ^ c)).data := by
    intro u hne hu
    rw [Open, hr.cells_ne hne]
    exact ⟨hu, rfl⟩
  have hfull : ∀ u, u % 2 ^ c ≠ t % 2 ^ c → q.Full c u → q'.Full c u := by
    intro u hne hu
    rw [Full, hr.cells_ne hne]
    exact hu
  have hpos := h.exponent_pos
  rcases hr.held with ⟨hfills, ht, htopen⟩ | ⟨hempties, ht, htfull⟩
  · have htlt := h.ticket_lt ht.le
    refine (h.ready p').transfer hclaims (congrArg List.length hr.takes_eq).ge (fun u hle hu => ?_) fun u hle hu => ?_
    · by_cases hcell : u % 2 ^ c = t % 2 ^ c
      · have hult := h.ticket_lt hle
        obtain rfl := hu.eq htopen hcell (by omega) (by omega)
        refine Or.inr ⟨ht.trans_le hclaims.length_le, fun hfills' => hp' ?_⟩
        exact h.filled_once p' p _ hfills' hfills
      · exact Or.inl (hopen u hcell hu)
    · have hult := h.ticket_lt (hle.trans h.ordered)
      refine Or.inl (hfull u (fun hcell => ?_) hu)
      exact htopen.not_full hu hcell.symm hpos (by omega) hult
  · have htlt := h.ticket_lt (ht.le.trans h.ordered)
    refine (h.ready p').transfer hclaims (congrArg List.length hr.takes_eq).ge (fun u hle hu => ?_) fun u hle hu => ?_
    · have hult := h.ticket_lt hle
      refine Or.inl (hopen u (fun hcell => ?_) hu)
      exact hu.not_full htfull hcell hpos (by omega) htlt
    · by_cases hcell : u % 2 ^ c = t % 2 ^ c
      · obtain rfl := hu.eq htfull hcell (h.ticket_lt (hle.trans h.ordered)) htlt
        refine Or.inr ⟨ht.trans_eq (congrArg List.length hr.takes_eq).symm, fun hempties' => hp' ?_⟩
        exact h.emptied_once p' p _ hempties' hempties
      · exact Or.inl (hfull u hcell hu)

theorem protocol (hr : Refilled q q' c p t cell point) (h : q.Protocol c) (hphase : q'.Phase c (t % 2 ^ c))
    (hself : q'.Ready c point) (hfills : ∀ pos, point.fills = some pos → (q.points p).fills = some pos)
    (hempties : ∀ pos, point.empties = some pos → (q.points p).empties = some pos) : q'.Protocol c where
  exponent_pos := h.exponent_pos
  exponent_lt := h.exponent_lt
  mask_eq := hr.mask_eq.trans h.mask_eq
  few := by rw [hr.claims_eq]; exact h.few
  ordered := by rw [hr.claims_eq, hr.takes_eq]; exact h.ordered
  enqueuePos_eq := by rw [hr.enqueuePos_eq, hr.claims_eq]; exact h.enqueuePos_eq
  dequeuePos_eq := by rw [hr.dequeuePos_eq, hr.takes_eq]; exact h.dequeuePos_eq
  claims_eq := by rw [hr.claims_eq]; exact h.claims_eq
  takes_eq := by rw [hr.takes_eq]; exact h.takes_eq
  cells i hi := by
    by_cases he : i = t % 2 ^ c
    · rw [he]
      exact hphase
    · obtain ⟨u, hcell, hclaims, htakes, hphase⟩ := h.cells i hi
      subst hcell
      rw [Phase, hr.claims_eq, hr.takes_eq]
      refine ⟨u, rfl, hclaims, htakes, ?_⟩
      rw [Open, Full, hr.cells_ne he]
      apply hphase.imp_right
      rintro ⟨hfull, hlt, hvalue, hmem⟩
      exact ⟨hfull, hlt, hvalue, hr.published hmem⟩
  ready := ready_update hr.points_eq hself fun _ hp' => hr.others h hp'
  filled_once := by
    rw [hr.points_eq]
    apply unique_update h.filled_once
    exact fun pos hpos p' hne hp' => hne (h.filled_once p' p pos hp' (hfills pos hpos))
  emptied_once := by
    rw [hr.points_eq]
    apply unique_update h.emptied_once
    exact fun pos hpos p' hne hp' => hne (h.emptied_once p' p pos hp' (hempties pos hpos))
  returned r hr' := by
    rw [hr.claims_eq]
    exact hr.returned r hr'

end Refilled

namespace Protocol

variable {q : MpmcQueue P T} {c : ℕ} {p : P} (h : q.Protocol c)

include h

theorem refilled {t : ℕ} (held : ((q.points p).fills = some (UInt64.ofNat t) ∧ t < q.claims.length ∧ q.Open c t) ∨
      ((q.points p).empties = some (UInt64.ofNat t) ∧ t < q.takes.length ∧ q.Full c t))
    (cell : Cell T) (point : ThreadPoint T) {published : List UInt64} {returned : List (UInt64 × T)}
    (hpublished : q.published ⊆ published) (hreturned : ∀ r ∈ returned, r ∈ q.claims) :
    Refilled q { (q.setCell (UInt64.ofNat t) cell).goTo p point with published, returned } c p t cell point where
  held := held
  mask_eq := rfl
  cells_eq := h.setCell_cells t cell
  enqueuePos_eq := rfl
  dequeuePos_eq := rfl
  points_eq := rfl
  claims_eq := rfl
  published := hpublished
  takes_eq := rfl
  returned := hreturned

theorem write {value : T} {pos : UInt64} (hpoint : q.points p = .writing value pos) :
    ((q.setCell pos { q.cells (q.slot pos) with data := value }).goTo p (.publishing pos)).Protocol c := by
  have hready := h.ready p
  rw [hpoint] at hready
  obtain ⟨t, hlt, rfl, hopen, hvalue⟩ := hready
  obtain ⟨hclaims, htakes, hle⟩ := h.phase_open hlt.le hopen
  have hfills : (q.points p).fills = some (UInt64.ofNat t) := by
    rw [hpoint]
    rfl
  rw [h.slot_ofNat]
  have hr := h.refilled (Or.inl ⟨hfills, hlt, hopen⟩) { q.cells (t % 2 ^ c) with data := value }
    (.publishing (UInt64.ofNat t)) (List.Subset.refl _) h.returned
  have hcell := (hr.cells_eq (t % 2 ^ c)).trans (if_pos rfl)
  have hopen' : Open _ c t := (congrArg Cell.sequence hcell).trans hopen
  refine hr.protocol h ⟨t, rfl, hclaims, htakes, Or.inl ⟨hopen', hle⟩⟩ ⟨t, hlt, rfl, hopen', ?_⟩ (fun pos hpos => ?_)
    fun _ hpos => nomatch hpos
  · rw [hcell]
    exact hvalue
  · rw [hfills]
    exact hpos

theorem publish {pos : UInt64} (hpoint : q.points p = .publishing pos) :
    Protocol { (q.setCell pos { q.cells (q.slot pos) with sequence := pos + 1 }).goTo p (.idle (some true)) with
      published := q.published ++ [pos] } c := by
  have hready := h.ready p
  rw [hpoint] at hready
  obtain ⟨t, hlt, rfl, hopen, hvalue⟩ := hready
  obtain ⟨hclaims, htakes, -⟩ := h.phase_open hlt.le hopen
  have hfills : (q.points p).fills = some (UInt64.ofNat t) := by
    rw [hpoint]
    rfl
  rw [h.slot_ofNat]
  have hr := h.refilled (Or.inl ⟨hfills, hlt, hopen⟩) { q.cells (t % 2 ^ c) with sequence := UInt64.ofNat t + 1 }
    (.idle (some true)) (List.subset_append_left q.published [UInt64.ofNat t]) h.returned
  have hcell := (hr.cells_eq (t % 2 ^ c)).trans (if_pos rfl)
  have hfull' : Full _ c t := (congrArg Cell.sequence hcell).trans (UInt64.ofNat_add t 1).symm
  have hmem : UInt64.ofNat t ∈ q.published ++ [UInt64.ofNat t] := List.mem_append_right _ List.mem_cons_self
  refine hr.protocol h ⟨t, rfl, hclaims, htakes, Or.inr ⟨hfull', hlt, ?_, hmem⟩⟩ trivial (fun _ hpos => nomatch hpos)
    fun _ hpos => nomatch hpos
  rw [hcell]
  exact hvalue

theorem release {pos : UInt64} {out : T} (hpoint : q.points p = .releasing pos out) :
    Protocol
      { (q.setCell pos { q.cells (q.slot pos) with sequence := pos + q.mask + 1 }).goTo p (.idle (some true)) with
        returned := q.returned ++ [(pos, out)] } c := by
  have hready := h.ready p
  rw [hpoint] at hready
  obtain ⟨t, hlt, rfl, hfull, hvalue⟩ := hready
  obtain ⟨hclaims, -⟩ := h.phase_full (hlt.le.trans h.ordered) hfull
  have hempties : (q.points p).empties = some (UInt64.ofNat t) := by
    rw [hpoint]
    rfl
  have hnext : UInt64.ofNat t + q.mask + 1 = UInt64.ofNat (t + 2 ^ c) := by
    rw [h.mask_eq, UInt64.add_assoc, UInt64.sub_add_cancel, UInt64.ofNat_add]
  have hreturned : ∀ r ∈ q.returned ++ [(UInt64.ofNat t, out)], r ∈ q.claims := by
    intro r hr
    rcases List.mem_append.mp hr with hr | hr
    · exact h.returned r hr
    · rw [List.mem_singleton.mp hr]
      exact List.mem_of_getElem? hvalue
  rw [h.slot_ofNat, hnext]
  have hr := h.refilled (Or.inr ⟨hempties, hlt, hfull⟩)
      { q.cells (t % 2 ^ c) with sequence := UInt64.ofNat (t + 2 ^ c) }
    (.idle (some true)) (List.Subset.refl _) hreturned
  have hcell := (hr.cells_eq (t % 2 ^ c)).trans (if_pos rfl)
  have htakes : t + 2 ^ c < q.takes.length + 2 ^ c := by omega
  -- The cell is open for the next ticket that falls on it.
  refine hr.protocol h
    ⟨t + 2 ^ c, Nat.add_mod_right _ _, hclaims.trans (Nat.le_add_right _ _), htakes,
      Or.inl ⟨?_, h.ordered.trans hclaims⟩⟩
    trivial (fun _ hpos => nomatch hpos) fun _ hpos => nomatch hpos
  rw [Open, Nat.add_mod_right]
  exact congrArg Cell.sequence hcell

end Protocol

end SystemLevel.LockFree.MpmcQueue
