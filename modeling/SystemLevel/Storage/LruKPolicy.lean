import SystemLevel.Foundations.Runs
import SystemLevel.Foundations.Wraparound
import SystemLevel.Storage.LruKReplacer

namespace SystemLevel.Storage.LruKReplacer

structure Tracked where
  accesses : List ℕ := []
  evictable : Bool := false

structure Ledger where
  clock : ℕ := 0
  frames : FrameId → Option Tracked := fun _ => none

namespace Ledger

def access (l : Ledger) (f : FrameId) : Ledger :=
  let old := (l.frames f).getD {}
  { clock := l.clock + 1
    frames := Function.update l.frames f (some { old with accesses := old.accesses ++ [l.clock + 1] }) }

def mark (l : Ledger) (f : FrameId) (evictable : Bool) : Ledger :=
  { l with frames := Function.update l.frames f ((l.frames f).map fun t => { t with evictable }) }

def drop (l : Ledger) (f : FrameId) : Ledger := { l with frames := Function.update l.frames f none }

def Evictable (l : Ledger) (f : FrameId) (t : Tracked) : Prop := l.frames f = some t ∧ t.evictable = true

end Ledger

def Tracked.first (t : Tracked) : ℕ := t.accesses.headD 0

def Tracked.kthLast (k : ℕ) (t : Tracked) : ℕ := t.accesses.getD (t.accesses.length - k) 0

/-- Frames with fewer than `k` accesses go first, in the order of their first access. -/
def Ledger.IsVictim (k : ℕ) (l : Ledger) (f : FrameId) : Prop :=
  ∃ t, l.Evictable f t ∧
    ((t.accesses.length < k ∧
        ∀ g u, l.Evictable g u → u.accesses.length < k → g ≠ f → t.first < u.first) ∨
      ((∀ g u, l.Evictable g u → k ≤ u.accesses.length) ∧
        ∀ g u, l.Evictable g u → g ≠ f → t.kthLast k < u.kthLast k))

theorem Ledger.IsVictim.unique {k : ℕ} {l : Ledger} {f g : FrameId} (hf : l.IsVictim k f) (hg : l.IsVictim k g) :
    f = g := by
  obtain ⟨t, ht, hleast⟩ := hf
  obtain ⟨u, hu, hleast'⟩ := hg
  by_contra hne
  rcases hleast with ⟨hshort, hfirst⟩ | ⟨hlong, holdest⟩
  · rcases hleast' with ⟨hshort', hfirst'⟩ | ⟨hlong', -⟩
    · exact Nat.lt_asymm (hfirst g u hu hshort' (Ne.symm hne)) (hfirst' f t ht hshort hne)
    · exact absurd (hlong' f t ht) (by omega)
  · rcases hleast' with ⟨hshort', -⟩ | ⟨-, holdest'⟩
    · exact absurd (hlong g u hu) (by omega)
    · exact Nat.lt_asymm (holdest g u hu (Ne.symm hne)) (holdest' f t ht hne)

def rank (r : LruKReplacer) (front : UInt64) (node : FrameNode) : ℕ :=
  if node.history.length < r.k then (node.history.headD 0).toNat
  else 2 ^ 64 + (2 ^ 64 - 1 - (r.currentTimestamp - node.history.headD front).toNat)

structure Describes (r : LruKReplacer) (front : UInt64) (s : Scan) (entry : FrameEntry) : Prop where
  evictable : entry.2.isEvictable = true
  any : s.foundAny = true
  victim : s.victimId = entry.1
  inf : s.foundInf = decide (entry.2.history.length < r.k)
  earliest : s.foundInf = true → s.earliestInfTimestamp = entry.2.history.headD 0
  distance : s.foundInf = false → s.maxKDistance = r.currentTimestamp - entry.2.history.headD front

theorem describes_inf {r : LruKReplacer} {s : Scan} {entry : FrameEntry} (hev : entry.2.isEvictable = true)
    (hany : s.foundAny = true) (hvictim : s.victimId = entry.1) (hinf : s.foundInf = true)
    (hshort : entry.2.history.length < r.k) (hfirst : s.earliestInfTimestamp = entry.2.history.headD 0)
    (front : UInt64) : Describes r front s entry :=
  ⟨hev, hany, hvictim, hinf.trans (decide_eq_true hshort).symm, fun _ => hfirst,
    fun hfalse => absurd (hfalse.symm.trans hinf) Bool.false_ne_true⟩

theorem describes_distance {r : LruKReplacer} {front : UInt64} {s : Scan} {entry : FrameEntry}
    (hev : entry.2.isEvictable = true) (hany : s.foundAny = true) (hvictim : s.victimId = entry.1)
    (hinf : s.foundInf = false) (hlong : ¬ entry.2.history.length < r.k)
    (hdistance : s.maxKDistance = r.currentTimestamp - entry.2.history.headD front) : Describes r front s entry :=
  ⟨hev, hany, hvictim, hinf.trans (decide_eq_false hlong).symm,
    fun htrue => absurd (hinf.symm.trans htrue) Bool.false_ne_true, fun _ => hdistance⟩

theorem scan_idle (r : LruKReplacer) (front : UInt64) (s : Scan) {entry : FrameEntry}
    (h : entry.2.isEvictable = false) : r.scan front s entry = s := if_pos h

theorem scan_first (r : LruKReplacer) (front : UInt64) {s : Scan} (hany : s.foundAny = false)
    (hinf : s.foundInf = false) {entry : FrameEntry} (h : entry.2.isEvictable = true) :
    Describes r front (r.scan front s entry) entry := by
  simp only [scan, h, Bool.true_eq_false, if_false, hany, hinf, true_or, if_true]
  split_ifs with hshort
  · exact describes_inf h rfl rfl rfl hshort rfl front
  · exact describes_distance h rfl rfl rfl hshort rfl

theorem Describes.scan_next {r : LruKReplacer} {front : UInt64} {s : Scan} {old entry : FrameEntry}
    (hold : Describes r front s old) (h : entry.2.isEvictable = true) :
    (r.rank front entry.2 < r.rank front old.2 ∧ Describes r front (r.scan front s entry) entry) ∨
      (r.rank front old.2 ≤ r.rank front entry.2 ∧ r.scan front s entry = s) := by
  have hinf := hold.inf
  have hhead := (old.2.history.headD 0).toNat_lt
  have hhead' := (entry.2.history.headD 0).toNat_lt
  have hdist := (r.currentTimestamp - old.2.history.headD front).toNat_lt
  have hdist' := (r.currentTimestamp - entry.2.history.headD front).toNat_lt
  simp only [scan, rank, h, Bool.true_eq_false, if_false, hold.any, false_or]
  by_cases hshort : old.2.history.length < r.k
  · rw [decide_eq_true hshort] at hinf
    simp only [hinf, Bool.true_eq_false, if_false, false_or, hold.earliest hinf, if_pos hshort]
    split_ifs with hentry hless
    · exact Or.inl ⟨hless, describes_inf h rfl rfl rfl hentry rfl front⟩
    · exact Or.inr ⟨Nat.le_of_not_lt hless, rfl⟩
    · exact Or.inr ⟨by omega, rfl⟩
  · rw [decide_eq_false hshort] at hinf
    simp only [hinf, true_or, if_true, hold.distance hinf, if_neg hshort]
    split_ifs with hentry hmore
    · exact Or.inl ⟨by omega, describes_inf h rfl rfl rfl hentry rfl front⟩
    · rw [UInt64.lt_iff_toNat_lt] at hmore
      exact Or.inl ⟨by omega, describes_distance h rfl rfl rfl hentry rfl⟩
    · rw [UInt64.lt_iff_toNat_lt] at hmore
      exact Or.inr ⟨by omega, rfl⟩

theorem forall_mem_concat {α : Type*} {p : α → Prop} {xs : List α} {x : α} (hxs : ∀ y ∈ xs, p y) (hx : p x) :
    ∀ y ∈ xs ++ [x], p y :=
  List.forall_mem_append.mpr ⟨hxs, List.forall_mem_singleton.mpr hx⟩

theorem scan_least (r : LruKReplacer) (front : UInt64) (visited : List FrameEntry)
    (h : ∃ entry ∈ visited, entry.2.isEvictable = true) :
    ∃ best ∈ visited, Describes r front (visited.foldl (r.scan front) {}) best ∧
      ∀ entry ∈ visited, entry.2.isEvictable = true → r.rank front best.2 ≤ r.rank front entry.2 := by
  have hloop : (visited.foldl (r.scan front) {} = {} ∧ ∀ entry ∈ visited, entry.2.isEvictable = false) ∨
      ∃ best ∈ visited, Describes r front (visited.foldl (r.scan front) {}) best ∧
        ∀ entry ∈ visited, entry.2.isEvictable = true → r.rank front best.2 ≤ r.rank front entry.2 := by
    clear h
    induction visited using List.reverseRecOn with
    | nil => exact Or.inl ⟨rfl, List.forall_mem_nil _⟩
    | append_singleton visited entry ih =>
      rw [List.foldl_append, List.foldl_cons, List.foldl_nil]
      cases hev : entry.2.isEvictable with
      | false =>
        rw [scan_idle r front _ hev]
        rcases ih with ⟨hinit, hnone⟩ | ⟨best, hmem, hbest, hleast⟩
        · exact Or.inl ⟨hinit, forall_mem_concat hnone hev⟩
        · refine Or.inr ⟨best, List.mem_append_left _ hmem, hbest, forall_mem_concat hleast fun htrue => ?_⟩
          exact absurd (hev.symm.trans htrue) Bool.false_ne_true
      | true =>
        have hlast : entry ∈ visited ++ [entry] := List.mem_append_right _ (List.mem_singleton_self _)
        right
        rcases ih with ⟨hinit, hnone⟩ | ⟨best, hmem, hbest, hleast⟩
        · rw [hinit]
          have hfirst : Describes r front (r.scan front {} entry) entry := scan_first r front rfl rfl hev
          refine ⟨entry, hlast, hfirst, forall_mem_concat (fun e he htrue => ?_) fun _ => le_rfl⟩
          exact absurd ((hnone e he).symm.trans htrue) Bool.false_ne_true
        · rcases hbest.scan_next hev with ⟨hless, hnew⟩ | ⟨hle, hsame⟩
          · refine ⟨entry, hlast, hnew, forall_mem_concat ?_ fun _ => le_rfl⟩
            exact fun e he htrue => hless.le.trans (hleast e he htrue)
          · rw [hsame]
            exact ⟨best, List.mem_append_left _ hmem, hbest, forall_mem_concat hleast fun _ => hle⟩
  rcases hloop with ⟨-, hnone⟩ | hbest
  · obtain ⟨entry, hentry, hev⟩ := h
    exact absurd (hnone entry hentry) (by rw [hev]; decide)
  · exact hbest

theorem victim_least {r : LruKReplacer} (hsize : r.currSize ≠ 0) {f : FrameId} (hf : r.evictable f = true)
    (order : IterationOrder FrameEntry) (front : UInt64) :
    ∃ g node, ⟨g, node⟩ ∈ r.entries.entries ∧ node.isEvictable = true ∧
      r.victim order front = (some g, { r with entries := r.entries.erase g, currSize := r.currSize - 1 }) ∧
      ∀ entry ∈ r.entries.entries, entry.2.isEvictable = true → r.rank front node ≤ r.rank front entry.2 := by
  have hvisit : ∀ entry, entry ∈ order.visit r.entries.entries ↔ entry ∈ r.entries.entries :=
    fun _ => (order.perm _).mem_iff
  obtain ⟨node, hmem, hev⟩ := (r.evictable_iff f).mp hf
  obtain ⟨⟨g, best⟩, hbest, hdescribes, hleast⟩ :=
    scan_least r front (order.visit r.entries.entries) ⟨⟨f, node⟩, (hvisit _).mpr hmem, hev⟩
  refine ⟨g, best, (hvisit _).mp hbest, hdescribes.evictable, ?_,
    fun entry hentry => hleast entry ((hvisit _).mpr hentry)⟩
  rw [victim, if_neg hsize]
  simp only [hdescribes.any, if_true, hdescribes.victim]

/-- What `record_access` keeps of the accesses. -/
def recent (k : ℕ) (accesses : List ℕ) : List ℕ := accesses.drop (accesses.length - k)

theorem recent_concat (k : ℕ) (accesses : List ℕ) (a : ℕ) :
    recent k (accesses ++ [a]) =
      if k < (recent k accesses ++ [a]).length then (recent k accesses ++ [a]).tail else recent k accesses ++ [a] := by
  simp only [recent, List.length_append, List.length_drop, List.length_singleton]
  split_ifs with hfull
  · rw [← List.drop_one, ← List.drop_append_of_le_length (by omega), List.drop_drop]
    congr 1
    omega
  · rw [← List.drop_append_of_le_length (by omega)]
    congr 1
    omega

theorem recent_length (k : ℕ) (accesses : List ℕ) : (recent k accesses).length = min accesses.length k := by
  rw [recent, List.length_drop]
  omega

def Tracked.node (k : ℕ) (t : Tracked) : FrameNode where
  history := (recent k t.accesses).map UInt64.ofNat
  isEvictable := t.evictable

theorem Tracked.node_access (k : ℕ) (t : Tracked) (a : ℕ) :
    Tracked.node k { t with accesses := t.accesses ++ [a] } =
      let history := (t.node k).history ++ [UInt64.ofNat a]
      { t.node k with history := if k < history.length then history.tail else history } := by
  simp only [Tracked.node, recent_concat, List.length_append, List.length_map, List.length_singleton]
  split_ifs
  · rw [List.map_tail, List.map_append, List.map_singleton]
  · rw [List.map_append, List.map_singleton]

structure Tracks (r : LruKReplacer) (l : Ledger) : Prop where
  timestamp : r.currentTimestamp = UInt64.ofNat l.clock
  lookup : ∀ f, r.entries.lookup f = (l.frames f).map (Tracked.node r.k)
  accessed : ∀ f t, l.frames f = some t → t.accesses ≠ [] ∧ ∀ a ∈ t.accesses, a ≤ l.clock
  apart : ∀ f g t u, l.frames f = some t → l.frames g = some u → f ≠ g → t.accesses.Disjoint u.accesses
  holds : ∃ known free, r.Holds known free ∧ known.card ≤ l.clock

namespace Tracks

theorem init (k : ℕ) : Tracks { k } {} where
  timestamp := rfl
  lookup f := AList.lookup_empty f
  accessed f t h := absurd h (by simp)
  apart f g t u h := absurd h (by simp)
  holds := ⟨∅, ∅, Holds.empty k, le_rfl⟩

variable {r : LruKReplacer} {l : Ledger} (h : Tracks r l)

include h

theorem update {f : FrameId} {o : Option Tracked} {r' : LruKReplacer} {l' : Ledger}
    (hframes : l'.frames = Function.update l.frames f o) (hclock : l.clock ≤ l'.clock)
    (hnew : ∀ t, o = some t → t.accesses ≠ [] ∧
      ∀ a ∈ t.accesses, (l.clock < a ∧ a ≤ l'.clock) ∨ ∃ t', l.frames f = some t' ∧ a ∈ t'.accesses)
    (htimestamp : r'.currentTimestamp = UInt64.ofNat l'.clock) (hk : r'.k = r.k)
    (hlookup : ∀ g, r'.entries.lookup g = if g = f then o.map (Tracked.node r.k) else r.entries.lookup g)
    (hholds : ∃ known free, r'.Holds known free ∧ known.card ≤ l'.clock) : Tracks r' l' := by
  have hapart : ∀ g t u, o = some t → l.frames g = some u → g ≠ f → t.accesses.Disjoint u.accesses := by
    intro g t u ht hu hg a hat hau
    rcases (hnew t ht).2 a hat with ⟨hlate, -⟩ | ⟨t', ht', hat'⟩
    · exact absurd ((h.accessed g u hu).2 a hau) (by omega)
    · exact h.apart g f u t' hu ht' hg hau hat'
  refine ⟨htimestamp, fun g => ?_, fun g t ht => ?_, fun g g' t u ht hu hne => ?_, hholds⟩
  · rw [hlookup, hframes, hk, Function.update_apply]
    split_ifs
    · rfl
    · exact h.lookup g
  · rw [hframes, Function.update_apply] at ht
    split_ifs at ht
    · refine ⟨(hnew t ht).1, fun a ha => ?_⟩
      rcases (hnew t ht).2 a ha with ⟨-, hle⟩ | ⟨t', ht', ha'⟩
      · exact hle
      · exact ((h.accessed f t' ht').2 a ha').trans hclock
    · exact ⟨(h.accessed g t ht).1, fun a ha => ((h.accessed g t ht).2 a ha).trans hclock⟩
  · rw [hframes, Function.update_apply] at ht hu
    split_ifs at ht hu with hg hg' hg'
    · exact absurd (hg.trans hg'.symm) hne
    · exact hapart g' t u ht hu hg'
    · exact (hapart g u t hu ht hg).symm
    · exact h.apart g g' t u ht hu hne

theorem recordAccess (f : FrameId) : Tracks (r.recordAccess f) (l.access f) := by
  obtain ⟨known, free, hholds, hcard⟩ := h.holds
  refine h.update rfl (Nat.le_succ _) ?_ ?_ rfl (fun g => ?_) ?_
  · rintro _ ⟨⟩
    refine ⟨List.append_ne_nil_of_right_ne_nil _ (List.cons_ne_nil _ _), fun a ha => ?_⟩
    rcases List.mem_append.mp ha with hold | hlast
    · right
      cases hf : l.frames f with
      | none => rw [hf] at hold; cases hold
      | some t => rw [hf] at hold; exact ⟨t, rfl, hold⟩
    · rw [List.mem_singleton.mp hlast]
      exact Or.inl ⟨Nat.lt_succ_self _, le_rfl⟩
  · change r.currentTimestamp + 1 = UInt64.ofNat (l.clock + 1)
    rw [h.timestamp, UInt64.ofNat_add]
    rfl
  · have hnode : (r.entries.lookup f).getD {} = Tracked.node r.k ((l.frames f).getD {}) := by
      rw [h.lookup f]
      cases l.frames f with
      | none => simp [Tracked.node, recent]
      | some t => rfl
    by_cases hg : g = f
    · rw [if_pos hg, hg, LruKReplacer.recordAccess, AList.lookup_insert, hnode, h.timestamp, Option.map_some,
        Tracked.node_access, UInt64.ofNat_add]
      rfl
    · rw [if_neg hg]
      exact AList.lookup_insert_ne hg
  · exact ⟨_, _, hholds.recordAccess f, (Finset.card_insert_le _ _).trans (Nat.succ_le_succ hcard)⟩

theorem setEvictable (f : FrameId) (b : Bool) : Tracks (r.setEvictable f b) (l.mark f b) := by
  obtain ⟨known, free, hholds, hcard⟩ := h.holds
  have hsame : (r.setEvictable f b).currentTimestamp = r.currentTimestamp ∧ (r.setEvictable f b).k = r.k := by
    rw [LruKReplacer.setEvictable]
    split
    · exact ⟨rfl, rfl⟩
    · split <;> exact ⟨rfl, rfl⟩
  refine h.update rfl le_rfl ?_ (hsame.1.trans h.timestamp) hsame.2 (fun g => ?_) ?_
  · intro t ht
    obtain ⟨t', ht', rfl⟩ := Option.map_eq_some_iff.mp ht
    exact ⟨(h.accessed f t' ht').1, fun a ha => Or.inr ⟨t', ht', ha⟩⟩
  · have hlookup := h.lookup f
    rw [LruKReplacer.setEvictable]
    cases hf : l.frames f with
    | none =>
      rw [hf, Option.map_none] at hlookup
      simp only [hlookup, Option.map_none]
      split_ifs with hg
      · rw [hg, hlookup]
      · rfl
    | some t =>
      rw [hf, Option.map_some] at hlookup
      simp only [hlookup, Option.map_some]
      by_cases hg : g = f
      · rw [if_pos hg, hg]
        split_ifs with hev
        · rw [hlookup, ← hev]
          rfl
        · exact AList.lookup_insert r.entries
        · exact AList.lookup_insert r.entries
      · rw [if_neg hg]
        split_ifs
        · rfl
        · exact AList.lookup_insert_ne hg
        · exact AList.lookup_insert_ne hg
  · by_cases hknown : f ∈ known
    · exact ⟨_, _, hholds.setEvictable hknown b, hcard⟩
    · have hnone := AList.lookup_eq_none.mpr (mt (hholds.mem_known f).mpr hknown)
      refine ⟨known, free, ?_, hcard⟩
      rw [LruKReplacer.setEvictable, hnone]
      exact hholds

theorem erase {f : FrameId} {known free : Finset FrameId} {size : UInt64}
    (hholds : Holds { r with entries := r.entries.erase f, currSize := size } known free)
    (hcard : known.card ≤ l.clock) :
    Tracks { r with entries := r.entries.erase f, currSize := size } (l.drop f) := by
  refine h.update rfl le_rfl (fun t ht => absurd ht.symm (Option.some_ne_none t)) h.timestamp rfl (fun g => ?_)
    ⟨known, free, hholds, hcard⟩
  split_ifs with hg
  · rw [hg]
    exact AList.lookup_erase _ _
  · exact AList.lookup_erase_ne hg

theorem remove (f : FrameId) : Tracks (r.remove f) (l.drop f) := by
  obtain ⟨known, free, hholds, hcard⟩ := h.holds
  have hremoved := hholds.remove f
  have hfewer : (known.erase f).card ≤ l.clock := (Finset.card_erase_le).trans hcard
  rw [LruKReplacer.remove] at hremoved ⊢
  cases hf : r.entries.lookup f with
  | none =>
    refine h.update rfl le_rfl (fun t ht => absurd ht.symm (Option.some_ne_none t)) h.timestamp rfl
      (fun g => ?_) h.holds
    split_ifs with hg
    · rw [hg, hf]
      rfl
    · rfl
  | some node =>
    rw [hf] at hremoved
    exact h.erase hremoved hfewer

end Tracks

theorem victim_cases (r : LruKReplacer) (order : IterationOrder FrameEntry) (front : UInt64) :
    r.victim order front = (none, r) ∨
      ∃ f, r.evictable f = true ∧
        r.victim order front = (some f, { r with entries := r.entries.erase f, currSize := r.currSize - 1 }) := by
  rw [victim]
  split
  · exact Or.inl rfl
  · have hfound := found_scan r front (order.visit r.entries.entries)
    generalize (order.visit r.entries.entries).foldl (r.scan front) {} = s at hfound ⊢
    cases hany : s.foundAny with
    | false => exact Or.inl (if_neg (by rw [hany]; decide))
    | true =>
      obtain ⟨node, hmem, hev⟩ := hfound.victim hany
      have hevictable := (r.evictable_iff _).mpr ⟨node, (order.perm _).mem_iff.mp hmem, hev⟩
      exact Or.inr ⟨s.victimId, hevictable, if_pos hany⟩

inductive Op
  | recordAccess (frameId : FrameId)
  | setEvictable (frameId : FrameId) (evictable : Bool)
  | remove (frameId : FrameId)
  | victim (order : IterationOrder FrameEntry) (front : UInt64)

def step (s : LruKReplacer × Ledger) : Op → LruKReplacer × Ledger
  | .recordAccess f => (s.1.recordAccess f, s.2.access f)
  | .setEvictable f b => (s.1.setEvictable f b, s.2.mark f b)
  | .remove f => (s.1.remove f, s.2.drop f)
  | .victim order front =>
    match s.1.victim order front with
    | (none, r) => (r, s.2)
    | (some f, r) => (r, s.2.drop f)

abbrev run (k : ℕ) (ops : List Op) : LruKReplacer × Ledger := Runs.run step ({ k }, {}) ops

namespace Tracks

variable {r : LruKReplacer} {l : Ledger}

theorem victim (h : Tracks r l) (order : IterationOrder FrameEntry) (front : UInt64) :
    Tracks (step (r, l) (.victim order front)).1 (step (r, l) (.victim order front)).2 := by
  rw [step]
  rcases victim_cases r order front with hnone | ⟨f, hf, hsome⟩
  · simp only [hnone]
    exact h
  · simp only [hsome]
    obtain ⟨known, free, hholds, hcard⟩ := h.holds
    have hfree : f ∈ free := (hholds.mem_free f).mpr hf
    exact h.erase (hholds.erase_entry f (hholds.size_erase hfree)) (Finset.card_erase_le.trans hcard)

theorem step {s : LruKReplacer × Ledger} (h : Tracks s.1 s.2) (op : Op) :
    Tracks (LruKReplacer.step s op).1 (LruKReplacer.step s op).2 := by
  cases op with
  | recordAccess f => exact h.recordAccess f
  | setEvictable f b => exact h.setEvictable f b
  | remove f => exact h.remove f
  | victim order front => exact h.victim order front

theorem run (k : ℕ) (ops : List Op) : Tracks (LruKReplacer.run k ops).1 (LruKReplacer.run k ops).2 := by
  induction ops using List.reverseRecOn with
  | nil => exact Tracks.init k
  | append_singleton ops op ih =>
    rw [LruKReplacer.run, Runs.run_snoc]
    exact ih.step op

end Tracks

theorem Tracked.node_short (k : ℕ) (t : Tracked) : (t.node k).history.length < k ↔ t.accesses.length < k := by
  rw [Tracked.node, List.length_map, recent_length]
  omega

theorem Tracked.first_mem {t : Tracked} (h : t.accesses ≠ []) : t.first ∈ t.accesses := by
  rw [Tracked.first, List.headD_eq_head?_getD, List.head?_eq_some_head h]
  exact List.head_mem h

theorem Tracked.kthLast_mem {k : ℕ} (hk : 0 < k) {t : Tracked} (h : t.accesses ≠ []) : t.kthLast k ∈ t.accesses := by
  have hlen := List.length_pos_iff.mpr h
  rw [Tracked.kthLast, List.getD_eq_getElem _ _ (by omega)]
  exact List.getElem_mem _

theorem Tracked.node_front {k : ℕ} (hk : 0 < k) {t : Tracked} (h : t.accesses ≠ []) (front : UInt64) :
    (t.node k).history.headD front = UInt64.ofNat (if t.accesses.length < k then t.first else t.kthLast k) := by
  have hlen := List.length_pos_iff.mpr h
  have hhead : (recent k t.accesses).head? = some (t.kthLast k) := by
    rw [recent, List.head?_drop, List.getElem?_eq_getElem (by omega), Tracked.kthLast,
      List.getD_eq_getElem _ _ (by omega)]
  rw [Tracked.node, List.headD_eq_head?_getD, List.head?_map, hhead, Option.map_some, Option.getD_some]
  split_ifs with hshort
  · rw [Tracked.kthLast, Nat.sub_eq_zero_of_le hshort.le, Tracked.first, List.headD_eq_head?_getD,
      List.head?_eq_getElem?]
    rfl
  · rfl

namespace Tracks

variable {r : LruKReplacer} {l : Ledger} (h : Tracks r l)

include h

theorem mem_entries {f : FrameId} {node : FrameNode} :
    ⟨f, node⟩ ∈ r.entries.entries ↔ ∃ t, l.frames f = some t ∧ t.node r.k = node := by
  rw [← AList.mem_lookup_iff, Option.mem_def, h.lookup f, Option.map_eq_some_iff]

theorem evictable_iff (f : FrameId) : r.evictable f = true ↔ ∃ t, l.Evictable f t := by
  rw [r.evictable_iff]
  constructor
  · rintro ⟨node, hmem, hev⟩
    obtain ⟨t, ht, rfl⟩ := h.mem_entries.mp hmem
    exact ⟨t, ht, hev⟩
  · rintro ⟨t, ht, hev⟩
    exact ⟨t.node r.k, h.mem_entries.mpr ⟨t, ht, rfl⟩, hev⟩

theorem evictable_frames (hclock : l.clock < 2 ^ 64) :
    ∃ free : Finset FrameId, (∀ f, f ∈ free ↔ ∃ t, l.Evictable f t) ∧ r.size.toNat = free.card := by
  obtain ⟨known, free, hholds, hcard⟩ := h.holds
  have hfree : free.card < 2 ^ 64 := (Finset.card_le_card hholds.free_subset).trans_lt (hcard.trans_lt hclock)
  refine ⟨free, fun f => (hholds.mem_free f).trans (h.evictable_iff f), ?_⟩
  rw [LruKReplacer.size, hholds.size, UInt64.toNat_ofNat_of_lt' hfree]

theorem size_eq (hclock : l.clock < 2 ^ 64) : r.size.toNat = {f | ∃ t, l.Evictable f t}.ncard := by
  obtain ⟨free, hmem, hsize⟩ := h.evictable_frames hclock
  have hset : {f | ∃ t, l.Evictable f t} = (free : Set FrameId) := Set.ext fun f => (hmem f).symm
  rw [hset, Set.ncard_coe_finset, hsize]

theorem rank_eq (hclock : l.clock < 2 ^ 64) (hk : 0 < r.k) (front : UInt64) {f : FrameId} {t : Tracked}
    (ht : l.frames f = some t) :
    r.rank front (t.node r.k) =
      if t.accesses.length < r.k then t.first else 2 ^ 64 + (2 ^ 64 - 1 - (l.clock - t.kthLast r.k)) := by
  obtain ⟨hne, hle⟩ := h.accessed f t ht
  have hfirst := hle _ (Tracked.first_mem hne)
  have hkth := hle _ (Tracked.kthLast_mem hk hne)
  simp only [rank, Tracked.node_short, Tracked.node_front hk hne, h.timestamp]
  split_ifs with hshort
  · exact UInt64.toNat_ofNat_of_lt' (hfirst.trans_lt hclock)
  · rw [Wraparound.toNat_sub_ofNat hkth (by omega)]

theorem isVictim (hclock : l.clock < 2 ^ 64) (hk : 0 < r.k) (front : UInt64) {f : FrameId} {t : Tracked}
    (ht : l.Evictable f t)
    (hleast : ∀ g u, l.Evictable g u → r.rank front (t.node r.k) ≤ r.rank front (u.node r.k)) : l.IsVictim r.k f := by
  refine ⟨t, ht, ?_⟩
  obtain ⟨hne, hle⟩ := h.accessed f t ht.1
  have hrank := h.rank_eq hclock hk front ht.1
  have hfirst := hle _ (Tracked.first_mem hne)
  by_cases hshort : t.accesses.length < r.k
  · refine Or.inl ⟨hshort, fun g u hu hushort hg => ?_⟩
    have hunique : t.first ≠ u.first := fun heq => h.apart f g t u ht.1 hu.1 hg.symm (Tracked.first_mem hne)
      (heq ▸ Tracked.first_mem (h.accessed g u hu.1).1)
    have hless := hleast g u hu
    rw [hrank, if_pos hshort, h.rank_eq hclock hk front hu.1, if_pos hushort] at hless
    omega
  · rw [if_neg hshort] at hrank
    have hlong : ∀ g u, l.Evictable g u → r.k ≤ u.accesses.length := by
      intro g u hu
      by_contra hushort
      have hufirst := (h.accessed g u hu.1).2 _ (Tracked.first_mem (h.accessed g u hu.1).1)
      have hless := hleast g u hu
      rw [hrank, h.rank_eq hclock hk front hu.1, if_pos (by omega)] at hless
      omega
    refine Or.inr ⟨hlong, fun g u hu hg => ?_⟩
    have hkth := hle _ (Tracked.kthLast_mem hk hne)
    have hukth := (h.accessed g u hu.1).2 _ (Tracked.kthLast_mem hk (h.accessed g u hu.1).1)
    have hunique : t.kthLast r.k ≠ u.kthLast r.k := fun heq => h.apart f g t u ht.1 hu.1 hg.symm
      (Tracked.kthLast_mem hk hne) (heq ▸ Tracked.kthLast_mem hk (h.accessed g u hu.1).1)
    have hless := hleast g u hu
    have hulong := hlong g u hu
    rw [hrank, h.rank_eq hclock hk front hu.1, if_neg (by omega)] at hless
    omega

theorem victim_spec (hclock : l.clock < 2 ^ 64) (hk : 0 < r.k) (order : IterationOrder FrameEntry) (front : UInt64) :
    (r.victim order front = (none, r) ∧ ∀ f t, ¬l.Evictable f t) ∨
      ∃ f, l.IsVictim r.k f ∧
        r.victim order front = (some f, { r with entries := r.entries.erase f, currSize := r.currSize - 1 }) := by
  by_cases hany : ∃ f t, l.Evictable f t
  · right
    obtain ⟨f, hf⟩ := hany
    obtain ⟨free, hmem, hcard⟩ := h.evictable_frames hclock
    have hsize : r.currSize ≠ 0 := by
      intro hzero
      rw [LruKReplacer.size, hzero] at hcard
      exact Finset.ne_empty_of_mem ((hmem f).mpr hf) (Finset.card_eq_zero.mp hcard.symm)
    obtain ⟨g, node, hmem, hev, hvictim, hleast⟩ := victim_least hsize ((h.evictable_iff f).mpr hf) order front
    obtain ⟨t, ht, rfl⟩ := h.mem_entries.mp hmem
    refine ⟨g, h.isVictim hclock hk front ⟨ht, hev⟩ fun g' u hu => ?_, hvictim⟩
    exact hleast ⟨g', u.node r.k⟩ (h.mem_entries.mpr ⟨u, hu.1, rfl⟩) hu.2
  · left
    rw [not_exists] at hany
    refine ⟨?_, fun f t ht => hany f ⟨t, ht⟩⟩
    rcases victim_cases r order front with hnone | ⟨f, hf, -⟩
    · exact hnone
    · exact absurd ((h.evictable_iff f).mp hf) (hany f)

end Tracks

theorem step_k (s : LruKReplacer × Ledger) (op : Op) : (step s op).1.k = s.1.k := by
  cases op with
  | recordAccess f => rfl
  | setEvictable f b =>
    change (s.1.setEvictable f b).k = s.1.k
    rw [setEvictable]
    split
    · rfl
    · split <;> rfl
  | remove f =>
    change (s.1.remove f).k = s.1.k
    rw [remove]
    split <;> rfl
  | victim order front =>
    rw [step]
    rcases victim_cases s.1 order front with hnone | ⟨f, -, hsome⟩
    · simp only [hnone]
    · simp only [hsome]

theorem run_k (k : ℕ) (ops : List Op) : (run k ops).1.k = k := by
  induction ops using List.reverseRecOn with
  | nil => rfl
  | append_singleton ops op ih => rw [run, Runs.run_snoc, step_k, ih]

theorem victim_selection {k : ℕ} (hk : 0 < k) {ops : List Op} (hclock : (run k ops).2.clock < 2 ^ 64) :
    (run k ops).1.size.toNat = {f | ∃ t, (run k ops).2.Evictable f t}.ncard ∧
      ∀ order front,
        (((run k ops).1.victim order front).1 = none ↔ ∀ f t, ¬(run k ops).2.Evictable f t) ∧
        (∀ f, ((run k ops).1.victim order front).1 = some f → (run k ops).2.IsVictim k f ∧
          ((run k ops).1.victim order front).2.entries = (run k ops).1.entries.erase f) ∧
        ∀ order' front', (run k ops).1.victim order' front' = (run k ops).1.victim order front := by
  have htracks := Tracks.run k ops
  have hpos : 0 < (run k ops).1.k := by rwa [run_k]
  refine ⟨htracks.size_eq hclock, fun order front => ?_⟩
  have hspec := htracks.victim_spec hclock hpos
  rw [run_k] at hspec
  generalize hr : (run k ops).1 = r at *
  generalize hl : (run k ops).2 = l at *
  rcases hspec order front with ⟨hnone, hempty⟩ | ⟨f, hf, hsome⟩
  · rw [hnone]
    refine ⟨iff_of_true rfl hempty, fun f h => absurd h.symm (Option.some_ne_none f), fun order' front' => ?_⟩
    rcases hspec order' front' with ⟨hnone', -⟩ | ⟨f, ⟨t, ht, -⟩, -⟩
    · exact hnone'
    · exact absurd ht (hempty f t)
  · rw [hsome]
    obtain ⟨t, ht, -⟩ := id hf
    refine ⟨iff_of_false (Option.some_ne_none f) fun h => h f t ht, ?_, fun order' front' => ?_⟩
    · rintro _ ⟨⟩
      exact ⟨hf, rfl⟩
    · rcases hspec order' front' with ⟨-, hempty⟩ | ⟨f', hf', hsome'⟩
      · exact absurd ht (hempty f t)
      · rw [hsome', hf'.unique hf]

def hammered (n : ℕ) (accesses : List ℕ) : LruKReplacer × Ledger :=
  ({ k := 2
     currentTimestamp := UInt64.ofNat n
     entries := AList.insert 0 ⟨[UInt64.ofNat (n - 1), UInt64.ofNat n], false⟩ ∅ },
    { clock := n, frames := Function.update (fun _ => none) 0 (some ⟨accesses, false⟩) })

theorem run_replicate_access {n : ℕ} (hn : 2 ≤ n) :
    ∃ accesses, run 2 (List.replicate n (Op.recordAccess 0)) = hammered n accesses := by
  induction n, hn using Nat.le_induction with
  | base =>
    refine ⟨[1, 2], ?_⟩
    change step (step ({ k := 2 }, {}) (.recordAccess 0)) (.recordAccess 0) = _
    simp only [step, hammered, recordAccess, Ledger.access, AList.lookup_insert, AList.lookup_empty, Option.getD_some,
      Option.getD_none, AList.insert_insert, Function.update_self, Function.update_idem]
    rfl
  | succ n hn ih =>
    obtain ⟨accesses, hrun⟩ := ih
    rw [run] at hrun
    rw [List.replicate_succ', run, Runs.run_snoc, hrun]
    simp only [step, hammered, recordAccess, Ledger.access, AList.lookup_insert, Option.getD_some, AList.insert_insert,
      Function.update_self, Function.update_idem, UInt64.ofNat_add n 1]
    exact ⟨_, rfl⟩

def lastCalls : List Op := [.recordAccess 1, .recordAccess 2, .setEvictable 1 true, .setEvictable 2 true]

def wrapping (n : ℕ) : List Op := List.replicate n (Op.recordAccess 0) ++ lastCalls

theorem run_wrapping {n : ℕ} (hn : 2 ≤ n) :
    ∃ accesses, run 2 (wrapping n) = Runs.run step (hammered n accesses) lastCalls := by
  obtain ⟨accesses, hrun⟩ := run_replicate_access hn
  refine ⟨accesses, ?_⟩
  rw [← hrun, run, wrapping, Runs.run_append]

theorem hammered_frames (n : ℕ) (accesses : List ℕ) :
    (Runs.run step (hammered n accesses) lastCalls).2.frames 1 = some ⟨[n + 1], true⟩ ∧
      (Runs.run step (hammered n accesses) lastCalls).2.frames 2 = some ⟨[n + 2], true⟩ := ⟨rfl, rfl⟩

theorem hammered_replacer (n : ℕ) (accesses : List ℕ) :
    (Runs.run step (hammered n accesses) lastCalls).1 =
      ((((hammered n []).1.recordAccess 1).recordAccess 2).setEvictable 1 true).setEvictable 2 true := rfl

/-- The access to frame 2 has the number 2 ^ 64, so its timestamp is 0. -/
theorem wrapping_evicts_later :
    ((run 2 (wrapping (2 ^ 64 - 2))).1.victim (IterationOrder.stored FrameEntry) 0).1 = some 2 ∧
      (run 2 (wrapping (2 ^ 64 - 2))).2.Evictable 1 ⟨[2 ^ 64 - 1], true⟩ ∧
      (run 2 (wrapping (2 ^ 64 - 2))).2.Evictable 2 ⟨[2 ^ 64], true⟩ ∧
      ¬(run 2 (wrapping (2 ^ 64 - 2))).2.IsVictim 2 2 := by
  obtain ⟨accesses, hrun⟩ := run_wrapping (n := 2 ^ 64 - 2) (by decide)
  obtain ⟨hone, htwo⟩ := hammered_frames (2 ^ 64 - 2) accesses
  rw [hrun]
  refine ⟨?_, ⟨hone, rfl⟩, ⟨htwo, rfl⟩, ?_⟩
  · rw [hammered_replacer]
    decide +kernel
  · rintro ⟨t, ht, hchoice⟩
    obtain rfl := Option.some.inj (ht.1.symm.trans htwo)
    rcases hchoice with ⟨-, hfirst⟩ | ⟨hlong, -⟩
    · exact absurd (hfirst 1 _ ⟨hone, rfl⟩ (by decide) (by decide)) (by decide)
    · exact absurd (hlong 1 _ ⟨hone, rfl⟩) (by decide)

def mixedDistances : List Op :=
  [.recordAccess 1, .recordAccess 2, .recordAccess 1, .recordAccess 3, .setEvictable 1 true, .setEvictable 2 true,
    .setEvictable 3 true]

theorem mixedDistances_selection :
    (run 2 mixedDistances).1.size.toNat = {f | ∃ t, (run 2 mixedDistances).2.Evictable f t}.ncard ∧
      ∀ order front,
        (((run 2 mixedDistances).1.victim order front).1 = none ↔ ∀ f t, ¬(run 2 mixedDistances).2.Evictable f t) ∧
        (∀ f, ((run 2 mixedDistances).1.victim order front).1 = some f → (run 2 mixedDistances).2.IsVictim 2 f ∧
          ((run 2 mixedDistances).1.victim order front).2.entries = (run 2 mixedDistances).1.entries.erase f) ∧
        ∀ order' front',
          (run 2 mixedDistances).1.victim order' front' = (run 2 mixedDistances).1.victim order front :=
  victim_selection (by decide) (by decide)

example : ((run 2 mixedDistances).1.victim (IterationOrder.stored FrameEntry) 0).1 = some 2 := by decide +kernel

end SystemLevel.Storage.LruKReplacer
