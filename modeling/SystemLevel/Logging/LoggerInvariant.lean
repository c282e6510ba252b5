import SystemLevel.Foundations.Wraparound
import SystemLevel.Logging.FastLogger

namespace SystemLevel.Logging

open Runs Wraparound

namespace Capacity

variable {capacity : Capacity}

def slot (capacity : Capacity) (k : ℕ) : UInt64 := UInt64.ofNat k &&& capacity.mask

theorem eq_two_pow (hpositive : capacity.value ≠ 0) : ∃ c < 64, capacity.value = UInt64.ofNat (2 ^ c) := by
  have hne : capacity.value.toNat ≠ 0 := fun h => hpositive (UInt64.toNat_inj.mp h)
  have hle : (1 : UInt64) ≤ capacity.value := by
    rw [UInt64.le_iff_toNat_le]
    exact Nat.one_le_iff_ne_zero.mpr hne
  have hand : capacity.value.toNat &&& (capacity.value.toNat - 1) = 0 := by
    have h := congrArg UInt64.toNat capacity.powerOfTwo
    rw [UInt64.toNat_and, UInt64.toNat_sub_of_le _ _ hle] at h
    exact h
  obtain ⟨c, hc⟩ := (Nat.and_sub_one_eq_zero_iff_isPowerOfTwo hne).mp hand
  refine ⟨c, ?_, ?_⟩
  · have hlt := capacity.value.toNat_lt
    rw [hc] at hlt
    exact (Nat.pow_lt_pow_iff_right (by decide)).mp hlt
  · rw [← hc, UInt64.ofNat_toNat]

theorem slot_ne {k n : ℕ} (hlt : k < n) (hnear : n < k + capacity.value.toNat) : capacity.slot k ≠ capacity.slot n := by
  obtain ⟨c, hc, hvalue⟩ := @eq_two_pow capacity (by rintro h; rw [h] at hnear; simp at hnear; omega)
  intro heq
  have hmod := congrArg UInt64.toNat heq
  rw [slot, slot, mask, hvalue, toNat_and_mask hc, toNat_and_mask hc] at hmod
  rw [hvalue, toNat_two_pow hc] at hnear
  exact mod_ne hlt hnear hmod

theorem full_iff {a b : ℕ} (h : a ≤ b) (hlt : b < 2 ^ 64) :
    capacity.value ≤ UInt64.ofNat b - UInt64.ofNat a ↔ a + capacity.value.toNat ≤ b := by
  rw [UInt64.le_iff_toNat_le, toNat_sub_ofNat h (by omega)]
  omega

end Capacity

namespace FastLogger

variable {threads : ℕ} (capacity : Capacity)

def ProducerReady (q : FastLogger threads) (released : ℕ) : ProducerPoint → Prop
  | .idle _ => True
  | .loadingTail _ _ => True
  | .loadingHead tail _ _ => ∃ k ≤ q.accepted.length, tail = UInt64.ofNat k
  | .writing tail _ _ => ∃ k ≤ q.accepted.length, tail = UInt64.ofNat k ∧
      (k = q.accepted.length → k < released + capacity.value.toNat)
  | .storing tail message => tail = q.tail ∧ q.accepted.length + 1 < 2 ^ 64 ∧
      q.accepted.length < released + capacity.value.toNat ∧ q.ring (capacity.slot q.accepted.length) = message

def FlusherReady (q : FastLogger threads) (released : ℕ) : Prop :=
  match q.flusher with
  | .idle _ => q.handed.length = released
  | .loadingTail head => head = q.head ∧ q.handed.length = released
  | .writing head tail _ => head = UInt64.ofNat q.handed.length ∧
      ∃ limit ≤ q.accepted.length, tail = UInt64.ofNat limit ∧ q.handed.length ≤ limit

def Alone (producers : Fin threads → ProducerPoint) : Prop :=
  ∀ one other, (producers one).stores = true → (producers other).stores = true → one = other

structure Inv (q : FastLogger threads) (released : ℕ) : Prop where
  tail_eq : q.tail = UInt64.ofNat q.accepted.length
  head_eq : q.head = UInt64.ofNat released
  counted : q.accepted.length < 2 ^ 64
  le_handed : released ≤ q.handed.length
  ordered : q.handed <+: q.accepted
  bounded : q.accepted.length ≤ released + capacity.value.toNat
  stored : ∀ k, released ≤ k → k < q.accepted.length → q.accepted[k]? = some (q.ring (capacity.slot k))
  producers : ∀ thread, q.ProducerReady capacity released (q.producers thread)
  alone : Alone q.producers
  flusher : q.FlusherReady released

variable {capacity} {q q' : FastLogger threads} {released : ℕ} {point : ProducerPoint}

theorem ProducerReady.release (h : q.ProducerReady capacity released point) {released' : ℕ}
    (hle : released ≤ released') : q.ProducerReady capacity released' point := by
  cases point with
  | writing tail level payload =>
    obtain ⟨k, hk, htail, hroom⟩ := h
    refine ⟨k, hk, htail, fun hlast => ?_⟩
    have := hroom hlast
    omega
  | storing tail message =>
    obtain ⟨htail, hcounted, hroom, hring⟩ := h
    exact ⟨htail, hcounted, by omega, hring⟩
  | _ => exact h

theorem ProducerReady.of_not_stores (h : q.ProducerReady capacity released point) (hpoint : point.stores = false)
    (hle : q.accepted.length ≤ q'.accepted.length) : q'.ProducerReady capacity released point := by
  cases point with
  | storing tail message => cases hpoint
  | idle returned => trivial
  | loadingTail level payload => trivial
  | loadingHead tail level payload =>
    obtain ⟨k, hk, htail⟩ := h
    exact ⟨k, hk.trans hle, htail⟩
  | writing tail level payload =>
    obtain ⟨k, hk, htail, hroom⟩ := h
    refine ⟨k, hk.trans hle, htail, fun hlast => hroom ?_⟩
    omega

theorem FlusherReady.accept (h : q.FlusherReady released) (hflusher : q'.flusher = q.flusher) (hhead : q'.head = q.head)
    (hhanded : q'.handed = q.handed) (hle : q.accepted.length ≤ q'.accepted.length) : q'.FlusherReady released := by
  unfold FlusherReady at h ⊢
  rw [hflusher, hhead, hhanded]
  cases hpoint : q.flusher with
  | idle returned =>
    rw [hpoint] at h
    exact h
  | loadingTail head =>
    rw [hpoint] at h
    exact h
  | writing head tail flushed =>
    rw [hpoint] at h
    obtain ⟨hh, limit, hlimit, htail, hw⟩ := h
    exact ⟨hh, limit, hlimit.trans hle, htail, hw⟩

theorem Alone.idle {producers : Fin threads → ProducerPoint} (h : Alone producers) (thread : Fin threads)
    (hpoint : point.stores = false) : Alone (Function.update producers thread point) := by
  intro one other hone hother
  rw [Function.update_apply] at hone hother
  split_ifs at hone hother
  · simp [hpoint] at hone
  · simp [hpoint] at hone
  · simp [hpoint] at hother
  · exact h one other hone hother

theorem alone_first {producers : Fin threads → ProducerPoint} (hnone : ∀ other, (producers other).stores = false)
    (thread : Fin threads) (point : ProducerPoint) : Alone (Function.update producers thread point) := by
  intro one other hone hother
  rw [Function.update_apply] at hone hother
  split_ifs at hone hother with hone' hother'
  · rw [hone', hother']
  all_goals simp [hnone] at hone hother

theorem producers_ready {thread : Fin threads} (hself : q'.ProducerReady capacity released point)
    (hothers : ∀ other, other ≠ thread → q'.ProducerReady capacity released (q.producers other)) :
    ∀ other, q'.ProducerReady capacity released (Function.update q.producers thread point other) := by
  intro other
  by_cases hother : other = thread
  · rw [hother, Function.update_self]
    exact hself
  · rw [Function.update_of_ne hother]
    exact hothers other hother

namespace Inv

variable (h : Inv capacity q released)

include h

theorem le_accepted : released ≤ q.accepted.length := h.le_handed.trans h.ordered.length_le

theorem setProducer (thread : Fin threads) (hready : q.ProducerReady capacity released point)
    (hstores : point.stores = false) : Inv capacity (q.setProducer thread point) released where
  tail_eq := h.tail_eq
  head_eq := h.head_eq
  counted := h.counted
  le_handed := h.le_handed
  ordered := h.ordered
  bounded := h.bounded
  stored := h.stored
  producers := producers_ready hready fun other _ => h.producers other
  alone := h.alone.idle thread hstores
  flusher := h.flusher

theorem log (thread : Fin threads) (level : Level) (payload : List UInt8) :
    Inv capacity (q.log thread level payload) released := by
  rw [FastLogger.log]
  split
  · split_ifs
    · exact h.setProducer thread trivial rfl
    · exact h.setProducer thread trivial rfl
  · exact h

section Producer

variable {thread : Fin threads} {tail : UInt64} {level : Level} {payload : List UInt8}

theorem loadHead (hproducer : q.producers thread = .loadingHead tail level payload)
    (hroom : ¬ capacity.value ≤ tail - q.head) :
    q.ProducerReady capacity released (.writing tail level payload) := by
  have hready := h.producers thread
  rw [hproducer] at hready
  obtain ⟨k, hk, rfl⟩ := hready
  refine ⟨k, hk, rfl, ?_⟩
  rintro rfl
  rw [h.head_eq, Capacity.full_iff h.le_accepted h.counted] at hroom
  omega

theorem room_of_writing (hproducer : q.producers thread = .writing tail level payload) (htail : tail = q.tail) :
    q.accepted.length < released + capacity.value.toNat := by
  have hready := h.producers thread
  rw [hproducer] at hready
  obtain ⟨k, hk, hkTail, hroom⟩ := hready
  have hlast : k = q.accepted.length := by
    rw [← ofNat_inj (by have := h.counted; omega) h.counted, ← hkTail, htail, h.tail_eq]
  rw [← hlast]
  exact hroom hlast

theorem counted_succ (hwrap : q.tail + 1 ≠ 0) : q.accepted.length + 1 < 2 ^ 64 := by
  by_contra hge
  apply hwrap
  have hlast : q.accepted.length + 1 = 2 ^ 64 := by
    have := h.counted
    omega
  rw [h.tail_eq]
  change UInt64.ofNat q.accepted.length + UInt64.ofNat 1 = 0
  rw [← UInt64.ofNat_add, hlast]
  rfl

theorem write (hproducer : q.producers thread = .writing tail level payload) (htail : tail = q.tail)
    (hwrap : tail + 1 ≠ 0) (hnone : ∀ other, (q.producers other).stores = false) (message : LogMessage) :
    Inv capacity
      { q.setProducer thread (.storing tail message) with
        ring := Function.update q.ring (tail &&& capacity.mask) message } released := by
  have hroom := h.room_of_writing hproducer htail
  subst htail
  have hslot : q.tail &&& capacity.mask = capacity.slot q.accepted.length := by rw [h.tail_eq, Capacity.slot]
  rw [hslot]
  refine ⟨h.tail_eq, h.head_eq, h.counted, h.le_handed, h.ordered, h.bounded, ?_, ?_, ?_, h.flusher⟩
  · intro k hk hlt
    have hne : capacity.slot k ≠ capacity.slot q.accepted.length := Capacity.slot_ne hlt (by omega)
    exact (h.stored k hk hlt).trans (congrArg some (Function.update_of_ne hne _ _).symm)
  · apply producers_ready
    · exact ⟨rfl, h.counted_succ hwrap, hroom, Function.update_self _ _ _⟩
    · intro other _
      exact (h.producers other).of_not_stores (hnone other) le_rfl
  · exact alone_first hnone thread _

theorem storeTail {message : LogMessage} (hproducer : q.producers thread = .storing tail message) :
    Inv capacity
      { q.setProducer thread (.idle (some true)) with tail := tail + 1, accepted := q.accepted ++ [message] }
      released := by
  have hready := h.producers thread
  rw [hproducer] at hready
  obtain ⟨rfl, hcounted, hroom, hring⟩ := hready
  have hlength : (q.accepted ++ [message]).length = q.accepted.length + 1 := by
    rw [List.length_append, List.length_singleton]
  have hle : q.accepted.length ≤ (q.accepted ++ [message]).length := by omega
  have hothers : ∀ other, other ≠ thread → (q.producers other).stores = false := by
    intro other hother
    by_contra hstores
    exact hother (h.alone other thread (by simpa using hstores) (by rw [hproducer]; rfl))
  refine ⟨?_, h.head_eq, by rw [hlength]; exact hcounted, h.le_handed, h.ordered.trans (List.prefix_append _ _),
    by rw [hlength]; exact hroom, ?_, ?_, h.alone.idle thread rfl, h.flusher.accept rfl rfl rfl hle⟩
  · rw [ofNat_length_concat, h.tail_eq]
  · intro k hk hlt
    rcases (Nat.lt_succ_iff.mp (hlt.trans_eq hlength)).lt_or_eq with hlt | rfl
    · rw [List.getElem?_append_left hlt]
      exact h.stored k hk hlt
    · rw [List.getElem?_append_right le_rfl, Nat.sub_self, ← hring]
      rfl
  · apply producers_ready
    · trivial
    · -- the others have not written an entry, so that only the number of messages matters to them
      intro other hother
      exact (h.producers other).of_not_stores (hothers other hother) hle

theorem goOn (now : UInt64) (hexclusive : q.Exclusive (.goOn thread now)) :
    Inv capacity (q.goOn capacity thread now) released := by
  rw [FastLogger.goOn]
  split
  · exact h
  · exact h.setProducer thread ⟨_, le_rfl, h.tail_eq⟩ rfl
  · next tail level payload hproducer =>
    split_ifs with hfull
    · have hdropped : q.ProducerReady capacity released (.idle (some false)) := trivial
      exact { h.setProducer thread hdropped rfl with flusher := h.flusher }
    · exact h.setProducer thread (h.loadHead hproducer hfull) rfl
  · next tail level payload hproducer =>
    simp only [Exclusive, hproducer] at hexclusive
    obtain ⟨htail, hwrap, hnone⟩ := hexclusive
    exact h.write hproducer htail hwrap hnone _
  · next tail message hproducer => exact h.storeTail hproducer

end Producer

theorem flush : Inv capacity q.flush released := by
  rw [FastLogger.flush]
  split
  · next returned hpoint =>
    have hflusher := h.flusher
    rw [FlusherReady, hpoint] at hflusher
    exact { h with flusher := ⟨rfl, hflusher⟩ }
  · exact h

theorem loadTail {head : UInt64} (hpoint : q.flusher = .loadingTail head) :
    Inv capacity { q with flusher := .writing head q.tail 0 } released := by
  have hflusher := h.flusher
  rw [FlusherReady, hpoint] at hflusher
  obtain ⟨rfl, hhanded⟩ := hflusher
  refine { h with flusher := ⟨?_, q.accepted.length, le_rfl, h.tail_eq, ?_⟩ }
  · rw [h.head_eq, hhanded]
  · exact h.ordered.length_le

section Flusher

variable {head tail flushed : UInt64} (hpoint : q.flusher = .writing head tail flushed)

include hpoint

theorem writeOut (hmore : head < tail) :
    Inv capacity
      { q with
        handed := q.handed ++ [q.ring (head &&& capacity.mask)]
        flusher := .writing (head + 1) tail (flushed + 1) } released := by
  have hflusher := h.flusher
  rw [FlusherReady, hpoint] at hflusher
  obtain ⟨rfl, limit, hlimit, rfl, hle⟩ := hflusher
  have hcounted := hlimit.trans_lt h.counted
  have hlt : q.handed.length < limit := (ofNat_lt_iff (hle.trans_lt hcounted) hcounted).mp hmore
  have hstored := h.stored q.handed.length h.le_handed (hlt.trans_le hlimit)
  have hlength : (q.handed ++ [q.ring (capacity.slot q.handed.length)]).length = q.handed.length + 1 := by
    rw [List.length_append, List.length_singleton]
  have hordered : q.handed ++ [q.ring (capacity.slot q.handed.length)] <+: q.accepted := by
    obtain ⟨rest, hrest⟩ := h.ordered
    rw [← hrest, List.getElem?_append_right le_rfl, Nat.sub_self] at hstored
    obtain ⟨later, rfl⟩ := List.head?_eq_some_iff.mp (List.head?_eq_getElem?.trans hstored)
    exact ⟨later, by rw [← hrest, List.append_assoc, List.singleton_append]⟩
  refine { h with
    ordered := hordered
    le_handed := h.le_handed.trans ((Nat.le_succ _).trans_eq hlength.symm)
    flusher := ⟨?_, limit, hlimit, rfl, ?_⟩ }
  · rw [ofNat_length_concat]
  · exact hlength.trans_le hlt

theorem storeHead :
    Inv capacity { q with head := head, flusher := .idle (some flushed) } q.handed.length := by
  have hflusher := h.flusher
  rw [FlusherReady, hpoint] at hflusher
  obtain ⟨rfl, -⟩ := hflusher
  have hle := h.le_handed
  refine { h with
    head_eq := rfl
    le_handed := le_rfl
    bounded := h.bounded.trans (by omega)
    stored := fun k hk => h.stored k (hle.trans hk)
    producers := fun thread => (h.producers thread).release hle
    flusher := rfl }

end Flusher

theorem goOnFlushing : ∃ released', Inv capacity (q.goOnFlushing capacity) released' := by
  rw [FastLogger.goOnFlushing]
  split
  · exact ⟨released, h⟩
  · next head hpoint => exact ⟨released, h.loadTail hpoint⟩
  · next head tail flushed hpoint =>
    split_ifs with hmore
    · exact ⟨released, h.writeOut hpoint hmore⟩
    · exact ⟨q.handed.length, h.storeHead hpoint⟩

theorem step {action : Action threads} (hexclusive : q.Exclusive action) :
    ∃ released', Inv capacity (q.step capacity action) released' := by
  cases action with
  | setLogLevel level => exact ⟨released, { h with flusher := h.flusher }⟩
  | log thread level payload => exact ⟨released, h.log thread level payload⟩
  | goOn thread now => exact ⟨released, h.goOn now hexclusive⟩
  | flush => exact ⟨released, h.flush⟩
  | goOnFlushing => exact h.goOnFlushing

end Inv

theorem inv_init : Inv capacity ({} : FastLogger threads) 0 where
  tail_eq := rfl
  head_eq := rfl
  counted := Nat.two_pow_pos 64
  le_handed := le_rfl
  ordered := List.prefix_refl _
  bounded := Nat.zero_le _
  stored := nofun
  producers := fun _ => trivial
  alone := nofun
  flusher := rfl

theorem inv_run {actions : List (Action threads)}
    (h : Lawful (fun past action => (run capacity past).Exclusive action) actions) :
    ∃ released, Inv capacity (run capacity actions) released := by
  refine h.induct (motive := fun _ q => ∃ released, Inv capacity q released) ⟨0, inv_init⟩ ?_
  rintro past action hexclusive ⟨released, hinv⟩
  exact hinv.step hexclusive

end FastLogger

end SystemLevel.Logging
