import SystemLevel.Ipc.SharedRingFifo
import SystemLevel.Trading.L2OrderBook

namespace SystemLevel.Trading

open Ipc SharedRing Runs

inductive MarketEventType
  | updateLevel
  | trade
  | clearBook
  deriving DecidableEq, Repr

structure MarketEvent (P : Type) where
  seqNum : UInt64 := 0
  timestampNs : UInt64 := 0
  price : P
  qty : UInt32 := 0
  orderCount : UInt32 := 0
  side : Side := .buy
  eventType : MarketEventType := .updateLevel
  deriving DecidableEq, Repr

namespace ShmMarketFeed

variable {P : Type}

def format (P : Type) : SlotFormat (MarketEvent P) (MarketEvent P) where
  size := 64
  write event _ := event

def calculateSize (P : Type) (capacity : UInt64) : UInt64 := (format P).totalSize capacity

def setup (P : Type) (capacity : UInt64) : RingSetup := (format P).createAndAttach capacity capacity

variable [BEq P] [LT P] [DecidableLT P]

def applyEvent (book : L2OrderBook P) (event : MarketEvent P) : L2OrderBook P :=
  book.updateLevel event.side event.price event.qty event.orderCount

structure Replay (P : Type) where
  ring : SharedRing (MarketEvent P) (MarketEvent P)
  book : L2OrderBook P

/-- The consumer applies an event in the step in which `consume` returns it: nobody else sees its book. -/
def Replay.step (capacity : UInt64) (s : Replay P) (action : Action (MarketEvent P)) : Replay P where
  ring := s.ring.step (format P) (setup P capacity) action
  book := (s.ring.returned action).foldl applyEvent s.book

abbrev run [Zero P] (capacity : UInt64) (memory : RingMemory (MarketEvent P))
    (actions : List (Action (MarketEvent P))) :
    Replay P :=
  Runs.run (Replay.step capacity) { ring := { memory }, book := .empty } actions

theorem run_ring [Zero P] (capacity : UInt64) (memory : RingMemory (MarketEvent P))
    (actions : List (Action (MarketEvent P))) :
    (run capacity memory actions).ring = SharedRing.run (format P) (setup P capacity) memory actions := by
  induction actions using List.reverseRecOn with
  | nil => rfl
  | append_singleton actions action ih =>
    rw [run, run_snoc, SharedRing.run, run_snoc]
    exact congrArg (SharedRing.step (format P) (setup P capacity) · action) ih

theorem step_book {s : Replay P} {book : L2OrderBook P} (h : s.book = s.ring.consumed.foldl applyEvent book)
    (capacity : UInt64) (action : Action (MarketEvent P)) :
    (s.step capacity action).book = (s.step capacity action).ring.consumed.foldl applyEvent book := by
  change (s.ring.returned action).foldl applyEvent s.book = (s.ring.step _ _ action).consumed.foldl applyEvent book
  rw [step_consumed, List.foldl_append, h]

theorem book_run [Zero P] (capacity : UInt64) (memory : RingMemory (MarketEvent P))
    (actions : List (Action (MarketEvent P))) :
    (run capacity memory actions).book = (run capacity memory actions).ring.consumed.foldl applyEvent .empty := by
  induction actions using List.reverseRecOn with
  | nil => rfl
  | append_singleton actions action ih =>
    rw [run, run_snoc]
    exact step_book ih capacity action

omit [BEq P] [LT P] [DecidableLT P] in
theorem suits {c : ℕ} (hc : c ≤ 57) : (setup P (UInt64.ofNat (2 ^ c))).Suits (format P) c := by
  have hlt : c < 64 := by omega
  have hpow : 2 ^ c ≤ 2 ^ 57 := Nat.pow_le_pow_right (by decide) hc
  have hslot : (format P).size.toNat = 64 := rfl
  have hsize : 128 + 2 ^ c * (format P).size.toNat ≤ (calculateSize P (UInt64.ofNat (2 ^ c))).toNat := by
    have hheader : headerSize.toNat = 128 := rfl
    rw [calculateSize, SlotFormat.totalSize, UInt64.toNat_add, UInt64.toNat_mul, Wraparound.toNat_two_pow hlt, hheader,
      hslot, Nat.mod_eq_of_lt (a := _ * _) (by omega), Nat.mod_eq_of_lt (by omega)]
  exact ⟨hlt, hslot ▸ Nat.succ_pos 63, rfl, rfl, hsize, hsize⟩

theorem book_replays_published [Zero P] (c : ℕ) (hc : c ≤ 57) (memory : RingMemory (MarketEvent P))
    (actions : List (Action (MarketEvent P))) :
    let s := run (UInt64.ofNat (2 ^ c)) memory actions
    s.ring.consumed.length ≤ s.ring.published.length ∧
      s.book = (s.ring.published.take s.ring.consumed.length).foldl applyEvent .empty ∧
      (∀ w event, s.ring.publisher = .loading w event →
        (s.step (UInt64.ofNat (2 ^ c)) .goOnPublishing).ring.publisher = .idle (some false) →
          s.ring.published.length = s.ring.consumed.length + 2 ^ c) ∧
      ∀ k, s.ring.consumed.length ≤ k → k < s.ring.published.length →
        s.ring.published[k]? = some ((format P).loadSlot (setup P (UInt64.ofNat (2 ^ c))) s.ring.memory
          ((format P).place (setup P (UInt64.ofNat (2 ^ c))) k)) := by
  intro s
  have hsetup := suits (P := P) hc
  have hfifo : s.ring.Fifo (format P) (setup P (UInt64.ofNat (2 ^ c))) c id id := by
    rw [show s.ring = _ from run_ring _ memory actions]
    exact fifo_run hsetup (fun _ _ => rfl) memory actions
  refine ⟨hfifo.consumed_le, ?_, ?_, ?_⟩
  · have hordered := hfifo.ordered
    rw [List.map_id, List.map_id, List.prefix_iff_eq_take] at hordered
    rw [← hordered]
    exact book_run _ memory actions
  · intro w event hpublisher hfalse
    refine (hfifo.full_iff hsetup hpublisher).mp ?_
    by_contra hroom
    change (s.ring.goOnPublishing _ _).publisher = _ at hfalse
    rw [goOnPublishing, hpublisher] at hfalse
    simp only at hfalse
    rw [if_neg hroom] at hfalse
    cases hfalse
  · intro k hk hlt
    have hstored := hfifo.stored k hk hlt
    rw [List.map_id] at hstored
    rw [hsetup.loadSlot_eq]
    exact hstored

def quiet : MarketEvent ℕ := { price := 0 }

def blank : RingMemory (MarketEvent ℕ) where
  file _ := quiet
  publisher _ := quiet
  consumer _ := quiet

def publishAndConsume (event : MarketEvent ℕ) : List (Action (MarketEvent ℕ)) :=
  [.publish event, .goOnPublishing, .goOnPublishing, .goOnPublishing, .consume, .goOnConsuming, .goOnConsuming,
    .goOnConsuming]

def offer : MarketEvent ℕ := { price := 5, qty := 1, orderCount := 1, side := .sell }

theorem book_replays_published_of_offer :
    let s := run 2 blank (publishAndConsume offer ++ [.publish offer, .goOnPublishing, .goOnPublishing,
      .goOnPublishing])
    s.ring.published = [offer, offer] ∧ s.ring.consumed.length = 1 ∧
      s.book = (s.ring.published.take s.ring.consumed.length).foldl applyEvent .empty := by
  refine ⟨by decide +kernel, by decide +kernel, ?_⟩
  exact (book_replays_published 1 (by decide) blank _).2.1

/-- The sizes of both mappings overflow to 128 bytes, so that the slot 62 is behind their only page. -/
theorem event_lost_behind_mapping :
    let s := run (UInt64.ofNat (2 ^ 58)) blank
      ((List.replicate 62 quiet ++ [offer]).flatMap publishAndConsume)
    s.ring.published[62]? = some offer ∧ s.ring.consumed.length = 63 ∧ s.book.bestAsk = none ∧
      (s.ring.published.foldl applyEvent .empty).bestAsk = some { price := 5, qty := 1, orderCount := 1 } := by
  decide +kernel

end ShmMarketFeed

end SystemLevel.Trading
