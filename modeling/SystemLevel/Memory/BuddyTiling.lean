import SystemLevel.Foundations.DyadicTilings
import SystemLevel.Foundations.Potentials
import SystemLevel.Memory.BuddyAllocator

namespace SystemLevel.Memory.BuddyAllocator

variable {a : BuddyAllocator} {held : Multiset DyadicBlock} {order offset : ℕ}

def block (order offset : ℕ) : DyadicBlock := ⟨12 + order, offset⟩

theorem block_size (order offset : ℕ) : (block order offset).size = orderToSize order := by
  rw [DyadicBlock.size, block, orderToSize, Nat.shiftLeft_eq, Nat.pow_add]
  rfl

theorem block_buddy (order offset : ℕ) : (block order offset).buddy = block order (offset ^^^ orderToSize order) := by
  rw [DyadicBlock.buddy, block_size]
  rfl

def freeBlocks (a : BuddyAllocator) : Multiset DyadicBlock :=
  ∑ order ∈ Finset.range (maxOrder + 1), (a.freeLists order : Multiset ℕ).map (block order)

theorem mem_freeBlocks {b : DyadicBlock} :
    b ∈ a.freeBlocks ↔ ∃ order ≤ maxOrder, ∃ offset ∈ a.freeLists order, block order offset = b := by
  simp only [freeBlocks, Multiset.mem_sum, Finset.mem_range, Nat.lt_succ_iff, Multiset.mem_map, Multiset.mem_coe]

theorem setList_freeLists (a : BuddyAllocator) (order other : ℕ) (blocks : List ℕ) :
    (a.setList order blocks).freeLists other = if other = order then blocks else a.freeLists other :=
  Function.update_apply _ _ _ _

theorem freeBlocks_setList (horder : order ≤ maxOrder) (blocks : List ℕ) :
    (a.setList order blocks).freeBlocks + (a.freeLists order : Multiset ℕ).map (block order) =
      a.freeBlocks + (blocks : Multiset ℕ).map (block order) := by
  have hmem : order ∈ Finset.range (maxOrder + 1) := Finset.mem_range.mpr (Nat.lt_succ_of_le horder)
  have hsum := @Potentials.sum_add_share ℕ _ _ _ _ order hmem
    (fun o => ((a.setList order blocks).freeLists o : Multiset ℕ).map (block o))
    (fun o => (a.freeLists o : Multiset ℕ).map (block o))
    fun o ho => by rw [setList_freeLists, if_neg ho]
  rwa [setList_freeLists, if_pos rfl] at hsum

theorem freeBlocks_pushBack (horder : order ≤ maxOrder) (offset : ℕ) :
    (a.pushBack order offset).freeBlocks = block order offset ::ₘ a.freeBlocks := by
  have hset := freeBlocks_setList (a := a) horder (a.freeLists order ++ [offset])
  rw [← Multiset.coe_add, Multiset.map_add, ← add_assoc, add_right_comm] at hset
  have hpush := add_right_cancel hset
  rw [pushBack, hpush, add_comm]
  rfl

theorem freeBlocks_taken (horder : order ≤ maxOrder) {blocks : List ℕ}
    (htaken : (a.freeLists order).Perm (offset :: blocks)) :
    a.freeBlocks = block order offset ::ₘ (a.setList order blocks).freeBlocks := by
  have hset := freeBlocks_setList (a := a) horder blocks
  rw [Multiset.coe_eq_coe.mpr htaken, ← Multiset.cons_coe, Multiset.map_cons, ← Multiset.singleton_add,
    ← add_assoc] at hset
  have htake := add_right_cancel hset
  rw [← htake, add_comm, Multiset.singleton_add]

structure Tiled (a : BuddyAllocator) (held : Multiset DyadicBlock) : Prop where
  tiles : Tiles (a.freeBlocks + held) poolSize
  count : UInt64.ofNat (a.freeBlocks + held).card = 1 + a.splitCount - a.mergeCount

theorem ofNat_one : UInt64.ofNat 1 = 1 := rfl

namespace Tiled

theorem construct : Tiled BuddyAllocator.construct 0 := by
  have hfree : BuddyAllocator.construct.freeBlocks + 0 = {⟨20, 0⟩} := by decide
  exact ⟨hfree ▸ Tiles.whole 20, hfree ▸ rfl⟩

theorem pushBack (h : Tiled a (block order offset ::ₘ held)) (horder : order ≤ maxOrder) :
    Tiled (a.pushBack order offset) held := by
  have heq : (a.pushBack order offset).freeBlocks + held = a.freeBlocks + block order offset ::ₘ held := by
    rw [freeBlocks_pushBack horder, Multiset.cons_add, Multiset.add_cons]
  exact ⟨heq ▸ h.tiles, heq ▸ h.count⟩

theorem take (h : Tiled a held) (horder : order ≤ maxOrder) {blocks : List ℕ}
    (htaken : (a.freeLists order).Perm (offset :: blocks)) :
    Tiled (a.setList order blocks) (block order offset ::ₘ held) := by
  have heq : (a.setList order blocks).freeBlocks + block order offset ::ₘ held = a.freeBlocks + held := by
    rw [freeBlocks_taken horder htaken, Multiset.cons_add, Multiset.add_cons]
  exact ⟨heq ▸ h.tiles, heq ▸ h.count⟩

theorem split (h : Tiled a (block (order + 1) offset ::ₘ held)) :
    Tiled { a with splitCount := a.splitCount + 1 }
      (block order (offset + orderToSize order) ::ₘ block order offset ::ₘ held) := by
  obtain ⟨htiles, hcount⟩ := h
  rw [Multiset.add_cons] at htiles hcount
  have hsize : orderToSize order = 2 ^ (12 + order) := (block_size order offset).symm
  have heq : a.freeBlocks + block order (offset + orderToSize order) ::ₘ block order offset ::ₘ held =
      block order offset ::ₘ block order (offset + orderToSize order) ::ₘ (a.freeBlocks + held) := by
    rw [Multiset.add_cons, Multiset.add_cons, Multiset.cons_swap]
  refine ⟨?_, ?_⟩
  · change Tiles (a.freeBlocks + _) poolSize
    rw [heq, hsize]
    exact htiles.split
  · change UInt64.ofNat (a.freeBlocks + _).card = 1 + (a.splitCount + 1) - a.mergeCount
    rw [Multiset.card_cons] at hcount
    rw [heq, Multiset.card_cons, Multiset.card_cons, UInt64.ofNat_add, hcount, ofNat_one]
    grind

theorem merge (h : Tiled a (block order (offset ^^^ orderToSize order) ::ₘ block order offset ::ₘ held)) :
    Tiled { a with mergeCount := a.mergeCount + 1 }
      (block (order + 1) (min offset (offset ^^^ orderToSize order)) ::ₘ held) := by
  obtain ⟨htiles, hcount⟩ := h
  have heq : a.freeBlocks + block order (offset ^^^ orderToSize order) ::ₘ block order offset ::ₘ held =
      block order offset ::ₘ (block order offset).buddy ::ₘ (a.freeBlocks + held) := by
    rw [Multiset.add_cons, Multiset.add_cons, Multiset.cons_swap, block_buddy]
  have hparent : (block order offset).parent = block (order + 1) (min offset (offset ^^^ orderToSize order)) := by
    rw [DyadicBlock.parent, block_buddy]
    rfl
  rw [heq] at htiles hcount
  refine ⟨?_, ?_⟩
  · change Tiles (a.freeBlocks + _) poolSize
    rw [Multiset.add_cons, ← hparent]
    exact htiles.merge
  · change UInt64.ofNat (a.freeBlocks + _).card = 1 + a.splitCount - (a.mergeCount + 1)
    rw [Multiset.card_cons, UInt64.ofNat_add, ofNat_one, Multiset.card_cons] at hcount
    rw [Multiset.add_cons, Multiset.card_cons, sub_add_eq_sub_sub, ← hcount, add_sub_cancel_right]

end Tiled

end SystemLevel.Memory.BuddyAllocator
