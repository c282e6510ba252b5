import SystemLevel.Memory.BuddyLoops

namespace SystemLevel.Memory

open Runs

open BuddyAllocator

namespace Heap

def heldBlocks (live : List (ℕ × ℕ)) : Multiset DyadicBlock :=
  (live : Multiset (ℕ × ℕ)).map fun request => block (sizeToOrder request.2) request.1

def liveBytes (live : List (ℕ × ℕ)) : ℕ := (live.map fun request => orderToSize (sizeToOrder request.2)).sum

structure Sound (h : Heap) : Prop where
  tiled : Tiled h.allocator (heldBlocks h.live)
  buddies : h.allocator.NoFreeBuddies
  bytes : h.allocator.allocatedBytes = UInt64.ofNat (liveBytes h.live)
  fits : ∀ request ∈ h.live, 0 < request.2 ∧ request.2 ≤ orderToSize (sizeToOrder request.2)

namespace Sound

variable {h : Heap}

theorem allocate (hs : h.Sound) (bytes : ℕ) : (h.step (.allocate bytes)).Sound := by
  rcases h.allocator.allocate_cases bytes with
    hnone | ⟨offset, current, blocks, hpos, hle, horder, hmax, hlist, hbelow, hsome⟩
  · simp only [step, hnone, Option.map_none, Option.toList_none, List.append_nil]
    exact hs
  · have hperm : (h.allocator.freeLists current).Perm (offset :: blocks) := by
      rw [hlist]
      exact List.perm_append_singleton offset blocks
    have hheld : heldBlocks (h.live ++ [(offset, bytes)]) = block (sizeToOrder bytes) offset ::ₘ heldBlocks h.live := by
      rw [heldBlocks, ← Multiset.coe_add, Multiset.map_add, add_comm]
      rfl
    simp only [step, hsome, Option.map_some, Option.toList_some]
    refine ⟨?_, ?_, ?_, fun request hrequest => ?_⟩
    · obtain ⟨htiles, hcount⟩ := (hs.tiled.take hmax hperm).splitDown horder hmax
      rw [hheld]
      exact ⟨htiles, hcount⟩
    · have hpopped : (h.allocator.setList current blocks).NoFreeBuddies := by
        apply hs.buddies.setList
        intro other hother
        rw [hlist]
        exact List.mem_append_left _ hother
      refine hpopped.splitDown fun o hle ho => ?_
      rw [setList_freeLists, if_neg ho.ne]
      exact hbelow o hle ho
    · rw [hs.bytes, liveBytes, liveBytes, List.map_append, List.sum_append, UInt64.ofNat_add]
      simp
    · rcases List.mem_append.mp hrequest with hrequest | hrequest
      · exact hs.fits request hrequest
      · rw [List.mem_singleton.mp hrequest]
        exact ⟨hpos, le_sizeToOrder hle⟩

theorem deallocate (hs : h.Sound) {offset bytes : ℕ} (hlive : (offset, bytes) ∈ h.live) :
    (h.step (.deallocate (some offset) bytes)).Sound := by
  have hperm := List.perm_cons_erase hlive
  have hheld : heldBlocks h.live = block (sizeToOrder bytes) offset ::ₘ heldBlocks (h.live.erase (offset, bytes)) := by
    rw [heldBlocks, Multiset.coe_eq_coe.mpr hperm]
    rfl
  have hbytes : liveBytes h.live = orderToSize (sizeToOrder bytes) + liveBytes (h.live.erase (offset, bytes)) := by
    rw [liveBytes, (hperm.map _).sum_eq]
    rfl
  have horder := sizeToOrder_le bytes
  have hzero : bytes ≠ 0 := (hs.fits _ hlive).1.ne'
  simp only [step, BuddyAllocator.deallocate, if_neg hzero, if_neg horder.not_gt]
  generalize hgiven : { h.allocator with
    allocatedBytes := h.allocator.allocatedBytes - UInt64.ofNat (orderToSize (sizeToOrder bytes)) } = given
  have htiled : Tiled given (block (sizeToOrder bytes) offset ::ₘ heldBlocks (h.live.erase (offset, bytes))) := by
    rw [← hgiven, ← hheld]
    exact ⟨hs.tiled.tiles, hs.tiled.count⟩
  have hbuddies : given.NoFreeBuddies := hgiven ▸ hs.buddies
  refine ⟨htiled.coalesce (by omega), hbuddies.coalesce (by omega), ?_, fun request hrequest => ?_⟩
  · rw [coalesce_allocatedBytes, ← hgiven, hs.bytes, hbytes, UInt64.ofNat_add, add_sub_cancel_left]
  · exact hs.fits request (List.mem_of_mem_erase hrequest)

theorem step (hs : h.Sound) {past : List Op} {op : Op} (hrun : h = run past) (hop : Returnable past op) :
    (h.step op).Sound := by
  cases op with
  | allocate bytes => exact hs.allocate bytes
  | deallocate ptr bytes =>
    cases ptr with
    | none => exact hs
    | some offset => exact hs.deallocate (hrun ▸ hop)

end Sound

theorem sound_run {ops : List Op} (h : Lawful Returnable ops) : (run ops).Sound := by
  refine Lawful.induct (motive := fun _ heap => Sound heap) ?_ (fun ops op hop hs => hs.step rfl hop) h
  exact ⟨Tiled.construct, NoFreeBuddies.construct, rfl, fun _ hrequest => by cases hrequest⟩

theorem freeLists_of_whole {a : BuddyAllocator} (h : a.freeBlocks = {block maxOrder 0}) :
    ∀ order ≤ maxOrder, a.freeLists order = if order = maxOrder then [0] else [] := by
  have hmem : ∀ order ≤ maxOrder, ∀ offset ∈ a.freeLists order, order = maxOrder ∧ offset = 0 := by
    intro order horder offset hoffset
    have hfree := mem_freeBlocks.mpr ⟨order, horder, offset, hoffset, rfl⟩
    rw [h, Multiset.mem_singleton, block, block, DyadicBlock.mk.injEq] at hfree
    exact ⟨by omega, hfree.2⟩
  intro order horder
  split_ifs with he
  · subst he
    obtain ⟨order, horder, offset, hoffset, -⟩ := mem_freeBlocks.mp (h ▸ Multiset.mem_singleton_self (block maxOrder 0))
    obtain ⟨rfl, rfl⟩ := hmem order horder offset hoffset
    cases hlist : a.freeLists maxOrder with
    | nil => exact absurd hoffset (by simp [hlist])
    | cons head rest =>
      have hhead := (hmem maxOrder le_rfl head (by simp [hlist])).2
      have htaken := freeBlocks_taken le_rfl (List.Perm.of_eq hlist)
      rw [h, hhead, ← Multiset.cons_zero, Multiset.cons_inj_right] at htaken
      have hrest : rest = [] := by
        rw [List.eq_nil_iff_forall_not_mem]
        intro other hother
        have hfree : block maxOrder other ∈ (a.setList maxOrder rest).freeBlocks :=
          mem_freeBlocks.mpr ⟨maxOrder, le_rfl, other, by rwa [setList_freeLists, if_pos rfl], rfl⟩
        rw [← htaken] at hfree
        exact Multiset.notMem_zero _ hfree
      rw [hhead, hrest]
  · rw [List.eq_nil_iff_forall_not_mem]
    exact fun offset hoffset => he (hmem order horder offset hoffset).1

theorem Sound.buddy_notMem {h : Heap} (hs : h.Sound) {b : DyadicBlock} (hb : b ∈ h.allocator.freeBlocks)
    (hlt : b.exponent < 12 + maxOrder) : b.buddy ∉ h.allocator.freeBlocks := by
  intro hbuddy
  obtain ⟨order, -, offset, hoffset, rfl⟩ := mem_freeBlocks.mp hb
  rw [block_buddy] at hbuddy
  obtain ⟨order', -, offset', hoffset', heq⟩ := mem_freeBlocks.mp hbuddy
  have hlt : order < maxOrder := Nat.lt_of_add_lt_add_left hlt
  rw [block, block, DyadicBlock.mk.injEq] at heq
  obtain rfl := Nat.add_left_cancel heq.1
  exact hs.buddies order' hlt offset hoffset (heq.2 ▸ hoffset')

theorem Sound.whole {h : Heap} (hs : h.Sound) (hlive : h.live = []) :
    h.allocator.freeBlocks = {block maxOrder 0} := by
  have htiles : Tiles h.allocator.freeBlocks (2 ^ 20) := by
    have htiles := hs.tiled.tiles
    rwa [hlive, heldBlocks, Multiset.coe_nil, Multiset.map_zero, add_zero] at htiles
  apply htiles.eq_whole
  · intro b hb
    obtain ⟨order, horder, offset, -, rfl⟩ := mem_freeBlocks.mp hb
    exact Nat.add_le_add_left horder 12
  · exact fun b hb hlt => hs.buddy_notMem hb hlt

theorem heldBlocks_sum (live : List (ℕ × ℕ)) : ((heldBlocks live).map DyadicBlock.size).sum = liveBytes live := by
  rw [heldBlocks, liveBytes, Multiset.map_map, Multiset.map_coe, Multiset.sum_coe]
  simp only [Function.comp_def, block_size]

theorem arena_partitioned {ops : List Op} (h : Lawful Returnable ops) :
    let heap := run ops
    let a := heap.allocator
    let blocks := a.freeBlocks + heldBlocks heap.live
    (blocks.Nodup ∧ (∀ x, x < poolSize ↔ ∃ b ∈ blocks, b.Contains x) ∧
        ∀ b ∈ blocks, ∀ c ∈ blocks, ∀ x, b.Contains x → c.Contains x → b = c) ∧
      (∀ order ≤ maxOrder, ∀ offset ∈ a.freeLists order, orderToSize order ∣ offset) ∧
      (∀ request ∈ heap.live, orderToSize (sizeToOrder request.2) ∣ request.1 ∧
        request.2 ≤ orderToSize (sizeToOrder request.2)) ∧
      (∀ order < maxOrder, ∀ offset ∈ a.freeLists order, offset ^^^ orderToSize order ∉ a.freeLists order) ∧
      a.allocatedBytes.toNat = liveBytes heap.live ∧
      blocks.card = (1 + a.splitCount - a.mergeCount).toNat ∧
      (heap.live = [] → ∀ order ≤ maxOrder, a.freeLists order = if order = maxOrder then [0] else []) := by
  have hs := sound_run h
  have htiles := hs.tiled.tiles
  have hsum := htiles.sum_size
  have hcard := htiles.card_le
  intro heap a blocks
  refine ⟨⟨htiles.nodup, fun x => ⟨htiles.exists_contains, fun ⟨b, hb, hx⟩ => htiles.lt_of_contains hb hx⟩,
    fun b hb c hc x => htiles.eq_of_contains hb hc⟩, fun order horder offset hoffset => ?_,
    fun request hrequest => ⟨?_, (hs.fits request hrequest).2⟩, hs.buddies, ?_, ?_,
    fun hlive => freeLists_of_whole (hs.whole hlive)⟩
  · rw [← block_size order offset]
    exact htiles.aligned _ (Multiset.mem_add.mpr (Or.inl (mem_freeBlocks.mpr ⟨order, horder, offset, hoffset, rfl⟩)))
  · rw [← block_size _ request.1]
    exact htiles.aligned _ (Multiset.mem_add.mpr (Or.inr (Multiset.mem_map_of_mem _ hrequest)))
  · rw [Multiset.map_add, Multiset.sum_add, heldBlocks_sum] at hsum
    rw [hs.bytes, UInt64.toNat_ofNat', Nat.mod_eq_of_lt]
    have hpool : poolSize < 2 ^ 64 := by decide
    omega
  · rw [← hs.tiled.count, UInt64.toNat_ofNat', Nat.mod_eq_of_lt]
    exact hcard.trans_lt (by decide)

def releasedOutOfOrder : List Op :=
  [.allocate 5000, .allocate 4096, .allocate 1, .deallocate (some 8192) 4096, .deallocate (some 0) 5000,
    .deallocate (some 12288) 1]

theorem arena_whole_of_releasedOutOfOrder :
    (run releasedOutOfOrder).live = [] ∧ (run releasedOutOfOrder).allocator.freeLists maxOrder = [0] := by
  have hlawful : Lawful Returnable releasedOutOfOrder := by decide
  have hlive : (run releasedOutOfOrder).live = [] := by decide
  exact ⟨hlive, (arena_partitioned hlawful).2.2.2.2.2.2 hlive maxOrder le_rfl⟩

def Vacant (live : List (ℕ × ℕ)) (order offset : ℕ) : Prop :=
  orderToSize order ∣ offset ∧ offset + orderToSize order ≤ poolSize ∧
    ∀ request ∈ live, request.1 + orderToSize (sizeToOrder request.2) ≤ offset ∨
      offset + orderToSize order ≤ request.1

theorem Vacant.not_held {live : List (ℕ × ℕ)} {order offset : ℕ} (h : Vacant live order offset) {c : DyadicBlock}
    (hc : c ∈ heldBlocks live) {x : ℕ} (hcx : c.Contains x) : ¬ (block order offset).Contains x := by
  obtain ⟨request, hrequest, rfl⟩ := Multiset.mem_map.mp hc
  have hapart := h.2.2 request hrequest
  rw [DyadicBlock.Contains, block_size, block] at hcx ⊢
  simp only at hcx ⊢
  omega

theorem Sound.free_apart {h : Heap} (hs : h.Sound) {order offset : ℕ} (horder : order ≤ maxOrder)
    (hfree : offset ∈ h.allocator.freeLists order) : Vacant h.live order offset := by
  have htiles := hs.tiled.tiles
  have hmem : block order offset ∈ h.allocator.freeBlocks := mem_freeBlocks.mpr ⟨order, horder, offset, hfree, rfl⟩
  have hblock : block order offset ∈ h.allocator.freeBlocks + heldBlocks h.live := Multiset.mem_add.mpr (Or.inl hmem)
  refine ⟨?_, ?_, fun request hrequest => ?_⟩
  · rw [← block_size order offset]
    exact htiles.aligned _ hblock
  · rw [← block_size order offset]
    exact htiles.inside hblock
  · have hheld : block (sizeToOrder request.2) request.1 ∈ heldBlocks h.live := Multiset.mem_map_of_mem _ hrequest
    by_contra hoverlap
    have hboth : ∀ b o, (block o b).Contains (max offset request.1) ↔
        b ≤ max offset request.1 ∧ max offset request.1 < b + orderToSize o := by
      intro b o
      rw [DyadicBlock.Contains, block_size]
      rfl
    have hpos := orderToSize_pos order
    have hpos' := orderToSize_pos (sizeToOrder request.2)
    have hsame := htiles.eq_of_contains hblock (Multiset.mem_add.mpr (Or.inr hheld))
      ((hboth offset order).mpr (by omega)) ((hboth request.1 _).mpr (by omega))
    have hdisjoint := (Multiset.nodup_add.mp htiles.nodup).2.2
    exact Multiset.disjoint_left.mp hdisjoint hmem (hsame ▸ hheld)

theorem Vacant.mono {live : List (ℕ × ℕ)} {order current offset : ℕ} (h : Vacant live current offset)
    (hle : order ≤ current) : Vacant live order offset := by
  have hdvd : orderToSize order ∣ orderToSize current := by
    rw [orderToSize, orderToSize, Nat.shiftLeft_eq, Nat.shiftLeft_eq]
    exact Nat.mul_dvd_mul_left _ (Nat.pow_dvd_pow 2 hle)
  have hsize := Nat.le_of_dvd (orderToSize_pos current) hdvd
  refine ⟨hdvd.trans h.1, by have := h.2.1; omega, fun request hrequest => ?_⟩
  have hapart := h.2.2 request hrequest
  omega

theorem Sound.exists_free {h : Heap} (hs : h.Sound) {order offset : ℕ} (horder : order ≤ maxOrder)
    (hvacant : Vacant h.live order offset) : ∃ o, order ≤ o ∧ o ≤ maxOrder ∧ h.allocator.freeLists o ≠ [] := by
  have htiles := hs.tiled.tiles
  have hfree : ∀ {b : DyadicBlock} {x}, b ∈ h.allocator.freeBlocks + heldBlocks h.live → b.Contains x →
      (block order offset).Contains x → b ∈ h.allocator.freeBlocks := by
    intro b x hb hbx hx
    exact (Multiset.mem_add.mp hb).resolve_right fun hheld => hvacant.not_held hheld hbx hx
  have haligned : (block order offset).Aligned := by
    rw [DyadicBlock.Aligned, block_size]
    exact hvacant.1
  obtain ⟨b, hb, hlarge, hstart⟩ := htiles.exists_covering haligned
    (by rw [block_size]; exact hvacant.2.1) (by
      intro b hb hlt hx hx' hbuddy
      have hmax : b.exponent < 12 + maxOrder := hlt.trans_le (Nat.add_le_add_left horder 12)
      exact hs.buddy_notMem (hfree hb b.contains_start hx) hmax (hfree hbuddy b.buddy.contains_start hx'))
  obtain ⟨o, ho, offset', hoffset', rfl⟩ := mem_freeBlocks.mp (hfree hb hstart (DyadicBlock.contains_start _))
  exact ⟨o, Nat.le_of_add_le_add_left hlarge, ho, List.ne_nil_of_mem hoffset'⟩

theorem allocate_complete {ops : List Op} (h : Lawful Returnable ops) {bytes : ℕ} (hpos : 0 < bytes)
    (hle : bytes ≤ 2 ^ 20) {order : ℕ} (horder : IsLeast {o | bytes ≤ 4096 * 2 ^ o} order) :
    let heap := run ops
    ((heap.allocator.allocate bytes).1 = none ↔
        ¬ ∃ offset, 4096 * 2 ^ order ∣ offset ∧ offset + 4096 * 2 ^ order ≤ 2 ^ 20 ∧
          ∀ request ∈ heap.live, request.1 + orderToSize (sizeToOrder request.2) ≤ offset ∨
            offset + 4096 * 2 ^ order ≤ request.1) ∧
      ((heap.allocator.allocate bytes).1 = none → (heap.allocator.allocate bytes).2 = heap.allocator) := by
  intro heap
  have hs : heap.Sound := sound_run h
  have hsize : ∀ o, orderToSize o = 4096 * 2 ^ o := fun o => Nat.shiftLeft_eq _ o
  have hleast : IsLeast {o | bytes ≤ orderToSize o} (sizeToOrder bytes) := sizeToOrder_isLeast hle
  simp only [hsize] at hleast
  obtain rfl := horder.unique hleast
  refine ⟨?_, fun hnone => ?_⟩
  · rw [allocate_eq_none_iff hpos hle]
    simp only [← hsize]
    refine ⟨?_, ?_⟩
    · rintro hempty ⟨offset, hvacant⟩
      obtain ⟨o, ho, hmax, hne⟩ := hs.exists_free (sizeToOrder_le bytes) hvacant
      exact hne (hempty o ho hmax)
    · intro hnone o ho hmax
      by_contra hne
      obtain ⟨offset, hoffset⟩ := List.exists_mem_of_ne_nil _ hne
      exact hnone ⟨offset, (hs.free_apart hmax hoffset).mono ho⟩
  · rcases heap.allocator.allocate_cases bytes with hnone' | ⟨offset, _, _, _, _, _, _, _, _, hsome⟩
    · rw [hnone']
    · rw [hsome] at hnone
      cases hnone

theorem allocate_whole_after_one :
    let heap := run [Op.allocate 1]
    IsLeast {o | 2 ^ 20 ≤ 4096 * 2 ^ o} 8 ∧ (heap.allocator.allocate (2 ^ 20)).2 = heap.allocator ∧
      ¬ ∃ offset, 4096 * 2 ^ 8 ∣ offset ∧ offset + 4096 * 2 ^ 8 ≤ 2 ^ 20 ∧
        ∀ request ∈ heap.live, request.1 + orderToSize (sizeToOrder request.2) ≤ offset ∨
          offset + 4096 * 2 ^ 8 ≤ request.1 := by
  intro heap
  have hleast : IsLeast {o | 2 ^ 20 ≤ 4096 * 2 ^ o} 8 := by
    refine ⟨by decide, fun o ho => ?_⟩
    have hpow : 2 ^ 8 ≤ 2 ^ o := by
      change 2 ^ 20 ≤ 4096 * 2 ^ o at ho
      omega
    exact (Nat.pow_le_pow_iff_right one_lt_two).mp hpow
  have hlawful : Lawful Returnable [Op.allocate 1] := by decide
  have hnone : (heap.allocator.allocate (2 ^ 20)).1 = none := by decide
  obtain ⟨hiff, hsame⟩ := allocate_complete hlawful (by decide) le_rfl hleast
  exact ⟨hleast, hsame hnone, hiff.mp hnone⟩

end Heap

end SystemLevel.Memory
