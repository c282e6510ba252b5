import SystemLevel.Memory.SlabChunks

namespace SystemLevel.Memory

open FixedCodec Runs SlabLayout

namespace SlabAllocator

variable {layout : SlabLayout} {s : SlabAllocator} {free live : List UInt64} {base chunk : UInt64}

theorem next_push_self (s : SlabAllocator) (chunk : UInt64) : (s.push chunk).next chunk = s.freeHead :=
  ByteMemory.load_store _ _

theorem chunkSize_ge (layout : SlabLayout) : 8 ≤ layout.chunkSize.toNat :=
  layout.objectSize_spec.1.trans layout.chunkSize_spec.1

theorem next_push_apart {other : UInt64} (h : layout.Apart other chunk) : (s.push chunk).next other = s.next other := by
  have hchunk := chunkSize_ge layout
  apply ByteMemory.load_fill_apart
  change other.toNat + 8 ≤ chunk.toNat ∨ chunk.toNat + 8 ≤ other.toNat
  rcases h with h | h <;> omega

abbrev Visits (s : SlabAllocator) (free : List UInt64) : Prop := LinkedFrom 0 s.next s.freeHead free

theorem Visits.push (h : s.Visits free) (hne : chunk ≠ 0) (hapart : ∀ other ∈ free, layout.Apart other chunk) :
    (s.push chunk).Visits (chunk :: free) :=
  LinkedFrom.push h hne (fun other hother => next_push_apart (hapart other hother)) (s.next_push_self chunk)

theorem Visits.pushAll {chunks : List UInt64} (h : s.Visits free) (hne : ∀ chunk ∈ chunks, chunk ≠ 0)
    (hapart : (free ++ chunks).Pairwise layout.Apart) :
    (chunks.foldl SlabAllocator.push s).Visits (chunks.reverse ++ free) := by
  induction chunks generalizing s free with
  | nil => exact h
  | cons chunk chunks ih =>
    rw [List.foldl_cons, List.reverse_cons, List.append_assoc, List.singleton_append]
    obtain ⟨hfree, hrest, hcross⟩ := List.pairwise_append.mp hapart
    obtain ⟨hchunk, hrest⟩ := List.pairwise_cons.mp hrest
    apply ih
    · exact h.push (hne chunk List.mem_cons_self) fun other hother => hcross other hother chunk List.mem_cons_self
    · exact fun other hother => hne other (List.mem_cons_of_mem chunk hother)
    · rw [List.cons_append, List.pairwise_cons, List.pairwise_append]
      refine ⟨?_, hfree, hrest, fun a ha b hb => hcross a ha b (List.mem_cons_of_mem chunk hb)⟩
      rw [List.forall_mem_append]
      exact ⟨fun other hother => (hcross other hother chunk List.mem_cons_self).symm, hchunk⟩

theorem Visits.fill (h : s.Visits free) (slabs : List UInt64) {a n : ℕ} (contents : ByteMemory)
    (hapart : ∀ chunk ∈ free, chunk.toNat + layout.chunkSize.toNat ≤ a ∨ a + n ≤ chunk.toNat) :
    Visits { s with slabs, memory := s.memory.fill a n contents } free := by
  have hsize := chunkSize_ge layout
  apply LinkedFrom.congr h
  intro chunk hchunk
  have hfar := hapart chunk hchunk
  have hword : chunk.toNat + u64.size ≤ a ∨ a + n ≤ chunk.toNat := by
    change chunk.toNat + 8 ≤ a ∨ _
    omega
  exact ByteMemory.load_fill_apart hword contents

theorem pushAll_fields (chunks : List UInt64) (s : SlabAllocator) :
    (chunks.foldl SlabAllocator.push s).slabs = s.slabs ∧
      (chunks.foldl SlabAllocator.push s).activeObjects = s.activeObjects := by
  induction chunks generalizing s with
  | nil => exact ⟨rfl, rfl⟩
  | cons chunk chunks ih => exact ih (s.push chunk)

theorem growSlab_slabs (s : SlabAllocator) (mapped : Option UInt64) :
    (s.growSlab layout mapped).slabs = s.slabs ++ mapped.toList := by
  cases mapped with
  | none => exact (List.append_nil _).symm
  | some base => exact (pushAll_fields _ _).1

theorem allocate_slabs (s : SlabAllocator) (mapped : Option UInt64) :
    (s.allocate layout mapped).2.slabs = if s.freeHead = 0 then s.slabs ++ mapped.toList else s.slabs := by
  have hready : (s.ready layout mapped).slabs = if s.freeHead = 0 then s.slabs ++ mapped.toList else s.slabs := by
    rw [ready]
    split_ifs
    · exact s.growSlab_slabs mapped
    · rfl
  rw [← hready, allocate]
  split_ifs
  · rfl
  · dsimp only [take]

theorem allocate_none (h : s.freeHead = 0) : s.allocate layout none = (0, s) := by
  have hready : s.ready layout none = s := if_pos h
  rw [allocate, hready]
  exact if_pos h

theorem deallocate_slabs (s : SlabAllocator) (ptr : UInt64) : (s.deallocate ptr).slabs = s.slabs := by
  rw [deallocate]
  split_ifs <;> rfl

structure Holds (layout : SlabLayout) (s : SlabAllocator) (live : List UInt64) : Prop where
  placed : layout.Placed s.slabs
  free : ∃ free, s.Visits free ∧ (free ++ live).Perm (layout.chunks s.slabs)
  active : s.activeObjects = UInt64.ofNat live.length

namespace Holds

theorem empty (layout : SlabLayout) (memory : ByteMemory) : Holds layout { memory } [] :=
  ⟨placed_nil layout, ⟨[], rfl, List.Perm.nil⟩, rfl⟩

variable (hfits : layout.NoWrap) (h : s.Holds layout live)

include hfits h

theorem apart (hfree : (free ++ live).Perm (layout.chunks s.slabs)) : (free ++ live).Pairwise layout.Apart :=
  (hfree.pairwise_iff fun hab => hab.symm).mpr (h.placed.chunks_apart hfits)

theorem growSlab {mapped : Option UInt64} (hfresh : ∀ base ∈ mapped, layout.Fresh s.slabs base) :
    (s.growSlab layout mapped).Holds layout live := by
  cases mapped with
  | none => exact h
  | some base =>
    obtain ⟨free, hvisits, hperm⟩ := h.free
    have hfresh := hfresh base rfl
    have hplaced := h.placed.concat hfresh
    have hbase : base ∈ s.slabs ++ [base] := List.mem_append_right _ List.mem_cons_self
    obtain ⟨hslabs, hactive⟩ := pushAll_fields (layout.chunksOf base)
      { s with
        slabs := s.slabs ++ [base]
        memory := s.memory.fill base.toNat layout.slabSize.toNat fun _ => 0 }
    have hall : ((free ++ live) ++ layout.chunksOf base).Pairwise layout.Apart := by
      rw [(hperm.append_right _).pairwise_iff fun hab => hab.symm, ← chunks_concat]
      exact hplaced.chunks_apart hfits
    have hsub : (free ++ layout.chunksOf base).Sublist ((free ++ live) ++ layout.chunksOf base) :=
      (List.sublist_append_left free live).append_right _
    have hne : ∀ chunk ∈ layout.chunksOf base, chunk ≠ 0 := by
      intro chunk hchunk
      exact hplaced.chunk_ne_zero hfits (mem_chunks.mpr ⟨base, hbase, hchunk⟩)
    have hfar : ∀ chunk ∈ free, chunk.toNat + layout.chunkSize.toNat ≤ base.toNat ∨
        base.toNat + layout.slabSize.toNat ≤ chunk.toNat := by
      intro chunk hchunk
      obtain ⟨slab, hslab, hchunk⟩ := mem_chunks.mp (hperm.mem_iff.mp (List.mem_append_left live hchunk))
      obtain ⟨hlow, hhigh, -⟩ := h.placed.chunk_spec hfits hslab hchunk
      have hapart := hfresh.apart slab hslab
      omega
    refine ⟨hslabs ▸ hplaced, ⟨(layout.chunksOf base).reverse ++ free, ?_, ?_⟩, hactive.trans h.active⟩
    · exact Visits.pushAll (hvisits.fill _ _ hfar) hne (List.Pairwise.sublist hsub hall)
    · rw [SlabAllocator.growSlab, hslabs, chunks_concat, List.append_assoc]
      exact ((List.reverse_perm _).append hperm).trans List.perm_append_comm

omit hfits in
theorem take (hne : s.freeHead ≠ 0) : s.take.Holds layout (live ++ [s.freeHead]) := by
  obtain ⟨free, hvisits, hperm⟩ := h.free
  obtain ⟨rest, rfl, hrest⟩ := LinkedFrom.exists_cons hvisits hne
  have hactive : s.activeObjects + 1 = UInt64.ofNat (live ++ [s.freeHead]).length := by
    rw [h.active, List.length_append, UInt64.ofNat_add]
    rfl
  have hnext : s.take.next = s.next := by
    unfold next
    dsimp only [SlabAllocator.take]
  refine ⟨?_, ⟨rest, ?_, ?_⟩, ?_⟩
  · dsimp only [SlabAllocator.take]
    exact h.placed
  · rw [Visits, hnext]
    dsimp only [SlabAllocator.take]
    exact hrest
  · dsimp only [SlabAllocator.take]
    rw [← List.append_assoc]
    exact (List.perm_append_singleton s.freeHead (rest ++ live)).trans hperm
  · dsimp only [SlabAllocator.take]
    exact hactive

theorem ready {mapped : Option UInt64} (hfresh : s.freeHead = 0 → ∀ base ∈ mapped, layout.Fresh s.slabs base) :
    (s.ready layout mapped).Holds layout live := by
  unfold SlabAllocator.ready
  split_ifs with hempty
  · exact h.growSlab hfits (hfresh hempty)
  · exact h

theorem allocate {mapped : Option UInt64} (hfresh : s.freeHead = 0 → ∀ base ∈ mapped, layout.Fresh s.slabs base) :
    (s.allocate layout mapped).2.Holds layout
      (if (s.allocate layout mapped).1 = 0 then live else live ++ [(s.allocate layout mapped).1]) := by
  have hready := h.ready hfits hfresh
  by_cases hempty : (s.ready layout mapped).freeHead = 0
  · rw [SlabAllocator.allocate, if_pos hempty, if_pos rfl]
    exact hready
  · rw [SlabAllocator.allocate, if_neg hempty, if_neg hempty]
    exact hready.take hempty

theorem deallocate (hlive : chunk ∈ live) :
    Holds layout { s.push chunk with activeObjects := s.activeObjects - 1 } (live.erase chunk) := by
  obtain ⟨free, hvisits, hperm⟩ := h.free
  have hlength := List.length_erase_add_one hlive
  have hchunk := hperm.mem_iff.mp (List.mem_append_right free hlive)
  have hcross := (List.pairwise_append.mp (h.apart hfits hperm)).2.2
  refine ⟨h.placed, ⟨chunk :: free, ?_, ?_⟩, ?_⟩
  · exact Visits.push hvisits (h.placed.chunk_ne_zero hfits hchunk) fun other hother => hcross other hother chunk hlive
  · apply List.Perm.trans _ hperm
    rw [List.cons_append]
    exact List.perm_middle.symm.trans ((List.perm_cons_erase hlive).symm.append_left free)
  · change s.activeObjects - 1 = _
    rw [h.active, ← hlength, UInt64.ofNat_add]
    exact UInt64.add_sub_cancel _ _

theorem write (hlive : chunk ∈ live) (contents : ByteMemory) : (s.write layout chunk contents).Holds layout live := by
  obtain ⟨free, hvisits, hperm⟩ := h.free
  have hcross := (List.pairwise_append.mp (h.apart hfits hperm)).2.2
  have hobject := layout.chunkSize_spec.1
  have hfar : ∀ other ∈ free, other.toNat + layout.chunkSize.toNat ≤ chunk.toNat ∨
      chunk.toNat + layout.objectSize.toNat ≤ other.toNat := by
    intro other hother
    rcases hcross other hother chunk hlive with hapart | hapart <;> omega
  exact ⟨h.placed, ⟨free, hvisits.fill s.slabs contents hfar, hperm⟩, h.active⟩

theorem nodup (hfree : (free ++ live).Perm (layout.chunks s.slabs)) : (free ++ live).Nodup :=
  (h.apart hfits hfree).imp Apart.ne

theorem live_ne_zero : (0 : UInt64) ∉ live := by
  obtain ⟨free, -, hperm⟩ := h.free
  intro hzero
  exact h.placed.chunk_ne_zero hfits (hperm.mem_iff.mp (List.mem_append_right free hzero)) rfl

omit hfits in
theorem all_live (hempty : s.freeHead = 0) : live.Perm (layout.chunks s.slabs) := by
  obtain ⟨free, hvisits, hperm⟩ := h.free
  rw [SlabAllocator.Visits, hempty] at hvisits
  rwa [hvisits.eq_nil, List.nil_append] at hperm

theorem activeObjects_eq : s.activeObjects.toNat = live.length := by
  obtain ⟨free, -, hperm⟩ := h.free
  have hnodup := (List.nodup_append.mp (h.nodup hfits hperm)).2.1
  have hlt : live.length < 2 ^ 64 := by
    have hcons : (0 :: live).Nodup := List.nodup_cons.mpr ⟨h.live_ne_zero hfits, hnodup⟩
    have hinj : Function.Injective UInt64.toNat := fun a b hab => UInt64.toNat_inj.mp hab
    have hsub : (0 :: live).map UInt64.toNat ⊆ List.range (2 ^ 64) := by
      intro n hn
      obtain ⟨chunk, -, rfl⟩ := List.mem_map.mp hn
      exact List.mem_range.mpr chunk.toNat_lt
    have hle := ((hcons.map hinj).subperm hsub).length_le
    rwa [List.length_map, List.length_range, List.length_cons] at hle
  rw [h.active, UInt64.toNat_ofNat', Nat.mod_eq_of_lt hlt]

theorem growSlab_ne_zero {base : UInt64} (hfresh : layout.Fresh s.slabs base) :
    (s.growSlab layout (some base)).freeHead ≠ 0 := by
  intro hempty
  have hgrown : (s.growSlab layout (some base)).Holds layout live :=
    h.growSlab hfits fun b hb => Option.mem_some_iff.mp hb ▸ hfresh
  have hall := (hgrown.all_live hempty).length_eq
  obtain ⟨free, -, hperm⟩ := h.free
  have hold := hperm.length_eq
  rw [SlabAllocator.growSlab, (pushAll_fields _ _).1, chunks_concat, List.length_append, ← hold, List.length_append,
    chunksOf, List.length_map, List.length_range] at hall
  have hpos := layout.objectsPerSlab_pos
  omega

end Holds

end SlabAllocator

structure SlabClients where
  allocator : SlabAllocator
  live : List UInt64

namespace SlabClients

inductive Op
  | allocate (mapped : Option UInt64)
  | deallocate (ptr : UInt64)
  | write (chunk : UInt64) (contents : ByteMemory)

section Runs

variable (layout : SlabLayout)

def step (t : SlabClients) : Op → SlabClients
  | .allocate mapped =>
    let result := t.allocator.allocate layout mapped
    { allocator := result.2, live := if result.1 = 0 then t.live else t.live ++ [result.1] }
  | .deallocate ptr => { allocator := t.allocator.deallocate ptr, live := t.live.erase ptr }
  | .write chunk contents => { t with allocator := t.allocator.write layout chunk contents }

variable (memory : ByteMemory) (mapped : Option UInt64)

abbrev run (ops : List Op) : SlabClients :=
  Runs.run (step layout) { allocator := SlabAllocator.init layout memory mapped, live := [] } ops

def Allowed (past : List Op) : Op → Prop
  | .allocate mapped' =>
    (run layout memory mapped past).allocator.freeHead = 0 →
      ∀ base ∈ mapped', layout.Fresh (run layout memory mapped past).allocator.slabs base
  | .deallocate ptr => ptr = 0 ∨ ptr ∈ (run layout memory mapped past).live
  | .write chunk _ => chunk ∈ (run layout memory mapped past).live

end Runs

variable {layout : SlabLayout} (hfits : layout.NoWrap)

include hfits

theorem holds_step {t : SlabClients} (h : t.allocator.Holds layout t.live) {memory : ByteMemory}
    {mapped : Option UInt64} {past : List Op} (ht : t = run layout memory mapped past) {op : Op}
    (hop : Allowed layout memory mapped past op) :
    (t.step layout op).allocator.Holds layout (t.step layout op).live := by
  cases op with
  | allocate mapped' => exact h.allocate hfits (ht ▸ hop)
  | deallocate ptr =>
    rw [step, SlabAllocator.deallocate]
    by_cases hnull : ptr = 0
    · rw [if_pos hnull, List.erase_of_not_mem (hnull ▸ h.live_ne_zero hfits)]
      exact h
    · rw [if_neg hnull]
      exact h.deallocate hfits (ht ▸ hop.resolve_left hnull)
  | write chunk contents => exact h.write hfits (ht ▸ hop) contents

theorem holds_run {memory : ByteMemory} {mapped : Option UInt64} (hfirst : ∀ base ∈ mapped, layout.Fresh [] base)
    {ops : List Op} (h : Lawful (Allowed layout memory mapped) ops) :
    (run layout memory mapped ops).allocator.Holds layout (run layout memory mapped ops).live := by
  refine Lawful.induct (motive := fun _ (t : SlabClients) => t.allocator.Holds layout t.live) ?_
    (fun ops op hop ih => holds_step hfits ih rfl hop) h
  exact (SlabAllocator.Holds.empty layout memory).growSlab hfits hfirst

omit hfits in
theorem step_slabs (t : SlabClients) (op : Op) (hne : t.allocator.freeHead ≠ 0) :
    (t.step layout op).allocator.slabs = t.allocator.slabs := by
  cases op with
  | allocate mapped => exact (t.allocator.allocate_slabs mapped).trans (if_neg hne)
  | deallocate ptr => exact t.allocator.deallocate_slabs ptr
  | write chunk contents => rfl

omit hfits in
theorem freeHead_of_allocate {s : SlabAllocator} {mapped : Option UInt64} (hnull : (s.allocate layout mapped).1 = 0) :
    s.freeHead = 0 := by
  by_contra hne
  have hready : s.ready layout mapped = s := if_neg hne
  rw [SlabAllocator.allocate, hready, if_neg hne] at hnull
  exact hne hnull

theorem mapped_of_allocate {s : SlabAllocator} {live : List UInt64} (h : s.Holds layout live) {mapped : Option UInt64}
    (hfresh : s.freeHead = 0 → ∀ base ∈ mapped, layout.Fresh s.slabs base) (hnull : (s.allocate layout mapped).1 = 0) :
    mapped = none := by
  have hhead := freeHead_of_allocate hnull
  cases mapped with
  | none => rfl
  | some base =>
    have hready : s.ready layout (some base) = s.growSlab layout (some base) := if_pos hhead
    have hne := h.growSlab_ne_zero hfits (hfresh hhead base rfl)
    rw [SlabAllocator.allocate, hready, if_neg hne] at hnull
    exact absurd hnull hne

structure Partitioned (layout : SlabLayout) (t : SlabClients) : Prop where
  free : ∃ free, t.allocator.Visits free ∧ free.Nodup ∧
    ∀ chunk, chunk ∈ free ↔ chunk ∈ layout.chunks t.allocator.slabs ∧ chunk ∉ t.live
  apart : (layout.chunks t.allocator.slabs).Pairwise layout.Apart
  aligned : ∀ chunk ∈ layout.chunks t.allocator.slabs, layout.alignOf.toNat ∣ chunk.toNat
  size : layout.sizeOf.toNat ≤ layout.chunkSize.toNat
  inside : ∀ base ∈ t.allocator.slabs, ∀ chunk ∈ layout.chunksOf base, base.toNat ≤ chunk.toNat ∧
    chunk.toNat + layout.chunkSize.toNat ≤ base.toNat + layout.slabSize.toNat
  live : t.live.Nodup ∧ ∀ chunk ∈ t.live, chunk ∈ layout.chunks t.allocator.slabs
  active : t.allocator.activeObjects.toNat = t.live.length

theorem partitioned_of_holds {t : SlabClients} (h : t.allocator.Holds layout t.live) : Partitioned layout t := by
  obtain ⟨free, hvisits, hperm⟩ := h.free
  obtain ⟨hfree, hlive, hcross⟩ := List.nodup_append.mp (h.nodup hfits hperm)
  refine ⟨⟨free, hvisits, hfree, fun chunk => ?_⟩, h.placed.chunks_apart hfits, fun chunk hchunk => ?_, ?_,
    fun base hbase chunk hchunk => ?_, ⟨hlive, fun chunk hchunk => ?_⟩, h.activeObjects_eq hfits⟩
  · rw [← hperm.mem_iff, List.mem_append]
    refine ⟨fun hmem => ⟨Or.inl hmem, fun hheld => hcross chunk hmem chunk hheld rfl⟩, fun hmem => ?_⟩
    exact hmem.1.resolve_right hmem.2
  · obtain ⟨base, hbase, hchunk⟩ := mem_chunks.mp hchunk
    exact (h.placed.chunk_spec hfits hbase hchunk).2.2
  · exact layout.objectSize_spec.2.1.trans layout.chunkSize_spec.1
  · obtain ⟨hlow, hhigh, -⟩ := h.placed.chunk_spec hfits hbase hchunk
    exact ⟨hlow, hhigh⟩
  · exact hperm.mem_iff.mp (List.mem_append_right free hchunk)

omit hfits

theorem placed_run {memory : ByteMemory} {mapped : Option UInt64} (hfirst : ∀ base ∈ mapped, layout.Fresh [] base)
    {ops : List Op} (h : Lawful (Allowed layout memory mapped) ops) :
    layout.Placed (run layout memory mapped ops).allocator.slabs := by
  have hgrow : ∀ {slabs mapped'}, layout.Placed slabs → (∀ base ∈ mapped', layout.Fresh slabs base) →
      layout.Placed (slabs ++ Option.toList mapped') := by
    intro slabs mapped' hplaced hfresh
    cases mapped' with
    | none => exact (List.append_nil slabs).symm ▸ hplaced
    | some base => exact hplaced.concat (hfresh base rfl)
  refine Lawful.induct (motive := fun _ (t : SlabClients) => layout.Placed t.allocator.slabs) ?_
    (fun ops op hop ih => ?_) h
  · rw [SlabAllocator.init, SlabAllocator.growSlab_slabs]
    exact hgrow (placed_nil layout) hfirst
  · by_cases hempty : (run layout memory mapped ops).allocator.freeHead = 0
    · cases op with
      | allocate mapped' =>
        rw [step, SlabAllocator.allocate_slabs, if_pos hempty]
        exact hgrow ih (hop hempty)
      | deallocate ptr =>
        rw [step, SlabAllocator.deallocate_slabs]
        exact ih
      | write chunk contents => exact ih
    · rw [step_slabs _ op hempty]
      exact ih

theorem idle_run {memory : ByteMemory} {mapped : Option UInt64} {ops : List Op}
    (h : Lawful (Allowed layout memory mapped) ops) (hnone : (run layout memory mapped ops).allocator.slabs = []) :
    (run layout memory mapped ops).allocator.freeHead = 0 ∧
      (run layout memory mapped ops).allocator.activeObjects = 0 ∧ (run layout memory mapped ops).live = [] := by
  revert hnone
  refine Lawful.induct (motive := fun _ (t : SlabClients) => t.allocator.slabs = [] →
    t.allocator.freeHead = 0 ∧ t.allocator.activeObjects = 0 ∧ t.live = []) ?_ (fun ops op hop ih hnone => ?_) h
  · intro hnone
    rw [SlabAllocator.init, SlabAllocator.growSlab_slabs, List.nil_append] at hnone
    cases mapped with
    | none => exact ⟨rfl, rfl, rfl⟩
    | some base => cases hnone
  · by_cases hempty : (run layout memory mapped ops).allocator.freeHead = 0
    · cases op with
      | allocate mapped' =>
        rw [step, SlabAllocator.allocate_slabs, if_pos hempty] at hnone
        obtain ⟨hslabs, hmapped⟩ := List.append_eq_nil_iff.mp hnone
        obtain rfl := Option.toList_eq_nil_iff.mp hmapped
        rw [step, SlabAllocator.allocate_none hempty]
        exact ih hslabs
      | deallocate ptr =>
        rw [step, SlabAllocator.deallocate_slabs] at hnone
        obtain ⟨hhead, hactive, hlive⟩ := ih hnone
        have hnull : ptr = 0 := hop.resolve_right fun hmem => List.not_mem_nil (hlive ▸ hmem)
        rw [step, SlabAllocator.deallocate, if_pos hnull, hlive]
        exact ⟨hhead, hactive, rfl⟩
      | write chunk contents =>
        have hheld : chunk ∈ (run layout memory mapped ops).live := hop
        rw [(ih hnone).2.2] at hheld
        cases hheld
    · rw [step_slabs _ op hempty] at hnone
      exact absurd (ih hnone).1 hempty

theorem partitioned_of_idle {t : SlabClients} (hslabs : t.allocator.slabs = []) (hhead : t.allocator.freeHead = 0)
    (hactive : t.allocator.activeObjects = 0) (hlive : t.live = []) : Partitioned layout t := by
  have hchunks : layout.chunks t.allocator.slabs = [] := by
    rw [hslabs]
    rfl
  refine ⟨⟨[], hhead, List.nodup_nil, fun chunk => ?_⟩, ?_, ?_, ?_, ?_, ⟨?_, ?_⟩, ?_⟩
  · rw [hchunks]
    exact iff_of_false List.not_mem_nil fun hmem => List.not_mem_nil hmem.1
  · rw [hchunks]
    exact List.Pairwise.nil
  · rw [hchunks]
    exact List.forall_mem_nil _
  · exact layout.objectSize_spec.2.1.trans layout.chunkSize_spec.1
  · rw [hslabs]
    exact List.forall_mem_nil _
  · rw [hlive]
    exact List.nodup_nil
  · rw [hlive]
    exact List.forall_mem_nil _
  · rw [hactive, hlive]
    rfl

theorem slabs_partitioned_iff {memory : ByteMemory} {mapped : Option UInt64}
    (hfirst : ∀ base ∈ mapped, layout.Fresh [] base) {ops : List Op}
    (h : Lawful (Allowed layout memory mapped) ops) :
    let t := run layout memory mapped ops
    (Partitioned layout t ↔ t.allocator.slabs = [] ∨ layout.NoWrap) ∧
      (t.allocator.slabs = [] ∨ layout.NoWrap →
        (∀ op, (t.step layout op).allocator.slabs ≠ t.allocator.slabs →
          ∀ chunk ∈ layout.chunks t.allocator.slabs, chunk ∈ t.live) ∧
        ∀ mapped', Allowed layout memory mapped ops (.allocate mapped') → (mapped' = none ∨ layout.NoWrap) →
          (t.allocator.allocate layout mapped').1 = 0 →
            mapped' = none ∧ ∀ chunk ∈ layout.chunks t.allocator.slabs, chunk ∈ t.live) := by
  intro t
  have hall : t.allocator.slabs = [] ∨ layout.NoWrap → t.allocator.freeHead = 0 →
      ∀ chunk ∈ layout.chunks t.allocator.slabs, chunk ∈ t.live := by
    rintro (hnone | hfits) hempty chunk hchunk
    · rw [hnone] at hchunk
      cases hchunk
    · exact ((holds_run hfits hfirst h).all_live hempty).mem_iff.mpr hchunk
  refine ⟨⟨fun hpart => ?_, ?_⟩, fun hcondition => ⟨fun op hne => hall hcondition ?_, ?_⟩⟩
  · by_cases hnone : t.allocator.slabs = []
    · exact Or.inl hnone
    · obtain ⟨base, hbase⟩ := List.exists_mem_of_ne_nil _ hnone
      have hplaced := placed_run hfirst h
      exact Or.inr (noWrap_of_inside (hplaced.pos base hbase) (hplaced.inside base hbase) (hpart.inside base hbase))
  · rintro (hnone | hfits)
    · obtain ⟨hhead, hactive, hlive⟩ := idle_run h hnone
      exact partitioned_of_idle hnone hhead hactive hlive
    · exact partitioned_of_holds hfits (holds_run hfits hfirst h)
  · by_contra hhead
    exact hne (step_slabs t op hhead)
  · rintro mapped' hop hmapped hnull
    refine ⟨?_, hall hcondition (freeHead_of_allocate hnull)⟩
    rcases hmapped with hnone | hfits
    · exact hnone
    · exact mapped_of_allocate hfits (holds_run hfits hfirst h) hop hnull

def twoChunks : SlabLayout where
  sizeOf := 16
  alignOf := 16
  objectsPerSlab := 2
  sizeOf_lt := by decide
  alignOf_eq := Exists.intro 4 (by decide)
  objectsPerSlab_pos := by decide

def overwritten : List Op := [Op.allocate none, Op.write 4112 fun _ => 255, Op.deallocate 4112]

theorem slabs_partitioned_overwritten :
    let t := run twoChunks (fun _ => 7) (some 4096) overwritten
    t.live = [] ∧ twoChunks.NoWrap ∧ Partitioned twoChunks t := by
  intro t
  have hfits : twoChunks.NoWrap := by decide +kernel
  have hfirst : ∀ base ∈ some (4096 : UInt64), twoChunks.Fresh [] base := by
    intro base hbase
    obtain rfl := Option.mem_some_iff.mp hbase
    exact ⟨by decide, Nat.dvd_refl _, by decide, List.forall_mem_nil _⟩
  have hlawful : Lawful (Allowed twoChunks (fun _ => 7) (some 4096)) overwritten := by
    refine ⟨fun _ base hbase => absurd hbase (Option.not_mem_none base), ?_, Or.inr ?_, trivial⟩
    · change (4112 : UInt64) ∈ (run twoChunks (fun _ => 7) (some 4096) [Op.allocate none]).live
      decide +kernel
    · change (4112 : UInt64) ∈
        (run twoChunks (fun _ => 7) (some 4096) [Op.allocate none, Op.write 4112 fun _ => 255]).live
      decide +kernel
  have hlive : t.live = [] := by decide +kernel
  exact ⟨hlive, hfits, (slabs_partitioned_iff hfirst hlawful).1.mpr (Or.inr hfits)⟩

def wrappingSlab : SlabLayout where
  sizeOf := 8
  alignOf := 8
  objectsPerSlab := UInt64.ofNat (2 ^ 61 + 1)
  sizeOf_lt := by decide
  alignOf_eq := Exists.intro 3 (by decide)
  objectsPerSlab_pos := by decide +kernel

theorem wrapping_slab_overlaps :
    let t := run wrappingSlab (fun _ => 0) (some 4096) []
    wrappingSlab.Fresh [] 4096 ∧ ¬ (wrappingSlab.chunks t.allocator.slabs).Pairwise wrappingSlab.Apart := by
  intro t
  have hfresh : wrappingSlab.Fresh [] 4096 :=
    ⟨by decide +kernel, Nat.dvd_refl _, by decide +kernel, List.forall_mem_nil _⟩
  refine ⟨hfresh, fun hapart => ?_⟩
  have hslabs : t.allocator.slabs = [4096] := (SlabAllocator.pushAll_fields _ _).1
  have hnodup := hapart.imp Apart.ne
  rw [hslabs, SlabLayout.chunks, List.flatMap_singleton, chunksOf] at hnodup
  have hsame : wrappingSlab.chunkAt 4096 0 = wrappingSlab.chunkAt 4096 (2 ^ 61) := by decide +kernel
  have hlast : 2 ^ 61 < wrappingSlab.objectsPerSlab.toNat := by decide +kernel
  have hindex := List.inj_on_of_nodup_map hnodup (List.mem_range.mpr wrappingSlab.objectsPerSlab_pos)
    (List.mem_range.mpr hlast) hsame
  exact absurd hindex (by decide)

end SlabClients

end SystemLevel.Memory
