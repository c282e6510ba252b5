import SystemLevel.Memory.SlabPartition

namespace SystemLevel.Memory

open Runs SlabLayout

namespace SlabAllocator

variable {layout : SlabLayout} {s : SlabAllocator}

theorem growSlab_activeObjects (s : SlabAllocator) (mapped : Option UInt64) :
    (s.growSlab layout mapped).activeObjects = s.activeObjects := by
  cases mapped with
  | none => rfl
  | some base => exact (pushAll_fields _ _).2

theorem ready_activeObjects (s : SlabAllocator) (mapped : Option UInt64) :
    (s.ready layout mapped).activeObjects = s.activeObjects := by
  unfold ready
  split_ifs
  · exact s.growSlab_activeObjects mapped
  · rfl

theorem allocate_activeObjects {mapped : Option UInt64} (h : (s.allocate layout mapped).1 ≠ 0) :
    (s.allocate layout mapped).2.activeObjects = s.activeObjects + 1 := by
  rw [allocate] at h ⊢
  split_ifs at h ⊢ with hempty
  · exact absurd rfl h
  · rw [← s.ready_activeObjects mapped]
    dsimp only [take]

theorem construct_of_null {mapped : Option UInt64} (h : (s.allocate layout mapped).1 = 0) (contents : ByteMemory)
    (throws : Bool) : s.construct layout mapped contents throws = (some 0, (s.allocate layout mapped).2) := if_pos h

theorem construct_of_chunk {mapped : Option UInt64} (h : (s.allocate layout mapped).1 ≠ 0) (contents : ByteMemory)
    (throws : Bool) :
    s.construct layout mapped contents throws =
      (if throws then none else some (s.allocate layout mapped).1,
        (s.allocate layout mapped).2.write layout (s.allocate layout mapped).1 contents) := if_neg h

theorem construct_eq_none {mapped : Option UInt64} {contents : ByteMemory} {throws : Bool}
    (h : (s.construct layout mapped contents throws).1 = none) :
    (s.construct layout mapped contents throws).2.activeObjects = s.activeObjects + 1 := by
  by_cases hnull : (s.allocate layout mapped).1 = 0
  · rw [construct_of_null hnull] at h
    cases h
  · rw [construct_of_chunk hnull]
    exact allocate_activeObjects hnull

def Restored (layout : SlabLayout) (s s' : SlabAllocator) : Prop :=
  s'.activeObjects = s.activeObjects ∧
    ∀ free free', s.Visits free → s'.Visits free' → ∀ chunk, chunk ∈ free' ↔
      chunk ∈ free ∨ chunk ∈ layout.chunks s'.slabs ∧ chunk ∉ layout.chunks s.slabs

theorem Holds.perm {live live' : List UInt64} (h : s.Holds layout live) (hperm : live.Perm live') :
    s.Holds layout live' := by
  obtain ⟨free, hvisits, hfree⟩ := h.free
  exact ⟨h.placed, ⟨free, hvisits, (hperm.symm.append_left free).trans hfree⟩, hperm.length_eq ▸ h.active⟩

end SlabAllocator

structure SlabObjects where
  allocator : SlabAllocator
  objects : List UInt64
  lost : List UInt64

namespace SlabObjects

inductive Op
  | construct (mapped : Option UInt64) (contents : ByteMemory) (throws : Bool)
  | destroy (ptr : UInt64) (contents : ByteMemory)

section Runs

variable (layout : SlabLayout)

def step (t : SlabObjects) : Op → SlabObjects
  | .construct mapped contents throws =>
    let result := t.allocator.construct layout mapped contents throws
    match result.1 with
    | none => { t with allocator := result.2, lost := t.lost ++ [(t.allocator.allocate layout mapped).1] }
    | some ptr => { t with allocator := result.2, objects := if ptr = 0 then t.objects else t.objects ++ [ptr] }
  | .destroy ptr contents =>
    { t with allocator := t.allocator.destroy layout ptr contents, objects := t.objects.erase ptr }

variable (memory : ByteMemory) (mapped : Option UInt64)

abbrev run (ops : List Op) : SlabObjects :=
  Runs.run (step layout) { allocator := SlabAllocator.init layout memory mapped, objects := [], lost := [] } ops

def Allowed (past : List Op) : Op → Prop
  | .construct mapped' _ _ =>
    (run layout memory mapped past).allocator.freeHead = 0 →
      ∀ base ∈ mapped', layout.Fresh (run layout memory mapped past).allocator.slabs base
  | .destroy ptr _ => ptr = 0 ∨ ptr ∈ (run layout memory mapped past).objects

end Runs

variable {layout : SlabLayout} (hfits : layout.NoWrap)

include hfits

theorem holds_construct {t : SlabObjects} (h : t.allocator.Holds layout (t.objects ++ t.lost))
    {mapped : Option UInt64}
    (hfresh : t.allocator.freeHead = 0 → ∀ base ∈ mapped, layout.Fresh t.allocator.slabs base)
    (contents : ByteMemory) (throws : Bool) :
    let t' := t.step layout (.construct mapped contents throws)
    t'.allocator.Holds layout (t'.objects ++ t'.lost) := by
  have hallocated := h.allocate hfits hfresh
  intro t'
  by_cases hnull : (t.allocator.allocate layout mapped).1 = 0
  · have hresult : t' = { t with allocator := (t.allocator.allocate layout mapped).2 } := by
      simp only [t', step, SlabAllocator.construct_of_null hnull, if_true]
    rw [if_pos hnull] at hallocated
    rw [hresult]
    exact hallocated
  · rw [if_neg hnull] at hallocated
    have hwritten := hallocated.write hfits (List.mem_append_right _ List.mem_cons_self) contents
    generalize hchunk : (t.allocator.allocate layout mapped).1 = chunk at *
    cases throws with
    | true =>
      have hresult : t' = { t with
          allocator := (t.allocator.allocate layout mapped).2.write layout chunk contents
          lost := t.lost ++ [chunk] } := by
        simp only [t', step, SlabAllocator.construct_of_chunk (hchunk ▸ hnull), if_true, hchunk]
      rw [hresult, ← List.append_assoc]
      exact hwritten
    | false =>
      have hresult : t' = { t with
          allocator := (t.allocator.allocate layout mapped).2.write layout chunk contents
          objects := t.objects ++ [chunk] } := by
        simp [t', step, SlabAllocator.construct_of_chunk (hchunk ▸ hnull), hnull, hchunk]
      rw [hresult]
      apply hwritten.perm
      rw [List.append_assoc, List.append_assoc]
      exact List.perm_append_comm.append_left t.objects

theorem holds_step {t : SlabObjects} (h : t.allocator.Holds layout (t.objects ++ t.lost)) {memory : ByteMemory}
    {mapped : Option UInt64} {past : List Op} (ht : t = run layout memory mapped past) {op : Op}
    (hop : Allowed layout memory mapped past op) :
    (t.step layout op).allocator.Holds layout ((t.step layout op).objects ++ (t.step layout op).lost) := by
  cases op with
  | construct mapped' contents throws => exact holds_construct hfits h (ht ▸ hop) contents throws
  | destroy ptr contents =>
    rw [step, SlabAllocator.destroy]
    by_cases hnull : ptr = 0
    · have hzero : ptr ∉ t.objects := by
        rw [hnull]
        exact fun hmem => h.live_ne_zero hfits (List.mem_append_left _ hmem)
      rw [if_pos hnull, List.erase_of_not_mem hzero]
      exact h
    · have hobject : ptr ∈ t.objects := ht ▸ hop.resolve_left hnull
      have hlive : ptr ∈ t.objects ++ t.lost := List.mem_append_left _ hobject
      rw [if_neg hnull, SlabAllocator.deallocate, if_neg hnull, ← List.erase_append_left _ hobject]
      exact (h.write hfits hlive contents).deallocate hfits hlive

theorem holds_run {memory : ByteMemory} {mapped : Option UInt64} (hfirst : ∀ base ∈ mapped, layout.Fresh [] base)
    {ops : List Op} (h : Lawful (Allowed layout memory mapped) ops) :
    let t := run layout memory mapped ops
    t.allocator.Holds layout (t.objects ++ t.lost) := by
  refine Lawful.induct (motive := fun _ (t : SlabObjects) => t.allocator.Holds layout (t.objects ++ t.lost)) ?_
    (fun ops op hop ih => holds_step hfits ih rfl hop) h
  exact (SlabAllocator.Holds.empty layout memory).growSlab hfits hfirst

omit hfits

theorem throwing_constructor_leaks (layout : SlabLayout) (memory : ByteMemory) (mapped : Option UInt64)
    (ops : List Op) :
    let t := run layout memory mapped ops
    (∀ mapped' contents throws,
      let result := t.allocator.construct layout mapped' contents throws
      result.1 = none → result.2.activeObjects = t.allocator.activeObjects + 1 ∧
        ¬ SlabAllocator.Restored layout t.allocator result.2) ∧
      (layout.NoWrap → (∀ base ∈ mapped, layout.Fresh [] base) → Lawful (Allowed layout memory mapped) ops →
        (t.allocator.activeObjects.toNat = t.objects.length ↔ t.lost = []) ∧
          ∀ free, t.allocator.Visits free → ∀ chunk ∈ t.lost, chunk ∉ free) := by
  intro t
  refine ⟨?_, fun hfits hfirst hlawful => ?_⟩
  · intro mapped' contents throws result hthrown
    have hactive : result.2.activeObjects = t.allocator.activeObjects + 1 := SlabAllocator.construct_eq_none hthrown
    refine ⟨hactive, fun hrestored => ?_⟩
    have hsame := hactive.symm.trans hrestored.1
    rw [UInt64.add_eq_left] at hsame
    exact absurd hsame (by decide)
  · have hholds : t.allocator.Holds layout (t.objects ++ t.lost) := holds_run hfits hfirst hlawful
    refine ⟨?_, fun free hvisits chunk hlost hfree => ?_⟩
    · rw [hholds.activeObjects_eq hfits, List.length_append, Nat.add_eq_left, List.length_eq_zero_iff]
    · obtain ⟨free', hvisits', hperm⟩ := hholds.free
      obtain rfl := LinkedFrom.unique hvisits hvisits'
      have hcross := (List.nodup_append.mp (hholds.nodup hfits hperm)).2.2
      exact hcross chunk hfree chunk (List.mem_append_right _ hlost) rfl

theorem throwing_constructor_leaks_first :
    let t := run SlabClients.twoChunks (fun _ => 7) (some 4096) []
    let result := t.allocator.construct SlabClients.twoChunks none (fun _ => 0) true
    result.1 = none ∧ result.2.activeObjects = 1 ∧
      ¬ SlabAllocator.Restored SlabClients.twoChunks t.allocator result.2 := by
  intro t result
  have hthrown : result.1 = none := by decide +kernel
  have hactive : t.allocator.activeObjects = 0 := by decide +kernel
  obtain ⟨hnext, hrestored⟩ :=
    (throwing_constructor_leaks SlabClients.twoChunks (fun _ => 7) (some 4096) []).1 none (fun _ => 0) true hthrown
  refine ⟨hthrown, hnext.trans ?_, hrestored⟩
  change t.allocator.activeObjects + 1 = 1
  rw [hactive]
  rfl

theorem throwing_constructor_takes_chunk :
    let t := run SlabClients.twoChunks (fun _ => 7) (some 4096) []
    let t' := run SlabClients.twoChunks (fun _ => 7) (some 4096) [Op.construct none (fun _ => 0) true]
    t.allocator.Visits [4112, 4096] ∧ t'.allocator.Visits [4096] ∧ t'.objects = [] ∧
      t'.allocator.activeObjects = 1 := by
  intro t t'
  have hlist : (t.allocator.freeHead = 4112 ∧ t.allocator.next 4112 = 4096 ∧ t.allocator.next 4096 = 0) ∧
      t'.allocator.freeHead = 4096 ∧ t'.allocator.next 4096 = 0 := by decide +kernel
  obtain ⟨⟨hhead, hnext, hlast⟩, hhead', hlast'⟩ := hlist
  refine ⟨⟨hhead, by decide, hnext, by decide, hlast⟩, ⟨hhead', by decide, hlast'⟩, ?_⟩
  decide +kernel

end SlabObjects

end SystemLevel.Memory
