import SystemLevel.Foundations.ByteMemory
import SystemLevel.Foundations.Runs

namespace SystemLevel.Memory

open FixedCodec

/-- `sizeof(T)`, `alignof(T)` and `ObjectsPerSlab`. No type is larger than a `ptrdiff_t` can tell, and none is aligned
to more than a page. -/
structure SlabLayout where
  sizeOf : UInt64
  alignOf : UInt64
  objectsPerSlab : UInt64
  sizeOf_lt : sizeOf.toNat < 2 ^ 63
  alignOf_eq : ∃ k ≤ 12, alignOf.toNat = 2 ^ k
  objectsPerSlab_pos : 0 < objectsPerSlab.toNat

namespace SlabLayout

variable (layout : SlabLayout)

def objectSize : UInt64 := if layout.sizeOf < 8 then 8 else layout.sizeOf

def alignment : UInt64 := if layout.alignOf < 8 then 8 else layout.alignOf

def chunkSize : UInt64 := (layout.objectSize + (layout.alignment - 1)) &&& ~~~(layout.alignment - 1)

def slabSize : UInt64 := layout.chunkSize * layout.objectsPerSlab

def chunkAt (base : UInt64) (i : ℕ) : UInt64 := base + UInt64.ofNat i * layout.chunkSize

def chunksOf (base : UInt64) : List UInt64 := (List.range layout.objectsPerSlab.toNat).map (layout.chunkAt base)

def chunks (slabs : List UInt64) : List UInt64 := slabs.flatMap layout.chunksOf

end SlabLayout

structure SlabAllocator where
  freeHead : UInt64 := 0
  slabs : List UInt64 := []
  activeObjects : UInt64 := 0
  memory : ByteMemory

namespace SlabAllocator

variable (layout : SlabLayout) (s : SlabAllocator)

def next (chunk : UInt64) : UInt64 := s.memory.load u64 chunk.toNat

def push (chunk : UInt64) : SlabAllocator :=
  { s with memory := s.memory.store u64 chunk.toNat s.freeHead, freeHead := chunk }

def growSlab (mapped : Option UInt64) : SlabAllocator :=
  match mapped with
  | none => s
  | some base =>
    (layout.chunksOf base).foldl push
      { s with
        slabs := s.slabs ++ [base]
        memory := s.memory.fill base.toNat layout.slabSize.toNat fun _ => 0 }

def init (memory : ByteMemory) (mapped : Option UInt64) : SlabAllocator :=
  growSlab layout { memory } mapped

def ready (mapped : Option UInt64) : SlabAllocator := if s.freeHead = 0 then s.growSlab layout mapped else s

def take : SlabAllocator :=
  { s with freeHead := s.next s.freeHead, activeObjects := s.activeObjects + 1 }

def allocate (mapped : Option UInt64) : UInt64 × SlabAllocator :=
  let s := s.ready layout mapped
  if s.freeHead = 0 then (0, s) else (s.freeHead, s.take)

def deallocate (ptr : UInt64) : SlabAllocator :=
  if ptr = 0 then s else { s.push ptr with activeObjects := s.activeObjects - 1 }

def write (chunk : UInt64) (contents : ByteMemory) : SlabAllocator :=
  { s with memory := s.memory.fill chunk.toNat layout.objectSize.toNat contents }

/-- The constructor of the object leaves its bytes with the given contents, and then may throw, which is no result. -/
def construct (mapped : Option UInt64) (contents : ByteMemory) (throws : Bool) : Option UInt64 × SlabAllocator :=
  let result := s.allocate layout mapped
  if result.1 = 0 then (some 0, result.2)
  else (if throws then none else some result.1, result.2.write layout result.1 contents)

def destroy (ptr : UInt64) (contents : ByteMemory) : SlabAllocator :=
  if ptr = 0 then s else (s.write layout ptr contents).deallocate ptr

end SlabAllocator

namespace SlabLayout

variable (layout : SlabLayout)

/-- What is known of the address of a new slab: `mmap` returns pages that no other mapping has. -/
structure Fresh (slabs : List UInt64) (base : UInt64) : Prop where
  pos : 0 < base.toNat
  page : 4096 ∣ base.toNat
  inside : base.toNat + layout.slabSize.toNat ≤ 2 ^ 64
  apart : ∀ slab ∈ slabs, slab.toNat + layout.slabSize.toNat ≤ base.toNat ∨
    base.toNat + layout.slabSize.toNat ≤ slab.toNat

def NoWrap : Prop := layout.chunkSize.toNat * layout.objectsPerSlab.toNat < 2 ^ 64

instance decidableNoWrap : Decidable layout.NoWrap := inferInstanceAs (Decidable (_ < _))

end SlabLayout

end SystemLevel.Memory
