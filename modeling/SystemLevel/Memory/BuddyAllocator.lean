import SystemLevel.Foundations.Runs

namespace SystemLevel.Memory

open Runs

/-- A block is the offset of its first byte in the arena. -/
structure BuddyAllocator where
  freeLists : ℕ → List ℕ
  allocatedBytes : UInt64 := 0
  splitCount : UInt64 := 0
  mergeCount : UInt64 := 0

namespace BuddyAllocator

def minBlockSize : ℕ := 4096

def maxOrder : ℕ := 8

def poolSize : ℕ := minBlockSize <<< maxOrder

def construct : BuddyAllocator where
  freeLists := Function.update (fun _ => []) maxOrder [0]

def orderToSize (order : ℕ) : ℕ := minBlockSize <<< order

def growOrder (bytes : ℕ) : ℕ → ℕ → ℕ → ℕ
  | 0, _, order => order
  | left + 1, size, order => if size < bytes then growOrder bytes left (size <<< 1) (order + 1) else order

def sizeToOrder (bytes : ℕ) : ℕ :=
  if bytes ≤ minBlockSize then 0 else growOrder bytes maxOrder minBlockSize 0

def setList (a : BuddyAllocator) (order : ℕ) (blocks : List ℕ) : BuddyAllocator :=
  { a with freeLists := Function.update a.freeLists order blocks }

def pushBack (a : BuddyAllocator) (order block : ℕ) : BuddyAllocator :=
  a.setList order (a.freeLists order ++ [block])

def findOrder (a : BuddyAllocator) : ℕ → ℕ → Option ℕ
  | 0, _ => none
  | left + 1, order => if (a.freeLists order).isEmpty then a.findOrder left (order + 1) else some order

def splitDown (a : BuddyAllocator) (order block : ℕ) : ℕ → BuddyAllocator
  | 0 => a
  | current + 1 =>
    if order < current + 1 then
      splitDown { a.pushBack current (block + orderToSize current) with splitCount := a.splitCount + 1 }
        order block current
    else a

def allocate (a : BuddyAllocator) (bytes : ℕ) : Option ℕ × BuddyAllocator :=
  if bytes = 0 ∨ poolSize < bytes then (none, a)
  else
    let order := sizeToOrder bytes
    if maxOrder < order then (none, a)
    else
      match a.findOrder (maxOrder + 1 - order) order with
      | none => (none, a)
      | some current =>
        let block := (a.freeLists current).getLastD 0
        let a := (a.setList current (a.freeLists current).dropLast).splitDown order block current
        (some block, { a with allocatedBytes := a.allocatedBytes + UInt64.ofNat (orderToSize order) })

def coalesce (a : BuddyAllocator) : ℕ → ℕ → ℕ → BuddyAllocator
  | 0, block, order => a.pushBack order block
  | left + 1, block, order =>
    let buddy := block ^^^ orderToSize order
    if buddy ∈ a.freeLists order then
      coalesce { a.setList order ((a.freeLists order).erase buddy) with mergeCount := a.mergeCount + 1 } left
        (if block < buddy then block else buddy) (order + 1)
    else a.pushBack order block

def deallocate (a : BuddyAllocator) (ptr : Option ℕ) (bytes : ℕ) : BuddyAllocator :=
  match ptr with
  | none => a
  | some block =>
    if bytes = 0 then a
    else
      let order := sizeToOrder bytes
      if maxOrder < order then a
      else
        coalesce { a with allocatedBytes := a.allocatedBytes - UInt64.ofNat (orderToSize order) }
          (maxOrder - order) block order

inductive Op
  | allocate (bytes : ℕ)
  | deallocate (ptr : Option ℕ) (bytes : ℕ)
  deriving DecidableEq, Repr

end BuddyAllocator

open BuddyAllocator

structure Heap where
  allocator : BuddyAllocator
  live : List (ℕ × ℕ)

namespace Heap

def step (h : Heap) : Op → Heap
  | .allocate bytes =>
    let result := h.allocator.allocate bytes
    { allocator := result.2, live := h.live ++ (result.1.map fun block => (block, bytes)).toList }
  | .deallocate ptr bytes =>
    { allocator := h.allocator.deallocate ptr bytes
      live := match ptr with
        | none => h.live
        | some block => h.live.erase (block, bytes) }

abbrev run (ops : List Op) : Heap := Runs.run step { allocator := construct, live := [] } ops

/-- What is given back has been got with the same size, and has not been given back yet. -/
def Returnable (past : List Op) : Op → Prop
  | .deallocate (some block) bytes => (block, bytes) ∈ (run past).live
  | _ => True

instance (past : List Op) : (op : Op) → Decidable (Returnable past op)
  | .deallocate (some block) bytes => inferInstanceAs (Decidable ((block, bytes) ∈ (run past).live))
  | .deallocate none _ => inferInstanceAs (Decidable True)
  | .allocate _ => inferInstanceAs (Decidable True)

end Heap

end SystemLevel.Memory
