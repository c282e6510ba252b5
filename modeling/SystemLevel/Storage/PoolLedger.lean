import SystemLevel.Storage.PageLayout
import SystemLevel.Storage.PoolSteps

namespace SystemLevel.Storage

open Runs

namespace DiskManager

def Stored (d : DiskManager) (pageId : UInt64) (page : SlottedPage) : Prop :=
  slice d.file (offset pageId) pageSize = page.bytes

variable {d : DiskManager} {pageId other : UInt64} {page page' : SlottedPage}

theorem offset_mod (pageId : UInt64) : offset pageId = pageId.toNat % 2 ^ 52 * 4096 := by
  rw [offset, UInt64.toNat_mul, UInt64.toNat_ofNat']
  change pageId.toNat * 4096 % 2 ^ 64 = pageId.toNat % 2 ^ 52 * 4096
  omega

def Collide (p q : UInt64) : Prop := p.toNat % 2 ^ 52 = q.toNat % 2 ^ 52

instance (p q : UInt64) : Decidable (Collide p q) := inferInstanceAs (Decidable (_ = _))

theorem apart_of_not_collide (h : ¬ Collide pageId other) : Apart (offset pageId) pageSize (offset other) pageSize := by
  have hsize : pageSize = 4096 := rfl
  rw [Collide] at h
  rw [Apart, offset_mod, offset_mod, hsize]
  omega

theorem not_collide_of_lt (hpage : pageId.toNat < 2 ^ 51) (hother : other.toNat < 2 ^ 51) (hne : pageId ≠ other) :
    ¬ Collide pageId other := by
  have hnat : pageId.toNat ≠ other.toNat := fun he => hne (UInt64.toNat_inj.mp he)
  rw [Collide]
  omega

theorem offset_lt_of_lt (hpage : pageId.toNat < 2 ^ 51) : offset pageId < 2 ^ 63 := by
  rw [offset_mod]
  omega

theorem stored_writePage (d : DiskManager) (pageId : UInt64) (page : SlottedPage) :
    (d.writePage pageId page).Stored pageId page := by
  rw [Stored, writePage, ← page.length_bytes]
  exact Buffers.slice_splice_self _ _ _

theorem Stored.length_le (h : d.Stored pageId page) : offset pageId + pageSize ≤ d.file.length := by
  have hlen := congrArg List.length h
  rw [slice, List.length_take, List.length_drop, page.length_bytes] at hlen
  have hsize : pageSize = 4096 := rfl
  omega

theorem Stored.writePage (h : d.Stored pageId page) (hne : ¬ Collide pageId other) :
    (d.writePage other page').Stored pageId page := by
  rw [Stored, DiskManager.writePage, Buffers.slice_splice_apart h.length_le]
  · exact h
  · rw [page'.length_bytes]
    exact apart_of_not_collide hne

theorem Stored.readPage (h : d.Stored pageId page) (hoffset : offset pageId < 2 ^ 63) :
    d.readPage pageId page' = page := by
  have hne : page.bytes ≠ [] := by
    intro hnil
    have hlen := page.length_bytes
    rw [hnil] at hlen
    exact absurd hlen (by decide)
  rw [DiskManager.readPage, if_pos hoffset, h, if_neg hne]
  apply SlottedPage.ext
  rw [SlottedPage.bytes_write _ (by rw [page.length_bytes, Nat.zero_add]), Buffers.splice_all]
  rw [page.length_bytes, page'.length_bytes]

end DiskManager

namespace BufferPoolManager

/-- A page is fresh until it is changed, unpinned dirty or flushed. If it loses its frame before that, what
`init` has put into it is lost. -/
inductive Standing
  | fresh
  | kept
  | lost
  deriving DecidableEq, Repr

/-- A pool, and what its clients know of each page: the bytes it had after the last change, its standing,
whether it has been changed since it was last unpinned dirty, and whether `new_page` has returned it. -/
structure Ledger where
  pool : BufferPoolManager
  contents : UInt64 → SlottedPage := fun _ => SlottedPage.zero
  standing : UInt64 → Standing := fun _ => .lost
  unsaved : UInt64 → Bool := fun _ => false
  created : UInt64 → Bool := fun _ => false

namespace Ledger

def keep (l : Ledger) (pageId : UInt64) : UInt64 → Standing :=
  if l.standing pageId = .fresh then Function.update l.standing pageId .kept else l.standing

def lose (l : Ledger) (pool' : BufferPoolManager) (pageId : UInt64) : Standing :=
  if l.standing pageId = .fresh ∧ pool'.pageTable.lookup pageId = none then .lost else l.standing pageId

def step (l : Ledger) (op : Op) : Ledger :=
  let pool' := l.pool.step op
  match op with
  | .newPage visit =>
    match (l.pool.newPage visit).1 with
    | none => { l with pool := pool' }
    | some (pageId, _) =>
      { pool := pool'
        contents := Function.update l.contents pageId (SlottedPage.init pageId)
        standing := Function.update (l.lose pool') pageId .fresh
        unsaved := Function.update l.unsaved pageId false
        created := Function.update l.created pageId true }
  | .fetchPage _ _ => { l with pool := pool', standing := l.lose pool' }
  | .unpinPage pageId isDirty =>
    if isDirty ∧ (l.pool.unpinPage pageId isDirty).1 then
      { l with pool := pool', standing := l.keep pageId, unsaved := Function.update l.unsaved pageId false }
    else { l with pool := pool' }
  | .flushPage pageId =>
    if (l.pool.flushPage pageId).1 then { l with pool := pool', standing := l.keep pageId }
    else { l with pool := pool' }
  | .flushAllPages _ => { l with pool := pool' }
  | .change pageId page =>
    { l with
      pool := pool'
      contents := Function.update l.contents pageId page
      standing := Function.update l.standing pageId .kept
      unsaved := Function.update l.unsaved pageId true }

/-- The clients use page ids that `new_page` has returned and change a page only while it is pinned, and a
changed page is unpinned dirty before or as its last pin is given back. The numbers of pages and of pins
stay below what the types can tell. -/
def Permitted (l : Ledger) : Op → Prop
  | .newPage _ => l.pool.disk.nextPageId.toNat < 2 ^ 51
  | .fetchPage _ pageId => l.created pageId = true ∧
    ∀ f, l.pool.pageTable.lookup pageId = some f → (l.pool.frames f).pinCount < 2 ^ 31 - 1
  | .unpinPage pageId isDirty => ∀ f, l.pool.pageTable.lookup pageId = some f →
    (l.pool.frames f).pinCount = 1 → l.unsaved pageId = true → isDirty = true
  | .change pageId _ => ∃ f, l.pool.pageTable.lookup pageId = some f ∧ 0 < (l.pool.frames f).pinCount
  | _ => True

end Ledger

abbrev ledger (poolSize : ℕ) (file : Bytes) (k : ℕ) (ops : List Op) : Ledger :=
  Runs.run Ledger.step { pool := construct poolSize file k } ops

def Disciplined (poolSize : ℕ) (file : Bytes) (k : ℕ) (past : List Op) (op : Op) : Prop :=
  (ledger poolSize file k past).Permitted op

end BufferPoolManager

end SystemLevel.Storage
