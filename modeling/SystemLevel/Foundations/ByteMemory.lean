import Mathlib.Data.List.Basic
import SystemLevel.Foundations.FixedCodec

/-!
Memory as bytes at addresses, the values that a codec stores in it, and lists that are linked through their elements.
-/

namespace SystemLevel

abbrev ByteMemory := ℕ → UInt8

namespace ByteMemory

variable {α : Type} (c : FixedCodec α) (m : ByteMemory)

def bytesAt (a n : ℕ) : Bytes := (List.range n).map fun i => m (a + i)

def load (a : ℕ) : α := c.decode (m.bytesAt a c.size)

def fill (a n : ℕ) (contents : ByteMemory) : ByteMemory :=
  fun x => if a ≤ x ∧ x < a + n then contents x else m x

def store (a : ℕ) (v : α) : ByteMemory := m.fill a c.size fun x => (c.encode v).getD (x - a) 0

variable {c m}

theorem bytesAt_fill_apart {a n b k : ℕ} (h : a + n ≤ b ∨ b + k ≤ a) (contents : ByteMemory) :
    (m.fill b k contents).bytesAt a n = m.bytesAt a n := by
  apply List.map_congr_left
  intro i hi
  have hlt := List.mem_range.mp hi
  exact if_neg (by omega)

theorem load_fill_apart {a b k : ℕ} (h : a + c.size ≤ b ∨ b + k ≤ a) (contents : ByteMemory) :
    (m.fill b k contents).load c a = m.load c a := by
  rw [load, load, bytesAt_fill_apart h]

theorem store_apply {a i : ℕ} (h : i < c.size) (v : α) : m.store c a v (a + i) = (c.encode v).getD i 0 := by
  unfold store fill
  rw [if_pos (by omega)]
  change (c.encode v).getD (a + i - a) 0 = _
  rw [Nat.add_sub_cancel_left]

theorem bytesAt_store (a : ℕ) (v : α) : (m.store c a v).bytesAt a c.size = c.encode v := by
  apply List.ext_getElem
  · rw [bytesAt, List.length_map, List.length_range, c.encode_length]
  · intro i hi hi'
    simp only [bytesAt, List.getElem_map, List.getElem_range]
    rw [store_apply (c.encode_length v ▸ hi'), List.getD_eq_getElem]

theorem load_store (a : ℕ) (v : α) : (m.store c a v).load c a = v := by
  rw [load, bytesAt_store]
  exact c.decode_encode v

end ByteMemory

def LinkedFrom {A : Type} (null : A) (next : A → A) : A → List A → Prop
  | head, [] => head = null
  | head, a :: rest => head = a ∧ a ≠ null ∧ LinkedFrom null next (next a) rest

namespace LinkedFrom

variable {A : Type} {null head : A} {next next' : A → A} {xs : List A}

theorem congr (h : LinkedFrom null next head xs) (hagree : ∀ a ∈ xs, next' a = next a) :
    LinkedFrom null next' head xs := by
  induction xs generalizing head with
  | nil => exact h
  | cons a rest ih =>
    obtain ⟨hhead, hne, hrest⟩ := h
    refine ⟨hhead, hne, ?_⟩
    rw [hagree a List.mem_cons_self]
    exact ih hrest fun b hb => hagree b (List.mem_cons_of_mem a hb)

theorem push (h : LinkedFrom null next head xs) {a : A} (hne : a ≠ null) (hagree : ∀ b ∈ xs, next' b = next b)
    (hnext : next' a = head) : LinkedFrom null next' a (a :: xs) :=
  ⟨rfl, hne, hnext ▸ h.congr hagree⟩

theorem eq_nil (h : LinkedFrom null next null xs) : xs = [] := by
  cases xs with
  | nil => rfl
  | cons a rest => exact absurd h.1.symm h.2.1

theorem exists_cons (h : LinkedFrom null next head xs) (hne : head ≠ null) :
    ∃ rest, xs = head :: rest ∧ LinkedFrom null next (next head) rest := by
  cases xs with
  | nil => exact absurd h hne
  | cons a rest =>
    obtain ⟨rfl, -, hrest⟩ := h
    exact ⟨rest, rfl, hrest⟩

theorem unique {ys : List A} (hxs : LinkedFrom null next head xs) (hys : LinkedFrom null next head ys) : xs = ys := by
  induction xs generalizing head ys with
  | nil =>
    obtain rfl := hxs
    exact hys.eq_nil.symm
  | cons a rest ih =>
    obtain ⟨rfl, hne, hrest⟩ := hxs
    obtain ⟨rest', rfl, hrest'⟩ := hys.exists_cons hne
    rw [ih hrest hrest']

end LinkedFrom

end SystemLevel
