import SystemLevel.Foundations.FixedCodec

/-!
Byte buffers that are read and overwritten in ranges. A range behind the end of the buffer extends it,
with zeros in between, as a write to a file does.
-/

namespace SystemLevel

def slice (buf : Bytes) (off len : ℕ) : Bytes := (buf.drop off).take len

def splice (buf : Bytes) (off : ℕ) (bs : Bytes) : Bytes :=
  (buf ++ List.replicate (off - buf.length) 0).take off ++ bs ++ buf.drop (off + bs.length)

def Apart (i len j len' : ℕ) : Prop := i + len ≤ j ∨ j + len' ≤ i

namespace Buffers

variable (buf : Bytes) (off : ℕ) (bs : Bytes)

theorem getElem?_slice (len i : ℕ) : (slice buf off len)[i]? = if i < len then buf[off + i]? else none := by
  rw [slice, List.getElem?_take, List.getElem?_drop]

theorem getElem?_splice (i : ℕ) : (splice buf off bs)[i]? =
    if i < off then (buf ++ List.replicate (off - buf.length) 0)[i]?
    else if i < off + bs.length then bs[i - off]? else buf[i]? := by
  have hlen : ((buf ++ List.replicate (off - buf.length) 0).take off).length = off := by
    rw [List.length_take, List.length_append, List.length_replicate]
    omega
  rw [splice, List.append_assoc, List.getElem?_append, hlen]
  split_ifs with hbefore hin
  · rw [List.getElem?_take_of_lt hbefore]
  · rw [List.getElem?_append_left (by omega)]
  · rw [List.getElem?_append_right (by omega), List.getElem?_drop]
    congr 1
    omega

theorem length_splice : (splice buf off bs).length = max buf.length (off + bs.length) := by
  simp only [splice, List.length_append, List.length_take, List.length_replicate, List.length_drop]
  omega

theorem length_slice {len : ℕ} (h : off + len ≤ buf.length) : (slice buf off len).length = len := by
  rw [slice, List.length_take, List.length_drop]
  omega

theorem slice_splice_inside {i len : ℕ} (hi : off ≤ i) (hlen : i + len ≤ off + bs.length) :
    slice (splice buf off bs) i len = slice bs (i - off) len := by
  apply List.ext_getElem?
  intro j
  rw [getElem?_slice, getElem?_slice]
  split_ifs with hj
  · rw [getElem?_splice, if_neg (by omega), if_pos (by omega)]
    congr 1
    omega
  · rfl

theorem slice_all : slice bs 0 bs.length = bs := by
  rw [slice, List.drop_zero, List.take_length]

theorem slice_splice_self : slice (splice buf off bs) off bs.length = bs := by
  rw [slice_splice_inside buf off bs le_rfl le_rfl, Nat.sub_self, slice_all]

variable {buf off bs}

theorem splice_all (h : buf.length ≤ bs.length) : splice buf 0 bs = bs := by
  rw [splice, List.take_zero, List.nil_append, List.drop_of_length_le (by omega), List.append_nil]

theorem slice_splice_apart {i len : ℕ} (hlen : i + len ≤ buf.length) (h : Apart i len off bs.length) :
    slice (splice buf off bs) i len = slice buf i len := by
  apply List.ext_getElem?
  intro j
  rw [getElem?_slice, getElem?_slice]
  split_ifs with hj
  · rw [getElem?_splice]
    cases h with
    | inl h => rw [if_pos (by omega), List.getElem?_append_left (by omega)]
    | inr h => rw [if_neg (by omega), if_neg (by omega)]
  · rfl

theorem slice_splice_hole {i len : ℕ} (hi : buf.length ≤ i) (hlen : i + len ≤ off) :
    slice (splice buf off bs) i len = List.replicate len 0 := by
  apply List.ext_getElem?
  intro j
  rw [getElem?_slice, List.getElem?_replicate]
  split_ifs with hj
  · rw [getElem?_splice, if_pos (by omega), List.getElem?_append_right (by omega), List.getElem?_replicate,
      if_pos (by omega)]
  · rfl

theorem slice_slice {i len j len' : ℕ} (h : j + len' ≤ len) :
    slice (slice buf i len) j len' = slice buf (i + j) len' := by
  apply List.ext_getElem?
  intro k
  rw [getElem?_slice, getElem?_slice, getElem?_slice]
  split_ifs with hk
  · rw [Nat.add_assoc]
  · omega
  · rfl

theorem sum_le_of_apart {s : Finset ℕ} {start extent : ℕ → ℕ} {low high : ℕ}
    (hinside : ∀ i ∈ s, low ≤ start i ∧ start i + extent i ≤ high)
    (hapart : ∀ i ∈ s, ∀ j ∈ s, i ≠ j → Apart (start i) (extent i) (start j) (extent j)) :
    ∑ i ∈ s, extent i ≤ high - low := by
  have hdisjoint : (s : Set ℕ).PairwiseDisjoint fun i => Finset.Ico (start i) (start i + extent i) := by
    intro i hi j hj hij
    rw [Function.onFun, Finset.disjoint_left]
    intro x hx hx'
    have := hapart i hi j hj hij
    unfold Apart at this
    rw [Finset.mem_Ico] at hx hx'
    omega
  have hsubset : s.biUnion (fun i => Finset.Ico (start i) (start i + extent i)) ⊆ Finset.Ico low high := by
    intro x hx
    obtain ⟨i, hi, hx⟩ := Finset.mem_biUnion.mp hx
    have := hinside i hi
    rw [Finset.mem_Ico] at hx ⊢
    omega
  have hcard := Finset.card_le_card hsubset
  rw [Finset.card_biUnion hdisjoint, Nat.card_Ico] at hcard
  simpa using hcard

end Buffers

namespace FixedCodec

variable {α : Type} (c : FixedCodec α)

def load (buf : Bytes) (off : ℕ) : α := c.decode (slice buf off c.size)

def store (buf : Bytes) (off : ℕ) (x : α) : Bytes := splice buf off (c.encode x)

@[simp] theorem load_store (buf : Bytes) (off : ℕ) (x : α) : c.load (c.store buf off x) off = x := by
  rw [load, store, ← c.encode_length x, Buffers.slice_splice_self, c.decode_encode]

theorem load_splice_apart {buf bs : Bytes} {i off : ℕ} (hlen : i + c.size ≤ buf.length)
    (h : Apart i c.size off bs.length) : c.load (splice buf off bs) i = c.load buf i := by
  rw [load, load, Buffers.slice_splice_apart hlen h]

end FixedCodec

end SystemLevel
