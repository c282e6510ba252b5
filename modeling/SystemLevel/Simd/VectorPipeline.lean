import SystemLevel.Foundations.StridedLoops

/-!
`VectorPipeline` over lanes of any type. Arrays are functions of the index, of which only the first `count` values are
read and written.
-/

namespace SystemLevel.Simd

open StridedLoops

abbrev M256d (α : Type) := Fin 4 → α

namespace M256d

variable {α : Type}

def set1 (a : α) : M256d α := fun _ => a

def load (p : ℕ → α) (i : ℕ) : M256d α := fun k => p (i + k)

def stream (p : ℕ → α) (i : ℕ) (r : M256d α) : ℕ → α :=
  fun j => if i ≤ j ∧ j < i + 4 then r (Fin.ofNat 4 (j - i)) else p j

def fmadd [Mul α] [Add α] (a b c : M256d α) : M256d α := fun k => a k * b k + c k

def min [LT α] [DecidableLT α] (a b : M256d α) : M256d α := fun k => if a k < b k then a k else b k

def max [LT α] [DecidableLT α] (a b : M256d α) : M256d α := fun k => if a k > b k then a k else b k

theorem stream_map {β : Type} (src : ℕ → β) (dst : ℕ → α) (g : β → α) (i j : ℕ) :
    stream dst i (fun k => g (load src i k)) j = if i ≤ j ∧ j < i + 4 then g (src j) else dst j := by
  unfold stream
  split_ifs with hj
  · have hlane : i + (Fin.ofNat 4 (j - i)).val = j := by
      rw [Fin.val_ofNat, Nat.mod_eq_of_lt (by omega)]
      omega
    change g (src (i + (Fin.ofNat 4 (j - i)).val)) = g (src j)
    rw [hlane]
  · rfl

end M256d

namespace VectorPipeline

open M256d

variable {α : Type}

section FmaStream

variable [Mul α] [Add α] (src dst : ℕ → α) (count : ℕ) (scale bias : α)

def fmaUnrolled : ℕ × (ℕ → α) :=
  strided 15 count (fun i dst =>
    let r0 := fmadd (load src i) (set1 scale) (set1 bias)
    let r1 := fmadd (load src (i + 4)) (set1 scale) (set1 bias)
    let r2 := fmadd (load src (i + 8)) (set1 scale) (set1 bias)
    let r3 := fmadd (load src (i + 12)) (set1 scale) (set1 bias)
    stream (stream (stream (stream dst i r0) (i + 4) r1) (i + 8) r2) (i + 12) r3) 0 dst

def fmaBlocks : ℕ × (ℕ → α) :=
  let unrolled := fmaUnrolled src dst count scale bias
  strided 3 count (fun i dst => stream dst i (fmadd (load src i) (set1 scale) (set1 bias))) unrolled.1 unrolled.2

def fmaStream : ℕ → α :=
  let blocks := fmaBlocks src dst count scale bias
  (strided 0 count (fun i dst => Function.update dst i (src i * scale + bias)) blocks.1 blocks.2).2

end FmaStream

section ClampStream

variable [LinearOrder α]

def clampScalar (minVal maxVal x : α) : α := if x < minVal then minVal else if x > maxVal then maxVal else x

def clampBlocks (src dst : ℕ → α) (count : ℕ) (minVal maxVal : α) : ℕ × (ℕ → α) :=
  strided 7 count (fun i dst =>
    let r0 := M256d.max (set1 minVal) (M256d.min (set1 maxVal) (load src i))
    let r1 := M256d.max (set1 minVal) (M256d.min (set1 maxVal) (load src (i + 4)))
    stream (stream dst i r0) (i + 4) r1) 0 dst

def clampStream (src dst : ℕ → α) (count : ℕ) (minVal maxVal : α) : ℕ → α :=
  let blocks := clampBlocks src dst count minVal maxVal
  (strided 0 count (fun i dst => Function.update dst i (clampScalar minVal maxVal (src i))) blocks.1 blocks.2).2

def clampLane (minVal maxVal x : α) : α :=
  let capped := if maxVal < x then maxVal else x
  if minVal > capped then minVal else capped

end ClampStream

section Rounds

variable [Mul α] [Add α] (src dst : ℕ → α) (count : ℕ) (scale bias : α)

theorem stream_fmadd (i j : ℕ) : stream dst i (fmadd (load src i) (set1 scale) (set1 bias)) j =
    if i ≤ j ∧ j < i + 4 then src j * scale + bias else dst j :=
  stream_map src dst (fun x => x * scale + bias) i j

theorem fmaUnrolled_apply (j : ℕ) : (fmaUnrolled src dst count scale bias).2 j =
    if j < (fmaUnrolled src dst count scale bias).1 then src j * scale + bias else dst j := by
  rw [fmaUnrolled, strided_fill fun j => src j * scale + bias]
  · simp only [Nat.zero_le, true_and]
  · intro i a j
    simp only [stream_fmadd]
    split_ifs <;> first | rfl | omega

theorem fmaUnrolled_le : (fmaUnrolled src dst count scale bias).1 ≤ count :=
  (strided_between (Nat.zero_le count) _ _).2

theorem fmaBlocks_between : (fmaUnrolled src dst count scale bias).1 ≤ (fmaBlocks src dst count scale bias).1 ∧
    (fmaBlocks src dst count scale bias).1 ≤ count :=
  strided_between (fmaUnrolled_le src dst count scale bias) _ _

theorem fmaBlocks_apply (j : ℕ) : (fmaBlocks src dst count scale bias).2 j =
    if j < (fmaBlocks src dst count scale bias).1 then src j * scale + bias else dst j := by
  have hbetween := fmaBlocks_between src dst count scale bias
  have hfill : (fmaBlocks src dst count scale bias).2 j =
      if (fmaUnrolled src dst count scale bias).1 ≤ j ∧ j < (fmaBlocks src dst count scale bias).1 then
        src j * scale + bias
      else (fmaUnrolled src dst count scale bias).2 j :=
    strided_fill (fun j => src j * scale + bias) (fun i a j => stream_fmadd src a scale bias i j) _ _ j
  rw [hfill, fmaUnrolled_apply]
  split_ifs <;> first | rfl | omega

theorem fmaStream_apply (j : ℕ) :
    fmaStream src dst count scale bias j = if j < count then src j * scale + bias else dst j := by
  have hbetween := fmaBlocks_between src dst count scale bias
  refine (strided_tail_fill (fun j => src j * scale + bias) hbetween.2 _ j).trans ?_
  rw [fmaBlocks_apply]
  split_ifs <;> first | rfl | omega

end Rounds

section Clamps

variable [LinearOrder α] (src dst : ℕ → α) (count : ℕ) (minVal maxVal : α)

theorem clampBlocks_apply (j : ℕ) : (clampBlocks src dst count minVal maxVal).2 j =
    if j < 8 * (count / 8) then clampLane minVal maxVal (src j) else dst j := by
  have hstream (dst : ℕ → α) (i j : ℕ) :
      stream dst i (M256d.max (set1 minVal) (M256d.min (set1 maxVal) (load src i))) j =
        if i ≤ j ∧ j < i + 4 then clampLane minVal maxVal (src j) else dst j :=
    stream_map src dst (clampLane minVal maxVal) i j
  rw [clampBlocks, strided_fill fun j => clampLane minVal maxVal (src j), strided_index]
  · simp only [Nat.zero_le, true_and, Nat.reduceAdd]
  · intro i a j
    simp only [hstream]
    split_ifs <;> first | rfl | omega

theorem clampStream_apply (j : ℕ) : clampStream src dst count minVal maxVal j =
    if j < 8 * (count / 8) then clampLane minVal maxVal (src j)
    else if j < count then clampScalar minVal maxVal (src j) else dst j := by
  have hblocks : (clampBlocks src dst count minVal maxVal).1 = 8 * (count / 8) := strided_index 7 count _ _
  refine (strided_tail_fill (fun j => clampScalar minVal maxVal (src j)) (by omega) _ j).trans ?_
  rw [clampBlocks_apply, hblocks]
  split_ifs <;> first | rfl | omega

end Clamps

theorem clampLane_eq_iff [LinearOrder α] (minVal maxVal x : α) :
    clampLane minVal maxVal x = clampScalar minVal maxVal x ↔ minVal ≤ maxVal ∨ x < minVal := by
  dsimp only [clampLane, clampScalar]
  constructor
  · intro heq
    by_contra hbounds
    obtain ⟨hcrossed, hx⟩ := not_or.mp hbounds
    rw [not_le] at hcrossed
    rw [not_lt] at hx
    have hmax := hcrossed.trans_le hx
    rw [if_pos hmax, if_pos hcrossed, if_neg (not_lt.mpr hx)] at heq
    exact hcrossed.ne' heq
  · rintro (hle | hx)
    · by_cases hmax : maxVal < x
      · have hmin := hle.trans hmax.le
        rw [if_pos hmax, if_neg (not_lt.mpr hle), if_neg (not_lt.mpr hmin)]
      · rw [if_neg hmax]
    · by_cases hmax : maxVal < x
      · rw [if_pos hmax, if_pos (hmax.trans hx), if_pos hx]
      · rw [if_neg hmax, if_pos hx]

theorem clamp_stream_scalar_iff [LinearOrder α] (src dst : ℕ → α) (count : ℕ) (minVal maxVal : α) :
    (∀ i < count, clampStream src dst count minVal maxVal i = clampScalar minVal maxVal (src i)) ↔
      ∀ i < 8 * (count / 8), minVal ≤ maxVal ∨ src i < minVal := by
  constructor
  · intro hagree i hi
    have hclamp := hagree i (by omega)
    rw [clampStream_apply, if_pos hi] at hclamp
    exact (clampLane_eq_iff minVal maxVal (src i)).mp hclamp
  · intro hbounds i hi
    rw [clampStream_apply]
    split_ifs with hblock
    · exact (clampLane_eq_iff minVal maxVal (src i)).mpr (hbounds i hblock)
    · rfl

theorem crossed_bounds_disagree :
    clampStream (fun _ => (5 : ℤ)) (fun _ => 0) 9 3 1 0 = 3 ∧ clampStream (fun _ => (5 : ℤ)) (fun _ => 0) 9 3 1 8 = 1 ∧
      clampScalar (3 : ℤ) 1 5 = 1 := by
  rw [clampStream_apply, clampStream_apply]
  decide

end VectorPipeline

end SystemLevel.Simd
