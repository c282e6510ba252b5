import Mathlib

/-!
Checksums that are folded over a sequence. A step that loses nothing, neither of the running state nor
of the symbol it takes in, makes a fold that sees every change of a single symbol.
-/

namespace SystemLevel.Checksums

variable {σ α : Type}

structure Lossless (f : σ → α → σ) : Prop where
  state : ∀ a, Function.Injective fun s => f s a
  symbol : ∀ s, Function.Injective (f s)

namespace Lossless

variable {f : σ → α → σ} (h : Lossless f)

include h

theorem foldl_injective (xs : List α) : Function.Injective fun s => xs.foldl f s := by
  induction xs with
  | nil => exact Function.injective_id
  | cons x xs ih => exact ih.comp (h.state x)

theorem foldl_set_ne {xs : List α} {i : ℕ} (hi : i < xs.length) {a : α} (ha : a ≠ xs[i]) (s : σ) :
    (xs.set i a).foldl f s ≠ xs.foldl f s := by
  induction xs generalizing i s with
  | nil => exact absurd hi (Nat.not_lt_zero i)
  | cons x xs ih =>
    cases i with
    | zero =>
      intro hfold
      exact ha (h.symbol s (h.foldl_injective xs hfold))
    | succ i => exact ih (Nat.lt_of_succ_lt_succ hi) ha (f s x)

end Lossless

def fnvStep (hash : UInt32) (byte : UInt8) : UInt32 := (hash ^^^ byte.toUInt32) * 0x01000193

theorem mul_right_injective_of_inverse {p q : UInt32} (h : p * q = 1) : Function.Injective fun x : UInt32 => x * p := by
  intro x y hxy
  have hinverse := congrArg (· * q) hxy
  simpa only [UInt32.mul_assoc, h, UInt32.mul_one] using hinverse

theorem fnvStep_lossless : Lossless fnvStep := by
  -- the prime is odd, so it has an inverse modulo 2 ^ 32
  have hmul := mul_right_injective_of_inverse (p := 0x01000193) (q := 0x359C449B) (by decide)
  refine ⟨fun byte x y hxy => ?_, fun hash b c hbc => ?_⟩
  · exact (UInt32.xor_left_inj byte.toUInt32).mp (hmul hxy)
  · have hbytes := (UInt32.xor_right_inj hash).mp (hmul hbc)
    have hnat := congrArg UInt32.toNat hbytes
    rw [UInt8.toNat_toUInt32, UInt8.toNat_toUInt32] at hnat
    exact UInt8.toNat_inj.mp hnat

end SystemLevel.Checksums
