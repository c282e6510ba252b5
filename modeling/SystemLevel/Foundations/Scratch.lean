import Mathlib
import SystemLevel.Foundations.FixedCodec

/-!
A buffer on the stack and the memory around it. Places are relative to the buffer, and every place that is
written is recorded, also one outside of the buffer.
-/

namespace SystemLevel

structure Scratch where
  bytes : ℤ → UInt8
  written : List ℤ := []

namespace Scratch

def store (s : Scratch) (place : ℤ) (c : UInt8) : Scratch where
  bytes := Function.update s.bytes place c
  written := s.written ++ [place]

def copy (s : Scratch) (place : ℤ) : Bytes → Scratch
  | [] => s
  | c :: text => (s.store place c).copy (place + 1) text

def read (s : Scratch) (place : ℤ) : ℕ → Bytes
  | 0 => []
  | n + 1 => s.bytes place :: s.read (place + 1) n

def readDown (s : Scratch) : ℕ → Bytes
  | 0 => []
  | n + 1 => s.bytes n :: s.readDown n

def Within (s : Scratch) (low high : ℤ) : Prop := ∀ place ∈ s.written, low ≤ place ∧ place < high

variable {s : Scratch} {place low high : ℤ}

theorem read_store_below {below : ℤ} {n : ℕ} (h : below < place) (c : UInt8) :
    (s.store below c).read place n = s.read place n := by
  induction n generalizing place with
  | zero => rfl
  | succ n ih =>
    have hne : place ≠ below := by omega
    rw [read, read, ih (by omega)]
    congr 1
    exact Function.update_of_ne hne c s.bytes

theorem readDown_store_above {n : ℕ} (h : (n : ℤ) ≤ place) (c : UInt8) :
    (s.store place c).readDown n = s.readDown n := by
  induction n with
  | zero => rfl
  | succ n ih =>
    have hne : (n : ℤ) ≠ place := by omega
    rw [readDown, readDown, ih (by omega)]
    congr 1
    exact Function.update_of_ne hne c s.bytes

theorem readDown_store (s : Scratch) (n : ℕ) (c : UInt8) : (s.store n c).readDown (n + 1) = c :: s.readDown n := by
  rw [readDown, readDown_store_above le_rfl]
  congr 1
  exact Function.update_self (n : ℤ) c s.bytes

theorem copy_below {below : ℤ} (h : below < place) (text : Bytes) :
    (s.copy place text).bytes below = s.bytes below := by
  induction text generalizing s place with
  | nil => rfl
  | cons c text ih =>
    rw [copy, ih (by omega)]
    exact Function.update_of_ne h.ne c s.bytes

theorem read_copy (s : Scratch) (place : ℤ) (text : Bytes) (n : ℕ) :
    (s.copy place text).read place (text.length + n) = text ++ s.read (place + text.length) n := by
  induction text generalizing s place with
  | nil =>
    rw [List.length_nil, Nat.zero_add, Nat.cast_zero, add_zero]
    rfl
  | cons c text ih =>
    have hplace : place + (c :: text).length = place + 1 + text.length := by
      rw [List.length_cons]
      omega
    have hlength : (c :: text).length + n = text.length + n + 1 := by
      rw [List.length_cons]
      omega
    have hfirst : ((s.store place c).copy (place + 1) text).bytes place = c := by
      rw [copy_below (by omega)]
      exact Function.update_self place c s.bytes
    rw [hplace, hlength, copy, read, hfirst, ih, read_store_below (by omega)]
    rfl

theorem Within.mono {low' high' : ℤ} (h : s.Within low high) (hlow : low' ≤ low) (hhigh : high ≤ high') :
    s.Within low' high' := by
  intro place hplace
  obtain ⟨hle, hlt⟩ := h place hplace
  exact ⟨hlow.trans hle, hlt.trans_le hhigh⟩

theorem Within.store (h : s.Within low high) (hlow : low ≤ place) (hhigh : place < high) (c : UInt8) :
    (s.store place c).Within low high := by
  intro other hother
  rcases List.mem_append.mp hother with hbefore | hnow
  · exact h other hbefore
  · rw [List.mem_singleton.mp hnow]
    exact ⟨hlow, hhigh⟩

theorem Within.copy (h : s.Within low high) (hlow : low ≤ place) {text : Bytes} (hhigh : place + text.length ≤ high) :
    (s.copy place text).Within low high := by
  induction text generalizing s place with
  | nil => exact h
  | cons c text ih =>
    rw [List.length_cons] at hhigh
    apply ih
    · exact h.store hlow (by omega) c
    · omega
    · omega

end Scratch

end SystemLevel
