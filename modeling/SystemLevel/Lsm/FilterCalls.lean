import SystemLevel.Foundations.Runs
import SystemLevel.Lsm.BloomFilter

namespace SystemLevel.Lsm

open Runs

inductive FilterCall
  | add (key : UInt64)
  | rebuild
  deriving DecidableEq, Repr

namespace BloomFilter

variable {b : BloomFilter} {key : UInt64}

def rawBits (b : BloomFilter) : List UInt64 := b.bits

def call (b : BloomFilter) : FilterCall → BloomFilter
  | .add key => b.add key
  | .rebuild => setRawBits b.rawBits b.numBits b.numHashes

def bitsInRound (b : BloomFilter) (key : UInt64) (i : ℕ) : List UInt64 :=
  (List.range i).foldl (fun bits j => setBit bits (b.combined key j)) b.bits

theorem length_bitsInRound (b : BloomFilter) (key : UInt64) (i : ℕ) :
    (b.bitsInRound key i).length = b.bits.length :=
  (setBits_spec (b.combined key) i b.bits).1

theorem call_fits (hb : b.Fits) (c : FilterCall) : (b.call c).Fits := by
  cases c with
  | add key => exact add_fits hb key
  | rebuild => exact hb

theorem contains_call (h : b.contains key = true) (c : FilterCall) : (b.call c).contains key = true := by
  cases c with
  | add other => exact contains_add_of_contains h other
  | rebuild => exact h

theorem calls_fit (hb : b.Fits) (calls : List FilterCall) : (run call b calls).Fits := by
  apply run_induct hb
  intro b c hb
  exact call_fits hb c

theorem contains_calls (h : b.contains key = true) (calls : List FilterCall) :
    (run call b calls).contains key = true := by
  apply run_induct (motive := fun b : BloomFilter => b.contains key = true) h
  intro b c h
  exact contains_call h c

theorem contains_added (hb : b.Fits) {calls : List FilterCall} (h : FilterCall.add key ∈ calls) :
    (run call b calls).contains key = true := by
  obtain ⟨before, after, rfl⟩ := List.append_of_mem h
  rw [List.append_cons, run_append, run_snoc]
  apply contains_calls
  exact contains_add (calls_fit hb before) key

theorem no_false_negatives {numBits : UInt64} (hpos : 1 ≤ numBits) (numHashes : UInt64) (calls : List FilterCall) :
    let b := run call (zeroed numBits numHashes) calls
    (∀ key, b.add key = { b with bits := b.bitsInRound key b.numHashes.toNat } ∧
        ∀ i < b.numHashes.toNat, (b.combined key i / 64).toNat < (b.bitsInRound key i).length ∧
          (b.combined key i / 64).toNat < b.bits.length) ∧
      (∀ key, FilterCall.add key ∈ calls → b.contains key = true) ∧
      ∀ key more, b.contains key = true → (run call b more).contains key = true := by
  intro b
  have hzeroed := zeroed_fits (UInt64.le_iff_toNat_le.mp hpos) numHashes
  have hb : b.Fits := calls_fit hzeroed calls
  refine ⟨?_, ?_, ?_⟩
  · intro key
    refine ⟨rfl, ?_⟩
    intro i _
    have hlt := combined_lt hb key i
    rw [length_bitsInRound]
    exact ⟨hlt, hlt⟩
  · intro key h
    exact contains_added hzeroed h
  · intro key more h
    exact contains_calls h more

theorem no_false_negatives_three_bits :
    let b := run call (zeroed 3 2) [FilterCall.add 7, FilterCall.rebuild, FilterCall.add 9]
    1 ≤ (3 : UInt64) ∧ b.contains 7 = true ∧ b.contains 9 = true ∧ (b.combined 7 1 / 64).toNat < b.bits.length := by
  intro b
  have h := no_false_negatives (by decide : 1 ≤ (3 : UInt64)) 2 [FilterCall.add 7, FilterCall.rebuild, FilterCall.add 9]
  refine ⟨by decide, h.2.1 7 (by decide), h.2.1 9 (by decide), ?_⟩
  exact ((h.1 7).2 1 (by decide +kernel)).2

end BloomFilter

end SystemLevel.Lsm
