import SystemLevel.Simd.VectorPipeline

namespace SystemLevel.Simd

open StridedLoops M256d

variable {R : Type}

structure AosMarketTick (R : Type) where
  price : R
  volume : R

structure SoaTickDataset (R : Type) where
  size : ℕ
  prices : ℕ → R
  volumes : ℕ → R

def SoaTickDataset.ticks (dataset : SoaTickDataset R) : List (AosMarketTick R) :=
  (List.range dataset.size).map fun i => { price := dataset.prices i, volume := dataset.volumes i }

variable [CommSemiring R]

def calculateTurnoverAosScalar (ticks : List (AosMarketTick R)) : R :=
  ticks.foldl (fun total tick => total + tick.price * tick.volume) 0

def addTurnover (dataset : SoaTickDataset R) (i : ℕ) (total : R) : R :=
  (strided 0 dataset.size (fun i total => total + dataset.prices i * dataset.volumes i) i total).2

def calculateTurnoverSoaScalar (dataset : SoaTickDataset R) : R := addTurnover dataset 0 0

structure Accumulators (R : Type) where
  sum0 : M256d R
  sum1 : M256d R
  sum2 : M256d R
  sum3 : M256d R

def setzero : M256d R := fun _ => 0

def addPd (a b : M256d R) : M256d R := fun k => a k + b k

def accumulate (dataset : SoaTickDataset R) (i : ℕ) (s : Accumulators R) : Accumulators R where
  sum0 := fmadd (load dataset.prices i) (load dataset.volumes i) s.sum0
  sum1 := fmadd (load dataset.prices (i + 4)) (load dataset.volumes (i + 4)) s.sum1
  sum2 := fmadd (load dataset.prices (i + 8)) (load dataset.volumes (i + 8)) s.sum2
  sum3 := fmadd (load dataset.prices (i + 12)) (load dataset.volumes (i + 12)) s.sum3

def Accumulators.reduce (s : Accumulators R) : R :=
  let temp := stream (fun _ => 0) 0 (addPd (addPd s.sum0 s.sum1) (addPd s.sum2 s.sum3))
  temp 0 + temp 1 + temp 2 + temp 3

def calculateTurnoverSoaAvx2 (dataset : SoaTickDataset R) : R :=
  let blocks := strided 15 dataset.size (accumulate dataset) 0 ⟨setzero, setzero, setzero, setzero⟩
  addTurnover dataset blocks.1 blocks.2.reduce

def SoaTickDataset.turnoverUpTo (dataset : SoaTickDataset R) (n : ℕ) : R :=
  ∑ i ∈ Finset.range n, dataset.prices i * dataset.volumes i

theorem addTurnover_eq (dataset : SoaTickDataset R) {i : ℕ} (hi : i ≤ dataset.size) {total : R}
    (htotal : total = dataset.turnoverUpTo i) : addTurnover dataset i total = dataset.turnoverUpTo dataset.size := by
  have hsum := (@strided_induct _ 0 dataset.size (fun i total => total + dataset.prices i * dataset.volumes i) i total
    (fun i total => total = dataset.turnoverUpTo i) htotal (by
      rintro i total - rfl
      exact (Finset.sum_range_succ _ i).symm)).1
  rw [strided_tail hi] at hsum
  exact hsum

theorem Accumulators.reduce_eq (s : Accumulators R) :
    s.reduce = ∑ k, (s.sum0 k + s.sum1 k + (s.sum2 k + s.sum3 k)) := by
  rw [Fin.sum_univ_four]
  rfl

theorem reduce_accumulate (dataset : SoaTickDataset R) (i : ℕ) (s : Accumulators R) :
    (accumulate dataset i s).reduce =
      s.reduce + ∑ k ∈ Finset.range 16, dataset.prices (i + k) * dataset.volumes (i + k) := by
  rw [Accumulators.reduce_eq, Accumulators.reduce_eq, Fin.sum_univ_four, Fin.sum_univ_four]
  simp only [accumulate, fmadd, load, Finset.sum_range_succ, Finset.sum_range_zero, Fin.isValue, Fin.val_zero,
    Fin.val_one, Fin.val_two, add_assoc, Nat.reduceAdd]
  have hthree : ((3 : Fin 4) : ℕ) = 3 := rfl
  simp only [hthree, Nat.reduceAdd, add_zero, zero_add]
  ring

theorem avx2_eq (dataset : SoaTickDataset R) :
    calculateTurnoverSoaAvx2 dataset = dataset.turnoverUpTo dataset.size := by
  obtain ⟨⟨hle, hsum⟩, -⟩ := @strided_induct _ 15 dataset.size (accumulate dataset) 0
    ⟨setzero, setzero, setzero, setzero⟩ (fun i s => i ≤ dataset.size ∧ s.reduce = dataset.turnoverUpTo i)
    ⟨Nat.zero_le _, by simp [Accumulators.reduce_eq, setzero, SoaTickDataset.turnoverUpTo]⟩ (by
      rintro i s hnext ⟨-, hs⟩
      refine ⟨hnext, ?_⟩
      rw [reduce_accumulate, hs, SoaTickDataset.turnoverUpTo, SoaTickDataset.turnoverUpTo, Finset.sum_range_add])
  exact addTurnover_eq dataset hle hsum

theorem aos_eq (dataset : SoaTickDataset R) (n : ℕ) :
    calculateTurnoverAosScalar ({ dataset with size := n } : SoaTickDataset R).ticks = dataset.turnoverUpTo n := by
  induction n with
  | zero => rfl
  | succ n ih =>
    rw [SoaTickDataset.turnoverUpTo, Finset.sum_range_succ]
    change _ = dataset.turnoverUpTo n + _
    rw [← ih]
    simp [calculateTurnoverAosScalar, SoaTickDataset.ticks, List.range_succ]

theorem turnovers_agree (dataset : SoaTickDataset R) :
    calculateTurnoverSoaAvx2 dataset = calculateTurnoverSoaScalar dataset ∧
      calculateTurnoverSoaScalar dataset = calculateTurnoverAosScalar dataset.ticks := by
  have hscalar : calculateTurnoverSoaScalar dataset = dataset.turnoverUpTo dataset.size :=
    addTurnover_eq dataset (Nat.zero_le _) rfl
  refine ⟨(avx2_eq dataset).trans hscalar.symm, hscalar.trans ?_⟩
  exact (aos_eq dataset dataset.size).symm

end SystemLevel.Simd
