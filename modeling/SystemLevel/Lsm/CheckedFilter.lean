import SystemLevel.Lsm.BloomFilter

/-!
`add` and `contains` with every access to `bits_` checked against its size. Within bounds they are the unchecked ones.
-/

namespace SystemLevel.Lsm

inductive Fault
  | moduloZero
  | bits
  | index
  | record
  deriving DecidableEq, Repr

theorem ok_bind {α β : Type} (a : α) (f : α → Except Fault β) : (Except.ok a >>= f) = f a := rfl

def readAt {α : Type} (fault : Fault) (l : List α) (i : ℕ) : Except Fault α :=
  match l[i]? with
  | none => .error fault
  | some a => .ok a

theorem readAt_eq_ok {α : Type} (fault : Fault) {l : List α} {i : ℕ} (hi : i < l.length) :
    readAt fault l i = .ok l[i] := by
  rw [readAt, List.getElem?_eq_getElem hi]

namespace BloomFilter

def probe (b : BloomFilter) (key : UInt64) (i : ℕ) : Except Fault Bool :=
  if b.numBits = 0 then .error .moduloZero
  else do
    let word ← readAt .bits b.bits (b.combined key i / 64).toNat
    return (word &&& (1 <<< (b.combined key i % 64))) ≠ 0

def containsFrom (b : BloomFilter) (key : UInt64) : ℕ → ℕ → Except Fault Bool
  | 0, _ => .ok true
  | n + 1, i => do
    if ← b.probe key i then containsFrom b key n (i + 1) else return false

def containsChecked (b : BloomFilter) (key : UInt64) : Except Fault Bool := b.containsFrom key b.numHashes.toNat 0

theorem Fits.numBits_ne_zero {b : BloomFilter} (hb : b.Fits) : b.numBits ≠ 0 := by
  intro hzero
  have hnone := hb.1
  rw [hzero] at hnone
  exact absurd hnone (by decide)

theorem probe_eq_ok {b : BloomFilter} (hb : b.Fits) (key : UInt64) (i : ℕ) :
    b.probe key i = .ok (hasBit b.bits (b.combined key i)) := by
  have hi := combined_lt hb key i
  rw [probe, if_neg hb.numBits_ne_zero, readAt_eq_ok .bits hi, hasBit, List.getElem?_eq_getElem hi]
  rfl

theorem containsFrom_eq_ok {b : BloomFilter} (hb : b.Fits) (key : UInt64) (n i : ℕ) :
    b.containsFrom key n i = .ok ((List.range' i n).all fun j => hasBit b.bits (b.combined key j)) := by
  induction n generalizing i with
  | zero => rfl
  | succ n ih =>
    rw [containsFrom, probe_eq_ok hb, List.range'_succ, List.all_cons]
    cases hasBit b.bits (b.combined key i) with
    | false => rfl
    | true =>
      rw [Bool.true_and]
      exact ih (i + 1)

theorem containsChecked_eq_ok {b : BloomFilter} (hb : b.Fits) (key : UInt64) :
    b.containsChecked key = .ok (b.contains key) := by
  rw [containsChecked, containsFrom_eq_ok hb, contains, List.range_eq_range']

def addFrom (b : BloomFilter) (key : UInt64) : ℕ → ℕ → List UInt64 → Except Fault (List UInt64)
  | 0, _, bits => .ok bits
  | n + 1, i, bits =>
    if b.numBits = 0 then .error .moduloZero
    else do
      let _ ← readAt .bits bits (b.combined key i / 64).toNat
      b.addFrom key n (i + 1) (setBit bits (b.combined key i))

def addChecked (b : BloomFilter) (key : UInt64) : Except Fault BloomFilter := do
  return { b with bits := ← b.addFrom key b.numHashes.toNat 0 b.bits }

theorem addFrom_eq_ok {b : BloomFilter} (hb : b.Fits) (key : UInt64) (n i : ℕ) {bits : List UInt64}
    (hlength : bits.length = b.bits.length) :
    b.addFrom key n i bits = .ok ((List.range' i n).foldl (fun bits j => setBit bits (b.combined key j)) bits) := by
  induction n generalizing i bits with
  | zero => rfl
  | succ n ih =>
    have hset : (setBit bits (b.combined key i)).length = b.bits.length := by
      rw [setBit, List.length_modify, hlength]
    have hi : (b.combined key i / 64).toNat < bits.length := by
      rw [hlength]
      exact combined_lt hb key i
    rw [addFrom, if_neg hb.numBits_ne_zero, readAt_eq_ok .bits hi, ok_bind, ih (i + 1) hset, List.range'_succ,
      List.foldl_cons]

theorem addChecked_eq_ok {b : BloomFilter} (hb : b.Fits) (key : UInt64) : b.addChecked key = .ok (b.add key) := by
  rw [addChecked, addFrom_eq_ok hb key _ 0 rfl, add, List.range_eq_range']
  rfl

theorem addAllChecked_eq_ok {b : BloomFilter} (hb : b.Fits) (keys : List UInt64) :
    keys.foldlM addChecked b = .ok (keys.foldl add b) := by
  induction keys generalizing b with
  | nil => rfl
  | cons key keys ih =>
    rw [List.foldlM_cons, addChecked_eq_ok hb, ok_bind]
    exact ih (add_fits hb key)

def Worded (b : BloomFilter) : Prop := b.bits.length = ((b.numBits + 63) / 64).toNat

def Answers (b : BloomFilter) : Prop := b.numHashes = 0 ∨ 0 < b.numBits.toNat ∧ b.numBits.toNat + 63 < 2 ^ 64

theorem Worded.fits {b : BloomFilter} (hb : b.Worded) (hpos : 0 < b.numBits.toNat)
    (hwords : b.numBits.toNat + 63 < 2 ^ 64) : b.Fits := by
  refine ⟨hpos, ?_⟩
  rw [hb, UInt64.toNat_div, UInt64.toNat_add, show (63 : UInt64).toNat = 63 from rfl,
    show (64 : UInt64).toNat = 64 from rfl, Nat.mod_eq_of_lt hwords]
  omega

theorem Worded.probe_error {b : BloomFilter} (hb : b.Worded)
    (hbits : b.numBits.toNat = 0 ∨ 2 ^ 64 ≤ b.numBits.toNat + 63) (key : UInt64) (i : ℕ) :
    ∃ fault, b.probe key i = .error fault := by
  rcases hbits with hzero | hwraps
  · exact ⟨.moduloZero, if_pos (UInt64.toNat_inj.mp hzero)⟩
  · have hlt := b.numBits.toNat_lt
    have hnone : b.bits.length = 0 := by
      rw [hb, UInt64.toNat_div, UInt64.toNat_add, show (63 : UInt64).toNat = 63 from rfl,
        show (64 : UInt64).toNat = 64 from rfl]
      omega
    have hpos : b.numBits ≠ 0 := by
      intro hzero
      rw [hzero] at hwraps
      exact absurd hwraps (by decide)
    rw [probe, if_neg hpos, List.length_eq_zero_iff.mp hnone]
    exact ⟨.bits, rfl⟩

theorem containsChecked_eq_ok_of_answers {b : BloomFilter} (hb : b.Worded) (hanswers : b.Answers) (key : UInt64) :
    b.containsChecked key = .ok (b.contains key) := by
  rcases hanswers with hzero | ⟨hpos, hwords⟩
  · rw [containsChecked, contains, hzero]
    rfl
  · exact containsChecked_eq_ok (hb.fits hpos hwords) key

theorem containsChecked_error {b : BloomFilter} (hb : b.Worded) (hanswers : ¬ b.Answers) (key : UInt64) :
    ∃ fault, b.containsChecked key = .error fault := by
  rw [Answers, not_or, not_and_or, Nat.pos_iff_ne_zero, not_not, Nat.not_lt] at hanswers
  obtain ⟨hhashes, hbits⟩ := hanswers
  obtain ⟨n, hn⟩ : ∃ n, b.numHashes.toNat = n + 1 :=
    Nat.exists_eq_succ_of_ne_zero fun hzero => hhashes (UInt64.toNat_inj.mp hzero)
  obtain ⟨fault, hfault⟩ := hb.probe_error hbits key 0
  rw [containsChecked, hn, containsFrom, hfault]
  exact ⟨fault, rfl⟩

end BloomFilter

end SystemLevel.Lsm
