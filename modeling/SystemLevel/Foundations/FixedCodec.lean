import Mathlib

/-!
Fixed-width binary layouts. A codec carries its own round trip, and codecs compose by
juxtaposition, so the layout of a packed struct is the product of the layouts of its fields.
-/

namespace SystemLevel

abbrev Bytes := List UInt8

def leBytes : ℕ → ℕ → Bytes
  | 0, _ => []
  | n + 1, x => UInt8.ofNat x :: leBytes n (x / 256)

def leValue : Bytes → ℕ
  | [] => 0
  | b :: bs => b.toNat + 256 * leValue bs

theorem leBytes_length (n x : ℕ) : (leBytes n x).length = n := by
  induction n generalizing x with
  | zero => rfl
  | succ n ih => simp [leBytes, ih]

theorem leValue_leBytes (n x : ℕ) : leValue (leBytes n x) = x % 256 ^ n := by
  induction n generalizing x with
  | zero => simp [leBytes, leValue, Nat.mod_one]
  | succ n ih =>
    have byte : (UInt8.ofNat x).toNat = x % 256 := UInt8.toNat_ofNat'
    rw [leBytes, leValue, ih, byte, Nat.pow_succ, Nat.mul_comm (256 ^ n) 256, Nat.mod_mul]

theorem leValue_lt (bs : Bytes) : leValue bs < 256 ^ bs.length := by
  induction bs with
  | nil => simp [leValue]
  | cons b bs ih =>
    have hb := b.toNat_lt
    rw [leValue, List.length_cons, Nat.pow_succ]
    omega

theorem leBytes_leValue (bs : Bytes) : leBytes bs.length (leValue bs) = bs := by
  induction bs with
  | nil => rfl
  | cons b bs ih =>
    have hb := b.toNat_lt
    have hlow : UInt8.ofNat (b.toNat + 256 * leValue bs) = b := by
      apply UInt8.toNat_inj.mp
      rw [UInt8.toNat_ofNat']
      omega
    have hhigh : (b.toNat + 256 * leValue bs) / 256 = leValue bs := by omega
    rw [List.length_cons, leValue, leBytes, hlow, hhigh, ih]

structure FixedCodec (α : Type) where
  size : ℕ
  encode : α → Bytes
  decode : Bytes → α
  encode_length : ∀ x, (encode x).length = size
  decode_encode : ∀ x, decode (encode x) = x

namespace FixedCodec

def u8 : FixedCodec UInt8 where
  size := 1
  encode x := leBytes 1 x.toNat
  decode bs := UInt8.ofNat (leValue bs)
  encode_length x := leBytes_length 1 _
  decode_encode x := by simp [leValue_leBytes]

def u16 : FixedCodec UInt16 where
  size := 2
  encode x := leBytes 2 x.toNat
  decode bs := UInt16.ofNat (leValue bs)
  encode_length x := leBytes_length 2 _
  decode_encode x := by simp [leValue_leBytes]

def u32 : FixedCodec UInt32 where
  size := 4
  encode x := leBytes 4 x.toNat
  decode bs := UInt32.ofNat (leValue bs)
  encode_length x := leBytes_length 4 _
  decode_encode x := by simp [leValue_leBytes]

theorem u32_decode_eq_iff {bs : Bytes} (h : bs.length = 4) (x : UInt32) : u32.decode bs = x ↔ bs = u32.encode x := by
  constructor
  · rintro rfl
    have hlt := leValue_lt bs
    rw [h] at hlt
    change bs = leBytes 4 (UInt32.ofNat (leValue bs)).toNat
    rw [UInt32.toNat_ofNat_of_lt' hlt, ← h, leBytes_leValue]
  · rintro rfl
    exact u32.decode_encode x

def u64 : FixedCodec UInt64 where
  size := 8
  encode x := leBytes 8 x.toNat
  decode bs := UInt64.ofNat (leValue bs)
  encode_length x := leBytes_length 8 _
  decode_encode x := by simp [leValue_leBytes]

def raw (n : ℕ) : FixedCodec { bs : Bytes // bs.length = n } where
  size := n
  encode x := x.1
  decode bs := ⟨(bs ++ List.replicate n 0).take n, by simp⟩
  encode_length x := x.2
  decode_encode x := Subtype.ext (List.take_left' x.2)

def prod {α β : Type} (c : FixedCodec α) (d : FixedCodec β) : FixedCodec (α × β) where
  size := c.size + d.size
  encode x := c.encode x.1 ++ d.encode x.2
  decode bs := (c.decode (bs.take c.size), d.decode (bs.drop c.size))
  encode_length x := by simp [c.encode_length, d.encode_length]
  decode_encode x := by
    rw [← c.encode_length x.1, List.take_left, List.drop_left, c.decode_encode, d.decode_encode]

def via {α β : Type} (c : FixedCodec α) (f : β → α) (g : α → β) (h : ∀ x, g (f x) = x) :
    FixedCodec β where
  size := c.size
  encode x := c.encode (f x)
  decode bs := g (c.decode bs)
  encode_length x := c.encode_length _
  decode_encode x := by rw [c.decode_encode, h]

def Exact {α : Type} (c : FixedCodec α) : Prop := ∀ bs : Bytes, bs.length = c.size → c.encode (c.decode bs) = bs

theorem u32_exact : u32.Exact := fun _ h => ((u32_decode_eq_iff h _).mp rfl).symm

theorem u64_exact : u64.Exact := by
  intro bs h
  have hlt := leValue_lt bs
  rw [show bs.length = 8 from h] at hlt
  change leBytes 8 (UInt64.ofNat (leValue bs)).toNat = bs
  rw [UInt64.toNat_ofNat_of_lt' hlt, ← show bs.length = 8 from h, leBytes_leValue]

theorem raw_exact (n : ℕ) : (raw n).Exact := fun _ h => List.take_left' h

theorem Exact.prod {α β : Type} {c : FixedCodec α} {d : FixedCodec β} (hc : c.Exact) (hd : d.Exact) :
    (c.prod d).Exact := by
  intro bs h
  have hlen : bs.length = c.size + d.size := h
  change c.encode (c.decode (bs.take c.size)) ++ d.encode (d.decode (bs.drop c.size)) = bs
  rw [hc _ (by rw [List.length_take]; omega), hd _ (by rw [List.length_drop]; omega), List.take_append_drop]

variable {α : Type} (c : FixedCodec α)

theorem take_encode (x : α) (rest : Bytes) : (c.encode x ++ rest).take c.size = c.encode x := by
  rw [← c.encode_length x, List.take_left]

theorem drop_encode (x : α) (rest : Bytes) : (c.encode x ++ rest).drop c.size = rest := by
  rw [← c.encode_length x, List.drop_left]

def encodeAll (xs : List α) : Bytes := xs.flatMap c.encode

def decodeAll : ℕ → Bytes → List α
  | 0, _ => []
  | n + 1, bs => c.decode (bs.take c.size) :: decodeAll n (bs.drop c.size)

theorem decodeAll_length (n : ℕ) (bs : Bytes) : (c.decodeAll n bs).length = n := by
  induction n generalizing bs with
  | zero => rfl
  | succ n ih => rw [decodeAll, List.length_cons, ih]

theorem encodeAll_append (xs ys : List α) : c.encodeAll (xs ++ ys) = c.encodeAll xs ++ c.encodeAll ys := by
  simp [encodeAll]

theorem encodeAll_length (xs : List α) : (c.encodeAll xs).length = xs.length * c.size := by
  induction xs with
  | nil => simp [encodeAll]
  | cons x xs ih =>
    have : c.encodeAll (x :: xs) = c.encode x ++ c.encodeAll xs := by simp [encodeAll]
    rw [this, List.length_append, ih, c.encode_length, List.length_cons, Nat.succ_mul, Nat.add_comm]

theorem decodeAll_encodeAll_append (xs : List α) (n : ℕ) (rest : Bytes) :
    c.decodeAll (xs.length + n) (c.encodeAll xs ++ rest) = xs ++ c.decodeAll n rest := by
  induction xs with
  | nil => rw [List.length_nil, Nat.zero_add]; rfl
  | cons x xs ih =>
    have : c.encodeAll (x :: xs) = c.encode x ++ c.encodeAll xs := by simp [encodeAll]
    rw [this, List.append_assoc, List.length_cons, Nat.succ_add, decodeAll, take_encode, drop_encode,
      c.decode_encode, ih, List.cons_append]

theorem decodeAll_encodeAll (xs : List α) (rest : Bytes) :
    c.decodeAll xs.length (c.encodeAll xs ++ rest) = xs := by
  have hall := c.decodeAll_encodeAll_append xs 0 rest
  rwa [Nat.add_zero, decodeAll, List.append_nil] at hall

theorem take_encodeAll (hsize : 0 < c.size) (xs : List α) {n : ℕ}
    (hn : n ≤ (c.encodeAll xs).length) :
    ∃ tail : Bytes, tail.length < c.size ∧ (c.encodeAll xs).take n = c.encodeAll (xs.take (n / c.size)) ++ tail := by
  have hwhole : n / c.size ≤ xs.length := by
    rw [encodeAll_length] at hn
    exact Nat.div_le_of_le_mul (by rwa [Nat.mul_comm])
  have hlen : (c.encodeAll (xs.take (n / c.size))).length = n / c.size * c.size := by
    rw [encodeAll_length, List.length_take_of_le hwhole]
  have hmod : n - n / c.size * c.size = n % c.size := by
    rw [Nat.mul_comm, Nat.mod_eq_sub]
  refine ⟨(c.encodeAll (xs.drop (n / c.size))).take (n % c.size), ?_, ?_⟩
  · rw [List.length_take]
    exact (Nat.min_le_left _ _).trans_lt (Nat.mod_lt _ hsize)
  · conv_lhs => rw [← List.take_append_drop (n / c.size) xs, encodeAll_append]
    rw [List.take_append, hlen, hmod, List.take_of_length_le]
    rw [hlen]
    exact Nat.div_mul_le_self n c.size

end FixedCodec

end SystemLevel
