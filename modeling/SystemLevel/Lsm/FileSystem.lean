import SystemLevel.Foundations.FixedCodec

/-!
The files of one directory. Nothing in the program unlinks or renames a file, so an open descriptor is
the name it was opened under: `O_TRUNC` empties the file in place, and the descriptors opened
earlier read the new contents.
-/

namespace SystemLevel.Lsm

structure FileName where
  stem : String
  extension : String
  deriving DecidableEq, Repr

abbrev Directory := AList (fun _ : FileName => Bytes)

/-- How much of a `read` or a `write` goes through: all of it, or at most so many bytes (none of them
when the call returns -1). -/
abbrev Transfer := Option ℕ

def transfer (t : Transfer) (bs : Bytes) : Bytes :=
  match t with
  | none => bs
  | some n => bs.take n

theorem transfer_length_le (t : Transfer) (bs : Bytes) : (transfer t bs).length ≤ bs.length := by
  cases t with
  | none => exact le_rfl
  | some n => exact List.length_take_le' n bs

theorem transfer_whole {t : Transfer} {bs : Bytes} (h : (transfer t bs).length = bs.length) : transfer t bs = bs := by
  cases t with
  | none => rfl
  | some n =>
    rw [transfer, List.length_take] at h
    exact List.take_of_length_le (by omega)

/-- `pread` of `len` bytes. An offset that is negative as an `off_t` is refused. -/
def pread (file : Bytes) (len offset : UInt64) (t : Transfer) : Bytes :=
  if offset.toNat < 2 ^ 63 then transfer t ((file.drop offset.toNat).take len.toNat) else []

def fill (buffer data : Bytes) : Bytes := data ++ buffer.drop data.length

def readVector {α : Type} (c : FixedCodec α) (file : Bytes) (count offset : UInt64) (t : Transfer) : List α :=
  c.decodeAll count.toNat
    (fill (List.replicate (count.toNat * c.size) 0) (pread file (count * UInt64.ofNat c.size) offset t))

theorem pread_at {a bs rest : Bytes} {len offset : UInt64} (hoffset : offset.toNat = a.length)
    (hlen : len.toNat = bs.length) (hsize : a.length < 2 ^ 63) : pread (a ++ (bs ++ rest)) len offset none = bs := by
  rw [pread, if_pos (by omega), hoffset, hlen, transfer, List.drop_left, List.take_left]

theorem fill_whole {α : Type} (c : FixedCodec α) (x y : α) : fill (c.encode x) (c.encode y) = c.encode y := by
  rw [fill, List.drop_of_length_le (by rw [c.encode_length, c.encode_length]), List.append_nil]

theorem readVector_at {α : Type} (c : FixedCodec α) {a rest : Bytes} {xs : List α} {count offset : UInt64}
    (hcount : count.toNat = xs.length) (hoffset : offset.toNat = a.length) (hsize : a.length < 2 ^ 63)
    (hbytes : xs.length * c.size < 2 ^ 64) :
    readVector c (a ++ (c.encodeAll xs ++ rest)) count offset none = xs := by
  have hlen : (count * UInt64.ofNat c.size).toNat = (c.encodeAll xs).length := by
    rw [UInt64.toNat_mul, UInt64.toNat_ofNat', hcount, c.encodeAll_length, Nat.mul_mod_mod, Nat.mod_eq_of_lt hbytes]
  rw [readVector, pread_at hoffset hlen hsize, fill, hcount]
  exact c.decodeAll_encodeAll xs _

end SystemLevel.Lsm
