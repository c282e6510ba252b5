import SystemLevel.Foundations.Checksums
import SystemLevel.Lsm.WalEngineSessions

namespace SystemLevel.Lsm

namespace WalBlock

open Checksums FixedCodec

theorem payloadCodec_exact : payloadCodec.Exact :=
  u64_exact.prod (u64_exact.prod (u32_exact.prod (u32_exact.prod (u64_exact.prod (u64_exact.prod (raw_exact _))))))

theorem computeChecksum_decode {bs : Bytes} (h : bs.length = codec.size) :
    (codec.decode bs).computeChecksum = (bs.drop 8).foldl fnvStep 0x811C9DC5 := by
  have hlen : ((bs.drop 4).drop 4).length = payloadCodec.size := by
    rw [List.length_drop, List.length_drop, h]
    rfl
  have hpayload : (codec.decode bs).payload = payloadCodec.decode ((bs.drop 4).drop 4) := rfl
  rw [computeChecksum, hpayload, payloadCodec_exact _ hlen, List.drop_drop]
  rfl

theorem accepted_decode {bs : Bytes} (h : bs.length = codec.size) :
    (codec.decode bs).Accepted = true ↔
      u32.decode (bs.take 4) = 0x57414C31 ∧
        u32.decode ((bs.drop 4).take 4) = (bs.drop 8).foldl fnvStep 0x811C9DC5 := by
  rw [Accepted, computeChecksum_decode h, Bool.and_eq_true, beq_iff_eq, beq_iff_eq]
  exact Iff.rfl

theorem u32_decode_set_ne {bs : Bytes} (h : bs.length = 4) {p : ℕ} (hp : p < bs.length) {byte : UInt8}
    (hbyte : byte ≠ bs[p]) : u32.decode (bs.set p byte) ≠ u32.decode bs := by
  intro hdecode
  have hset := (u32_decode_eq_iff (List.length_set.trans h) _).mp hdecode
  rw [u32_exact bs h] at hset
  apply hbyte
  have hget := List.getElem_set_self (l := bs) (i := p) (a := byte) (by rwa [List.length_set])
  rw [← hget]
  simp only [hset]

theorem accepted_set_eq_false {bs : Bytes} (h : bs.length = codec.size) (haccepted : (codec.decode bs).Accepted = true)
    {p : ℕ} (hp : p < bs.length) {byte : UInt8} (hbyte : byte ≠ bs[p]) :
    (codec.decode (bs.set p byte)).Accepted = false := by
  obtain ⟨hmagic, hchecksum⟩ := (accepted_decode h).mp haccepted
  have hsize : bs.length = 4096 := h
  rw [← Bool.not_eq_true, accepted_decode (List.length_set.trans h)]
  rintro ⟨hmagic', hchecksum'⟩
  rcases Nat.lt_or_ge p 4 with hp4 | hp4
  · rw [List.take_set, ← hmagic] at hmagic'
    refine u32_decode_set_ne ?_ ?_ ?_ hmagic'
    · rw [List.length_take]
      omega
    · rw [List.length_take]
      omega
    · rwa [List.getElem_take]
  rcases Nat.lt_or_ge p 8 with hp8 | hp8
  · rw [List.drop_set_of_lt hp8, ← hchecksum, List.drop_set, if_neg (by omega), List.take_set] at hchecksum'
    refine u32_decode_set_ne ?_ ?_ ?_ hchecksum'
    · rw [List.length_take, List.length_drop]
      omega
    · rw [List.length_take, List.length_drop]
      omega
    · rw [List.getElem_take, List.getElem_drop]
      simpa only [Nat.add_sub_cancel' hp4] using hbyte
  · rw [List.drop_set, if_neg (by omega), List.take_set_of_le (by omega), hchecksum, List.drop_set,
      if_neg (by omega)] at hchecksum'
    refine fnvStep_lossless.foldl_set_ne ?_ ?_ _ hchecksum'.symm
    · rw [List.length_drop]
      omega
    · rw [List.getElem_drop]
      simpa only [Nat.add_sub_cancel' hp8] using hbyte

end WalBlock

namespace WalStorageEngine

open Runs

theorem recoverable_rejected {blocks : List WalBlock} (hblocks : ∀ b ∈ blocks, b.Accepted = true) {block : Bytes}
    (hlen : block.length = WalBlock.codec.size) (hblock : (WalBlock.codec.decode block).Accepted = false)
    (rest : Bytes) : recoverable none (WalBlock.codec.encodeAll blocks ++ (block ++ rest)) = blocks := by
  have hcount : (WalBlock.codec.encodeAll blocks ++ (block ++ rest)).length / WalBlock.codec.size =
      blocks.length + (rest.length / WalBlock.codec.size + 1) := by
    rw [List.length_append, List.length_append, FixedCodec.encodeAll_length, hlen, Nat.mul_comm,
      Nat.mul_add_div (by decide), Nat.add_div_left _ (by decide)]
  rw [recoverable, hcount, WalBlock.codec.decodeAll_encodeAll_append, FixedCodec.decodeAll, ← hlen, List.take_left]
  rw [List.takeWhile_append_of_pos hblocks, List.takeWhile_cons_of_neg (by rw [hblock]; decide), List.append_nil]

theorem recoverable_corrupted {blocks : List WalBlock} (hblocks : ∀ b ∈ blocks, b.Accepted = true) (rest : Bytes)
    {i p : ℕ} (hi : i < blocks.length) (hp : p < WalBlock.codec.size) {byte : UInt8}
    (hbyte : (WalBlock.codec.encodeAll blocks ++ rest)[i * WalBlock.codec.size + p]? ≠ some byte) :
    recoverable none ((WalBlock.codec.encodeAll blocks ++ rest).set (i * WalBlock.codec.size + p) byte) =
      blocks.take i := by
  have hsplit : WalBlock.codec.encodeAll blocks ++ rest = WalBlock.codec.encodeAll (blocks.take i) ++
      (WalBlock.codec.encode blocks[i] ++ (WalBlock.codec.encodeAll (blocks.drop (i + 1)) ++ rest)) := by
    have hblock := List.take_append_drop i blocks
    rw [List.drop_eq_getElem_cons hi] at hblock
    conv_lhs => rw [← hblock]
    simp only [FixedCodec.encodeAll, List.flatMap_append, List.flatMap_cons, List.append_assoc]
  have hbefore : (WalBlock.codec.encodeAll (blocks.take i)).length = i * WalBlock.codec.size := by
    rw [FixedCodec.encodeAll_length, List.length_take_of_le hi.le]
  have hlen := WalBlock.codec.encode_length blocks[i]
  rw [hsplit, List.getElem?_append_right (by omega), hbefore, Nat.add_sub_cancel_left,
    List.getElem?_append_left (by omega), List.getElem?_eq_getElem (by omega)] at hbyte
  rw [hsplit, List.set_append_right _ _ (by omega), hbefore, Nat.add_sub_cancel_left,
    List.set_append_left _ _ (by omega)]
  apply recoverable_rejected
  · intro b hb
    exact hblocks b (List.mem_of_mem_take hb)
  · rw [List.length_set, hlen]
  · apply WalBlock.accepted_set_eq_false hlen
    · rw [WalBlock.codec.decode_encode]
      exact hblocks _ (List.getElem_mem hi)
    · exact fun h => hbyte (congrArg some h.symm)

def AtEnd (e : WalStorageEngine) : Prop := ∀ offset, e.fd = some offset → offset = e.file.length

theorem perform_extends {e : WalStorageEngine} (hend : e.AtEnd) (c : Change) (t : Transfer) :
    e.file <+: (c.perform t e).2.file ∧ (c.perform t e).2.AtEnd := by
  obtain ⟨op, key, value, -, -, hfile, hfd⟩ := c.perform_eq t e
  rw [AtEnd, hfile, hfd]
  cases hopen : e.fd with
  | none =>
    obtain ⟨-, hsame, hnone⟩ := log_closed hopen t op key value
    rw [hsame, hnone]
    exact ⟨List.prefix_rfl, fun _ hoffset => by cases hoffset⟩
  | some offset =>
    obtain rfl := hend offset hopen
    obtain ⟨-, hnew, hoffset⟩ := log_open hopen t op key value
    rw [hnew, hoffset]
    refine ⟨List.prefix_append _ _, fun offset h => ?_⟩
    rw [List.length_append]
    exact (Option.some.inj h).symm

theorem step_extends {e : WalStorageEngine} (hend : e.AtEnd) (op : Op) :
    e.file <+: (e.step op).file ∧ (e.step op).AtEnd := by
  cases op with
  | openFile opened reads =>
    simp only [step, openFile]
    split_ifs
    · rw [AtEnd, recover_file]
      exact ⟨List.prefix_rfl, fun _ h => (Option.some.inj h).symm⟩
    · exact ⟨List.prefix_rfl, fun _ h => by cases h⟩
  | close => exact ⟨List.prefix_rfl, fun _ h => by cases h⟩
  | change c t => exact perform_extends hend c t
  | crash => exact ⟨List.prefix_rfl, fun _ h => by cases h⟩
  | interrupted c t => exact ⟨(perform_extends hend c t).1, fun _ h => by cases h⟩

theorem run_extends {e : WalStorageEngine} (hend : e.AtEnd) (ops : List Op) :
    e.file <+: (Runs.run step e ops).file := by
  induction ops generalizing e with
  | nil => exact List.prefix_rfl
  | cons op ops ih =>
    obtain ⟨hextends, hend'⟩ := step_extends hend op
    exact hextends.trans (ih hend')

def putAndDelete : List Op := [.openFile true none, .change (.put 1 10) none, .change (.del 1) none]

end WalStorageEngine

end SystemLevel.Lsm
