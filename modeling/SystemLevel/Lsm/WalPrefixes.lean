import SystemLevel.Lsm.WalEngineSessions

namespace SystemLevel.Lsm.WalStorageEngine

def live (changes : List Change) : WalStorageEngine :=
  changes.foldl (fun e c => (c.perform none e).2) (openFile true none { file := [] }).2

/-- A write that would take the file beyond what an `off_t` can tell is never complete. -/
def Completes (changes : List Change) : Prop := (live changes).file.length < 2 ^ 63

def numbered : UInt64 → List Change → List WalBlock
  | _, [] => []
  | seq, c :: changes => c.sealed (seq + 1) :: numbered (seq + 1) changes

theorem take_numbered (seq : UInt64) (changes : List Change) (n : ℕ) :
    (numbered seq changes).take n = numbered seq (changes.take n) := by
  induction changes generalizing seq n with
  | nil => simp [numbered]
  | cons c changes ih =>
    cases n with
    | zero => rfl
    | succ n => rw [numbered, List.take_succ_cons, List.take_succ_cons, numbered, ih]

theorem length_numbered (seq : UInt64) (changes : List Change) : (numbered seq changes).length = changes.length := by
  induction changes generalizing seq with
  | nil => rfl
  | cons c changes ih => rw [numbered, List.length_cons, ih, List.length_cons]

theorem numbered_accepted {seq : UInt64} {changes : List Change} :
    ∀ b ∈ numbered seq changes, b.Accepted = true := by
  induction changes generalizing seq with
  | nil => exact fun _ hb => nomatch hb
  | cons c changes ih =>
    intro b hb
    rcases List.mem_cons.mp hb with rfl | hb
    · exact c.sealed_accepted _
    · exact ih b hb

theorem seq_cons (seq : UInt64) (c : Change) (changes : List Change) :
    seq + UInt64.ofNat (c :: changes).length = seq + 1 + UInt64.ofNat changes.length := by
  rw [List.length_cons, Nat.add_comm, UInt64.ofNat_add, UInt64.add_assoc]
  rfl

theorem log_complete {e : WalStorageEngine} (hfd : e.fd = some e.file.length) (op : WalOp) (key value : UInt64) :
    let file := e.file ++ WalBlock.codec.encode (WalBlock.sealed (e.currentSeq + 1) op key value)
    e.log none op key value =
      (true, { file, fd := some file.length, currentSeq := e.currentSeq + 1, index := e.index }) := by
  have hsize := WalBlock.codec.encode_length (WalBlock.sealed (e.currentSeq + 1) op key value)
  simp only [log, write, hfd, transfer, hsize, List.take_length, List.length_append, beq_self_eq_true]
  rw [List.drop_of_length_le (Nat.le_add_right _ _), List.append_nil]

theorem perform_complete (c : Change) {e : WalStorageEngine} (hfd : e.fd = some e.file.length) :
    let file := e.file ++ WalBlock.codec.encode (c.sealed (e.currentSeq + 1))
    c.perform none e =
      (true, { file, fd := some file.length, currentSeq := e.currentSeq + 1, index := c.apply e.index }) := by
  cases c with
  | put key value => simp only [Change.perform, put, log_complete hfd, if_true, Change.sealed, Change.apply]
  | del key => simp only [Change.perform, del, log_complete hfd, if_true, Change.sealed, Change.apply]

theorem foldl_perform (changes : List Change) {e : WalStorageEngine} (hfd : e.fd = some e.file.length) :
    let file := e.file ++ WalBlock.codec.encodeAll (numbered e.currentSeq changes)
    changes.foldl (fun e c => (c.perform none e).2) e =
      { file
        fd := some file.length
        currentSeq := e.currentSeq + UInt64.ofNat changes.length
        index := changes.foldl Change.apply e.index } := by
  induction changes generalizing e with
  | nil => simp [numbered, FixedCodec.encodeAll, ← hfd]
  | cons c changes ih =>
    rw [List.foldl_cons, ih (by rw [perform_complete c hfd]), perform_complete c hfd, seq_cons]
    simp only [numbered, FixedCodec.encodeAll, List.flatMap_cons, List.append_assoc, List.foldl_cons]

theorem live_eq (changes : List Change) :
    live changes =
      { file := WalBlock.codec.encodeAll (numbered 0 changes)
        fd := some (WalBlock.codec.encodeAll (numbered 0 changes)).length
        currentSeq := UInt64.ofNat changes.length
        index := changes.foldl Change.apply ∅ } := by
  have hopened : (openFile true none { file := [] }).2 = { file := [], fd := some 0 } := rfl
  rw [live, hopened, foldl_perform changes rfl]
  simp only [List.nil_append, UInt64.zero_add]

theorem live_length (changes : List Change) : (live changes).file.length = changes.length * WalBlock.codec.size := by
  rw [live_eq, FixedCodec.encodeAll_length, length_numbered]

theorem foldl_replay_numbered (changes : List Change) (e : WalStorageEngine)
    (hseq : e.currentSeq.toNat + changes.length < 2 ^ 64) :
    (numbered e.currentSeq changes).foldl replay e =
      { e with
        currentSeq := e.currentSeq + UInt64.ofNat changes.length
        index := changes.foldl Change.apply e.index } := by
  induction changes generalizing e with
  | nil => simp [numbered]
  | cons c changes ih =>
    rw [List.length_cons] at hseq
    have hnext : (e.currentSeq + 1).toNat = e.currentSeq.toNat + 1 := by
      rw [UInt64.toNat_add, UInt64.toNat_one, Nat.mod_eq_of_lt (by omega)]
    have hgrows : e.currentSeq < e.currentSeq + 1 := by
      rw [UInt64.lt_iff_toNat_lt, hnext]
      exact Nat.lt_succ_self _
    have hreplay : e.replay (c.sealed (e.currentSeq + 1)) =
        { e with currentSeq := e.currentSeq + 1, index := c.apply e.index } := by
      have hsealed : (c.sealed (e.currentSeq + 1)).seqNum = e.currentSeq + 1 := by cases c <;> rfl
      rw [← Change.replay_sealed e (e.currentSeq + 1) c, replay, hsealed, if_pos hgrows]
    rw [numbered, List.foldl_cons, hreplay, seq_cons]
    exact ih _ (by rw [hnext]; omega)

theorem recover_prefix_eq_live {changes : List Change} (hcomplete : Completes changes) {n : ℕ}
    (hn : n ≤ (live changes).file.length) {e : WalStorageEngine} (hfd : e.fd ≠ none)
    (hfile : e.file = (live changes).file.take n) :
    (e.recover none).1 = true ∧
      (e.recover none).2.index = (live (changes.take (n / 4096))).index ∧
      (e.recover none).2.currentSeq = (live (changes.take (n / 4096))).currentSeq := by
  obtain ⟨offset, hoffset⟩ := Option.ne_none_iff_exists'.mp hfd
  have hlength : (changes.take (n / 4096)).length < 2 ^ 64 := by
    have hshort := hcomplete
    rw [Completes, live_length, show WalBlock.codec.size = 4096 from rfl] at hshort
    rw [List.length_take]
    omega
  have hblocks : recoverable none e.file = numbered 0 (changes.take (n / 4096)) := by
    rw [live_eq] at hn hfile
    obtain ⟨tail, htail, htake⟩ := WalBlock.codec.take_encodeAll (by decide) _ hn
    rw [hfile, htake, recoverable_blocks _ htail, take_numbered]
    · rfl
    · rw [take_numbered]
      exact numbered_accepted
  simp only [recover, hoffset, hblocks]
  have hreplayed := foldl_replay_numbered (changes.take (n / 4096)) { file := e.file, fd := some offset }
    (by simpa using hlength)
  rw [hreplayed, live_eq]
  exact ⟨trivial, rfl, UInt64.zero_add _⟩

def overwrittenAndDeleted : List Change := [.put 1 10, .put 2 20, .put 1 30, .del 2]

theorem recover_cut_third_block :
    let e : WalStorageEngine := { file := (live overwrittenAndDeleted).file.take 12287, fd := some 5 }
    (e.recover none).1 = true ∧
      (e.recover none).2.index = (live (overwrittenAndDeleted.take (12287 / 4096))).index ∧
      (e.recover none).2.currentSeq = (live (overwrittenAndDeleted.take (12287 / 4096))).currentSeq := by
  intro e
  have hlength : (live overwrittenAndDeleted).file.length = 16384 := live_length overwrittenAndDeleted
  have hcomplete : Completes overwrittenAndDeleted := by
    rw [Completes, hlength]
    decide
  have hn : 12287 ≤ (live overwrittenAndDeleted).file.length := by
    rw [hlength]
    decide
  have hopen : e.fd ≠ none := nofun
  have hfile : e.file = (live overwrittenAndDeleted).file.take 12287 := by simp only [e]
  exact recover_prefix_eq_live hcomplete hn hopen hfile

end SystemLevel.Lsm.WalStorageEngine
