import SystemLevel.Lsm.WalStorageEngine

namespace SystemLevel.Lsm.WalStorageEngine

open Runs

def Change.sealed (seq : UInt64) : Change → WalBlock
  | .put key value => WalBlock.sealed seq .put key value
  | .del key => WalBlock.sealed seq .del key 0

theorem Change.sealed_accepted (seq : UInt64) (c : Change) : (c.sealed seq).Accepted = true := by
  cases c with
  | put key value => exact WalBlock.accepted_withChecksum rfl
  | del key => exact WalBlock.accepted_withChecksum rfl

theorem Change.replay_sealed (e : WalStorageEngine) (seq : UInt64) (c : Change) :
    (e.replay (c.sealed seq)).index = c.apply e.index := by
  cases c <;> rfl

theorem foldl_replay_index (entries : List (UInt64 × Change)) (e : WalStorageEngine) :
    ((entries.map fun entry => entry.2.sealed entry.1).foldl replay e).index =
      (entries.map Prod.snd).foldl Change.apply e.index := by
  induction entries generalizing e with
  | nil => rfl
  | cons entry entries ih =>
    simp only [List.map_cons, List.foldl_cons]
    rw [ih, Change.replay_sealed]

theorem recoverable_blocks {blocks : List WalBlock} {tail : Bytes} (hblocks : ∀ b ∈ blocks, b.Accepted = true)
    (htail : tail.length < WalBlock.codec.size) :
    recoverable none (WalBlock.codec.encodeAll blocks ++ tail) = blocks := by
  have hlen : (WalBlock.codec.encodeAll blocks ++ tail).length / WalBlock.codec.size = blocks.length := by
    rw [List.length_append, FixedCodec.encodeAll_length, Nat.mul_comm, Nat.mul_add_div (by omega),
      Nat.div_eq_of_lt htail, Nat.add_zero]
  rw [recoverable, hlen, WalBlock.codec.decodeAll_encodeAll]
  exact List.takeWhile_eq_self_iff.mpr hblocks

structure Holds (e : WalStorageEngine) (changes : List Change) : Prop where
  file : ∃ (entries : List (UInt64 × Change)) (tail : Bytes), entries.map Prod.snd = changes ∧
    tail.length < WalBlock.codec.size ∧
    e.file = WalBlock.codec.encodeAll (entries.map fun entry => entry.2.sealed entry.1) ++ tail
  offset : ∀ offset, e.fd = some offset → offset = e.file.length

theorem foldl_replay_file (blocks : List WalBlock) (e : WalStorageEngine) :
    (blocks.foldl replay e).file = e.file := by
  induction blocks generalizing e with
  | nil => rfl
  | cons b blocks ih => rw [List.foldl_cons, ih, replay]

theorem recover_file (reads : Option ℕ) (e : WalStorageEngine) : (e.recover reads).2.file = e.file := by
  unfold recover
  cases e.fd with
  | none => rfl
  | some offset => exact foldl_replay_file _ _

namespace Holds

variable {e : WalStorageEngine} {changes : List Change}

theorem recoverable (h : e.Holds changes) (e' : WalStorageEngine) (hindex : e'.index = ∅) :
    ((recoverable none e.file).foldl replay e').index = changes.foldl Change.apply ∅ := by
  obtain ⟨entries, tail, rfl, htail, hfile⟩ := h.file
  rw [hfile, recoverable_blocks _ htail, foldl_replay_index, hindex]
  intro b hb
  obtain ⟨entry, -, rfl⟩ := List.mem_map.mp hb
  exact entry.2.sealed_accepted entry.1

theorem openFile (h : e.Holds changes) : (e.openFile true none).2.index = changes.foldl Change.apply ∅ :=
  h.recoverable _ rfl

end Holds

theorem log_closed {e : WalStorageEngine} (hfd : e.fd = none) (t : Transfer) (op : WalOp) (key value : UInt64) :
    (e.log t op key value).1 = false ∧ (e.log t op key value).2.file = e.file ∧
      (e.log t op key value).2.fd = none := by
  simp only [log, write, hfd]
  exact ⟨by decide, trivial, trivial⟩

theorem log_open {e : WalStorageEngine} (hfd : e.fd = some e.file.length) (t : Transfer) (op : WalOp)
    (key value : UInt64) :
    let stored := transfer t (WalBlock.codec.encode (WalBlock.sealed (e.currentSeq + 1) op key value))
    (e.log t op key value).1 = (stored.length == WalBlock.codec.size) ∧
      (e.log t op key value).2.file = e.file ++ stored ∧
      (e.log t op key value).2.fd = some (e.file.length + stored.length) := by
  simp only [log, write, hfd, List.take_length, true_and, and_true]
  rw [List.drop_of_length_le (Nat.le_add_right _ _), List.append_nil]

theorem Change.perform_eq (t : Transfer) (e : WalStorageEngine) (c : Change) :
    ∃ op key value, c.sealed (e.currentSeq + 1) = WalBlock.sealed (e.currentSeq + 1) op key value ∧
      (c.perform t e).1 = (e.log t op key value).1 ∧
      (c.perform t e).2.file = (e.log t op key value).2.file ∧
      (c.perform t e).2.fd = (e.log t op key value).2.fd := by
  cases c with
  | put key value =>
    refine ⟨.put, key, value, rfl, ?_⟩
    simp only [Change.perform, WalStorageEngine.put]
    split_ifs with hlogged
    · exact ⟨hlogged.symm, rfl, rfl⟩
    · exact ⟨rfl, rfl, rfl⟩
  | del key =>
    refine ⟨.del, key, 0, rfl, ?_⟩
    simp only [Change.perform, WalStorageEngine.del]
    split_ifs with hlogged
    · exact ⟨hlogged.symm, rfl, rfl⟩
    · exact ⟨rfl, rfl, rfl⟩

def Op.logs : Op → Option (Change × Transfer)
  | .change c t | .interrupted c t => some (c, t)
  | _ => none

def WritesAligned (past : List Op) (op : Op) : Prop :=
  ∀ c t, op.logs = some (c, t) → t ≠ some 0 → (run past).fd ≠ none → WalBlock.codec.size ∣ (run past).file.length

namespace Holds

variable {e : WalStorageEngine} {changes : List Change}

theorem whole (h : e.Holds changes) (haligned : WalBlock.codec.size ∣ e.file.length) :
    ∃ entries : List (UInt64 × Change), entries.map Prod.snd = changes ∧
      e.file = WalBlock.codec.encodeAll (entries.map fun entry => entry.2.sealed entry.1) := by
  obtain ⟨entries, tail, hentries, htail, hfile⟩ := h.file
  rw [hfile, List.length_append, FixedCodec.encodeAll_length, Nat.dvd_add_right (Nat.dvd_mul_left _ _)] at haligned
  have hnil : tail = [] := List.length_eq_zero_iff.mp (Nat.eq_zero_of_dvd_of_lt haligned htail)
  rw [hnil, List.append_nil] at hfile
  exact ⟨entries, hentries, hfile⟩

theorem append (h : e.Holds changes) (seq : UInt64) (c : Change) {t : Transfer}
    (haligned : t ≠ some 0 → WalBlock.codec.size ∣ e.file.length) {e' : WalStorageEngine}
    (hfile : e'.file = e.file ++ transfer t (WalBlock.codec.encode (c.sealed seq)))
    (hfd : ∀ offset, e'.fd = some offset → offset = e'.file.length) :
    e'.Holds (changes ++
      if (transfer t (WalBlock.codec.encode (c.sealed seq))).length = WalBlock.codec.size then [c] else []) := by
  have hsize := WalBlock.codec.encode_length (c.sealed seq)
  have hle := transfer_length_le t (WalBlock.codec.encode (c.sealed seq))
  refine ⟨?_, hfd⟩
  by_cases hzero : t = some 0
  · subst hzero
    rw [transfer, List.take_zero, List.append_nil] at hfile
    rw [transfer, List.take_zero, List.length_nil, if_neg (by decide), List.append_nil, hfile]
    exact h.file
  · obtain ⟨entries, hentries, hwhole⟩ := h.whole (haligned hzero)
    split_ifs with hall
    · rw [transfer_whole (hall.trans hsize.symm)] at hfile
      refine ⟨entries ++ [(seq, c)], [], ?_, by decide, ?_⟩
      · rw [List.map_append, hentries, List.map_singleton]
      · rw [hfile, hwhole, List.map_append, FixedCodec.encodeAll_append, List.append_nil, List.map_singleton,
          FixedCodec.encodeAll, FixedCodec.encodeAll, List.flatMap_singleton]
    · refine ⟨entries, _, ?_, ?_, by rw [hfile, hwhole]⟩
      · rw [hentries, List.append_nil]
      · omega

theorem perform (h : e.Holds changes) (c : Change) (t : Transfer)
    (haligned : t ≠ some 0 → e.fd ≠ none → WalBlock.codec.size ∣ e.file.length) :
    (c.perform t e).2.Holds (changes ++ if (c.perform t e).1 then [c] else []) := by
  obtain ⟨op, key, value, hsealed, hreturned, hfile, hfd⟩ := c.perform_eq t e
  cases hopen : e.fd with
  | none =>
    obtain ⟨hfalse, hsame, hnone⟩ := log_closed hopen t op key value
    rw [hreturned, hfalse, if_neg (by decide), List.append_nil]
    rw [hsame] at hfile
    refine ⟨?_, fun offset hoffset => ?_⟩
    · rw [hfile]
      exact h.file
    · rw [hfd, hnone] at hoffset
      cases hoffset
  | some offset =>
    obtain rfl := h.offset offset hopen
    obtain ⟨hresult, hnew, hend⟩ := log_open hopen t op key value
    rw [← hsealed] at hresult hnew hend
    rw [hreturned, hresult]
    simp only [beq_iff_eq]
    refine h.append (e.currentSeq + 1) c (fun hzero => haligned hzero (by rw [hopen]; simp)) (hfile.trans hnew)
      fun offset hoffset => ?_
    rw [hfd, hend] at hoffset
    rw [hfile, hnew, List.length_append]
    exact (Option.some.inj hoffset).symm

theorem crash (h : e.Holds changes) : Holds { file := e.file } changes :=
  ⟨h.file, fun _ hoffset => by cases hoffset⟩

theorem reopen (h : e.Holds changes) (opened : Bool) (reads : Option ℕ) :
    (e.openFile opened reads).2.Holds changes := by
  unfold WalStorageEngine.openFile
  split_ifs
  · refine ⟨?_, fun offset hoffset => ?_⟩
    · rw [recover_file]
      exact h.file
    · rw [recover_file]
      exact (Option.some.inj hoffset).symm
  · exact ⟨h.file, fun _ hoffset => by cases hoffset⟩

theorem step {op : Op} (h : e.Holds changes) (haligned : ∀ c t, op.logs = some (c, t) → t ≠ some 0 → e.fd ≠ none →
    WalBlock.codec.size ∣ e.file.length) : (e.step op).Holds (changes ++ (op.applied e).toList) := by
  cases op with
  | openFile opened reads =>
    simp only [Op.applied, Option.toList_none, List.append_nil]
    exact h.reopen opened reads
  | close =>
    simp only [Op.applied, Option.toList_none, List.append_nil]
    exact ⟨h.file, fun _ hoffset => by cases hoffset⟩
  | change c t =>
    have hnew := h.perform c t (haligned c t rfl)
    simp only [Op.applied]
    split_ifs at hnew ⊢ <;> exact hnew
  | crash =>
    simp only [Op.applied, Option.toList_none, List.append_nil]
    exact h.crash
  | interrupted c t =>
    have hnew := (h.perform c t (haligned c t rfl)).crash
    simp only [Op.applied]
    split_ifs at hnew ⊢ <;> exact hnew

end Holds

theorem applied_append (e : WalStorageEngine) (ops rest : List Op) :
    applied e (ops ++ rest) = applied e ops ++ applied (Runs.run step e ops) rest := by
  induction ops generalizing e with
  | nil => rfl
  | cons op ops ih =>
    rw [List.cons_append, applied, applied, ih, List.append_assoc]
    rfl

theorem applied_snoc (e : WalStorageEngine) (ops : List Op) (op : Op) :
    applied e (ops ++ [op]) = applied e ops ++ (op.applied (Runs.run step e ops)).toList := by
  rw [applied_append, applied, applied, List.append_nil]

theorem holds_run {ops : List Op} (h : Lawful WritesAligned ops) : (run ops).Holds (applied { file := [] } ops) := by
  refine Lawful.induct (motive := fun ops e => Holds e (applied { file := [] } ops)) ?_ ?_ h
  · exact ⟨⟨[], [], rfl, by decide, rfl⟩, fun _ hoffset => by cases hoffset⟩
  · intro ops op haligned hholds
    rw [applied_snoc]
    exact hholds.step haligned

def Op.complete : Op → Bool
  | .change _ t | .interrupted _ t => t.isNone
  | _ => true

theorem perform_whole_blocks {e : WalStorageEngine} (hend : ∀ offset, e.fd = some offset → offset = e.file.length)
    (haligned : WalBlock.codec.size ∣ e.file.length) (c : Change) :
    WalBlock.codec.size ∣ (c.perform none e).2.file.length := by
  obtain ⟨op, key, value, -, -, hfile, -⟩ := c.perform_eq none e
  rw [hfile]
  cases hopen : e.fd with
  | none =>
    rw [(log_closed hopen none op key value).2.1]
    exact haligned
  | some offset =>
    obtain rfl := hend offset hopen
    rw [(log_open hopen none op key value).2.1, List.length_append, transfer, WalBlock.codec.encode_length]
    exact (Nat.dvd_add_left dvd_rfl).mpr haligned

theorem step_whole_blocks {e : WalStorageEngine} (hend : ∀ offset, e.fd = some offset → offset = e.file.length)
    (haligned : WalBlock.codec.size ∣ e.file.length) {op : Op} (hop : op.complete = true) :
    WalBlock.codec.size ∣ (e.step op).file.length := by
  cases op with
  | openFile opened reads =>
    simp only [step, openFile]
    split_ifs
    · rwa [recover_file]
    · exact haligned
  | close => exact haligned
  | change c t =>
    obtain rfl := Option.isNone_iff_eq_none.mp hop
    exact perform_whole_blocks hend haligned c
  | crash => exact haligned
  | interrupted c t =>
    obtain rfl := Option.isNone_iff_eq_none.mp hop
    exact perform_whole_blocks hend haligned c

theorem aligned_of_complete {ops : List Op} (h : ∀ op ∈ ops, op.complete = true) :
    Lawful WritesAligned ops ∧ WalBlock.codec.size ∣ (run ops).file.length := by
  induction ops using List.reverseRecOn with
  | nil => exact ⟨lawful_nil, Nat.dvd_zero _⟩
  | append_singleton ops op ih =>
    obtain ⟨hlawful, haligned⟩ := ih fun op' hop' => h op' (List.mem_append_left _ hop')
    refine ⟨(lawful_snoc ops op).mpr ⟨hlawful, fun _ _ _ _ _ => haligned⟩, ?_⟩
    rw [run, run_snoc]
    apply step_whole_blocks (holds_run hlawful).offset haligned
    exact h op (List.mem_append_right _ (List.mem_singleton_self op))

theorem open_restores_acknowledged {ops : List Op} (h : Lawful WritesAligned ops) :
    ((run ops).openFile true none).1 = true ∧
      ((run ops).openFile true none).2.index = (applied { file := [] } ops).foldl Change.apply ∅ :=
  ⟨rfl, (holds_run h).openFile⟩

def cutAtTheEnd : List Op :=
  [.openFile true none, .change (.put 1 10) none, .change (.del 1) none, .change (.put 2 20) (some 5), .crash]

theorem open_restores_cutAtTheEnd :
    ((run cutAtTheEnd).openFile true none).1 = true ∧
      ((run cutAtTheEnd).openFile true none).2.index = (applied { file := [] } cutAtTheEnd).foldl Change.apply ∅ := by
  apply open_restores_acknowledged
  have hcomplete : ∀ op ∈ cutAtTheEnd.take 3, op.complete = true := by decide
  obtain ⟨hlawful, haligned⟩ := aligned_of_complete hcomplete
  exact (lawful_snoc (cutAtTheEnd.take 4) .crash).mpr
    ⟨(lawful_snoc _ _).mpr ⟨hlawful, fun _ _ _ _ _ => haligned⟩, fun _ _ h => by cases h⟩

def putBehindCut : List Op := [.openFile true none, .change (.put 1 10) (some 1), .change (.put 2 20) none]

theorem acknowledged_put_lost :
    applied { file := [] } putBehindCut = [.put 2 20] ∧ ((run putBehindCut).openFile true none).1 = true ∧
      ((run putBehindCut).openFile true none).2.get 2 = none := by
  refine ⟨by decide +kernel, rfl, by decide +kernel⟩

end SystemLevel.Lsm.WalStorageEngine
