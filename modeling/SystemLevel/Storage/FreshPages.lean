import SystemLevel.Storage.PageAliasing
import SystemLevel.Storage.PoolRestart

namespace SystemLevel.Storage

open Runs

theorem SlottedPage.init_ne_zero (pageId : UInt64) : SlottedPage.init pageId ≠ SlottedPage.zero := by
  intro h
  have hptr := congrArg (fun page => page.header.freeSpacePtr) h
  simp only [SlottedPage.init, SlottedPage.header_setHeader] at hptr
  exact absurd hptr (by decide +kernel)

namespace DiskManager

variable {d : DiskManager} {p : UInt64} {page : SlottedPage}

def Differs (d : DiskManager) (p : UInt64) (page : SlottedPage) : Prop :=
  pageSize ∣ d.file.length ∧ ∀ buffer, d.readPage p buffer ≠ page

theorem Differs.congr {d' : DiskManager} (h : d.Differs p page) (hfile : d'.file = d.file) : d'.Differs p page := by
  refine ⟨hfile ▸ h.1, fun buffer => ?_⟩
  rw [readPage_congr hfile]
  exact h.2 buffer

theorem differs_of_not_stored (hwhole : pageSize ∣ d.file.length) (hzero : page ≠ SlottedPage.zero)
    (h : ¬ d.Stored p page) : d.Differs p page := by
  refine ⟨hwhole, fun buffer heq => ?_⟩
  by_cases hoffset : offset p < 2 ^ 63
  · rcases stored_or_beyond hwhole p with hbeyond | ⟨stored, hstored⟩
    · exact hzero (heq.symm.trans (readPage_beyond hbeyond buffer))
    · rw [hstored.readPage hoffset] at heq
      exact h (heq ▸ hstored)
  · exact hzero (heq.symm.trans (readPage_negative hoffset buffer))

theorem Differs.replay {file : Bytes} (h : (after file []).Differs p page) (hzero : page ≠ SlottedPage.zero)
    {writes : List (UInt64 × SlottedPage)}
    (hwrites : ∀ write ∈ writes, write.1 = p ∧ write.2 ≠ page ∨ ¬ Collide p write.1) :
    (after file writes).Differs p page := by
  induction writes using List.reverseRecOn with
  | nil => exact h
  | append_singleton writes write ih =>
    obtain ⟨hwhole, hother⟩ := ih fun next hnext => hwrites next (List.mem_append_left _ hnext)
    rw [after_snoc]
    refine ⟨dvd_writePage hwhole _ _, fun buffer => ?_⟩
    rcases hwrites write (by simp) with ⟨hself, hne⟩ | hne
    · rw [readPage_writePage_of_collide (by rw [hself, Collide])]
      split_ifs
      · exact hne
      · exact hzero.symm
    · rw [readPage_writePage_of_not_collide hwhole hne _ _ buffer]
      exact hother buffer

end DiskManager

namespace BufferPoolManager

open DiskManager

/-- Page `p` is not used before `new_page` hands it out and not changed afterwards, and all who give it
back say that it is clean. No other page has its place in the file. -/
def LeftAlone (p : UInt64) (poolSize : ℕ) (file : Bytes) (k : ℕ) (past : List Op) : Op → Prop
  | .newPage visit =>
    let t := traffic poolSize file k past
    t.pool.FindsFrame visit → t.pool.disk.nextPageId ≠ invalidPageId ∧
      (¬ Collide p t.pool.disk.nextPageId ∨ t.pool.disk.nextPageId = p ∧ p ∉ t.handedOut)
  | .fetchPage visit pageId =>
    let t := traffic poolSize file k past
    t.pool.FindsFrame visit → t.pool.pageTable.lookup pageId = none →
      pageId ≠ invalidPageId ∧ (¬ Collide p pageId ∨ pageId = p ∧ p ∈ t.handedOut)
  | .unpinPage pageId isDirty => p ∈ (traffic poolSize file k past).handedOut → pageId = p → isDirty = false
  | .change pageId _ => p ∈ (traffic poolSize file k past).handedOut → pageId ≠ p
  | _ => True

instance decidableLeftAlone (p : UInt64) (poolSize : ℕ) (file : Bytes) (k : ℕ) (past : List Op) :
    ∀ op, Decidable (LeftAlone p poolSize file k past op)
  | .newPage _ => inferInstanceAs (Decidable (_ → _))
  | .fetchPage _ _ => inferInstanceAs (Decidable (_ → _ → _))
  | .unpinPage _ _ => inferInstanceAs (Decidable (_ → _))
  | .change _ _ => inferInstanceAs (Decidable (_ → _))
  | .flushPage _ | .flushAllPages _ => .isTrue trivial

def KeepsImage (p : UInt64) (poolSize : ℕ) (file : Bytes) (k : ℕ) (past : List Op) (op : Op) : Prop :=
  let t := traffic poolSize file k past
  t.pool.pageTable.lookup p ≠ none → (t.pool.step op).pageTable.lookup p = none →
    t.pool.disk.Stored p (SlottedPage.init p)

def Only (p : UInt64) (Image : SlottedPage → Prop) (pageId : UInt64) (page : SlottedPage) : Prop :=
  pageId = p ∧ Image page ∨ ¬ Collide p pageId

def Clean (p : UInt64) (pool : BufferPoolManager) : Prop :=
  ∀ f, (pool.frames f).pageId = p → (pool.frames f).isDirty = false

variable {p : UInt64} {pool : BufferPoolManager}

theorem Keeps.mono {Ok Ok' : UInt64 → SlottedPage → Prop} (h : pool.Keeps Ok)
    (himp : ∀ pageId page, Ok pageId page → Ok' pageId page) : pool.Keeps Ok' :=
  ⟨h.mapped, fun pageId f hf => himp _ _ (h.table pageId f hf), fun f hf => himp _ _ (h.dirty f hf)⟩

namespace Clean

variable (h : pool.Clean p)

include h

theorem setFrame {f : FrameId} {frame : FrameMeta} (hframe : frame.pageId = p → frame.isDirty = false) :
    (pool.setFrame f frame).Clean p := by
  intro g hg
  rw [setFrame_frames] at hg ⊢
  split_ifs at hg ⊢
  · exact hframe hg
  · exact h g hg

theorem writeOut (pageId : UInt64) (f : FrameId) : (pool.writeOut pageId f).Clean p := h.setFrame fun _ => rfl

theorem writeBacks (entries : List (Sigma fun _ : UInt64 => FrameId)) :
    (entries.foldl (fun pool entry => pool.writeBack entry.1 entry.2) pool).Clean p := by
  induction entries generalizing pool with
  | nil => exact h
  | cons entry entries ih =>
    apply ih
    change (pool.writeBack entry.1 entry.2).Clean p
    rw [writeBack]
    split_ifs
    · exact h.writeOut _ _
    · exact h

theorem install (f : FrameId) (pageId : UInt64) (page : SlottedPage) :
    ((pool.vacate f).install f pageId page).Clean p := by
  intro g hg
  rw [install_frames, Function.update_apply] at hg ⊢
  split_ifs at hg ⊢
  · rfl
  · exact h g hg

theorem step {Ok : UInt64 → SlottedPage → Prop} (hkeeps : pool.Keeps Ok) {op : Op}
    (hop : ∀ isDirty, op = .unpinPage p isDirty → pool.pageTable.lookup p ≠ none → isDirty = false) :
    (pool.step op).Clean p := by
  cases op with
  | newPage visit =>
    obtain ⟨freeList, replacer, heq⟩ := newPage_eq pool visit
    rw [BufferPoolManager.step, heq]
    cases (pool.findAvailableFrame visit).1 with
    | none => exact h
    | some f =>
      have hfound : Clean p { pool with freeList, replacer, disk := pool.disk.allocatePage.2 } := h
      exact hfound.install f _ _
  | fetchPage visit pageId =>
    cases hlookup : pool.pageTable.lookup pageId with
    | some f =>
      simp only [BufferPoolManager.step, fetchPage, hlookup]
      exact h.setFrame fun hf => h f hf
    | none =>
      obtain ⟨freeList, replacer, heq⟩ := fetchPage_eq pool visit hlookup
      rw [BufferPoolManager.step, heq]
      cases (pool.findAvailableFrame visit).1 with
      | none => exact h
      | some f =>
        have hfound : Clean p { pool with freeList, replacer } := h
        exact hfound.install f _ _
  | unpinPage pageId isDirty =>
    simp only [BufferPoolManager.step, unpinPage]
    cases hlookup : pool.pageTable.lookup pageId with
    | none => exact h
    | some f =>
      have hset : (pool.setFrame f { pool.frames f with
          isDirty := (pool.frames f).isDirty || isDirty, pinCount := (pool.frames f).pinCount - 1 }).Clean p := by
        refine h.setFrame fun hf => ?_
        have hpage : pageId = p := (hkeeps.mapped pageId f hlookup).1.symm.trans hf
        subst hpage
        rw [hop isDirty rfl (by rw [hlookup]; exact Option.some_ne_none f), Bool.or_false]
        exact h f hf
      simp only
      split_ifs
      · exact h
      · exact hset
      · exact hset
  | flushPage pageId =>
    simp only [BufferPoolManager.step, flushPage]
    cases pool.pageTable.lookup pageId with
    | none => exact h
    | some f => exact h.writeOut pageId f
  | flushAllPages visit => exact h.writeBacks _
  | change pageId page =>
    simp only [BufferPoolManager.step, change]
    cases pool.pageTable.lookup pageId with
    | none => exact h
    | some f => exact h

end Clean

structure Unborn (p : UInt64) (t : Traffic) : Prop where
  handedOut : p ∉ t.handedOut
  keeps : t.pool.Keeps fun pageId _ => ¬ Collide p pageId
  clean : t.pool.Clean p

structure Intact (p : UInt64) (t : Traffic) : Prop where
  handedOut : p ∈ t.handedOut
  keeps : t.pool.Keeps (Only p fun page => page = SlottedPage.init p)
  clean : t.pool.Clean p
  stored : t.pool.pageTable.lookup p = none → t.pool.disk.Stored p (SlottedPage.init p)

structure Lost (p : UInt64) (t : Traffic) : Prop where
  handedOut : p ∈ t.handedOut
  keeps : t.pool.Keeps (Only p fun page => page ≠ SlottedPage.init p)
  differs : t.pool.disk.Differs p (SlottedPage.init p)

section Steps

variable {poolSize : ℕ} {file : Bytes} {k : ℕ} {past : List Op} {op : Op}

theorem allowed_of_leftAlone {Image : SlottedPage → Prop} (hop : LeftAlone p poolSize file k past op)
    (hout : p ∈ (traffic poolSize file k past).handedOut)
    (hkeeps : (traffic poolSize file k past).pool.Keeps (Only p Image))
    (hread : (traffic poolSize file k past).pool.pageTable.lookup p = none →
      ∀ f buffer, Image (((traffic poolSize file k past).pool.vacate f).disk.readPage p buffer)) :
    op.Allowed (Only p Image) (traffic poolSize file k past).pool := by
  cases op with
  | newPage visit =>
    intro hfinds
    obtain ⟨hvalid, hplace⟩ := hop hfinds
    exact ⟨hvalid, Or.inr (hplace.resolve_right fun hself => hself.2 hout)⟩
  | fetchPage visit pageId =>
    intro hfinds hmiss
    obtain ⟨hvalid, hplace⟩ := hop hfinds hmiss
    refine ⟨hvalid, fun f => ?_⟩
    rcases hplace with hne | ⟨rfl, -⟩
    · exact Or.inr hne
    · exact Or.inl ⟨rfl, hread hmiss f _⟩
  | change pageId page => exact fun f hf => Or.inr ((hkeeps.table pageId f hf).resolve_left fun he => hop hout he.1)
  | _ => trivial

theorem Intact.allowed (hoffset : offset p < 2 ^ 63) (h : Intact p (traffic poolSize file k past))
    (hop : LeftAlone p poolSize file k past op) :
    op.Allowed (Only p fun page => page = SlottedPage.init p) (traffic poolSize file k past).pool := by
  refine allowed_of_leftAlone hop h.handedOut h.keeps fun hmiss f buffer => ?_
  have hvacated : ((traffic poolSize file k past).pool.vacate f).disk.Stored p (SlottedPage.init p) := by
    rw [Stored, vacate_file]
    exact Stored.replay (h.stored hmiss) (h.keeps.vacateWrites f)
  exact hvacated.readPage hoffset

theorem Lost.allowed (h : Lost p (traffic poolSize file k past)) (hop : LeftAlone p poolSize file k past op) :
    op.Allowed (Only p fun page => page ≠ SlottedPage.init p) (traffic poolSize file k past).pool := by
  refine allowed_of_leftAlone hop h.handedOut h.keeps fun _ f buffer => ?_
  have hreplayed := Differs.replay h.differs (SlottedPage.init_ne_zero p) (h.keeps.vacateWrites f)
  exact (hreplayed.congr (vacate_file _ f)).2 buffer

theorem Lost.step (h : Lost p (traffic poolSize file k past)) (hop : LeftAlone p poolSize file k past op) :
    Lost p ((traffic poolSize file k past).step op) := by
  obtain ⟨hkeeps, hwrites⟩ := h.keeps.step (h.allowed hop)
  have hreplayed := Differs.replay h.differs (SlottedPage.init_ne_zero p) hwrites
  exact ⟨List.mem_append_left _ h.handedOut, hkeeps, hreplayed.congr (step_file _ op)⟩

theorem Intact.clean_step (h : Intact p (traffic poolSize file k past)) (hop : LeftAlone p poolSize file k past op) :
    ((traffic poolSize file k past).pool.step op).Clean p := by
  refine h.clean.step h.keeps fun isDirty hunpin _ => ?_
  subst hunpin
  exact hop h.handedOut rfl

theorem Intact.step (hoffset : offset p < 2 ^ 63) (h : Intact p (traffic poolSize file k past))
    (hop : LeftAlone p poolSize file k past op) (hkept : KeepsImage p poolSize file k past op) :
    Intact p ((traffic poolSize file k past).step op) := by
  obtain ⟨hkeeps, hwrites⟩ := h.keeps.step (h.allowed hoffset hop)
  refine ⟨List.mem_append_left _ h.handedOut, hkeeps, h.clean_step hop, fun hnone => ?_⟩
  have hstored : (traffic poolSize file k past).pool.disk.Stored p (SlottedPage.init p) := by
    by_cases hresident : (traffic poolSize file k past).pool.pageTable.lookup p = none
    · exact h.stored hresident
    · exact hkept hresident hnone
  have hreplayed := Stored.replay hstored hwrites
  change slice ((traffic poolSize file k past).pool.step op).disk.file _ _ = _
  rw [step_file]
  exact hreplayed

theorem Clean.vacateWrites (h : pool.Clean p) (f : FrameId) : ∀ write ∈ pool.vacateWrites f, write.1 ≠ p := by
  intro write hwrite hself
  rw [BufferPoolManager.vacateWrites, backWrites] at hwrite
  split_ifs at hwrite with hinvalid hdirty
  · cases hwrite
  · rw [List.mem_singleton.mp hwrite] at hself
    exact absurd ((h f hself).symm.trans hdirty) Bool.false_ne_true
  · cases hwrite

theorem Clean.writes (h : pool.Clean p) (hresident : pool.pageTable.lookup p ≠ none)
    (hnone : (pool.step op).pageTable.lookup p = none) : ∀ write ∈ op.writes pool, write.1 ≠ p := by
  cases op with
  | newPage visit =>
    rw [Op.writes]
    cases (pool.findAvailableFrame visit).1 with
    | none => exact fun write hwrite => absurd hwrite List.not_mem_nil
    | some f => exact h.vacateWrites f
  | fetchPage visit pageId =>
    rw [Op.writes]
    split
    · exact h.vacateWrites _
    · exact fun write hwrite => absurd hwrite List.not_mem_nil
  | unpinPage pageId isDirty => exact fun write hwrite => absurd hwrite List.not_mem_nil
  | change pageId page => exact fun write hwrite => absurd hwrite List.not_mem_nil
  | flushPage pageId =>
    rw [BufferPoolManager.step, (flushPage_rests pool pageId).pageTable_eq] at hnone
    exact absurd hnone hresident
  | flushAllPages visit =>
    rw [BufferPoolManager.step, (flushAllPages_rests pool visit).pageTable_eq] at hnone
    exact absurd hnone hresident

theorem Intact.lose (hoffset : offset p < 2 ^ 63) (h : Intact p (traffic poolSize file k past))
    (hop : LeftAlone p poolSize file k past op) (hwhole : pageSize ∣ file.length)
    (hlost : ¬ KeepsImage p poolSize file k past op) : Lost p ((traffic poolSize file k past).step op) := by
  obtain ⟨hkeeps, hwrites⟩ := h.keeps.step (h.allowed hoffset hop)
  simp only [KeepsImage, Classical.not_imp] at hlost
  obtain ⟨hresident, hnone, hstored⟩ := hlost
  refine ⟨List.mem_append_left _ h.handedOut, ⟨hkeeps.mapped, fun pageId f hf => ?_, fun f hf => ?_⟩, ?_⟩
  · refine Or.inr ((hkeeps.table pageId f hf).resolve_left ?_)
    rintro ⟨rfl, -⟩
    exact Option.some_ne_none f (hf.symm.trans hnone)
  · refine Or.inr ((hkeeps.dirty f hf).resolve_left fun hself => ?_)
    exact absurd ((h.clean_step hop f hself.1).symm.trans hf) Bool.false_ne_true
  · have hwholeNow : pageSize ∣ (traffic poolSize file k past).pool.disk.file.length := by
      rw [traffic_file]
      exact dvd_after hwhole _
    have hdiffers := differs_of_not_stored hwholeNow (SlottedPage.init_ne_zero p) hstored
    have hreplayed := Differs.replay hdiffers (SlottedPage.init_ne_zero p) fun write hwrite =>
      Or.inr ((hwrites write hwrite).resolve_left fun hself => h.clean.writes hresident hnone write hwrite hself.1)
    exact hreplayed.congr (step_file _ op)

theorem Unborn.lookup_eq_none {t : Traffic} (h : Unborn p t) : t.pool.pageTable.lookup p = none := by
  rw [Option.eq_none_iff_forall_ne_some]
  intro f hf
  exact h.keeps.table p f hf rfl

theorem Unborn.clean_step {t : Traffic} (h : Unborn p t) (op : Op) : (t.pool.step op).Clean p :=
  h.clean.step h.keeps fun _ _ hresident => absurd h.lookup_eq_none hresident

theorem Unborn.newPage {t : Traffic} (h : Unborn p t) (hnext : t.pool.disk.nextPageId = p) (hvalid : p ≠ invalidPageId)
    (visit : Visit) : Unborn p (t.step (.newPage visit)) ∨ Intact p (t.step (.newPage visit)) := by
  have hclean := h.clean_step (.newPage visit)
  have hkeeps : t.pool.Keeps (Only p fun page => page = SlottedPage.init p) := h.keeps.mono fun _ _ => Or.inr
  have hallowed : (Op.newPage visit).Allowed (Only p fun page => page = SlottedPage.init p) t.pool :=
    fun _ => ⟨hnext ▸ hvalid, Or.inl ⟨hnext, by rw [hnext]⟩⟩
  obtain ⟨freeList, replacer, heq⟩ := newPage_eq t.pool visit
  cases hfind : (t.pool.findAvailableFrame visit).1 with
  | none =>
    simp only [hfind] at heq
    refine Or.inl ⟨?_, ?_, hclean⟩
    · simp only [Traffic.step, Op.handedOut, heq, Option.map_none, Option.toList_none, List.append_nil]
      exact h.handedOut
    · simp only [Traffic.step, step, heq]
      exact ⟨h.keeps.mapped, h.keeps.table, h.keeps.dirty⟩
  | some f =>
    simp only [hfind] at heq
    refine Or.inr ⟨?_, (hkeeps.newPage hallowed).1, hclean, fun hnone => ?_⟩
    · simp only [Traffic.step, Op.handedOut, heq, Option.map_some, Option.toList_some, hnext, List.mem_append,
        List.mem_singleton, or_true]
    · simp only [Traffic.step, step, heq] at hnone
      rw [hnext] at hnone
      exact absurd ((AList.lookup_insert _).symm.trans hnone) (Option.some_ne_none f)

theorem handedOut_of_not_findsFrame {visit : Visit} (h : ¬ pool.FindsFrame visit) :
    (Op.newPage visit).handedOut pool = [] := by
  obtain ⟨freeList, replacer, heq⟩ := newPage_eq pool visit
  rw [FindsFrame, not_not] at h
  rw [Op.handedOut, heq, h]
  rfl

theorem Unborn.step (h : Unborn p (traffic poolSize file k past)) (hop : LeftAlone p poolSize file k past op) :
    Unborn p ((traffic poolSize file k past).step op) ∨ Intact p ((traffic poolSize file k past).step op) := by
  have hunborn : op.Allowed (fun pageId _ => ¬ Collide p pageId) (traffic poolSize file k past).pool →
      p ∉ op.handedOut (traffic poolSize file k past).pool → Unborn p ((traffic poolSize file k past).step op) := by
    intro hallowed hnot
    refine ⟨fun hmem => ?_, (h.keeps.step hallowed).1, h.clean_step op⟩
    exact (List.mem_append.mp hmem).elim h.handedOut hnot
  cases op with
  | newPage visit =>
    by_cases hfinds : (traffic poolSize file k past).pool.FindsFrame visit
    · obtain ⟨hvalid, hne | ⟨hnext, -⟩⟩ := hop hfinds
      · refine Or.inl (hunborn (fun _ => ⟨hvalid, hne⟩) fun hmem => ?_)
        rcases step_handedOut (traffic poolSize file k past).pool (.newPage visit) with ⟨hnone, -⟩ | ⟨hone, -⟩
        · rw [hnone] at hmem
          cases hmem
        · rw [hone, List.mem_singleton] at hmem
          exact hne (hmem ▸ rfl)
      · exact h.newPage hnext (hnext ▸ hvalid) visit
    · refine Or.inl (hunborn (fun hfinds' => absurd hfinds' hfinds) fun hmem => ?_)
      rw [handedOut_of_not_findsFrame hfinds] at hmem
      cases hmem
  | fetchPage visit pageId =>
    refine Or.inl (hunborn (fun hfinds hmiss => ?_) List.not_mem_nil)
    obtain ⟨hvalid, hplace⟩ := hop hfinds hmiss
    exact ⟨hvalid, fun _ => hplace.resolve_right fun hself => h.handedOut hself.2⟩
  | change pageId page => exact Or.inl (hunborn (fun f hf => h.keeps.table pageId f hf) List.not_mem_nil)
  | unpinPage pageId isDirty => exact Or.inl (hunborn trivial List.not_mem_nil)
  | flushPage pageId => exact Or.inl (hunborn trivial List.not_mem_nil)
  | flushAllPages visit => exact Or.inl (hunborn trivial List.not_mem_nil)

end Steps

theorem phases {poolSize : ℕ} {file : Bytes} {k : ℕ} {ops : List Op} (hoffset : offset p < 2 ^ 63)
    (h : Lawful (LeftAlone p poolSize file k) ops) :
    Unborn p (traffic poolSize file k ops) ∧ Lawful (KeepsImage p poolSize file k) ops ∨
      p ∈ (traffic poolSize file k ops).handedOut ∧
        (Lawful (KeepsImage p poolSize file k) ops → Intact p (traffic poolSize file k ops)) ∧
        (pageSize ∣ file.length → ¬ Lawful (KeepsImage p poolSize file k) ops →
          Lost p (traffic poolSize file k ops)) := by
  induction ops using List.reverseRecOn with
  | nil =>
    refine Or.inl ⟨⟨List.not_mem_nil, construct_keeps _ poolSize file k, fun f _ => ?_⟩, lawful_nil⟩
    change FrameMeta.isDirty (if f < reached poolSize then _ else _) = false
    split_ifs <;> rfl
  | append_singleton ops op ih =>
    obtain ⟨hpast, hop⟩ := (lawful_snoc ops op).mp h
    rw [lawful_snoc, traffic, run_snoc]
    rcases ih hpast with ⟨hunborn, hkept⟩ | ⟨hout, hintact, hlost⟩
    · have hkeeps : KeepsImage p poolSize file k ops op := fun hresident => absurd hunborn.lookup_eq_none hresident
      rcases hunborn.step hop with hunborn' | hintact
      · exact Or.inl ⟨hunborn', hkept, hkeeps⟩
      · exact Or.inr ⟨hintact.handedOut, fun _ => hintact, fun _ hnot => absurd ⟨hkept, hkeeps⟩ hnot⟩
    · refine Or.inr ⟨List.mem_append_left _ hout, fun hkept => ?_, fun hwhole hnot => ?_⟩
      · exact (hintact hkept.1).step hoffset hop hkept.2
      · by_cases hkept : Lawful (KeepsImage p poolSize file k) ops
        · exact (hintact hkept).lose hoffset hop hwhole fun hkeeps => hnot ⟨hkept, hkeeps⟩
        · exact (hlost hwhole hkept).step hop

theorem fresh_page_survives_iff (poolSize : ℕ) (file : Bytes) (k : ℕ) {p : UInt64} (hoffset : offset p < 2 ^ 63)
    {ops : List Op} (h : Lawful (LeftAlone p poolSize file k) ops)
    (hcreated : p ∈ (traffic poolSize file k ops).handedOut) {visit : Visit} {f : FrameId}
    (hfetch : ((traffic poolSize file k ops).pool.fetchPage visit p).1 = some f) :
    let page := ((traffic poolSize file k ops).pool.fetchPage visit p).2.pages f
    (Lawful (KeepsImage p poolSize file k) ops → page = SlottedPage.init p) ∧
      (pageSize ∣ file.length → (page = SlottedPage.init p ↔ Lawful (KeepsImage p poolSize file k) ops)) := by
  intro page
  have hlookup := fetchPage_lookup hfetch
  have hop : LeftAlone p poolSize file k ops (.fetchPage visit p) := by
    refine fun _ _ => ⟨?_, Or.inr ⟨rfl, hcreated⟩⟩
    rintro rfl
    exact absurd hoffset (by decide)
  have hself : ¬¬ Collide p p := not_not_intro rfl
  rcases phases hoffset h with ⟨hunborn, -⟩ | ⟨-, hintact, hlost⟩
  · exact absurd hcreated hunborn.handedOut
  · have hforward : Lawful (KeepsImage p poolSize file k) ops → page = SlottedPage.init p := by
      intro hkept
      have hkeeps := ((hintact hkept).keeps.fetchPage ((hintact hkept).allowed hoffset hop)).1
      exact ((hkeeps.table p f hlookup).resolve_right hself).2
    refine ⟨hforward, fun hwhole => ⟨fun hpage => ?_, hforward⟩⟩
    by_contra hnot
    have hkeeps := ((hlost hwhole hnot).keeps.fetchPage ((hlost hwhole hnot).allowed hop)).1
    exact ((hkeeps.table p f hlookup).resolve_right hself).2 hpage

def flushedThenEvicted : List Op :=
  [.newPage {}, .flushPage 0, .unpinPage 0 false, .newPage {}, .unpinPage 1 false]

theorem fresh_page_survives_flushedThenEvicted :
    ((traffic 1 [] 2 flushedThenEvicted).pool.fetchPage {} 0).1 = some 0 ∧
      ((traffic 1 [] 2 flushedThenEvicted).pool.fetchPage {} 0).2.pages 0 = SlottedPage.init 0 := by
  have hfetch : ((traffic 1 [] 2 flushedThenEvicted).pool.fetchPage {} 0).1 = some 0 := by decide +kernel
  have hkept : Lawful (KeepsImage 0 1 [] 2) flushedThenEvicted := by
    refine ⟨fun hresident => absurd ?_ hresident, fun _ hnone => absurd hnone ?_, fun _ hnone => absurd hnone ?_,
      fun _ _ => ?_, fun hresident => absurd ?_ hresident, trivial⟩
    · decide +kernel
    · decide +kernel
    · decide +kernel
    · exact stored_writePage { nextPageId := 1 } 0 (SlottedPage.init 0)
    · decide +kernel
  refine ⟨hfetch, (fresh_page_survives_iff 1 [] 2 (by decide) ?_ ?_ hfetch).1 hkept⟩
  · decide +kernel
  · decide +kernel

def evictedUnwritten : List Op := [.newPage {}, .unpinPage 0 false, .newPage {}, .unpinPage 1 false]

theorem fresh_page_lost :
    Lawful (LeftAlone 0 1 [] 2) evictedUnwritten ∧ 0 ∈ (traffic 1 [] 2 evictedUnwritten).handedOut ∧
      ((traffic 1 [] 2 evictedUnwritten).pool.fetchPage {} 0).1 = some 0 ∧
      ((traffic 1 [] 2 evictedUnwritten).pool.fetchPage {} 0).2.pages 0 ≠ SlottedPage.init 0 := by
  refine ⟨by decide +kernel, by decide +kernel, by decide +kernel, fun heq => ?_⟩
  have hbyte := congrArg (fun page => page.bytes[19]?) heq
  exact absurd hbyte (by decide +kernel)

end BufferPoolManager

end SystemLevel.Storage
