import SystemLevel.Storage.DiskTraffic

namespace SystemLevel.Storage

open Runs

namespace DiskManager

variable {p : UInt64} {page : SlottedPage}

theorem Stored.replay {file : Bytes} (h : (after file []).Stored p page) {writes : List (UInt64 × SlottedPage)}
    (hwrites : ∀ write ∈ writes, write.1 = p ∧ write.2 = page ∨ ¬ Collide p write.1) :
    (after file writes).Stored p page := by
  induction writes using List.reverseRecOn with
  | nil => exact h
  | append_singleton writes write ih =>
    have hold := ih fun next hnext => hwrites next (List.mem_append_left _ hnext)
    rw [after_snoc]
    rcases hwrites write (by simp) with ⟨rfl, rfl⟩ | hne
    · exact stored_writePage _ _ _
    · exact hold.writePage hne

def lastWritten (writes : List (UInt64 × SlottedPage)) (p : UInt64) : Option SlottedPage :=
  (writes.reverse.find? fun write => write.1 = p).map Prod.snd

theorem lastWritten_append (writes writes' : List (UInt64 × SlottedPage)) (p : UInt64) :
    lastWritten (writes ++ writes') p = (lastWritten writes' p).or (lastWritten writes p) := by
  rw [lastWritten, List.reverse_append, List.find?_append, Option.map_or]
  rfl

theorem lastWritten_eq {writes : List (UInt64 × SlottedPage)} (hsome : ∃ write ∈ writes, write.1 = p)
    (hall : ∀ write ∈ writes, write.1 = p → write.2 = page) : lastWritten writes p = some page := by
  obtain ⟨write, hwrite, hp⟩ := hsome
  cases hfind : writes.reverse.find? fun write => write.1 = p with
  | none =>
    have hnone := List.find?_eq_none.mp hfind write (List.mem_reverse.mpr hwrite)
    simp [hp] at hnone
  | some last =>
    have hlast : last.1 = p := by simpa using List.find?_some hfind
    rw [lastWritten, hfind, Option.map_some, hall last (List.mem_reverse.mp (List.mem_of_find?_eq_some hfind)) hlast]

theorem stored_lastWritten {file : Bytes} {writes : List (UInt64 × SlottedPage)}
    (hwrites : ∀ write ∈ writes, write.1 = p ∨ ¬ Collide p write.1) (hlast : lastWritten writes p = some page) :
    (after file writes).Stored p page := by
  induction writes using List.reverseRecOn with
  | nil => cases hlast
  | append_singleton writes write ih =>
    rw [after_snoc]
    rw [lastWritten_append] at hlast
    by_cases hself : write.1 = p
    · have hpage : lastWritten [write] p = some write.2 := by simp [lastWritten, hself]
      rw [hpage, Option.some_or] at hlast
      cases hlast
      rw [← hself]
      exact stored_writePage _ _ _
    · have hnone : lastWritten [write] p = none := by simp [lastWritten, hself]
      rw [hnone, Option.none_or] at hlast
      have hold := ih (fun next hnext => hwrites next (List.mem_append_left _ hnext)) hlast
      exact hold.writePage ((hwrites write (by simp)).resolve_left hself)

end DiskManager

namespace BufferPoolManager

open DiskManager

abbrev lifetime (poolSize : ℕ) (file : Bytes) (k : ℕ) (ops : List Op) (visit : Visit) : Traffic :=
  traffic poolSize file k (ops ++ [.flushAllPages visit])

/-- No page comes into a frame that has the place of `p` in the file, and none with the id of a frame without a page.
A call that finds no frame is free. -/
def Separate (p : UInt64) (poolSize : ℕ) (file : Bytes) (k : ℕ) (past : List Op) : Op → Prop
  | .newPage visit =>
    let pool := (traffic poolSize file k past).pool
    let next := pool.disk.nextPageId
    pool.FindsFrame visit → next ≠ invalidPageId ∧ (next = p ∨ ¬ Collide p next)
  | .fetchPage visit pageId =>
    let pool := (traffic poolSize file k past).pool
    pool.FindsFrame visit → pool.pageTable.lookup pageId = none →
      pageId ≠ invalidPageId ∧ (pageId = p ∨ ¬ Collide p pageId)
  | _ => True

instance (p : UInt64) (poolSize : ℕ) (file : Bytes) (k : ℕ) (past : List Op) :
    ∀ op, Decidable (Separate p poolSize file k past op)
  | .newPage _ => inferInstanceAs (Decidable (_ → _))
  | .fetchPage _ _ => inferInstanceAs (Decidable (_ → _ → _))
  | .unpinPage _ _ | .flushPage _ | .flushAllPages _ | .change _ _ => .isTrue trivial

def Untouched (p : UInt64) (poolSize : ℕ) (file : Bytes) (k : ℕ) (past : List Op) : Op → Prop
  | .newPage visit =>
    let pool := (traffic poolSize file k past).pool
    pool.FindsFrame visit → pool.disk.nextPageId ≠ invalidPageId ∧ ¬ Collide p pool.disk.nextPageId
  | .fetchPage visit pageId =>
    let pool := (traffic poolSize file k past).pool
    pool.FindsFrame visit → pool.pageTable.lookup pageId = none →
      pageId ≠ invalidPageId ∧ (pageId = p ∨ ¬ Collide p pageId)
  | .change pageId _ => pageId ≠ p
  | _ => True

instance (p : UInt64) (poolSize : ℕ) (file : Bytes) (k : ℕ) (past : List Op) :
    ∀ op, Decidable (Untouched p poolSize file k past op)
  | .newPage _ => inferInstanceAs (Decidable (_ → _))
  | .fetchPage _ _ => inferInstanceAs (Decidable (_ → _ → _))
  | .change _ _ => inferInstanceAs (Decidable (_ ≠ _))
  | .unpinPage _ _ | .flushPage _ | .flushAllPages _ => .isTrue trivial

theorem flushAllPages_next (pool : BufferPoolManager) (visit : Visit) :
    (pool.flushAllPages visit).disk.nextPageId = pool.disk.nextPageId := by
  unfold flushAllPages
  induction visit.table.visit pool.pageTable.entries using List.reverseRecOn with
  | nil => rfl
  | append_singleton entries entry ih =>
    rw [List.foldl_append, ← ih, List.foldl_cons, List.foldl_nil, writeBack]
    split_ifs <;> rfl

theorem step_handedOut (pool : BufferPoolManager) (op : Op) :
    (op.handedOut pool = [] ∧ (pool.step op).disk.nextPageId = pool.disk.nextPageId) ∨
      (op.handedOut pool = [pool.disk.nextPageId] ∧ (pool.step op).disk.nextPageId = pool.disk.nextPageId + 1) := by
  cases op with
  | newPage visit =>
    obtain ⟨freeList, replacer, heq⟩ := newPage_eq pool visit
    rw [step, Op.handedOut, heq]
    cases (pool.findAvailableFrame visit).1 with
    | none => exact Or.inl ⟨rfl, rfl⟩
    | some f =>
      exact Or.inr ⟨rfl, (vacate_same { pool with freeList, replacer, disk := pool.disk.allocatePage.2 } f).2.2.2.2⟩
  | fetchPage visit pageId =>
    refine Or.inl ⟨rfl, ?_⟩
    cases hlookup : pool.pageTable.lookup pageId with
    | some f =>
      simp only [step, fetchPage, hlookup]
      rfl
    | none =>
      obtain ⟨freeList, replacer, heq⟩ := fetchPage_eq pool visit hlookup
      rw [step, heq]
      cases (pool.findAvailableFrame visit).1 with
      | none => rfl
      | some f => exact (vacate_same { pool with freeList, replacer } f).2.2.2.2
  | unpinPage pageId isDirty => exact Or.inl ⟨rfl, by rw [step, unpinPage_disk]⟩
  | flushPage pageId =>
    refine Or.inl ⟨rfl, ?_⟩
    rw [step, flushPage]
    cases pool.pageTable.lookup pageId <;> rfl
  | flushAllPages visit => exact Or.inl ⟨rfl, flushAllPages_next pool visit⟩
  | change pageId page =>
    refine Or.inl ⟨rfl, ?_⟩
    rw [step, change]
    cases pool.pageTable.lookup pageId <;> rfl

theorem handedOut_eq (poolSize : ℕ) (file : Bytes) (k : ℕ) (ops : List Op) :
    ∃ n, (traffic poolSize file k ops).handedOut = (List.range n).map UInt64.ofNat ∧
      (traffic poolSize file k ops).pool.disk.nextPageId = UInt64.ofNat n := by
  induction ops using List.reverseRecOn with
  | nil => exact ⟨0, rfl, rfl⟩
  | append_singleton ops op ih =>
    obtain ⟨n, hids, hnext⟩ := ih
    rw [traffic, run_snoc]
    change ∃ n, _ ++ op.handedOut _ = _ ∧ (step _ op).disk.nextPageId = _
    rcases step_handedOut (traffic poolSize file k ops).pool op with ⟨hnone, hsame⟩ | ⟨hone, hsucc⟩
    · exact ⟨n, by rw [hnone, List.append_nil, hids], hsame.trans hnext⟩
    · refine ⟨n + 1, ?_, ?_⟩
      · rw [hone, hids, hnext, List.range_succ, List.map_append, List.map_singleton]
      · rw [hsucc, hnext, UInt64.ofNat_add]
        rfl

theorem zero_mem_handedOut {poolSize : ℕ} {file : Bytes} {k : ℕ} {ops : List Op}
    (h : (traffic poolSize file k ops).handedOut ≠ []) :
    0 ∈ (traffic poolSize file k ops).handedOut := by
  obtain ⟨n, hids, -⟩ := handedOut_eq poolSize file k ops
  rw [hids] at h ⊢
  refine List.mem_map.mpr ⟨0, List.mem_range.mpr (Nat.pos_of_ne_zero ?_), rfl⟩
  rintro rfl
  exact h rfl

section Destructor

variable {p : UInt64} {f : FrameId}

theorem writeBack_pages (pool : BufferPoolManager) (pageId : UInt64) (f : FrameId) :
    (pool.writeBack pageId f).pages = pool.pages := by
  unfold writeBack
  split_ifs <;> rfl

theorem mem_flushWrites {pool : BufferPoolManager} {entries : List (Sigma fun _ : UInt64 => FrameId)}
    {write : UInt64 × SlottedPage} (h : write ∈ pool.flushWrites entries) :
    ∃ entry ∈ entries, write = (entry.1, pool.pages entry.2) := by
  induction entries generalizing pool with
  | nil => cases h
  | cons entry entries ih =>
    rw [flushWrites, List.mem_append] at h
    rcases h with h | h
    · rw [backWrites] at h
      split_ifs at h
      · exact ⟨entry, List.mem_cons_self, List.mem_singleton.mp h⟩
      · cases h
    · obtain ⟨next, hnext, heq⟩ := ih h
      rw [writeBack_pages] at heq
      exact ⟨next, List.mem_cons_of_mem _ hnext, heq⟩

theorem exists_mem_flushWrites {pool : BufferPoolManager} {entries : List (Sigma fun _ : UInt64 => FrameId)}
    (hmem : ⟨p, f⟩ ∈ entries) (hown : ∀ entry ∈ entries, entry.2 = f → entry.1 = p)
    (hdirty : (pool.frames f).isDirty = true) : ∃ write ∈ pool.flushWrites entries, write.1 = p := by
  induction entries generalizing pool with
  | nil => cases hmem
  | cons entry entries ih =>
    rw [flushWrites]
    by_cases hf : entry.2 = f
    · refine ⟨(entry.1, pool.pages entry.2), List.mem_append_left _ ?_, hown entry List.mem_cons_self hf⟩
      rw [backWrites, hf, if_pos hdirty]
      exact List.mem_singleton_self _
    · have hrest : ⟨p, f⟩ ∈ entries := (List.mem_cons.mp hmem).resolve_left fun he => hf (he ▸ rfl)
      have hstill : ((pool.writeBack entry.1 entry.2).frames f).isDirty = true := by
        rw [writeBack]
        split_ifs
        · rw [writeOut_isDirty, if_neg (Ne.symm hf)]
          exact hdirty
        · exact hdirty
      obtain ⟨write, hwrite, hp⟩ := ih hrest (fun next hnext => hown next (List.mem_cons_of_mem _ hnext)) hstill
      exact ⟨write, List.mem_append_right _ hwrite, hp⟩

theorem lastWritten_flushAllPages {Ok : UInt64 → SlottedPage → Prop} {pool : BufferPoolManager} (h : pool.Keeps Ok)
    (visit : Visit) (hlookup : pool.pageTable.lookup p = some f) (hdirty : (pool.frames f).isDirty = true) :
    lastWritten ((Op.flushAllPages visit).writes pool) p = some (pool.pages f) := by
  have hentry : ∀ entry ∈ visit.table.visit pool.pageTable.entries, pool.pageTable.lookup entry.1 = some entry.2 :=
    fun entry hentry => AList.mem_lookup_iff.mpr ((visit.table.perm _).mem_iff.mp hentry)
  refine lastWritten_eq (exists_mem_flushWrites (f := f) ?_ (fun entry hmem hf => ?_) hdirty) fun write hwrite hp => ?_
  · exact (visit.table.perm _).mem_iff.mpr (AList.mem_lookup_iff.mp hlookup)
  · have hframe := (h.mapped _ _ (hentry entry hmem)).1
    rw [hf] at hframe
    exact hframe.symm.trans (h.mapped p f hlookup).1
  · obtain ⟨entry, hmem, heq⟩ := mem_flushWrites hwrite
    rw [heq] at hp ⊢
    have hsame := hentry entry hmem
    rw [show entry.1 = p from hp, hlookup] at hsame
    exact congrArg pool.pages (Option.some.inj hsame).symm

end Destructor

section Lifetimes

variable {p : UInt64} {page : SlottedPage} {poolSize : ℕ} {file : Bytes} {k : ℕ} {ops : List Op}

theorem keeps_of_separate (h : Lawful (Separate p poolSize file k) ops) :
    (traffic poolSize file k ops).pool.Keeps (fun pageId _ => pageId = p ∨ ¬ Collide p pageId) ∧
      ∀ write ∈ (traffic poolSize file k ops).writes, write.1 = p ∨ ¬ Collide p write.1 := by
  refine keeps_traffic (fun past op hop hkeeps _ => ?_) h
  cases op with
  | newPage visit => exact hop
  | fetchPage visit pageId => exact fun hfinds hmiss => ⟨(hop hfinds hmiss).1, fun _ => (hop hfinds hmiss).2⟩
  | change pageId page => exact fun f hf => hkeeps.table pageId f hf
  | _ => trivial

theorem stored_vacate {past : List Op} (hstored : (after file []).Stored p page)
    (hkeeps : (traffic poolSize file k past).pool.Keeps fun pageId page' =>
      pageId = p ∧ page' = page ∨ ¬ Collide p pageId)
    (hwrites : ∀ write ∈ (traffic poolSize file k past).writes, write.1 = p ∧ write.2 = page ∨ ¬ Collide p write.1)
    (f : FrameId) : ((traffic poolSize file k past).pool.vacate f).disk.Stored p page := by
  let t := traffic poolSize file k past
  have hfile : (t.pool.vacate f).disk.file = (after file (t.writes ++ t.pool.vacateWrites f)).file := by
    rw [vacate_file, traffic_file, after, replay, replay, replay, List.foldl_append]
  have hafter : (after file (t.writes ++ t.pool.vacateWrites f)).Stored p page := by
    refine hstored.replay fun write hwrite => ?_
    rcases List.mem_append.mp hwrite with hwrite | hwrite
    · exact hwrites write hwrite
    · exact hkeeps.vacateWrites f write hwrite
  rw [Stored] at hafter ⊢
  rw [hfile]
  exact hafter

theorem keeps_of_untouched (hoffset : offset p < 2 ^ 63) (hstored : (after file []).Stored p page)
    (h : Lawful (Untouched p poolSize file k) ops) :
    (traffic poolSize file k ops).pool.Keeps (fun pageId page' => pageId = p ∧ page' = page ∨ ¬ Collide p pageId) ∧
      ∀ write ∈ (traffic poolSize file k ops).writes, write.1 = p ∧ write.2 = page ∨ ¬ Collide p write.1 := by
  refine keeps_traffic (fun past op hop hkeeps hwrites => ?_) h
  cases op with
  | newPage visit => exact fun hfinds => ⟨(hop hfinds).1, Or.inr (hop hfinds).2⟩
  | fetchPage visit pageId =>
    intro hfinds hmiss
    obtain ⟨hvalid, hplace⟩ := hop hfinds hmiss
    refine ⟨hvalid, fun f => ?_⟩
    rcases hplace with rfl | hne
    · exact Or.inl ⟨rfl, (stored_vacate hstored hkeeps hwrites f).readPage hoffset⟩
    · exact Or.inr hne
  | change pageId page => exact fun f hf => Or.inr ((hkeeps.table pageId f hf).resolve_left fun he => hop he.1)
  | _ => trivial

theorem fetchPage_lookup {pool : BufferPoolManager} {visit : Visit} {f : FrameId}
    (h : (pool.fetchPage visit p).1 = some f) : (pool.fetchPage visit p).2.pageTable.lookup p = some f := by
  cases hlookup : pool.pageTable.lookup p with
  | some g =>
    simp only [fetchPage, hlookup] at h ⊢
    exact hlookup.trans h
  | none =>
    obtain ⟨freeList, replacer, heq⟩ := fetchPage_eq pool visit hlookup
    rw [heq] at h ⊢
    cases hfind : (pool.findAvailableFrame visit).1 with
    | none =>
      rw [hfind] at h
      cases h
    | some g =>
      rw [hfind] at h
      cases h
      exact AList.lookup_insert _

end Lifetimes

theorem pages_survive_restart (poolSize poolSize' k k' : ℕ) (file : Bytes) (ops ops' : List Op) (visit : Visit) :
    let first := lifetime poolSize file k ops visit
    let second := traffic poolSize' first.pool.disk.file k' ops'
    ((∀ pageId ∈ second.handedOut, pageId ∉ first.handedOut) ↔ first.handedOut = [] ∨ second.handedOut = []) ∧
      ∀ p, offset p < 2 ^ 63 → Lawful (Separate p poolSize file k) ops →
        Lawful (Untouched p poolSize' first.pool.disk.file k') ops' →
        (∀ f, (traffic poolSize file k ops).pool.pageTable.lookup p = some f →
          ((traffic poolSize file k ops).pool.frames f).isDirty = true →
            lastWritten first.writes p = some ((traffic poolSize file k ops).pool.pages f)) ∧
        ∀ page, lastWritten first.writes p = some page → ∀ visit f,
          (second.pool.fetchPage visit p).1 = some f → (second.pool.fetchPage visit p).2.pages f = page := by
  intro first second
  refine ⟨⟨fun h => ?_, fun h pageId hsecond hfirst => ?_⟩, fun p hoffset hseparate huntouched => ⟨?_, ?_⟩⟩
  · by_contra hboth
    rw [not_or] at hboth
    exact h 0 (zero_mem_handedOut hboth.2) (zero_mem_handedOut hboth.1)
  · rcases h with h | h
    · rw [h] at hfirst
      cases hfirst
    · rw [h] at hsecond
      cases hsecond
  · intro f hlookup hdirty
    have hlast := lastWritten_flushAllPages (keeps_of_separate hseparate).1 visit hlookup hdirty
    have hwrites : first.writes = (traffic poolSize file k ops).writes ++
        (Op.flushAllPages visit).writes (traffic poolSize file k ops).pool :=
      congrArg Traffic.writes (run_snoc _ _ ops (.flushAllPages visit))
    rw [hwrites, lastWritten_append, hlast, Option.some_or]
  · intro page hlast visit' f hfetch
    have hwrites := (keeps_of_separate ((lawful_snoc ops (.flushAllPages visit)).mpr ⟨hseparate, trivial⟩)).2
    have hstored : (after first.pool.disk.file []).Stored p page := by
      have hfile := traffic_file poolSize file k (ops ++ [.flushAllPages visit])
      change slice first.pool.disk.file _ _ = _
      rw [hfile]
      exact stored_lastWritten hwrites hlast
    have hallowed : Lawful (Untouched p poolSize' first.pool.disk.file k') (ops' ++ [.fetchPage visit' p]) := by
      refine (lawful_snoc _ _).mpr ⟨huntouched, fun _ _ => ⟨?_, Or.inl rfl⟩⟩
      rintro rfl
      exact absurd hoffset (by decide)
    have hkeeps := (keeps_of_untouched hoffset hstored hallowed).1
    rw [traffic, run_snoc] at hkeeps
    rcases hkeeps.table p f (fetchPage_lookup hfetch) with ⟨-, hpage⟩ | hcollide
    · exact hpage
    · exact absurd rfl hcollide

def fetchAndChange (p : UInt64) : List Op := [.fetchPage {} p, .change p (SlottedPage.init 9), .unpinPage p true]

def twoNewPages : List Op := [.newPage {}, .unpinPage 0 true, .newPage {}, .unpinPage 1 false]

theorem pages_survive_restart_of_fetchAndChange :
    ((traffic 1 (lifetime 1 [] 2 (fetchAndChange 3) {}).pool.disk.file 2 twoNewPages).pool.fetchPage {} 3).1 = some 0 ∧
      ((traffic 1 (lifetime 1 [] 2 (fetchAndChange 3) {}).pool.disk.file 2 twoNewPages).pool.fetchPage {} 3).2.pages 0 =
        SlottedPage.init 9 := by
  have hlast : lastWritten (lifetime 1 [] 2 (fetchAndChange 3) {}).writes 3 = some (SlottedPage.init 9) := rfl
  have hfirst : Lawful (Separate 3 1 [] 2) (fetchAndChange 3) := by decide
  have hsecond : Lawful (Untouched 3 1 (lifetime 1 [] 2 (fetchAndChange 3) {}).pool.disk.file 2) twoNewPages := by
    decide +kernel
  have hfetch : ((traffic 1 (lifetime 1 [] 2 (fetchAndChange 3) {}).pool.disk.file 2 twoNewPages).pool.fetchPage
      {} 3).1 = some 0 := by
    decide +kernel
  exact ⟨hfetch, ((pages_survive_restart 1 1 2 2 [] (fetchAndChange 3) twoNewPages {}).2 3 (by decide) hfirst hsecond).2
    (SlottedPage.init 9) hlast {} 0 hfetch⟩

theorem restarted_pool_overwrites_page :
    let first := lifetime 1 [] 2 (.newPage {} :: fetchAndChange 0) {}
    let second := traffic 1 first.pool.disk.file 2 twoNewPages
    first.handedOut = [0] ∧ second.handedOut = [0, 1] ∧
      lastWritten first.writes 0 = some (SlottedPage.init 9) ∧ (SlottedPage.init 9).bytes[0]? = some 9 ∧
      (second.pool.fetchPage {} 0).1 = some 0 ∧ ((second.pool.fetchPage {} 0).2.pages 0).bytes[0]? = some 0 := by
  refine ⟨by decide +kernel, by decide +kernel, rfl, by decide +kernel, by decide +kernel, by decide +kernel⟩

end BufferPoolManager

end SystemLevel.Storage
