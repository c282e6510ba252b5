import SystemLevel.Storage.DiskTraffic

namespace SystemLevel.Storage

open Runs

namespace DiskManager

variable {d : DiskManager} {p x : UInt64}

theorem stored_or_beyond (h : pageSize ∣ d.file.length) (p : UInt64) :
    d.file.length ≤ offset p ∨ ∃ page, d.Stored p page := by
  rcases Nat.lt_or_ge (offset p) d.file.length with hlt | hge
  · right
    have hsize : pageSize = 4096 := rfl
    have hle : offset p + pageSize ≤ d.file.length := by
      rw [offset_mod] at hlt ⊢
      rw [hsize] at h ⊢
      omega
    exact ⟨⟨slice d.file (offset p) pageSize, Buffers.length_slice _ _ hle⟩, rfl⟩
  · exact Or.inl hge

theorem readPage_beyond (h : d.file.length ≤ offset p) (page : SlottedPage) : d.readPage p page = SlottedPage.zero := by
  have hnil : slice d.file (offset p) pageSize = [] := by
    rw [slice, List.drop_of_length_le h, List.take_nil]
  rw [readPage, hnil, ite_self, if_pos rfl]

theorem readPage_negative (h : ¬ offset p < 2 ^ 63) (page : SlottedPage) : d.readPage p page = SlottedPage.zero := by
  rw [readPage, if_neg h, if_pos rfl]

theorem dvd_writePage (h : pageSize ∣ d.file.length) (x : UInt64) (page : SlottedPage) :
    pageSize ∣ (d.writePage x page).file.length := by
  have hsize : pageSize = 4096 := rfl
  rw [writePage, Buffers.length_splice, page.length_bytes, offset_mod]
  rw [hsize] at h ⊢
  omega

theorem readPage_writePage_of_not_collide (h : pageSize ∣ d.file.length) (hne : ¬ Collide p x)
    (written page page' : SlottedPage) : (d.writePage x written).readPage p page = d.readPage p page' := by
  by_cases hoffset : offset p < 2 ^ 63
  · rcases stored_or_beyond h p with hbeyond | ⟨stored, hstored⟩
    · rw [readPage_beyond hbeyond]
      rcases apart_of_not_collide hne with hbefore | hafter
      · have hzero : (d.writePage x written).Stored p SlottedPage.zero := Buffers.slice_splice_hole hbeyond hbefore
        exact hzero.readPage hoffset
      · refine readPage_beyond ?_ page
        rw [writePage, Buffers.length_splice, written.length_bytes]
        exact max_le hbeyond hafter
    · rw [hstored.readPage hoffset, (hstored.writePage hne).readPage hoffset]
  · rw [readPage_negative hoffset, readPage_negative hoffset]

theorem readPage_writePage_of_collide (hsame : Collide p x) (written page : SlottedPage) :
    (d.writePage x written).readPage p page = if offset p < 2 ^ 63 then written else SlottedPage.zero := by
  split_ifs with hoffset
  · have hstored : (d.writePage x written).Stored p written := by
      have heq : offset p = offset x := by rw [offset_mod, offset_mod, hsame]
      rw [Stored, heq]
      exact stored_writePage d x written
    exact hstored.readPage hoffset
  · exact readPage_negative hoffset page

theorem dvd_after {file : Bytes} (h : pageSize ∣ file.length) (writes : List (UInt64 × SlottedPage)) :
    pageSize ∣ (after file writes).file.length := by
  induction writes using List.reverseRecOn with
  | nil => exact h
  | append_singleton writes write ih =>
    rw [after_snoc]
    exact dvd_writePage ih _ _

theorem readPage_after_filter {file : Bytes} (h : pageSize ∣ file.length) {p q : UInt64} (hne : ¬ Collide p q)
    (writes : List (UInt64 × SlottedPage)) (page page' : SlottedPage) :
    (after file writes).readPage p page = (after file (writes.filter fun write => write.1 ≠ q)).readPage p page' := by
  induction writes using List.reverseRecOn generalizing page page' with
  | nil =>
    rcases stored_or_beyond (d := after file []) h p with hbeyond | ⟨stored, hstored⟩
    · rw [List.filter_nil, readPage_beyond hbeyond, readPage_beyond hbeyond]
    · rw [List.filter_nil]
      by_cases hoffset : offset p < 2 ^ 63
      · rw [hstored.readPage hoffset, hstored.readPage hoffset]
      · rw [readPage_negative hoffset, readPage_negative hoffset]
  | append_singleton writes write ih =>
    rw [List.filter_append, after_snoc]
    by_cases hq : write.1 = q
    · have hnil : [write].filter (fun write => write.1 ≠ q) = [] := by simp [hq]
      rw [hnil, List.append_nil, readPage_writePage_of_not_collide (dvd_after h writes) (hq ▸ hne) _ _ page]
      exact ih page page'
    · have hkept : [write].filter (fun write => write.1 ≠ q) = [write] := by simp [hq]
      rw [hkept, after_snoc]
      by_cases hsame : Collide p write.1
      · rw [readPage_writePage_of_collide hsame, readPage_writePage_of_collide hsame]
      · rw [readPage_writePage_of_not_collide (dvd_after h writes) hsame _ _ page,
          readPage_writePage_of_not_collide (dvd_after h _) hsame _ _ page']
        exact ih page page'

end DiskManager

namespace BufferPoolManager

/-- No page gets the id that marks a frame without a page. -/
def NamesPages (poolSize : ℕ) (file : Bytes) (k : ℕ) (past : List Op) : Op → Prop
  | .newPage visit =>
    let pool := (traffic poolSize file k past).pool
    pool.FindsFrame visit → pool.disk.nextPageId ≠ invalidPageId
  | .fetchPage _ pageId => pageId ≠ invalidPageId
  | _ => True

instance (poolSize : ℕ) (file : Bytes) (k : ℕ) (past : List Op) : ∀ op, Decidable (NamesPages poolSize file k past op)
  | .newPage _ => inferInstanceAs (Decidable (_ → _))
  | .fetchPage _ _ => inferInstanceAs (Decidable (_ ≠ _))
  | .unpinPage _ _ | .flushPage _ | .flushAllPages _ | .change _ _ => .isTrue trivial

theorem keeps_of_namesPages {poolSize : ℕ} {file : Bytes} {k : ℕ} {ops : List Op}
    (h : Lawful (NamesPages poolSize file k) ops) : (traffic poolSize file k ops).pool.Keeps fun _ _ => True := by
  refine (keeps_traffic (fun past op hnames _ _ => ?_) h).1
  cases op with
  | newPage visit => exact fun hfinds => ⟨hnames hfinds, trivial⟩
  | fetchPage visit pageId => exact fun _ _ => ⟨hnames, fun _ => trivial⟩
  | change pageId page => exact fun _ _ => trivial
  | _ => trivial

theorem distinct_pages_share_nothing (poolSize : ℕ) (file : Bytes) (k : ℕ) (ops : List Op) (p q : UInt64)
    (hne : p ≠ q) :
    let t := traffic poolSize file k ops
    (Lawful (NamesPages poolSize file k) ops →
      ¬ ∃ f, t.pool.pageTable.lookup p = some f ∧ t.pool.pageTable.lookup q = some f) ∧
    (pageSize ∣ file.length → ¬ DiskManager.Collide p q → ∀ page page',
      t.pool.disk.readPage p page =
        (DiskManager.after file (t.writes.filter fun write => write.1 ≠ q)).readPage p page') := by
  intro t
  refine ⟨fun h => ?_, fun haligned hcollide page page' => ?_⟩
  · rintro ⟨f, hp, hq⟩
    have hkeeps := keeps_of_namesPages h
    exact hne ((hkeeps.mapped p f hp).1.symm.trans (hkeeps.mapped q f hq).1)
  · have hfile : t.pool.disk.file = (DiskManager.after file t.writes).file := traffic_file poolSize file k ops
    rw [DiskManager.readPage_congr hfile]
    exact DiskManager.readPage_after_filter haligned hcollide t.writes page page'

def changeAndEvict (p q : UInt64) : List Op :=
  [.fetchPage {} q, .change q (SlottedPage.init 9), .unpinPage q true, .fetchPage {} p]

theorem distinct_pages_share_nothing_of_changeAndEvict :
    let t := traffic 1 [] 2 (changeAndEvict 1 0)
    t.writes.map Prod.fst = [0] ∧
      (¬ ∃ f, t.pool.pageTable.lookup 1 = some f ∧ t.pool.pageTable.lookup 0 = some f) ∧
      ∀ page page', t.pool.disk.readPage 1 page =
        (DiskManager.after [] (t.writes.filter fun write => write.1 ≠ 0)).readPage 1 page' := by
  obtain ⟨htable, hdisk⟩ := distinct_pages_share_nothing 1 [] 2 (changeAndEvict 1 0) 1 0 (by decide)
  refine ⟨by decide +kernel, htable ?_, hdisk ?_ ?_⟩
  · decide
  · decide
  · decide

def fetchInvalid : List Op := [.fetchPage {} invalidPageId, .unpinPage invalidPageId false, .fetchPage {} 5]

theorem distinct_pages_mixed_up :
    ((traffic 1 [] 2 fetchInvalid).pool.pageTable.lookup invalidPageId = some 0 ∧
      (traffic 1 [] 2 fetchInvalid).pool.pageTable.lookup 5 = some 0) ∧
    ((traffic 1 [] 2 (changeAndEvict (UInt64.ofNat (2 ^ 52)) 0)).writes = [(0, SlottedPage.init 9)] ∧
      (traffic 1 [] 2 (changeAndEvict (UInt64.ofNat (2 ^ 52)) 0)).pool.pages 0 = SlottedPage.init 9) ∧
    (traffic 1 (List.replicate 4097 0) 2 (changeAndEvict 1 0)).writes = [(0, SlottedPage.init 9)] ∧
      (SlottedPage.init 9).bytes[19]? = some 16 ∧
      ((traffic 1 (List.replicate 4097 0) 2 (changeAndEvict 1 0)).pool.pages 0).bytes[19]? = some 16 := by
  refine ⟨by decide +kernel, ⟨rfl, ?_⟩, rfl, by decide +kernel, by decide +kernel⟩
  have hread : (traffic 1 [] 2 (changeAndEvict (UInt64.ofNat (2 ^ 52)) 0)).pool.pages 0 =
      (DiskManager.writePage {} 0 (SlottedPage.init 9)).readPage (UInt64.ofNat (2 ^ 52)) (SlottedPage.init 9) := rfl
  rw [hread, DiskManager.readPage_writePage_of_collide (by decide), if_pos (by decide)]

end BufferPoolManager

end SystemLevel.Storage
