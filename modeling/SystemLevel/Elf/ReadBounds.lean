import SystemLevel.Elf.ElfInspector

namespace SystemLevel.Elf

variable {image : Image}

theorem toNat_entry (base : UInt64) {i : ℕ} (hi : i < 2 ^ 16) {width : UInt64} (hwidth : width.toNat ≤ 64) :
    (base + UInt64.ofNat i * width).toNat = (base.toNat + i * width.toNat) % 2 ^ 64 := by
  have hproduct : i * width.toNat < 2 ^ 64 := by
    have := Nat.mul_le_mul hi.le hwidth
    omega
  rw [UInt64.toNat_add, UInt64.toNat_mul, UInt64.toNat_ofNat', Nat.mod_eq_of_lt (by omega : i < 2 ^ 64),
    Nat.mod_eq_of_lt hproduct]

theorem entries_within_iff {base width : UInt64} {count : UInt16} (hsome : count ≠ 0) (hwidth : width.toNat ≤ 64)
    (hend : base + UInt64.ofNat count.toNat * width ≤ image.size) :
    (∀ i < count.toNat, Access.Within { offset := base + UInt64.ofNat i * width, size := width.toNat } image) ↔
      base.toNat + count.toNat * width.toNat < 2 ^ 64 := by
  have hsize := image.size_lt
  have hbase := base.toNat_lt
  have hcount := count.toNat_lt
  have hspan := Nat.mul_le_mul hcount.le hwidth
  rw [UInt64.le_iff_toNat_le, toNat_entry base hcount hwidth] at hend
  constructor
  · intro hwithin
    have hpos : 0 < count.toNat := Nat.pos_of_ne_zero fun hzero => hsome (UInt16.toNat_inj.mp hzero)
    have hfirst : (base + UInt64.ofNat 0 * width).toNat + width.toNat ≤ image.size.toNat := hwithin 0 hpos
    rw [toNat_entry base (by decide) hwidth, Nat.zero_mul, Nat.add_zero, Nat.mod_eq_of_lt hbase] at hfirst
    omega
  · intro hfits i hi
    have hentry : i * width.toNat + width.toNat ≤ count.toNat * width.toNat := by
      rw [← Nat.succ_mul]
      exact Nat.mul_le_mul_right _ hi
    rw [Nat.mod_eq_of_lt hfits] at hend
    change (base + UInt64.ofNat i * width).toNat + width.toNat ≤ image.size.toNat
    rw [toNat_entry base (hi.trans hcount) hwidth, Nat.mod_eq_of_lt (by omega)]
    omega

theorem table_within_iff {base width : UInt64} {count : UInt16} {checked : Prop} {copies : List Access}
    (hwidth : width.toNat ≤ 64)
    (hchecked : checked → count ≠ 0 ∧ base + UInt64.ofNat count.toNat * width ≤ image.size)
    (hcopies : ∀ a, a ∈ copies ↔
      checked ∧ ∃ i < count.toNat, a = { offset := base + UInt64.ofNat i * width, size := width.toNat }) :
    (∀ a ∈ copies, a.Within image) ↔ (checked → base.toNat + count.toNat * width.toNat < 2 ^ 64) := by
  constructor
  · intro hwithin h
    obtain ⟨hsome, hend⟩ := hchecked h
    apply (entries_within_iff hsome hwidth hend).mp
    intro i hi
    exact hwithin _ ((hcopies _).mpr ⟨h, i, hi, rfl⟩)
  · intro hfits a ha
    obtain ⟨h, i, hi, rfl⟩ := (hcopies a).mp ha
    obtain ⟨hsome, hend⟩ := hchecked h
    exact (entries_within_iff hsome hwidth hend).mpr (hfits h) i hi

namespace Reads

variable {β : Type} {n : ℕ} {f : ℕ → Reads β}

theorem mem_copies_forEach {a : Access} : a ∈ (forEach n f).copies ↔ ∃ i < n, a ∈ (f i).copies := by
  simp [forEach]

theorem mem_names_forEach {r : NameRead} : r ∈ (forEach n f).names ↔ ∃ i < n, r ∈ (f i).names := by
  simp [forEach]

end Reads

namespace Elf64Inspector

variable {header : Elf64Ehdr}

theorem mem_copies_programs {a : Access} : a ∈ (parseProgramHeaders image header).copies ↔
    HasProgramHeaders image header ∧
      ∃ i < header.ePhnum.toNat, a = { offset := programHeaderOffset header i, size := 56 } := by
  unfold parseProgramHeaders
  split_ifs with hheaders
  · rw [Reads.mem_copies_forEach]
    simp only [Reads.copies_bind, Reads.copies_pure, List.append_nil, Image.copies_memcpy, Elf64Phdr.codec_size,
      List.mem_singleton, hheaders, true_and]
  · simp [hheaders]

theorem mem_copies_findStrtab {a : Access} (ha : a ∈ (findStrtab image header).copies) :
    ∃ i < header.eShnum.toNat, a = { offset := sectionHeaderOffset header i, size := 64 } := by
  unfold findStrtab at ha
  split_ifs at ha with hindex
  · rw [Reads.copies_bind, Reads.copies_pure, List.append_nil] at ha
    exact ⟨header.eShstrndx.toNat, UInt16.lt_iff_toNat_lt.mp hindex, List.mem_singleton.mp ha⟩
  · cases ha

theorem copies_sectionName (strtab : Option Elf64Shdr) (shdr : Elf64Shdr) :
    (sectionName image strtab shdr).copies = [] := by
  cases strtab with
  | none => rfl
  | some table =>
    unfold sectionName
    dsimp only
    split_ifs <;> rfl

theorem mem_copies_sections {a : Access} : a ∈ (parseSectionHeaders image header).copies ↔
    HasSectionHeaders image header ∧
      ∃ i < header.eShnum.toNat, a = { offset := sectionHeaderOffset header i, size := 64 } := by
  unfold parseSectionHeaders
  split_ifs with hheaders
  · have hentries (strtab : Option Elf64Shdr) (i : ℕ) :
        (do
          let shdr ← image.memcpy Elf64Shdr.codec (sectionHeaderOffset header i)
          let name ← sectionName image strtab shdr
          return sectionInfo name shdr : Reads SectionInfo).copies =
          [{ offset := sectionHeaderOffset header i, size := 64 }] := by
      simp only [Reads.copies_bind, Reads.copies_pure, copies_sectionName, List.append_nil, Image.copies_memcpy,
        Elf64Shdr.codec_size]
    rw [Reads.copies_bind, List.mem_append, Reads.mem_copies_forEach]
    simp only [hentries, List.mem_singleton, hheaders, true_and]
    exact or_iff_right_of_imp mem_copies_findStrtab
  · simp [hheaders]

def acceptedHeader (image : Image) : Option Elf64Ehdr :=
  if 64 ≤ image.size ∧ Accepts (image.load Elf64Ehdr.codec 0) then some (image.load Elf64Ehdr.codec 0) else none

theorem parse_cases (image : Image) :
    (acceptedHeader image = none ∧ (parse image).names = [] ∧ ∀ a ∈ (parse image).copies, a.Within image) ∨
    ∃ header, acceptedHeader image = some header ∧ (parse image).names = (parseTables image header).names ∧
      (parse image).copies = { offset := 0, size := 64 } :: (parseTables image header).copies ∧
      Access.Within { offset := 0, size := 64 } image := by
  by_cases hsize : image.size < 64
  · refine Or.inl ⟨if_neg fun h => absurd hsize (UInt64.not_lt.mpr h.1), ?_, ?_⟩
    all_goals rw [parse, if_pos hsize]
    · rfl
    · exact List.forall_mem_nil _
  · have hle := UInt64.not_lt.mp hsize
    have hfirst : Access.Within { offset := 0, size := 64 } image := by
      rw [UInt64.le_iff_toNat_le] at hle
      change 0 + 64 ≤ image.size.toNat
      rw [Nat.zero_add]
      exact hle
    by_cases haccepts : Accepts (image.load Elf64Ehdr.codec 0)
    · refine Or.inr ⟨_, if_pos ⟨hle, haccepts⟩, ?_, ?_, hfirst⟩
      · rw [parse, if_neg hsize, Reads.names_bind, Image.value_memcpy, Image.names_memcpy, if_pos haccepts,
          List.nil_append]
      · rw [parse, if_neg hsize, Reads.copies_bind, Image.value_memcpy, Image.copies_memcpy, if_pos haccepts,
          Elf64Ehdr.codec_size, List.singleton_append]
    · refine Or.inl ⟨if_neg fun h => haccepts h.2, ?_, ?_⟩
      · rw [parse, if_neg hsize, Reads.names_bind, Image.value_memcpy, Image.names_memcpy, if_neg haccepts,
          Reads.names_pure, List.append_nil]
      · rw [parse, if_neg hsize, Reads.copies_bind, Image.value_memcpy, Image.copies_memcpy, if_neg haccepts,
          Elf64Ehdr.codec_size, Reads.copies_pure, List.append_nil]
        exact List.forall_mem_singleton.mpr hfirst

theorem header_copies_in_bounds_iff (image : Image) :
    (∀ a ∈ (parse image).copies, a.Within image) ↔
      ∀ header ∈ acceptedHeader image,
        (HasProgramHeaders image header → header.ePhoff.toNat + header.ePhnum.toNat * 56 < 2 ^ 64) ∧
        (HasSectionHeaders image header → header.eShoff.toNat + header.eShnum.toNat * 64 < 2 ^ 64) := by
  obtain ⟨hnone, -, hwithin⟩ | ⟨header, hsome, -, hcopies, hfirst⟩ := parse_cases image
  · rw [hnone]
    exact iff_of_true hwithin fun header hheader => absurd hheader (Option.not_mem_none header)
  · have hprograms := table_within_iff (by decide) (fun h => h.2) fun a => @mem_copies_programs image header a
    have hsections := table_within_iff (by decide) (fun h => h.2) fun a => @mem_copies_sections image header a
    rw [hcopies, hsome, List.forall_mem_cons, parseTables]
    simp only [Reads.copies_bind, Reads.copies_pure, List.append_nil]
    rw [List.forall_mem_append, hprograms, hsections]
    constructor
    · rintro ⟨-, hfits⟩ header' hheader
      obtain rfl := Option.some.inj hheader
      exact hfits
    · intro hfits
      exact ⟨hfirst, hfits header rfl⟩

def elf64Ident : { bs : Bytes // bs.length = 16 } := ⟨[0x7f, 0x45, 0x4c, 0x46, 2, 1, 1, 0, 0, 0, 0, 0, 0, 0, 0, 0], rfl⟩

def wrappingTable : Image where
  data := 4096
  bytes offset := (Elf64Ehdr.codec.encode
    { eIdent := elf64Ident, eType := 2, eMachine := 62, eVersion := 1, eEntry := 0
      ePhoff := 0xFFFFFFFFFFFFFFC8, eShoff := 0, eFlags := 0, eEhsize := 64, ePhentsize := 56, ePhnum := 1
      eShentsize := 64, eShnum := 0, eShstrndx := 0 }).getD offset.toNat 0
  size := 64
  size_lt := by decide

theorem wrappingTable_copied_outside :
    (parse wrappingTable).copies = [{ offset := 0, size := 64 }, { offset := 0xFFFFFFFFFFFFFFC8, size := 56 }] ∧
      ¬ Access.Within { offset := 0xFFFFFFFFFFFFFFC8, size := 56 } wrappingTable := by
  decide +kernel

end Elf64Inspector

end SystemLevel.Elf
