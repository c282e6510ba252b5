import SystemLevel.Elf.ReadBounds

namespace SystemLevel.Elf

variable {image : Image}

theorem add_succ_offset (start : UInt64) (j : ℕ) : start + 1 + UInt64.ofNat j = start + UInt64.ofNat (j + 1) := by
  rw [UInt64.ofNat_add, UInt64.add_assoc, UInt64.add_comm 1]
  rfl

namespace Image

theorem cString_ne_zero {fuel : ℕ} {start : UInt64} {j : ℕ} (hj : j < (image.cString fuel start).length) :
    image.bytes (start + UInt64.ofNat j) ≠ 0 := by
  induction fuel generalizing start j with
  | zero => cases hj
  | succ fuel ih =>
    rw [cString] at hj
    split_ifs at hj with hzero
    · cases hj
    · cases j with
      | zero =>
        change image.bytes (start + 0) ≠ 0
        rwa [UInt64.add_zero]
      | succ j =>
        rw [← add_succ_offset]
        exact ih (Nat.lt_of_succ_lt_succ hj)

theorem cString_terminated {fuel : ℕ} {start : UInt64} (hend : (image.cString fuel start).length < fuel) :
    image.bytes (start + UInt64.ofNat (image.cString fuel start).length) = 0 := by
  induction fuel generalizing start with
  | zero => cases hend
  | succ fuel ih =>
    rw [cString] at hend ⊢
    split_ifs at hend ⊢ with hzero
    · change image.bytes (start + 0) = 0
      rwa [UInt64.add_zero]
    · rw [List.length_cons, ← add_succ_offset]
      exact ih (Nat.lt_of_succ_lt_succ hend)

theorem length_cString_lt_iff {fuel bound : ℕ} (hbound : bound ≤ fuel) (start : UInt64) :
    (image.cString fuel start).length < bound ↔ ∃ k < bound, image.bytes (start + UInt64.ofNat k) = 0 := by
  constructor
  · intro hlength
    exact ⟨_, hlength, cString_terminated (hlength.trans_le hbound)⟩
  · rintro ⟨k, hk, hzero⟩
    by_contra hlong
    exact cString_ne_zero (hk.trans_le (not_lt.mp hlong)) hzero

end Image

namespace Elf64Inspector

variable {header : Elf64Ehdr}

def NameEnds (image : Image) (table : Elf64Shdr) (shName : UInt32) : Prop :=
  ∃ k, shName.toNat + k < table.shSize.toNat ∧
    (table.shOffset + shName.toUInt64).toNat + k < image.size.toNat ∧
    image.bytes (table.shOffset + shName.toUInt64 + UInt64.ofNat k) = 0

theorem readName_in_bounds_iff (image : Image) (table : Elf64Shdr) (shName : UInt32) :
    (∀ r ∈ (readName image table shName).names, r.InTable ∧ r.access.Within image) ↔ NameEnds image table shName := by
  have hsize := image.size_lt
  obtain ⟨start, hstart⟩ : ∃ start, start = table.shOffset + shName.toUInt64 := ⟨_, rfl⟩
  have hlength := @Image.length_cString_lt_iff image (2 ^ 64)
    (min (table.shSize.toNat - shName.toNat) (image.size.toNat - start.toNat)) (by omega) start
  rw [readName, List.forall_mem_singleton, NameEnds, ← hstart]
  change shName.toNat + ((image.cString (2 ^ 64) start).length + 1) ≤ table.shSize.toNat ∧
    start.toNat + ((image.cString (2 ^ 64) start).length + 1) ≤ image.size.toNat ↔ _
  constructor
  · rintro ⟨htable, hbuffer⟩
    obtain ⟨k, hk, hzero⟩ := hlength.mp (by omega)
    exact ⟨k, by omega, by omega, hzero⟩
  · rintro ⟨k, htable, hbuffer, hzero⟩
    have hshort := hlength.mpr ⟨k, by omega, hzero⟩
    omega

theorem names_programs : (parseProgramHeaders image header).names = [] := by
  unfold parseProgramHeaders
  split_ifs
  · apply List.eq_nil_iff_forall_not_mem.mpr
    intro r hr
    obtain ⟨i, -, hi⟩ := Reads.mem_names_forEach.mp hr
    cases hi
  · rfl

theorem names_findStrtab : (findStrtab image header).names = [] := by
  unfold findStrtab
  split_ifs <;> rfl

theorem mem_names_sectionName {strtab : Option Elf64Shdr} {shdr : Elf64Shdr} {r : NameRead} :
    r ∈ (sectionName image strtab shdr).names ↔
      ∃ table ∈ strtab, shdr.shName ≠ 0 ∧ r ∈ (readName image table shdr.shName).names := by
  cases strtab with
  | none => simp [sectionName]
  | some table =>
    by_cases hname : shdr.shName = 0
    · simp [sectionName, hname]
    · simp [sectionName, hname]

theorem mem_names_sections {r : NameRead} : r ∈ (parseSectionHeaders image header).names ↔
    HasSectionHeaders image header ∧ ∃ i < header.eShnum.toNat, ∃ table ∈ (findStrtab image header).value,
      (image.load Elf64Shdr.codec (sectionHeaderOffset header i)).shName ≠ 0 ∧
      r ∈ (readName image table (image.load Elf64Shdr.codec (sectionHeaderOffset header i)).shName).names := by
  unfold parseSectionHeaders
  split_ifs with hheaders
  · rw [Reads.names_bind, names_findStrtab, List.nil_append, Reads.mem_names_forEach]
    simp only [Reads.names_bind, Reads.names_pure, Image.names_memcpy, Image.value_memcpy, List.nil_append,
      List.append_nil, hheaders, true_and, mem_names_sectionName]
  · simp [hheaders]

theorem section_names_in_bounds_iff (image : Image) :
    (∀ r ∈ (parse image).names, r.InTable ∧ r.access.Within image) ↔
      ∀ header ∈ acceptedHeader image, HasSectionHeaders image header →
        ∀ table ∈ (findStrtab image header).value, ∀ i < header.eShnum.toNat,
          (image.load Elf64Shdr.codec (sectionHeaderOffset header i)).shName ≠ 0 →
          NameEnds image table (image.load Elf64Shdr.codec (sectionHeaderOffset header i)).shName := by
  obtain ⟨hnone, hnames, -⟩ | ⟨header, hsome, hnames, -, -⟩ := parse_cases image
  · rw [hnone, hnames]
    exact iff_of_true (List.forall_mem_nil _) fun header hheader => absurd hheader (Option.not_mem_none header)
  · rw [hnames, hsome, parseTables]
    simp only [Reads.names_bind, Reads.names_pure, List.append_nil, names_programs, List.nil_append]
    constructor
    · intro hreads header' hheader hsections table htable i hi hname
      obtain rfl := Option.some.inj hheader
      apply (readName_in_bounds_iff image table _).mp
      intro r hr
      exact hreads r (mem_names_sections.mpr ⟨hsections, i, hi, table, htable, hname, hr⟩)
    · intro hends r hr
      obtain ⟨hsections, i, hi, table, htable, hname, hr⟩ := mem_names_sections.mp hr
      exact (readName_in_bounds_iff image table _).mpr (hends header rfl hsections table htable i hi hname) r hr

def strayName : Image where
  data := 4096
  bytes offset := (Elf64Ehdr.codec.encode
    { eIdent := elf64Ident, eType := 2, eMachine := 62, eVersion := 1, eEntry := 0
      ePhoff := 0, eShoff := 64, eFlags := 0, eEhsize := 64, ePhentsize := 56, ePhnum := 0, eShentsize := 64
      eShnum := 1, eShstrndx := 0 } ++
    Elf64Shdr.codec.encode
      { shName := 1000, shType := 3, shFlags := 0, shAddr := 0, shOffset := 0, shSize := 1, shLink := 0, shInfo := 0
        shAddralign := 1, shEntsize := 0 }).getD offset.toNat 0
  size := 128
  size_lt := by decide

theorem strayName_read_outside :
    (∀ a ∈ (parse strayName).copies, a.Within strayName) ∧
      (parse strayName).names.map NameRead.access = [{ offset := 1000, size := 1 }] ∧
      ¬ Access.Within { offset := 1000, size := 1 } strayName := by
  decide +kernel

end Elf64Inspector

end SystemLevel.Elf
