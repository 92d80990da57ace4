import LdSo.Readelf
import LdSo.Elf.Image

open cmodel

namespace ldso.readelf

/-- The classes of ELF files. -/
inductive Class where
  | elf32
  | elf64
  deriving DecidableEq

def Class.layout : Class → Layout
  | elf32 => .elf32
  | elf64 => .elf64

/-- The header of a well-formed little-endian file of a class. An offset that is not
zero stands for a table in the file. -/
structure OfClass (cls : Class) (content : List Byte) : Prop where
  magic : field 32 content 0 = 0x464c457f#32
  ei_class : field 8 content 4 = cls.layout.class_id
  ei_data : field 8 content 5 = ELFDATA2LSB
  ei_version : field 8 content 6 = EV_CURRENT
  header : cls.layout.ehdr_size ≤ content.length
  ehsize : (field 16 content cls.layout.e_ehsize).toNat = cls.layout.ehdr_size
  phentsize : field cls.layout.width content cls.layout.e_phoff ≠ 0 →
    (field 16 content cls.layout.e_phentsize).toNat = cls.layout.phdr_size
  shentsize : field cls.layout.width content cls.layout.e_shoff ≠ 0 →
    (field 16 content cls.layout.e_shentsize).toNat = cls.layout.shdr_size
  phdrs : field cls.layout.width content cls.layout.e_phoff ≠ 0 →
    (field cls.layout.width content cls.layout.e_phoff).toNat +
      (field 16 content cls.layout.e_phnum).toNat * cls.layout.phdr_size ≤ content.length
  shdrs : field cls.layout.width content cls.layout.e_shoff ≠ 0 →
    (field cls.layout.width content cls.layout.e_shoff).toNat +
      (field 16 content cls.layout.e_shnum).toNat * cls.layout.shdr_size ≤ content.length

/-- The accessors return what the layout of the class has in the header; the offsets
are read in the class's width, as `print_entry_offset` does. -/
structure Agrees (cls : Class) (content : List Byte) : Prop where
  program_table_offset : peek cls.layout.width (mapped content) get_program_table_offset =
    .ok (field cls.layout.width content cls.layout.e_phoff)
  section_table_offset : peek cls.layout.width (mapped content) get_section_table_offset =
    .ok (field cls.layout.width content cls.layout.e_shoff)
  program_entry_size : get_program_entry_size (mapped content) = .ok (field 16 content cls.layout.e_phentsize)
  program_table_size : get_program_table_size (mapped content) = .ok (field 16 content cls.layout.e_phnum)
  section_entry_size : get_section_entry_size (mapped content) = .ok (field 16 content cls.layout.e_shentsize)
  section_table_size : get_section_table_size (mapped content) = .ok (field 16 content cls.layout.e_shnum)
  section_header : get_section_header (mapped content) = .ok (field cls.layout.width content cls.layout.e_shoff).toNat
  program_headers : get_program_headers (mapped content) = .ok (field cls.layout.width content cls.layout.e_phoff).toNat

variable {cls : Class} {content : List Byte}

theorem OfClass.elf_class (h : OfClass cls content) : get_elf_class (mapped content) = .ok cls.layout.class_id := by
  have hroom : 52 ≤ content.length := by
    have hheader := h.header
    cases cls <;> exact le_trans (by decide) hheader
  rw [get_elf_class, peek_mapped (by omega), h.ei_class]

theorem Agrees.of_elf64 (h : OfClass .elf64 content) : Agrees .elf64 content := by
  have hroom : 64 ≤ content.length := h.header
  constructor
  case section_header =>
    rw [get_section_header, get_section_table_offset, peek_mapped (le_trans (by decide) hroom)]
    rfl
  case program_headers =>
    rw [get_program_headers, get_program_table_offset, peek_mapped (le_trans (by decide) hroom)]
    rfl
  all_goals exact peek_mapped (le_trans (by decide) hroom)

/-- The low half of what is read for `e_shoff` is `e_ehsize`, so a table is located;
the highest bytes are `e_shentsize`, so it is not located in the file. -/
theorem Agrees.not_elf32 (h : OfClass .elf32 content) : ¬ Agrees .elf32 content := by
  intro hagrees
  have hroom : 52 ≤ content.length := h.header
  have hoffset : field 32 content 40 = field 32 content 32 := by
    have hread := hagrees.section_table_offset
    rwa [get_section_table_offset, peek_mapped (le_trans (by decide) hroom), Outcome.ok.injEq] at hread
  have hheader : (field 64 content 40).toNat = (field 32 content 32).toNat := by
    have hread := hagrees.section_header
    rwa [get_section_header, get_section_table_offset, peek_mapped (le_trans (by decide) hroom), Outcome.ok_bind,
      Outcome.pure_eq, Outcome.ok.injEq] at hread
  have hehsize : (field 16 content 40).toNat = 52 := h.ehsize
  have hlow : (field 32 content 40).toNat = (field 16 content 40).toNat + 256 ^ 2 * (field 16 content 42).toNat :=
    field_split 2 2 (by omega)
  have hexists : field 32 content 32 ≠ 0 := by
    intro hzero
    have hempty : (field 32 content 32).toNat = 0 := by
      rw [hzero]
      rfl
    rw [hoffset] at hlow
    omega
  have hshentsize : (field 16 content 46).toNat = 40 := h.shentsize hexists
  have hhigh : (field 64 content 40).toNat = (field 48 content 40).toNat + 256 ^ 6 * (field 16 content 46).toNat :=
    field_split 6 2 (by omega)
  have hsmall := (field 32 content 32).isLt
  omega

/-- The accessors read every file with the 64-bit layout: what they return is right
for the files of that class, and for no ELF32 file. -/
theorem accessors_agree_iff (h : OfClass cls content) :
    Agrees cls content ↔ get_elf_class (mapped content) = .ok ELFCLASS64 := by
  rw [h.elf_class]
  cases cls with
  | elf32 => exact iff_of_false (Agrees.not_elf32 h) (by decide)
  | elf64 => exact iff_of_true (Agrees.of_elf64 h) rfl

def section_names : List Byte := (CString.lit ".text").bytes ++ (CString.lit ".shstrtab").bytes

/-- A 64-bit file with two program headers and the headers of three sections, the
last one for the names. -/
def two_segments_elf64 : List Byte :=
  leBytes 4 0x464c457f ++ [2#8, 1#8, 1#8] ++ leBytes 25 0 ++ leBytes 8 64 ++ leBytes 8 193 ++ leBytes 4 0 ++ leBytes 2 64 ++
    leBytes 2 56 ++ leBytes 2 2 ++ leBytes 2 64 ++ leBytes 2 3 ++ leBytes 2 2 ++
    [elf.Phdr.mk elf.PT_LOAD 5 0 0x400000 177 177, elf.Phdr.mk elf.PT_LOAD 6 177 0x600000 0 16].flatMap elf.Phdr.encode ++
    [0xc3#8] ++ section_names ++ leBytes 64 0 ++
    elf.section_headers 176 0 [⟨.lit ".text", 0x4000b0, [0xc3#8]⟩, ⟨.lit ".shstrtab", 0, section_names⟩]

theorem two_segments_elf64_ofClass : OfClass .elf64 two_segments_elf64 := by
  constructor <;> decide +kernel

/-- Both tables are found, with their counts and the sizes of their entries. -/
theorem accessors_agree_iff_tables : Agrees .elf64 two_segments_elf64 ∧
    field 64 two_segments_elf64 Layout.elf64.e_phoff = 64 ∧ field 16 two_segments_elf64 Layout.elf64.e_phnum = 2 ∧
      field 64 two_segments_elf64 Layout.elf64.e_shoff = 193 ∧ field 16 two_segments_elf64 Layout.elf64.e_shnum = 3 :=
  ⟨(accessors_agree_iff two_segments_elf64_ofClass).mpr two_segments_elf64_ofClass.elf_class, by decide +kernel⟩

/-- A 32-bit file with one program header behind the ELF header. -/
def one_segment_elf32 : List Byte :=
  leBytes 4 0x464c457f ++ [1#8, 1#8, 1#8] ++ leBytes 21 0 ++ leBytes 4 52 ++ leBytes 8 0 ++ leBytes 2 52 ++ leBytes 2 32 ++
    leBytes 2 1 ++ leBytes 6 0 ++ leBytes 32 0

/-- The program headers are at 52, but the accessor points at the 0 of `e_shoff`. -/
theorem accessors_elf32 :
    OfClass .elf32 one_segment_elf32 ∧ field 32 one_segment_elf32 Layout.elf32.e_phoff = 52 ∧
      peek 32 (mapped one_segment_elf32) get_program_table_offset = .ok 0 ∧ ¬ Agrees .elf32 one_segment_elf32 := by
  have hread : peek 32 (mapped one_segment_elf32) get_program_table_offset = .ok 0 := by
    rw [peek_mapped (by decide)]
    decide
  refine ⟨by constructor <;> decide, by decide, hread, ?_⟩
  intro hagrees
  have hphoff : field 32 one_segment_elf32 28 = 0 := Outcome.ok.inj (hagrees.program_table_offset.symm.trans hread)
  exact absurd hphoff (by decide)

end ldso.readelf
