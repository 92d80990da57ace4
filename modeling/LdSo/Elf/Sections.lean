import LdSo.Elf
import LdSo.Lib.CString

open cmodel

namespace ldso.elf

/-- Section counts and indices from here on do not fit the ELF header: the first
section header then holds them. -/
def SHN_LORESERVE : BitVec 16 := 0xff00

def SHN_XINDEX : BitVec 16 := 0xffff

/-- Entry `i` of a file's section header table. -/
def section_at (content : List Byte) (i : Nat) : Shdr :=
  Shdr.decode ((content.drop ((Ehdr.decode content).e_shoff.toNat + 64 * i)).take 64)

/-- The number of entries of the table. -/
def section_count (content : List Byte) : Nat :=
  let elf := Ehdr.decode content
  if elf.e_shnum ≠ 0 then elf.e_shnum.toNat
  else if elf.e_shoff = 0 then 0
  else (section_at content 0).sh_size.toNat

def sections (content : List Byte) : List Shdr := (List.range (section_count content)).map (section_at content)

/-- The index of the section that holds the names, 0 when sections have no names.
It is in the `sh_link` of the first entry when the ELF header has no room for it. -/
def section_names_index (content : List Byte) : Nat :=
  let elf := Ehdr.decode content
  if elf.e_shstrndx ≠ SHN_XINDEX then elf.e_shstrndx.toNat
  else (field 32 (content.drop elf.e_shoff.toNat) 40).toNat

/-- The bytes of the file that belong to a section. -/
def section_data (content : List Byte) (shdr : Shdr) : List Byte :=
  (content.drop shdr.sh_offset.toNat).take shdr.sh_size.toNat

def section_name (content : List Byte) (shdr : Shdr) : Option CString :=
  let names := section_names_index content
  if names = 0 then none
  else
    match CString.read (section_data content (section_at content names)) shdr.sh_name.toNat with
    | .ok name => some name
    | _ => none

/-- The first section whose name is exactly `elt`. -/
def named_section (content : List Byte) (elt : CString) : Option Shdr :=
  (sections content).find? fun shdr => section_name content shdr = some elt

/-- A section's name is the string that the table of names has for it. -/
theorem section_name_eq_some_iff {content : List Byte} {shdr : Shdr} {elt : CString}
    (hindex : section_names_index content ≠ 0) :
    section_name content shdr = some elt ↔
      CString.read (section_data content (section_at content (section_names_index content))) shdr.sh_name.toNat = .ok elt := by
  unfold section_name
  rw [if_neg hindex]
  split
  · next name hread => rw [hread, Option.some.injEq, Outcome.ok.injEq]
  · next hread =>
    constructor
    · intro h
      cases h
    · intro h
      exact (hread elt h).elim

/-- Only a file with a table of names has sections with names. -/
theorem names_index_ne_zero {content : List Byte} {shdr : Shdr} {name : CString}
    (hname : section_name content shdr = some name) : section_names_index content ≠ 0 := by
  intro hzero
  rw [section_name, if_pos hzero] at hname
  cases hname

/-- The section header table of a well-formed ELF64 file. A section that occupies no
space in the file may end behind it, but none begins there. -/
structure WellFormed (content : List Byte) : Prop where
  header : 64 ≤ content.length
  shentsize : section_count content ≠ 0 → field 16 content 58 = 64#16
  shnum : (Ehdr.decode content).e_shnum < SHN_LORESERVE
  table : section_count content ≠ 0 →
    (Ehdr.decode content).e_shoff.toNat + 64 * section_count content ≤ content.length
  null : (Ehdr.decode content).e_shnum ≠ 0 → (section_at content 0).sh_size = 0
  shstrndx : (Ehdr.decode content).e_shnum ≠ 0 → (Ehdr.decode content).e_shstrndx < (Ehdr.decode content).e_shnum
  placed : ∀ shdr ∈ sections content, shdr.sh_offset.toNat ≤ content.length
  named : section_names_index content ≠ 0 → ∀ shdr ∈ sections content, ∃ name, section_name content shdr = some name

namespace WellFormed

variable {content : List Byte}

/-- The table of a file that counts its sections in the ELF header. -/
theorem sections_eq (hcount : (Ehdr.decode content).e_shnum ≠ 0) :
    section_count content = (Ehdr.decode content).e_shnum.toNat := by
  unfold section_count
  rw [if_pos hcount]

theorem names_index_eq (h : WellFormed content) (hcount : (Ehdr.decode content).e_shnum ≠ 0) :
    section_names_index content = (Ehdr.decode content).e_shstrndx.toNat := by
  have hindex := h.shstrndx hcount
  have hnum := h.shnum
  unfold section_names_index
  rw [if_pos]
  intro hescape
  rw [hescape] at hindex
  unfold SHN_LORESERVE at hnum
  unfold SHN_XINDEX at hindex
  bv_omega

theorem section_mem {i : Nat} (hi : i < section_count content) : section_at content i ∈ sections content :=
  List.mem_map_of_mem (List.mem_range.mpr hi)

theorem sections_length (hcount : (Ehdr.decode content).e_shnum ≠ 0) :
    (sections content).length = (Ehdr.decode content).e_shnum.toNat := by
  rw [sections, List.length_map, List.length_range, sections_eq hcount]

theorem count_ne_zero (hcount : (Ehdr.decode content).e_shnum ≠ 0) : section_count content ≠ 0 := by
  rw [sections_eq hcount]
  exact fun hzero => hcount (BitVec.eq_of_toNat_eq hzero)

theorem names_index_lt (h : WellFormed content) (hcount : (Ehdr.decode content).e_shnum ≠ 0) :
    section_names_index content < section_count content := by
  rw [h.names_index_eq hcount, sections_eq hcount]
  exact BitVec.lt_def.mp (h.shstrndx hcount)

theorem table_le (h : WellFormed content) (hcount : (Ehdr.decode content).e_shnum ≠ 0) :
    (Ehdr.decode content).e_shoff.toNat + (Ehdr.decode content).e_shnum.toNat * 64 ≤ content.length := by
  have htable := h.table (count_ne_zero hcount)
  rw [sections_eq hcount] at htable
  omega

/-- The table as one read of it delivers it. -/
theorem sections_read (h : WellFormed content) (hcount : (Ehdr.decode content).e_shnum ≠ 0) :
    (records 64 ((content.drop (Ehdr.decode content).e_shoff.toNat).take ((Ehdr.decode content).e_shnum.toNat * 64))).map
      Shdr.decode = sections content := by
  rw [records_slice (by decide) (h.table_le hcount), List.map_map, sections, sections_eq hcount]
  rfl

end WellFormed

end ldso.elf
