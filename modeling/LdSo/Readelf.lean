import LdSo.System
import LdSo.Libc.String

open cmodel

namespace ldso.readelf

open unistd string

def ELFCLASS32 : BitVec 8 := 1
def ELFCLASS64 : BitVec 8 := 2
def ELFDATA2LSB : BitVec 8 := 1
def EV_CURRENT : BitVec 8 := 1

/-- What depends on the class of a file: the width of its offsets, the sizes of its
headers, and where they have their fields. -/
structure Layout where
  class_id : BitVec 8
  width : Nat
  ehdr_size : Nat
  phdr_size : Nat
  shdr_size : Nat
  e_phoff : Nat
  e_shoff : Nat
  e_ehsize : Nat
  e_phentsize : Nat
  e_phnum : Nat
  e_shentsize : Nat
  e_shnum : Nat
  e_shstrndx : Nat
  sh_offset : Nat
  sh_size : Nat

/-- `Elf32_Ehdr` and `Elf32_Shdr`. -/
def Layout.elf32 : Layout where
  class_id := ELFCLASS32
  width := 32
  ehdr_size := 52
  phdr_size := 32
  shdr_size := 40
  e_phoff := 28
  e_shoff := 32
  e_ehsize := 40
  e_phentsize := 42
  e_phnum := 44
  e_shentsize := 46
  e_shnum := 48
  e_shstrndx := 50
  sh_offset := 16
  sh_size := 20

/-- `Elf64_Ehdr` and `Elf64_Shdr`. -/
def Layout.elf64 : Layout where
  class_id := ELFCLASS64
  width := 64
  ehdr_size := 64
  phdr_size := 56
  shdr_size := 64
  e_phoff := 32
  e_shoff := 40
  e_ehsize := 52
  e_phentsize := 54
  e_phnum := 56
  e_shentsize := 58
  e_shnum := 60
  e_shstrndx := 62
  sh_offset := 24
  sh_size := 32

/-- The layout that `ElfW` stands for where the program is built. -/
def ElfW : Layout := .elf64

/-- The file as `read_elf_file` maps it, with zeros up to the end of its last page.
Pointers are offsets from `elf_header`. -/
def mapped (content : List Byte) : List Byte :=
  content ++ List.replicate (page_ceil content.length - content.length) 0#8

/-- A read through a pointer, which is defined inside of the mapping only. -/
def peek (n : Nat) (image : List Byte) (p : Nat) : Outcome (BitVec n) :=
  if p + n / 8 ≤ image.length then .ok (field n image p) else .fault

def get_program_table_offset : Nat := ElfW.e_phoff

def get_section_table_offset : Nat := ElfW.e_shoff

section Image

variable (image : List Byte)

def get_program_entry_size : Outcome (BitVec 16) := peek 16 image ElfW.e_phentsize

def get_program_table_size : Outcome (BitVec 16) := peek 16 image ElfW.e_phnum

def get_section_entry_size : Outcome (BitVec 16) := peek 16 image ElfW.e_shentsize

def get_section_table_size : Outcome (BitVec 16) := peek 16 image ElfW.e_shnum

def get_elf_class : Outcome (BitVec 8) := peek 8 image 4

def get_program_headers : Outcome Nat := do
  let tmp ← peek 64 image get_program_table_offset
  return tmp.toNat

def get_section_header : Outcome Nat := do
  let tmp ← peek 64 image get_section_table_offset
  return tmp.toNat

end Image

/-- The static variables of `string_table.c`; a pointer that is not set is NULL. -/
structure Statics where
  table : Option Nat
  dynamic : Option Nat
  dynsim : Option Nat
  strtab : Option Nat
  dynsim_size : BitVec 32
  deriving DecidableEq

def Statics.init : Statics := ⟨none, none, none, none, 0⟩

/-- The product is an `int`. -/
def get_string_table (image : List Byte) (st : Statics) : Outcome (Nat × Statics) := do
  let section_head ← get_section_header image
  let e_shstrndx ← peek 16 image ElfW.e_shstrndx
  let entry ← get_section_entry_size image
  if 2 ^ 31 ≤ e_shstrndx.toNat * entry.toNat then .fault
  else
    let head := section_head + e_shstrndx.toNat * entry.toNat
    let sh_offset ← peek 64 image (head + ElfW.sh_offset)
    return (sh_offset.toNat, { st with table := some sh_offset.toNat })

/-- The loop over the characters of `dyn`: a difference sets `eq` and is not the end of it. -/
def compare_chars : List Byte → List Byte → Nat → Outcome Nat
  | [], _, eq => .ok eq
  | _ :: _, [], _ => .fault
  | d :: dyn, c :: name, eq => compare_chars dyn name (if d ≠ c then 1 else eq)

/-- The loop over the section headers that the three searches have: `head` moves on
until `stop` accepts the name, and is left behind the table when it never does. -/
def search (image : List Byte) (table : Option Nat) (entry : Nat) (stop : List Byte → Outcome Bool) :
    Nat → Nat → Outcome Nat
  | 0, head => .ok head
  | n + 1, head => do
    let sh_name ← peek 32 image head
    let names ← Outcome.ofOption table
    if ← stop (image.drop (names + sh_name.toNat)) then return head
    else search image table entry stop n (head + entry)

/-- The header that a search ends at. -/
def find_header (image : List Byte) (table : Option Nat) (stop : List Byte → Outcome Bool) : Outcome Nat := do
  let head ← get_section_header image
  let size ← get_section_table_size image
  let entry ← get_section_entry_size image
  search image table entry.toNat stop size.toNat head

/-- `set_str_tab` compares seven characters, without the terminator. -/
def is_dynstr (name : List Byte) : Outcome Bool := do
  let eq ← compare_chars (CString.lit ".dynstr").chars name 0
  return eq = 0

/-- `get_dynamic_section` compares nine characters, the terminator among them. -/
def is_dynamic (name : List Byte) : Outcome Bool := do
  let eq ← compare_chars (CString.lit ".dynamic").bytes name 0
  return eq = 0

def is_dynsym (name : List Byte) : Outcome Bool := do
  let order ← strcmp name (CString.lit ".dynsym").bytes
  return order = 0

def set_str_tab (image : List Byte) (st : Statics) : Outcome Statics := do
  let head ← find_header image st.table is_dynstr
  let sh_offset ← peek 64 image (head + ElfW.sh_offset)
  return { st with strtab := some sh_offset.toNat }

def get_dynamic_section (image : List Byte) (st : Statics) : Outcome (Nat × Statics) := do
  let (_, st) ← get_string_table image st
  let st ← set_str_tab image st
  let head ← find_header image st.table is_dynamic
  let sh_offset ← peek 64 image (head + ElfW.sh_offset)
  return (sh_offset.toNat, { st with dynamic := some sh_offset.toNat })

def get_dynsim_section (image : List Byte) (st : Statics) : Outcome (Nat × Statics) := do
  match st.dynsim with
  | some dynsim => return (dynsim, st)
  | none =>
    let (_, st) ← get_string_table image st
    let head ← find_header image st.table is_dynsym
    let sh_size ← peek 64 image (head + ElfW.sh_size)
    let sh_offset ← peek 64 image (head + ElfW.sh_offset)
    return (sh_offset.toNat, { st with dynsim := some sh_offset.toNat, dynsim_size := sh_size.setWidth 32 })

/-! What the file has is also in the mapping. -/

section Mapped

variable {content : List Byte} {n p : Nat}

theorem mapped_length_le : content.length ≤ (mapped content).length := by
  rw [mapped, List.length_append]
  omega

theorem peek_mapped (h : p + n / 8 ≤ content.length) : peek n (mapped content) p = .ok (field n content p) := by
  have hroom : content.length ≤ (mapped content).length := mapped_length_le
  rw [peek, if_pos (by omega), mapped, field_append_left h]

end Mapped

end ldso.readelf
