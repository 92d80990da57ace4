import LdSo.System
import LdSo.Elf
import LdSo.Libc.String

open cmodel

namespace ldso

namespace elf_manipulation

open elf utility string

/-- The header is read into uninitialised memory, so a file or vdso too short
for it leaves fields undefined. -/
def get_elf_ehdr (sys : System) (filename : CString) : Outcome Ehdr := do
  if filename = .lit "linux-vdso.so.1" then
    let image ← Outcome.ofOption sys.vdso
    if 64 ≤ image.length then return Ehdr.decode image else .fault
  else
    let content ← xopen sys filename
    xmalloc sys 64
    let header := xread content 0 64
    if 64 ≤ header.length then return Ehdr.decode header else .fault

def get_program_header (sys : System) (elf : Ehdr) (name : CString) : Outcome (List Phdr) := do
  let size := elf.e_phnum.toNat * 56
  let content ← xopen sys name
  xmalloc sys size
  let pos ← xlseek elf.e_phoff
  return (records 56 (xread content pos size)).map Phdr.decode

def get_section_header (sys : System) (elf : Ehdr) (name : CString) : Outcome (List Shdr) := do
  let size := elf.e_shnum.toNat * 64
  let content ← xopen sys name
  xmalloc sys size
  let pos ← xlseek elf.e_shoff
  return (records 64 (xread content pos size)).map Shdr.decode

/-- The bytes of the file a section header stands for. -/
def section_bytes (sys : System) (name : CString) (shdr : Shdr) : Outcome (List Byte) := do
  let content ← xopen sys name
  xmalloc sys shdr.sh_size.toNat
  let pos ← xlseek shdr.sh_offset
  return xread content pos shdr.sh_size.toNat

def get_string_table (sys : System) (elf : Ehdr) (name : CString) : Outcome (List Byte) := do
  let shdr ← get_section_header sys elf name
  let tmp ← Outcome.ofOption shdr[elf.e_shstrndx.toNat]?
  section_bytes sys name tmp

/-- The loop over the section headers that `get_section` and
`get_section_size` share: the first of `n` whose name is `elt`. -/
def find_section (string_table : List Byte) (elt : CString) : Nat → List Shdr → Outcome (Option Shdr)
  | 0, _ => .ok none
  | _ + 1, [] => .fault
  | n + 1, shdr :: rest => do
    let order ← strcmp (string_table.drop shdr.sh_name.toNat) elt.bytes
    if order = 0 then return some shdr else find_section string_table elt n rest

/-- The result is NULL (`none`) or the section's bytes; the callers cast the
`elf_sym *` to the type they expect. -/
def get_section (sys : System) (elf : Ehdr) (name elt : CString) : Outcome (Option (List Byte)) := do
  let shdr ← get_section_header sys elf name
  let string_table ← get_string_table sys elf name
  match ← find_section string_table elt elf.e_shnum.toNat shdr with
  | none => return none
  | some shdr =>
    let buf ← section_bytes sys name shdr
    return some buf

/-- The number of 24-byte records in the section, as the `int` it is returned in. -/
def get_section_size (sys : System) (elf : Ehdr) (name sect : CString) : Outcome Int := do
  let shdr ← get_section_header sys elf name
  let table ← get_string_table sys elf name
  match ← find_section table sect elf.e_shnum.toNat shdr with
  | none => return 0
  | some shdr => return (BitVec.ofNat 32 (shdr.sh_size.toNat / 24)).toInt

/-- The name of `.dynsym` entry `index`. A negative `int` index steps over no
entry. -/
def name_from_dynsim_index (sys : System) (elf : Ehdr) (name : CString) (index : BitVec 32) : Outcome CString := do
  let symbolic ← Outcome.ofOption (← get_section sys elf name (.lit ".dynsym"))
  let sym ← Outcome.ofOption (syms symbolic)[index.toInt.toNat]?
  let dynstr ← Outcome.ofOption (← get_section sys elf name (.lit ".dynstr"))
  let res ← CString.read dynstr sym.st_name.toNat
  strdup sys res

end elf_manipulation

/-! What is read of a file is the same for every system that has the file. -/

namespace System.SameFile

open elf elf_manipulation

variable {sys' sys : System} {name : CString}

theorem get_elf_ehdr_eq (h : SameFile sys' sys name) : get_elf_ehdr sys' name = get_elf_ehdr sys name := by
  unfold get_elf_ehdr
  rw [if_neg h.not_vdso, if_neg h.not_vdso, h.xopen_eq, h.xmalloc_eq]

theorem get_section_header_eq (h : SameFile sys' sys name) (elf : Ehdr) :
    get_section_header sys' elf name = get_section_header sys elf name := by
  unfold get_section_header
  simp only [h.xopen_eq, h.xmalloc_eq]

theorem section_bytes_eq (h : SameFile sys' sys name) (shdr : Shdr) :
    section_bytes sys' name shdr = section_bytes sys name shdr := by
  unfold section_bytes
  rw [h.xopen_eq, h.xmalloc_eq]

theorem get_string_table_eq (h : SameFile sys' sys name) (elf : Ehdr) :
    get_string_table sys' elf name = get_string_table sys elf name := by
  unfold get_string_table
  simp only [h.get_section_header_eq, h.section_bytes_eq]

theorem get_section_eq (h : SameFile sys' sys name) (elf : Ehdr) (elt : CString) :
    get_section sys' elf name elt = get_section sys elf name elt := by
  unfold get_section
  simp only [h.get_section_header_eq, h.get_string_table_eq, h.section_bytes_eq]

theorem get_section_size_eq (h : SameFile sys' sys name) (elf : Ehdr) (sect : CString) :
    get_section_size sys' elf name sect = get_section_size sys elf name sect := by
  unfold get_section_size
  simp only [h.get_section_header_eq, h.get_string_table_eq]

end System.SameFile

end ldso
