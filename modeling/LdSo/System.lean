import LdSo.Lib.CString
import LdSo.Lib.Memory

open cmodel

namespace ldso

/-- An address in the process. -/
abbrev elf_addr := BitVec 64

/-- What the loader is given from outside: the files `open` finds, the
environment strings, the vdso's bytes (when the auxiliary vector has
AT_SYSINFO_EHDR), the address of the trampoline `__reloc`, where each
`struct link_map` lies, which allocations and mappings the system grants, and
what a zero-byte allocation happens to contain. -/
structure System where
  file : CString → Option (List Byte)
  envp : List CString
  vdso : Option (List Byte)
  reloc : elf_addr
  node : Nat → elf_addr
  malloc : Nat → Bool
  mmap : elf_addr → Nat → Bool
  stale : List Byte

/-- A system that holds these files and refuses nothing. -/
def System.of_files (files : List (CString × List Byte)) : System where
  file name := (files.find? fun f => f.1 = name).map Prod.snd
  envp := []
  vdso := none
  reloc := 0
  node _ := 0
  malloc _ := true
  mmap _ _ := true
  stale := []

@[simp] theorem System.of_files_file_head {name : CString} {content : List Byte} {files : List (CString × List Byte)} :
    (System.of_files ((name, content) :: files)).file name = some content := by
  simp [System.of_files]

theorem System.of_files_file_tail {first name : CString} {content : List Byte} {files : List (CString × List Byte)}
    (h : first ≠ name) :
    (System.of_files ((first, content) :: files)).file name = (System.of_files files).file name := by
  simp [System.of_files, h]

/-- The two systems have the same file under a name and grant the same allocations. -/
structure System.SameFile (sys' sys : System) (name : CString) : Prop where
  not_vdso : name ≠ .lit "linux-vdso.so.1"
  file : sys'.file name = sys.file name
  malloc : sys'.malloc = sys.malloc

theorem System.of_files_sameFile {files' files : List (CString × List Byte)} {name : CString}
    (hvdso : name ≠ .lit "linux-vdso.so.1")
    (hfile : (System.of_files files').file name = (System.of_files files).file name) :
    System.SameFile (.of_files files') (.of_files files) name :=
  ⟨hvdso, hfile, rfl⟩

namespace unistd

/-- Lengths that the kernel rounds up to whole pages. -/
def page_ceil (n : Nat) : Nat := (n + 4095) / 4096 * 4096

/-- `mmap` of anonymous memory at a fixed, page-aligned address; `none` is MAP_FAILED. -/
def mmap (sys : System) (m : Memory 64) (addr : elf_addr) (len : Nat) (prot : Prot) : Option (Memory 64) :=
  if len = 0 ∨ sys.mmap addr len = false then none else some (m.mmap ⟨addr, page_ceil len⟩ prot)

/-- `mprotect` at a page-aligned address; it fails when a page is not mapped. -/
def mprotect (m : Memory 64) (addr : elf_addr) (len : Nat) (prot : Prot) : Option (Memory 64) :=
  if ∀ i < page_ceil len / 4096, (m (addr + BitVec.ofNat 64 (4096 * i))).isSome then
    some (m.mprotect ⟨addr, page_ceil len⟩ prot)
  else none

/-- `munmap`; the wrapper returns the kernel's negative error number as it is. -/
def munmap (m : Memory 64) (addr : elf_addr) (len : Nat) : Int × Memory 64 :=
  if addr.toNat % 4096 ≠ 0 ∨ len = 0 then (-22, m) else (0, m.munmap ⟨addr, page_ceil len⟩)

end unistd

namespace utility

/-- `open(filename, O_RDONLY)`; the descriptor is the file's content. -/
def xopen (sys : System) (filename : CString) : Outcome (List Byte) :=
  match sys.file filename with
  | some content => .ok content
  | none => .exit 1

/-- The result of `lseek` passes through an `int`: offsets whose low word is
negative end the process like those `lseek` itself refuses. -/
def xlseek (offset : BitVec 64) : Outcome Nat :=
  if offset.toInt < 0 ∨ (offset.setWidth 32).toInt < 0 then .exit 1 else .ok offset.toNat

/-- The bytes one `read` delivers into a private buffer; the system transfers
at most `0x7ffff000` of them. -/
def xread (content : List Byte) (pos count : Nat) : List Byte :=
  (content.drop pos).take (min count 0x7ffff000)

/-- A `read` of these bytes into the process's memory. The kernel transfers
them up to the first byte that cannot be written; when that is the first of
all, the read fails. -/
def xread_memory (m : Memory 64) (addr : elf_addr) (bytes : List Byte) : Outcome (Nat × Memory 64) :=
  let r := ((List.range bytes.length).takeWhile fun i => m.Writable (addr + BitVec.ofNat 64 i)).length
  if bytes ≠ [] ∧ r = 0 then .exit 1 else .ok (r, m.put addr (bytes.take r))

def xmalloc (sys : System) (size : Nat) : Outcome Unit :=
  if sys.malloc size then .ok () else .exit 1

theorem xopen_of_file {sys : System} {filename : CString} {content : List Byte} (h : sys.file filename = some content) :
    xopen sys filename = .ok content := by
  rw [xopen, h]

theorem xmalloc_eq_ok_iff {sys : System} {size : Nat} : xmalloc sys size = .ok () ↔ sys.malloc size = true := by
  unfold xmalloc
  split <;> simp_all

/-- `calloc(len, 2)` leaves room for the terminator unless `len` is zero; then
the copy is whatever the allocation holds. -/
def strdup (sys : System) (s : CString) : Outcome CString :=
  if s.chars = [] then CString.read sys.stale 0 else .ok s

@[simp] theorem strdup_of_ne_nil {sys : System} {s : CString} (h : s.chars ≠ []) :
    strdup sys s = .ok s := if_neg h

end utility

namespace System.SameFile

open utility

variable {sys' sys : System} {name : CString}

theorem xopen_eq (h : SameFile sys' sys name) : xopen sys' name = xopen sys name := by
  unfold xopen
  rw [h.file]

theorem xmalloc_eq (h : SameFile sys' sys name) (size : Nat) : xmalloc sys' size = xmalloc sys size := by
  unfold xmalloc
  rw [h.malloc]

end System.SameFile

end ldso
