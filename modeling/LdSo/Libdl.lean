import LdSo.Loader
import LdSo.Dependency
import LdSo.Relocations

open cmodel

namespace ldso.libdl

open elf elf_manipulation dependency loader relocations utility

def RTLD_LAZY : BitVec 32 := 1

def RTLD_NOW : BitVec 32 := 2

def RTLD_NOLOAD : BitVec 32 := 4

def RTLD_GLOBAL : BitVec 32 := 0x100

/-- What the calls change: the link map's nodes and the memory. -/
structure State where
  heap : Heap
  mem : Memory 64

/-- The result is the handle, NULL included. The new node's `l_next` is NULL and
its `l_prev` is the list's last node, on the list or not. `malloc` is not
checked, and with neither RTLD_LAZY nor RTLD_NOW the process ends. -/
def _dlopen (sys : System) (full_map : Option Nat) (s : State) (filename : Option CString) (flags : BitVec 32) :
    Outcome (Option Nat × State) :=
  match filename with
  | none => .ok (full_map, s)
  | some filename => do
    let first ← Outcome.ofOption full_map
    let map ← Outcome.ofOption s.heap[first]?
    let filename ← get_lib_absolute_path sys filename map.l_name
    let elf ← get_elf_ehdr sys filename
    let phdr ← get_program_header sys elf filename
    let map ← follow LinkMap.l_next s.heap s.heap.length first
    if sys.malloc 40 = false then .fault
    else do
      let l_name ← strdup sys filename
      let prev ← Outcome.ofOption (s.heap[map]?.bind LinkMap.l_prev)
      let prev ← Outcome.ofOption s.heap[prev]?
      let new := s.heap.length
      let node : LinkMap := ⟨prev.l_addr + 6 * PAGE_SIZE, l_name, none, none, some map⟩
      if flags &&& RTLD_NOLOAD ≠ 0 then return (some new, ⟨s.heap ++ [node], s.mem⟩)
      else do
        let (_, loaded) ← load_program sys s.mem phdr elf node 0
        let heap := s.heap ++ [{ node with l_ld := loaded.l_ld }]
        let mem ←
          (if flags &&& RTLD_LAZY ≠ 0 then resolve_relocations sys heap loaded.mem new (some map) true
          else if flags &&& RTLD_NOW ≠ 0 then resolve_relocations sys heap loaded.mem new (some map) true
          else .exit 1)
        return (some new, ⟨if flags &&& RTLD_GLOBAL ≠ 0 then heap.link map new else heap, mem⟩)

/-- Only the object's GNU table is searched. -/
def _dlsym (sys : System) (s : State) (handle : Nat) (symbol : CString) : Outcome elf_addr := do
  let map ← Outcome.ofOption s.heap[handle]?
  symbol_resolution.gnu_hash_lookup sys s.mem map symbol

/-- The headers from the first PT_LOAD header on, or none when a PT_NULL header
comes first. -/
def skip_to_load : List Phdr → Outcome (Option (List Phdr))
  | [] => .fault
  | phdr :: rest =>
    if phdr.p_type = PT_LOAD then .ok (some (phdr :: rest))
    else if phdr.p_type = PT_NULL then .ok none
    else skip_to_load rest

/-- The range that is unmapped is the one the file asks for, without `l_addr`. -/
def _dlclose (sys : System) (s : State) (handle : Nat) : Outcome (Int × State) := do
  let map ← Outcome.ofOption s.heap[handle]?
  let elf ← get_elf_ehdr sys map.l_name
  let phdr ← get_program_header sys elf map.l_name
  match ← skip_to_load phdr with
  | none => return (1, s)
  | some phdr => do
    let first ← Outcome.ofOption phdr.head?
    let prog ← Outcome.ofOption (phdr.dropWhile fun p => p.p_type = PT_LOAD).head?
    let base := first.p_vaddr
    let (m, mem) := unistd.munmap s.mem base (prog.p_vaddr + prog.p_filesz - base).toNat
    if m = -1 then return (1, s) else return (0, ⟨s.heap.unlink handle, mem⟩)

/-- `Dl_info`. -/
structure Dl_info where
  dli_fname : Option CString
  dli_fbase : elf_addr
  dli_sname : Option CString
  dli_saddr : elf_addr
  deriving DecidableEq

/-- The search of `_dladdr` for the object. `l_ld + PAGE_SIZE` counts entries of 16
bytes, and an `l_ld` that was never set is uninitialised memory. -/
def dladdr_object (heap : Heap) (addr : elf_addr) : Nat → Option Nat → Outcome (Option LinkMap)
  | _, none => .ok none
  | 0, some _ => .diverge
  | fuel + 1, some p => do
    let map ← Outcome.ofOption heap[p]?
    if map.l_addr ≤ addr then
      let l_ld ← Outcome.ofOption map.l_ld
      if addr ≤ l_ld + 16#64 * PAGE_SIZE then return some map
      else dladdr_object heap addr fuel map.l_next
    else dladdr_object heap addr fuel map.l_next

/-- The search for the symbol among the `size` entries from `symtab` on; the result
has the number of entries that `symtab` was moved over. -/
def dladdr_symbol (sys : System) (dynstr : List Byte) (l_addr addr : elf_addr) : Nat → List Sym → Dl_info →
    Outcome (Dl_info × Nat)
  | 0, _, info => .ok (info, 0)
  | _ + 1, [], _ => .fault
  | size + 1, symtab :: rest, info =>
    let down := symtab.st_value + l_addr
    let up := symtab.st_value + l_addr + symtab.st_size
    if down ≤ addr ∧ addr ≤ up then do
      let dli_fname ← strdup sys (← CString.read dynstr symtab.st_name.toNat)
      return ({ info with dli_fbase := symtab.st_value, dli_fname := some dli_fname }, 0)
    else do
      let (info, moved) ← dladdr_symbol sys dynstr l_addr addr size rest info
      return (info, moved + 1)

/-- The object's path and address go into the fields of the symbol, the symbol's
name and value into those of the object. `symtab` is freed where the search left
it; `free` says what the allocator does with a pointer to the entry of that index. -/
def _dladdr (sys : System) (free : Nat → Outcome Unit) (heap : Heap) (full_map : Option Nat) (addr : elf_addr)
    (info : Dl_info) : Outcome (Int × Dl_info) := do
  match ← dladdr_object heap addr heap.length full_map with
  | none => return (0, { info with dli_sname := none, dli_saddr := 0 })
  | some map => do
    let dli_sname ← strdup sys map.l_name
    let info := { info with dli_sname := some dli_sname, dli_saddr := map.l_addr }
    let elf ← get_elf_ehdr sys map.l_name
    match ← get_section sys elf map.l_name (.lit ".dynsym") with
    | none => return (0, info)
    | some symtab =>
      match ← get_section sys elf map.l_name (.lit ".dynstr") with
      | none => return (0, info)
      | some dynstr => do
        let size ← get_section_size sys elf map.l_name (.lit ".dynsym")
        let (info, moved) ← dladdr_symbol sys dynstr map.l_addr addr size.toNat (syms symtab) info
        free moved
        return (1, info)

end ldso.libdl
