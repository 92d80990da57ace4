import LdSo.Dependency
import LdSo.Loader
import LdSo.Relocations

open cmodel

namespace ldso

open elf utility display_auxv dependency loader relocations

/-- What the kernel and the linker leave for `ldso_main` besides the environment
and the memory: the auxiliary vector from `auxv_addr` on, the strings and the ELF
image its values point at, the dynamic section of ld.so, and where the allocator
will put `r_debug`. -/
structure Start where
  auxv : List Auxv
  auxv_addr : elf_addr
  string : elf_addr → Outcome CString
  image : elf_addr → List Byte
  dynamic : List Dyn
  r_debug : elf_addr

/-- The entry is returned with its address; NULL is `none`. -/
def get_auxv_entry (type : BitVec 32) : elf_addr → List Auxv → Outcome (Option (elf_addr × Auxv))
  | _, [] => .fault
  | addr, auxv :: rest =>
    if auxv.a_type = AT_NULL.setWidth 64 then .ok none
    else if auxv.a_type = type.setWidth 64 then .ok (some (addr, auxv))
    else get_auxv_entry type (addr + 16#64) rest

/-- `get_auxv_entry(auxv, type)->a_un.a_val`. -/
def get_auxv_value (start : Start) (type : BitVec 32) : Outcome (BitVec 64) := do
  let (_, auxv) ← Outcome.ofOption (← get_auxv_entry type start.auxv_addr start.auxv)
  return auxv.a_val

/-- The loop `while (++dynamic->d_tag != DT_NULL)` over one tag; it is the tag
that is counted up. A step past the largest `long` is undefined. -/
def find_debug : Nat → BitVec 64 → Outcome (BitVec 64)
  | 0, _ => .diverge
  | fuel + 1, d_tag =>
    if d_tag = BitVec.intMax 64 then .fault
    else
      let d_tag := d_tag + 1#64
      if d_tag = DT_NULL ∨ d_tag = DT_DEBUG then .ok d_tag else find_debug fuel d_tag

/-- The search for DT_DEBUG and the store of `r_debug` in what it found. -/
def set_debug (r_debug : elf_addr) : List Dyn → Outcome (List Dyn)
  | [] => .fault
  | dynamic :: rest => do
    let d_tag ← find_debug (2 ^ 64) dynamic.d_tag
    return ⟨d_tag, if d_tag ≠ DT_NULL then r_debug else dynamic.d_val⟩ :: rest

/-- The loop over the link map. The result lists the nodes that were passed to
`resolve_relocations`; a list with more nodes than the heap is cyclic. -/
def relocate_loop (sys : System) (heap : Heap) (map : Option Nat) (lazy : Bool) :
    Nat → Nat → Memory 64 → Outcome (List Nat × Memory 64)
  | 0, _, _ => .diverge
  | fuel + 1, next, m => do
    let node ← Outcome.ofOption heap[next]?
    match node.l_next with
    | none => return ([], m)
    | some l_next =>
      let m ← resolve_relocations sys heap m next map lazy
      let (relocated, m) ← relocate_loop sys heap map lazy fuel l_next m
      return (next :: relocated, m)

/-- What is printed is left out. -/
def handle_options (sys : System) : Outcome Unit := do
  let _ ← get_env_value sys.envp (.lit "LD_SHOW_AUXV")
  if (← get_env_value sys.envp (.lit "LD_TRACE_LOADED_OBJECTS")).isSome then .exit 0 else return ()

/-- The state in which control is given to the program at `entry`, with the nodes
that were relocated before. -/
structure Started where
  table : List CString
  heap : Heap
  map : Option Nat
  relocated : List Nat
  mem : Memory 64
  dynamic : List Dyn
  entry : elf_addr

/-- `rounds` and `fuel` bound the loops of `build_dependency_table`. The vdso is
passed on as the address of its auxiliary vector entry. -/
def ldso_main (sys : System) (start : Start) (m : Memory 64) (rounds fuel : Nat) : Outcome Started := do
  let filename ← start.string (← get_auxv_value start AT_EXECFN)
  let base ← get_auxv_value start AT_BASE
  if sys.malloc 40 = false then .fault
  let dynamic ← set_debug start.r_debug start.dynamic
  let vdso ← get_auxv_entry AT_SYSINFO_EHDR start.auxv_addr start.auxv
  let sys := { sys with vdso := vdso.map fun (_, auxv) => start.image auxv.a_val }
  let table ← build_dependency_table sys rounds fuel filename
  let (map, heap, m) ← build_link_map sys [⟨0, .lit "", none, none, none⟩] m table base (vdso.elim 0 Prod.fst) 0
  let lazy := (← get_env_value sys.envp (.lit "LD_BIND_NOW")).isNone
  let next ← Outcome.ofOption map
  let (relocated, m) ← relocate_loop sys heap map lazy heap.length next m
  handle_options sys
  let entry ← get_auxv_value start AT_ENTRY
  return { table, heap, map, relocated, mem := m, dynamic, entry }

end ldso
