import LdSo.Main.Startup
import LdSo.Libc.Printf.Output
import LdSo.Libc.Printf.Value

open cmodel

namespace ldso.options

open elf stdio display_auxv

/-- How the value of an entry is printed. -/
inductive OptionType where
  | STR
  | HEX
  | DEC
  deriving DecidableEq

structure DictionaryEntry where
  a_type : BitVec 64
  msg : CString
  type : OptionType
  deriving DecidableEq

def auxv_options : List DictionaryEntry :=
  [⟨7, .lit "AT_BASE", .HEX⟩, ⟨24, .lit "AT_BASE_PLATFORM", .STR⟩, ⟨17, .lit "AT_CLKTCK", .DEC⟩,
    ⟨19, .lit "AT_DCACHEBSIZE", .DEC⟩, ⟨14, .lit "AT_EGID", .DEC⟩, ⟨9, .lit "AT_ENTRY", .HEX⟩, ⟨12, .lit "AT_EUID", .DEC⟩,
    ⟨2, .lit "AT_EXECFD", .DEC⟩, ⟨31, .lit "AT_EXECFN", .STR⟩, ⟨8, .lit "AT_FLAGS", .HEX⟩, ⟨18, .lit "AT_FPUCW", .HEX⟩,
    ⟨13, .lit "AT_GID", .DEC⟩, ⟨16, .lit "AT_HWCAP", .HEX⟩, ⟨26, .lit "AT_HWCAP2", .HEX⟩,
    ⟨20, .lit "AT_ICACHEBSIZE", .DEC⟩, ⟨43, .lit "AT_L1D_CACHEGEOMETRY", .HEX⟩, ⟨42, .lit "AT_L1D_CACHESIZE", .DEC⟩,
    ⟨41, .lit "AT_L1I_CACHEGEOMETRY", .HEX⟩, ⟨40, .lit "AT_L1I_CACHESIZE", .DEC⟩,
    ⟨45, .lit "AT_L2_CACHEGEOMETRY", .HEX⟩, ⟨44, .lit "AT_L2_CACHESIZE", .DEC⟩, ⟨47, .lit "AT_L3_CACHEGEOMETRY", .HEX⟩,
    ⟨46, .lit "AT_L3_CACHESIZE", .DEC⟩, ⟨6, .lit "AT_PAGESZ", .DEC⟩, ⟨3, .lit "AT_PHDR", .HEX⟩, ⟨4, .lit "AT_PHENT", .DEC⟩,
    ⟨5, .lit "AT_PHNUM", .DEC⟩, ⟨15, .lit "AT_PLATFORM", .STR⟩, ⟨25, .lit "AT_RANDOM", .HEX⟩, ⟨23, .lit "AT_SECURE", .DEC⟩,
    ⟨32, .lit "AT_SYSINFO", .HEX⟩, ⟨33, .lit "AT_SYSINFO_EHDR", .HEX⟩, ⟨21, .lit "AT_UCACHEBSIZE", .DEC⟩,
    ⟨11, .lit "AT_UID", .DEC⟩]

def OptionType.format : OptionType → CString
  | .STR => .lit "%s : %s\n"
  | .HEX => .lit "%s : 0x%lx\n"
  | .DEC => .lit "%s : %ld\n"

def trace_format : CString := .lit "\t%s (0x%016lx)\n"

/-- Where things lie that are passed to `printf`: its buffer, the strings of ld.so, and
the names of the nodes; and what an `l_ld` holds that was never set. -/
structure Place where
  printf_buf : elf_addr
  string : CString → elf_addr
  l_name : Nat → elf_addr
  l_ld : Nat → elf_addr

section Auxv

variable (place : Place) (auxv : elf_addr)

/-- One entry of the dictionary is compared. -/
def print_entry (entry : DictionaryEntry) (out : Console) : Outcome Console := do
  let a_type ← out.mem.loadWord 64 auxv
  if a_type = entry.a_type then do
    let a_val ← out.mem.loadWord 64 (auxv + 8#64)
    out.printf place.printf_buf (place.string entry.type.format) [place.string entry.msg, a_val]
  else return out

def print_option : List DictionaryEntry → Console → Outcome Console
  | [], out => .ok out
  | entry :: rest, out => do
    let out ← print_entry place auxv entry out
    print_option rest out

end Auxv

def print_auxvp_loop (place : Place) : Nat → elf_addr → Console → Outcome Console
  | 0, _, _ => .diverge
  | fuel + 1, auxv, out => do
    let a_type ← out.mem.loadWord 64 auxv
    if a_type = AT_NULL.setWidth 64 then return out
    else do
      let out ← print_option place auxv auxv_options out
      print_auxvp_loop place fuel (auxv + 16#64) out

def print_auxvp (place : Place) (auxv : elf_addr) (out : Console) : Outcome Console :=
  print_auxvp_loop place (2 ^ 64) auxv out

/-- The loop over the link map; a list with more nodes than the heap is cyclic. -/
def trace_loop (place : Place) (heap : Heap) : Nat → Option Nat → Console → Outcome Console
  | 0, _, _ => .diverge
  | _ + 1, none, out => .ok out
  | fuel + 1, some map, out => do
    let node ← Outcome.ofOption heap[map]?
    let out ← out.printf place.printf_buf (place.string trace_format)
      [place.l_name map, node.l_ld.getD (place.l_ld map)]
    trace_loop place heap fuel node.l_next out

def show_auxv (place : Place) (show_auxvp : Option CString) (auxv : elf_addr) (out : Console) : Outcome Console :=
  if show_auxvp.isSome then print_auxvp place auxv out else .ok out

/-- `handle_options` with what it prints. The status is that of `_exit`, which ends
the process instead of a return. -/
def handle_options (sys : System) (place : Place) (heap : Heap) (envp : elf_addr) (map : Option Nat) (out : Console) :
    Outcome (Console × Option Int) := do
  let auxv ← startup.find_auxv out.mem envp
  let show_auxvp ← get_env_value sys.envp (.lit "LD_SHOW_AUXV")
  let out ← show_auxv place show_auxvp auxv out
  let trace_ld_objects ← get_env_value sys.envp (.lit "LD_TRACE_LOADED_OBJECTS")
  if trace_ld_objects.isSome then do
    let out ← trace_loop place heap (heap.length + 1) map out
    return (out, some 0)
  else return (out, none)

end ldso.options
