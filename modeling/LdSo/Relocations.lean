import LdSo.SymbolResolution
import LdSo.Lib.Memory.Words

open cmodel

namespace ldso.relocations

open elf elf_manipulation string symbol_resolution

/-- The word an entry relocates, in an object at `l_addr`. -/
def slot (rela : Rela) (l_addr : elf_addr) : elf_addr := rela.r_offset + l_addr

/-- The loop of `relocation_lookup`, with the iterations left and the entries
from the cursor on. On R_X86_64_COPY the source continues without `rela++`. -/
def relocation_lookup_loop (sys : System) (heap : Heap) (elf : Ehdr) (next : LinkMap) (map : Option Nat) :
    Nat → List Rela → Memory 64 → Outcome (Memory 64)
  | 0, _, m => .ok m
  | _ + 1, [], _ => .fault
  | n + 1, rela :: rest, m => do
    let tmp := slot rela next.l_addr
    let m ←
      if rela.type = R_X86_64_JUMP_SLOT ∨ rela.type = R_X86_64_GLOB_DAT ∨ rela.type = R_X86_64_RELATIVE then do
        let rela_name ← name_from_dynsim_index sys elf next.l_name rela.sym
        let addr ← link_map_lookup sys heap m map rela_name
        if addr ≠ 0 then m.storeWord tmp addr else .ok m
      else .ok m
    let m ← if rela.type = R_X86_64_RELATIVE then m.storeWord tmp (rela.r_addend + next.l_addr) else .ok m
    if rela.type = R_X86_64_COPY then relocation_lookup_loop sys heap elf next map n (rela :: rest) m
    else relocation_lookup_loop sys heap elf next map n rest m

def relocation_lookup (sys : System) (heap : Heap) (m : Memory 64) (rela : List Rela) (nb_rela : Int) (next : LinkMap)
    (map : Option Nat) : Outcome (Memory 64) := do
  let elf ← get_elf_ehdr sys next.l_name
  relocation_lookup_loop sys heap elf next map nb_rela.toNat rela m

/-- The first of `n` section headers whose name begins with ".got.plt". -/
def find_got_plt (strtab : Option (List Byte)) : Nat → List Shdr → Outcome (Option Shdr)
  | 0, _ => .ok none
  | _ + 1, [] => .fault
  | n + 1, shdr :: rest => do
    let order ← strncmp (str_at strtab shdr.sh_name) (CString.lit ".got.plt").bytes 8
    if order = 0 then return some shdr else find_got_plt strtab n rest

def relocation_lazy_loop (l_addr : elf_addr) : Nat → List Rela → Memory 64 → Outcome (Memory 64)
  | 0, _, m => .ok m
  | _ + 1, [], _ => .fault
  | n + 1, rela :: rest, m => do
    let tmp := slot rela l_addr
    let word ← m.loadWord 64 tmp
    let m ← m.storeWord tmp (word + l_addr)
    relocation_lazy_loop l_addr n rest m

/-- The address of `got_plt` in an object, when it has such a section. -/
def get_got_plt (sys : System) (elf : Ehdr) (next : LinkMap) : Outcome (Option elf_addr) := do
  let shdr ← get_section_header sys elf next.l_name
  let strtab ← get_section sys elf next.l_name (.lit ".shstrtab")
  match ← find_got_plt strtab elf.e_shnum.toNat shdr with
  | none => return none
  | some shdr => return some (shdr.sh_addr + next.l_addr)

/-- The object is given by its node pointer, which is stored in `got_plt[1]`. -/
def relocation_lazy (sys : System) (heap : Heap) (m : Memory 64) (next : Nat) (rela : List Rela) (nb_rela : Int) :
    Outcome (Memory 64) := do
  let map ← Outcome.ofOption heap[next]?
  let elf ← get_elf_ehdr sys map.l_name
  match ← get_got_plt sys elf map with
  | none => return m
  | some got_plt =>
    let m ← m.storeWord (got_plt + 8#64) (sys.node next)
    let m ← m.storeWord (got_plt + 16#64) sys.reloc
    relocation_lazy_loop map.l_addr nb_rela.toNat rela m

def resolve_relocations (sys : System) (heap : Heap) (m : Memory 64) (next : Nat) (map : Option Nat) (lazy : Bool) :
    Outcome (Memory 64) := do
  let n ← Outcome.ofOption heap[next]?
  let elf ← get_elf_ehdr sys n.l_name
  let m ←
    match ← get_section sys elf n.l_name (.lit ".rela.plt") with
    | none => .ok m
    | some buf => do
      let nb_rela ← get_section_size sys elf n.l_name (.lit ".rela.plt")
      if lazy then relocation_lazy sys heap m next (relas buf) nb_rela
      else relocation_lookup sys heap m (relas buf) nb_rela n map
  match ← get_section sys elf n.l_name (.lit ".rela.dyn") with
  | none => return m
  | some buf =>
    let nb_rela ← get_section_size sys elf n.l_name (.lit ".rela.dyn")
    relocation_lookup sys heap m (relas buf) nb_rela n map

/-- The resolver that the trampoline calls with a PLT entry's object and index;
the result is the address it jumps to. -/
def runtime_relocations (sys : System) (heap : Heap) (m : Memory 64) (next : Nat) (index : Int) :
    Outcome (elf_addr × Memory 64) := do
  let map ← follow LinkMap.l_prev heap heap.length next
  let n ← Outcome.ofOption heap[next]?
  let elf ← get_elf_ehdr sys n.l_name
  let buf ← Outcome.ofOption (← get_section sys elf n.l_name (.lit ".rela.plt"))
  let rela ← if index < 0 then .fault else Outcome.ofOption (relas buf)[index.toNat]?
  let rela_name ← name_from_dynsim_index sys elf n.l_name rela.sym
  let tmp := slot rela n.l_addr
  let addr ← link_map_lookup sys heap m (some map) rela_name
  if addr ≠ 0 then do
    let m ← m.storeWord tmp addr
    return (addr, m)
  else return (addr, m)

end ldso.relocations
