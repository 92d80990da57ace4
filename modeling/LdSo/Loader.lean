import LdSo.ElfManipulation
import LdSo.LinkMap

open cmodel

namespace ldso.loader

open elf elf_manipulation utility

def PAGE_SIZE : elf_addr := 4096

def ALIGN (x : elf_addr) : elf_addr := PAGE_SIZE * (x / PAGE_SIZE)

/-- Reserves memory from the first PT_LOAD header to the end of the file part of
the header behind the run of PT_LOAD headers, whatever that header is. -/
def allocate_map (sys : System) (m : Memory 64) (phdr : List Phdr) (offset : elf_addr) :
    Outcome (elf_addr × Memory 64) := do
  let phdr := phdr.dropWhile fun p => p.p_type ≠ PT_LOAD
  let first ← Outcome.ofOption phdr.head?
  let prog ← Outcome.ofOption (phdr.dropWhile fun p => p.p_type = PT_LOAD).head?
  let pos := first.p_vaddr + offset
  let size := prog.p_vaddr + prog.p_filesz - first.p_vaddr + pos - ALIGN pos
  match unistd.mmap sys m (ALIGN pos) size.toNat ⟨true, true, true⟩ with
  | none => .exit 1
  | some m => return (ALIGN pos, m)

def prot (flags : BitVec 32) : Prot where
  r := flags &&& PF_R ≠ 0
  w := flags &&& PF_W ≠ 0
  x := flags &&& PF_X ≠ 0

/-- What loading a program changes: the memory, the node's `l_ld` and `*base`. -/
structure Loading where
  mem : Memory 64
  l_ld : Option elf_addr
  base : elf_addr

/-- Loading one PT_LOAD segment: `read`, then `mprotect`. -/
def load_segment (sys : System) (map : LinkMap) (program : Phdr) (s : Loading) : Outcome Loading := do
  let content ← xopen sys map.l_name
  let pos ← xlseek program.p_offset
  let addr := program.p_vaddr + map.l_addr
  let (r, m) ← xread_memory s.mem addr (xread content pos program.p_filesz.toNat)
  match unistd.mprotect m (ALIGN addr) (BitVec.ofNat 64 r + addr - ALIGN addr).toNat (prot program.p_flags) with
  | none => .exit 0
  | some m => return { s with mem := m, base := addr + BitVec.ofNat 64 r }

/-- The loop of `load_program`. Behind the first PT_LOAD header, a header that is
neither PT_LOAD nor PT_DYNAMIC ends it. -/
def load_loop (sys : System) (map : LinkMap) : Nat → List Phdr → Bool → Loading → Outcome Loading
  | 0, _, _, s => .ok s
  | _ + 1, [], _, _ => .fault
  | n + 1, program :: rest, load, s =>
    if program.p_type = PT_LOAD then do
      let s ← load_segment sys map program s
      load_loop sys map n rest true s
    else if program.p_type = PT_DYNAMIC then
      load_loop sys map n rest load { s with l_ld := some (program.p_vaddr + map.l_addr) }
    else if load then .ok s
    else load_loop sys map n rest load s

/-- The result is where the memory was reserved, and what was loaded. A caller
that passes NULL for `base` drops it. -/
def load_program (sys : System) (m : Memory 64) (program : List Phdr) (elf : Ehdr) (map : LinkMap) (base : elf_addr) :
    Outcome (elf_addr × Loading) := do
  let (ret, m) ← allocate_map sys m program map.l_addr
  let s ← load_loop sys map elf.e_phnum.toNat program false ⟨m, map.l_ld, base⟩
  return (ret, s)

def load_elf_binary (sys : System) (m : Memory 64) (map : LinkMap) (base : elf_addr) :
    Outcome (elf_addr × Loading) := do
  let elf ← get_elf_ehdr sys map.l_name
  let phdr ← get_program_header sys elf map.l_name
  load_program sys m phdr elf map base

/-- The variables of `build_link_map`; `offset` is an `int`. -/
structure BuildState where
  heap : Heap
  mem : Memory 64
  map : Nat
  position : elf_addr
  offset : BitVec 32
  ret : Option Nat

/-- One iteration of `build_link_map`, for the table entry `name`. As long as
`offset` is 0 the node at hand is used again instead of a new one. -/
def build_step (sys : System) (base vdso : elf_addr) (s : BuildState) (name : CString) : Outcome BuildState := do
  let fresh := s.offset ≠ 0
  if fresh then xmalloc sys 40
  let l_ld := if fresh then none else (s.heap[s.map]?).bind LinkMap.l_ld
  let new := if fresh then s.heap.length else s.map
  let node : LinkMap := ⟨0, name, l_ld, none, if fresh then some s.map else none⟩
  let write (v : LinkMap) : Heap := if fresh then s.heap ++ [v] else s.heap.set s.map v
  if name = .lit "ld.so" then
    return { s with heap := (write { node with l_addr := base }).link s.map new, map := new }
  else if name = .lit "linux-vdso.so.1" then
    return { s with heap := (write { node with l_addr := vdso }).link s.map new, map := new }
  else if fresh then
    let node := { node with l_addr := ALIGN s.position + 3 * PAGE_SIZE }
    let elf ← get_elf_ehdr sys name
    let program ← get_program_header sys elf name
    let (_, loaded) ← load_program sys s.mem program elf node s.position
    return {
      heap := (write { node with l_ld := loaded.l_ld }).link s.map new
      mem := loaded.mem
      map := new
      position := loaded.base
      offset := node.l_addr.setWidth 32
      ret := s.ret }
  else
    let (_, loaded) ← load_elf_binary sys s.mem node s.position
    return {
      heap := write { node with l_ld := loaded.l_ld }
      mem := loaded.mem
      map := new
      position := loaded.base
      offset := 1
      ret := some new }

def build_loop (sys : System) (base vdso : elf_addr) : List CString → BuildState → Outcome BuildState
  | [], s => .ok s
  | name :: table, s => do
    let s ← build_step sys base vdso s name
    build_loop sys base vdso table s

/-- The result is the new value of `full_map`, with the nodes and the memory. -/
def build_link_map (sys : System) (heap : Heap) (m : Memory 64) (table : List CString) (base vdso : elf_addr)
    (map : Nat) :
    Outcome (Option Nat × Heap × Memory 64) := do
  let s ← build_loop sys base vdso table ⟨heap, m, map, 0, 0, none⟩
  return (s.ret, s.heap, s.mem)

end ldso.loader
