import LdSo.ElfManipulation
import LdSo.LinkMap

open cmodel

namespace ldso.symbol_resolution

open elf elf_manipulation string

/-- The scan of the dynamic section; the address 0 is NULL. -/
def find_dyn (type : BitVec 64) : List Dyn → Outcome elf_addr
  | [] => .fault
  | dyn :: rest =>
    if dyn.d_tag = DT_NULL then .ok 0
    else if dyn.d_tag = type then .ok dyn.d_val
    else find_dyn type rest

def get_hashtab (sys : System) (elf : Ehdr) (map : LinkMap) (type : BitVec 64) : Outcome elf_addr := do
  let dyn ← Outcome.ofOption (← get_section sys elf map.l_name (.lit ".dynamic"))
  find_dyn type (dyns dyn)

/-- The accumulator is an `unsigned long`; only its low word is returned. -/
def gnu_hash (namearg : CString) : BitVec 32 :=
  let h := namearg.chars.foldl (fun (h : BitVec 64) ch => (h <<< 5) + h + ch.setWidth 64) 5381#64
  (h &&& 0xffffffff#64).setWidth 32

/-- An `int` returned into a `size_t`. -/
def size_t (n : Int) : Nat := (BitVec.ofInt 64 n).toNat

/-- A string pointer into a section buffer, NULL included: no byte can be read
through it beyond the buffer. -/
def str_at (strtab : Option (List Byte)) (off : BitVec 32) : List Byte := (strtab.getD []).drop off.toNat

/-- The loop of `gnu_hash_lookup` over the chain words from `hashval` on, with
`h1` already masked. `count` symbols are left before the end of `.dynsym`. The
end-of-chain bit of `h2` only makes the source `continue`. -/
def gnu_scan (m : Memory 64) (syms : List Sym) (strtab : Option (List Byte)) (rela_name : CString) (h1 : BitVec 32)
    (l_addr : elf_addr) : Nat → Nat → elf_addr → Outcome elf_addr
  | 0, _, _ => .ok 0
  | count + 1, sym, hashval => do
    let h2 ← m.loadWord 32 hashval
    if h1 = h2 &&& ~~~1#32 then
      let s ← Outcome.ofOption syms[sym]?
      let order ← strcmp rela_name.bytes (str_at strtab s.st_name)
      if order = 0 then .ok (s.st_value + l_addr)
      else gnu_scan m syms strtab rela_name h1 l_addr count (sym + 1) (hashval + 4#64)
    else gnu_scan m syms strtab rela_name h1 l_addr count (sym + 1) (hashval + 4#64)

/-- `gnu_hash_lookup` from its first read of the table at `hashtab` on. -/
def gnu_table_search (m : Memory 64) (syms : List Sym) (strtab : Option (List Byte)) (rela_name : CString)
    (l_addr : elf_addr) (size : Nat) (hashtab : elf_addr) : Outcome elf_addr := do
  let h1 := gnu_hash rela_name
  let nbuckets ← m.loadWord 32 hashtab
  let nmaskwords ← m.loadWord 32 (hashtab + 8#64)
  let symndx ← m.loadWord 32 (hashtab + 4#64)
  let shift2 ← m.loadWord 32 (hashtab + 12#64)
  let maskwords := hashtab + 16#64
  let buckets := maskwords + 8#64 * nmaskwords.setWidth 64
  let hashvals := buckets + 4#64 * nbuckets.setWidth 64
  -- a shift by the width of the word or more, and a remainder by zero, are undefined
  if 32 ≤ shift2.toNat ∨ nmaskwords = 0 then .fault
  else do
    let word ← m.loadWord 64 (maskwords + 8#64 * BitVec.ofNat 64 (h1.toNat / 64 % nmaskwords.toNat))
    let mask := (1#64 <<< (h1.toNat % 64)) ||| (1#64 <<< ((h1 >>> shift2.toNat).toNat % 64))
    if word &&& mask ≠ mask then .ok 0
    else if nbuckets = 0 then .fault
    else do
      let n ← m.loadWord 32 (buckets + 4#64 * BitVec.ofNat 64 (h1.toNat % nbuckets.toNat))
      if n = 0 then .ok 0
      else
        let hashval := hashvals + 4#64 * n.setWidth 64 - 4#64 * symndx.setWidth 64
        gnu_scan m syms strtab rela_name (h1 &&& ~~~1#32) l_addr (size - n.toNat) n.toNat hashval

def gnu_hash_lookup (sys : System) (m : Memory 64) (next : LinkMap) (rela_name : CString) : Outcome elf_addr := do
  let name := next.l_name
  let elf ← get_elf_ehdr sys name
  let strtab ← get_section sys elf name (.lit ".dynstr")
  let hashtab := (← get_hashtab sys elf next DT_GNU_HASH) + next.l_addr
  if hashtab = 0 then .ok 0
  else do
    let symtab ← get_section sys elf name (.lit ".dynsym")
    let size := size_t (← get_section_size sys elf name (.lit ".dynsym"))
    gnu_table_search m (syms (symtab.getD [])) strtab rela_name next.l_addr size hashtab

/-- One step of `elf_hash`; `*name` is a signed `char`. -/
def elf_hash_step (h : BitVec 32) (c : Byte) : BitVec 32 :=
  let h := (h <<< 4) + c.signExtend 32
  let g := h
  let h := if g &&& 0xf0000000#32 ≠ 0 then h ^^^ (g >>> 24) else h
  h &&& ~~~g

def elf_hash (name : CString) : BitVec 32 := name.chars.foldl elf_hash_step 0#32

/-- The loop of `hash_lookup` along a chain. More steps than there are symbols
mean that an index came up twice, and then the loop never ends. -/
def hash_scan (m : Memory 64) (symtab : List Sym) (strtab : Option (List Byte)) (rela_name : CString)
    (l_addr chain : elf_addr) (size : Nat) : Nat → BitVec 32 → Outcome elf_addr
  | fuel, i =>
    if i = 0 ∨ size ≤ i.toNat then .ok 0
    else
      match fuel with
      | 0 => .diverge
      | fuel + 1 => do
        let s ← Outcome.ofOption symtab[i.toNat]?
        let order ← strcmp rela_name.bytes (str_at strtab s.st_name)
        if order = 0 then .ok (s.st_value + l_addr)
        else do
          let i ← m.loadWord 32 (chain + 4#64 * i.setWidth 64)
          hash_scan m symtab strtab rela_name l_addr chain size fuel i

/-- `hash_lookup` from its first read of the table at `hashtab` on. -/
def hash_table_search (m : Memory 64) (symtab : List Sym) (strtab : Option (List Byte)) (rela_name : CString)
    (l_addr : elf_addr) (size : Nat) (hashtab : elf_addr) : Outcome elf_addr := do
  let hash := elf_hash rela_name
  let nbuckets ← m.loadWord 32 hashtab
  let bucket := hashtab + 8#64
  let chain := bucket + 4#64 * nbuckets.setWidth 64
  if nbuckets = 0 then .fault
  else do
    let i ← m.loadWord 32 (bucket + 4#64 * BitVec.ofNat 64 (hash.toNat % nbuckets.toNat))
    hash_scan m symtab strtab rela_name l_addr chain size size i

def hash_lookup (sys : System) (m : Memory 64) (next : LinkMap) (rela_name : CString) : Outcome elf_addr := do
  let elf ← get_elf_ehdr sys next.l_name
  let hashtab := (← get_hashtab sys elf next DT_HASH) + next.l_addr
  if hashtab = 0 then .ok 0
  else do
    let symtab ← get_section sys elf next.l_name (.lit ".dynsym")
    let strtab ← get_section sys elf next.l_name (.lit ".dynstr")
    let size := size_t (← get_section_size sys elf next.l_name (.lit ".dynsym"))
    hash_table_search m (syms (symtab.getD [])) strtab rela_name next.l_addr size hashtab

/-- The search of one object: its GNU table, then its SysV table; 0 is a miss. -/
def object_lookup (sys : System) (m : Memory 64) (next : LinkMap) (rela_name : CString) : Outcome elf_addr := do
  let res ← gnu_hash_lookup sys m next rela_name
  if res ≠ 0 then .ok res
  else hash_lookup sys m next rela_name

/-- The loop of `link_map_lookup`. A list with more nodes than the heap is cyclic. -/
def link_map_scan (sys : System) (heap : Heap) (m : Memory 64) (rela_name : CString) :
    Nat → Option Nat → Outcome elf_addr
  | _, none => .exit 1
  | 0, some _ => .diverge
  | fuel + 1, some p => do
    let next ← Outcome.ofOption heap[p]?
    let res ← object_lookup sys m next rela_name
    if res ≠ 0 then .ok res
    else link_map_scan sys heap m rela_name fuel next.l_next

def link_map_lookup (sys : System) (heap : Heap) (m : Memory 64) (map : Option Nat) (rela_name : CString) :
    Outcome elf_addr :=
  link_map_scan sys heap m rela_name heap.length map

section Mono

variable {m m' : Memory 64}

theorem gnu_scan_mono (h : m.Sub m') (symtab : List Sym) (strtab : Option (List Byte)) (rela_name : CString)
    (h1 : BitVec 32) (l_addr : elf_addr) (count sym : Nat) (hashval : elf_addr) :
    gnu_scan m symtab strtab rela_name h1 l_addr count sym hashval ≤
      gnu_scan m' symtab strtab rela_name h1 l_addr count sym hashval := by
  induction count generalizing sym hashval with
  | zero => exact le_rfl
  | succ count ih =>
    simp only [gnu_scan]
    refine Outcome.bind_le_bind (h.loadWord_le _ _) fun h2 => Outcome.ite_le_ite ?_ (ih _ _)
    refine Outcome.bind_le_bind_right _ fun s => Outcome.bind_le_bind_right _ fun order => ?_
    exact Outcome.ite_le_ite le_rfl (ih _ _)

theorem gnu_table_search_mono (h : m.Sub m') (symtab : List Sym) (strtab : Option (List Byte)) (rela_name : CString)
    (l_addr : elf_addr) (size : Nat) (hashtab : elf_addr) :
    gnu_table_search m symtab strtab rela_name l_addr size hashtab ≤
      gnu_table_search m' symtab strtab rela_name l_addr size hashtab := by
  unfold gnu_table_search
  refine Outcome.bind_le_bind (h.loadWord_le _ _) fun nbuckets => Outcome.bind_le_bind (h.loadWord_le _ _) fun nmaskwords =>
    Outcome.bind_le_bind (h.loadWord_le _ _) fun symndx => Outcome.bind_le_bind (h.loadWord_le _ _) fun shift2 =>
    Outcome.ite_le_ite le_rfl ?_
  refine Outcome.bind_le_bind (h.loadWord_le _ _) fun word => Outcome.ite_le_ite le_rfl (Outcome.ite_le_ite le_rfl ?_)
  refine Outcome.bind_le_bind (h.loadWord_le _ _) fun n => Outcome.ite_le_ite le_rfl ?_
  exact gnu_scan_mono h _ _ _ _ _ _ _ _

/-- Mapping more memory cannot change a lookup that is defined. -/
theorem gnu_hash_lookup_mono (h : m.Sub m') (sys : System) (next : LinkMap) (rela_name : CString) :
    gnu_hash_lookup sys m next rela_name ≤ gnu_hash_lookup sys m' next rela_name := by
  unfold gnu_hash_lookup
  refine Outcome.bind_le_bind_right _ fun elf => Outcome.bind_le_bind_right _ fun strtab =>
    Outcome.bind_le_bind_right _ fun tab => Outcome.ite_le_ite le_rfl ?_
  refine Outcome.bind_le_bind_right _ fun symtab => Outcome.bind_le_bind_right _ fun size => ?_
  exact gnu_table_search_mono h _ _ _ _ _ _

theorem hash_scan_mono (h : m.Sub m') (symtab : List Sym) (strtab : Option (List Byte)) (rela_name : CString)
    (l_addr chain : elf_addr) (size fuel : Nat) (i : BitVec 32) :
    hash_scan m symtab strtab rela_name l_addr chain size fuel i ≤
      hash_scan m' symtab strtab rela_name l_addr chain size fuel i := by
  induction fuel generalizing i with
  | zero =>
    unfold hash_scan
    exact le_rfl
  | succ fuel ih =>
    unfold hash_scan
    refine Outcome.ite_le_ite le_rfl (Outcome.bind_le_bind_right _ fun s => Outcome.bind_le_bind_right _ fun order => ?_)
    exact Outcome.ite_le_ite le_rfl (Outcome.bind_le_bind (h.loadWord_le _ _) fun i => ih i)

theorem hash_lookup_mono (h : m.Sub m') (sys : System) (next : LinkMap) (rela_name : CString) :
    hash_lookup sys m next rela_name ≤ hash_lookup sys m' next rela_name := by
  unfold hash_lookup hash_table_search
  refine Outcome.bind_le_bind_right _ fun elf => Outcome.bind_le_bind_right _ fun tab => Outcome.ite_le_ite le_rfl ?_
  refine Outcome.bind_le_bind_right _ fun symtab => Outcome.bind_le_bind_right _ fun strtab =>
    Outcome.bind_le_bind_right _ fun size => Outcome.bind_le_bind (h.loadWord_le _ _) fun nbuckets =>
    Outcome.ite_le_ite le_rfl ?_
  exact Outcome.bind_le_bind (h.loadWord_le _ _) fun i => hash_scan_mono h _ _ _ _ _ _ _ _

theorem object_lookup_mono (h : m.Sub m') (sys : System) (next : LinkMap) (rela_name : CString) :
    object_lookup sys m next rela_name ≤ object_lookup sys m' next rela_name :=
  Outcome.bind_le_bind (gnu_hash_lookup_mono h sys next rela_name) fun _ =>
    Outcome.ite_le_ite le_rfl (hash_lookup_mono h sys next rela_name)

theorem link_map_scan_mono (h : m.Sub m') (sys : System) (heap : Heap) (rela_name : CString) (fuel : Nat)
    (map : Option Nat) : link_map_scan sys heap m rela_name fuel map ≤ link_map_scan sys heap m' rela_name fuel map := by
  induction fuel generalizing map with
  | zero => cases map <;> exact le_rfl
  | succ fuel ih =>
    cases map with
    | none => exact le_rfl
    | some p =>
      refine Outcome.bind_le_bind_right _ fun next => ?_
      exact Outcome.bind_le_bind (object_lookup_mono h sys next rela_name) fun res =>
        Outcome.ite_le_ite le_rfl (ih _)

theorem link_map_lookup_mono (h : m.Sub m') (sys : System) (heap : Heap) (map : Option Nat) (rela_name : CString) :
    link_map_lookup sys heap m map rela_name ≤ link_map_lookup sys heap m' map rela_name :=
  link_map_scan_mono h sys heap rela_name _ map

end Mono

end ldso.symbol_resolution
