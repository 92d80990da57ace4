import LdSo.SymbolResolution.Gnu
import LdSo.SymbolResolution.Sysv

open cmodel

namespace ldso

open elf symbol_resolution

/-- A loaded object: its node, its file and the hash tables it carries, each
with the address its dynamic section gives. Every defined entry is a member of the
GNU table; an import may be one too, as in an executable that takes the address of
a function it imports. -/
structure Object where
  node : LinkMap
  file : ObjectFile
  gnu : Option (elf_addr × GnuHash file.symbols)
  sysv : Option (elf_addr × SysvHash file.symbols)
  gnu_dyn : find_dyn DT_GNU_HASH (dyns file.dynamic) = .ok (gnu.elim 0 Prod.fst)
  sysv_dyn : find_dyn DT_HASH (dyns file.dynamic) = .ok (sysv.elim 0 Prod.fst)
  gnu_ne : ∀ v t, gnu = some (v, t) → v + node.l_addr ≠ 0
  sysv_ne : ∀ v t, sysv = some (v, t) → v + node.l_addr ≠ 0
  members : ∀ v t, gnu = some (v, t) → ∀ i s, file.symbols[i]? = some s → s.Defined → t.symoffset ≤ i

namespace Object

variable {sys : System} {m : Memory 64} {o : Object} {name : CString}

/-- The file is there and the memory holds the tables. -/
structure Loaded (o : Object) (sys : System) (m : Memory 64) : Prop where
  disk : o.file.OnDisk sys o.node.l_name
  gnu : ∀ v t, o.gnu = some (v, t) → m.Holds (v + o.node.l_addr) t.bytes
  sysv : ∀ v t, o.sysv = some (v, t) → m.Holds (v + o.node.l_addr) t.bytes

/-- The memory the object's tables occupy. -/
def tables (o : Object) : List (Region 64) :=
  (o.gnu.map fun (v, t) => ⟨v + o.node.l_addr, t.bytes.length⟩).toList ++
    (o.sysv.map fun (v, t) => ⟨v + o.node.l_addr, t.bytes.length⟩).toList

def address (o : Object) (s : Symbol) : elf_addr := s.sym.st_value + o.node.l_addr

/-- The object defines the name, it does not merely import it. -/
def Defines (o : Object) (name : CString) : Prop := ∃ s ∈ o.file.symbols, s.Defined ∧ s.name = name

instance (o : Object) (name : CString) : Decidable (o.Defines name) :=
  inferInstanceAs (Decidable (∃ s ∈ o.file.symbols, _))

/-- What the search of the GNU table finds. -/
def gnu_entry (o : Object) (name : CString) : Option Symbol := o.gnu.bind fun (_, t) => t.member name

/-- What the search of the SysV table finds, on the chain that the loader's
hash selects. -/
def sysv_entry (o : Object) (name : CString) : Option Symbol :=
  o.sysv.bind fun (_, t) => t.entry (elf_bucket t.buckets.length name) name

/-- Without the table, NULL plus `l_addr` must still be NULL. -/
def GnuReady (o : Object) : Prop := o.gnu.isSome = true ∨ o.node.l_addr = 0

def SysvReady (o : Object) : Prop := o.sysv.isSome = true ∨ o.node.l_addr = 0

theorem gnu_entry_named {s : Symbol} (h : o.gnu_entry name = some s) : s ∈ o.file.symbols ∧ s.name = name := by
  obtain ⟨⟨v, t⟩, -, hmember⟩ := Option.bind_eq_some_iff.mp h
  have hname := List.find?_some hmember
  exact ⟨List.mem_of_mem_drop (List.mem_of_find?_eq_some hmember), by simpa using hname⟩

/-- A GNU table finds every name its object defines. -/
theorem gnu_entry_of_defines (hgnu : o.gnu.isSome = true) (h : o.Defines name) :
    ∃ s, o.gnu_entry name = some s := by
  obtain ⟨⟨v, t⟩, ht⟩ := Option.isSome_iff_exists.mp hgnu
  obtain ⟨s, hs, hdef, hname⟩ := h
  obtain ⟨i, hi⟩ := List.mem_iff_getElem?.mp hs
  have hlow := o.members v t ht i s hi hdef
  have hmem : s ∈ o.file.symbols.drop t.symoffset := by
    refine List.mem_iff_getElem?.mpr ⟨i - t.symoffset, ?_⟩
    rw [List.getElem?_drop, Nat.add_sub_cancel' hlow]
    exact hi
  have hsome : (t.member name).isSome = true := List.find?_isSome.mpr ⟨s, hmem, by simpa using hname⟩
  obtain ⟨u, hu⟩ := Option.isSome_iff_exists.mp hsome
  exact ⟨u, by simp [gnu_entry, ht, hu]⟩

theorem sysv_entry_named {s : Symbol} (h : o.sysv_entry name = some s) : s ∈ o.file.symbols ∧ s.name = name := by
  obtain ⟨⟨v, t⟩, -, hentry⟩ := Option.bind_eq_some_iff.mp h
  have hname := List.find?_some hentry
  obtain ⟨i, -, hi⟩ := List.mem_filterMap.mp (List.mem_of_find?_eq_some hentry)
  exact ⟨List.mem_of_getElem? hi, by simpa using hname⟩

theorem gnu_hash_lookup_ready (ho : o.Loaded sys m) (hready : o.GnuReady) (name : CString) :
    gnu_hash_lookup sys m o.node name = .ok (o.node.addressOf (o.gnu_entry name)) := by
  have hdyn := o.gnu_dyn
  unfold gnu_entry
  cases hgnu : o.gnu with
  | none =>
    have hnull : o.node.l_addr = 0 := by simpa [GnuReady, hgnu] using hready
    rw [hgnu] at hdyn
    exact gnu_hash_lookup_null ho.disk hdyn (by simp [hnull]) name
  | some vt =>
    obtain ⟨v, t⟩ := vt
    rw [hgnu] at hdyn
    exact gnu_hash_lookup_eq_member ho.disk t hdyn (o.gnu_ne v t hgnu) (ho.gnu v t hgnu) name

theorem hash_lookup_ready (ho : o.Loaded sys m) (hready : o.SysvReady) (name : CString) :
    hash_lookup sys m o.node name = .ok (o.node.addressOf (o.sysv_entry name)) := by
  have hdyn := o.sysv_dyn
  unfold sysv_entry
  cases hsysv : o.sysv with
  | none =>
    have hnull : o.node.l_addr = 0 := by simpa [SysvReady, hsysv] using hready
    rw [hsysv] at hdyn
    exact hash_lookup_null ho.disk hdyn (by simp [hnull]) name
  | some vt =>
    obtain ⟨v, t⟩ := vt
    rw [hsysv] at hdyn
    exact hash_lookup_eq_entry ho.disk t hdyn (o.sysv_ne v t hsysv) (ho.sysv v t hsysv) name

/-- Without the table and at a non-zero base, the first read goes to `l_addr` itself. -/
theorem gnu_hash_lookup_not_ready (ho : o.Loaded sys m) (hready : ¬ o.GnuReady) (hunmapped : m o.node.l_addr = none)
    (name : CString) : gnu_hash_lookup sys m o.node name = .fault := by
  obtain ⟨hnone, hne⟩ := not_or.mp hready
  have hgnu : o.gnu = none := by simpa using hnone
  have hdyn := o.gnu_dyn
  rw [hgnu] at hdyn
  rw [gnu_hash_lookup_eq_search ho.disk hdyn (by simpa using hne)]
  simp [gnu_table_search, Memory.loadWord, Memory.load, Memory.byte, hunmapped]

theorem hash_lookup_not_ready (ho : o.Loaded sys m) (hready : ¬ o.SysvReady) (hunmapped : m o.node.l_addr = none)
    (name : CString) : hash_lookup sys m o.node name = .fault := by
  obtain ⟨hnone, hne⟩ := not_or.mp hready
  have hsysv : o.sysv = none := by simpa using hnone
  have hdyn := o.sysv_dyn
  rw [hsysv] at hdyn
  rw [hash_lookup_eq_search ho.disk hdyn (by simpa using hne)]
  simp [hash_table_search, Memory.loadWord, Memory.load, Memory.byte, hunmapped]

/-- The object with a one-symbol file and the smallest table of each kind. -/
def single (node : LinkMap) (name : CString) (st_shndx : BitVec 16) (st_value gnu_addr sysv_addr : elf_addr)
    (hgnu : gnu_addr + node.l_addr ≠ 0) (hsysv : sysv_addr + node.l_addr ≠ 0) : Object where
  node := node
  file := .single name st_shndx st_value [⟨DT_GNU_HASH, gnu_addr⟩, ⟨DT_HASH, sysv_addr⟩, ⟨DT_NULL, 0⟩]
  gnu := some (gnu_addr, .single _ (if st_shndx = SHN_UNDEF then 2 else 1) (by split <;> decide)
    (by split <;> simp [ObjectFile.single]) (by simp [ObjectFile.single]))
  sysv := some (sysv_addr, .single _ (by simp [ObjectFile.single]) (by simp [ObjectFile.single]) (by
    intro s hs
    cases hs
    simp [Symbol.Defined, SHN_UNDEF]))
  gnu_dyn := by
    simp only [ObjectFile.single, dyns_encode]
    rfl
  sysv_dyn := by
    simp only [ObjectFile.single, dyns_encode]
    rfl
  gnu_ne := by
    rintro v t ⟨⟩
    exact hgnu
  sysv_ne := by
    rintro v t ⟨⟩
    exact hsysv
  members := by
    rintro v t ⟨⟩ i s hs hdef
    obtain _ | _ | i := i
    · cases hs
      exact absurd rfl hdef
    · cases hs
      simp [GnuHash.single, show st_shndx ≠ SHN_UNDEF from hdef]
    · cases hs

/-- The object with every entry but the null symbol in its GNU table, imports too. -/
def hash_all (o : Object) (gnu_addr : elf_addr) (hdyn : find_dyn DT_GNU_HASH (dyns o.file.dynamic) = .ok gnu_addr)
    (hne : gnu_addr + o.node.l_addr ≠ 0) (hpos : 1 ≤ o.file.symbols.length)
    (hnull : ∀ s, o.file.symbols[0]? = some s → ¬ s.Defined) : Object where
  node := o.node
  file := o.file
  gnu := some (gnu_addr, .single _ 1 (by decide) hpos o.file.count_lt)
  sysv := o.sysv
  gnu_dyn := hdyn
  sysv_dyn := o.sysv_dyn
  gnu_ne := by
    rintro v t ⟨⟩
    exact hne
  sysv_ne := o.sysv_ne
  members := by
    rintro v t ⟨⟩ i s hs hdef
    obtain _ | i := i
    · exact absurd hdef (hnull s hs)
    · simp [GnuHash.single]

/-- The object with another header in its file. -/
def with_header (o : Object) (elf : Ehdr) : Object := { o with file := { o.file with elf := elf } }

/-- The memory with one page for the object and its tables in it. -/
def place (m : Memory 64) (o : Object) : Memory 64 :=
  let m := m.mmap ⟨o.node.l_addr, 0x1000⟩ ⟨true, false, true⟩
  let m := o.gnu.elim m fun (v, t) => m.put (v + o.node.l_addr) t.bytes
  o.sysv.elim m fun (v, t) => m.put (v + o.node.l_addr) t.bytes

end Object

/-- An object that only imports `f`, and behind it the object to import it from. -/
def importer : Object :=
  .single ⟨0x1000, .lit "a.so", none, some 1, none⟩ (.lit "f") SHN_UNDEF 0 0x200 0x300 (by decide) (by decide)

def definer : Object :=
  .single ⟨0x2000, .lit "b.so", none, none, some 0⟩ (.lit "f") 7 0x40 0x200 0x300 (by decide) (by decide)

def importer_sys : System :=
  .of_files [(.lit "a.so", importer.file.content), (.lit "b.so", definer.file.content)]

def importer_memory : Memory 64 := [importer, definer].foldl Object.place fun _ => none

theorem importer_on_disk : importer.file.OnDisk importer_sys (.lit "a.so") := by
  decide +kernel

theorem definer_on_disk : definer.file.OnDisk importer_sys (.lit "b.so") := by
  decide +kernel

end ldso
