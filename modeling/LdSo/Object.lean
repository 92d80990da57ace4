import LdSo.Libc.Compare
import LdSo.SymbolResolution
import LdSo.Elf.Image

open cmodel

namespace ldso

open elf elf_manipulation symbol_resolution

/-- A `.dynsym` entry together with the name its `st_name` points at. -/
structure Symbol where
  name : CString
  sym : Sym
  deriving DecidableEq

/-- The entry defines its name: an undefined entry only imports it. -/
def Symbol.Defined (s : Symbol) : Prop := s.sym.st_shndx ≠ SHN_UNDEF

instance (s : Symbol) : Decidable s.Defined := inferInstanceAs (Decidable (_ ≠ _))

/-- The sections of an object's file that symbol lookup reads, with the symbol
table they decode to. -/
structure ObjectFile where
  elf : Ehdr
  dynsym : List Byte
  dynstr : List Byte
  dynamic : List Byte
  symbols : List Symbol
  syms_eq : syms dynsym = symbols.map Symbol.sym
  names : ∀ s ∈ symbols, CString.read dynstr s.sym.st_name.toNat = .ok s.name
  count_lt : symbols.length < 2 ^ 31

/-- The file of that name has these sections. -/
structure ObjectFile.OnDisk (o : ObjectFile) (sys : System) (name : CString) : Prop where
  ehdr : get_elf_ehdr sys name = .ok o.elf
  dynsym : get_section sys o.elf name (.lit ".dynsym") = .ok (some o.dynsym)
  dynstr : get_section sys o.elf name (.lit ".dynstr") = .ok (some o.dynstr)
  dynamic : get_section sys o.elf name (.lit ".dynamic") = .ok (some o.dynamic)
  size : get_section_size sys o.elf name (.lit ".dynsym") = .ok (o.symbols.length : Int)

instance (o : ObjectFile) (sys : System) (name : CString) : Decidable (o.OnDisk sys name) :=
  decidable_of_iff (get_elf_ehdr sys name = .ok o.elf ∧
      get_section sys o.elf name (.lit ".dynsym") = .ok (some o.dynsym) ∧
      get_section sys o.elf name (.lit ".dynstr") = .ok (some o.dynstr) ∧
      get_section sys o.elf name (.lit ".dynamic") = .ok (some o.dynamic) ∧
      get_section_size sys o.elf name (.lit ".dynsym") = .ok (o.symbols.length : Int))
    ⟨fun ⟨ehdr, dynsym, dynstr, dynamic, size⟩ => ⟨ehdr, dynsym, dynstr, dynamic, size⟩,
      fun ⟨ehdr, dynsym, dynstr, dynamic, size⟩ => ⟨ehdr, dynsym, dynstr, dynamic, size⟩⟩

theorem ObjectFile.OnDisk.of_sameFile {o : ObjectFile} {sys' sys : System} {name : CString} (ho : o.OnDisk sys name)
    (h : System.SameFile sys' sys name) : o.OnDisk sys' name where
  ehdr := h.get_elf_ehdr_eq.trans ho.ehdr
  dynsym := (h.get_section_eq _ _).trans ho.dynsym
  dynstr := (h.get_section_eq _ _).trans ho.dynstr
  dynamic := (h.get_section_eq _ _).trans ho.dynamic
  size := (h.get_section_size_eq _ _).trans ho.size

namespace ObjectFile

variable {o : ObjectFile}

theorem syms_getElem? (i : Nat) : (syms o.dynsym)[i]? = (o.symbols[i]?).map Symbol.sym := by
  rw [o.syms_eq, List.getElem?_map]

/-- Comparing a name with the string of an entry decides whether it is the
entry's name. -/
theorem strcmp_symbol {s : Symbol} (hs : s ∈ o.symbols) (name : CString) :
    ∃ d, string.strcmp name.bytes (str_at (some o.dynstr) s.sym.st_name) = .ok d ∧ (d = 0 ↔ name = s.name) := by
  obtain ⟨rest, hrest⟩ := CString.read_eq_ok_iff.mp (o.names s hs)
  unfold str_at CString.bytes
  rw [Option.getD_some, hrest]
  exact string.strcmp_terminated name s.name [] rest

theorem size_t_count : size_t (o.symbols.length : Int) = o.symbols.length := by
  have hlt := o.count_lt
  unfold size_t
  rw [BitVec.ofInt_natCast, BitVec.toNat_ofNat]
  exact Nat.mod_eq_of_lt (by omega)

/-- The object's file with these sections and no others. -/
def content (o : ObjectFile) : List Byte :=
  image [] [⟨.lit ".dynsym", 0, o.dynsym⟩, ⟨.lit ".dynstr", 0, o.dynstr⟩, ⟨.lit ".dynamic", 0, o.dynamic⟩]

/-- The smallest file of use: next to the null symbol, its symbol table has one
entry. -/
def single (name : CString) (st_shndx : BitVec 16) (st_value : BitVec 64) (dynamic : List Dyn) : ObjectFile where
  elf := Ehdr.decode (image []
    [⟨.lit ".dynsym", 0, [⟨0, 0, 0, 0⟩, ⟨1, st_shndx, st_value, 0⟩].flatMap Sym.encode⟩,
      ⟨.lit ".dynstr", 0, 0#8 :: name.bytes⟩, ⟨.lit ".dynamic", 0, dynamic.flatMap Dyn.encode⟩])
  dynsym := [⟨0, 0, 0, 0⟩, ⟨1, st_shndx, st_value, 0⟩].flatMap Sym.encode
  dynstr := 0#8 :: name.bytes
  dynamic := dynamic.flatMap Dyn.encode
  symbols := [⟨.lit "", 0, 0, 0, 0⟩, ⟨name, 1, st_shndx, st_value, 0⟩]
  syms_eq := syms_encode _
  names := by
    intro s hs
    obtain rfl | rfl := List.mem_pair.mp hs
    · exact CString.read_eq_ok_iff.mpr ⟨name.bytes, rfl⟩
    · exact CString.read_eq_ok_iff.mpr ⟨[], rfl⟩
  count_lt := by simp

/-- The file of a symbol table, with the string table its names are read from. -/
def of_symbols (symbols : List Symbol) (dynstr : List Byte) (dynamic : List Dyn)
    (names : ∀ s ∈ symbols, CString.read dynstr s.sym.st_name.toNat = .ok s.name)
    (count_lt : symbols.length < 2 ^ 31) : ObjectFile where
  elf := Ehdr.decode (image []
    [⟨.lit ".dynsym", 0, (symbols.map Symbol.sym).flatMap Sym.encode⟩, ⟨.lit ".dynstr", 0, dynstr⟩,
      ⟨.lit ".dynamic", 0, dynamic.flatMap Dyn.encode⟩])
  dynsym := (symbols.map Symbol.sym).flatMap Sym.encode
  dynstr := dynstr
  dynamic := dynamic.flatMap Dyn.encode
  symbols := symbols
  syms_eq := syms_encode _
  names := names
  count_lt := count_lt

end ObjectFile

/-- Where a lookup that found `s` in this object sends its caller; 0 is a miss. -/
def LinkMap.addressOf (next : LinkMap) : Option Symbol → elf_addr
  | some s => s.sym.st_value + next.l_addr
  | none => 0

end ldso
