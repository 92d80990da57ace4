import LdSo.ElfManipulation.Select
import LdSo.Elf.Image

open cmodel

namespace ldso.kernel

open elf utility

/-- The system calls that move in a file and read it: `lseek` returns the new
position or a negative error number, `none` is an error number of `read`. -/
structure Kernel where
  lseek : List Byte → BitVec 64 → BitVec 64
  read : List Byte → Nat → Nat → Option (List Byte)

/-- Every position in the file is reached, and every byte that the file has is delivered. -/
structure Kernel.Delivers (k : Kernel) : Prop where
  lseek (content : List Byte) (off : BitVec 64) : off.toNat ≤ content.length → k.lseek content off = off
  read (content : List Byte) (pos count : Nat) : k.read content pos count = some ((content.drop pos).take count)

/-- `err` is an `int`. -/
def xlseek (k : Kernel) (content : List Byte) (offset : BitVec 64) : Outcome Nat :=
  if ((k.lseek content offset).setWidth 32).toInt < 0 then .exit 1 else .ok offset.toNat

/-- `err` is an `int`. -/
def xread (k : Kernel) (content : List Byte) (pos count : Nat) : Outcome (List Byte) :=
  match k.read content pos count with
  | none => .exit 1
  | some bytes => if (BitVec.ofNat 32 bytes.length).toInt < 0 then .exit 1 else .ok bytes

section Functions

variable (k : Kernel) (sys : System)

def get_section_header (elf : Ehdr) (name : CString) : Outcome (List Shdr) := do
  let size := elf.e_shnum.toNat * 64
  let content ← xopen sys name
  xmalloc sys size
  let pos ← xlseek k content elf.e_shoff
  return (records 64 (← xread k content pos size)).map Shdr.decode

def section_bytes (name : CString) (shdr : Shdr) : Outcome (List Byte) := do
  let content ← xopen sys name
  xmalloc sys shdr.sh_size.toNat
  let pos ← xlseek k content shdr.sh_offset
  xread k content pos shdr.sh_size.toNat

def get_string_table (elf : Ehdr) (name : CString) : Outcome (List Byte) := do
  let shdr ← get_section_header k sys elf name
  let tmp ← Outcome.ofOption shdr[elf.e_shstrndx.toNat]?
  section_bytes k sys name tmp

def get_section (elf : Ehdr) (name elt : CString) : Outcome (Option (List Byte)) := do
  let shdr ← get_section_header k sys elf name
  let string_table ← get_string_table k sys elf name
  match ← elf_manipulation.find_section string_table elt elf.e_shnum.toNat shdr with
  | none => return none
  | some shdr =>
    let buf ← section_bytes k sys name shdr
    return some buf

end Functions

/-- Linux refuses positions that are negative numbers, and transfers at most
`0x7ffff000` bytes in one call. -/
def linux : Kernel where
  lseek _ offset := if offset.toInt < 0 then -22 else offset
  read content pos count := some ((content.drop pos).take (min count 0x7ffff000))

section Linux

theorem xlseek_linux (content : List Byte) (offset : BitVec 64) : xlseek linux content offset = utility.xlseek offset := by
  unfold xlseek utility.xlseek
  by_cases hneg : offset.toInt < 0
  · have herr : linux.lseek content offset = -22 := if_pos hneg
    rw [herr, if_pos (by decide), if_pos (.inl hneg)]
  · have hpos : linux.lseek content offset = offset := if_neg hneg
    simp only [hpos, hneg, false_or]

theorem xread_linux (content : List Byte) (pos count : Nat) :
    xread linux content pos count = .ok (utility.xread content pos count) := by
  have hlength : (utility.xread content pos count).length ≤ 0x7ffff000 := by
    rw [utility.xread, List.length_take]
    omega
  have hint : ¬ (BitVec.ofNat 32 (utility.xread content pos count).length).toInt < 0 := by
    rw [toInt_ofNat_of_lt] <;> omega
  exact if_neg hint

/-- On Linux these are the functions that the loader runs. -/
theorem get_section_linux (sys : System) (elf : Ehdr) (name elt : CString) :
    get_section linux sys elf name elt = elf_manipulation.get_section sys elf name elt := by
  have hheader : get_section_header linux sys elf name = elf_manipulation.get_section_header sys elf name := by
    simp only [get_section_header, elf_manipulation.get_section_header, xlseek_linux, xread_linux, Outcome.ok_bind]
  have hbytes : section_bytes linux sys name = elf_manipulation.section_bytes sys name := by
    funext shdr
    simp only [section_bytes, elf_manipulation.section_bytes, xlseek_linux, xread_linux, Outcome.pure_eq]
  rw [get_section, get_string_table, hheader, hbytes]
  rfl

end Linux

/-- The low word is no negative `int`. -/
def FitsInt (n : Nat) : Prop := n % 2 ^ 32 < 2 ^ 31

instance (n : Nat) : Decidable (FitsInt n) := inferInstanceAs (Decidable (_ < _))

/-- The section can be allocated and read. -/
structure Readable (sys : System) (content : List Byte) (shdr : Shdr) : Prop where
  room : sys.malloc shdr.sh_size.toNat = true
  offset : FitsInt shdr.sh_offset.toNat
  length : FitsInt (section_data content shdr).length

/-- The file counts its sections in the ELF header and has a table of names, and all
that is looked for lies where an `int` is no obstacle. -/
structure Reads (sys : System) (content : List Byte) (elt : CString) : Prop where
  counted : (Ehdr.decode content).e_shnum ≠ 0
  indexed : section_names_index content ≠ 0
  room : sys.malloc ((Ehdr.decode content).e_shnum.toNat * 64) = true
  table : FitsInt (Ehdr.decode content).e_shoff.toNat
  names : Readable sys content (section_at content (section_names_index content))
  found (shdr : Shdr) : named_section content elt = some shdr → Readable sys content shdr

section Delivered

variable {k : Kernel} {sys : System} {name elt : CString} {content : List Byte}

theorem not_toInt_neg_iff (n : Nat) : ¬ (BitVec.ofNat 32 n).toInt < 0 ↔ FitsInt n := by
  unfold FitsInt
  rw [BitVec.toInt_eq_toNat_cond, BitVec.toNat_ofNat]
  split <;> omega

theorem xlseek_eq_ok_iff (hk : k.Delivers) {offset : BitVec 64} (hoff : offset.toNat ≤ content.length) {pos : Nat} :
    xlseek k content offset = .ok pos ↔ FitsInt offset.toNat ∧ offset.toNat = pos := by
  have hlow : (offset.setWidth 32) = BitVec.ofNat 32 offset.toNat := rfl
  rw [xlseek, hk.lseek content offset hoff, hlow, Outcome.ite_exit_eq_ok_iff, not_toInt_neg_iff]

theorem xread_eq_ok_iff (hk : k.Delivers) {pos count : Nat} {bytes : List Byte} :
    xread k content pos count = .ok bytes ↔
      FitsInt ((content.drop pos).take count).length ∧ (content.drop pos).take count = bytes := by
  rw [xread, hk.read, ← not_toInt_neg_iff]
  exact Outcome.ite_exit_eq_ok_iff

theorem section_bytes_eq_ok_iff (hk : k.Delivers) (hfile : sys.file name = some content) {shdr : Shdr}
    (hplaced : shdr.sh_offset.toNat ≤ content.length) {bytes : List Byte} :
    section_bytes k sys name shdr = .ok bytes ↔ Readable sys content shdr ∧ section_data content shdr = bytes := by
  rw [section_bytes, xopen_of_file hfile, Outcome.ok_bind]
  constructor
  · intro h
    obtain ⟨⟨⟩, hroom, h⟩ := Outcome.bind_eq_ok_iff.mp h
    obtain ⟨pos, hseek, h⟩ := Outcome.bind_eq_ok_iff.mp h
    obtain ⟨hoff, rfl⟩ := (xlseek_eq_ok_iff hk hplaced).mp hseek
    obtain ⟨hlength, hbytes⟩ := (xread_eq_ok_iff hk).mp h
    exact ⟨⟨xmalloc_eq_ok_iff.mp hroom, hoff, hlength⟩, hbytes⟩
  · rintro ⟨hread, hbytes⟩
    rw [xmalloc_eq_ok_iff.mpr hread.room, Outcome.ok_bind, (xlseek_eq_ok_iff hk hplaced).mpr ⟨hread.offset, rfl⟩,
      Outcome.ok_bind, (xread_eq_ok_iff hk).mpr ⟨hread.length, hbytes⟩]

theorem get_section_header_eq_ok_iff (hk : k.Delivers) (hfile : sys.file name = some content) (hwf : WellFormed content)
    (hcount : (Ehdr.decode content).e_shnum ≠ 0) {headers : List Shdr} :
    get_section_header k sys (Ehdr.decode content) name = .ok headers ↔
      sys.malloc ((Ehdr.decode content).e_shnum.toNat * 64) = true ∧ FitsInt (Ehdr.decode content).e_shoff.toNat ∧
        sections content = headers := by
  have hoff := hwf.table_le hcount
  have hshort : FitsInt ((content.drop (Ehdr.decode content).e_shoff.toNat).take
      ((Ehdr.decode content).e_shnum.toNat * 64)).length := by
    have hshnum := (Ehdr.decode content).e_shnum.isLt
    rw [FitsInt, List.length_take, List.length_drop]
    omega
  rw [get_section_header, xopen_of_file hfile, Outcome.ok_bind]
  constructor
  · intro h
    obtain ⟨⟨⟩, hroom, h⟩ := Outcome.bind_eq_ok_iff.mp h
    obtain ⟨pos, hseek, h⟩ := Outcome.bind_eq_ok_iff.mp h
    obtain ⟨hfits, rfl⟩ := (xlseek_eq_ok_iff hk (by omega)).mp hseek
    obtain ⟨bytes, hread, h⟩ := Outcome.bind_eq_ok_iff.mp h
    obtain ⟨-, rfl⟩ := (xread_eq_ok_iff hk).mp hread
    cases h
    exact ⟨xmalloc_eq_ok_iff.mp hroom, hfits, (hwf.sections_read hcount).symm⟩
  · rintro ⟨hroom, hfits, rfl⟩
    rw [xmalloc_eq_ok_iff.mpr hroom, Outcome.ok_bind, (xlseek_eq_ok_iff hk (by omega)).mpr ⟨hfits, rfl⟩, Outcome.ok_bind,
      (xread_eq_ok_iff hk).mpr ⟨hshort, rfl⟩, Outcome.ok_bind, hwf.sections_read hcount]
    rfl

theorem get_string_table_eq_ok_iff (hk : k.Delivers) (hfile : sys.file name = some content) (hwf : WellFormed content)
    (hcount : (Ehdr.decode content).e_shnum ≠ 0) {table : List Byte} :
    get_string_table k sys (Ehdr.decode content) name = .ok table ↔
      (sys.malloc ((Ehdr.decode content).e_shnum.toNat * 64) = true ∧ FitsInt (Ehdr.decode content).e_shoff.toNat) ∧
        Readable sys content (section_at content (section_names_index content)) ∧
        section_data content (section_at content (section_names_index content)) = table := by
  have hindex := hwf.names_index_lt hcount
  have hnames : (sections content)[(Ehdr.decode content).e_shstrndx.toNat]? =
      some (section_at content (section_names_index content)) := by
    rw [← hwf.names_index_eq hcount, sections, List.getElem?_map, List.getElem?_range hindex]
    rfl
  have hplaced := hwf.placed _ (WellFormed.section_mem hindex)
  rw [get_string_table]
  constructor
  · intro h
    obtain ⟨headers, hheaders, h⟩ := Outcome.bind_eq_ok_iff.mp h
    obtain ⟨hroom, hfits, rfl⟩ := (get_section_header_eq_ok_iff hk hfile hwf hcount).mp hheaders
    rw [hnames, Outcome.ofOption_some, Outcome.ok_bind] at h
    exact ⟨⟨hroom, hfits⟩, (section_bytes_eq_ok_iff hk hfile hplaced).mp h⟩
  · rintro ⟨⟨hroom, hfits⟩, h⟩
    rw [(get_section_header_eq_ok_iff hk hfile hwf hcount).mpr ⟨hroom, hfits, rfl⟩, Outcome.ok_bind, hnames,
      Outcome.ofOption_some, Outcome.ok_bind]
    exact (section_bytes_eq_ok_iff hk hfile hplaced).mpr h

/-- A file without a section count in its header has nothing where the header of the
name table is looked for. -/
theorem get_string_table_uncounted (hk : k.Delivers) (hfile : sys.file name = some content)
    (hcount : (Ehdr.decode content).e_shnum = 0) (table : List Byte) :
    get_string_table k sys (Ehdr.decode content) name ≠ .ok table := by
  intro h
  obtain ⟨headers, hheaders, h⟩ := Outcome.bind_eq_ok_iff.mp h
  obtain ⟨shdr, hshdr, -⟩ := Outcome.bind_eq_ok_iff.mp h
  rw [get_section_header, xopen_of_file hfile, Outcome.ok_bind, hcount] at hheaders
  obtain ⟨⟨⟩, -, hheaders⟩ := Outcome.bind_eq_ok_iff.mp hheaders
  obtain ⟨pos, -, hheaders⟩ := Outcome.bind_eq_ok_iff.mp hheaders
  obtain ⟨bytes, hread, hheaders⟩ := Outcome.bind_eq_ok_iff.mp hheaders
  obtain ⟨-, rfl⟩ := (xread_eq_ok_iff hk).mp hread
  cases hheaders
  simp [records] at hshdr

/-- `get_section` finds the first section that has the name, with its bytes in the
file, exactly when the section headers, their names and that section can be reached
through the wrappers of `lseek` and `read`. -/
theorem get_section_iff_reads (hk : k.Delivers) (hfile : sys.file name = some content) (hwf : WellFormed content) :
    get_section k sys (Ehdr.decode content) name elt =
        .ok ((named_section content elt).map (section_data content)) ↔
      Reads sys content elt := by
  have hfirst : ∀ shdr, named_section content elt = some shdr → shdr.sh_offset.toNat ≤ content.length :=
    fun shdr hfound => hwf.placed shdr (List.mem_of_find?_eq_some hfound)
  constructor
  · intro h
    obtain ⟨headers, hheaders, h⟩ := Outcome.bind_eq_ok_iff.mp h
    obtain ⟨table, htable, h⟩ := Outcome.bind_eq_ok_iff.mp h
    obtain ⟨found, hfound, h⟩ := Outcome.bind_eq_ok_iff.mp h
    have hcount : (Ehdr.decode content).e_shnum ≠ 0 := fun hzero =>
      get_string_table_uncounted hk hfile hzero table htable
    obtain ⟨hroom, hfits, rfl⟩ := (get_section_header_eq_ok_iff hk hfile hwf hcount).mp hheaders
    obtain ⟨-, hnames, rfl⟩ := (get_string_table_eq_ok_iff hk hfile hwf hcount).mp htable
    have hindex : section_names_index content ≠ 0 := fun hzero =>
      elf_manipulation.find_section_unnamed hwf hcount hzero found hfound
    rw [← WellFormed.sections_length hcount, elf_manipulation.find_section_sections hwf hindex] at hfound
    cases hfound
    refine ⟨hcount, hindex, hroom, hfits, hnames, ?_⟩
    intro shdr hshdr
    rw [hshdr] at h
    obtain ⟨bytes, hbytes, -⟩ := Outcome.bind_eq_ok_iff.mp h
    exact ((section_bytes_eq_ok_iff hk hfile (hfirst shdr hshdr)).mp hbytes).1
  · intro h
    rw [get_section, (get_section_header_eq_ok_iff hk hfile hwf h.counted).mpr ⟨h.room, h.table, rfl⟩, Outcome.ok_bind,
      (get_string_table_eq_ok_iff hk hfile hwf h.counted).mpr ⟨⟨h.room, h.table⟩, h.names, rfl⟩, Outcome.ok_bind,
      ← WellFormed.sections_length h.counted, elf_manipulation.find_section_sections hwf h.indexed, Outcome.ok_bind]
    cases hshdr : named_section content elt with
    | none => rfl
    | some shdr =>
      have hbytes := (section_bytes_eq_ok_iff hk hfile (hfirst shdr hshdr)).mpr ⟨h.found shdr hshdr, rfl⟩
      dsimp only
      rw [hbytes]
      rfl

end Delivered

/-- A kernel that transfers whatever is asked for in one call. -/
def unlimited : Kernel where
  lseek _ offset := offset
  read content pos count := some ((content.drop pos).take count)

theorem unlimited_delivers : unlimited.Delivers := ⟨fun _ _ _ => rfl, fun _ _ _ => rfl⟩

/-- A file with one named section. -/
def one_section : List Byte := image [] [⟨.lit "", 0, []⟩, ⟨.lit ".dynsym", 0, Sym.encode ⟨0, 0, 0, 0⟩⟩]

theorem one_section_wellFormed : WellFormed one_section := by
  have hnamed : ∀ shdr ∈ sections one_section, (section_name one_section shdr).isSome := by decide +kernel
  constructor
  case named => exact fun _ shdr hshdr => Option.isSome_iff_exists.mp (hnamed shdr hshdr)
  all_goals decide +kernel

theorem get_section_iff_reads_one :
    get_section unlimited (.of_files [(.lit "a.so", one_section)]) (Ehdr.decode one_section) (.lit "a.so") (.lit ".dynsym") =
      .ok ((named_section one_section (.lit ".dynsym")).map (section_data one_section)) := by
  have hfound : named_section one_section (.lit ".dynsym") = some (section_at one_section 1) := by decide +kernel
  rw [get_section_iff_reads unlimited_delivers System.of_files_file_head one_section_wellFormed]
  refine ⟨by decide +kernel, by decide +kernel, rfl, by decide +kernel, ⟨rfl, by decide +kernel, by decide +kernel⟩, ?_⟩
  intro shdr hshdr
  rw [hfound] at hshdr
  cases hshdr
  exact ⟨rfl, by decide +kernel, by decide +kernel⟩

/-- The ELF header of a file whose section headers begin at `2 ^ 31`. -/
def far_header : List Byte :=
  leBytes 4 0x464c457f ++ [2#8, 1#8, 1#8] ++ leBytes 33 0 ++ leBytes 8 (2 ^ 31) ++ leBytes 10 0 ++ leBytes 2 64 ++
    leBytes 2 2 ++ leBytes 2 1

/-- The empty section and the table of names, which is the byte behind the ELF header. -/
def far_sections : List Byte := leBytes 64 0 ++ leBytes 24 0 ++ leBytes 8 64 ++ leBytes 8 1 ++ leBytes 24 0

def far_file (gap : Nat) : List Byte := far_header ++ (List.replicate (gap + 1) 0#8 ++ far_sections)

section Far

variable {gap : Nat}

theorem far_field {n off : Nat} (hoff : off + n / 8 ≤ 64) : field n (far_file gap) off = field n far_header off :=
  field_append_left hoff

theorem far_ehdr : Ehdr.decode (far_file gap) = ⟨0, 2 ^ 31, 0, 2, 1⟩ := by
  rw [Ehdr.decode, far_field (by decide), far_field (by decide), far_field (by decide), far_field (by decide),
    far_field (by decide)]
  decide

theorem far_section_at (hgap : gap + 65 = 2 ^ 31) (i : Nat) :
    section_at (far_file gap) i = Shdr.decode ((far_sections.drop (64 * i)).take 64) := by
  have hfront : (far_header ++ List.replicate (gap + 1) 0#8).length = 2 ^ 31 := by
    rw [List.length_append, List.length_replicate, ← hgap, show far_header.length = 64 from rfl]
    omega
  rw [section_at, far_ehdr, far_file, ← List.append_assoc, show (2 ^ 31 : BitVec 64).toNat = 2 ^ 31 from rfl, ← hfront,
    List.drop_length_add_append]

theorem far_count : section_count (far_file gap) = 2 := by
  rw [WellFormed.sections_eq] <;> rw [far_ehdr] <;> decide

theorem far_sections_eq (hgap : gap + 65 = 2 ^ 31) : sections (far_file gap) = [⟨0, 0, 0, 0⟩, ⟨0, 0, 64, 1⟩] := by
  rw [sections, far_count]
  simp only [List.range, List.range.loop, List.map_cons, List.map_nil, far_section_at hgap]
  decide

theorem far_names_index : section_names_index (far_file gap) = 1 := by
  rw [section_names_index, far_ehdr]
  rfl

theorem far_names (hgap : gap + 65 = 2 ^ 31) :
    section_data (far_file gap) (section_at (far_file gap) (section_names_index (far_file gap))) = [0#8] := by
  rw [far_names_index, far_section_at hgap, show Shdr.decode ((far_sections.drop (64 * 1)).take 64) = ⟨0, 0, 64, 1⟩ by decide,
    section_data, far_file]
  exact congrArg (List.take 1) (@List.drop_left Byte far_header _)

theorem far_length (hgap : gap + 65 = 2 ^ 31) : (far_file gap).length = 2 ^ 31 + 128 := by
  rw [far_file, List.length_append, List.length_append, List.length_replicate, show far_header.length = 64 from rfl,
    show far_sections.length = 128 from rfl]
  omega

theorem far_section_name (hgap : gap + 65 = 2 ^ 31) : ∀ shdr ∈ sections (far_file gap),
    section_name (far_file gap) shdr = some (.lit "") := by
  intro shdr hshdr
  have hname : shdr.sh_name = 0 := by
    rw [far_sections_eq hgap] at hshdr
    simp only [List.mem_cons, List.not_mem_nil, or_false] at hshdr
    obtain rfl | rfl := hshdr <;> rfl
  rw [section_name_eq_some_iff (by rw [far_names_index]; decide), far_names hgap, hname]
  decide

theorem far_wellFormed (hgap : gap + 65 = 2 ^ 31) : WellFormed (far_file gap) where
  header := by
    rw [far_length hgap]
    omega
  shentsize _ := by
    rw [far_field (by decide)]
    decide
  shnum := by
    rw [far_ehdr]
    decide
  table _ := by
    rw [far_ehdr, far_count, far_length hgap]
    decide
  null _ := by
    rw [far_section_at hgap]
    decide
  shstrndx _ := by
    rw [far_ehdr]
    decide
  placed shdr hshdr := by
    rw [far_sections_eq hgap] at hshdr
    simp only [List.mem_cons, List.not_mem_nil, or_false] at hshdr
    rw [far_length hgap]
    obtain rfl | rfl := hshdr <;> decide
  named _ shdr hshdr := ⟨_, far_section_name hgap shdr hshdr⟩

end Far

/-- The section headers lie inside the file and no section has the name, but the
search for it ends the process. -/
theorem get_section_far :
    WellFormed (far_file 2147483583) ∧
    (Ehdr.decode (far_file 2147483583)).e_shoff.toNat < (far_file 2147483583).length ∧
    named_section (far_file 2147483583) (.lit ".dynsym") = none ∧
    get_section unlimited (.of_files [(.lit "a.so", far_file 2147483583)]) (Ehdr.decode (far_file 2147483583))
      (.lit "a.so") (.lit ".dynsym") = .exit 1 := by
  have hgap : 2147483583 + 65 = 2 ^ 31 := by decide
  refine ⟨far_wellFormed hgap, ?_, ?_, ?_⟩
  · rw [far_ehdr, far_length hgap]
    decide
  · rw [named_section, List.find?_eq_none]
    intro shdr hshdr
    rw [far_section_name hgap shdr hshdr]
    decide
  · have hseek : xlseek unlimited (far_file 2147483583) (2 ^ 31) = .exit 1 := if_pos (by decide)
    rw [get_section, get_section_header, xopen_of_file System.of_files_file_head, Outcome.ok_bind, far_ehdr, hseek]
    rfl

end ldso.kernel
