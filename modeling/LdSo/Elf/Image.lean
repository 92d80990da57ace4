import LdSo.Elf
import LdSo.Lib.CString

open cmodel

namespace ldso.elf

/-- A section to be placed in a file: its name, address and content. -/
structure Section where
  name : CString
  sh_addr : BitVec 64
  content : List Byte

def Phdr.encode (p : Phdr) : List Byte :=
  leBytes 4 p.p_type.toNat ++ leBytes 4 p.p_flags.toNat ++ leBytes 8 p.p_offset.toNat ++ leBytes 8 p.p_vaddr.toNat ++
    leBytes 8 p.p_vaddr.toNat ++ leBytes 8 p.p_filesz.toNat ++ leBytes 8 p.p_memsz.toNat ++ leBytes 8 4096

def Sym.encode (s : Sym) : List Byte :=
  leBytes 4 s.st_name.toNat ++ [0x12#8, 0#8] ++ leBytes 2 s.st_shndx.toNat ++ leBytes 8 s.st_value.toNat ++ leBytes 8 s.st_size.toNat

def Dyn.encode (d : Dyn) : List Byte := leBytes 8 d.d_tag.toNat ++ leBytes 8 d.d_val.toNat

def Rela.encode (r : Rela) : List Byte :=
  leBytes 8 r.r_offset.toNat ++ leBytes 8 r.r_info.toNat ++ leBytes 8 r.r_addend.toNat

theorem Sym.decode_encode (s : Sym) : Sym.decode s.encode = s := by
  have hname : field 32 s.encode 0 = s.st_name := by
    simpa only [Sym.encode, List.append_assoc] using field_leBytes (n := 32) rfl s.st_name _
  have hshndx : field 16 s.encode 6 = s.st_shndx := by
    simp only [Sym.encode, List.append_assoc]
    rw [field_append (by simp), field_append (by simp)]
    simpa using field_leBytes (n := 16) rfl s.st_shndx _
  have hvalue : field 64 s.encode 8 = s.st_value := by
    simp only [Sym.encode, List.append_assoc]
    rw [field_append (by simp), field_append (by simp), field_append (by simp)]
    simpa using field_leBytes (n := 64) rfl s.st_value _
  have hsize : field 64 s.encode 16 = s.st_size := by
    simp only [Sym.encode, List.append_assoc]
    rw [field_append (by simp), field_append (by simp), field_append (by simp), field_append (by simp)]
    simpa using field_leBytes (n := 64) rfl s.st_size []
  simp only [Sym.decode, hname, hshndx, hvalue, hsize]

/-- A symbol table is read back as it was written. -/
theorem syms_encode (table : List Sym) : syms (table.flatMap Sym.encode) = table := by
  unfold syms
  rw [records_flatMap (by decide) Sym.encode table fun s => by simp [Sym.encode], List.map_map]
  simp [Function.comp_def, Sym.decode_encode]

theorem Dyn.decode_encode (d : Dyn) : Dyn.decode d.encode = d := by
  have htag : field 64 d.encode 0 = d.d_tag := field_leBytes (n := 64) rfl d.d_tag _
  have hval : field 64 d.encode 8 = d.d_val := by
    unfold Dyn.encode
    rw [field_append (by simp)]
    simpa using field_leBytes (n := 64) rfl d.d_val []
  simp only [Dyn.decode, htag, hval]

theorem dyns_encode (table : List Dyn) : dyns (table.flatMap Dyn.encode) = table := by
  unfold dyns
  rw [records_flatMap (by decide) Dyn.encode table fun d => by simp [Dyn.encode], List.map_map]
  simp [Function.comp_def, Dyn.decode_encode]

theorem Rela.decode_encode (r : Rela) : Rela.decode r.encode = r := by
  have hoffset : field 64 r.encode 0 = r.r_offset := by
    simpa only [Rela.encode, List.append_assoc] using field_leBytes (n := 64) rfl r.r_offset _
  have hinfo : field 64 r.encode 8 = r.r_info := by
    simp only [Rela.encode, List.append_assoc]
    rw [field_append (by simp)]
    simpa using field_leBytes (n := 64) rfl r.r_info _
  have haddend : field 64 r.encode 16 = r.r_addend := by
    simp only [Rela.encode, List.append_assoc]
    rw [field_append (by simp), field_append (by simp)]
    simpa using field_leBytes (n := 64) rfl r.r_addend []
  simp only [Rela.decode, hoffset, hinfo, haddend]

theorem relas_encode (table : List Rela) : relas (table.flatMap Rela.encode) = table := by
  unfold relas
  rw [records_flatMap (by decide) Rela.encode table fun r => by simp [Rela.encode], List.map_map]
  simp [Function.comp_def, Rela.decode_encode]

/-- Section headers for sections stored one behind the other from file offset
`off`, their names from string table offset `str`. -/
def section_headers : Nat → Nat → List Section → List Byte
  | _, _, [] => []
  | off, str, s :: rest =>
    leBytes 4 str ++ leBytes 12 0 ++ leBytes 8 s.sh_addr.toNat ++ leBytes 8 off ++ leBytes 8 s.content.length ++
      leBytes 24 0 ++ section_headers (off + s.content.length) (str + s.name.bytes.length) rest

/-- A file in the order header, program headers, sections, section name table,
section headers. The name table is the last section. -/
def image (phdrs : List Phdr) (sections : List Section) : List Byte :=
  let shstrtab : CString := .lit ".shstrtab"
  let names := sections.flatMap (fun s => s.name.bytes) ++ shstrtab.bytes
  let all := sections ++ [⟨shstrtab, 0, names⟩]
  let data := all.flatMap Section.content
  let first := 64 + 56 * phdrs.length
  leBytes 4 0x464c457f ++ [2#8, 1#8, 1#8] ++ leBytes 25 0 ++ leBytes 8 64 ++ leBytes 8 (first + data.length) ++
    leBytes 8 0 ++ leBytes 2 phdrs.length ++ leBytes 2 64 ++ leBytes 2 all.length ++ leBytes 2 sections.length ++
    phdrs.flatMap Phdr.encode ++ data ++ section_headers first 0 all

end ldso.elf
