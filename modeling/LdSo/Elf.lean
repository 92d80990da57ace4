import LdSo.Lib.Bytes

open cmodel

namespace ldso.elf

def PT_NULL : BitVec 32 := 0
def PT_LOAD : BitVec 32 := 1
def PT_DYNAMIC : BitVec 32 := 2

def PF_X : BitVec 32 := 1
def PF_W : BitVec 32 := 2
def PF_R : BitVec 32 := 4

def SHN_UNDEF : BitVec 16 := 0

def DT_NULL : BitVec 64 := 0
def DT_NEEDED : BitVec 64 := 1
def DT_HASH : BitVec 64 := 4
def DT_RPATH : BitVec 64 := 15
def DT_DEBUG : BitVec 64 := 21
def DT_RUNPATH : BitVec 64 := 29
def DT_GNU_HASH : BitVec 64 := 0x6ffffef5

def AT_NULL : BitVec 32 := 0
def AT_BASE : BitVec 32 := 7
def AT_ENTRY : BitVec 32 := 9
def AT_EXECFN : BitVec 32 := 31
def AT_SYSINFO_EHDR : BitVec 32 := 33

def R_X86_64_COPY : BitVec 32 := 5
def R_X86_64_GLOB_DAT : BitVec 32 := 6
def R_X86_64_JUMP_SLOT : BitVec 32 := 7
def R_X86_64_RELATIVE : BitVec 32 := 8

/-- `Elf64_auxv_t`. -/
structure Auxv where
  a_type : BitVec 64
  a_val : BitVec 64
  deriving DecidableEq, Repr

/-- `Elf64_Ehdr`, the fields the loader reads. -/
structure Ehdr where
  e_phoff : BitVec 64
  e_shoff : BitVec 64
  e_phnum : BitVec 16
  e_shnum : BitVec 16
  e_shstrndx : BitVec 16
  deriving DecidableEq, Repr

def Ehdr.decode (b : List Byte) : Ehdr where
  e_phoff := field 64 b 32
  e_shoff := field 64 b 40
  e_phnum := field 16 b 56
  e_shnum := field 16 b 60
  e_shstrndx := field 16 b 62

/-- `Elf64_Phdr`. -/
structure Phdr where
  p_type : BitVec 32
  p_flags : BitVec 32
  p_offset : BitVec 64
  p_vaddr : BitVec 64
  p_filesz : BitVec 64
  p_memsz : BitVec 64
  deriving DecidableEq, Repr

def Phdr.decode (b : List Byte) : Phdr where
  p_type := field 32 b 0
  p_flags := field 32 b 4
  p_offset := field 64 b 8
  p_vaddr := field 64 b 16
  p_filesz := field 64 b 32
  p_memsz := field 64 b 40

/-- `Elf64_Shdr`. -/
structure Shdr where
  sh_name : BitVec 32
  sh_addr : BitVec 64
  sh_offset : BitVec 64
  sh_size : BitVec 64
  deriving DecidableEq, Repr

def Shdr.decode (b : List Byte) : Shdr where
  sh_name := field 32 b 0
  sh_addr := field 64 b 16
  sh_offset := field 64 b 24
  sh_size := field 64 b 32

/-- `Elf64_Sym`. -/
structure Sym where
  st_name : BitVec 32
  st_shndx : BitVec 16
  st_value : BitVec 64
  st_size : BitVec 64
  deriving DecidableEq, Repr

def Sym.decode (b : List Byte) : Sym where
  st_name := field 32 b 0
  st_shndx := field 16 b 6
  st_value := field 64 b 8
  st_size := field 64 b 16

/-- `Elf64_Dyn`. -/
structure Dyn where
  d_tag : BitVec 64
  d_val : BitVec 64
  deriving DecidableEq, Repr

def Dyn.decode (b : List Byte) : Dyn where
  d_tag := field 64 b 0
  d_val := field 64 b 8

/-- `Elf64_Rela`. -/
structure Rela where
  r_offset : BitVec 64
  r_info : BitVec 64
  r_addend : BitVec 64
  deriving DecidableEq, Repr

def Rela.decode (b : List Byte) : Rela where
  r_offset := field 64 b 0
  r_info := field 64 b 8
  r_addend := field 64 b 16

/-- `ELF64_R_TYPE`. -/
def Rela.type (r : Rela) : BitVec 32 := r.r_info.setWidth 32

/-- `ELF64_R_SYM`. -/
def Rela.sym (r : Rela) : BitVec 32 := (r.r_info >>> 32).setWidth 32

/-- The arrays a section's bytes decode to; a trailing partial record is not an entry. -/
def syms (buf : List Byte) : List Sym := (records 24 buf).map Sym.decode

def dyns (buf : List Byte) : List Dyn := (records 16 buf).map Dyn.decode

def relas (buf : List Byte) : List Rela := (records 24 buf).map Rela.decode

end ldso.elf
