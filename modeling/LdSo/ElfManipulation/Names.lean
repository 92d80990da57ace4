import LdSo.ElfManipulation
import LdSo.Elf.Image
import LdSo.Libc.Heap

open cmodel

/-! The names that are copied out of an object's string table, and what becomes of their
terminators: neither `strdup` nor `strcat` writes one. -/

namespace ldso.heap

open elf elf_manipulation

def strdup (sys : System) (heap : Heap) (s : Pointer) (m : Blocks) : Outcome (Pointer × Blocks) := do
  let len := BitVec.ofNat 32 (← strlen m s)
  let (res, m) ← calloc sys heap (len.signExtend 64) 2 m
  memcpy res s (len.signExtend 64).toNat m

/-- What `get_section` returns, in the process's memory. -/
def place_section (sect : Option (List Byte)) (m : Blocks) : Pointer × Blocks :=
  match sect with
  | none => (.null, m)
  | some content => (m.fresh, m.alloc content)

/-- The name of `.dynsym` entry `index`, copied from the object's string table. -/
def name_from_dynsim_index (sys : System) (heap : Heap) (elf : Ehdr) (name : CString) (index : BitVec 32) (m : Blocks) :
    Outcome (Pointer × Blocks) := do
  let symbolic ← get_section sys elf name (.lit ".dynsym")
  let (dynstr, m) := place_section (← get_section sys elf name (.lit ".dynstr")) m
  let sym ← Outcome.ofOption (symbolic.bind fun symbolic => (syms symbolic)[index.toInt.toNat]?)
  strdup sys heap (dynstr.add sym.st_name.toNat) m

/-- What `strdup` needs of a string: its terminator is a byte of the second copy of
`strlen` bytes that `calloc` clears. -/
def Duplicable (sys : System) (text : CString) : Prop :=
  text.chars ≠ [] ∧ text.chars.length < 2 ^ 31 ∧ Granted sys (2 * text.chars.length)

instance (sys : System) (text : CString) : Decidable (Duplicable sys text) := inferInstanceAs (Decidable (_ ∧ _))

variable {sys : System} {heap : Heap} {m : Blocks} {text : CString}

/-- The length as `calloc` and `memcpy` are given it. -/
theorem signExtend_toNat {n : Nat} (h : n < 2 ^ 31) : ((BitVec.ofNat 32 n).signExtend 64).toNat = n := by
  have hmsb : (BitVec.ofNat 32 n).msb = false := by
    rw [BitVec.msb_eq_false_iff_two_mul_lt, BitVec.toNat_ofNat]
    omega
  rw [BitVec.signExtend_eq_setWidth_of_msb_false hmsb, BitVec.toNat_setWidth, BitVec.toNat_ofNat]
  omega

/-- A length that the `int` does not hold is never given enough bytes: it is cut, or
it turns negative and `calloc` refuses it. -/
theorem lt_of_requested {n : Nat} (hgranted : Granted sys (((BitVec.ofNat 32 n).signExtend 64).toNat * 2))
    (hroom : n < ((BitVec.ofNat 32 n).signExtend 64).toNat * 2) : n < 2 ^ 31 := by
  have hlt : ((BitVec.ofNat 32 n).signExtend 64).toNat * 2 < 2 ^ 64 - 128 := hgranted.1
  cases hmsb : (BitVec.ofNat 32 n).msb with
  | false =>
    have hsmall := BitVec.msb_eq_false_iff_two_mul_lt.mp hmsb
    rw [BitVec.signExtend_eq_setWidth_of_msb_false hmsb, BitVec.toNat_setWidth] at hroom
    rw [BitVec.toNat_ofNat] at hroom hsmall
    omega
  | true =>
    rw [BitVec.toNat_signExtend, hmsb, if_pos rfl] at hlt
    omega

/-- The copy is followed by as many cleared bytes as it is long. -/
theorem strdup_eq {s : Pointer} (hs : m.Holds s text.bytes) (hlen : text.chars.length < 2 ^ 31)
    (hgranted : Granted sys (2 * text.chars.length)) : strdup sys heap s m =
      .ok (m.fresh, m.alloc (text.chars ++ List.replicate text.chars.length 0#8 ++ heap.slack)) := by
  have htwo : text.chars.length * (2 : BitVec 64).toNat = text.chars.length + text.chars.length := Nat.mul_two _
  rw [Nat.two_mul] at hgranted
  rw [strdup, strlen_of_holds hs, Outcome.ok_bind]
  simp only
  rw [calloc_eq, signExtend_toNat hlen, htwo, if_pos hgranted, Outcome.ok_bind, ← List.replicate_append_replicate,
    List.append_assoc]
  simp only
  rw [memcpy_fresh hs (by simp), List.append_assoc]

/-- A run that returns a block was granted what it asked for, and only stored in it. -/
theorem strdup_eq_ok {s : Pointer} {m' : Blocks} (hs : m.Holds s text.bytes)
    (h : strdup sys heap s m = .ok (m.fresh, m')) :
    Granted sys (((BitVec.ofNat 32 text.chars.length).signExtend 64).toNat * 2) ∧
      (m.alloc (List.replicate (((BitVec.ofNat 32 text.chars.length).signExtend 64).toNat * 2) 0#8 ++
        heap.slack)).Stored m' := by
  rw [strdup, strlen_of_holds hs, Outcome.ok_bind] at h
  simp only [calloc_eq] at h
  split at h
  · next hgranted =>
    exact ⟨hgranted, (memcpy_eq_ok h).2⟩
  · rw [Outcome.ok_bind] at h
    exact Pointer.noConfusion (memcpy_eq_ok h).1

theorem strdup_returns_iff {s : Pointer} (hs : m.Holds s text.bytes) :
    Returns heap m text (strdup sys heap s m) ↔ Duplicable sys text := by
  constructor
  · rintro ⟨requested, hrun, hbytes⟩
    obtain ⟨hgranted, hstored⟩ := strdup_eq_ok hs hrun
    have hlength := requested_length hstored
    have hroom := hbytes.length_le
    rw [hlength, CString.bytes, List.length_append, List.length_singleton] at hroom
    have hlen := lt_of_requested hgranted hroom
    rw [signExtend_toNat hlen] at hgranted hroom
    refine ⟨?_, hlen, ?_⟩
    · intro hempty
      rw [hempty, List.length_nil] at hroom
      omega
    · rwa [Nat.mul_comm]
  · rintro ⟨hne, hlen, hgranted⟩
    exact ⟨_, strdup_eq hs hlen hgranted, text.bytes_prefix_zeros (List.length_pos_iff.mpr hne)⟩

/-- `strcat` leaves the byte behind the two strings as it was. -/
theorem strcat_terminated_iff {dest src : Pointer} {front : CString} (hdest : m.Holds dest front.bytes)
    (hsrc : m.Holds src text.bytes) (hroom : front.chars.length + text.chars.length < (m.bytes dest).length)
    (hapart : src.Apart text.bytes.length (dest.add front.chars.length) text.chars.length) :
    (∃ m', strcat dest src m = .ok (dest, m') ∧ m'.Holds dest (front.append text).bytes) ↔
      (m.bytes dest)[front.chars.length + text.chars.length]? = some 0#8 := by
  obtain ⟨m', hwrite, hbytes⟩ := Blocks.write_add (Nat.le_of_lt hroom)
  obtain ⟨rest, hrest⟩ := hdest
  have htake : (m.bytes dest).take front.chars.length = front.chars := by
    rw [← hrest, CString.bytes, List.append_assoc, List.take_left]
  rw [htake] at hbytes
  have hrun : strcat dest src m = .ok (dest, m') := by
    rw [strcat_eq ⟨rest, hrest⟩ hsrc hroom hapart, hwrite, Outcome.ok_bind]
  have hholds : m'.Holds dest (front.append text).bytes ↔
      (m.bytes dest)[front.chars.length + text.chars.length]? = some 0#8 := by
    rw [Blocks.Holds, hbytes, CString.bytes, CString.append_chars, List.prefix_append_right_inj,
      List.singleton_prefix_iff_head?_eq_some, List.head?_drop]
  rw [hrun, ← hholds]
  constructor
  · rintro ⟨_, heq, hterminated⟩
    cases heq
    exact hterminated
  · exact fun hterminated => ⟨m', rfl, hterminated⟩

/-- A string at an offset of a table that was placed in memory. -/
theorem holds_place_section {strtab : List Byte} {off : Nat} (hread : CString.read strtab off = .ok text) :
    (m.alloc strtab).Holds (m.fresh.add off) text.bytes := by
  obtain ⟨rest, hrest⟩ := CString.read_eq_ok_iff.mp hread
  rw [Blocks.Holds, Blocks.bytes_add, Blocks.bytes_alloc_fresh, hrest, CString.bytes]
  exact ⟨rest, by rw [List.append_assoc]; rfl⟩

/-- What is copied is the name that the object's tables give to the entry. -/
theorem name_from_dynsim_index_eq {elf : Ehdr} {name : CString} {index : BitVec 32} {symtab strtab : List Byte} {sym : Sym}
    (hsymtab : get_section sys elf name (.lit ".dynsym") = .ok (some symtab))
    (hsym : (syms symtab)[index.toInt.toNat]? = some sym)
    (hstrtab : get_section sys elf name (.lit ".dynstr") = .ok (some strtab)) :
    name_from_dynsim_index sys heap elf name index m =
      strdup sys heap (m.fresh.add sym.st_name.toNat) (m.alloc strtab) := by
  rw [name_from_dynsim_index, hsymtab, Outcome.ok_bind, hstrtab, Outcome.ok_bind]
  simp only [place_section, Option.bind_some, hsym, Outcome.ofOption_some, Outcome.ok_bind]

/-- On strings alone this is `utility.strdup`: for the empty one the copy is what the
zero-byte allocation holds. -/
theorem strdup_string_eq {s : Pointer} (hs : m.Holds s text.bytes) (hstale : heap.slack = sys.stale)
    (hlen : text.chars.length < 2 ^ 31) (hgranted : Granted sys (2 * text.chars.length)) :
    (strdup sys heap s m >>= fun r => r.2.string r.1) = utility.strdup sys text := by
  by_cases hempty : text.chars = []
  · rw [strdup_eq hs hlen hgranted, Outcome.ok_bind, Blocks.string, Blocks.bytes_alloc_fresh, utility.strdup,
      if_pos hempty, hempty, hstale, List.length_nil, List.replicate_zero, List.nil_append, List.nil_append]
  · rw [utility.strdup_of_ne_nil hempty]
    exact ((strdup_returns_iff hs).mpr ⟨hempty, hlen, hgranted⟩).string_eq

theorem name_from_dynsim_index_string_eq {elf : Ehdr} {name : CString} {index : BitVec 32} {symtab strtab : List Byte}
    {sym : Sym} (hsymtab : get_section sys elf name (.lit ".dynsym") = .ok (some symtab))
    (hsym : (syms symtab)[index.toInt.toNat]? = some sym)
    (hstrtab : get_section sys elf name (.lit ".dynstr") = .ok (some strtab))
    (hread : CString.read strtab sym.st_name.toNat = .ok text) (hstale : heap.slack = sys.stale)
    (hlen : text.chars.length < 2 ^ 31) (hgranted : Granted sys (2 * text.chars.length)) :
    (name_from_dynsim_index sys heap elf name index m >>= fun r => r.2.string r.1) =
      elf_manipulation.name_from_dynsim_index sys elf name index := by
  rw [name_from_dynsim_index_eq hsymtab hsym hstrtab, strdup_string_eq (holds_place_section hread) hstale hlen hgranted,
    elf_manipulation.name_from_dynsim_index, hsymtab, Outcome.ok_bind, Outcome.ofOption_some, Outcome.ok_bind, hsym,
    Outcome.ofOption_some, Outcome.ok_bind, hstrtab, Outcome.ok_bind, Outcome.ofOption_some, Outcome.ok_bind, hread,
    Outcome.ok_bind]

/-- Exactly when the copies are the strings they are copies of. -/
theorem helpers_terminate_iff (sys : System) (heap : Heap) :
    (∀ (m : Blocks) (s : Pointer) (text : CString), m.Holds s text.bytes →
      (Returns heap m text (strdup sys heap s m) ↔ Duplicable sys text)) ∧
    (∀ (m : Blocks) (dest src : Pointer) (front text : CString), m.Holds dest front.bytes → m.Holds src text.bytes →
      front.chars.length + text.chars.length < (m.bytes dest).length →
      src.Apart text.bytes.length (dest.add front.chars.length) text.chars.length →
      ((∃ m', strcat dest src m = .ok (dest, m') ∧ m'.Holds dest (front.append text).bytes) ↔
        (m.bytes dest)[front.chars.length + text.chars.length]? = some 0#8)) ∧
    (∀ (m : Blocks) (elf : Ehdr) (name : CString) (index : BitVec 32) (symtab strtab : List Byte) (sym : Sym)
      (text : CString), get_section sys elf name (.lit ".dynsym") = .ok (some symtab) →
      (syms symtab)[index.toInt.toNat]? = some sym → get_section sys elf name (.lit ".dynstr") = .ok (some strtab) →
      CString.read strtab sym.st_name.toNat = .ok text →
      (Returns heap (m.alloc strtab) text (name_from_dynsim_index sys heap elf name index m) ↔ Duplicable sys text)) := by
  refine ⟨fun m s text => strdup_returns_iff, fun m dest src front text => strcat_terminated_iff, ?_⟩
  intro m elf name index symtab strtab sym text hsymtab hsym hstrtab hread
  rw [name_from_dynsim_index_eq hsymtab hsym hstrtab]
  exact strdup_returns_iff (holds_place_section hread)

/-- A file with the null symbol and one named symbol. -/
def named_symbol : List Byte :=
  image [] [⟨.lit ".dynsym", 0, [⟨0, 0, 0, 0⟩, ⟨1, 1, 0x40, 8⟩].flatMap Sym.encode⟩,
    ⟨.lit ".dynstr", 0, 0#8 :: (CString.lit "f").bytes⟩]

def named_system : System := .of_files [(.lit "a.so", named_symbol)]

theorem named_symbol_read :
    get_section named_system (Ehdr.decode named_symbol) (.lit "a.so") (.lit ".dynsym") =
        .ok (some ([⟨0, 0, 0, 0⟩, ⟨1, 1, 0x40, 8⟩].flatMap Sym.encode)) ∧
      get_section named_system (Ehdr.decode named_symbol) (.lit "a.so") (.lit ".dynstr") =
        .ok (some (0#8 :: (CString.lit "f").bytes)) := by
  decide +kernel

/-- A heap whose blocks were used before. -/
def dirty : Heap where
  prior := (List.replicate · 0xff#8)
  prior_length _ := List.length_replicate
  slack := (CString.lit "x").bytes

/-- Two strings: one with zeroed room behind it, and one that is not followed by anything. -/
def two_strings (room : List Byte) : Blocks := [(CString.lit "a").bytes ++ room, (CString.lit "b").bytes]

theorem helpers_terminate_named :
    Returns dirty (two_strings []) (.lit "a") (strdup named_system dirty (.place 0 0) (two_strings [])) ∧
    (∃ m', strcat (.place 0 0) (.place 1 0) (two_strings [0]) = .ok (.place 0 0, m') ∧
      m'.Holds (.place 0 0) ((CString.lit "a").append (.lit "b")).bytes) ∧
    Returns dirty (Blocks.alloc [] (0#8 :: (CString.lit "f").bytes)) (.lit "f")
      (name_from_dynsim_index named_system dirty (Ehdr.decode named_symbol) (.lit "a.so") 1 []) := by
  obtain ⟨hdup, hcat, hname⟩ := helpers_terminate_iff named_system dirty
  refine ⟨?_, ?_, ?_⟩
  · exact (hdup _ _ (.lit "a") (by decide)).mpr (by decide)
  · exact (hcat _ _ _ (.lit "a") (.lit "b") (by decide) (by decide) (by decide)
      (Pointer.apart_of_block_ne (by decide) _ _)).mpr (by decide)
  · exact (hname _ _ _ _ _ _ ⟨1, 1, 0x40, 8⟩ (.lit "f") named_symbol_read.1 (by decide) named_symbol_read.2
      (by decide)).mpr (by decide)

/-- On memory that was used before, the copy of the empty string is what the heap held,
and so is the name of entry 0; `strcat` runs on into what the destination held. -/
theorem dirty_strings :
    (strdup named_system dirty (.place 0 0) [[0#8]] >>= fun r => r.2.string r.1) = .ok (.lit "x") ∧
    (strcat (.place 0 0) (.place 1 0) (two_strings (CString.lit "x").bytes) >>= fun r => r.2.string r.1) = .ok (.lit "abx") ∧
    (name_from_dynsim_index named_system dirty (Ehdr.decode named_symbol) (.lit "a.so") 0 [] >>=
      fun r => r.2.string r.1) = .ok (.lit "x") :=
  ⟨by decide, by decide, by decide +kernel⟩

theorem helpers_terminate_dirty :
    ¬ Returns dirty [[0#8]] (.lit "") (strdup named_system dirty (.place 0 0) [[0#8]]) ∧
    (¬ ∃ m', strcat (.place 0 0) (.place 1 0) (two_strings (CString.lit "x").bytes) = .ok (.place 0 0, m') ∧
      m'.Holds (.place 0 0) ((CString.lit "a").append (.lit "b")).bytes) ∧
    ¬ Returns dirty (Blocks.alloc [] (0#8 :: (CString.lit "f").bytes)) (.lit "")
      (name_from_dynsim_index named_system dirty (Ehdr.decode named_symbol) (.lit "a.so") 0 []) := by
  obtain ⟨hdup, hcat, hname⟩ := dirty_strings
  have hempty : CString.lit "" ≠ .lit "x" := by decide
  refine ⟨?_, ?_, ?_⟩
  · intro h
    exact hempty (Outcome.ok.inj (h.string_eq.symm.trans hdup))
  · rintro ⟨m', hrun, hholds⟩
    rw [hrun, Outcome.ok_bind, Blocks.string_eq_ok_iff.mpr hholds] at hcat
    exact absurd (Outcome.ok.inj hcat) (by decide)
  · intro h
    exact hempty (Outcome.ok.inj (h.string_eq.symm.trans hname))

end ldso.heap
