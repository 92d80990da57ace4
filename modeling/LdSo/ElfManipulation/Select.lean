import LdSo.ElfManipulation
import LdSo.Elf.Sections
import LdSo.Libc.Compare

open cmodel

namespace ldso.elf_manipulation

open elf utility string

/-- The header that the searches of `get_section` and `get_section_size` stop at. -/
def select_section (sys : System) (elf : Ehdr) (name elt : CString) : Outcome (Option Shdr) := do
  let shdr ← get_section_header sys elf name
  let string_table ← get_string_table sys elf name
  find_section string_table elt elf.e_shnum.toNat shdr

section Select

variable (sys : System) (elf : Ehdr) (name elt : CString)

theorem get_section_eq_select : get_section sys elf name elt = (do
    match ← select_section sys elf name elt with
    | none => return none
    | some shdr => return some (← section_bytes sys name shdr)) := by
  rw [select_section, bind_assoc]
  exact bind_congr fun shdr => (bind_assoc _ _ _).symm

theorem get_section_size_eq_select : get_section_size sys elf name elt = (do
    match ← select_section sys elf name elt with
    | none => return 0
    | some shdr => return (BitVec.ofNat 32 (shdr.sh_size.toNat / 24)).toInt) := by
  rw [select_section, bind_assoc]
  exact bind_congr fun shdr => (bind_assoc _ _ _).symm

end Select

variable {elt : CString}

/-- A name is compared with the whole string that the name table has for it. -/
theorem strcmp_of_read {table : List Byte} {off : Nat} {s : CString} (elt : CString)
    (hread : CString.read table off = .ok s) :
    ∃ d, strcmp (table.drop off) elt.bytes = .ok d ∧ (d = 0 ↔ s = elt) := by
  obtain ⟨rest, hrest⟩ := CString.read_eq_ok_iff.mp hread
  rw [hrest]
  exact strcmp_terminated s elt rest []

/-- Over a table that has every name, the search finds the first header with the name. -/
theorem find_section_eq {table : List Byte} {headers : List Shdr}
    (hnamed : ∀ shdr ∈ headers, ∃ s, CString.read table shdr.sh_name.toNat = .ok s) :
    find_section table elt headers.length headers =
      .ok (headers.find? fun shdr => CString.read table shdr.sh_name.toNat = .ok elt) := by
  induction headers with
  | nil => rfl
  | cons shdr rest ih =>
    obtain ⟨s, hs⟩ := hnamed shdr (by simp)
    obtain ⟨d, hd, hzero⟩ := strcmp_of_read elt hs
    rw [List.length_cons, find_section, hd, Outcome.ok_bind]
    by_cases hname : s = elt
    · rw [if_pos (hzero.mpr hname), List.find?_cons_of_pos (by simpa [hs] using hname)]
      rfl
    · rw [if_neg (fun h => hname (hzero.mp h)), List.find?_cons_of_neg (by simpa [hs] using hname),
        ih fun shdr hmem => hnamed shdr (by simp [hmem])]

/-- Bytes behind those that were compared do not matter. -/
theorem strcmp_append {xs ys : List Byte} {d : Int} (zs : List Byte) (h : strcmp xs ys = .ok d) :
    strcmp (xs ++ zs) ys = .ok d := by
  induction xs generalizing ys with
  | nil => cases h
  | cons a xs ih =>
    cases ys with
    | nil => cases h
    | cons b ys =>
      rw [List.cons_append, strcmp]
      rw [strcmp] at h
      split at h
      · next hsame =>
        rw [if_pos hsame]
        exact ih h
      · next hdiff => rwa [if_neg hdiff]

theorem find_section_append {table : List Byte} {n : Nat} {headers : List Shdr} {found : Option Shdr}
    (behind : List Byte) (h : find_section table elt n headers = .ok found) :
    find_section (table ++ behind) elt n headers = .ok found := by
  induction n generalizing headers with
  | zero => exact h
  | succ n ih =>
    cases headers with
    | nil => cases h
    | cons shdr rest =>
      rw [find_section] at h ⊢
      obtain ⟨d, hd, h⟩ := Outcome.bind_eq_ok_iff.mp h
      have hdrop : ((table ++ behind).drop shdr.sh_name.toNat) =
          table.drop shdr.sh_name.toNat ++ behind.drop (shdr.sh_name.toNat - table.length) := List.drop_append
      rw [hdrop, strcmp_append _ hd, Outcome.ok_bind]
      split at h
      · next hzero => rwa [if_pos hzero]
      · next hzero =>
        rw [if_neg hzero]
        exact ih h

section Names

variable {content : List Byte}

/-- The search over a well-formed file's table, with all of its names. -/
theorem find_section_sections (hwf : WellFormed content) (hindex : section_names_index content ≠ 0) :
    find_section (section_data content (section_at content (section_names_index content))) elt
      (sections content).length (sections content) = .ok (named_section content elt) := by
  have hnamed : ∀ shdr ∈ sections content, ∃ s,
      CString.read (section_data content (section_at content (section_names_index content))) shdr.sh_name.toNat = .ok s := by
    intro shdr hshdr
    obtain ⟨s, hs⟩ := hwf.named hindex shdr hshdr
    exact ⟨s, (section_name_eq_some_iff hindex).mp hs⟩
  rw [find_section_eq hnamed]
  unfold named_section
  simp only [section_name_eq_some_iff hindex]

/-- Without a table of names the first comparison already reads outside of it. -/
theorem find_section_unnamed (hwf : WellFormed content) (hcount : (Ehdr.decode content).e_shnum ≠ 0)
    (hindex : section_names_index content = 0) (found : Option Shdr) :
    find_section (section_data content (section_at content (section_names_index content))) elt
      (Ehdr.decode content).e_shnum.toNat (sections content) ≠ .ok found := by
  have hempty : section_data content (section_at content (section_names_index content)) = [] := by
    rw [hindex, section_data, hwf.null hcount]
    rfl
  rw [hempty]
  cases hn : (Ehdr.decode content).e_shnum.toNat with
  | zero => exact (hcount (BitVec.eq_of_toNat_eq hn)).elim
  | succ n =>
    cases sections content with
    | nil => simp [find_section]
    | cons shdr rest => simp [find_section, strcmp]

variable {sys : System} {name : CString}

theorem xlseek_eq_ok {offset : BitVec 64} {pos : Nat} (h : xlseek offset = .ok pos) : offset.toNat = pos :=
  (Outcome.ite_exit_eq_ok_iff.mp h).2

/-- What a read delivers of a section is the beginning of the section's bytes. -/
theorem section_bytes_prefix (hfile : sys.file name = some content) {shdr : Shdr} {bytes : List Byte}
    (h : section_bytes sys name shdr = .ok bytes) : bytes <+: section_data content shdr := by
  rw [section_bytes, xopen_of_file hfile, Outcome.ok_bind] at h
  obtain ⟨⟨⟩, -, h⟩ := Outcome.bind_eq_ok_iff.mp h
  obtain ⟨pos, hseek, h⟩ := Outcome.bind_eq_ok_iff.mp h
  obtain rfl := xlseek_eq_ok hseek
  cases h
  exact List.take_prefix_take_left (Nat.min_le_left _ _)

theorem get_section_header_eq (hfile : sys.file name = some content) {elf : Ehdr} {headers : List Shdr}
    (h : get_section_header sys elf name = .ok headers) :
    headers = (records 64 ((content.drop elf.e_shoff.toNat).take (elf.e_shnum.toNat * 64))).map Shdr.decode := by
  have hshort := elf.e_shnum.isLt
  rw [get_section_header, xopen_of_file hfile, Outcome.ok_bind] at h
  obtain ⟨⟨⟩, -, h⟩ := Outcome.bind_eq_ok_iff.mp h
  obtain ⟨pos, hseek, h⟩ := Outcome.bind_eq_ok_iff.mp h
  obtain rfl := xlseek_eq_ok hseek
  cases h
  rw [xread, min_eq_left (by omega)]

/-- Whenever the loader's search returns, it returns the first section that has the name. -/
theorem select_section_eq_named (hwf : WellFormed content) (hfile : sys.file name = some content)
    {found : Option Shdr} (h : select_section sys (Ehdr.decode content) name elt = .ok found) :
    found = named_section content elt := by
  obtain ⟨headers, hheaders, h⟩ := Outcome.bind_eq_ok_iff.mp h
  obtain ⟨table, htable, h⟩ := Outcome.bind_eq_ok_iff.mp h
  obtain ⟨headers', hheaders', htable⟩ := Outcome.bind_eq_ok_iff.mp htable
  obtain ⟨shdr, hshdr, htable⟩ := Outcome.bind_eq_ok_iff.mp htable
  obtain rfl := get_section_header_eq hfile hheaders
  obtain rfl := get_section_header_eq hfile hheaders'
  rw [Outcome.ofOption_eq_ok_iff] at hshdr
  have hcount : (Ehdr.decode content).e_shnum ≠ 0 := by
    intro hzero
    simp [hzero, records] at hshdr
  have hindex := hwf.names_index_lt hcount
  rw [hwf.sections_read hcount] at h hshdr
  rw [← hwf.names_index_eq hcount, sections, List.getElem?_map, List.getElem?_range hindex] at hshdr
  obtain rfl : section_at content (section_names_index content) = shdr := by simpa using hshdr
  obtain ⟨behind, hbehind⟩ := section_bytes_prefix hfile htable
  have hwhole := find_section_append behind h
  rw [hbehind] at hwhole
  by_cases hnames : section_names_index content = 0
  · exact (find_section_unnamed hwf hcount hnames found hwhole).elim
  · rw [← WellFormed.sections_length hcount, find_section_sections hwf hnames, Outcome.ok.injEq] at hwhole
    exact hwhole.symm

end Names

end ldso.elf_manipulation
