import LdSo.Readelf
import LdSo.ElfManipulation.Select
import LdSo.Elf.Image

open cmodel

namespace ldso.readelf

open elf string

section Search

variable {image : List Byte} {table entry head n : Nat} {stop : List Byte → Outcome Bool} {names : Nat → List Byte}

/-- The `n` headers from `head` on have these names. -/
def Names (image : List Byte) (table entry head n : Nat) (names : Nat → List Byte) : Prop :=
  ∀ j < n, ∃ sh_name, peek 32 image (head + entry * j) = .ok sh_name ∧ image.drop (table + sh_name.toNat) = names j

theorem Names.tail (h : Names image table entry head (n + 1) names) :
    Names image table entry (head + entry) n fun j => names (j + 1) := by
  intro j hj
  obtain ⟨sh_name, hread, hname⟩ := h (j + 1) (by omega)
  exact ⟨sh_name, by rwa [show head + entry + entry * j = head + entry * (j + 1) by ring], hname⟩

theorem search_succ (h : Names image table entry head (n + 1) names) :
    search image (some table) entry stop (n + 1) head = (do
      if ← stop (names 0) then return head else search image (some table) entry stop n (head + entry)) := by
  obtain ⟨sh_name, hread, hname⟩ := h 0 (by omega)
  rw [search, ← hname, show peek 32 image head = .ok sh_name from hread]
  rfl

theorem search_stops {i : Nat} (h : Names image table entry head n names) (hi : i < n)
    (hbefore : ∀ j < i, stop (names j) = .ok false) (hstop : stop (names i) = .ok true) :
    search image (some table) entry stop n head = .ok (head + entry * i) := by
  induction i generalizing head n names with
  | zero =>
    cases n with
    | zero => omega
    | succ n =>
      rw [search_succ h, hstop]
      rfl
  | succ i ih =>
    cases n with
    | zero => omega
    | succ n =>
      rw [search_succ h, hbefore 0 (by omega), Outcome.ok_bind, if_neg (by decide),
        ih h.tail (by omega) (fun j hj => hbefore (j + 1) (by omega)) hstop]
      congr 1
      ring

/-- A search that returns has passed every header before the one it returns. -/
theorem search_inv {p : Nat} (h : Names image table entry head n names)
    (hp : search image (some table) entry stop n head = .ok p) :
    ∃ i ≤ n, p = head + entry * i ∧ ∀ j < i, stop (names j) = .ok false := by
  induction n generalizing head names with
  | zero =>
    cases hp
    exact ⟨0, le_refl 0, rfl, fun j hj => by omega⟩
  | succ n ih =>
    rw [search_succ h] at hp
    obtain ⟨found, hfound, hp⟩ := Outcome.bind_eq_ok_iff.mp hp
    cases found with
    | true =>
      cases hp
      exact ⟨0, by omega, rfl, fun j hj => by omega⟩
    | false =>
      obtain ⟨i, hi, rfl, hpassed⟩ := ih h.tail hp
      refine ⟨i + 1, by omega, by ring, ?_⟩
      intro j hj
      cases j with
      | zero => exact hfound
      | succ j => exact hpassed j (by omega)

end Search

section Compare

variable {dyn name : List Byte} {eq r : Nat}

theorem compare_chars_eq_ok_iff :
    compare_chars dyn name eq = .ok r ↔ dyn.length ≤ name.length ∧ (if dyn <+: name then eq else 1) = r := by
  induction dyn generalizing name eq with
  | nil => simp [compare_chars]
  | cons d dyn ih =>
    cases name with
    | nil => simp [compare_chars]
    | cons c name =>
      rw [compare_chars, ih]
      by_cases hd : d = c
      · simp [hd]
      · simp [hd]

/-- The comparisons with `eq` need all their characters. -/
theorem compare_chars_zero_iff {same : Bool} :
    (do let eq ← compare_chars dyn name 0; return decide (eq = 0) : Outcome Bool) = .ok same ↔
      dyn.length ≤ name.length ∧ decide (dyn <+: name) = same := by
  rw [Outcome.bind_eq_ok_iff]
  simp only [compare_chars_eq_ok_iff, Outcome.pure_eq, Outcome.ok.injEq]
  by_cases hinit : dyn <+: name
  · simp [hinit, and_comm]
  · simp [hinit, and_comm]

end Compare

/-- Section `i` is the first one that has the name. -/
structure FirstNamed (content : List Byte) (elt : CString) (i : Nat) : Prop where
  lt : i < section_count content
  name : section_name content (section_at content i) = some elt
  first : ∀ j < i, section_name content (section_at content j) ≠ some elt

section FirstNamed

variable {content : List Byte} {elt : CString} {i i' : Nat}

theorem FirstNamed.unique (h : FirstNamed content elt i) (h' : FirstNamed content elt i') : i = i' := by
  rcases Nat.lt_trichotomy i i' with hlt | heq | hgt
  · exact (h'.first i hlt h.name).elim
  · exact heq
  · exact (h.first i' hgt h'.name).elim

theorem FirstNamed.lt_shnum (h : FirstNamed content elt i) (hcount : (Ehdr.decode content).e_shnum ≠ 0) :
    i < (Ehdr.decode content).e_shnum.toNat := by
  rw [← WellFormed.sections_eq hcount]
  exact h.lt

theorem FirstNamed.named_section_eq (h : FirstNamed content elt i) :
    named_section content elt = some (section_at content i) := by
  have hfind : (List.range (section_count content)).find?
      (fun i => section_name content (section_at content i) = some elt) = some i := by
    rw [List.find?_range_eq_some]
    exact ⟨by simpa using h.name, List.mem_range.mpr h.lt, fun j hj => by simpa using h.first j hj⟩
  rw [named_section, sections, List.find?_map, Function.comp_def, hfind]
  rfl

theorem exists_firstNamed (h : named_section content elt ≠ none) : ∃ i, FirstNamed content elt i := by
  rw [named_section, sections, List.find?_map, Function.comp_def, ne_eq, Option.map_eq_none_iff] at h
  obtain ⟨i, hi⟩ := Option.ne_none_iff_exists'.mp h
  rw [List.find?_range_eq_some] at hi
  obtain ⟨hname, hlt, hfirst⟩ := hi
  exact ⟨i, List.mem_range.mp hlt, by simpa using hname, fun j hj => by simpa using hfirst j hj⟩

end FirstNamed

/-- Where the header of section `i` lies. -/
def header_at (content : List Byte) (i : Nat) : Nat := (Ehdr.decode content).e_shoff.toNat + 64 * i

/-- What is asked of a search that ends at `head`. When there is no section to be
found no header may be used, as the loader's search returns NULL. -/
structure Selects (content : List Byte) (elt : CString) (head : Outcome Nat) : Prop where
  found (i : Nat) : FirstNamed content elt i → head = .ok (header_at content i)
  absent : named_section content elt = none → ∀ p, head ≠ .ok p
  completes : ∃ p, head = .ok p

/-- The header at which a search with this test ends, whose `sh_offset` its function uses. -/
def selected (content : List Byte) (st : Statics) (stop : List Byte → Outcome Bool) : Outcome Nat := do
  let (_, st) ← get_string_table (mapped content) st
  find_header (mapped content) st.table stop

theorem Selects.iff_firstNamed {content : List Byte} {elt : CString} {head : Outcome Nat} :
    Selects content elt head ↔ ∃ i, FirstNamed content elt i ∧ head = .ok (header_at content i) := by
  constructor
  · intro h
    obtain ⟨p, hp⟩ := h.completes
    obtain ⟨i, hi⟩ := exists_firstNamed fun hnone => h.absent hnone p hp
    exact ⟨i, hi, h.found i hi⟩
  · rintro ⟨i, hi, hhead⟩
    refine ⟨fun i' hi' => by rwa [hi'.unique hi], fun hnone => ?_, header_at content i, hhead⟩
    rw [hi.named_section_eq] at hnone
    cases hnone

/-- The three searches of a file do what is asked of them. -/
structure Searches (content : List Byte) (st : Statics) : Prop where
  set_str_tab : Selects content (.lit ".dynstr") (selected content st is_dynstr)
  get_dynamic_section : Selects content (.lit ".dynamic") (selected content st is_dynamic)
  get_dynsim_section : Selects content (.lit ".dynsym") (selected content st is_dynsym)

/-- `n` characters of the name of section `i` lie in the mapping. -/
def Comparable (content : List Byte) (n i : Nat) : Prop :=
  (section_at content (section_names_index content)).sh_offset.toNat + (section_at content i).sh_name.toNat + n ≤
    (mapped content).length

/-- The file counts its sections in the ELF header and has the three that are looked
for, the first name that begins with ".dynstr" is no longer than that, and the names in
front of those found are not too close to the end of the mapping. -/
structure Searchable (content : List Byte) : Prop where
  counted : (Ehdr.decode content).e_shnum ≠ 0
  dynstr : ∃ i, FirstNamed content (.lit ".dynstr") i ∧ ∀ j < i, Comparable content 7 j ∧
    ∀ name, section_name content (section_at content j) = some name → ¬ (CString.lit ".dynstr").chars <+: name.chars
  dynamic : ∃ i, FirstNamed content (.lit ".dynamic") i ∧ ∀ j < i, Comparable content 9 j
  dynsym : ∃ i, FirstNamed content (.lit ".dynsym") i

section Content

variable {content : List Byte} {st : Statics} {stop : List Byte → Outcome Bool} {i : Nat} {name : CString} {same : Bool}

/-- What a pointer to the name of section `i` reaches. -/
def name_at (content : List Byte) (i : Nat) : List Byte :=
  (mapped content).drop ((section_at content (section_names_index content)).sh_offset.toNat +
    (section_at content i).sh_name.toNat)

theorem ehdr_peek (hwf : elf.WellFormed content) :
    get_section_header (mapped content) = .ok (Ehdr.decode content).e_shoff.toNat ∧
      get_section_table_size (mapped content) = .ok (Ehdr.decode content).e_shnum ∧
      peek 16 (mapped content) ElfW.e_shstrndx = .ok (Ehdr.decode content).e_shstrndx ∧
      get_section_entry_size (mapped content) = .ok (field 16 content 58) := by
  have hroom := hwf.header
  refine ⟨?_, peek_mapped (le_trans (by decide) hroom), peek_mapped (le_trans (by decide) hroom),
    peek_mapped (le_trans (by decide) hroom)⟩
  rw [get_section_header, get_section_table_offset, peek_mapped (le_trans (by decide) hroom)]
  rfl

/-- A field of a section header in the table. -/
theorem header_peek (hwf : elf.WellFormed content) (hcount : (Ehdr.decode content).e_shnum ≠ 0)
    (hi : i < (Ehdr.decode content).e_shnum.toNat) (n off : Nat) (hoff : off + n / 8 ≤ 64) :
    peek n (mapped content) (header_at content i + off) =
      .ok (field n ((content.drop (header_at content i)).take 64) off) := by
  have htable := hwf.table_le hcount
  have hroom : header_at content i + off + n / 8 ≤ content.length := by
    unfold header_at
    omega
  rw [peek_mapped hroom, field_record hoff]

/-- The offset that is read from the header of a section that was found. -/
theorem FirstNamed.peek_offset (hwf : elf.WellFormed content) (hcount : (Ehdr.decode content).e_shnum ≠ 0)
    {elt : CString} (hi : FirstNamed content elt i) :
    peek 64 (mapped content) (header_at content i + ElfW.sh_offset) = .ok (section_at content i).sh_offset :=
  header_peek hwf hcount (hi.lt_shnum hcount) 64 24 (by decide)

theorem names_mapped (hwf : elf.WellFormed content) (hcount : (Ehdr.decode content).e_shnum ≠ 0) :
    Names (mapped content) (section_at content (section_names_index content)).sh_offset.toNat 64
      (Ehdr.decode content).e_shoff.toNat (Ehdr.decode content).e_shnum.toNat (name_at content) := by
  intro j hj
  exact ⟨(section_at content j).sh_name, header_peek hwf hcount hj 32 0 (by decide), rfl⟩

/-- In the mapping a name is followed by its terminator. -/
theorem name_at_eq (hname : section_name content (section_at content i) = some name) :
    ∃ rest, name_at content i = name.chars ++ 0#8 :: rest := by
  rw [section_name_eq_some_iff (names_index_ne_zero hname), CString.read_eq_ok_iff] at hname
  obtain ⟨rest, hrest⟩ := hname
  have hdata : section_data content (section_at content (section_names_index content)) <+:
      (mapped content).drop (section_at content (section_names_index content)).sh_offset.toNat := by
    rw [mapped, List.drop_append]
    exact (List.take_prefix _ _).trans (List.prefix_append _ _)
  obtain ⟨behind, hbehind⟩ := hdata
  rw [name_at, ← List.drop_drop, ← hbehind, List.drop_append, hrest]
  exact ⟨_, by rw [List.append_assoc, List.cons_append]⟩

theorem get_string_table_eq (hwf : elf.WellFormed content) (hcount : (Ehdr.decode content).e_shnum ≠ 0) :
    get_string_table (mapped content) st =
      .ok ((section_at content (section_names_index content)).sh_offset.toNat,
        { st with table := some (section_at content (section_names_index content)).sh_offset.toNat }) := by
  obtain ⟨hheader, -, hindex, hentry⟩ := ehdr_peek hwf
  have hlt := hwf.shstrndx hcount
  have hsize := hwf.shentsize (WellFormed.count_ne_zero hcount)
  have hshort := (Ehdr.decode content).e_shstrndx.isLt
  have hread := header_peek hwf hcount (BitVec.lt_def.mp hlt) 64 24 (by decide)
  have hhead : (Ehdr.decode content).e_shoff.toNat + (Ehdr.decode content).e_shstrndx.toNat * 64 + 24 =
      header_at content (Ehdr.decode content).e_shstrndx.toNat + 24 := by
    unfold header_at
    omega
  rw [get_string_table, hheader, hindex, hentry, hsize]
  simp only [Outcome.ok_bind, show (64#16).toNat = 64 from rfl]
  rw [if_neg (by omega), show ElfW.sh_offset = 24 from rfl, hhead, hread, hwf.names_index_eq hcount]
  rfl

theorem selected_eq_search (hwf : elf.WellFormed content) (hcount : (Ehdr.decode content).e_shnum ≠ 0) :
    selected content st stop =
      search (mapped content) (some (section_at content (section_names_index content)).sh_offset.toNat) 64 stop
        (Ehdr.decode content).e_shnum.toNat (Ehdr.decode content).e_shoff.toNat := by
  obtain ⟨hheader, hnum, -, hentry⟩ := ehdr_peek hwf
  rw [selected, get_string_table_eq hwf hcount, Outcome.ok_bind]
  dsimp only
  rw [find_header, hheader, hnum, hentry, hwf.shentsize (WellFormed.count_ne_zero hcount)]
  rfl

/-- With no count in the ELF header a search ends at the first header. -/
theorem selected_uncounted (hwf : elf.WellFormed content) (hcount : (Ehdr.decode content).e_shnum = 0) {p : Nat}
    (h : selected content st stop = .ok p) : p = header_at content 0 := by
  obtain ⟨hheader, hnum, -, hentry⟩ := ehdr_peek hwf
  obtain ⟨⟨off, st'⟩, -, h⟩ := Outcome.bind_eq_ok_iff.mp h
  dsimp only at h
  rw [find_header, hheader, hnum, hentry, hcount] at h
  cases h
  rfl

/-- A search ends at section `i` when its test passes over the names in front of it only. -/
theorem selected_eq_iff (hwf : elf.WellFormed content) (hcount : (Ehdr.decode content).e_shnum ≠ 0)
    (hi : i < (Ehdr.decode content).e_shnum.toNat) (hstop : stop (name_at content i) = .ok true) :
    selected content st stop = .ok (header_at content i) ↔ ∀ j < i, stop (name_at content j) = .ok false := by
  rw [selected_eq_search hwf hcount]
  constructor
  · intro h
    obtain ⟨i', -, hhead, hpassed⟩ := search_inv (names_mapped hwf hcount) h
    have heq : i' = i := by
      unfold header_at at hhead
      omega
    rwa [← heq]
  · intro hbefore
    exact search_stops (names_mapped hwf hcount) hi hbefore hstop

/-! The three tests, on a name of the file. -/

theorem same_chars_iff {dyn : List Byte} (hdyn : dyn ≠ []) :
    (do let eq ← compare_chars dyn (name_at content i) 0; return decide (eq = 0) : Outcome Bool) = .ok same ↔
      Comparable content dyn.length i ∧ decide (dyn <+: name_at content i) = same := by
  have hpos := List.length_pos_iff.mpr hdyn
  rw [compare_chars_zero_iff, name_at, List.length_drop, Comparable]
  refine and_congr_left' ?_
  omega

/-- A name that begins with all the characters is stopped at. -/
theorem same_chars_of_begins {dyn : List Byte} (h : dyn <+: name_at content i) :
    (do let eq ← compare_chars dyn (name_at content i) 0; return decide (eq = 0) : Outcome Bool) = .ok true :=
  compare_chars_zero_iff.mpr ⟨h.length_le, decide_eq_true h⟩

theorem is_dynstr_iff (hname : section_name content (section_at content i) = some name) :
    is_dynstr (name_at content i) = .ok same ↔
      Comparable content 7 i ∧ decide ((CString.lit ".dynstr").chars <+: name.chars) = same := by
  obtain ⟨rest, hrest⟩ := name_at_eq hname
  have hinit : (CString.lit ".dynstr").chars <+: name_at content i ↔ (CString.lit ".dynstr").chars <+: name.chars := by
    rw [hrest]
    exact CString.chars_prefix_iff
  rw [is_dynstr, same_chars_iff (by decide), decide_eq_decide.mpr hinit]
  rfl

theorem is_dynamic_iff (hname : section_name content (section_at content i) = some name) :
    is_dynamic (name_at content i) = .ok same ↔ Comparable content 9 i ∧ decide (.lit ".dynamic" = name) = same := by
  obtain ⟨rest, hrest⟩ := name_at_eq hname
  have hinit : (CString.lit ".dynamic").bytes <+: name_at content i ↔ CString.lit ".dynamic" = name := by
    rw [hrest]
    exact CString.bytes_prefix_iff
  rw [is_dynamic, same_chars_iff (by decide), decide_eq_decide.mpr hinit]
  rfl

theorem is_dynsym_eq (hname : section_name content (section_at content i) = some name) :
    is_dynsym (name_at content i) = .ok (decide (name = .lit ".dynsym")) := by
  obtain ⟨rest, hrest⟩ := name_at_eq hname
  obtain ⟨d, hd, hzero⟩ := strcmp_terminated name (.lit ".dynsym") rest []
  rw [is_dynsym, hrest, CString.bytes, hd, Outcome.ok_bind]
  exact congrArg Outcome.ok (decide_eq_decide.mpr hzero)

theorem selects_iff (hwf : elf.WellFormed content) (hcount : (Ehdr.decode content).e_shnum ≠ 0) {elt : CString}
    (hstop : ∀ i, section_name content (section_at content i) = some elt → stop (name_at content i) = .ok true) :
    Selects content elt (selected content st stop) ↔
      ∃ i, FirstNamed content elt i ∧ ∀ j < i, stop (name_at content j) = .ok false := by
  rw [Selects.iff_firstNamed]
  refine exists_congr fun i => and_congr_right fun hi => ?_
  exact selected_eq_iff hwf hcount (hi.lt_shnum hcount) (hstop i hi.name)

/-- The sections in front of one that has a name have names. -/
theorem FirstNamed.before (hwf : elf.WellFormed content) {elt : CString} (hi : FirstNamed content elt i) {j : Nat}
    (hj : j < i) : ∃ name, section_name content (section_at content j) = some name ∧ name ≠ elt := by
  obtain ⟨name, hname⟩ := hwf.named (names_index_ne_zero hi.name) _ (WellFormed.section_mem (hj.trans hi.lt))
  refine ⟨name, hname, ?_⟩
  rintro rfl
  exact hi.first j hj hname

theorem selects_dynstr_iff (hwf : elf.WellFormed content) (hcount : (Ehdr.decode content).e_shnum ≠ 0) :
    Selects content (.lit ".dynstr") (selected content st is_dynstr) ↔
      ∃ i, FirstNamed content (.lit ".dynstr") i ∧ ∀ j < i, Comparable content 7 j ∧
        ∀ name, section_name content (section_at content j) = some name → ¬ (CString.lit ".dynstr").chars <+: name.chars := by
  have hstop : ∀ i, section_name content (section_at content i) = some (.lit ".dynstr") →
      is_dynstr (name_at content i) = .ok true := by
    intro i hname
    obtain ⟨rest, hrest⟩ := name_at_eq hname
    exact same_chars_of_begins ⟨_, hrest.symm⟩
  rw [selects_iff hwf hcount hstop]
  refine exists_congr fun i => and_congr_right fun hi => forall₂_congr fun j hj => ?_
  obtain ⟨name, hname, -⟩ := hi.before hwf hj
  simp only [is_dynstr_iff hname, hname, decide_eq_false_iff_not, Option.some.injEq, forall_eq']

theorem selects_dynamic_iff (hwf : elf.WellFormed content) (hcount : (Ehdr.decode content).e_shnum ≠ 0) :
    Selects content (.lit ".dynamic") (selected content st is_dynamic) ↔
      ∃ i, FirstNamed content (.lit ".dynamic") i ∧ ∀ j < i, Comparable content 9 j := by
  have hstop : ∀ i, section_name content (section_at content i) = some (.lit ".dynamic") →
      is_dynamic (name_at content i) = .ok true := by
    intro i hname
    obtain ⟨rest, hrest⟩ := name_at_eq hname
    apply same_chars_of_begins
    rw [hrest]
    exact CString.bytes_prefix_iff.mpr rfl
  rw [selects_iff hwf hcount hstop]
  refine exists_congr fun i => and_congr_right fun hi => forall₂_congr fun j hj => ?_
  obtain ⟨name, hname, hne⟩ := hi.before hwf hj
  rw [is_dynamic_iff hname, decide_eq_false hne.symm]
  exact and_iff_left rfl

theorem selects_dynsym_iff (hwf : elf.WellFormed content) (hcount : (Ehdr.decode content).e_shnum ≠ 0) :
    Selects content (.lit ".dynsym") (selected content st is_dynsym) ↔ ∃ i, FirstNamed content (.lit ".dynsym") i := by
  rw [selects_iff hwf hcount fun i hname => is_dynsym_eq hname]
  refine exists_congr fun i => and_iff_left_of_imp fun hi => ?_
  intro j hj
  obtain ⟨name, hname, hne⟩ := hi.before hwf hj
  rw [is_dynsym_eq hname, decide_eq_false hne]

/-- Without a count two searches end at one header, which does not have both names. -/
theorem Searches.counted (hwf : elf.WellFormed content) (h : Searches content st) :
    (Ehdr.decode content).e_shnum ≠ 0 := by
  intro hzero
  obtain ⟨i, hi, hdynstr⟩ := Selects.iff_firstNamed.mp h.set_str_tab
  obtain ⟨j, hj, hdynamic⟩ := Selects.iff_firstNamed.mp h.get_dynamic_section
  have hi0 := selected_uncounted hwf hzero hdynstr
  have hj0 := selected_uncounted hwf hzero hdynamic
  have hsame : i = j := by
    unfold header_at at hi0 hj0
    omega
  have hname := hi.name
  rw [hsame, hj.name] at hname
  revert hname
  decide

/-- The sections whose places in the mapping are returned and left in the static variables. -/
theorem Searches.get_dynamic_section_eq (hwf : elf.WellFormed content) (h : Searches content st) :
    ∃ dynstr dynamic, named_section content (.lit ".dynstr") = some dynstr ∧
      named_section content (.lit ".dynamic") = some dynamic ∧
      readelf.get_dynamic_section (mapped content) st = .ok (dynamic.sh_offset.toNat,
        { st with
          table := some (section_at content (section_names_index content)).sh_offset.toNat
          strtab := some dynstr.sh_offset.toNat
          dynamic := some dynamic.sh_offset.toNat }) := by
  have hcount := h.counted hwf
  obtain ⟨i, hi, hdynstr⟩ := Selects.iff_firstNamed.mp h.set_str_tab
  obtain ⟨j, hj, hdynamic⟩ := Selects.iff_firstNamed.mp h.get_dynamic_section
  rw [selected, get_string_table_eq hwf hcount, Outcome.ok_bind] at hdynstr hdynamic
  refine ⟨_, _, hi.named_section_eq, hj.named_section_eq, ?_⟩
  rw [readelf.get_dynamic_section, get_string_table_eq hwf hcount, Outcome.ok_bind]
  dsimp only [readelf.set_str_tab] at hdynstr hdynamic ⊢
  rw [hdynstr, Outcome.ok_bind, hi.peek_offset hwf hcount, Outcome.ok_bind, Outcome.pure_eq, Outcome.ok_bind, hdynamic,
    Outcome.ok_bind, hj.peek_offset hwf hcount]
  rfl

theorem Searches.get_dynsim_section_eq (hwf : elf.WellFormed content) (h : Searches content st) (hfirst : st.dynsim = none) :
    ∃ dynsym, named_section content (.lit ".dynsym") = some dynsym ∧
      readelf.get_dynsim_section (mapped content) st = .ok (dynsym.sh_offset.toNat,
        { st with
          table := some (section_at content (section_names_index content)).sh_offset.toNat
          dynsim := some dynsym.sh_offset.toNat
          dynsim_size := dynsym.sh_size.setWidth 32 }) := by
  have hcount := h.counted hwf
  obtain ⟨i, hi, hdynsym⟩ := Selects.iff_firstNamed.mp h.get_dynsim_section
  have hsize : peek 64 (mapped content) (header_at content i + ElfW.sh_size) = .ok (section_at content i).sh_size :=
    header_peek hwf hcount (hi.lt_shnum hcount) 64 32 (by decide)
  rw [selected, get_string_table_eq hwf hcount, Outcome.ok_bind] at hdynsym
  refine ⟨_, hi.named_section_eq, ?_⟩
  rw [readelf.get_dynsim_section, hfirst]
  dsimp only at hdynsym ⊢
  rw [get_string_table_eq hwf hcount, Outcome.ok_bind, hdynsym, Outcome.ok_bind, hsize, Outcome.ok_bind,
    hi.peek_offset hwf hcount]
  rfl

end Content

/-- The loader's search, when it returns, selects the first section that has the name.
The three searches of readelf do so exactly for the files that are searchable. -/
theorem searches_iff (content : List Byte) (hwf : elf.WellFormed content) :
    (∀ (sys : System) (name elt : CString) (found : Option Shdr), sys.file name = some content →
      elf_manipulation.select_section sys (Ehdr.decode content) name elt = .ok found →
      found = named_section content elt) ∧
    ∀ st, Searches content st ↔ Searchable content := by
  refine ⟨fun sys name elt found hfile => elf_manipulation.select_section_eq_named hwf hfile, fun st => ?_⟩
  constructor
  · intro h
    have hcount := h.counted hwf
    exact ⟨hcount, (selects_dynstr_iff hwf hcount).mp h.set_str_tab,
      (selects_dynamic_iff hwf hcount).mp h.get_dynamic_section,
      (selects_dynsym_iff hwf hcount).mp h.get_dynsim_section⟩
  · intro h
    exact ⟨(selects_dynstr_iff hwf h.counted).mpr h.dynstr, (selects_dynamic_iff hwf h.counted).mpr h.dynamic,
      (selects_dynsym_iff hwf h.counted).mpr h.dynsym⟩

/-- A file with empty sections of these names behind the first one. -/
def named_image (names : List CString) : List Byte := image [] (⟨.lit "", 0, []⟩ :: names.map fun name => ⟨name, 0, []⟩)

def searchable_image : List Byte := named_image [.lit ".dynstr", .lit ".dynamic", .lit ".dynsym"]

theorem named_image_wellFormed {content : List Byte} (hheader : 64 ≤ content.length ∧ field 16 content 58 = 64#16 ∧
      (Ehdr.decode content).e_shnum < SHN_LORESERVE ∧
      (Ehdr.decode content).e_shoff.toNat + 64 * section_count content ≤ content.length)
    (hnull : (section_at content 0).sh_size = 0 ∧ (Ehdr.decode content).e_shstrndx < (Ehdr.decode content).e_shnum)
    (hsections : ∀ shdr ∈ sections content, shdr.sh_offset.toNat ≤ content.length ∧ (section_name content shdr).isSome) :
    elf.WellFormed content where
  header := hheader.1
  shentsize _ := hheader.2.1
  shnum := hheader.2.2.1
  table _ := hheader.2.2.2
  null _ := hnull.1
  shstrndx _ := hnull.2
  placed shdr hshdr := (hsections shdr hshdr).1
  named _ shdr hshdr := Option.isSome_iff_exists.mp (hsections shdr hshdr).2

theorem searches_iff_named : Searches searchable_image .init := by
  have hwf : elf.WellFormed searchable_image :=
    named_image_wellFormed (by decide +kernel) (by decide +kernel) (by decide +kernel)
  have hfirst : section_name searchable_image (section_at searchable_image 0) = some (.lit "") := by decide +kernel
  have hmapped : (mapped searchable_image).length = 4096 := by decide +kernel
  rw [(searches_iff searchable_image hwf).2 .init]
  refine ⟨by decide +kernel, ⟨1, ?_, ?_⟩, ⟨2, ?_, ?_⟩, ⟨3, ?_⟩⟩
  · constructor <;> decide +kernel
  · intro j hj
    obtain rfl : j = 0 := by omega
    refine ⟨by rw [Comparable, hmapped]; decide +kernel, ?_⟩
    intro name hname
    rw [hfirst] at hname
    cases hname
    decide
  · constructor <;> decide +kernel
  · unfold Comparable
    rw [hmapped]
    decide +kernel
  · constructor <;> decide +kernel

/-- `set_str_tab` takes a longer name for ".dynstr", and the header behind the table when
there is no section with such a name. -/
theorem searches_prefixed :
    let content := named_image [.lit ".dynstr2", .lit ".dynstr", .lit ".dynamic", .lit ".dynsym"]
    let stripped := named_image []
    (elf.WellFormed content ∧ FirstNamed content (.lit ".dynstr") 2 ∧
      selected content .init is_dynstr = .ok (header_at content 1) ∧ ¬ Searches content .init) ∧
    elf.WellFormed stripped ∧ named_section stripped (.lit ".dynstr") = none ∧
      selected stripped .init is_dynstr = .ok (header_at stripped (Ehdr.decode stripped).e_shnum.toNat) := by
  intro content stripped
  have hfirst : FirstNamed content (.lit ".dynstr") 2 := by constructor <;> decide +kernel
  have hselected : selected content .init is_dynstr = .ok (header_at content 1) := by decide +kernel
  refine ⟨⟨?_, hfirst, hselected, ?_⟩, ?_, ?_, ?_⟩
  · exact named_image_wellFormed (by decide +kernel) (by decide +kernel) (by decide +kernel)
  · intro h
    have hother := (h.set_str_tab.found 2 hfirst).symm.trans hselected
    revert hother
    decide +kernel
  · exact named_image_wellFormed (by decide +kernel) (by decide +kernel) (by decide +kernel)
  · decide +kernel
  · decide +kernel

end ldso.readelf
