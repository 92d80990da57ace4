import LdSo.Libdl
import LdSo.Elf.Image
import LdSo.ElfManipulation.Select

open cmodel

namespace ldso.elf_manipulation

open elf utility string symbol_resolution relocations libdl

/-- A count that was cut to an `int` is at most the count. -/
theorem toInt_ofNat_le (n : Nat) : (BitVec.ofNat 32 n).toInt ≤ n := by
  rw [BitVec.toInt_eq_toNat_cond, BitVec.toNat_ofNat]
  have hmod := Nat.mod_le n (2 ^ 32)
  split <;> omega

/-- A record that the count covers lies in a buffer of the section's size. -/
theorem record_in_section {size i : Nat} (hi : i < (BitVec.ofNat 32 (size / 24)).toInt) : 24 * i + 24 ≤ size := by
  have hcount := toInt_ofNat_le (size / 24)
  have hdiv := Nat.div_mul_le_self size 24
  omega

section Loops

variable {sys : System} {heap : Heap} {m : Memory 64} {elf : Ehdr} {next : LinkMap} {map : Option Nat}

/-- What follows a buffer adds entries behind its own. -/
theorem records_append (k : Nat) (buf behind : List Byte) :
    ∃ more, records k (buf ++ behind) = records k buf ++ more := by
  have hle : buf.length / k ≤ (buf ++ behind).length / k := Nat.div_le_div_right (by simp)
  obtain ⟨d, hd⟩ := Nat.exists_eq_add_of_le hle
  refine ⟨((List.range d).map (buf.length / k + ·)).map fun i => ((buf ++ behind).drop (k * i)).take k, ?_⟩
  unfold records
  rw [hd, List.range_add, List.map_append]
  congr 1
  apply List.map_congr_left
  intro i hi
  rw [List.mem_range] at hi
  have hfit : k * i + k ≤ buf.length := by
    calc k * i + k = k * (i + 1) := by ring
      _ ≤ k * (buf.length / k) := Nat.mul_le_mul_left _ hi
      _ ≤ buf.length := Nat.mul_div_le _ _
  rw [List.drop_append_of_le_length (by omega), List.take_append_of_le_length]
  rw [List.length_drop]
  omega

theorem relas_append (buf behind : List Byte) : ∃ more, relas (buf ++ behind) = relas buf ++ more := by
  obtain ⟨more, hmore⟩ := records_append 24 buf behind
  exact ⟨more.map Rela.decode, by rw [relas, hmore, List.map_append, relas]⟩

theorem syms_append (buf behind : List Byte) : ∃ more, syms (buf ++ behind) = syms buf ++ more := by
  obtain ⟨more, hmore⟩ := records_append 24 buf behind
  exact ⟨more.map Sym.decode, by rw [syms, hmore, List.map_append, syms]⟩

/-- `relocation_lookup` does not look behind the entries it was given the number of. -/
theorem relocation_lookup_loop_append {n : Nat} {rela : List Rela} (more : List Rela) (hn : n ≤ rela.length) :
    relocation_lookup_loop sys heap elf next map n (rela ++ more) m =
      relocation_lookup_loop sys heap elf next map n rela m := by
  induction n generalizing rela m with
  | zero => rfl
  | succ n ih =>
    cases rela with
    | nil => simp at hn
    | cons r rest =>
      have hrest : n ≤ rest.length := by simpa using hn
      have hsame : ∀ m : Memory 64, relocation_lookup_loop sys heap elf next map n (r :: (rest ++ more)) m =
          relocation_lookup_loop sys heap elf next map n (r :: rest) m := fun m =>
        @ih m (r :: rest) (by simp only [List.length_cons]; omega)
      simp only [List.cons_append, relocation_lookup_loop, hsame, ih hrest]

theorem relocation_lazy_loop_append {l_addr : elf_addr} {n : Nat} {rela : List Rela} (more : List Rela)
    (hn : n ≤ rela.length) :
    relocation_lazy_loop l_addr n (rela ++ more) m = relocation_lazy_loop l_addr n rela m := by
  induction n generalizing rela m with
  | zero => rfl
  | succ n ih =>
    cases rela with
    | nil => simp at hn
    | cons r rest =>
      have hrest : n ≤ rest.length := by simpa using hn
      simp only [List.cons_append, relocation_lazy_loop, ih hrest]

/-- `gnu_hash_lookup` stops at the last symbol that `size` counts. -/
theorem gnu_scan_append {table : List Sym} (more : List Sym) {strtab : Option (List Byte)} {rela_name : CString}
    {h1 : BitVec 32} {l_addr hashval : elf_addr} {count sym : Nat} (hfit : sym + count ≤ table.length ∨ count = 0) :
    gnu_scan m (table ++ more) strtab rela_name h1 l_addr count sym hashval =
      gnu_scan m table strtab rela_name h1 l_addr count sym hashval := by
  induction count generalizing sym hashval with
  | zero => rfl
  | succ count ih =>
    have hget : (table ++ more)[sym]? = table[sym]? := List.getElem?_append_left (by omega)
    simp only [gnu_scan, hget, ih (show sym + 1 + count ≤ table.length ∨ count = 0 by omega)]

theorem gnu_table_search_append {table : List Sym} (more : List Sym) {strtab : Option (List Byte)}
    {rela_name : CString} {l_addr hashtab : elf_addr} {size : Nat} (hsize : size ≤ table.length) :
    gnu_table_search m (table ++ more) strtab rela_name l_addr size hashtab =
      gnu_table_search m table strtab rela_name l_addr size hashtab := by
  have hscan : ∀ (n : BitVec 32) (h1 : BitVec 32) (hashval : elf_addr),
      gnu_scan m (table ++ more) strtab rela_name h1 l_addr (size - n.toNat) n.toNat hashval =
        gnu_scan m table strtab rela_name h1 l_addr (size - n.toNat) n.toNat hashval := fun n h1 hashval =>
    gnu_scan_append more (by omega)
  simp only [gnu_table_search, hscan]

theorem hash_scan_append {table : List Sym} (more : List Sym) {strtab : Option (List Byte)} {rela_name : CString}
    {l_addr chain : elf_addr} {size fuel : Nat} {i : BitVec 32} (hsize : size ≤ table.length) :
    hash_scan m (table ++ more) strtab rela_name l_addr chain size fuel i =
      hash_scan m table strtab rela_name l_addr chain size fuel i := by
  induction fuel generalizing i with
  | zero => simp only [hash_scan]
  | succ fuel ih =>
    unfold hash_scan
    by_cases hend : i = 0 ∨ size ≤ i.toNat
    · rw [if_pos hend, if_pos hend]
    · have hget : (table ++ more)[i.toNat]? = table[i.toNat]? := List.getElem?_append_left (by omega)
      simp only [if_neg hend, hget, ih]

theorem hash_table_search_append {table : List Sym} (more : List Sym) {strtab : Option (List Byte)}
    {rela_name : CString} {l_addr hashtab : elf_addr} {size : Nat} (hsize : size ≤ table.length) :
    hash_table_search m (table ++ more) strtab rela_name l_addr size hashtab =
      hash_table_search m table strtab rela_name l_addr size hashtab := by
  simp only [hash_table_search, hash_scan_append more hsize]

theorem dladdr_symbol_append {dynstr : List Byte} {l_addr addr : elf_addr} {size : Nat} {table : List Sym}
    (more : List Sym) {info : Dl_info} (hsize : size ≤ table.length) :
    dladdr_symbol sys dynstr l_addr addr size (table ++ more) info =
      dladdr_symbol sys dynstr l_addr addr size table info := by
  induction size generalizing table with
  | zero => rfl
  | succ size ih =>
    cases table with
    | nil => simp at hsize
    | cons s rest => simp only [List.cons_append, dladdr_symbol, ih (show size ≤ rest.length by simpa using hsize)]

end Loops

/-- The loops over 24-byte records that take `n` for their number never use what
lies behind the buffer. -/
structure WithinBuffer (buf : List Byte) (n : Int) : Prop where
  relocation_lookup (behind : List Byte) (sys : System) (heap : Heap) (m : Memory 64) (next : LinkMap) (map : Option Nat) :
    relocation_lookup sys heap m (relas (buf ++ behind)) n next map = relocation_lookup sys heap m (relas buf) n next map
  relocation_lazy (behind : List Byte) (sys : System) (heap : Heap) (m : Memory 64) (next : Nat) :
    relocation_lazy sys heap m next (relas (buf ++ behind)) n = relocation_lazy sys heap m next (relas buf) n
  gnu_hash_lookup (behind : List Byte) (m : Memory 64) (strtab : Option (List Byte)) (rela_name : CString)
      (l_addr hashtab : elf_addr) :
    gnu_table_search m (syms (buf ++ behind)) strtab rela_name l_addr (size_t n) hashtab =
      gnu_table_search m (syms buf) strtab rela_name l_addr (size_t n) hashtab
  hash_lookup (behind : List Byte) (m : Memory 64) (strtab : Option (List Byte)) (rela_name : CString)
      (l_addr hashtab : elf_addr) :
    hash_table_search m (syms (buf ++ behind)) strtab rela_name l_addr (size_t n) hashtab =
      hash_table_search m (syms buf) strtab rela_name l_addr (size_t n) hashtab
  _dladdr (behind : List Byte) (sys : System) (dynstr : List Byte) (l_addr addr : elf_addr) (info : Dl_info) :
    dladdr_symbol sys dynstr l_addr addr n.toNat (syms (buf ++ behind)) info =
      dladdr_symbol sys dynstr l_addr addr n.toNat (syms buf) info

/-- A count of at most the buffer's complete records keeps the loops in it. -/
theorem WithinBuffer.of_le {buf : List Byte} {n : Int} (hn : 0 ≤ n) (hfit : n < 2 ^ 31) (hle : n ≤ buf.length / 24) :
    WithinBuffer buf n := by
  have hrela : n.toNat ≤ (relas buf).length := by
    rw [relas, List.length_map, records_length]
    omega
  have hsym : n.toNat ≤ (syms buf).length := by
    rw [syms, List.length_map, records_length]
    omega
  have hsize : size_t n ≤ (syms buf).length := by
    unfold size_t
    rw [BitVec.toNat_ofInt]
    omega
  constructor
  · intro behind sys heap m next map
    obtain ⟨more, hmore⟩ := relas_append buf behind
    simp only [relocations.relocation_lookup, hmore, relocation_lookup_loop_append more hrela]
  · intro behind sys heap m next
    obtain ⟨more, hmore⟩ := relas_append buf behind
    simp only [relocations.relocation_lazy, hmore, relocation_lazy_loop_append more hrela]
  · intro behind m strtab rela_name l_addr hashtab
    obtain ⟨more, hmore⟩ := syms_append buf behind
    rw [hmore, gnu_table_search_append more hsize]
  · intro behind m strtab rela_name l_addr hashtab
    obtain ⟨more, hmore⟩ := syms_append buf behind
    rw [hmore, hash_table_search_append more hsize]
  · intro behind sys dynstr l_addr addr info
    obtain ⟨more, hmore⟩ := syms_append buf behind
    rw [hmore, dladdr_symbol_append more hsym]

theorem section_bytes_length_le {sys : System} {name : CString} {shdr : Shdr} {buf : List Byte}
    (h : section_bytes sys name shdr = .ok buf) : buf.length ≤ shdr.sh_size.toNat := by
  obtain ⟨content, -, h⟩ := Outcome.bind_eq_ok_iff.mp h
  obtain ⟨-, -, h⟩ := Outcome.bind_eq_ok_iff.mp h
  obtain ⟨pos, -, h⟩ := Outcome.bind_eq_ok_iff.mp h
  cases h
  rw [xread, List.length_take]
  omega

/-- `get_section` and `get_section_size` stop at one header. The records that the
count covers lie in the `sh_size` bytes allocated for the section, and as long as it
fits an `int` the loops over them stay there, whatever of the section was read; a
section that is not found counts no record. -/
theorem get_section_size_bounds (sys : System) (elf : Ehdr) (name elt : CString) :
    (get_section sys elf name elt = do
      match ← select_section sys elf name elt with
      | none => return none
      | some shdr => return some (← section_bytes sys name shdr)) ∧
    (get_section_size sys elf name elt = do
      match ← select_section sys elf name elt with
      | none => return 0
      | some shdr => return (BitVec.ofNat 32 (shdr.sh_size.toNat / 24)).toInt) ∧
    (get_section sys elf name elt = .ok none → get_section_size sys elf name elt = .ok 0) ∧
    ∀ shdr n, select_section sys elf name elt = .ok (some shdr) → get_section_size sys elf name elt = .ok n →
      (∀ i : Nat, i < n → 24 * i + 24 ≤ shdr.sh_size.toNat) ∧
      (shdr.sh_size.toNat / 24 < 2 ^ 31 → ∀ read, get_section sys elf name elt = .ok (some read) →
        read.length ≤ shdr.sh_size.toNat ∧
        ∀ rest, (read ++ rest).length = shdr.sh_size.toNat → WithinBuffer (read ++ rest) n) := by
  refine ⟨get_section_eq_select sys elf name elt, get_section_size_eq_select sys elf name elt, ?_, ?_⟩
  · intro hnull
    rw [get_section_eq_select] at hnull
    obtain ⟨found, hfound, hnull⟩ := Outcome.bind_eq_ok_iff.mp hnull
    rw [get_section_size_eq_select, hfound]
    cases found with
    | none => rfl
    | some shdr =>
      obtain ⟨buf, -, hnull⟩ := Outcome.bind_eq_ok_iff.mp hnull
      cases hnull
  · intro shdr n hselect hsize
    rw [get_section_size_eq_select, hselect] at hsize
    obtain rfl : (BitVec.ofNat 32 (shdr.sh_size.toNat / 24)).toInt = n := Outcome.ok.inj hsize
    refine ⟨fun i hi => record_in_section hi, ?_⟩
    intro hfit read hread
    rw [get_section_eq_select, hselect, Outcome.ok_bind] at hread
    obtain ⟨buf, hbuf, hread⟩ := Outcome.bind_eq_ok_iff.mp hread
    cases hread
    refine ⟨section_bytes_length_le hbuf, ?_⟩
    intro rest hlength
    rw [toInt_ofNat_of_lt (by omega)]
    apply WithinBuffer.of_le
    · omega
    · omega
    · rw [hlength]
      rfl

/-- A file with a table of two symbols. -/
def two_symbols : List Byte := image [] [⟨.lit ".dynsym", 0, [⟨0, 0, 0, 0⟩, ⟨1, 1, 0x40, 8⟩].flatMap Sym.encode⟩]

theorem two_symbols_read :
    (select_section (.of_files [(.lit "a.so", two_symbols)]) (Ehdr.decode two_symbols) (.lit "a.so") (.lit ".dynsym")).bind
        (fun shdr => .ok (shdr.map Shdr.sh_size)) = .ok (some 48) ∧
      get_section_size (.of_files [(.lit "a.so", two_symbols)]) (Ehdr.decode two_symbols) (.lit "a.so") (.lit ".dynsym") =
        .ok 2 ∧
      get_section (.of_files [(.lit "a.so", two_symbols)]) (Ehdr.decode two_symbols) (.lit "a.so") (.lit ".dynsym") =
        .ok (some ([⟨0, 0, 0, 0⟩, ⟨1, 1, 0x40, 8⟩].flatMap Sym.encode)) := by
  decide +kernel

/-- The loops over the two symbols stay in the 48 bytes. -/
theorem get_section_size_bounds_two :
    WithinBuffer ([(⟨0, 0, 0, 0⟩ : Sym), ⟨1, 1, 0x40, 8⟩].flatMap Sym.encode) 2 := by
  obtain ⟨hselect, hsize, hread⟩ := two_symbols_read
  obtain ⟨found, hfound, hshdr⟩ := Outcome.bind_eq_ok_iff.mp hselect
  cases found with
  | none => cases hshdr
  | some shdr =>
    have hroom : shdr.sh_size = 48 := by simpa using hshdr
    obtain ⟨-, -, -, hbounds⟩ := get_section_size_bounds (.of_files [(.lit "a.so", two_symbols)])
      (Ehdr.decode two_symbols) (.lit "a.so") (.lit ".dynsym")
    obtain ⟨-, hloops⟩ := hbounds shdr 2 hfound hsize
    obtain ⟨-, hwithin⟩ := hloops (by rw [hroom]; decide) _ hread
    have hwhole := hwithin [] (by rw [hroom, List.append_nil]; decide)
    rwa [List.append_nil] at hwhole

end ldso.elf_manipulation
