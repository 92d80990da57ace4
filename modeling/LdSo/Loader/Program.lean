import LdSo.Loader
import LdSo.Lib.Memory.Frame

open cmodel

namespace ldso

open elf elf_manipulation loader utility

/-- A file's headers as the loader reads them, with the file's content. -/
structure Program where
  elf : Ehdr
  phdrs : List Phdr
  content : List Byte
  count : phdrs.length = elf.e_phnum.toNat

/-- The file of that name has these headers. -/
structure Program.OnDisk (o : Program) (sys : System) (name : CString) : Prop where
  ehdr : get_elf_ehdr sys name = .ok o.elf
  phdrs : get_program_header sys o.elf name = .ok o.phdrs
  file : sys.file name = some o.content

/-- The end of the memory a header stands for. -/
def elf.Phdr.mem_end (p : Phdr) : Nat := p.p_vaddr.toNat + p.p_memsz.toNat

/-- The end of the part of it that the header has bytes for. -/
def elf.Phdr.file_end (p : Phdr) : Nat := p.p_vaddr.toNat + p.p_filesz.toNat

/-- The bytes a file of this content has for a segment. -/
def elf.Phdr.bytes (p : Phdr) (content : List Byte) : List Byte := xread content p.p_offset.toNat p.p_filesz.toNat

def elf.Phdr.read_end (p : Phdr) (content : List Byte) : Nat := p.p_vaddr.toNat + (p.bytes content).length

/-- The start of the page an address lies in. -/
def page_floor (n : Nat) : Nat := n / 4096 * 4096

namespace Program

/-- The PT_LOAD headers. -/
def loads (o : Program) : List Phdr := o.phdrs.filter fun p => p.p_type = PT_LOAD

/-- The PT_LOAD headers that the loop of `load_program` comes to. -/
def loaded : Bool → List Phdr → List Phdr
  | _, [] => []
  | load, p :: rest =>
    if p.p_type = PT_LOAD then p :: loaded true rest
    else if p.p_type = PT_DYNAMIC then loaded load rest
    else if load then []
    else loaded load rest

/-- The two headers that `allocate_map` looks at. -/
def reserved (o : Program) : Option (Phdr × Phdr) :=
  let phdr := o.phdrs.dropWhile fun p => p.p_type ≠ PT_LOAD
  match phdr.head?, (phdr.dropWhile fun p => p.p_type = PT_LOAD).head? with
  | some first, some prog => some (first, prog)
  | _, _ => none

/-- The range that `allocate_map` maps for an object loaded at `l_addr`. -/
def mapping (o : Program) (l_addr : elf_addr) : Region 64 :=
  o.reserved.elim ⟨0, 0⟩ fun (first, prog) =>
    let pos := first.p_vaddr + l_addr
    ⟨ALIGN pos, unistd.page_ceil (prog.p_vaddr + prog.p_filesz - first.p_vaddr + pos - ALIGN pos).toNat⟩

/-- The memory the PT_LOAD segments span, and where reading them ends. -/
def mem_start (o : Program) : Nat := (o.loads.head?).elim 0 fun p => p.p_vaddr.toNat

def mem_end (o : Program) : Nat := (o.loads.getLast?).elim 0 Phdr.mem_end

def read_end (o : Program) : Nat := ((loaded false o.phdrs).getLast?).elim 0 fun p => p.read_end o.content

/-- The end of what `allocate_map` reserves. -/
def reserved_end (o : Program) : Nat := o.reserved.elim 0 fun r => unistd.page_ceil r.2.file_end

/-- No two segments that the loop comes to share a page. -/
def PagesApart (o : Program) : Prop :=
  (loaded false o.phdrs).Pairwise fun p q => unistd.page_ceil (p.read_end o.content) ≤ q.p_vaddr.toNat

instance (o : Program) : Decidable o.PagesApart := inferInstanceAs (Decidable (List.Pairwise _ _))

/-- How many bytes of a segment are read in any case: those for which memory is
reserved, unless loading a segment before may have changed its protection. -/
def least_read (o : Program) (p : Phdr) : Nat :=
  if o.PagesApart then min (p.bytes o.content).length (o.reserved_end - p.p_vaddr.toNat) else 0

/-- Reading the segments does not end before this, whatever else is mapped. -/
def least_end (o : Program) : Nat :=
  ((loaded false o.phdrs).getLast?).elim 0 fun p => p.p_vaddr.toNat + o.least_read p

/-- PT_LOAD segments in ascending order that do not overlap, with at most as
many bytes in the file as in memory. -/
structure WellFormed (o : Program) : Prop where
  ascending : o.loads.Pairwise fun p q => p.mem_end ≤ q.p_vaddr.toNat
  filesz_le : ∀ p ∈ o.loads, p.p_filesz.toNat ≤ p.p_memsz.toNat

/-- Every segment the loop comes to is read into memory that can be written:
what `allocate_map` reserves covers it, and no two share a page. -/
structure Readable (o : Program) : Prop where
  covered : ∀ p ∈ loaded false o.phdrs, p.read_end o.content ≤ o.reserved_end
  pages : o.PagesApart

/-- Placed at address `b`, no address computation wraps. -/
structure FitsAt (o : Program) (b : Nat) : Prop where
  base : b < 2 ^ 64
  mem : ∀ p ∈ o.loads, b + p.mem_end < 2 ^ 64
  map : ∀ r ∈ o.reserved, page_floor r.1.p_vaddr.toNat ≤ r.2.file_end ∧ b + r.2.file_end + 4096 < 2 ^ 64

theorem loaded_sublist {load : Bool} {ps : List Phdr} :
    (loaded load ps).Sublist (ps.filter fun p => p.p_type = PT_LOAD) := by
  induction ps generalizing load with
  | nil => exact List.Sublist.refl []
  | cons p rest ih =>
    unfold loaded
    by_cases hload : p.p_type = PT_LOAD
    · rw [if_pos hload, List.filter_cons_of_pos (by simpa using hload)]
      exact List.Sublist.cons_cons p ih
    · rw [if_neg hload, List.filter_cons_of_neg (by simpa using hload)]
      split
      · exact ih
      · split
        · exact List.nil_sublist _
        · exact ih

theorem mem_loads {o : Program} {p : Phdr} (h : p ∈ loaded false o.phdrs) : p ∈ o.loads := loaded_sublist.mem h

/-- The first PT_LOAD header is come to. -/
theorem loaded_head {ps : List Phdr} :
    (loaded false ps).head? = (ps.filter fun p => p.p_type = PT_LOAD).head? := by
  induction ps with
  | nil => rfl
  | cons p rest ih =>
    unfold loaded
    by_cases hload : p.p_type = PT_LOAD
    · rw [if_pos hload, List.filter_cons_of_pos (by simpa using hload)]
      rfl
    · rw [if_neg hload, List.filter_cons_of_neg (by simpa using hload)]
      split <;> exact ih

end Program

namespace loader

theorem toNat_ALIGN (x : elf_addr) : (ALIGN x).toNat = page_floor x.toNat := by
  have hdiv : (x / PAGE_SIZE).toNat = x.toNat / 4096 := rfl
  have hx := x.isLt
  unfold ALIGN page_floor
  rw [BitVec.toNat_mul, hdiv, show PAGE_SIZE.toNat = 4096 from rfl, Nat.mod_eq_of_lt (by omega)]
  omega

variable {sys : System} {map : LinkMap} {m : Memory 64}

/-- The range whose protection loading a segment changes, when `r` bytes were read. -/
def read_region (map : LinkMap) (p : Phdr) (r : Nat) : Region 64 :=
  let addr := p.p_vaddr + map.l_addr
  ⟨ALIGN addr, unistd.page_ceil (BitVec.ofNat 64 r + addr - ALIGN addr).toNat⟩

/-- That range when all bytes were read that the file has. -/
def protected_region (map : LinkMap) (content : List Byte) (p : Phdr) : Region 64 :=
  read_region map p (p.bytes content).length

theorem writable_mprotect {r : Region 64} {prot : Prot} {x : elf_addr} (h : ¬ r.Contains x) :
    (m.mprotect r prot).Writable x ↔ m.Writable x := by
  unfold Memory.Writable Memory.mprotect
  rw [if_neg h]

theorem le_length_takeWhile_range {P : Nat → Bool} {k n : Nat} (hk : k ≤ n) (hP : ∀ i < k, P i = true) :
    k ≤ ((List.range n).takeWhile P).length := by
  obtain ⟨d, rfl⟩ := Nat.exists_eq_add_of_le hk
  rw [List.range_add, List.takeWhile_append_of_pos fun i hi => hP i (List.mem_range.mp hi), List.length_append,
    List.length_range]
  exact Nat.le_add_right k _

/-- Loading a segment reads at least as many bytes as can be written from its start
on, and nothing outside their pages changes protection. -/
theorem load_segment_read {p : Phdr} {s s' : Loading} {content : List Byte}
    (hfile : sys.file map.l_name = some content) (h : load_segment sys map p s = .ok s') :
    ∃ r ≤ (p.bytes content).length, s'.base = p.p_vaddr + map.l_addr + BitVec.ofNat 64 r ∧
      (∀ k ≤ (p.bytes content).length,
        (∀ i < k, s.mem.Writable (p.p_vaddr + map.l_addr + BitVec.ofNat 64 i)) → k ≤ r) ∧
      ∀ x, ¬ (read_region map p r).Contains x → (s'.mem.Writable x ↔ s.mem.Writable x) := by
  unfold load_segment at h
  rw [show xopen sys map.l_name = .ok content by simp [xopen, hfile], Outcome.ok_bind] at h
  obtain ⟨pos, hpos, h⟩ := Outcome.bind_eq_ok_iff.mp h
  have hbytes : xread content pos p.p_filesz.toNat = p.bytes content := by
    unfold xlseek at hpos
    split at hpos
    · cases hpos
    · cases hpos
      rfl
  rw [hbytes] at h
  obtain ⟨⟨r, m'⟩, hread, h⟩ := Outcome.bind_eq_ok_iff.mp h
  unfold xread_memory at hread
  dsimp only at hread h
  split at hread
  · cases hread
  · cases hread
    split at h
    · cases h
    · next m' hprotect =>
      unfold unistd.mprotect at hprotect
      split at hprotect
      · cases hprotect
        cases h
        refine ⟨_, ?_, rfl, fun k hk hwr => ?_, fun x hx => (writable_mprotect hx).trans Memory.writable_put⟩
        · exact (List.takeWhile_sublist _).length_le.trans_eq List.length_range
        · exact le_length_takeWhile_range hk fun i hi => by simpa using hwr i hi
      · cases hprotect

/-- Where the memory of a segment can be written, all bytes the file has for it
are read. -/
theorem load_segment_whole {p : Phdr} {s s' : Loading} {content : List Byte}
    (hfile : sys.file map.l_name = some content)
    (hwr : ∀ i < (p.bytes content).length, s.mem.Writable (p.p_vaddr + map.l_addr + BitVec.ofNat 64 i))
    (h : load_segment sys map p s = .ok s') :
    s'.base = p.p_vaddr + map.l_addr + BitVec.ofNat 64 (p.bytes content).length ∧
      ∀ x, ¬ (protected_region map content p).Contains x → (s'.mem.Writable x ↔ s.mem.Writable x) := by
  obtain ⟨r, hr, hbase, hleast, hsame⟩ := load_segment_read hfile h
  obtain rfl : r = (p.bytes content).length := le_antisymm hr (hleast _ le_rfl hwr)
  exact ⟨hbase, hsame⟩

/-- When at least `k` bytes of each segment can be written, and no segment before
changes that, the loop leaves `*base` behind that many bytes of the last one, or
behind more of them. -/
theorem load_loop_base {content : List Byte} (hfile : sys.file map.l_name = some content) {k : Phdr → Nat}
    {h : List Phdr} {load : Bool} (hk : ∀ p ∈ Program.loaded load h, k p ≤ (p.bytes content).length)
    (hpages : (Program.loaded load h).Pairwise fun p q => ∀ r ≤ (p.bytes content).length, ∀ i < k q,
      ¬ (read_region map p r).Contains (q.p_vaddr + map.l_addr + BitVec.ofNat 64 i))
    {s s' : Loading} (hwr : ∀ p ∈ Program.loaded load h, ∀ i < k p,
      s.mem.Writable (p.p_vaddr + map.l_addr + BitVec.ofNat 64 i))
    (hloop : load_loop sys map h.length h load s = .ok s') :
    ((Program.loaded load h).getLast?).elim (s'.base = s.base) fun p =>
      ∃ r, k p ≤ r ∧ r ≤ (p.bytes content).length ∧ s'.base = p.p_vaddr + map.l_addr + BitVec.ofNat 64 r := by
  induction h generalizing load s with
  | nil =>
    cases hloop
    rfl
  | cons p rest ih =>
    rw [List.length_cons] at hloop
    unfold load_loop at hloop
    unfold Program.loaded at hk hpages hwr ⊢
    by_cases hload : p.p_type = PT_LOAD
    · simp only [if_pos hload] at hloop hk hpages hwr ⊢
      obtain ⟨t, hsegment, hloop⟩ := Outcome.bind_eq_ok_iff.mp hloop
      obtain ⟨hhead, htail⟩ := List.pairwise_cons.mp hpages
      obtain ⟨hkp, hkrest⟩ := List.forall_mem_cons.mp hk
      obtain ⟨hwrp, hwrrest⟩ := List.forall_mem_cons.mp hwr
      obtain ⟨r, hr, hbase, hleast, hsame⟩ := load_segment_read hfile hsegment
      have hrest := ih hkrest htail (fun q hq i hi => (hsame _ (hhead q hq r hr i hi)).mpr (hwrrest q hq i hi)) hloop
      cases hlast : (Program.loaded true rest).getLast? with
      | none =>
        rw [hlast, Option.elim_none] at hrest
        rw [List.getLast?_eq_none_iff] at hlast
        rw [hlast, List.getLast?_singleton, Option.elim_some]
        exact ⟨r, hleast (k p) hkp hwrp, hr, hrest.trans hbase⟩
      | some q =>
        rw [hlast] at hrest
        rw [List.getLast?_cons, hlast, Option.getD_some]
        exact hrest
    · simp only [if_neg hload] at hloop hk hpages hwr ⊢
      by_cases hdyn : p.p_type = PT_DYNAMIC
      · simp only [if_pos hdyn] at hloop hk hpages hwr ⊢
        exact ih (s := { s with l_ld := some (p.p_vaddr + map.l_addr) }) hk hpages hwr hloop
      · simp only [if_neg hdyn] at hloop hk hpages hwr ⊢
        cases load with
        | true =>
          cases hloop
          rfl
        | false => exact ih hk hpages hwr hloop

section Addresses

variable {o : Program} {b : Nat}

/-- An address of a page-aligned object splits at its page. -/
theorem page_floor_add {a n : Nat} (h : a % 4096 = 0) : page_floor (a + n) = a + page_floor n := by
  unfold page_floor
  omega

theorem toNat_vaddr {p : Phdr} (hfits : o.FitsAt b) (hb : map.l_addr.toNat = b) (hp : p ∈ o.loads) :
    (p.p_vaddr + map.l_addr).toNat = b + p.p_vaddr.toNat := by
  have hmem := hfits.mem p hp
  unfold Phdr.mem_end at hmem
  rw [BitVec.toNat_add, hb, Nat.mod_eq_of_lt (by omega)]
  omega

theorem bytes_length_le (p : Phdr) (content : List Byte) : (p.bytes content).length ≤ p.p_filesz.toNat := by
  unfold Phdr.bytes xread
  rw [List.length_take]
  omega

theorem toNat_vaddr_add {p : Phdr} (hfits : o.FitsAt b) (hwf : o.WellFormed) (hb : map.l_addr.toNat = b)
    (hp : p ∈ o.loads) {i : Nat} (hi : i ≤ (p.bytes o.content).length) :
    (p.p_vaddr + map.l_addr + BitVec.ofNat 64 i).toNat = b + p.p_vaddr.toNat + i := by
  have hmem := hfits.mem p hp
  have hle := hwf.filesz_le p hp
  have hlen := bytes_length_le p o.content
  unfold Phdr.mem_end at hmem
  rw [BitVec.toNat_add, toNat_vaddr hfits hb hp, BitVec.toNat_ofNat, Nat.mod_eq_of_lt (a := i) (by omega),
    Nat.mod_eq_of_lt (by omega)]

/-- Segments of different pages do not change each other's protection. -/
theorem not_protected {p q : Phdr} (hfits : o.FitsAt b) (hwf : o.WellFormed) (hb : map.l_addr.toNat = b)
    (haligned : b % 4096 = 0) (hp : p ∈ o.loads) (hq : q ∈ o.loads)
    (hpages : unistd.page_ceil (p.read_end o.content) ≤ q.p_vaddr.toNat) {r : Nat}
    (hr : r ≤ (p.bytes o.content).length) {i : Nat} (hi : i < (q.bytes o.content).length) :
    ¬ (read_region map p r).Contains (q.p_vaddr + map.l_addr + BitVec.ofNat 64 i) := by
  have hx := toNat_vaddr_add hfits hwf hb hq hi.le
  have hpend := toNat_vaddr_add hfits hwf hb hp hr
  have hxlt := (q.p_vaddr + map.l_addr + BitVec.ofNat 64 i).isLt
  have hpendlt := (p.p_vaddr + map.l_addr + BitVec.ofNat 64 r).isLt
  have hfloor : (ALIGN (p.p_vaddr + map.l_addr)).toNat = b + page_floor p.p_vaddr.toNat := by
    rw [toNat_ALIGN, toNat_vaddr hfits hb hp, page_floor_add haligned]
  have hsize : (BitVec.ofNat 64 r + (p.p_vaddr + map.l_addr) - ALIGN (p.p_vaddr + map.l_addr)).toNat =
      p.p_vaddr.toNat + r - page_floor p.p_vaddr.toNat := by
    rw [BitVec.add_comm, BitVec.toNat_sub, hpend, hfloor]
    unfold page_floor
    omega
  unfold read_region Region.Contains
  simp only
  rw [hsize, BitVec.toNat_sub, hx, hfloor]
  unfold Phdr.read_end unistd.page_ceil page_floor at *
  omega

/-- The first of the two headers that `allocate_map` looks at is the first PT_LOAD header. -/
theorem reserved_head {first prog : Phdr} (h : o.reserved = some (first, prog)) : o.loads.head? = some first := by
  unfold Program.reserved at h
  dsimp only at h
  split at h
  · next hfirst hprog =>
    cases h
    unfold Program.loads
    rw [List.head?_filter, List.find?_eq_head?_dropWhile_not, ← hfirst]
    simp only [decide_not]
  · cases h

theorem allocate_map_eq_ok {offset ret : elf_addr} {m' : Memory 64}
    (h : allocate_map sys m o.phdrs offset = .ok (ret, m')) :
    m' = m.mmap (o.mapping offset) ⟨true, true, true⟩ := by
  unfold allocate_map at h
  obtain ⟨first, hfirst, h⟩ := Outcome.bind_eq_ok_iff.mp h
  obtain ⟨prog, hprog, h⟩ := Outcome.bind_eq_ok_iff.mp h
  rw [Outcome.ofOption_eq_ok_iff] at hfirst hprog
  have hreserved : o.reserved = some (first, prog) := by
    unfold Program.reserved
    simp only [hfirst, hprog]
  unfold Program.mapping
  rw [hreserved]
  dsimp only at h
  split at h
  · cases h
  · next m'' hmmap =>
    cases h
    unfold unistd.mmap at hmmap
    split at hmmap
    · cases hmmap
    · cases hmmap
      rfl

/-- The first PT_LOAD segment is the lowest. -/
theorem mem_start_le {p : Phdr} (hwf : o.WellFormed) (hp : p ∈ o.loads) : o.mem_start ≤ p.p_vaddr.toNat := by
  unfold Program.mem_start
  cases hfirst : o.loads.head? with
  | none =>
    rw [List.head?_eq_none_iff] at hfirst
    rw [hfirst] at hp
    cases hp
  | some first =>
    obtain ⟨rest, hloads⟩ := List.head?_eq_some_iff.mp hfirst
    have hasc := hwf.ascending
    rw [hloads] at hasc hp
    obtain rfl | hp := List.mem_cons.mp hp
    · exact le_rfl
    · have hle := (List.pairwise_cons.mp hasc).1 p hp
      simp only [Option.elim_some]
      unfold Phdr.mem_end at hle
      omega

/-- What `allocate_map` maps starts at the page of the first segment and goes to
the end of a page. -/
theorem mapping_contains_iff {a x : elf_addr} (hfits : o.FitsAt a.toNat) (haligned : a.toNat % 4096 = 0) :
    (o.mapping a).Contains x ↔ a.toNat + page_floor o.mem_start ≤ x.toNat ∧ x.toNat < a.toNat + o.reserved_end := by
  cases hreserved : o.reserved with
  | none =>
    simp only [Program.mapping, Program.reserved_end, hreserved, Option.elim_none, Region.Contains, Nat.not_lt_zero,
      false_iff]
    omega
  | some headers =>
    obtain ⟨first, prog⟩ := headers
    have hfirst := reserved_head hreserved
    have hstart : o.mem_start = first.p_vaddr.toNat := by simp [Program.mem_start, hfirst]
    obtain ⟨hle, hmap⟩ : page_floor first.p_vaddr.toNat ≤ prog.file_end ∧ a.toNat + prog.file_end + 4096 < 2 ^ 64 :=
      hfits.map (first, prog) hreserved
    have hfloor : (ALIGN (first.p_vaddr + a)).toNat = a.toNat + page_floor first.p_vaddr.toNat := by
      rw [toNat_ALIGN, @toNat_vaddr ⟨a, .lit "", none, none, none⟩ _ _ _ hfits rfl (List.mem_of_head? hfirst),
        page_floor_add haligned]
    have hprogend : (prog.p_vaddr + prog.p_filesz + a).toNat = a.toNat + prog.file_end := by
      unfold Phdr.file_end at hmap ⊢
      rw [BitVec.toNat_add, BitVec.toNat_add]
      omega
    have hsize : (prog.p_vaddr + prog.p_filesz - first.p_vaddr + (first.p_vaddr + a) -
        ALIGN (first.p_vaddr + a)).toNat = prog.file_end - page_floor first.p_vaddr.toNat := by
      rw [show prog.p_vaddr + prog.p_filesz - first.p_vaddr + (first.p_vaddr + a) =
        prog.p_vaddr + prog.p_filesz + a by ring, BitVec.toNat_sub, hprogend, hfloor]
      unfold page_floor at *
      omega
    unfold Program.mapping Program.reserved_end Region.Contains
    rw [hreserved, hstart]
    simp only [Option.elim_some]
    rw [hsize, BitVec.toNat_sub, hfloor]
    have hx := x.isLt
    unfold unistd.page_ceil page_floor at *
    omega

/-- What `allocate_map` reserves is not empty. -/
theorem allocate_map_nonempty {ret a : elf_addr} {m' : Memory 64} (hfits : o.FitsAt a.toNat)
    (haligned : a.toNat % 4096 = 0) (h : allocate_map sys m o.phdrs a = .ok (ret, m')) :
    page_floor o.mem_start < o.reserved_end := by
  have hbase : (o.mapping a).Contains (o.mapping a).base := by
    unfold allocate_map at h
    obtain ⟨first, hfirst, h⟩ := Outcome.bind_eq_ok_iff.mp h
    obtain ⟨prog, hprog, h⟩ := Outcome.bind_eq_ok_iff.mp h
    rw [Outcome.ofOption_eq_ok_iff] at hfirst hprog
    have hreserved : o.reserved = some (first, prog) := by
      unfold Program.reserved
      simp only [hfirst, hprog]
    unfold Program.mapping
    rw [hreserved]
    dsimp only at h
    split at h
    · cases h
    · next m'' hmmap =>
      unfold unistd.mmap at hmmap
      split at hmmap
      · cases hmmap
      · next hasked =>
        obtain ⟨hlen, -⟩ := not_or.mp hasked
        simp only [Option.elim_some, Region.Contains, sub_self]
        show 0 < unistd.page_ceil _
        unfold unistd.page_ceil
        omega
  have hbounds := (mapping_contains_iff hfits haligned).mp hbase
  omega

/-- What `allocate_map` reserves can be written. -/
theorem allocate_map_writable {ret : elf_addr} {m' : Memory 64} (hfits : o.FitsAt b) (hwf : o.WellFormed)
    (hb : map.l_addr.toNat = b) (haligned : b % 4096 = 0)
    (h : allocate_map sys m o.phdrs map.l_addr = .ok (ret, m')) {p : Phdr} (hp : p ∈ Program.loaded false o.phdrs)
    {i : Nat} (hi : i < (p.bytes o.content).length) (hend : p.p_vaddr.toNat + i < o.reserved_end) :
    m'.Writable (p.p_vaddr + map.l_addr + BitVec.ofNat 64 i) := by
  subst hb
  have hstart := mem_start_le hwf (Program.mem_loads hp)
  have hx := toNat_vaddr_add hfits hwf rfl (Program.mem_loads hp) hi.le
  rw [allocate_map_eq_ok h]
  refine ⟨_, if_pos ((mapping_contains_iff hfits haligned).mpr ?_), rfl⟩
  rw [hx]
  unfold page_floor
  omega

theorem least_read_le (o : Program) (p : Phdr) : o.least_read p ≤ (p.bytes o.content).length := by
  unfold Program.least_read
  split
  · exact min_le_left _ _
  · exact Nat.zero_le _

theorem lt_of_lt_least_read {p : Phdr} {i : Nat} (h : i < o.least_read p) :
    o.PagesApart ∧ i < (p.bytes o.content).length ∧ p.p_vaddr.toNat + i < o.reserved_end := by
  unfold Program.least_read at h
  split at h
  · next hpages => exact ⟨hpages, by omega, by omega⟩
  · cases h

/-- A program that is loaded leaves `*base` behind what is read of its last segment in
any case, and not behind what its file has. -/
theorem load_program_base {ret base : elf_addr} {s : Loading} (hfile : sys.file map.l_name = some o.content)
    (hfits : o.FitsAt b) (hwf : o.WellFormed) (hb : map.l_addr.toNat = b) (haligned : b % 4096 = 0)
    (h : load_program sys m o.phdrs o.elf map base = .ok (ret, s)) :
    b + o.least_end ≤ s.base.toNat ∧ s.base.toNat ≤ b + o.read_end := by
  unfold load_program at h
  obtain ⟨⟨ret', m'⟩, hmap, h⟩ := Outcome.bind_eq_ok_iff.mp h
  obtain ⟨s', hloop, h⟩ := Outcome.bind_eq_ok_iff.mp h
  cases h
  have hpages : (Program.loaded false o.phdrs).Pairwise fun p q => ∀ r ≤ (p.bytes o.content).length,
      ∀ i < o.least_read q, ¬ (read_region map p r).Contains (q.p_vaddr + map.l_addr + BitVec.ofNat 64 i) := by
    by_cases hapart : o.PagesApart
    · exact hapart.imp_of_mem fun hp hq hpq r hr i hi => not_protected hfits hwf hb haligned (Program.mem_loads hp)
        (Program.mem_loads hq) hpq hr (hi.trans_le (least_read_le o _))
    · exact List.pairwise_of_forall fun p q r _ i hi => absurd (lt_of_lt_least_read hi).1 hapart
  have hwr : ∀ p ∈ Program.loaded false o.phdrs, ∀ i < o.least_read p,
      m'.Writable (p.p_vaddr + map.l_addr + BitVec.ofNat 64 i) := by
    intro p hp i hi
    obtain ⟨-, hlen, hend⟩ := lt_of_lt_least_read hi
    exact allocate_map_writable hfits hwf hb haligned hmap hp hlen hend
  rw [← o.count] at hloop
  have hread := load_loop_base hfile (fun p _ => least_read_le o p) hpages hwr hloop
  unfold Program.least_end Program.read_end
  cases hlast : (Program.loaded false o.phdrs).getLast? with
  | none =>
    rw [List.getLast?_eq_none_iff] at hlast
    have hhead := @Program.loaded_head o.phdrs
    rw [hlast] at hhead
    subst hb
    have hnonempty := allocate_map_nonempty hfits haligned hmap
    obtain ⟨r, hr⟩ : ∃ r, o.reserved = some r := by
      rw [← Option.ne_none_iff_exists']
      intro hnone
      simp [Program.reserved_end, hnone] at hnonempty
    exact absurd (hhead.trans (reserved_head hr)) (by simp)
  | some p =>
    rw [hlast, Option.elim_some] at hread
    obtain ⟨r, hleast, hr, hbase⟩ := hread
    have hp := Program.mem_loads (List.mem_of_getLast? hlast)
    rw [hbase, toNat_vaddr_add hfits hwf hb hp hr]
    simp only [Option.elim_some, Phdr.read_end]
    omega

/-- Of a program that can be read whole, all that its file has is read. -/
theorem least_end_eq (hread : o.Readable) : o.least_end = o.read_end := by
  unfold Program.least_end Program.read_end
  cases hlast : (Program.loaded false o.phdrs).getLast? with
  | none => rfl
  | some p =>
    have hcovered := hread.covered p (List.mem_of_getLast? hlast)
    unfold Phdr.read_end at hcovered
    simp only [Option.elim_some, Phdr.read_end, Program.least_read, if_pos hread.pages]
    omega

end Addresses

end loader

end ldso
