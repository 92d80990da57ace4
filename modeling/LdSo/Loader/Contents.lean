import LdSo.Lib.Memory.Layers
import LdSo.Loader.Separation
import LdSo.Loader.Trace

open cmodel

namespace ldso

open elf elf_manipulation loader utility

namespace Program

/-- The bytes that the file has for a segment, at their place in memory. -/
def file_layer (o : Program) (l_addr : elf_addr) (p : Phdr) : Layer 64 := .ofBytes (p.p_vaddr + l_addr) (p.bytes o.content)

/-- What loading an object at `l_addr` puts over the address space: zeros where
memory is mapped for it, and over them the bytes of the segments that the loop of
`load_program` comes to. -/
def layers (o : Program) (l_addr : elf_addr) : List (Layer 64) :=
  .zero (o.mapping l_addr) :: (loaded false o.phdrs).map (o.file_layer l_addr)

/-- The object is in memory at `l_addr`: each byte that its file has for one of these
segments is at its place, and what else of its image is mapped is zero. -/
structure Loaded (o : Program) (l_addr : elf_addr) (m : Memory 64) : Prop where
  file : ∀ p ∈ loaded false o.phdrs, ∀ i (hi : i < (p.bytes o.content).length),
    m.values (p.p_vaddr + l_addr + BitVec.ofNat 64 i) = some (p.bytes o.content)[i]
  zero : ∀ x ∈ o.image l_addr, (o.mapping l_addr).Contains x →
    (∀ p ∈ loaded false o.phdrs, ¬ (o.file_layer l_addr p).region.Contains x) → m.values x = some 0

theorem loaded_true_eq (table : List Phdr) :
    loaded true table = loads_of (table.takeWhile fun p => p.Relevant) := by
  induction table with
  | nil => rfl
  | cons p rest ih =>
    rw [loaded]
    by_cases hload : p.p_type = PT_LOAD
    · have hrelevant : p.Relevant := Or.inl hload
      rw [if_pos hload, List.takeWhile_cons_of_pos (by simpa using hrelevant), loads_of_cons_load hload, ih]
    · rw [if_neg hload]
      by_cases hdyn : p.p_type = PT_DYNAMIC
      · have hrelevant : p.Relevant := Or.inr hdyn
        rw [if_pos hdyn, List.takeWhile_cons_of_pos (by simpa using hrelevant), loads_of_cons_other hload, ih]
      · have hother : ¬ p.Relevant := not_or.mpr ⟨hload, hdyn⟩
        rw [if_neg hdyn, if_pos rfl, List.takeWhile_cons_of_neg (by simpa using hother)]
        rfl

/-- The headers the loop comes to are those of the front of the table. -/
theorem loaded_eq_front (table : List Phdr) : loaded false table = loads_of (front table) := by
  induction table with
  | nil => rfl
  | cons p rest ih =>
    rw [loaded]
    by_cases hload : p.p_type = PT_LOAD
    · have hrelevant : p.Relevant := Or.inl hload
      rw [if_pos hload, loaded_true_eq, front, List.takeWhile_cons_of_neg (by simpa using hload),
        List.dropWhile_cons_of_neg (by simpa using hload), List.takeWhile_cons_of_pos (by simpa using hrelevant),
        List.nil_append, loads_of_cons_load hload]
    · have hfront : front (p :: rest) = p :: front rest := by
        rw [front, List.takeWhile_cons_of_pos (by simpa using hload), List.dropWhile_cons_of_pos (by simpa using hload)]
        rfl
      rw [if_neg hload, hfront, loads_of_cons_other hload, ih]
      split <;> rfl

section Addresses

variable {o : Program} {a x : elf_addr}

/-- The addresses of the bytes that are read for a segment. -/
theorem file_layer_contains_iff (hfits : o.FitsAt a.toNat) (hwf : o.WellFormed) {p : Phdr} (hp : p ∈ o.loads) :
    (o.file_layer a p).region.Contains x ↔
      a.toNat + p.p_vaddr.toNat ≤ x.toNat ∧ x.toNat < a.toNat + p.read_end o.content := by
  have hmem := hfits.mem p hp
  have hle := hwf.filesz_le p hp
  have hlen := bytes_length_le p o.content
  have hx := x.isLt
  unfold file_layer Layer.ofBytes Region.Contains Phdr.read_end Phdr.mem_end at *
  simp only
  rw [BitVec.toNat_sub, toNat_vaddr_add_l_addr hfits hp]
  omega

theorem read_end_le (hwf : o.WellFormed) {p : Phdr} (hp : p ∈ o.loads) : p.read_end o.content ≤ p.mem_end := by
  have hle := hwf.filesz_le p hp
  have hlen := bytes_length_le p o.content
  unfold Phdr.read_end Phdr.mem_end
  omega

theorem mem_image_of_file_layer (hfits : o.FitsAt a.toNat) (hwf : o.WellFormed) {p : Phdr} (hp : p ∈ o.loads)
    (hx : (o.file_layer a p).region.Contains x) : x ∈ o.image a := by
  have hbounds := (file_layer_contains_iff hfits hwf hp).mp hx
  have hend := read_end_le hwf hp
  exact (mem_image_iff hfits).mpr ⟨p, hp, hbounds.1, by omega⟩

/-- Everything that is put over the address space for an object lies in its mapping. -/
theorem mapping_contains_of_layer (hfits : o.FitsAt a.toNat) (hwf : o.WellFormed) (hread : o.Readable)
    (haligned : a.toNat % 4096 = 0) {l : Layer 64} (hl : l ∈ o.layers a) (hx : l.region.Contains x) :
    (o.mapping a).Contains x := by
  obtain rfl | hl := List.mem_cons.mp hl
  · exact hx
  · obtain ⟨p, hp, rfl⟩ := List.mem_map.mp hl
    have hbounds := (file_layer_contains_iff hfits hwf (mem_loads hp)).mp hx
    have hstart := mem_start_le hwf (mem_loads hp)
    have hend := hread.covered p hp
    refine (mapping_contains_iff hfits haligned).mpr ⟨?_, by omega⟩
    unfold page_floor
    omega

/-- An object is in memory when nothing lies over it that meets its image. -/
theorem loaded_of_stack (hfits : o.FitsAt a.toNat) (hwf : o.WellFormed) {m : Memory 64} {below above : List (Layer 64)}
    {f : elf_addr → Option Byte} (habove : ∀ x ∈ o.image a, ∀ l ∈ above, ¬ l.region.Contains x)
    (hm : m.values = Layer.stack (below ++ (o.layers a ++ above)) f) : o.Loaded a m := by
  constructor
  · intro p hp i hi
    obtain ⟨front, back, hsplit⟩ := List.append_of_mem hp
    have hx : (o.file_layer a p).region.Contains (p.p_vaddr + a + BitVec.ofNat 64 i) := Region.contains_add hi
    have hbounds := (file_layer_contains_iff hfits hwf (mem_loads hp)).mp hx
    -- segments behind it lie behind its memory
    have hover : ∀ l ∈ back.map (o.file_layer a) ++ above, ¬ l.region.Contains (p.p_vaddr + a + BitVec.ofNat 64 i) := by
      intro l hl hin
      obtain hl | hl := List.mem_append.mp hl
      · obtain ⟨q, hq, rfl⟩ := List.mem_map.mp hl
        have hascending := hwf.ascending.sublist (@loaded_sublist false o.phdrs)
        rw [hsplit, List.pairwise_append, List.pairwise_cons] at hascending
        have hlater := hascending.2.1.1 q hq
        have hqloaded : q ∈ loaded false o.phdrs := by
          rw [hsplit]
          exact List.mem_append_right _ (List.mem_cons_of_mem _ hq)
        have hqbounds := (file_layer_contains_iff hfits hwf (mem_loads hqloaded)).mp hin
        have hend := read_end_le hwf (mem_loads hp)
        omega
      · exact habove _ (mem_image_of_file_layer hfits hwf (mem_loads hp) hx) l hl hin
    have hlayers : below ++ (o.layers a ++ above) = (below ++ .zero (o.mapping a) :: front.map (o.file_layer a)) ++
        o.file_layer a p :: (back.map (o.file_layer a) ++ above) := by
      simp [layers, hsplit]
    rw [hm, hlayers, Layer.stack_of_contains hx hover]
    have hoff : (p.p_vaddr + a + BitVec.ofNat 64 i - (p.p_vaddr + a)).toNat = i := by
      have hlen := bytes_length_le p o.content
      have hfilesz := p.p_filesz.isLt
      rw [show p.p_vaddr + a + BitVec.ofNat 64 i - (p.p_vaddr + a) = BitVec.ofNat 64 i by ring, BitVec.toNat_ofNat,
        Nat.mod_eq_of_lt (by omega)]
    simp only [file_layer, Layer.ofBytes, hoff, List.getElem?_eq_getElem hi, Option.getD_some]
  · intro x himage hmapping hnot
    have hover : ∀ l ∈ (loaded false o.phdrs).map (o.file_layer a) ++ above, ¬ l.region.Contains x := by
      intro l hl
      obtain hl | hl := List.mem_append.mp hl
      · obtain ⟨p, hp, rfl⟩ := List.mem_map.mp hl
        exact hnot p hp
      · exact habove x himage l hl
    rw [hm, layers, List.cons_append, Layer.stack_of_contains (l := .zero (o.mapping a)) hmapping hover]
    rfl

end Addresses

end Program

namespace loader

open Program

variable {sys : System} {map : LinkMap} {file : CString → Program}

/-- Where its memory can be written, a segment that is loaded lies over what was there. -/
theorem load_segment_values {p : Phdr} {s t : Loading} {content : List Byte}
    (hfile : sys.file map.l_name = some content)
    (hwr : ∀ i < (p.bytes content).length, s.mem.Writable (p.p_vaddr + map.l_addr + BitVec.ofNat 64 i))
    (h : load_segment sys map p s = .ok t) :
    t.mem.values = (Layer.ofBytes (p.p_vaddr + map.l_addr) (p.bytes content)).onto s.mem.values := by
  have hbase := (load_segment_whole hfile hwr h).1
  obtain ⟨content', hopen, h⟩ := Outcome.bind_eq_ok_iff.mp h
  rw [xopen_of_file hfile] at hopen
  cases hopen
  obtain ⟨pos, hseek, h⟩ := Outcome.bind_eq_ok_iff.mp h
  obtain ⟨⟨r, m₁⟩, hread, h⟩ := Outcome.bind_eq_ok_iff.mp h
  have hbytes : xread content pos p.p_filesz.toNat = p.bytes content := by
    unfold xlseek at hseek
    split at hseek
    · cases hseek
    · cases hseek
      rfl
  dsimp only at h
  split at h
  · cases h
  · next m₂ hprotect =>
    cases h
    -- the count that is read is the one by which `*base` went on
    have hlen := bytes_length_le p content
    have hfilesz := p.p_filesz.isLt
    have hr : (BitVec.ofNat 64 r).toNat = (BitVec.ofNat 64 (p.bytes content).length).toNat :=
      congrArg BitVec.toNat (add_left_cancel hbase)
    rw [hbytes] at hread
    unfold xread_memory at hread
    dsimp only at hread
    split at hread
    · cases hread
    · cases hread
      have hle := (List.takeWhile_sublist (l := List.range (p.bytes content).length) fun i =>
        decide (s.mem.Writable (p.p_vaddr + map.l_addr + BitVec.ofNat 64 i))).length_le
      rw [List.length_range] at hle
      rw [BitVec.toNat_ofNat, BitVec.toNat_ofNat, Nat.mod_eq_of_lt (by omega), Nat.mod_eq_of_lt (by omega)] at hr
      rw [hr, List.take_length] at hprotect
      unfold unistd.mprotect at hprotect
      split at hprotect
      · cases hprotect
        rw [Memory.values_mprotect, Layer.values_put]
        intro x hx
        obtain ⟨c, hc, -⟩ := hwr _ hx
        rw [Region.eq_add_of_contains (r := ⟨p.p_vaddr + map.l_addr, (p.bytes content).length⟩) (a := x), hc]
        rfl
      · cases hprotect

/-- Segments that do not change each other's protection lie one over the other. -/
theorem load_each_values {content : List Byte} (hfile : sys.file map.l_name = some content) {ps : List Phdr}
    (hpages : ps.Pairwise fun p q => ∀ i < (q.bytes content).length,
      ¬ (protected_region map content p).Contains (q.p_vaddr + map.l_addr + BitVec.ofNat 64 i))
    {s t : Loading} {calls : List (Phdr × elf_addr)} (hwr : ∀ p ∈ ps, ∀ i < (p.bytes content).length,
      s.mem.Writable (p.p_vaddr + map.l_addr + BitVec.ofNat 64 i))
    (h : load_each sys map ps s = .ok (calls, t)) :
    t.mem.values = Layer.stack (ps.map fun p => .ofBytes (p.p_vaddr + map.l_addr) (p.bytes content)) s.mem.values := by
  induction ps generalizing s calls with
  | nil =>
    cases h
    rfl
  | cons p ps ih =>
    obtain ⟨u, hsegment, h⟩ := Outcome.bind_eq_ok_iff.mp h
    obtain ⟨⟨calls', t'⟩, hrest, h⟩ := Outcome.bind_eq_ok_iff.mp h
    cases h
    obtain ⟨hhead, htail⟩ := List.pairwise_cons.mp hpages
    obtain ⟨hwrp, hwrps⟩ := List.forall_mem_cons.mp hwr
    have hsame := (load_segment_whole hfile hwrp hsegment).2
    rw [ih htail (fun q hq i hi => (hsame _ (hhead q hq i hi)).mpr (hwrps q hq i hi)) hrest,
      load_segment_values hfile hwrp hsegment]
    rfl

/-- A program that is loaded lies over what was there. -/
theorem load_program_values {o : Program} {m : Memory 64} {ret base : elf_addr} {s : Loading}
    (hfile : sys.file map.l_name = some o.content) (hfits : o.FitsAt map.l_addr.toNat) (hwf : o.WellFormed)
    (hread : o.Readable) (haligned : map.l_addr.toNat % 4096 = 0)
    (h : load_program sys m o.phdrs o.elf map base = .ok (ret, s)) :
    s.mem.values = Layer.stack (o.layers map.l_addr) m.values := by
  obtain ⟨⟨ret', m₁⟩, hmap, h⟩ := Outcome.bind_eq_ok_iff.mp h
  obtain ⟨s', hloop, h⟩ := Outcome.bind_eq_ok_iff.mp h
  cases h
  have hpages : (loaded false o.phdrs).Pairwise fun p q => ∀ i < (q.bytes o.content).length,
      ¬ (protected_region map o.content p).Contains (q.p_vaddr + map.l_addr + BitVec.ofNat 64 i) :=
    hread.pages.imp_of_mem fun hp hq hpq i hi =>
      not_protected hfits hwf rfl haligned (mem_loads hp) (mem_loads hq) hpq le_rfl hi
  have hwr : ∀ p ∈ loaded false o.phdrs, ∀ i < (p.bytes o.content).length,
      m₁.Writable (p.p_vaddr + map.l_addr + BitVec.ofNat 64 i) := fun p hp i hi =>
    by
    have hend := hread.covered p hp
    unfold Phdr.read_end at hend
    exact allocate_map_writable hfits hwf rfl haligned hmap hp hi (by omega)
  rw [← o.count, load_loop_eq_trace] at hloop
  obtain ⟨⟨calls, t⟩, htrace, hloop⟩ := Outcome.bind_eq_ok_iff.mp hloop
  cases hloop
  rw [load_trace_eq_front] at htrace
  obtain ⟨⟨calls', u⟩, heach, hset⟩ := Outcome.bind_eq_ok_iff.mp htrace
  cases hset
  rw [loaded_eq_front] at hpages hwr
  have hvalues := load_each_values hfile hpages hwr heach
  have hzero : (Layer.zero (o.mapping map.l_addr)).onto m.values = m₁.values := by
    rw [allocate_map_eq_ok hmap]
    exact Layer.values_mmap.symm
  rw [layers, Layer.stack_cons, hzero, loaded_eq_front]
  exact hvalues

section Build

variable {base vdso : elf_addr}

/-- The layers of objects that are put at these addresses. -/
def placed_layers (file : CString → Program) (us : List (CString × Nat)) : List (Layer 64) :=
  us.flatMap fun u => (file u.1).layers (BitVec.ofNat 64 u.2)

/-- The entry for an object that is mapped puts it over the address space. -/
theorem load_file_values {name : CString} (hdisk : (file name).OnDisk sys name) (hwf : (file name).WellFormed)
    (hread : (file name).Readable) {m : Memory 64} {elf : Ehdr} {program : List Phdr} {node : LinkMap}
    {position ret : elf_addr} {s : Loading} (hname : node.l_name = name) (haligned : node.l_addr.toNat % 4096 = 0)
    (hfits : (file name).FitsAt node.l_addr.toNat) (helf : get_elf_ehdr sys name = .ok elf)
    (hprogram : get_program_header sys elf name = .ok program)
    (h : load_program sys m program elf node position = .ok (ret, s)) :
    s.mem.values = Layer.stack ((file name).layers node.l_addr) m.values := by
  obtain rfl : elf = (file name).elf := Outcome.ok.inj (helf.symm.trans hdisk.ehdr)
  obtain rfl : program = (file name).phdrs := Outcome.ok.inj (hprogram.symm.trans hdisk.phdrs)
  exact load_program_values (hname ▸ hdisk.file) hfits hwf hread haligned h

/-- The loop puts the objects that it maps over the address space, in their order. -/
theorem build_loop_values {rest : List CString} {b : Nat} (hfiles : Files sys file (rest.filter fun n => Mapped n))
    (hread : ∀ name ∈ rest.filter fun n => Mapped n, (file name).Readable)
    (hfits : Fits file (placements file b (rest.filter fun n => Mapped n))) {s s' : BuildState}
    (h : build_loop sys base vdso rest s = .ok s') (hoffset : s.offset ≠ 0)
    (hb : page_floor s.position.toNat + 3 * 4096 = b) :
    s'.mem.values = Layer.stack (placed_layers file (placements file b (rest.filter fun n => Mapped n))) s.mem.values := by
  induction rest generalizing s b with
  | nil =>
    cases h
    rfl
  | cons name rest ih =>
    obtain ⟨t, hstep, h⟩ := Outcome.bind_eq_ok_iff.mp h
    by_cases hname : Mapped name
    · rw [List.filter_cons_of_pos (by simpa using hname)] at hfiles hread hfits ⊢
      obtain ⟨hreadname, hread⟩ := List.forall_mem_cons.mp hread
      obtain ⟨⟨hfitsname, hint⟩, hfits⟩ := hfits.of_cons
      obtain ⟨node, elf, program, ret, loaded, hnode, haddr, -, helf, hprogram, hload, rfl⟩ :=
        build_step_mapped hoffset hname hstep
      have haddrval : node.l_addr.toNat = b := by
        rw [haddr, BitVec.toNat_add, toNat_ALIGN, show (3 * PAGE_SIZE).toNat = 3 * 4096 from rfl, hb,
          Nat.mod_eq_of_lt hfitsname.base]
      subst haddrval
      have haligned : node.l_addr.toNat % 4096 = 0 := by
        rw [← hb]
        unfold page_floor
        omega
      have hoffset' : node.l_addr.setWidth 32 ≠ 0 := by
        intro hzero
        have hlow := congrArg BitVec.toNat hzero
        rw [BitVec.toNat_setWidth] at hlow
        have := hint hlow
        omega
      have hself := load_file_values (hfiles.on_disk name (by simp)) (hfiles.well_formed name (by simp))
        hreadname hnode haligned hfitsname helf hprogram hload
      have hbase := loaded_base hfiles hreadname hnode haligned hfitsname helf hprogram hload
      rw [ih hfiles.of_cons hread hfits h hoffset' hbase]
      dsimp only
      rw [hself, ← Layer.stack_append]
      simp [placed_layers, placements]
    · rw [List.filter_cons_of_neg (by simpa using hname)] at hfiles hread hfits ⊢
      obtain ⟨node, -, rfl⟩ := build_step_kernel hoffset hname hstep
      have hrest := ih hfiles hread hfits h hoffset hb
      exact hrest

/-- So does `build_link_map`, whose first entry is mapped at address 0. -/
theorem build_link_map_values {v : LinkMap} {m m' : Memory 64} {exe : CString} {rest : List CString} {heap : Heap}
    {ret : Option Nat} (hexe : Mapped exe) (hfiles : Files sys file ((exe :: rest).filter fun n => Mapped n))
    (hread : ∀ name ∈ (exe :: rest).filter fun n => Mapped n, (file name).Readable)
    (hfits : Fits file (placements file 0 ((exe :: rest).filter fun n => Mapped n)))
    (h : build_link_map sys [v] m (exe :: rest) base vdso 0 = .ok (ret, heap, m')) :
    m'.values =
      Layer.stack (placed_layers file (placements file 0 ((exe :: rest).filter fun n => Mapped n))) m.values := by
  obtain ⟨s, hloop, h⟩ := Outcome.bind_eq_ok_iff.mp h
  cases h
  obtain ⟨t, hstep, hloop⟩ := Outcome.bind_eq_ok_iff.mp hloop
  rw [List.filter_cons_of_pos (by simpa using hexe)] at hfiles hread hfits ⊢
  obtain ⟨hreadexe, hread⟩ := List.forall_mem_cons.mp hread
  obtain ⟨node, elf, program, ret, loaded, hnode, haddr, -, -, -, helf, hprogram, hload, rfl⟩ :=
    build_step_first hexe hstep
  have haddrval : node.l_addr.toNat = 0 := by
    rw [haddr]
    rfl
  obtain ⟨⟨hfitsexe, -⟩, hfits⟩ := hfits.of_cons
  have hself := load_file_values (hfiles.on_disk exe (by simp)) (hfiles.well_formed exe (by simp))
    hreadexe hnode (by rw [haddrval]) (by rwa [haddrval]) helf hprogram hload
  have hbase := loaded_base hfiles hreadexe hnode (by rw [haddrval]) (by rwa [haddrval]) helf hprogram hload
  rw [haddrval] at hbase
  have hrest := build_loop_values hfiles.of_cons hread hfits hloop (by simp) hbase
  rw [hrest, hself, haddr, ← Layer.stack_append]
  simp [placed_layers, placements]

/-- Of objects that are separate, each one is in memory. -/
theorem loaded_of_placed {names : List CString} (hfiles : Files sys file names) (hread : ∀ name ∈ names, (file name).Readable)
    {us : List (CString × Nat)} (hnames : ∀ u ∈ us, u.1 ∈ names) (haligned : ∀ u ∈ us, u.2 % 4096 = 0) (hfits : Fits file us)
    (hseparate : us.Pairwise fun u w =>
      (file u.1).Separate (BitVec.ofNat 64 u.2) (file w.1) (BitVec.ofNat 64 w.2))
    {m : Memory 64} {f : elf_addr → Option Byte} (hm : m.values = Layer.stack (placed_layers file us) f)
    {u : CString × Nat} (hu : u ∈ us) : (file u.1).Loaded (BitVec.ofNat 64 u.2) m := by
  have hfits' : ∀ w ∈ us, (file w.1).FitsAt (BitVec.ofNat 64 w.2).toNat := by
    intro w hw
    rw [BitVec.toNat_ofNat, Nat.mod_eq_of_lt (hfits w hw).1.base]
    exact (hfits w hw).1
  obtain ⟨front, back, rfl⟩ := List.append_of_mem hu
  rw [List.pairwise_append, List.pairwise_cons] at hseparate
  have hstack : placed_layers file (front ++ u :: back) =
      placed_layers file front ++ ((file u.1).layers (BitVec.ofNat 64 u.2) ++ placed_layers file back) := by
    simp [placed_layers]
  rw [hstack] at hm
  refine loaded_of_stack (hfits' u hu) (hfiles.well_formed _ (hnames u hu)) ?_ hm
  -- what is mapped for the objects behind it does not meet its image
  intro x hx l hl hin
  obtain ⟨w, hw, hl⟩ := List.mem_flatMap.mp hl
  have hwmem : w ∈ front ++ u :: back := List.mem_append_right _ (List.mem_cons_of_mem _ hw)
  refine (hseparate.2.1.1 w hw).2 x hx (mapping_contains_of_layer (hfits' w hwmem)
    (hfiles.well_formed _ (hnames w hwmem)) (hread _ (hnames w hwmem)) ?_ hl hin)
  rw [BitVec.toNat_ofNat, Nat.mod_eq_of_lt (hfits w hwmem).1.base]
  exact haligned w hwmem

/-- Where each of the objects follows its neighbour, all of them are. -/
theorem loaded_of_link_map {v : LinkMap} {m m' : Memory 64} {exe : CString} {rest : List CString} {heap : Heap}
    {ret : Option Nat} (hexe : Mapped exe) (hfiles : Files sys file ((exe :: rest).filter fun n => Mapped n))
    (hread : ∀ name ∈ (exe :: rest).filter fun n => Mapped n, (file name).Readable)
    (hfits : Fits file (placements file 0 ((exe :: rest).filter fun n => Mapped n)))
    (hchain : ((exe :: rest).filter fun n => Mapped n).IsChain fun n n' => (file n).Follows (file n'))
    (h : build_link_map sys [v] m (exe :: rest) base vdso 0 = .ok (ret, heap, m')) :
    ∀ u ∈ heap, Mapped u.l_name → (file u.l_name).Loaded u.l_addr m' := by
  intro u hu hmapped
  obtain ⟨-, -, -, hplaced⟩ := build_link_map_placed hexe hfiles hread hfits h
  have hmem : (u.l_name, u.l_addr.toNat) ∈ heap.placed :=
    List.mem_filter.mpr ⟨List.mem_map.mpr ⟨u, hu, rfl⟩, by simpa using hmapped⟩
  rw [hplaced] at hmem
  have hloaded := loaded_of_placed hfiles hread placements_name (placements_aligned rfl) hfits
    (placements_separate hfiles hread rfl hfits hchain) (build_link_map_values hexe hfiles hread hfits h) hmem
  simpa using hloaded

/-- After `build_link_map` the address space is what it was with the objects that
are mapped over it, one over the other in the order of the link map. Where each of
them follows its neighbour, they all are in memory. -/
theorem build_link_map_contents {v : LinkMap} {m m' : Memory 64} {exe : CString} {rest : List CString} {heap : Heap}
    {ret : Option Nat} (hexe : Mapped exe) (hfiles : Files sys file ((exe :: rest).filter fun n => Mapped n))
    (hread : ∀ name ∈ (exe :: rest).filter fun n => Mapped n, (file name).Readable)
    (hfits : Fits file (placements file 0 ((exe :: rest).filter fun n => Mapped n)))
    (h : build_link_map sys [v] m (exe :: rest) base vdso 0 = .ok (ret, heap, m')) :
    m'.values = Layer.stack (placed_layers file heap.placed) m.values ∧
      (((exe :: rest).filter fun n => Mapped n).IsChain (fun n n' => (file n).Follows (file n')) →
        ∀ u ∈ heap, Mapped u.l_name → (file u.l_name).Loaded u.l_addr m') := by
  obtain ⟨-, -, -, hplaced⟩ := build_link_map_placed hexe hfiles hread hfits h
  rw [hplaced]
  exact ⟨build_link_map_values hexe hfiles hread hfits h, fun hchain => loaded_of_link_map hexe hfiles hread hfits hchain h⟩

end Build

/-- The executable with a small .bss and the library behind it are in memory. -/
theorem build_link_map_contents_small : ∃ m',
    build_link_map (exe_and_lib_sys small_exe) [⟨0, .lit "", none, none, none⟩] (fun _ => none)
      [.lit "/a", .lit "ld.so", .lit "/l"] 0x7f0000000000 0 0 = .ok (some 0, exe_and_lib_heap, m') ∧
    small_exe.Loaded 0 m' ∧ lib.Loaded 0x403000 m' := by
  have hrun : exe_and_lib_map small_exe = .ok (some 0, exe_and_lib_heap) := by decide +kernel
  obtain ⟨⟨ret, heap, m'⟩, hbuild, hres⟩ := Outcome.bind_eq_ok_iff.mp hrun
  cases hres
  have hfits : Fits (exe_and_lib small_exe) [(.lit "/a", 0), (.lit "/l", 0x403000)] := by
    intro u hu
    obtain rfl | rfl := List.mem_pair.mp hu <;>
      exact ⟨⟨by decide, by decide +kernel, by decide +kernel⟩, by decide⟩
  have hread : ∀ name ∈ [CString.lit "/a", .lit "ld.so", .lit "/l"].filter (fun n => Mapped n),
      (exe_and_lib small_exe name).Readable := by
    intro name hname
    obtain rfl | rfl := List.mem_pair.mp hname <;> exact ⟨by decide +kernel, by decide +kernel⟩
  have hloaded := (build_link_map_contents (by decide) exe_and_lib_files hread hfits hbuild).2 (by decide +kernel)
  exact ⟨m', hbuild, hloaded ⟨0, .lit "/a", none, some 1, none⟩ (by simp [exe_and_lib_heap]) (by decide),
    hloaded ⟨0x403000, .lit "/l", none, none, some 1⟩ (by simp [exe_and_lib_heap]) (by decide)⟩

end loader

end ldso
