import LdSo.Loader.Image

open cmodel

namespace ldso

open elf elf_manipulation loader

/-- An object that the loader maps itself; the kernel has placed the others. -/
def Mapped (name : CString) : Prop := name ≠ .lit "ld.so" ∧ name ≠ .lit "linux-vdso.so.1"

instance : DecidablePred Mapped := fun _ => inferInstanceAs (Decidable (_ ∧ _))

/-- The objects of a heap that the loader maps, with their addresses. -/
def Heap.placed (heap : Heap) : List (CString × Nat) :=
  (heap.map fun v => (v.l_name, v.l_addr.toNat)).filter fun u => Mapped u.1

theorem Heap.map_link {α : Type} (f : LinkMap → α) (hf : ∀ v next, f { v with l_next := next } = f v) (heap : Heap)
    (map new : Nat) : (heap.link map new).map f = heap.map f := by
  apply List.ext_getElem?
  intro i
  rw [List.getElem?_map, List.getElem?_map, Heap.link_getElem?, Option.map_map]
  congr 1
  funext v
  simp only [Function.comp_apply]
  split
  · exact hf v _
  · rfl

theorem Heap.placed_append_node (heap : Heap) (tail : Nat) (node : LinkMap) :
    (heap.append_node tail node).placed =
      heap.placed ++ if Mapped node.l_name then [(node.l_name, node.l_addr.toNat)] else [] := by
  unfold Heap.placed Heap.append_node
  rw [Heap.map_link _ fun _ _ => rfl, List.map_append, List.filter_append]
  simp [List.filter_singleton]

theorem Heap.names_append_node (heap : Heap) (tail : Nat) (node : LinkMap) :
    (heap.append_node tail node).map LinkMap.l_name = heap.map LinkMap.l_name ++ [node.l_name] := by
  unfold Heap.append_node
  rw [Heap.map_link _ fun _ _ => rfl, List.map_append]
  rfl

/-- Where the next object is put, behind an object at address `b`. -/
def Program.next_base (o : Program) (b : Nat) : Nat := page_floor (b + o.read_end) + 3 * 4096

/-- Objects placed one after another, the first one at `b`. -/
def placements (file : CString → Program) : Nat → List CString → List (CString × Nat)
  | _, [] => []
  | b, name :: rest => (name, b) :: placements file ((file name).next_base b) rest

/-- The files of these names, as the loader reads them. -/
structure Files (sys : System) (file : CString → Program) (names : List CString) : Prop where
  on_disk : ∀ name ∈ names, (file name).OnDisk sys name
  well_formed : ∀ name ∈ names, (file name).WellFormed

/-- No address computation wraps where these objects are put. `build_link_map`
keeps an address in an `int`, where it must not become 0. -/
def Fits (file : CString → Program) (placed : List (CString × Nat)) : Prop :=
  ∀ u ∈ placed, (file u.1).FitsAt u.2 ∧ (u.2 % 2 ^ 32 = 0 → u.2 = 0)

theorem Files.of_cons {sys : System} {file : CString → Program} {name : CString} {names : List CString}
    (h : Files sys file (name :: names)) : Files sys file names where
  on_disk n hn := h.on_disk n (List.mem_cons_of_mem _ hn)
  well_formed n hn := h.well_formed n (List.mem_cons_of_mem _ hn)

theorem Fits.of_cons {file : CString → Program} {name : CString} {names : List CString} {b : Nat}
    (h : Fits file (placements file b (name :: names))) :
    ((file name).FitsAt b ∧ (b % 2 ^ 32 = 0 → b = 0)) ∧ Fits file (placements file ((file name).next_base b) names) :=
  ⟨h (name, b) List.mem_cons_self, fun u hu => h u (List.mem_cons_of_mem _ hu)⟩

namespace loader

variable {sys : System} {base vdso : elf_addr} {file : CString → Program}

/-- A new node that the kernel has placed. -/
theorem build_step_kernel {s s' : BuildState} {name : CString} (hoffset : s.offset ≠ 0) (hname : ¬ Mapped name)
    (h : build_step sys base vdso s name = .ok s') :
    ∃ node, node.l_name = name ∧ s' = { s with heap := s.heap.append_node s.map node, map := s.heap.length } := by
  unfold build_step at h
  simp only [hoffset, ne_eq, not_false_eq_true, if_true] at h
  obtain ⟨-, -, h⟩ := Outcome.bind_eq_ok_iff.mp h
  by_cases hld : name = .lit "ld.so"
  · rw [if_pos hld] at h
    cases h
    exact ⟨⟨base, name, none, none, some s.map⟩, rfl, rfl⟩
  · have hvdso : name = .lit "linux-vdso.so.1" := by
      by_contra hvdso
      exact hname ⟨hld, hvdso⟩
    rw [if_neg hld, if_pos hvdso] at h
    cases h
    exact ⟨⟨vdso, name, none, none, some s.map⟩, rfl, rfl⟩

/-- A new node that is mapped, behind the last bytes read. -/
theorem build_step_mapped {s s' : BuildState} {name : CString} (hoffset : s.offset ≠ 0) (hname : Mapped name)
    (h : build_step sys base vdso s name = .ok s') :
    ∃ node elf program ret loaded, node.l_name = name ∧ node.l_addr = ALIGN s.position + 3 * PAGE_SIZE ∧
      node.l_ld = none ∧ get_elf_ehdr sys name = .ok elf ∧ get_program_header sys elf name = .ok program ∧
      load_program sys s.mem program elf node s.position = .ok (ret, loaded) ∧
      s' = ⟨s.heap.append_node s.map { node with l_ld := loaded.l_ld }, loaded.mem, s.heap.length, loaded.base,
        node.l_addr.setWidth 32, s.ret⟩ := by
  unfold build_step at h
  simp only [hoffset, ne_eq, not_false_eq_true, if_true] at h
  obtain ⟨-, -, h⟩ := Outcome.bind_eq_ok_iff.mp h
  rw [if_neg hname.1, if_neg hname.2] at h
  obtain ⟨elf, helf, h⟩ := Outcome.bind_eq_ok_iff.mp h
  obtain ⟨program, hprogram, h⟩ := Outcome.bind_eq_ok_iff.mp h
  obtain ⟨⟨ret, loaded⟩, hload, h⟩ := Outcome.bind_eq_ok_iff.mp h
  cases h
  exact ⟨⟨ALIGN s.position + 3 * PAGE_SIZE, name, none, none, some s.map⟩, elf, program, ret, loaded, rfl, rfl, rfl, helf,
    hprogram, hload, rfl⟩

/-- The first entry uses the node at hand, at address 0. -/
theorem build_step_first {v : LinkMap} {m : Memory 64} {exe : CString} {s' : BuildState} (hexe : Mapped exe)
    (h : build_step sys base vdso ⟨[v], m, 0, 0, 0, none⟩ exe = .ok s') :
    ∃ node elf program ret loaded, node.l_name = exe ∧ node.l_addr = 0 ∧ node.l_ld = v.l_ld ∧ node.l_next = none ∧
      node.l_prev = none ∧ get_elf_ehdr sys exe = .ok elf ∧ get_program_header sys elf exe = .ok program ∧
      load_program sys m program elf node 0 = .ok (ret, loaded) ∧
      s' = ⟨[{ node with l_ld := loaded.l_ld }], loaded.mem, 0, loaded.base, 1, some 0⟩ := by
  unfold build_step load_elf_binary at h
  simp only [ne_eq, not_true_eq_false, if_false, hexe.1, hexe.2] at h
  obtain ⟨⟨ret, loaded⟩, h, hs⟩ := Outcome.bind_eq_ok_iff.mp h
  obtain ⟨elf, helf, h⟩ := Outcome.bind_eq_ok_iff.mp h
  obtain ⟨program, hprogram, hload⟩ := Outcome.bind_eq_ok_iff.mp h
  cases hs
  exact ⟨⟨0, exe, v.l_ld, none, none⟩, elf, program, ret, loaded, rfl, rfl, rfl, rfl, rfl, helf, hprogram, hload, rfl⟩

/-- What `load_program` leaves in `*base`, and what it has reserved. -/
theorem loaded_bounds {name : CString} {names : List CString} (hfiles : Files sys file (name :: names)) {m : Memory 64}
    {elf : Ehdr} {program : List Phdr} {node : LinkMap} {position ret : elf_addr} {s : Loading}
    (hname : node.l_name = name) (haligned : node.l_addr.toNat % 4096 = 0)
    (hfits : (file name).FitsAt node.l_addr.toNat)
    (helf : get_elf_ehdr sys name = .ok elf) (hprogram : get_program_header sys elf name = .ok program)
    (h : load_program sys m program elf node position = .ok (ret, s)) :
    page_floor (file name).mem_start < (file name).reserved_end ∧
      node.l_addr.toNat + (file name).least_end ≤ s.base.toNat ∧
      s.base.toNat ≤ node.l_addr.toNat + (file name).read_end := by
  have hdisk := hfiles.on_disk name (by simp)
  obtain rfl : elf = (file name).elf := Outcome.ok.inj (helf.symm.trans hdisk.ehdr)
  obtain rfl : program = (file name).phdrs := Outcome.ok.inj (hprogram.symm.trans hdisk.phdrs)
  refine ⟨?_, load_program_base (hname ▸ hdisk.file) hfits (hfiles.well_formed name (by simp)) rfl haligned h⟩
  obtain ⟨⟨ret', m'⟩, hmap, -⟩ := Outcome.bind_eq_ok_iff.mp h
  exact allocate_map_nonempty hfits haligned hmap

/-- Where the object can be read whole, the next one goes by the end of its bytes. -/
theorem loaded_base {name : CString} {names : List CString} (hfiles : Files sys file (name :: names))
    (hread : (file name).Readable) {m : Memory 64}
    {elf : Ehdr} {program : List Phdr} {node : LinkMap} {position ret : elf_addr} {s : Loading}
    (hname : node.l_name = name) (haligned : node.l_addr.toNat % 4096 = 0)
    (hfits : (file name).FitsAt node.l_addr.toNat)
    (helf : get_elf_ehdr sys name = .ok elf) (hprogram : get_program_header sys elf name = .ok program)
    (h : load_program sys m program elf node position = .ok (ret, s)) :
    page_floor s.base.toNat + 3 * 4096 = (file name).next_base node.l_addr.toNat := by
  obtain ⟨-, hleast, hend⟩ := loaded_bounds hfiles hname haligned hfits helf hprogram h
  rw [least_end_eq hread] at hleast
  rw [le_antisymm hend hleast]
  rfl

/-- The loop appends a node for every entry, and puts the objects it maps one
after another. -/
theorem build_loop_placed {rest : List CString} {b : Nat} (hfiles : Files sys file (rest.filter fun n => Mapped n))
    (hread : ∀ name ∈ rest.filter fun n => Mapped n, (file name).Readable)
    (hfits : Fits file (placements file b (rest.filter fun n => Mapped n))) {s s' : BuildState}
    (h : build_loop sys base vdso rest s = .ok s') (hmap : s.map + 1 = s.heap.length)
    (hlinks : IsLinkMap s.heap (some 0) (List.range s.heap.length)) (hoffset : s.offset ≠ 0)
    (hb : page_floor s.position.toNat + 3 * 4096 = b) :
    IsLinkMap s'.heap (some 0) (List.range s'.heap.length) ∧
      s'.heap.map LinkMap.l_name = s.heap.map LinkMap.l_name ++ rest ∧
      s'.heap.placed = s.heap.placed ++ placements file b (rest.filter fun n => Mapped n) ∧ s'.ret = s.ret := by
  induction rest generalizing s b with
  | nil =>
    cases h
    exact ⟨hlinks, by simp, by simp [placements], rfl⟩
  | cons name rest ih =>
    have hgrow := hlinks.append_node_range hmap
    have hgrowlen : ∀ node, s.heap.length + 1 = (s.heap.append_node s.map node).length :=
      fun node => (Heap.length_append_node _ _ node).symm
    unfold build_loop at h
    obtain ⟨t, hstep, h⟩ := Outcome.bind_eq_ok_iff.mp h
    by_cases hname : Mapped name
    · rw [List.filter_cons_of_pos (by simpa using hname)] at hfiles hread hfits ⊢
      obtain ⟨hreadname, hread⟩ := List.forall_mem_cons.mp hread
      obtain ⟨⟨hfitsname, hint⟩, hfits⟩ := hfits.of_cons
      obtain ⟨node, elf, program, ret, loaded, hnode, haddr, -, helf, hprogram, hload, rfl⟩ :=
        build_step_mapped hoffset hname hstep
      have haddrval : node.l_addr.toNat = b := by
        rw [haddr, BitVec.toNat_add, toNat_ALIGN, show (3 * PAGE_SIZE).toNat = 3 * 4096 from rfl, hb,
          Nat.mod_eq_of_lt hfitsname.base]
      have hnext := loaded_base hfiles hreadname hnode (by rw [haddrval, ← hb]; unfold page_floor; omega) (by rwa [haddrval]) helf
        hprogram hload
      rw [haddrval] at hnext
      have hoffset' : node.l_addr.setWidth 32 ≠ 0 := by
        intro hzero
        have hlow := congrArg BitVec.toNat hzero
        rw [BitVec.toNat_setWidth, haddrval] at hlow
        have := hint hlow
        omega
      obtain ⟨hlinks', hnames, hplaced, hret⟩ := ih hfiles.of_cons hread hfits h (hgrowlen _) (hgrow _)
        hoffset' hnext
      refine ⟨hlinks', ?_, ?_, hret⟩
      · rw [hnames, Heap.names_append_node, hnode, List.append_assoc]
        rfl
      · rw [hplaced, Heap.placed_append_node, hnode, if_pos hname, haddrval, List.append_assoc]
        rfl
    · rw [List.filter_cons_of_neg (by simpa using hname)] at hfiles hread hfits ⊢
      obtain ⟨node, hnode, rfl⟩ := build_step_kernel hoffset hname hstep
      obtain ⟨hlinks', hnames, hplaced, hret⟩ := ih hfiles hread hfits h (hgrowlen node) (hgrow node) hoffset hb
      refine ⟨hlinks', ?_, ?_, hret⟩
      · rw [hnames, Heap.names_append_node, hnode, List.append_assoc]
        rfl
      · rw [hplaced, Heap.placed_append_node, hnode, if_neg hname, List.append_nil]

/-- The link map `build_link_map` returns has the entries of the table in order,
and the objects it maps lie one after another from address 0. -/
theorem build_link_map_placed {v : LinkMap} {m m' : Memory 64} {exe : CString} {rest : List CString} {heap : Heap}
    {ret : Option Nat} (hexe : Mapped exe) (hfiles : Files sys file ((exe :: rest).filter fun n => Mapped n))
    (hread : ∀ name ∈ (exe :: rest).filter fun n => Mapped n, (file name).Readable)
    (hfits : Fits file (placements file 0 ((exe :: rest).filter fun n => Mapped n)))
    (h : build_link_map sys [v] m (exe :: rest) base vdso 0 = .ok (ret, heap, m')) :
    ret = some 0 ∧ IsLinkMap heap (some 0) (List.range heap.length) ∧ heap.map LinkMap.l_name = exe :: rest ∧
      heap.placed = placements file 0 ((exe :: rest).filter fun n => Mapped n) := by
  unfold build_link_map at h
  obtain ⟨s, hloop, h⟩ := Outcome.bind_eq_ok_iff.mp h
  cases h
  unfold build_loop at hloop
  obtain ⟨t, hstep, hloop⟩ := Outcome.bind_eq_ok_iff.mp hloop
  rw [List.filter_cons_of_pos (by simpa using hexe)] at hfiles hread hfits ⊢
  obtain ⟨hreadexe, hread⟩ := List.forall_mem_cons.mp hread
  obtain ⟨node, elf, program, ret, loaded, hnode, haddr, -, hnext, hprev, helf, hprogram, hload, rfl⟩ :=
    build_step_first hexe hstep
  have haddrval : node.l_addr.toNat = 0 := by rw [haddr]; rfl
  obtain ⟨⟨hfitsexe, -⟩, hfits⟩ := hfits.of_cons
  have hbase := loaded_base hfiles hreadexe hnode (by rw [haddrval]) (by rwa [haddrval]) helf hprogram hload
  rw [haddrval] at hbase
  have hlinks : IsLinkMap [{ node with l_ld := loaded.l_ld }] (some 0) (List.range 1) :=
    ⟨rfl, _, rfl, hprev, hnext⟩
  obtain ⟨hlinks', hnames, hplaced, hret⟩ := build_loop_placed hfiles.of_cons hread hfits hloop rfl hlinks
    (by simp) hbase
  refine ⟨hret, hlinks', ?_, ?_⟩
  · rw [hnames, List.map_singleton, hnode]
    rfl
  · rw [hplaced]
    simp [Heap.placed, placements, hnode, hexe, haddrval]

end loader

end ldso
