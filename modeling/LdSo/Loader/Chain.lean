import LdSo.Loader.Build

open cmodel

namespace ldso.loader

open elf elf_manipulation

variable {sys : System} {base vdso : elf_addr}

/-- The addresses that the objects of a table are put at when each has a node of
its own: the first one at `l_addr`, each other one behind the bytes read before.
The list ends with an object that cannot be loaded. -/
def load_addresses (sys : System) : List CString → elf_addr → elf_addr → Memory 64 → List elf_addr
  | [], _, _, _ => []
  | name :: rest, l_addr, position, m =>
    if Mapped name then
      match load_elf_binary sys m ⟨l_addr, name, none, none, none⟩ position with
      | .ok (_, s) => l_addr :: load_addresses sys rest (ALIGN s.base + 3 * PAGE_SIZE) s.base s.mem
      | _ => [l_addr]
    else load_addresses sys rest l_addr position m

/-- Loading a program does not look at the links of its node. -/
theorem load_loop_congr {node node' : LinkMap} (hname : node'.l_name = node.l_name)
    (haddr : node'.l_addr = node.l_addr) (n : Nat) (program : List Phdr) (load : Bool) (s : Loading) :
    load_loop sys node' n program load s = load_loop sys node n program load s := by
  have hsegment : ∀ p s, load_segment sys node' p s = load_segment sys node p s := by
    intro p s
    simp only [load_segment, hname, haddr]
  induction n generalizing program load s with
  | zero => rfl
  | succ n ih =>
    cases program with
    | nil => rfl
    | cons p rest => simp only [load_loop, hsegment, haddr, ih]

theorem load_program_congr {node node' : LinkMap} (hname : node'.l_name = node.l_name)
    (haddr : node'.l_addr = node.l_addr)
    (hld : node'.l_ld = node.l_ld) (m : Memory 64) (program : List Phdr) (elf : Ehdr) (position : elf_addr) :
    load_program sys m program elf node' position = load_program sys m program elf node position := by
  simp only [load_program, haddr, hld, load_loop_congr hname haddr]

def BuildState.names (s : BuildState) : List CString := s.heap.map LinkMap.l_name

/-- As long as `offset` is 0, the entry takes the place of the one before. -/
theorem build_step_reuse {s s' : BuildState} {name : CString} (hoffset : s.offset = 0)
    (h : build_step sys base vdso s name = .ok s') :
    s'.map = s.map ∧ s'.names = s.names.set s.map name ∧ (Mapped name ∨ s'.offset = 0) := by
  have hlink : ∀ heap : Heap, (heap.link s.map s.map).map LinkMap.l_name = heap.map LinkMap.l_name :=
    fun heap => Heap.map_link _ (fun _ _ => rfl) heap _ _
  unfold build_step at h
  simp only [hoffset, ne_eq, not_true_eq_false, if_false] at h
  by_cases hld : name = .lit "ld.so"
  · rw [if_pos hld] at h
    cases h
    exact ⟨rfl, by simp [BuildState.names, hlink, List.map_set], Or.inr rfl⟩
  by_cases hvdso : name = .lit "linux-vdso.so.1"
  · rw [if_neg hld, if_pos hvdso] at h
    cases h
    exact ⟨rfl, by simp [BuildState.names, hlink, List.map_set], Or.inr rfl⟩
  · rw [if_neg hld, if_neg hvdso] at h
    obtain ⟨⟨ret, loaded⟩, -, h⟩ := Outcome.bind_eq_ok_iff.mp h
    cases h
    exact ⟨rfl, by simp [BuildState.names, List.map_set], Or.inl ⟨hld, hvdso⟩⟩

/-- The node at hand is always the one allocated last; the entry goes into it as
long as `offset` is 0 and into a new node otherwise. -/
theorem build_step_names {s s' : BuildState} {name : CString} (hlast : s.map + 1 = s.heap.length)
    (h : build_step sys base vdso s name = .ok s') :
    s'.map + 1 = s'.heap.length ∧
      s'.names = (if s.offset = 0 then s.names.dropLast else s.names) ++ [name] := by
  by_cases hoffset : s.offset = 0
  · obtain ⟨hmap, hnames, -⟩ := build_step_reuse hoffset h
    have hlen := congrArg List.length hnames
    simp only [BuildState.names, List.length_set, List.length_map] at hlen
    refine ⟨by omega, ?_⟩
    have hne : s.names ≠ [] := by
      intro hnil
      have hzero := congrArg List.length hnil
      simp only [BuildState.names, List.length_map, List.length_nil] at hzero
      omega
    have hlast' : s.map = s.names.dropLast.length := by
      simp only [BuildState.names, List.length_dropLast, List.length_map]
      omega
    rw [hnames, if_pos hoffset, ← List.dropLast_append_getLast hne, hlast']
    simp
  · have hnew : ∀ node, s.heap.length + 1 = (s.heap.append_node s.map node).length :=
      fun node => (Heap.length_append_node _ _ node).symm
    rw [if_neg hoffset]
    by_cases hname : Mapped name
    · obtain ⟨node, elf, program, ret, loaded, hnode, -, -, -, -, -, rfl⟩ := build_step_mapped hoffset hname h
      exact ⟨hnew _, by simp only [BuildState.names, Heap.names_append_node, hnode]⟩
    · obtain ⟨node, hnode, rfl⟩ := build_step_kernel hoffset hname h
      exact ⟨hnew _, by simp only [BuildState.names, Heap.names_append_node, hnode]⟩

/-- No name is on more nodes than it has entries. -/
theorem build_loop_names_le {rest : List CString} {s s' : BuildState} (hlast : s.map + 1 = s.heap.length)
    (h : build_loop sys base vdso rest s = .ok s') :
    s'.names.length ≤ s.names.length + rest.length ∧ ∀ x, s'.names.count x ≤ s.names.count x + rest.count x := by
  induction rest generalizing s with
  | nil =>
    cases h
    simp
  | cons name rest ih =>
    obtain ⟨t, hstep, h⟩ := Outcome.bind_eq_ok_iff.mp h
    obtain ⟨hlast', hnames⟩ := build_step_names hlast hstep
    obtain ⟨hlen, hcount⟩ := ih hlast' h
    have hle : (if s.offset = 0 then s.names.dropLast else s.names).Sublist s.names := by
      split
      · exact List.dropLast_sublist _
      · exact List.Sublist.refl _
    have hlenle := hle.length_le
    rw [hnames, List.length_append] at hlen
    refine ⟨by simp only [List.length_cons, List.length_nil] at hlen ⊢; omega, fun x => ?_⟩
    have hcountle := hle.count_le x
    have hcountx := hcount x
    rw [hnames, List.count_append, List.count_singleton] at hcountx
    rw [List.count_cons]
    omega

/-- An entry whose node is used again for the next one is lost. -/
theorem build_loop_overwritten {rest front : List CString} {s s' : BuildState} {name y : CString}
    (hlast : s.map + 1 = s.heap.length) (hoffset : s.offset = 0) (hnames : s.names = front ++ [y])
    (h : build_loop sys base vdso (name :: rest) s = .ok s') :
    s'.names.count y < (front ++ y :: name :: rest).count y := by
  obtain ⟨t, hstep, h⟩ := Outcome.bind_eq_ok_iff.mp h
  obtain ⟨hlast', hnames'⟩ := build_step_names hlast hstep
  rw [if_pos hoffset, hnames, List.dropLast_concat] at hnames'
  have hcount := (build_loop_names_le hlast' h).2 y
  rw [hnames', List.count_append, List.count_singleton] at hcount
  rw [List.count_append, List.count_cons_self, List.count_cons]
  omega

/-- What one loaded object adds to the addresses. -/
theorem load_addresses_cons {node : LinkMap} {elf : Ehdr} {program : List Phdr} {m : Memory 64}
    {position ret : elf_addr} {loaded : Loading} (hname : Mapped node.l_name) (hld : node.l_ld = none)
    (helf : get_elf_ehdr sys node.l_name = .ok elf) (hprogram : get_program_header sys elf node.l_name = .ok program)
    (hload : load_program sys m program elf node position = .ok (ret, loaded)) (rest : List CString) :
    load_addresses sys (node.l_name :: rest) node.l_addr position m =
      node.l_addr :: load_addresses sys rest (ALIGN loaded.base + 3 * PAGE_SIZE) loaded.base loaded.mem := by
  have hbinary : load_elf_binary sys m ⟨node.l_addr, node.l_name, none, none, none⟩ position = .ok (ret, loaded) := by
    simp only [load_elf_binary, helf, hprogram, Outcome.ok_bind]
    rw [← hload]
    apply load_program_congr
    · rfl
    · rfl
    · exact hld.symm
  rw [load_addresses, if_pos hname, hbinary]

/-- The state of `build_link_map` when the entries up to here, `done`, have a node
each and the nodes form a link map. -/
structure Chained (s : BuildState) (done : List CString) : Prop where
  last : s.map + 1 = s.heap.length
  links : IsLinkMap s.heap (some 0) (List.range s.heap.length)
  names : s.names = done
  head : s.ret = some 0

/-- Where the next object would be put. -/
def BuildState.next_addr (s : BuildState) : elf_addr := ALIGN s.position + 3 * PAGE_SIZE

/-- The addresses of what is still to be loaded. -/
def BuildState.addresses (sys : System) (s : BuildState) (rest : List CString) : List elf_addr :=
  load_addresses sys rest s.next_addr s.position s.mem

theorem Chained.append_node {s : BuildState} {done : List CString} (hc : Chained s done) {node : LinkMap}
    {m : Memory 64} {position : elf_addr} {offset : BitVec 32} :
    Chained ⟨s.heap.append_node s.map node, m, s.heap.length, position, offset, s.ret⟩ (done ++ [node.l_name]) where
  last := (Heap.length_append_node _ _ node).symm
  links := hc.links.append_node_range hc.last node
  names := by
    rw [BuildState.names, Heap.names_append_node, ← hc.names]
    rfl
  head := hc.head

/-- A step that takes a new node. -/
theorem build_step_chained {s t : BuildState} {done : List CString} {name : CString} (hc : Chained s done)
    (hoffset : s.offset ≠ 0) (h : build_step sys base vdso s name = .ok t) :
    Chained t (done ++ [name]) ∧ t.offset = (if Mapped name then s.next_addr.setWidth 32 else s.offset) ∧
      ∀ rest, s.addresses sys (name :: rest) = (if Mapped name then [s.next_addr] else []) ++ t.addresses sys rest := by
  by_cases hname : Mapped name
  · obtain ⟨node, elf, program, ret, loaded, rfl, haddr, hld, helf, hprogram, hload, rfl⟩ :=
      build_step_mapped hoffset hname h
    refine ⟨hc.append_node, ?_, fun rest => ?_⟩
    · rw [if_pos hname, haddr]
      rfl
    · rw [BuildState.addresses, BuildState.next_addr, ← haddr, load_addresses_cons hname hld helf hprogram hload,
        if_pos hname]
      rfl
  · obtain ⟨node, rfl, rfl⟩ := build_step_kernel hoffset hname h
    refine ⟨hc.append_node, ?_, fun rest => ?_⟩
    · rw [if_neg hname]
    · rw [BuildState.addresses, load_addresses, if_neg hname, if_neg hname]
      rfl

/-- No object comes to lie at an address that an `int` takes for 0. -/
def IntsNonzero (addresses : List elf_addr) : Prop := ∀ a ∈ addresses, a.setWidth 32 ≠ 0#32

instance (addresses : List elf_addr) : Decidable (IntsNonzero addresses) :=
  inferInstanceAs (Decidable (∀ a ∈ addresses, _))

/-- `offset` stays what it should be exactly as long as there is no such address. -/
theorem build_step_offset {s t : BuildState} {done : List CString} {name : CString} (hc : Chained s done)
    (hoffset : s.offset ≠ 0) (h : build_step sys base vdso s name = .ok t) (rest : List CString) :
    IntsNonzero (s.addresses sys (name :: rest)) ↔ t.offset ≠ 0 ∧ IntsNonzero (t.addresses sys rest) := by
  obtain ⟨-, hoff, haddrs⟩ := build_step_chained hc hoffset h
  rw [haddrs, hoff]
  by_cases hname : Mapped name
  · simp [hname, IntsNonzero]
  · simpa [hname] using fun _ => hoffset

/-- As long as no object but the last one comes to lie at such an address, every
entry gets a node of its own. -/
theorem build_loop_chained {rest done : List CString} {s s' : BuildState} (hc : Chained s done)
    (hoffset : s.offset ≠ 0)
    (haddr : IntsNonzero (s.addresses sys rest.dropLast)) (h : build_loop sys base vdso rest s = .ok s') :
    Chained s' (done ++ rest) := by
  induction rest generalizing s done with
  | nil =>
    cases h
    simpa using hc
  | cons name rest ih =>
    obtain ⟨t, hstep, h⟩ := Outcome.bind_eq_ok_iff.mp h
    have hct := (build_step_chained hc hoffset hstep).1
    cases rest with
    | nil =>
      cases h
      exact hct
    | cons name' rest =>
      rw [List.dropLast_cons_cons, build_step_offset hc hoffset hstep] at haddr
      have hrest := ih hct haddr.1 haddr.2 h
      rwa [List.append_assoc] at hrest

/-- Otherwise the object at that address is lost. -/
theorem build_loop_lost {rest done : List CString} {s s' : BuildState} (hc : Chained s done) (hoffset : s.offset ≠ 0)
    (haddr : ¬ IntsNonzero (s.addresses sys rest.dropLast)) (h : build_loop sys base vdso rest s = .ok s') :
    ∃ y, Mapped y ∧ s'.names.count y < (done ++ rest).count y := by
  induction rest generalizing s done with
  | nil => simp [IntsNonzero, BuildState.addresses, load_addresses] at haddr
  | cons name rest ih =>
    obtain ⟨t, hstep, h⟩ := Outcome.bind_eq_ok_iff.mp h
    obtain ⟨hct, hoff, -⟩ := build_step_chained hc hoffset hstep
    cases rest with
    | nil => simp [IntsNonzero, BuildState.addresses, load_addresses] at haddr
    | cons name' rest =>
      rw [List.dropLast_cons_cons, build_step_offset hc hoffset hstep] at haddr
      by_cases hzero : t.offset = 0
      · have hname : Mapped name := by
          by_contra hnot
          rw [if_neg hnot] at hoff
          exact hoffset (hoff.symm.trans hzero)
        exact ⟨name, hname, build_loop_overwritten hct.last hzero hct.names h⟩
      · obtain ⟨y, hy, hlt⟩ := ih hct hzero (fun hints => haddr ⟨hzero, hints⟩) h
        rw [List.append_assoc] at hlt
        exact ⟨y, hy, hlt⟩

section LinkMap

variable {v : LinkMap} {m m' : Memory 64} {exe : CString} {rest : List CString} {heap : Heap} {ret : Option Nat}

/-- The first entry gets the node at hand when the loader maps it. -/
theorem build_link_map_first (hexe : Mapped exe) (hv : v.l_ld = none)
    (h : build_link_map sys [v] m (exe :: rest) base vdso 0 = .ok (ret, heap, m')) :
    ∃ t s, build_step sys base vdso ⟨[v], m, 0, 0, 0, none⟩ exe = .ok t ∧ Chained t [exe] ∧ t.offset ≠ 0 ∧
      build_loop sys base vdso rest t = .ok s ∧ s.ret = ret ∧ s.heap = heap ∧
      (load_addresses sys (exe :: rest).dropLast 0 0 m).tail = t.addresses sys rest.dropLast := by
  obtain ⟨s, hloop, h⟩ := Outcome.bind_eq_ok_iff.mp h
  cases h
  obtain ⟨t, hstep, hloop⟩ := Outcome.bind_eq_ok_iff.mp hloop
  obtain ⟨node, elf, program, ret, loaded, hname, haddr, hld, hnext, hprev, helf, hprogram, hload, rfl⟩ :=
    build_step_first hexe hstep
  have hlinks : IsLinkMap [{ node with l_ld := loaded.l_ld }] (some 0) (List.range 1) := ⟨rfl, _, rfl, hprev, hnext⟩
  refine ⟨_, s, hstep, ⟨rfl, hlinks, ?_, rfl⟩, by simp, hloop, rfl, rfl, ?_⟩
  · rw [BuildState.names, List.map_singleton, hname]
  · cases rest with
    | nil => rfl
    | cons name rest =>
      subst hname
      have hcons := load_addresses_cons hexe (hld.trans hv) helf hprogram hload (name :: rest).dropLast
      rw [haddr] at hcons
      rw [List.dropLast_cons_cons, hcons]
      rfl

/-- When each entry has its node, the result is the list of the nodes in the order
of the table. -/
theorem build_link_map_chained (hexe : Mapped exe) (hv : v.l_ld = none)
    (haddr : IntsNonzero (load_addresses sys (exe :: rest).dropLast 0 0 m).tail)
    (h : build_link_map sys [v] m (exe :: rest) base vdso 0 = .ok (ret, heap, m')) :
    ret = some 0 ∧ IsLinkMap heap (some 0) (List.range heap.length) ∧ heap.map LinkMap.l_name = exe :: rest := by
  obtain ⟨t, s, -, hct, hoffset, hloop, rfl, rfl, haddrs⟩ := build_link_map_first hexe hv h
  rw [haddrs] at haddr
  have hc := build_loop_chained hct hoffset haddr hloop
  exact ⟨hc.head, hc.links, hc.names⟩

theorem build_link_map_lost (hexe : Mapped exe) (hv : v.l_ld = none)
    (haddr : ¬ IntsNonzero (load_addresses sys (exe :: rest).dropLast 0 0 m).tail)
    (h : build_link_map sys [v] m (exe :: rest) base vdso 0 = .ok (ret, heap, m')) :
    ∃ y, Mapped y ∧ (heap.map LinkMap.l_name).count y < (exe :: rest).count y := by
  obtain ⟨t, s, -, hct, hoffset, hloop, rfl, rfl, haddrs⟩ := build_link_map_first hexe hv h
  rw [haddrs] at haddr
  exact build_loop_lost hct hoffset haddr hloop

/-- A table that starts with an object the kernel has placed loses it, and the next
one as well when it is another of these. -/
theorem build_link_map_lost_first {name : CString} (hexe : ¬ Mapped exe)
    (h : build_link_map sys [v] m (exe :: name :: rest) base vdso 0 = .ok (ret, heap, m')) :
    (heap.map LinkMap.l_name).count exe < (exe :: name :: rest).count exe ∧
      (¬ Mapped name → rest ≠ [] → (heap.map LinkMap.l_name).count name < (exe :: name :: rest).count name) := by
  obtain ⟨s, hloop, h⟩ := Outcome.bind_eq_ok_iff.mp h
  cases h
  obtain ⟨t, hstep, hloop⟩ := Outcome.bind_eq_ok_iff.mp hloop
  obtain ⟨hlast, hnames⟩ := build_step_names rfl hstep
  have hoffset : t.offset = 0 := (build_step_reuse rfl hstep).2.2.resolve_left hexe
  have hfirst : t.names = [] ++ [exe] := hnames
  refine ⟨build_loop_overwritten hlast hoffset hfirst hloop, fun hname hrest => ?_⟩
  obtain ⟨u, hstep', hloop'⟩ := Outcome.bind_eq_ok_iff.mp hloop
  obtain ⟨hlast', hnames'⟩ := build_step_names hlast hstep'
  have hoffset' : u.offset = 0 := (build_step_reuse hoffset hstep').2.2.resolve_left hname
  rw [if_pos hoffset, hnames] at hnames'
  have hsecond : u.names = [] ++ [name] := hnames'
  obtain ⟨name', rest, rfl⟩ := List.exists_cons_of_ne_nil hrest
  have hlt := build_loop_overwritten hlast' hoffset' hsecond hloop'
  exact hlt.trans_le (List.count_le_count_cons ..)

/-- There are never more nodes than entries, and none more of a name. -/
theorem build_link_map_le (h : build_link_map sys [v] m (exe :: rest) base vdso 0 = .ok (ret, heap, m')) :
    heap.length ≤ (exe :: rest).length ∧ ∀ x, (heap.map LinkMap.l_name).count x ≤ (exe :: rest).count x := by
  obtain ⟨s, hloop, h⟩ := Outcome.bind_eq_ok_iff.mp h
  cases h
  obtain ⟨t, hstep, hloop⟩ := Outcome.bind_eq_ok_iff.mp hloop
  obtain ⟨hlast, hnames⟩ := build_step_names rfl hstep
  have hfirst : t.names = [exe] := hnames
  obtain ⟨hlen, hcount⟩ := build_loop_names_le hlast hloop
  rw [hfirst] at hlen hcount
  constructor
  · simpa [BuildState.names, Nat.add_comm] using hlen
  · intro x
    rw [← List.singleton_append, List.count_append]
    exact hcount x

end LinkMap

end ldso.loader
