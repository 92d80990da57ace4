import LdSo.Main
import LdSo.Dependency.Table
import LdSo.Loader.Chain
import LdSo.Loader.Separation

open cmodel

namespace ldso

open elf elf_manipulation dependency loader

/-- The names of the objects that were passed to `resolve_relocations`. -/
def Started.names (r : Started) : List CString := (r.heap.nodes r.relocated).map LinkMap.l_name

/-- The auxiliary vector contains the type in front of AT_NULL. -/
def Start.Has (start : Start) (type : BitVec 32) : Prop :=
  ∃ auxv ∈ start.auxv.takeWhile (·.a_type ≠ AT_NULL.setWidth 64), auxv.a_type = type.setWidth 64

instance (start : Start) (type : BitVec 32) : Decidable (start.Has type) := inferInstanceAs (Decidable (∃ auxv ∈ _, _))

theorem get_auxv_entry_isSome {type : BitVec 32} {addr : elf_addr} {auxv : List Auxv} {res : Option (elf_addr × Auxv)}
    (h : get_auxv_entry type addr auxv = .ok res) :
    res.isSome = true ↔ ∃ a ∈ auxv.takeWhile (·.a_type ≠ AT_NULL.setWidth 64), a.a_type = type.setWidth 64 := by
  induction auxv generalizing addr with
  | nil => cases h
  | cons a rest ih =>
    rw [get_auxv_entry] at h
    split at h
    · next hnull =>
      cases h
      simp [hnull]
    · next hnull =>
      rw [List.takeWhile_cons_of_pos (by simpa using hnull)]
      split at h
      · next htype =>
        cases h
        simp [htype]
      · next htype =>
        rw [ih h]
        simp [htype]

variable {sys : System} {heap : Heap}

/-- The loop visits the nodes of a chain up to the one before the last. -/
theorem relocate_loop_visits {map : Option Nat} {lazy : Bool} {fuel next : Nat} {m m' : Memory 64}
    {relocated : List Nat} (h : relocate_loop sys heap map lazy fuel next m = .ok (relocated, m')) :
    ∃ last, NextChain heap (some next) (relocated ++ [last]) := by
  induction fuel generalizing next m relocated with
  | zero => cases h
  | succ fuel ih =>
    obtain ⟨node, hnode, h⟩ := Outcome.bind_eq_ok_iff.mp h
    have hget := Outcome.ofOption_eq_ok_iff.mp hnode
    split at h
    · next hnext =>
      cases h
      exact ⟨next, rfl, node, hget, hnext⟩
    · next l_next hnext =>
      obtain ⟨m₁, -, h⟩ := Outcome.bind_eq_ok_iff.mp h
      obtain ⟨⟨rest, m₂⟩, hrest, h⟩ := Outcome.bind_eq_ok_iff.mp h
      cases h
      obtain ⟨last, hlast⟩ := ih hrest
      exact ⟨last, rfl, node, hget, hnext ▸ hlast⟩

/-- What a run of `ldso_main` that gives control to the program consists of. -/
theorem ldso_main_runs {start : Start} {m : Memory 64} {rounds fuel : Nat} {r : Started}
    (h : ldso_main sys start m rounds fuel = .ok r) :
    ∃ (v : Option (List Byte)) (filename : CString) (base vdso : elf_addr) (m₁ : Memory 64) (lazy : Bool) (next : Nat),
      (v.isSome = true ↔ start.Has AT_SYSINFO_EHDR) ∧
      build_dependency_table { sys with vdso := v } rounds fuel filename = .ok r.table ∧
      build_link_map { sys with vdso := v } [⟨0, .lit "", none, none, none⟩] m r.table base vdso 0 =
        .ok (some next, r.heap, m₁) ∧
      relocate_loop { sys with vdso := v } r.heap (some next) lazy r.heap.length next m₁ = .ok (r.relocated, r.mem) := by
  obtain ⟨execfn, -, h⟩ := Outcome.bind_eq_ok_iff.mp h
  obtain ⟨filename, -, h⟩ := Outcome.bind_eq_ok_iff.mp h
  obtain ⟨base, -, h⟩ := Outcome.bind_eq_ok_iff.mp h
  split at h
  · cases h
  · obtain ⟨dynamic, -, h⟩ := Outcome.bind_eq_ok_iff.mp h
    obtain ⟨vdso, hvdso, h⟩ := Outcome.bind_eq_ok_iff.mp h
    obtain ⟨table, htable, h⟩ := Outcome.bind_eq_ok_iff.mp h
    obtain ⟨⟨map, heap, m₁⟩, hbuild, h⟩ := Outcome.bind_eq_ok_iff.mp h
    obtain ⟨bind_now, -, h⟩ := Outcome.bind_eq_ok_iff.mp h
    obtain ⟨next, hnext, h⟩ := Outcome.bind_eq_ok_iff.mp h
    obtain ⟨⟨relocated, m₂⟩, hloop, h⟩ := Outcome.bind_eq_ok_iff.mp h
    obtain ⟨-, -, h⟩ := Outcome.bind_eq_ok_iff.mp h
    obtain ⟨entry, -, h⟩ := Outcome.bind_eq_ok_iff.mp h
    have hmap : map = some next := Outcome.ofOption_eq_ok_iff.mp hnext
    subst hmap
    cases h
    refine ⟨_, filename, base, _, m₁, _, next, ?_, htable, hbuild, hloop⟩
    rw [Option.isSome_map]
    exact get_auxv_entry_isSome hvdso

/-- The objects that the loader maps do not depend on the vdso. -/
theorem loader.load_addresses_vdso (v : Option (List Byte)) (table : List CString) (l_addr position : elf_addr)
    (m : Memory 64) :
    load_addresses { sys with vdso := v } table l_addr position m = load_addresses sys table l_addr position m := by
  have hloop : ∀ node n program load s,
      load_loop { sys with vdso := v } node n program load s = load_loop sys node n program load s := by
    intro node n program load s
    induction n generalizing program load s with
    | zero => rfl
    | succ n ih =>
      cases program with
      | nil => rfl
      | cons p rest =>
        simp only [load_loop, ih]
        rfl
  have hload : ∀ m (node : LinkMap) position, Mapped node.l_name →
      load_elf_binary { sys with vdso := v } m node position = load_elf_binary sys m node position := by
    intro m node position hname
    simp only [load_elf_binary, get_elf_ehdr, if_neg hname.2, load_program, hloop]
    rfl
  induction table generalizing l_addr position m with
  | nil => rfl
  | cons name rest ih =>
    rw [load_addresses, load_addresses]
    by_cases hname : Mapped name
    · rw [if_pos hname, if_pos hname, hload _ _ _ hname]
      cases load_elf_binary sys m ⟨l_addr, name, none, none, none⟩ position with
      | ok res => simp only [ih]
      | exit code => rfl
      | fault => rfl
      | diverge => rfl
    · rw [if_neg hname, if_neg hname, ih]

section Visited

variable {map : Option Nat} {lazy : Bool} {next : Nat} {m m' : Memory 64} {relocated : List Nat}

/-- Of the nodes of a heap the loop leaves out one at least. -/
theorem relocate_loop_length_lt
    (h : relocate_loop sys heap map lazy heap.length next m = .ok (relocated, m')) :
    relocated.length < heap.length := by
  obtain ⟨last, hchain⟩ := relocate_loop_visits h
  have hle := hchain.length_le
  rw [List.length_append, List.length_singleton] at hle
  omega

theorem relocate_loop_count_le
    (h : relocate_loop sys heap map lazy heap.length next m = .ok (relocated, m')) (x : CString) :
    ((heap.nodes relocated).map LinkMap.l_name).count x ≤ (heap.map LinkMap.l_name).count x := by
  obtain ⟨last, hchain⟩ := relocate_loop_visits h
  refine Heap.count_nodes_le (List.nodup_append.mp hchain.nodup).1 (fun p hp => hchain.lt_length p ?_) x
  exact List.mem_append_left _ hp

/-- On a link map it leaves out the last node. -/
theorem relocate_loop_names {n : Nat} (hlinks : IsLinkMap heap (some next) (List.range heap.length))
    (h : relocate_loop sys heap map lazy n next m = .ok (relocated, m')) :
    (heap.nodes relocated).map LinkMap.l_name = (heap.map LinkMap.l_name).dropLast := by
  obtain ⟨last, hchain⟩ := relocate_loop_visits h
  have hall := congrArg List.dropLast (hchain.unique hlinks.chain)
  rw [List.dropLast_concat, List.dropLast_eq_take, List.length_range, List.take_range,
    min_eq_left (Nat.sub_le _ _)] at hall
  rw [hall, Heap.nodes_range, ← List.dropLast_eq_take, List.map_dropLast]

end Visited

section Main

variable {start : Start} {m : Memory 64} {rounds fuel : Nat} {r : Started}

/-- Without the vdso in the auxiliary vector, no entry of a table has its name. -/
theorem vdso_not_mem {names : List CString} (hvdso : sys.vdso = none)
    (hscanned : ∀ o ∈ names, ∃ elf, get_elf_ehdr sys o = .ok elf) : .lit "linux-vdso.so.1" ∉ names := by
  intro hmem
  obtain ⟨elf, helf⟩ := hscanned _ hmem
  rw [get_elf_ehdr, if_pos rfl, hvdso] at helf
  cases helf

theorem filter_vdso_eq_self {names : List CString} (h : .lit "linux-vdso.so.1" ∉ names) :
    names.filter (· ≠ CString.lit "linux-vdso.so.1") = names := by
  rw [List.filter_eq_self]
  intro a ha
  simp only [ne_eq, decide_not, Bool.not_eq_true', decide_eq_false_iff_not]
  rintro rfl
  exact h ha

/-- What stays of a table that ends with the vdso when every entry of that name is left out. -/
theorem perm_filter_vdso_iff {front : List CString} :
    front.Perm ((front ++ [CString.lit "linux-vdso.so.1"]).filter (· ≠ CString.lit "linux-vdso.so.1")) ↔
      .lit "linux-vdso.so.1" ∉ front := by
  rw [List.filter_append, List.filter_cons_of_neg (by simp), List.filter_nil, List.append_nil]
  constructor
  · intro hperm hmem
    have hfilter := hperm.subset hmem
    simp at hfilter
  · intro hnot
    rw [filter_vdso_eq_self hnot]

/-- What a list of relocated objects owes to an entry of the table other than the vdso. -/
theorem count_of_perm_filter {names table : List CString} {y : CString}
    (hperm : names.Perm (table.filter (· ≠ CString.lit "linux-vdso.so.1"))) (hy : y ≠ .lit "linux-vdso.so.1") :
    names.count y = table.count y := by
  rw [hperm.count_eq, List.count_filter]
  simpa using hy

/-- In a run where every entry has its node, all objects but the last one are relocated. -/
theorem names_eq_dropLast {v : Option (List Byte)} {exe : CString} {table : List CString} {base vdso : elf_addr}
    {m₁ : Memory 64} {lazy : Bool} {next : Nat} (htable : r.table = exe :: table) (hexe : Mapped exe)
    (haddr : IntsNonzero (load_addresses { sys with vdso := v } r.table.dropLast 0 0 m).tail)
    (hbuild : build_link_map { sys with vdso := v } [⟨0, .lit "", none, none, none⟩] m r.table base vdso 0 =
      .ok (some next, r.heap, m₁))
    (hloop : relocate_loop { sys with vdso := v } r.heap (some next) lazy r.heap.length next m₁ = .ok (r.relocated, r.mem)) :
    r.names = r.table.dropLast := by
  rw [htable] at hbuild haddr
  obtain ⟨hret, hlinks, hnames⟩ := build_link_map_chained hexe rfl haddr hbuild
  cases hret
  rw [Started.names, relocate_loop_names hlinks hloop, hnames, htable]

/-- Whenever control is given to the program, every listed object but the vdso was
relocated once and the vdso was not exactly when the vdso is listed last and
nowhere else, the table starts with an object that the loader maps, and no other
object lies at a multiple of 2^32. -/
theorem ldso_main_relocates_iff (h : ldso_main sys start m rounds fuel = .ok r) :
    r.names.Perm (r.table.filter (· ≠ CString.lit "linux-vdso.so.1")) ↔
      start.Has AT_SYSINFO_EHDR ∧ .lit "linux-vdso.so.1" ∉ r.table.dropLast ∧ (∀ exe ∈ r.table.head?, Mapped exe) ∧
        IntsNonzero (load_addresses sys r.table.dropLast 0 0 m).tail := by
  obtain ⟨v, exe, base, vdso, m₁, lazy, next, hvdso, htable, hbuild, hloop⟩ := ldso_main_runs h
  obtain ⟨rest, hshape, hscanned⟩ := build_dependency_table_shape htable
  rw [← load_addresses_vdso v, ← hvdso]
  have hhead : r.table = exe :: .lit "ld.so" :: (rest ++ if v.isSome then [.lit "linux-vdso.so.1"] else []) := hshape
  have hbuild' := hbuild
  rw [hhead] at hbuild'
  constructor
  · intro hperm
    -- every entry that has to be relocated has a node
    have hkept : ∀ y, y ≠ .lit "linux-vdso.so.1" → r.table.count y ≤ (r.heap.map LinkMap.l_name).count y := by
      intro y hy
      rw [← count_of_perm_filter hperm hy]
      exact relocate_loop_count_le hloop y
    have hsome : v.isSome = true := by
      by_contra hnone
      have hnot : .lit "linux-vdso.so.1" ∉ r.table := by
        rw [hshape, if_neg hnone, List.append_nil]
        exact vdso_not_mem (by simpa using hnone) hscanned
      have hlength := hperm.length_eq
      have hnodes := (build_link_map_le hbuild').1
      have hvisited := relocate_loop_length_lt hloop
      have hnames : r.names.length ≤ r.relocated.length := by
        rw [Started.names, List.length_map]
        exact List.length_filterMap_le _ _
      rw [← hhead] at hnodes
      rw [filter_vdso_eq_self hnot] at hlength
      omega
    have hexe : Mapped exe := by
      by_contra hnot
      obtain ⟨hfirst, hsecond⟩ := build_link_map_lost_first hnot hbuild'
      rw [← hhead] at hfirst hsecond
      by_cases hname : exe = .lit "linux-vdso.so.1"
      · have hlost := hsecond (by decide) (by simp [hsome])
        have hld := hkept (.lit "ld.so") (by decide)
        omega
      · have hexe := hkept exe hname
        omega
    have haddr : IntsNonzero (load_addresses { sys with vdso := v } r.table.dropLast 0 0 m).tail := by
      by_contra hnot
      rw [hhead] at hnot
      obtain ⟨y, hy, hlost⟩ := build_link_map_lost hexe rfl hnot hbuild'
      have hcount := hkept y hy.2
      rw [hhead] at hcount
      omega
    rw [names_eq_dropLast hhead hexe haddr hbuild hloop] at hperm
    refine ⟨hsome, ?_, ?_, haddr⟩
    · rw [if_pos hsome] at hshape
      rw [hshape, List.dropLast_concat] at hperm ⊢
      exact perm_filter_vdso_iff.mp hperm
    · rw [hhead]
      rintro _ ⟨⟩
      exact hexe
  · rintro ⟨hsome, hnot, hexe, haddr⟩
    have hexe' : Mapped exe := hexe exe (by rw [hhead]; rfl)
    rw [names_eq_dropLast hhead hexe' haddr hbuild hloop]
    rw [if_pos hsome] at hshape
    rw [hshape, List.dropLast_concat] at hnot ⊢
    exact perm_filter_vdso_iff.mpr hnot

end Main

/-- A file of one segment that needs nothing. -/
def loadable (p_vaddr : BitVec 64) : List Byte :=
  image (segment p_vaddr 64) [⟨.lit ".dynamic", 0, Dyn.encode ⟨DT_NULL, 0⟩⟩, ⟨.lit ".dynstr", 0, [0]⟩]

/-- An executable and a preloaded library. -/
def preload_sys : System where
  __ := System.of_files [(.lit "/e", loadable 0x400000), (.lit "ld.so", needing none), (.lit "/p", loadable 0)]
  envp := [.lit "LD_PRELOAD=/p"]

/-- The executable `/e`, with these entries in front of AT_NULL besides those that are always there. -/
def preload_start (auxv : List Auxv) : Start where
  auxv := auxv ++ [⟨31, 0x7fff0000⟩, ⟨7, 0x7f0000000000⟩, ⟨9, 0x400040⟩, ⟨0, 0⟩]
  auxv_addr := 0x7ffe0000
  string _ := .ok (.lit "/e")
  image _ := []
  dynamic := [⟨14, 0⟩, ⟨DT_NULL, 0⟩]
  r_debug := 0x600000

/-- The table and the names of the relocated objects. -/
def preload_run (auxv : List Auxv) : Outcome (List CString × List CString) := do
  let r ← ldso_main preload_sys (preload_start auxv) (fun _ => none) 2 4
  return (r.table, r.names)

/-- Without the vdso in the auxiliary vector the preloaded library is not relocated. -/
theorem ldso_main_without_vdso :
    ∃ r, ldso_main preload_sys (preload_start []) (fun _ => none) 2 4 = .ok r ∧
      r.table = [.lit "/e", .lit "ld.so", .lit "/p"] ∧ r.names = [.lit "/e", .lit "ld.so"] ∧
      ¬ r.names.Perm (r.table.filter (· ≠ CString.lit "linux-vdso.so.1")) := by
  have hrun : preload_run [] = .ok ([.lit "/e", .lit "ld.so", .lit "/p"], [.lit "/e", .lit "ld.so"]) := by
    decide +kernel
  obtain ⟨r, hmain, hr⟩ := Outcome.bind_eq_ok_iff.mp hrun
  obtain ⟨htable, hnames⟩ := Prod.mk.inj (Outcome.ok.inj hr)
  refine ⟨r, hmain, htable, hnames, ?_⟩
  rw [htable, hnames]
  decide

/-- With it, all three objects are. -/
theorem ldso_main_with_vdso :
    ∃ r, ldso_main preload_sys (preload_start [⟨33, 0x7fff1000⟩]) (fun _ => none) 2 4 = .ok r ∧
      r.table = [.lit "/e", .lit "ld.so", .lit "/p", .lit "linux-vdso.so.1"] ∧
      r.names.Perm (r.table.filter (· ≠ CString.lit "linux-vdso.so.1")) := by
  have hrun : preload_run [⟨33, 0x7fff1000⟩] = .ok ([.lit "/e", .lit "ld.so", .lit "/p", .lit "linux-vdso.so.1"],
      [.lit "/e", .lit "ld.so", .lit "/p"]) := by decide +kernel
  have haddrs : load_addresses preload_sys [.lit "/e", .lit "ld.so", .lit "/p"] 0 0 (fun _ => none) = [0, 0x403000] := by
    decide +kernel
  obtain ⟨r, hmain, hr⟩ := Outcome.bind_eq_ok_iff.mp hrun
  obtain ⟨htable, -⟩ := Prod.mk.inj (Outcome.ok.inj hr)
  refine ⟨r, hmain, htable, (ldso_main_relocates_iff hmain).mpr ?_⟩
  rw [htable]
  refine ⟨by decide, by decide, by decide, ?_⟩
  have hdrop : [CString.lit "/e", .lit "ld.so", .lit "/p", .lit "linux-vdso.so.1"].dropLast =
      [.lit "/e", .lit "ld.so", .lit "/p"] := rfl
  rw [hdrop, haddrs]
  simp [IntsNonzero]

end ldso
