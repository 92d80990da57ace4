import LdSo.Loader.Chain
import LdSo.Loader.Separation

open cmodel

namespace ldso.loader

open elf

variable {sys : System} {base vdso : elf_addr} {v : LinkMap} {m m' : Memory 64} {exe : CString} {rest : List CString}
  {heap : Heap} {ret : Option Nat}

/-- The list that `ret` heads has one node for each entry of the table, in order,
and is well formed. -/
def ListsTable (heap : Heap) (ret : Option Nat) (table : List CString) : Prop :=
  ∃ ps, IsLinkMap heap ret ps ∧ ps.Nodup ∧ (heap.nodes ps).map LinkMap.l_name = table

/-- Whenever `build_link_map` returns for a table that starts with an object the
loader maps, its result, which is `full_map` then, heads a list of one node for
each entry exactly when no object but the first and the last comes to lie at an
address that an `int` takes for 0. -/
theorem build_link_map_lists_iff (hexe : Mapped exe) (hv : v.l_ld = none)
    (h : build_link_map sys [v] m (exe :: rest) base vdso 0 = .ok (ret, heap, m')) :
    ListsTable heap ret (exe :: rest) ↔ IntsNonzero (load_addresses sys (exe :: rest).dropLast 0 0 m).tail := by
  constructor
  · rintro ⟨ps, hlinks, hnodup, hnames⟩
    by_contra haddr
    obtain ⟨y, -, hlost⟩ := build_link_map_lost hexe hv haddr h
    have hcount := Heap.count_nodes_le hnodup hlinks.lt_length y
    rw [hnames] at hcount
    omega
  · intro haddr
    obtain ⟨rfl, hlinks, hnames⟩ := build_link_map_chained hexe hv haddr h
    refine ⟨List.range heap.length, hlinks, List.nodup_range, ?_⟩
    rw [Heap.nodes_range, List.take_length, hnames]

/-- An executable whose end lies three pages below 2^32. -/
def high_exe : Program := of_phdrs (segment 0xffffd000 64) (by decide +kernel)

/-- What a run of `build_link_map` with a table leaves, without the memory. -/
def listed (exe : Program) (table : List CString) : Outcome (Option Nat × Heap) := do
  let (ret, heap, _) ← build_link_map (exe_and_lib_sys exe) [⟨0, .lit "", none, none, none⟩] (fun _ => none) table
    0x7f0000000000 0x7fff00001000 0
  return (ret, heap)

theorem listed_eq_ok {exe : Program} {table : List CString} (h : listed exe table = .ok (ret, heap)) :
    ∃ m', build_link_map (exe_and_lib_sys exe) [⟨0, .lit "", none, none, none⟩] (fun _ => none) table
      0x7f0000000000 0x7fff00001000 0 = .ok (ret, heap, m') := by
  obtain ⟨⟨ret', heap', m'⟩, hbuild, h⟩ := Outcome.bind_eq_ok_iff.mp h
  cases h
  exact ⟨m', hbuild⟩

/-- The library, the vdso and the executable each have their node. -/
theorem build_link_map_lists_small :
    ∃ ret heap m', build_link_map (exe_and_lib_sys small_exe) [⟨0, .lit "", none, none, none⟩] (fun _ => none)
        [.lit "/a", .lit "ld.so", .lit "/l", .lit "linux-vdso.so.1"] 0x7f0000000000 0x7fff00001000 0 = .ok (ret, heap, m') ∧
      ListsTable heap ret [.lit "/a", .lit "ld.so", .lit "/l", .lit "linux-vdso.so.1"] := by
  have hrun : listed small_exe [.lit "/a", .lit "ld.so", .lit "/l", .lit "linux-vdso.so.1"] = .ok (some 0,
      [⟨0, .lit "/a", none, some 1, none⟩, ⟨0x7f0000000000, .lit "ld.so", none, some 2, some 0⟩,
        ⟨0x403000, .lit "/l", none, some 3, some 1⟩, ⟨0x7fff00001000, .lit "linux-vdso.so.1", none, none, some 2⟩]) ∧
      load_addresses (exe_and_lib_sys small_exe) [.lit "/a", .lit "ld.so", .lit "/l"] 0 0 (fun _ => none) = [0, 0x403000] := by
    decide +kernel
  obtain ⟨m', hbuild⟩ := listed_eq_ok hrun.1
  refine ⟨_, _, m', hbuild, (build_link_map_lists_iff (by decide) rfl hbuild).mpr ?_⟩
  have hdrop : [CString.lit "/a", .lit "ld.so", .lit "/l", .lit "linux-vdso.so.1"].dropLast =
      [.lit "/a", .lit "ld.so", .lit "/l"] := rfl
  rw [hdrop, hrun.2]
  simp [IntsNonzero]

/-- Behind an executable that ends three pages below 2^32 the library's address is
taken for 0, and the vdso gets its node. -/
theorem build_link_map_lists_high :
    ∃ ret heap m', build_link_map (exe_and_lib_sys high_exe) [⟨0, .lit "", none, none, none⟩] (fun _ => none)
        [.lit "/a", .lit "ld.so", .lit "/l", .lit "linux-vdso.so.1"] 0x7f0000000000 0x7fff00001000 0 = .ok (ret, heap, m') ∧
      ¬ ListsTable heap ret [.lit "/a", .lit "ld.so", .lit "/l", .lit "linux-vdso.so.1"] := by
  have hrun : listed high_exe [.lit "/a", .lit "ld.so", .lit "/l", .lit "linux-vdso.so.1"] = .ok (some 0,
      [⟨0, .lit "/a", none, some 1, none⟩, ⟨0x7f0000000000, .lit "ld.so", none, some 2, some 0⟩,
        ⟨0x7fff00001000, .lit "linux-vdso.so.1", none, some 2, none⟩]) := by decide +kernel
  obtain ⟨m', hbuild⟩ := listed_eq_ok hrun
  refine ⟨_, _, m', hbuild, ?_⟩
  rintro ⟨ps, hlinks, hnodup, hnames⟩
  have hcount := Heap.count_nodes_le hnodup hlinks.lt_length (.lit "/l")
  rw [hnames] at hcount
  revert hcount
  decide

end ldso.loader
