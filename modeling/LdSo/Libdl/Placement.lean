import LdSo.Libdl.Session
import LdSo.Loader.Separation

open cmodel

namespace ldso.libdl

open elf loader dependency utility

/-- The name and address of every node. -/
def placed (heap : Heap) : List (CString × elf_addr) := heap.map fun v => (v.l_name, v.l_addr)

/-- The addresses of the list's entries from the second last start-up object on,
which lies at `x`, the last at `y`: every entry lies six pages above the one two
places before it, however large the objects are. -/
def entry_addr (x y : elf_addr) (k : Nat) : elf_addr :=
  (if k % 2 = 0 then x else y) + BitVec.ofNat 64 (k / 2) * (6 * PAGE_SIZE)

theorem entry_addr_add_two (x y : elf_addr) (k : Nat) : entry_addr x y (k + 2) = entry_addr x y k + 6 * PAGE_SIZE := by
  unfold entry_addr
  rw [Nat.add_mod_right, Nat.add_div_right k (by decide), BitVec.ofNat_add, show BitVec.ofNat 64 1 = 1 from rfl]
  ring

/-- The names and addresses that a sequence of `_dlopen` calls gives, after `g`
objects were opened with RTLD_GLOBAL. -/
def opened (path : CString → CString) (x y : elf_addr) : Nat → List (CString × BitVec 32) → List (CString × elf_addr)
  | _, [] => []
  | g, (filename, flags) :: calls =>
    (path filename, entry_addr x y (g + 2)) ::
      opened path x y (if flags &&& RTLD_GLOBAL ≠ 0 then g + 1 else g) calls

theorem placed_append_node (heap : Heap) (tail : Nat) (node : LinkMap) :
    placed (heap.append_node tail node) = placed heap ++ [(node.l_name, node.l_addr)] := by
  unfold placed Heap.append_node
  rw [Heap.map_link _ fun _ _ => rfl, List.map_append]
  rfl

namespace Session

variable {sys : System} {first : Nat} {x y : elf_addr}

/-- The last two entries of the list, after `g` objects were appended to it. -/
structure Spaced (first : Nat) (exe : CString) (x y : elf_addr) (g : Nat) (s : Session) : Prop where
  entries : ∃ ps p q u w, IsLinkMap s.heap (some first) (ps ++ [p, q]) ∧ s.heap[p]? = some u ∧
    s.heap[q]? = some w ∧ u.l_addr = entry_addr x y g ∧ w.l_addr = entry_addr x y (g + 1)
  exe : s.heap[first]?.map LinkMap.l_name = some exe

theorem Spaced.dlopen {s s' : Session} {exe filename path : CString} {flags : BitVec 32} {g : Nat}
    (hinv : s.Spaced first exe x y g) (hempty : sys.file (.lit "") = none) (hload : flags &&& RTLD_NOLOAD = 0)
    (hpath : get_lib_absolute_path sys filename exe = .ok path)
    (h : s.call sys first (.dlopen filename flags) = .ok s') :
    s'.Spaced first exe x y (if flags &&& RTLD_GLOBAL ≠ 0 then g + 1 else g) ∧
      placed s'.heap = placed s.heap ++ [(path, entry_addr x y (g + 2))] := by
  obtain ⟨⟨ps, p, q, u, w, hlist, hu, hw, huaddr, hwaddr⟩, hexe⟩ := hinv
  obtain ⟨state, o, rfl⟩ := call_dlopen hload h
  obtain ⟨fs, hfs⟩ := o.tail_last hlist (by simp)
  have htail : o.tail = q := by
    have hlast := congrArg List.getLast? hfs
    simpa using hlast.symm
  have hpathname : o.path = path := by
    have hpath' := o.path_eq
    rw [o.map_eq, Option.map_some, Option.some.injEq] at hexe
    rw [hexe, hpath] at hpath'
    exact (Outcome.ok.inj hpath').symm
  have hbefore : o.before = u := by
    have hprev := o.prev_eq
    rw [htail, @IsLinkMap.prev_eq_last _ _ (ps ++ [p]) [] _ (by simpa using hlist)] at hprev
    have hp : p = o.prev := by simpa using hprev
    rw [hp] at hu
    exact Option.some.inj (o.before_eq.symm.trans hu)
  have haddr : o.node.l_addr = entry_addr x y (g + 2) := by
    rw [o.addr_eq, hbefore, huaddr, entry_addr_add_two]
  have hname : o.node.l_name = path := (o.name_eq_path hempty).trans hpathname
  have hexe' : state.heap[first]?.map LinkMap.l_name = some exe := by
    obtain ⟨v, hv, hvname⟩ := Option.map_eq_some_iff.mp hexe
    obtain ⟨v', hv', hname', -⟩ := o.keeps first v hv
    rw [hv', Option.map_some, hname', hvname]
  obtain ⟨u', hu', -, huaddr'⟩ := o.keeps p u hu
  obtain ⟨w', hw', -, hwaddr'⟩ := o.keeps q w hw
  obtain ⟨v, hv, -, hvaddr, -⟩ := o.new_node
  by_cases hglobal : flags &&& RTLD_GLOBAL ≠ 0
  · have hlist' := o.list_global hlist (by simp) hglobal
    simp only [if_pos hglobal]
    refine ⟨⟨⟨ps ++ [p], q, s.heap.length, w', v, by simpa using hlist', hw', hv, hwaddr'.trans hwaddr,
      hvaddr.trans haddr⟩, hexe'⟩, ?_⟩
    rw [o.heap_eq, if_pos hglobal, placed_append_node, hname, haddr]
  · simp only [if_neg hglobal]
    refine ⟨⟨⟨ps, p, q, u', w', o.list_local hlist hglobal, hu', hw', huaddr'.trans huaddr, hwaddr'.trans hwaddr⟩,
      hexe'⟩, ?_⟩
    rw [o.heap_eq, if_neg hglobal, placed, List.map_append, List.map_singleton, hname, haddr]
    rfl

/-- A sequence of `_dlopen` calls, as a run. -/
def opens (calls : List (CString × BitVec 32)) : List Call := calls.map fun c => .dlopen c.1 c.2

/-- Where the objects of a sequence of `_dlopen` calls are put. -/
theorem Spaced.run {s s' : Session} {exe : CString} {path : CString → CString} {calls : List (CString × BitVec 32)}
    {g : Nat} (hinv : s.Spaced first exe x y g) (hempty : sys.file (.lit "") = none)
    (hcalls : ∀ c ∈ calls, c.2 &&& RTLD_NOLOAD = 0 ∧ get_lib_absolute_path sys c.1 exe = .ok (path c.1))
    (hrun : cmodel.run (Session.call sys first) (opens calls) s = .ok s') :
    placed s'.heap = placed s.heap ++ opened path x y g calls := by
  induction calls generalizing s g with
  | nil =>
    cases hrun
    simp [opened]
  | cons c calls ih =>
    obtain ⟨t, hcall, hrun⟩ := Outcome.bind_eq_ok_iff.mp hrun
    obtain ⟨hload, hpath⟩ := hcalls c (by simp)
    obtain ⟨hinv', hplaced⟩ := hinv.dlopen hempty hload hpath hcall
    rw [ih hinv' (fun c hc => hcalls c (by simp [hc])) hrun, hplaced, List.append_assoc]
    rfl

/-- The objects that were opened are separate from each other and from those of
start-up, of which there are `n`. -/
def OpenedSeparate (file : CString → Program) (n : Nat) (s : Session) : Prop :=
  (∀ u ∈ s.heap.take n, ∀ v ∈ s.heap.drop n, (file u.l_name).Separate u.l_addr (file v.l_name) v.l_addr) ∧
    (s.heap.drop n).Pairwise fun u v => (file u.l_name).Separate u.l_addr (file v.l_name) v.l_addr

/-- The same of the headers of these objects and the addresses they are put at. -/
def OpenedClear (file : CString → Program) (startup opened : List (CString × elf_addr)) : Prop :=
  (∀ u ∈ startup, ∀ v ∈ opened, (file u.1).Clear u.2 (file v.1) v.2) ∧
    opened.Pairwise fun u v => (file u.1).Clear u.2 (file v.1) v.2

theorem openedSeparate_iff {file : CString → Program} {n : Nat} {s : Session}
    {startup opened : List (CString × elf_addr)}
    (hplaced : placed s.heap = startup ++ opened) (hn : startup.length = n) :
    s.OpenedSeparate file n ↔ OpenedClear file startup opened := by
  have htake : placed (s.heap.take n) = startup := by
    rw [placed, List.map_take, ← placed, hplaced, ← hn, List.take_left]
  have hdrop : placed (s.heap.drop n) = opened := by
    rw [placed, List.map_drop, ← placed, hplaced, ← hn, List.drop_left]
  unfold OpenedSeparate OpenedClear
  rw [← htake, ← hdrop, placed, placed, List.pairwise_map]
  simp only [Program.separate_iff_clear, List.forall_mem_map]

/-- For every sequence of `_dlopen` calls, from any link map of at least two
objects: the images of the objects that were opened are disjoint from each
other and from the start-up objects, and nothing is mapped over an object,
exactly when that is so of the headers at the addresses `opened` gives. -/
theorem dlopen_separate_iff {s s' : Session} {startup : List Nat} {p q : Nat} {u w : LinkMap} {exe : CString}
    {file : CString → Program} {path : CString → CString} {calls : List (CString × BitVec 32)}
    (hlist : IsLinkMap s.heap (some first) (startup ++ [p, q])) (hexe : s.heap[first]?.map LinkMap.l_name = some exe)
    (hp : s.heap[p]? = some u) (hq : s.heap[q]? = some w) (hempty : sys.file (.lit "") = none)
    (hcalls : ∀ c ∈ calls, c.2 &&& RTLD_NOLOAD = 0 ∧ get_lib_absolute_path sys c.1 exe = .ok (path c.1))
    (hrun : cmodel.run (Session.call sys first) (opens calls) s = .ok s') :
    s'.OpenedSeparate file s.heap.length ↔
      OpenedClear file (placed s.heap) (opened path u.l_addr w.l_addr 0 calls) := by
  have hinv : s.Spaced first exe u.l_addr w.l_addr 0 :=
    ⟨⟨startup, p, q, u, w, hlist, hp, hq, by simp [entry_addr], by simp [entry_addr]⟩, hexe⟩
  exact openedSeparate_iff (hinv.run hempty hcalls hrun) (by simp [placed])

end Session

open Session

/-- The start-up objects of `exe_and_lib`. -/
def after_startup : Session where
  heap := exe_and_lib_heap
  mem _ := none
  globals := []
  locals := []

/-- What a sequence of `_dlopen` calls leaves, without the memory. -/
def opens_placed (calls : List (CString × BitVec 32)) : Outcome (List (CString × elf_addr)) := do
  let s ← cmodel.run (Session.call (exe_and_lib_sys small_exe) 0) (opens calls) after_startup
  return placed s.heap

/-- Two RTLD_LOCAL objects, one after the other, are put at the same address. -/
theorem dlopen_same_address : exe_and_lib_map small_exe = .ok (some 0, after_startup.heap) ∧
    ∃ s', cmodel.run (Session.call (exe_and_lib_sys small_exe) 0) (opens [(.lit "/l", RTLD_LAZY), (.lit "/l", RTLD_LAZY)])
        after_startup = .ok s' ∧
      placed s'.heap = placed after_startup.heap ++ [(.lit "/l", 0x7f0000006000), (.lit "/l", 0x7f0000006000)] ∧
      ¬ s'.OpenedSeparate (exe_and_lib small_exe) 3 := by
  have hopens : opens_placed [(.lit "/l", RTLD_LAZY), (.lit "/l", RTLD_LAZY)] =
      .ok (placed after_startup.heap ++ [(.lit "/l", 0x7f0000006000), (.lit "/l", 0x7f0000006000)]) := by decide +kernel
  obtain ⟨s', hrun, hres⟩ := Outcome.bind_eq_ok_iff.mp hopens
  have hplaced := Outcome.ok.inj hres
  refine ⟨by decide +kernel, s', hrun, hplaced, ?_⟩
  rw [openedSeparate_iff (n := 3) hplaced rfl]
  rintro ⟨-, hopened⟩
  have hclear := (List.pairwise_cons.mp hopened).1 _ (List.mem_singleton_self _)
  exact absurd hclear (by decide +kernel)

/-- Two RTLD_GLOBAL objects are put six pages above the last two of start-up, ld.so and
the library. -/
theorem dlopen_second_address :
    ∃ s', cmodel.run (Session.call (exe_and_lib_sys small_exe) 0)
        (opens [(.lit "/l", RTLD_LAZY ||| RTLD_GLOBAL), (.lit "/l", RTLD_LAZY ||| RTLD_GLOBAL)]) after_startup = .ok s' ∧
      placed s'.heap = placed after_startup.heap ++ [(.lit "/l", 0x7f0000006000), (.lit "/l", 0x409000)] ∧
      s'.OpenedSeparate (exe_and_lib small_exe) 3 := by
  have hopens : opens_placed [(.lit "/l", RTLD_LAZY ||| RTLD_GLOBAL), (.lit "/l", RTLD_LAZY ||| RTLD_GLOBAL)] =
      .ok (placed after_startup.heap ++ [(.lit "/l", 0x7f0000006000), (.lit "/l", 0x409000)]) := by decide +kernel
  obtain ⟨s', hrun, hres⟩ := Outcome.bind_eq_ok_iff.mp hopens
  have hlist : IsLinkMap after_startup.heap (some 0) ([0] ++ [1, 2]) :=
    ⟨rfl, _, rfl, rfl, rfl, _, rfl, rfl, rfl, _, rfl, rfl, rfl⟩
  have hcalls : ∀ c ∈ [(CString.lit "/l", RTLD_LAZY ||| RTLD_GLOBAL), (.lit "/l", RTLD_LAZY ||| RTLD_GLOBAL)],
      c.2 &&& RTLD_NOLOAD = 0 ∧ get_lib_absolute_path (exe_and_lib_sys small_exe) c.1 (.lit "/a") = .ok (id c.1) := by
    intro c hc
    obtain rfl | rfl := List.mem_pair.mp hc <;> exact ⟨rfl, rfl⟩
  refine ⟨s', hrun, Outcome.ok.inj hres,
    (dlopen_separate_iff hlist rfl rfl rfl (by decide +kernel) hcalls hrun).mpr ⟨?_, ?_⟩⟩
  · decide +kernel
  · exact List.pairwise_pair.mpr (by decide +kernel)

end ldso.libdl
