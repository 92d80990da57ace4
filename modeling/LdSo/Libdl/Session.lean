import LdSo.Libdl
import LdSo.Lib.Run

open cmodel

namespace ldso.libdl

open elf elf_manipulation dependency loader relocations utility

variable {sys : System} {first : Nat}

/-- A call of `_dlopen` that has come to relocation: the new object is loaded and
its node is filled in, but it is not linked yet. -/
structure Prepared (sys : System) (first : Nat) (s : State) (filename : CString) (flags : BitVec 32) where
  map : LinkMap
  path : CString
  elf : Ehdr
  phdr : List Phdr
  tail : Nat
  prev : Nat
  before : LinkMap
  node : LinkMap
  ret : elf_addr
  loaded : Loading
  map_eq : s.heap[first]? = some map
  path_eq : get_lib_absolute_path sys filename map.l_name = .ok path
  ehdr : get_elf_ehdr sys path = .ok elf
  phdrs : get_program_header sys elf path = .ok phdr
  tail_eq : follow LinkMap.l_next s.heap s.heap.length first = .ok tail
  malloc : sys.malloc 40 = true
  name_eq : strdup sys path = .ok node.l_name
  prev_eq : s.heap[tail]?.bind LinkMap.l_prev = some prev
  before_eq : s.heap[prev]? = some before
  addr_eq : node.l_addr = before.l_addr + 6 * PAGE_SIZE
  load : load_program sys s.mem phdr elf { node with l_ld := none } 0 = .ok (ret, loaded)
  ld_eq : node.l_ld = loaded.l_ld
  next_eq : node.l_next = none
  back_eq : node.l_prev = some tail
  mode : flags &&& RTLD_LAZY ≠ 0 ∨ flags &&& RTLD_NOW ≠ 0

/-- The call finishes with the lazy relocation of the new object. -/
theorem Prepared._dlopen_eq {s : State} {filename : CString} {flags : BitVec 32}
    (p : Prepared sys first s filename flags) (hload : flags &&& RTLD_NOLOAD = 0) :
    _dlopen sys (some first) s (some filename) flags = do
      let mem ← resolve_relocations sys (s.heap ++ [p.node]) p.loaded.mem s.heap.length (some p.tail) true
      return (some s.heap.length,
        ⟨if flags &&& RTLD_GLOBAL ≠ 0 then s.heap.append_node p.tail p.node else s.heap ++ [p.node], mem⟩) := by
  obtain ⟨map, path, elf, phdr, tail, prev, before, ⟨l_addr, l_name, l_ld, l_next, l_prev⟩, ret, loaded, hmap, hpath, hehdr,
    hphdrs, htail, hmalloc, hname, hprev, hbefore, haddr, hloaded, hld, hnext, hback, hmode⟩ := p
  simp only at hmalloc hname haddr hloaded hld hnext hback
  subst haddr hld hnext hback
  have hrelocate : ∀ (heap : Heap) (mem : Memory 64) (new : Nat) (map : Option Nat),
      (if flags &&& RTLD_LAZY ≠ 0 then resolve_relocations sys heap mem new map true
        else if flags &&& RTLD_NOW ≠ 0 then resolve_relocations sys heap mem new map true
        else .exit 1) = resolve_relocations sys heap mem new map true := by
    intro heap mem new map
    obtain hlazy | hnow := hmode
    · rw [if_pos hlazy]
    · rw [if_pos hnow, ite_self]
  unfold _dlopen
  simp only [Outcome.ofOption_some, Outcome.ok_bind, hmap, hpath, hehdr, hphdrs, htail, hname, hprev, hbefore, hloaded,
    hrelocate, if_neg (show ¬ sys.malloc 40 = false by simp [hmalloc]), if_neg (not_not.mpr hload)]
  rfl

/-- The new node goes behind the list's last one. -/
theorem Prepared.tail_last {s : State} {filename : CString} {flags : BitVec 32} {ps : List Nat}
    (o : Prepared sys first s filename flags) (hlist : IsLinkMap s.heap (some first) ps)
    (hne : ps ≠ []) : ∃ fs, ps = fs ++ [o.tail] := by
  have hchain := hlist.chain
  cases ps with
  | nil => exact absurd rfl hne
  | cons p ps =>
    obtain rfl := Option.some.inj hchain.1
    have htail := o.tail_eq
    rw [hchain.follow_eq_last _ hchain.length_le] at htail
    exact ⟨_, by rw [← Outcome.ok.inj htail, List.dropLast_append_getLast]⟩

/-- A call of `_dlopen` that returns. -/
structure Opening (sys : System) (first : Nat) (s : State) (filename : CString) (flags : BitVec 32) (r : Option Nat)
    (s' : State) extends Prepared sys first s filename flags where
  resolve : resolve_relocations sys (s.heap ++ [node]) loaded.mem s.heap.length (some tail) true = .ok s'.mem
  handle : r = some s.heap.length
  heap_eq : s'.heap = if flags &&& RTLD_GLOBAL ≠ 0 then s.heap.append_node tail node else s.heap ++ [node]

theorem _dlopen_opening {s s' : State} {filename : CString} {flags : BitVec 32} {r : Option Nat}
    (hload : flags &&& RTLD_NOLOAD = 0) (h : _dlopen sys (some first) s (some filename) flags = .ok (r, s')) :
    Nonempty (Opening sys first s filename flags r s') := by
  unfold _dlopen at h
  simp only [Outcome.ofOption_some, Outcome.ok_bind] at h
  obtain ⟨map, hmap, h⟩ := Outcome.bind_eq_ok_iff.mp h
  obtain ⟨path, hpath, h⟩ := Outcome.bind_eq_ok_iff.mp h
  obtain ⟨elf, helf, h⟩ := Outcome.bind_eq_ok_iff.mp h
  obtain ⟨phdr, hphdr, h⟩ := Outcome.bind_eq_ok_iff.mp h
  obtain ⟨tail, htail, h⟩ := Outcome.bind_eq_ok_iff.mp h
  split at h
  · cases h
  · next hmalloc =>
    obtain ⟨l_name, hname, h⟩ := Outcome.bind_eq_ok_iff.mp h
    obtain ⟨prev, hprev, h⟩ := Outcome.bind_eq_ok_iff.mp h
    obtain ⟨before, hbefore, h⟩ := Outcome.bind_eq_ok_iff.mp h
    rw [if_neg (by simpa using hload)] at h
    obtain ⟨⟨ret, loaded⟩, hloaded, h⟩ := Outcome.bind_eq_ok_iff.mp h
    obtain ⟨mem, hmem, h⟩ := Outcome.bind_eq_ok_iff.mp h
    cases h
    rw [Outcome.ofOption_eq_ok_iff] at hprev hbefore
    have hmode : flags &&& RTLD_LAZY ≠ 0 ∨ flags &&& RTLD_NOW ≠ 0 := by
      by_contra hnot
      obtain ⟨hlazy, hnow⟩ := not_or.mp hnot
      rw [if_neg hlazy, if_neg hnow] at hmem
      cases hmem
    have hresolve : resolve_relocations sys (s.heap ++ [⟨before.l_addr + 6 * PAGE_SIZE, l_name, loaded.l_ld, none,
        some tail⟩]) loaded.mem s.heap.length (some tail) true = .ok mem := by
      split at hmem
      · exact hmem
      · split at hmem
        · exact hmem
        · cases hmem
    exact ⟨{
      map := map
      path := path
      elf := elf
      phdr := phdr
      tail := tail
      prev := prev
      before := before
      node := ⟨before.l_addr + 6 * PAGE_SIZE, l_name, loaded.l_ld, none, some tail⟩
      ret := ret
      loaded := loaded
      map_eq := Outcome.ofOption_eq_ok_iff.mp hmap
      path_eq := hpath
      ehdr := helf
      phdrs := hphdr
      tail_eq := htail
      malloc := by simpa using hmalloc
      name_eq := hname
      prev_eq := hprev
      before_eq := hbefore
      addr_eq := rfl
      load := hloaded
      ld_eq := rfl
      next_eq := rfl
      back_eq := rfl
      mode := hmode
      resolve := hresolve
      handle := rfl
      heap_eq := rfl }⟩

namespace Opening

variable {s s' : State} {filename : CString} {flags : BitVec 32} {r : Option Nat} {ps : List Nat}

/-- Where there is no file of an empty name, `l_name` is the path. -/
theorem name_eq_path (o : Opening sys first s filename flags r s') (hempty : sys.file (.lit "") = none) :
    o.node.l_name = o.path := by
  have hne : o.path.chars ≠ [] := by
    intro hnil
    have hpath : o.path = .lit "" := CString.ext hnil
    have hehdr := o.ehdr
    rw [hpath] at hehdr
    unfold get_elf_ehdr at hehdr
    rw [if_neg (by decide), show xopen sys (.lit "") = .exit 1 by simp [xopen, hempty]] at hehdr
    cases hehdr
  have hname := o.name_eq
  rw [strdup_of_ne_nil hne] at hname
  exact (Outcome.ok.inj hname).symm

/-- RTLD_GLOBAL appends the new node to the list. -/
theorem list_global (o : Opening sys first s filename flags r s') (hlist : IsLinkMap s.heap (some first) ps)
    (hne : ps ≠ []) (hglobal : flags &&& RTLD_GLOBAL ≠ 0) :
    IsLinkMap s'.heap (some first) (ps ++ [s.heap.length]) := by
  obtain ⟨fs, rfl⟩ := o.tail_last hlist hne
  rw [o.heap_eq, if_pos hglobal]
  exact hlist.append_node o.node

/-- Without it the list stays as it is. -/
theorem list_local (o : Opening sys first s filename flags r s') (hlist : IsLinkMap s.heap (some first) ps)
    (hlocal : ¬ flags &&& RTLD_GLOBAL ≠ 0) : IsLinkMap s'.heap (some first) ps := by
  rw [o.heap_eq, if_neg hlocal]
  exact hlist.append _

/-- The nodes that were there keep their names and addresses. -/
theorem keeps (o : Opening sys first s filename flags r s') : s.heap.Keeps s'.heap := by
  rw [o.heap_eq]
  split
  · exact s.heap.keeps_append_node o.tail o.node
  · exact s.heap.keeps_append _

/-- Their `l_prev` stays as well. -/
theorem keeps_prev (o : Opening sys first s filename flags r s') {p : Nat} (hp : p < s.heap.length) :
    (s'.heap[p]?).map LinkMap.l_prev = (s.heap[p]?).map LinkMap.l_prev := by
  have hold : ∀ v : LinkMap, (s.heap ++ [v])[p]? = s.heap[p]? := fun v => List.getElem?_append_left hp
  rw [o.heap_eq]
  split
  · unfold Heap.append_node
    rw [Heap.link_prev, hold]
  · rw [hold]

/-- The node that was added. -/
theorem new_node (o : Opening sys first s filename flags r s') :
    ∃ v, s'.heap[s.heap.length]? = some v ∧ v.l_name = o.node.l_name ∧ v.l_addr = o.node.l_addr ∧
      v.l_prev = some o.tail := by
  have hnew : ∀ v : LinkMap, (s.heap ++ [v])[s.heap.length]? = some v := fun v => List.getElem?_concat_length
  rw [o.heap_eq]
  split
  · obtain ⟨v, hv, hname, haddr⟩ := Heap.keeps_link (s.heap ++ [{ o.node with l_next := none, l_prev := some o.tail }])
      o.tail s.heap.length _ _ (hnew _)
    have hprev := Heap.link_prev (s.heap ++ [{ o.node with l_next := none, l_prev := some o.tail }]) o.tail s.heap.length
      s.heap.length
    rw [hv, hnew, Option.map_some, Option.map_some, Option.some.injEq] at hprev
    exact ⟨v, hv, hname, haddr, hprev⟩
  · exact ⟨o.node, hnew _, rfl, rfl, o.back_eq⟩

end Opening

/-- A successful `_dlclose` takes the node out; one that fails changes nothing. -/
theorem _dlclose_eq {s s' : State} {handle : Nat} {res : Int} (h : _dlclose sys s handle = .ok (res, s')) :
    (res = 0 ∧ s'.heap = s.heap.unlink handle) ∨ (res = 1 ∧ s' = s) := by
  unfold _dlclose at h
  obtain ⟨map, -, h⟩ := Outcome.bind_eq_ok_iff.mp h
  obtain ⟨elf, -, h⟩ := Outcome.bind_eq_ok_iff.mp h
  obtain ⟨phdr, -, h⟩ := Outcome.bind_eq_ok_iff.mp h
  obtain ⟨found, -, h⟩ := Outcome.bind_eq_ok_iff.mp h
  cases found with
  | none =>
    cases h
    exact Or.inr ⟨rfl, rfl⟩
  | some phdr =>
    dsimp only at h
    obtain ⟨first, -, h⟩ := Outcome.bind_eq_ok_iff.mp h
    obtain ⟨prog, -, h⟩ := Outcome.bind_eq_ok_iff.mp h
    split at h
    · cases h
      exact Or.inr ⟨rfl, rfl⟩
    · cases h
      exact Or.inl ⟨rfl, rfl⟩

/-- A call of the program. -/
inductive Call where
  | dlopen (filename : CString) (flags : BitVec 32)
  | dlclose (handle : Nat)

/-- The state with the handles that are open: those opened with RTLD_GLOBAL, in
opening order, and the others. -/
structure Session extends State where
  globals : List Nat
  locals : List Nat

namespace Session

def call (sys : System) (first : Nat) (s : Session) : Call → Outcome Session
  | .dlopen filename flags => do
    let (handle, state) ← _dlopen sys (some first) s.toState (some filename) flags
    let new ← Outcome.ofOption handle
    return if flags &&& RTLD_GLOBAL ≠ 0 then { state with globals := s.globals ++ [new], locals := s.locals }
      else { state with globals := s.globals, locals := s.locals ++ [new] }
  | .dlclose handle => do
    let (res, state) ← _dlclose sys s.toState handle
    return if res = 0 then { state with globals := s.globals.erase handle, locals := s.locals.erase handle }
      else { state with globals := s.globals, locals := s.locals }

/-- The calls that a program may make: `_dlopen` without RTLD_NOLOAD, and
`_dlclose` of a handle that is open. -/
def Admits (s : Session) : Call → Prop
  | .dlopen _ flags => flags &&& RTLD_NOLOAD = 0
  | .dlclose handle => handle ∈ s.globals ++ s.locals

/-- Opening an object. -/
theorem call_dlopen {s s' : Session} {filename : CString} {flags : BitVec 32} (hload : flags &&& RTLD_NOLOAD = 0)
    (h : s.call sys first (.dlopen filename flags) = .ok s') :
    ∃ (state : State) (_ : Opening sys first s.toState filename flags (some s.heap.length) state), s' =
      if flags &&& RTLD_GLOBAL ≠ 0 then { state with globals := s.globals ++ [s.heap.length], locals := s.locals }
      else { state with globals := s.globals, locals := s.locals ++ [s.heap.length] } := by
  obtain ⟨⟨handle, state⟩, hopen, h⟩ := Outcome.bind_eq_ok_iff.mp h
  obtain ⟨new, hnew, h⟩ := Outcome.bind_eq_ok_iff.mp h
  obtain ⟨o⟩ := _dlopen_opening hload hopen
  obtain rfl := o.handle
  cases hnew
  cases h
  exact ⟨state, o, rfl⟩

/-- Closing an object. -/
theorem call_dlclose {s s' : Session} {handle : Nat} (h : s.call sys first (.dlclose handle) = .ok s') :
    (s'.heap = s.heap.unlink handle ∧ s'.globals = s.globals.erase handle ∧ s'.locals = s.locals.erase handle) ∨
      s' = s := by
  obtain ⟨⟨res, state⟩, hclose, h⟩ := Outcome.bind_eq_ok_iff.mp h
  obtain ⟨rfl, hheap⟩ | ⟨rfl, hsame⟩ := _dlclose_eq hclose
  · cases h
    exact Or.inl ⟨hheap, rfl, rfl⟩
  · cases h
    exact Or.inr (by rw [hsame]; rfl)

end Session

end ldso.libdl
