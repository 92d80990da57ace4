import LdSo.Libdl.Binding
import LdSo.Libdl.List
import LdSo.SymbolResolution.FirstDefinition
import LdSo.SymbolResolution.Reach

open cmodel

namespace ldso.libdl

open elf elf_manipulation dependency loader relocations symbol_resolution

variable {sys : System} {first : Nat} {startup : List Nat} {obj : Nat → Option Object}

/-- The objects in which a symbol that an opened object needs is to be looked
for: those of the list, then the opened object itself when it is not on it. -/
def scope (obj : Nat → Option Object) (ps : List Nat) (handle : Nat) : List Object :=
  (if handle ∈ ps then ps else ps ++ [handle]).filterMap obj

/-- What a program does: it opens an object, or calls through an entry of the
PLT of one that is open. -/
inductive Event where
  | dlopen (filename : CString) (flags : BitVec 32)
  | plt (handle index : Nat)

/-- What the resolver reads for an entry of the PLT of the object at `handle`. -/
structure PltEntry (sys : System) (s : State) (handle index : Nat) where
  node : LinkMap
  elf : Ehdr
  buf : List Byte
  rela : Rela
  rela_name : CString
  node_eq : s.heap[handle]? = some node
  ehdr : get_elf_ehdr sys node.l_name = .ok elf
  rela_plt : get_section sys elf node.l_name (.lit ".rela.plt") = .ok (some buf)
  entry : (relas buf)[index]? = some rela
  rela_name_eq : name_from_dynsim_index sys elf node.l_name rela.sym = .ok rela_name
  writable : s.mem.WritableRegion (Memory.wordRegion 64 (slot rela node.l_addr))

/-- What relocation finds in the object that is being opened: its `.rela.plt`
and `.rela.dyn`, the names of the symbols, and words that may be written. -/
structure Relocation (sys : System) (first : Nat) (s : State) (filename : CString) (flags : BitVec 32) extends
    Prepared sys first s filename flags where
  lib : RelaFile sys node.l_name
  rela_name : Rela → CString
  rela_name_eq : ∀ r ∈ lib.dyn_entries, r.Symbolic →
    name_from_dynsim_index sys lib.elf node.l_name r.sym = .ok (rela_name r)
  writable : ∀ w ∈ lib.words node.l_addr, loaded.mem.WritableRegion (Memory.wordRegion 64 w)
  apart : Memory.Apart 64 (slots node.l_addr lib.dyn_entries)

namespace Session

def event (sys : System) (first : Nat) (s : Session) : Event → Outcome Session
  | .dlopen filename flags => s.call sys first (.dlopen filename flags)
  | .plt handle index => do
    let (_, mem) ← runtime_relocations sys s.heap s.mem handle index
    return { s with mem := mem }

/-- The calls that a program may make: `_dlopen` without RTLD_NOLOAD, and PLT
calls of objects that are open. -/
def AdmitsEvent (s : Session) : Event → Prop
  | .dlopen _ flags => flags &&& RTLD_NOLOAD = 0
  | .plt handle _ => handle ∈ s.globals ++ s.locals

/-- The list is as it should be, and `l_prev` leads to it from every other open
object. -/
structure Opened (first : Nat) (startup : List Nat) (s : Session) : Prop extends Listed first startup s where
  back : ∀ h ∈ s.locals, ∃ p ∈ startup ++ s.globals, s.heap[h]?.bind LinkMap.l_prev = some p

namespace Opened

variable {s s' : Session}

theorem startup_ne_nil (h : IsLinkMap s.heap (some first) startup) : startup ≠ [] := by
  rintro rfl
  cases h

/-- From every open object `l_prev` leads back to the first one. -/
theorem follow_prev (h : s.Opened first startup) (hne : startup ≠ []) {handle : Nat}
    (hopen : handle ∈ s.globals ++ s.locals) : follow LinkMap.l_prev s.heap s.heap.length handle = .ok first := by
  obtain ⟨p, rest, rfl⟩ := List.exists_cons_of_ne_nil hne
  have hlist : IsLinkMap s.heap (some first) (p :: (rest ++ s.globals)) := h.list
  obtain rfl : first = p := Option.some.inj hlist.1
  obtain hmem | hmem := List.mem_append.mp hopen
  · exact Segment.follow_prev_of_mem hlist (by simp [hmem]) hlist.chain.length_le
  · obtain ⟨v, hv, -⟩ := h.no_next handle hmem
    obtain ⟨q, hq, hback⟩ := h.back handle hmem
    rw [hv, Option.bind_some] at hback
    have hroom := hlist.chain.length_lt (List.getElem?_eq_some_iff.mp hv).1 (h.off_list handle hmem)
    obtain ⟨fuel, hfuel⟩ := Nat.exists_eq_add_of_lt hroom
    have hstep : follow LinkMap.l_prev s.heap ((first :: (rest ++ s.globals)).length + fuel) q = .ok first :=
      Segment.follow_prev_of_mem hlist hq (by omega)
    rw [hfuel]
    simp only [follow, hv, hback, hstep]

theorem dlopen {filename : CString} {flags : BitVec 32} (h : s.Opened first startup) (hne : startup ≠ [])
    (hload : flags &&& RTLD_NOLOAD = 0) (hcall : s.call sys first (.dlopen filename flags) = .ok s') :
    s'.Opened first startup := by
  refine ⟨h.toListed.dlopen hne hload hcall, ?_⟩
  obtain ⟨state, o, rfl⟩ := call_dlopen hload hcall
  obtain ⟨fs, hfs⟩ := o.tail_last h.list (by simp [hne])
  have hold : ∀ q ∈ s.locals, ∃ p ∈ startup ++ s.globals, state.heap[q]?.bind LinkMap.l_prev = some p := by
    intro q hq
    obtain ⟨p, hp, hback⟩ := h.back q hq
    obtain ⟨v, hv, -⟩ := h.no_next q hq
    have hkeep := o.keeps_prev (List.getElem?_eq_some_iff.mp hv).1
    rw [hv, Option.map_some, Option.map_eq_some_iff] at hkeep
    obtain ⟨v', hv', hprev⟩ := hkeep
    refine ⟨p, hp, ?_⟩
    rw [hv, Option.bind_some] at hback
    rw [hv', Option.bind_some, hprev, hback]
  by_cases hglobal : flags &&& RTLD_GLOBAL ≠ 0
  · rw [if_pos hglobal]
    intro q hq
    obtain ⟨p, hp, hback⟩ := hold q hq
    exact ⟨p, by rw [← List.append_assoc]; exact List.mem_append_left _ hp, hback⟩
  · rw [if_neg hglobal]
    intro q hq
    obtain hq | hq := List.mem_append.mp hq
    · exact hold q hq
    · obtain rfl := List.mem_singleton.mp hq
      obtain ⟨v, hv, -, -, hprev⟩ := o.new_node
      exact ⟨o.tail, by rw [hfs]; simp, by rw [hv, Option.bind_some, hprev]⟩

theorem event {e : Event} (h : s.Opened first startup) (hne : startup ≠ []) (hadmits : s.AdmitsEvent e)
    (hevent : s.event sys first e = .ok s') : s'.Opened first startup := by
  cases e with
  | dlopen filename flags => exact h.dlopen hne hadmits hevent
  | plt handle index =>
    obtain ⟨⟨a, mem⟩, -, hevent⟩ := Outcome.bind_eq_ok_iff.mp hevent
    cases hevent
    exact ⟨⟨h.list, h.off_list, h.no_next⟩, h.back⟩

end Opened

/-- What is assumed: `obj` says what the nodes of the list are, and the searches
that are made meet sound objects. -/
def Regular (sys : System) (first : Nat) (startup : List Nat) (obj : Nat → Option Object) (s : Session)
    (e : Event) : Prop :=
  (∀ p ∈ startup ++ s.globals, Represents sys s.heap obj p) ∧
    match e with
    | .dlopen filename flags =>
      ∀ o : Relocation sys first s.toState filename flags, ∀ r ∈ o.lib.dyn_entries, r.Symbolic →
        Sound sys (o.loaded.mem.hide (Memory.wordRegions 64 (o.lib.words o.node.l_addr))) obj (o.rela_name r) [o.tail]
    | .plt handle index => ∀ e : PltEntry sys s.toState handle index,
        Sound sys s.mem obj e.rela_name (startup ++ s.globals)

/-- The call returns, and what it binds is the first definition in the scope of
the object: the words of `.rela.dyn` when the object is opened, later that of
the PLT entry. -/
def Binds (sys : System) (first : Nat) (startup : List Nat) (obj : Nat → Option Object) (s : Session) : Event → Prop
  | .dlopen filename flags => ∀ o : Relocation sys first s.toState filename flags,
      ∃ s', _dlopen sys (some first) s.toState (some filename) flags = .ok (some s.heap.length, s') ∧
        ∀ r ∈ o.lib.dyn_entries, r.Symbolic → ∃ a, s'.mem.loadWord 64 (slot r o.node.l_addr) = .ok a ∧
          FirstDefinition (scope obj (startup ++ s.globals) s.heap.length) (o.rela_name r) (.ok a)
  | .plt handle index => ∀ e : PltEntry sys s.toState handle index,
      ∃ a m', runtime_relocations sys s.heap s.mem handle index = .ok (a, m') ∧
        m'.loadWord 64 (slot e.rela e.node.l_addr) = .ok a ∧
        FirstDefinition (scope obj (startup ++ s.globals) handle) e.rela_name (.ok a)

/-- The first definitions are where they are looked for: while an object is
opened, at the last node of the list; later on the list, with no vdso before
them. COPY and RELATIVE entries stop the relocation of `.rela.dyn`. -/
def InReach (sys : System) (first : Nat) (startup : List Nat) (obj : Nat → Option Object) (s : Session) : Event → Prop
  | .dlopen filename flags => ∀ o : Relocation sys first s.toState filename flags,
      (∀ r ∈ o.lib.dyn_entries, r.type ≠ R_X86_64_COPY ∧ r.type ≠ R_X86_64_RELATIVE) ∧
        ∀ r ∈ o.lib.dyn_entries, r.Symbolic → ReachedLast obj (o.rela_name r) (startup ++ s.globals)
  | .plt handle index => ∀ e : PltEntry sys s.toState handle index, Reaches obj e.rela_name (startup ++ s.globals)

/-- The scope begins with the objects of the list. -/
theorem scope_eq_append (obj : Nat → Option Object) (ps : List Nat) (handle : Nat) :
    ∃ rest, scope obj ps handle = ps.filterMap obj ++ rest := by
  unfold scope
  split
  · exact ⟨[], (List.append_nil _).symm⟩
  · exact ⟨_, List.filterMap_append⟩

theorem firstDefinition_scope {ps : List Nat} {name : CString} {a : elf_addr} (handle : Nat)
    (h : ∀ rest, FirstDefinition (ps.filterMap obj ++ rest) name (.ok a)) :
    FirstDefinition (scope obj ps handle) name (.ok a) := by
  obtain ⟨rest, hrest⟩ := scope_eq_append obj ps handle
  rw [hrest]
  exact h rest

/-- A PLT call binds what is in reach. -/
theorem Opened.binds_plt {s : Session} {handle index : Nat} (h : s.Opened first startup) (hne : startup ≠ [])
    (hopen : s.AdmitsEvent (.plt handle index)) (hregular : s.Regular sys first startup obj (.plt handle index))
    (hreach : s.InReach sys first startup obj (.plt handle index)) :
    s.Binds sys first startup obj (.plt handle index) := by
  intro e
  obtain ⟨a, hlookup, hfirst⟩ := lookup_list_of_reaches hregular.1 (hregular.2 e) (hreach e)
  rw [← link_map_lookup_eq_list h.list.chain] at hlookup
  refine ⟨a, s.mem.putWord (slot e.rela e.node.l_addr) a, ?_, ?_, firstDefinition_scope handle hfirst⟩
  · simp only [runtime_relocations, h.follow_prev hne hopen, e.node_eq, e.ehdr, e.rela_plt, e.rela_name_eq, hlookup,
      Outcome.ok_bind, Outcome.ofOption_some, if_neg (show ¬ (index : Int) < 0 by omega), Int.toNat_natCast, e.entry]
    rw [if_pos (link_map_lookup_ne_zero hlookup), Memory.storeWord_eq_ok _ e.writable]
    rfl
  · exact Memory.loadWord_putWord_same rfl (by decide) e.writable

/-- Before the new object is linked, the list's last node is a chain of its own. -/
theorem Opened.tail_chain {s : Session} {filename : CString} {flags : BitVec 32} (h : s.Opened first startup)
    (hne : startup ≠ []) (o : Prepared sys first s.toState filename flags) :
    NextChain (s.heap ++ [o.node]) (some o.tail) [o.tail] := by
  obtain ⟨fs, hfs⟩ := o.tail_last h.list (by simp [hne])
  have hlist : IsLinkMap (s.heap ++ [o.node]) (some first) (fs ++ [o.tail]) := by
    rw [← hfs]
    exact h.list.append _
  obtain ⟨-, -, rfl, v, hv, -, hend⟩ := Segment.append_iff.mp hlist
  exact ⟨rfl, v, hv, hend⟩

/-- Opening an object binds what is in reach. -/
theorem Opened.binds_dlopen {s : Session} {filename : CString} {flags : BitVec 32} (h : s.Opened first startup)
    (hne : startup ≠ []) (hload : s.AdmitsEvent (.dlopen filename flags))
    (hregular : s.Regular sys first startup obj (.dlopen filename flags))
    (hreach : s.InReach sys first startup obj (.dlopen filename flags)) :
    s.Binds sys first startup obj (.dlopen filename flags) := by
  intro o
  obtain ⟨htype, hreach⟩ := hreach o
  obtain ⟨fs, hfs⟩ := o.tail_last h.list (by simp [hne])
  have hfound : ∀ r ∈ o.lib.dyn_entries, r.Symbolic → ∃ addr,
      Finds sys (s.heap ++ [o.node]) (o.loaded.mem.hide (Memory.wordRegions 64 (o.lib.words o.node.l_addr))) o.lib.elf
        o.node (some o.tail) r addr ∧
      FirstDefinition (scope obj (startup ++ s.globals) s.heap.length) (o.rela_name r) (.ok addr) := by
    intro r hr hsym
    obtain ⟨before, p, d, hsplit, hobj, hfinds, hnone⟩ := hreach r hr hsym
    obtain ⟨rfl, htail⟩ := List.append_inj' (hfs.symm.trans hsplit) rfl
    obtain rfl : o.tail = p := List.singleton_inj.mp htail
    have hlast : Reaches obj (o.rela_name r) [o.tail] := by simp [Reaches, hobj, hfinds, hfinds.defines]
    obtain ⟨a, hlookup, hfirst⟩ := @lookup_list_of_reaches _ _ (s.heap ++ [o.node]) _ _ _
      (fun q hq => (hregular.1 q (by
        rw [hsplit]
        exact List.mem_append_right _ hq)).append _) (hregular.2 o r hr hsym) hlast
    rw [← link_map_lookup_eq_list (h.tail_chain hne o.toPrepared)] at hlookup
    refine ⟨a, ⟨_, o.rela_name_eq r hr hsym, hlookup⟩, firstDefinition_scope _ fun rest => ?_⟩
    rw [hsplit, List.filterMap_append, List.append_assoc, FirstDefinition.append_iff_of_not_defines]
    · exact hfirst rest
    · intro x hx
      obtain ⟨q, hq, hqobj⟩ := List.mem_filterMap.mp hx
      exact hnone q hq x hqobj
  choose! addr hfinds hfirst using hfound
  obtain ⟨mem, hresolve, hbound⟩ := @RelaFile.resolve_relocations_of_finds _ (s.heap ++ [o.node]) _ _ _
    (some o.tail) o.lib addr List.getElem?_concat_length o.writable o.apart htype hfinds
  rw [o._dlopen_eq hload, hresolve]
  exact ⟨_, rfl, fun r hr hsym => ⟨addr r, hbound r hr hsym, hfirst r hr hsym⟩⟩

/-- A PLT call that binds what it should was in reach. -/
theorem Opened.inReach_plt {s : Session} {handle index : Nat} (h : s.Opened first startup) (hne : startup ≠ [])
    (hfile : sys.file (.lit "linux-vdso.so.1") = none) (hopen : s.AdmitsEvent (.plt handle index))
    (hregular : s.Regular sys first startup obj (.plt handle index))
    (hmember : ∀ e : PltEntry sys s.toState handle index, ∀ p ∈ startup ++ s.globals, ∀ o ∈ obj p,
      o.Defines e.rela_name → ∀ t, o.gnu_entry e.rela_name = some t → o.address t ≠ 0)
    (hbinds : s.Binds sys first startup obj (.plt handle index)) :
    s.InReach sys first startup obj (.plt handle index) := by
  intro e
  obtain ⟨a, m', hcall, -, hfirst⟩ := hbinds e
  simp only [runtime_relocations, h.follow_prev hne hopen, e.node_eq, e.ehdr, e.rela_plt, e.rela_name_eq,
    Outcome.ok_bind,
    Outcome.ofOption_some, if_neg (show ¬ (index : Int) < 0 by omega), Int.toNat_natCast, e.entry] at hcall
  obtain ⟨addr, hlookup, hcall⟩ := Outcome.bind_eq_ok_iff.mp hcall
  rw [if_pos (link_map_lookup_ne_zero hlookup)] at hcall
  obtain ⟨m₁, -, hcall⟩ := Outcome.bind_eq_ok_iff.mp hcall
  obtain rfl : addr = a := (Prod.mk.inj (Outcome.ok.inj hcall)).1
  rw [link_map_lookup_eq_list h.list.chain] at hlookup
  obtain ⟨rest, hrest⟩ := scope_eq_append obj (startup ++ s.globals) handle
  rw [hrest] at hfirst
  exact reaches_of_lookup_list hfile hregular.1 (hregular.2 e) (hmember e) hlookup hfirst

/-- When distinct objects define a name at distinct addresses, and no entry stops
the relocation, opening an object binds only what is in reach. -/
theorem Opened.inReach_dlopen {s : Session} {filename : CString} {flags : BitVec 32} (h : s.Opened first startup)
    (hne : startup ≠ []) (hfile : sys.file (.lit "linux-vdso.so.1") = none)
    (hload : s.AdmitsEvent (.dlopen filename flags))
    (hregular : s.Regular sys first startup obj (.dlopen filename flags))
    (htype : ∀ (o : Relocation sys first s.toState filename flags), ∀ r ∈ o.lib.dyn_entries,
      r.type ≠ R_X86_64_COPY ∧ r.type ≠ R_X86_64_RELATIVE)
    (hdistinct : ∀ name, DistinctAddresses name ((startup ++ s.globals).filterMap obj))
    (hbinds : s.Binds sys first startup obj (.dlopen filename flags)) :
    s.InReach sys first startup obj (.dlopen filename flags) := by
  intro o
  refine ⟨htype o, fun r hr hsym => ?_⟩
  obtain ⟨fs, hfs⟩ := o.tail_last h.list (by simp [hne])
  obtain ⟨s', hcall, hbound⟩ := hbinds o
  obtain ⟨a, hword, hfirst⟩ := hbound r hr hsym
  rw [o._dlopen_eq hload] at hcall
  obtain ⟨mem, hresolve, hcall⟩ := Outcome.bind_eq_ok_iff.mp hcall
  cases hcall
  obtain ⟨m₁, b, hsame, ⟨rela_name, hname, hlookup⟩, hword'⟩ := @RelaFile.finds_of_resolve_relocations _
    (s.heap ++ [o.node]) _ _ _ _ o.lib _ List.getElem?_concat_length o.writable o.apart (htype o) hresolve r hr hsym
  obtain rfl : a = b := Outcome.ok.inj (hword.symm.trans hword')
  obtain rfl : o.rela_name r = rela_name := Outcome.ok.inj ((o.rela_name_eq r hr hsym).symm.trans hname)
  have hsound : Sound sys m₁ obj (o.rela_name r) [o.tail] := by
    have hsound := hregular.2 o r hr hsym
    rw [← hsame] at hsound
    exact hsound.mono (Memory.hide_sub _ _)
  have hobj : ∀ q ∈ [o.tail], Represents sys (s.heap ++ [o.node]) obj q := fun q hq => (hregular.1 q (by
    rw [hfs]
    exact List.mem_append_right _ hq)).append _
  rw [link_map_lookup_eq_list (h.tail_chain hne o.toPrepared)] at hlookup
  obtain ⟨d, hd, hload, hgnu, hsysv, hdef, hlookup, hnonzero⟩ :=
    defines_of_lookup_one hfile (hobj o.tail (by simp)) hsound hlookup
  have hnew : s.heap.length ∉ startup ++ s.globals := fun hmem => lt_irrefl _ (h.list.lt_length _ hmem)
  have hscope : FirstDefinition (fs.filterMap obj ++ [o.tail, s.heap.length].filterMap obj) (o.rela_name r) (.ok a) := by
    have h := hfirst
    rw [scope, if_neg hnew, hfs, List.append_assoc, List.filterMap_append] at h
    exact h
  have hnone : ∀ q ∈ fs, ∀ x ∈ obj q, ¬ x.Defines (o.rela_name r) := by
    -- an earlier definition would be at the address that was found
    by_contra hearlier
    push Not at hearlier
    obtain ⟨q, hq, x, hx, hxdef⟩ := hearlier
    obtain ⟨y, hy, t, ht, htname, haddr⟩ :=
      hscope.entry_of_defines ⟨x, List.mem_filterMap.mpr ⟨q, hq, hx⟩, hxdef⟩
    obtain ⟨u, hu, huname, haddr'⟩ := Object.entry_of_lookup hload hgnu hsysv hlookup hnonzero
    have hapart := hdistinct (o.rela_name r)
    rw [hfs, List.filterMap_append, List.filterMap_cons_some hd] at hapart
    exact (List.pairwise_append.mp hapart).2.2 y hy d (by simp) t ht u hu htname huname (haddr.symm.trans haddr')
  refine ⟨fs, o.tail, d, hfs, hd, ?_, hnone⟩
  rw [FirstDefinition.append_iff_of_not_defines, List.filterMap_cons_some hd, FirstDefinition.cons_iff_of_defines hdef]
    at hscope
  · obtain ⟨t, ht, htdef, htname, heq⟩ := hscope
    exact Object.findsOwn_of_lookup hload (Or.inl hgnu) (fun _ => Or.inl hsysv) hlookup hnonzero
      ⟨t, ht, htdef, htname, Outcome.ok.inj heq⟩
  · intro x hx
    obtain ⟨q, hq, hqobj⟩ := List.mem_filterMap.mp hx
    exact hnone q hq x hqobj

/-- What tells a right binding from a wrong one. For an open, no entry stops the
relocation, and distinct objects have distinct addresses for a name. For a PLT call,
an object that defines the name has no import of it at 0 in its GNU table, in front of
the definition. -/
def Telling (sys : System) (first : Nat) (startup : List Nat) (obj : Nat → Option Object) (s : Session) : Event → Prop
  | .dlopen filename flags => (∀ o : Relocation sys first s.toState filename flags, ∀ r ∈ o.lib.dyn_entries,
      r.type ≠ R_X86_64_COPY ∧ r.type ≠ R_X86_64_RELATIVE) ∧
      ∀ name, DistinctAddresses name ((startup ++ s.globals).filterMap obj)
  | .plt handle index => ∀ e : PltEntry sys s.toState handle index, ∀ p ∈ startup ++ s.globals, ∀ o ∈ obj p,
      o.Defines e.rela_name → ∀ t, o.gnu_entry e.rela_name = some t → o.address t ≠ 0

/-- Whatever objects a program starts with, in every run of `_dlopen` calls and
of PLT calls of open objects, a call for which the first definitions are in
reach returns and binds them; a call that does so has them in reach. -/
theorem dlopen_plt_first_definition {s : Session} {events : List Event}
    (hstart : IsLinkMap s.heap (some first) startup) (hopen : s.globals = [] ∧ s.locals = [])
    (hevents : Along (Session.event sys first) AdmitsEvent events s) :
    Along (Session.event sys first) (fun s e => s.Regular sys first startup obj e →
      (s.InReach sys first startup obj e → s.Binds sys first startup obj e) ∧
      (sys.file (.lit "linux-vdso.so.1") = none → s.Telling sys first startup obj e →
        s.Binds sys first startup obj e → s.InReach sys first startup obj e)) events s := by
  have hne : startup ≠ [] := Opened.startup_ne_nil hstart
  have hinit : s.Opened first startup :=
    ⟨⟨by simpa [hopen.1] using hstart, by simp [hopen.2], by simp [hopen.2]⟩, by simp [hopen.2]⟩
  refine Along.of_invariant (fun s e s' h hadmits hevent => h.event hne hadmits hevent) ?_ hinit hevents
  intro s e h hadmits hregular
  cases e with
  | dlopen filename flags =>
    refine ⟨h.binds_dlopen hne hadmits hregular, fun hfile htelling hbinds => ?_⟩
    exact h.inReach_dlopen hne hfile hadmits hregular htelling.1 htelling.2 hbinds
  | plt handle index =>
    exact ⟨h.binds_plt hne hadmits hregular,
      fun hfile htelling hbinds => h.inReach_plt hne hfile hadmits hregular htelling hbinds⟩

end Session

/-- A library that imports `f` and refers to it through the PLT, with the slot at
0xc8, and through the word at 0xd0. Its one segment is the whole file. -/
def got_base : Object :=
  .single ⟨0x7000, .lit "/l", none, none, some 1⟩ (.lit "f") SHN_UNDEF 0 0xd8 0xf4 (by decide) (by decide)

def got_content : List Byte :=
  image [⟨PT_LOAD, 7, 0, 0, 0x108, 0x108⟩, ⟨PT_NULL, 0, 0, 0x108, 0, 0⟩]
    [⟨.lit ".got.plt", 0xb0, leBytes 24 0 ++ leBytes 8 0x1006 ++ leBytes 8 0⟩,
      ⟨.lit ".gnu.hash", 0xd8, got_base.gnu.elim [] fun (_, t) => t.bytes⟩,
      ⟨.lit ".hash", 0xf4, got_base.sysv.elim [] fun (_, t) => t.bytes⟩,
      ⟨.lit ".dynsym", 0, got_base.file.dynsym⟩, ⟨.lit ".dynstr", 0, got_base.file.dynstr⟩,
      ⟨.lit ".dynamic", 0, got_base.file.dynamic⟩,
      ⟨.lit ".rela.plt", 0, [⟨0xc8, 1#32 ++ R_X86_64_JUMP_SLOT, 0⟩].flatMap Rela.encode⟩,
      ⟨.lit ".rela.dyn", 0, [⟨0xd0, 1#32 ++ R_X86_64_GLOB_DAT, 0⟩].flatMap Rela.encode⟩]

def got_lib : Object := got_base.with_header (Ehdr.decode got_content)

/-- The definer of `f` in front, and behind it an object that defines `g`. -/
def f_first : Object :=
  .single ⟨0x1000, .lit "b.so", none, some 1, none⟩ (.lit "f") 7 0x40 0x200 0x300 (by decide) (by decide)

def g_last : Object :=
  .single ⟨0x2000, .lit "a.so", none, none, some 0⟩ (.lit "g") 7 0x40 0x200 0x300 (by decide) (by decide)

def got_sys : System :=
  .of_files [(.lit "a.so", g_definer.file.content), (.lit "b.so", definer.file.content), (.lit "/l", got_content)]

def got_state (objs : List Object) : Session where
  heap := objs.map Object.node
  mem := objs.foldl Object.place fun _ => none
  globals := []
  locals := []

def got_node : LinkMap := ⟨0x7000, .lit "/l", none, none, some 1⟩

def got_phdrs : List Phdr := [⟨PT_LOAD, 7, 0, 0, 0x108, 0x108⟩, ⟨PT_NULL, 0, 0, 0x108, 0, 0⟩]

/-- What is read of the library's file. -/
theorem got_read :
    get_elf_ehdr got_sys (.lit "/l") = .ok (Ehdr.decode got_content) ∧
    get_program_header got_sys (Ehdr.decode got_content) (.lit "/l") = .ok got_phdrs ∧
    (get_section got_sys (Ehdr.decode got_content) (.lit "/l") (.lit ".rela.plt") =
        .ok (some ([⟨0xc8, 1#32 ++ R_X86_64_JUMP_SLOT, 0⟩].flatMap Rela.encode)) ∧
      get_section_size got_sys (Ehdr.decode got_content) (.lit "/l") (.lit ".rela.plt") = .ok 1) ∧
    (get_section got_sys (Ehdr.decode got_content) (.lit "/l") (.lit ".rela.dyn") =
        .ok (some ([⟨0xd0, 1#32 ++ R_X86_64_GLOB_DAT, 0⟩].flatMap Rela.encode)) ∧
      get_section_size got_sys (Ehdr.decode got_content) (.lit "/l") (.lit ".rela.dyn") = .ok 1) ∧
    get_got_plt got_sys (Ehdr.decode got_content) ⟨0, .lit "/l", none, none, none⟩ = .ok (some 0xb0) ∧
    name_from_dynsim_index got_sys (Ehdr.decode got_content) (.lit "/l") 1 = .ok (.lit "f") ∧
    ∀ name ∈ [CString.lit "a.so", .lit "b.so"], get_lib_absolute_path got_sys (.lit "/l") name = .ok (.lit "/l") := by
  decide +kernel

theorem got_ehdr : get_elf_ehdr got_sys (.lit "/l") = .ok (Ehdr.decode got_content) := got_read.1

theorem got_name : name_from_dynsim_index got_sys (Ehdr.decode got_content) (.lit "/l") 1 = .ok (.lit "f") :=
  got_read.2.2.2.2.2.1

theorem got_path : ∀ name ∈ [CString.lit "a.so", .lit "b.so"],
    get_lib_absolute_path got_sys (.lit "/l") name = .ok (.lit "/l") := got_read.2.2.2.2.2.2

theorem got_program_header : get_program_header got_sys (Ehdr.decode got_content) (.lit "/l") = .ok got_phdrs :=
  got_read.2.1

def got_file : RelaFile got_sys (.lit "/l") where
  elf := Ehdr.decode got_content
  plt := some ([⟨0xc8, 1#32 ++ R_X86_64_JUMP_SLOT, 0⟩].flatMap Rela.encode)
  dyn := some ([⟨0xd0, 1#32 ++ R_X86_64_GLOB_DAT, 0⟩].flatMap Rela.encode)
  got_plt := some 0xb0
  ehdr := got_ehdr
  rela_plt := got_read.2.2.1.1
  plt_count := by
    rw [Option.getD_some, relas_encode]
    exact got_read.2.2.1.2
  rela_dyn := got_read.2.2.2.1.1
  dyn_count := by
    rw [Option.getD_some, relas_encode]
    exact got_read.2.2.2.1.2
  got := got_read.2.2.2.2.1

/-- What is seen of the memory once the library is loaded. -/
def got_load {α : Type} (objs : List Object) (see : Memory 64 → α) : Outcome α := do
  let (_, loaded) ← load_program got_sys (got_state objs).mem got_phdrs (Ehdr.decode got_content) got_node 0
  return see loaded.mem

variable {objs : List Object}

/-- Opening the library in either state. -/
theorem got_prepared (hobjs : objs = [g_definer, definer] ∨ objs = [f_first, g_last])
    (p : Prepared got_sys 0 (got_state objs).toState (.lit "/l") RTLD_LAZY) :
    p.tail = 1 ∧ { p.node with l_ld := none } = got_node ∧
      load_program got_sys (got_state objs).mem got_phdrs (Ehdr.decode got_content) got_node 0 = .ok (p.ret, p.loaded) := by
  obtain ⟨map, path, elf, phdr, tail, prev, before, ⟨l_addr, l_name, l_ld, l_next, l_prev⟩, ret, loaded, hmap, hpath, hehdr,
    hphdrs, htail, hmalloc, hname, hprev, hbefore, haddr, hloaded, hld, hnext, hback, hmode⟩ := p
  have hpath' : get_lib_absolute_path got_sys (.lit "/l") map.l_name = .ok (.lit "/l") := by
    obtain rfl | rfl := hobjs
    · obtain rfl := Option.some.inj hmap
      exact got_path _ (by simp [g_definer, importer, Object.single])
    · obtain rfl := Option.some.inj hmap
      exact got_path _ (by simp [f_first, Object.single])
  obtain rfl : path = .lit "/l" := Outcome.ok.inj (hpath.symm.trans hpath')
  obtain rfl : elf = Ehdr.decode got_content := Outcome.ok.inj (hehdr.symm.trans got_ehdr)
  obtain rfl : phdr = got_phdrs := Outcome.ok.inj (hphdrs.symm.trans got_program_header)
  obtain rfl : l_name = .lit "/l" := Outcome.ok.inj (hname.symm.trans (utility.strdup_of_ne_nil (by decide)))
  obtain rfl : tail = 1 := by
    obtain rfl | rfl := hobjs <;> exact (Outcome.ok.inj htail).symm
  obtain rfl : prev = 0 := by
    obtain rfl | rfl := hobjs <;> exact (Option.some.inj hprev).symm
  obtain rfl : l_addr = 0x7000 := by
    obtain rfl | rfl := hobjs
    · obtain rfl := Option.some.inj hbefore
      exact haddr.trans (by decide)
    · obtain rfl := Option.some.inj hbefore
      exact haddr.trans (by decide)
  simp only at hnext hback
  subst hnext hback
  exact ⟨rfl, rfl, hloaded⟩

theorem got_entries {name : CString} (hname : name = .lit "/l") (lib : RelaFile got_sys name) :
    lib.elf = Ehdr.decode got_content ∧ lib.dyn_entries = [⟨0xd0, 1#32 ++ R_X86_64_GLOB_DAT, 0⟩] ∧
      lib.words 0x7000 = [0x70b8, 0x70c0, 0x70c8, 0x70d0] := by
  subst hname
  have hplt : got_file.plt_entries = [⟨0xc8, 1#32 ++ R_X86_64_JUMP_SLOT, 0⟩] := relas_encode _
  have hdyn : got_file.dyn_entries = [⟨0xd0, 1#32 ++ R_X86_64_GLOB_DAT, 0⟩] := relas_encode _
  rw [lib.unique got_file]
  refine ⟨rfl, hdyn, ?_⟩
  unfold RelaFile.words RelaFile.lazy_words
  rw [hplt, hdyn]
  decide +kernel

/-- The memory holds the object's tables. -/
def tables_held (o : Object) (m : Memory 64) : Bool :=
  (o.gnu.elim true fun (v, t) => m.Holds (v + o.node.l_addr) t.bytes) &&
    o.sysv.elim true fun (v, t) => m.Holds (v + o.node.l_addr) t.bytes

theorem loaded_of_tables_held {o : Object} {sys : System} {m : Memory 64} (hdisk : o.file.OnDisk sys o.node.l_name)
    (h : tables_held o m = true) : o.Loaded sys m := by
  obtain ⟨hgnu, hsysv⟩ := Bool.and_eq_true_iff.mp h
  refine ⟨hdisk, fun v t ht => ?_, fun v t ht => ?_⟩
  · simpa [ht] using hgnu
  · simpa [ht] using hsysv

theorem got_on_disk (hobjs : objs = [g_definer, definer] ∨ objs = [f_first, g_last]) :
    ∀ o ∈ objs, o.file.OnDisk got_sys o.node.l_name := by
  have hg : g_definer.file.OnDisk got_sys (.lit "a.so") := by decide +kernel
  have hsame : System.SameFile got_sys importer_sys (.lit "b.so") := System.of_files_sameFile (by decide +kernel) (by
    rw [System.of_files_file_tail (by decide +kernel), System.of_files_file_head,
      System.of_files_file_tail (by decide +kernel), System.of_files_file_head])
  have hf : definer.file.OnDisk got_sys (.lit "b.so") := definer_on_disk.of_sameFile hsame
  intro o ho
  obtain rfl | rfl := hobjs <;> obtain rfl | rfl := List.mem_pair.mp ho
  · exact hg
  · exact hf
  · exact hf
  · exact hg

/-- The words of the library that relocation writes. -/
def got_words : List elf_addr := [0x70b8, 0x70c0, 0x70c8, 0x70d0]

/-- The library's words may be written, and the other objects' tables are not under them. -/
theorem got_loaded (hobjs : objs = [g_definer, definer] ∨ objs = [f_first, g_last]) :
    ∃ ret loaded,
      load_program got_sys (got_state objs).mem got_phdrs (Ehdr.decode got_content) got_node 0 = .ok (ret, loaded) ∧
      (∀ w ∈ got_words, loaded.mem.WritableRegion (Memory.wordRegion 64 w)) ∧
      ∀ o ∈ objs, o.Loaded got_sys (loaded.mem.hide (Memory.wordRegions 64 got_words)) := by
  have hload : got_load objs (fun m => (got_words.all fun w => m.WritableRegion (Memory.wordRegion 64 w),
      objs.all fun o => tables_held o (m.hide (Memory.wordRegions 64 got_words)))) = .ok (true, true) := by
    obtain rfl | rfl := hobjs <;> decide +kernel
  obtain ⟨⟨ret, loaded⟩, hloaded, hsee⟩ := Outcome.bind_eq_ok_iff.mp hload
  obtain ⟨hwr, htables⟩ := Prod.mk.inj (Outcome.ok.inj hsee)
  rw [List.all_eq_true] at hwr htables
  exact ⟨ret, loaded, hloaded, fun w hw => by simpa using hwr w hw,
    fun o ho => loaded_of_tables_held (got_on_disk hobjs o ho) (htables o ho)⟩

theorem got_relocation (hobjs : objs = [g_definer, definer] ∨ objs = [f_first, g_last]) :
    Nonempty (Relocation got_sys 0 (got_state objs).toState (.lit "/l") RTLD_LAZY) := by
  obtain ⟨ret, loaded, hload, hwr, -⟩ := got_loaded hobjs
  obtain ⟨-, hdyn, hwords⟩ := got_entries rfl got_file
  obtain ⟨map, hmap, hpath, htail, hprev, haddr⟩ : ∃ map, (got_state objs).heap[0]? = some map ∧
      get_lib_absolute_path got_sys (.lit "/l") map.l_name = .ok (.lit "/l") ∧
      follow LinkMap.l_next (got_state objs).heap (got_state objs).heap.length 0 = .ok 1 ∧
      (got_state objs).heap[1]?.bind LinkMap.l_prev = some 0 ∧ map.l_addr = 0x1000 := by
    obtain rfl | rfl := hobjs <;>
      exact ⟨_, rfl, got_path _ (by simp [g_definer, f_first, importer, Object.single]), rfl, rfl, rfl⟩
  have hname : ∀ r ∈ got_file.dyn_entries, r.Symbolic →
      name_from_dynsim_index got_sys got_file.elf (.lit "/l") r.sym = .ok (.lit "f") := by
    intro r hr _
    rw [hdyn, List.mem_singleton] at hr
    subst hr
    exact got_name
  have hwritable : ∀ w ∈ got_file.words 0x7000, loaded.mem.WritableRegion (Memory.wordRegion 64 w) := by
    rw [hwords]
    exact hwr
  have hapart : Memory.Apart 64 (slots 0x7000 got_file.dyn_entries) := by
    rw [hdyn]
    exact List.pairwise_singleton _ _
  exact ⟨{
    map := map
    path := .lit "/l"
    elf := Ehdr.decode got_content
    phdr := got_phdrs
    tail := 1
    prev := 0
    before := map
    node := { got_node with l_ld := loaded.l_ld }
    ret := ret
    loaded := loaded
    map_eq := hmap
    path_eq := hpath
    ehdr := got_ehdr
    phdrs := got_program_header
    tail_eq := htail
    malloc := rfl
    name_eq := utility.strdup_of_ne_nil (by decide)
    prev_eq := hprev
    before_eq := hmap
    addr_eq := by
      show (0x7000 : elf_addr) = map.l_addr + 6 * PAGE_SIZE
      rw [haddr]
      decide
    load := hload
    ld_eq := rfl
    next_eq := rfl
    back_eq := rfl
    mode := Or.inl (by decide)
    lib := got_file
    rela_name := fun _ => .lit "f"
    rela_name_eq := hname
    writable := hwritable
    apart := hapart }⟩

/-- What every relocation of the library is about. -/
theorem got_relocation_eq (hobjs : objs = [g_definer, definer] ∨ objs = [f_first, g_last])
    (o : Relocation got_sys 0 (got_state objs).toState (.lit "/l") RTLD_LAZY) :
    o.tail = 1 ∧ o.node.l_addr = 0x7000 ∧ o.lib.dyn_entries = [⟨0xd0, 1#32 ++ R_X86_64_GLOB_DAT, 0⟩] ∧
      (∀ r ∈ o.lib.dyn_entries, o.rela_name r = .lit "f") ∧
      ∀ x ∈ objs, x.Loaded got_sys (o.loaded.mem.hide (Memory.wordRegions 64 (o.lib.words o.node.l_addr))) := by
  obtain ⟨htail, hnode, hload⟩ := got_prepared hobjs o.toPrepared
  have hname : o.node.l_name = .lit "/l" := congrArg LinkMap.l_name hnode
  have haddr : o.node.l_addr = 0x7000 := congrArg LinkMap.l_addr hnode
  obtain ⟨helf, hdyn, hwords⟩ := got_entries hname o.lib
  obtain ⟨ret, loaded, hload', -, hloaded⟩ := got_loaded hobjs
  have hsame : o.loaded = loaded := (Prod.mk.inj (Outcome.ok.inj (hload.symm.trans hload'))).2
  refine ⟨htail, haddr, hdyn, ?_, ?_⟩
  · intro r hr
    have hrela := o.rela_name_eq r hr
    rw [hdyn, List.mem_singleton] at hr
    subst hr
    rw [helf, hname] at hrela
    exact Outcome.ok.inj ((hrela (by decide)).symm.trans got_name)
  · rw [haddr, hwords, hsame]
    exact hloaded

def got_obj (objs : List Object) (p : Nat) : Option Object := (objs ++ [got_lib])[p]?

theorem got_represents (hobjs : objs = [g_definer, definer] ∨ objs = [f_first, g_last]) {heap : Heap}
    (hkeeps : (got_state objs).heap.Keeps heap) : ∀ p ∈ [0, 1], Represents got_sys heap (got_obj objs) p := by
  have hnodes : ∀ p ∈ [0, 1], ∃ o ∈ objs, (got_state objs).heap[p]? = some o.node ∧ got_obj objs p = some o ∧
      o.gnu.isSome = true ∧ o.sysv.isSome = true := by
    intro p hp
    obtain rfl | rfl := hobjs
    · obtain rfl | rfl := List.mem_pair.mp hp <;> exact ⟨_, by simp, rfl, rfl, rfl, rfl⟩
    · obtain rfl | rfl := List.mem_pair.mp hp <;> exact ⟨_, by simp, rfl, rfl, rfl, rfl⟩
  intro p hp
  obtain ⟨o, ho, hnode, hobj, hgnu, hsysv⟩ := hnodes p hp
  obtain ⟨v, hv, hname, haddr⟩ := hkeeps p _ hnode
  refine ⟨v, hv, ?_⟩
  rw [hobj]
  exact ⟨hname, haddr, by rw [hname]; exact got_on_disk hobjs o ho, hgnu, hsysv⟩

/-- No object of either state has an undefined entry of the name. -/
theorem got_sound (hobjs : objs = [g_definer, definer] ∨ objs = [f_first, g_last]) {m : Memory 64}
    (hloaded : ∀ o ∈ objs, o.Loaded got_sys m) :
    Sound got_sys m (got_obj objs) (.lit "f") [1] ∧ Sound got_sys m (got_obj objs) (.lit "f") [0, 1] := by
  have hf : ∀ o ∈ [definer, f_first], o.Defines (.lit "f") ∧
      ∀ s ∈ o.file.symbols, s.Defined → s.name = .lit "f" → o.address s ≠ 0 := by decide +kernel
  have hg : ∀ o ∈ [g_definer, g_last], ¬ o.Defines (.lit "f") ∧
      ∀ s ∈ o.file.symbols, s.name ≠ .lit "f" := by decide +kernel
  obtain rfl | rfl := hobjs
  · have hone : got_obj [g_definer, definer] 1 = some definer := rfl
    have hzero : got_obj [g_definer, definer] 0 = some g_definer := rfl
    have hsound : Sound got_sys m (got_obj [g_definer, definer]) (.lit "f") [1] := by
      simp only [Sound, hone]
      exact ⟨hloaded _ (by simp), by rw [if_pos (hf _ (by simp)).1]; exact (hf _ (by simp)).2⟩
    refine ⟨hsound, ?_⟩
    unfold Sound
    simp only [hzero]
    exact ⟨hloaded _ (by simp), by rw [if_neg (hg _ (by simp)).1]; exact ⟨(hg _ (by simp)).2, hsound⟩⟩
  · have hone : got_obj [f_first, g_last] 1 = some g_last := rfl
    have hzero : got_obj [f_first, g_last] 0 = some f_first := rfl
    constructor
    · simp only [Sound, hone]
      exact ⟨hloaded _ (by simp), by rw [if_neg (hg _ (by simp)).1]; exact ⟨(hg _ (by simp)).2, trivial⟩⟩
    · unfold Sound
      simp only [hzero]
      exact ⟨hloaded _ (by simp), by rw [if_pos (hf _ (by simp)).1]; exact (hf _ (by simp)).2⟩

theorem got_regular (hobjs : objs = [g_definer, definer] ∨ objs = [f_first, g_last]) :
    (got_state objs).Regular got_sys 0 [0, 1] (got_obj objs) (.dlopen (.lit "/l") RTLD_LAZY) := by
  refine ⟨got_represents hobjs (Heap.Keeps.refl _), fun o r hr _ => ?_⟩
  obtain ⟨htail, -, -, hname, hloaded⟩ := got_relocation_eq hobjs o
  rw [htail, hname r hr]
  exact (got_sound hobjs hloaded).1

/-- The library's reference to `f` ends the process while it is opened, although
the first object of the list defines `f`. -/
theorem dlopen_misses_definition :
    IsLinkMap (got_state [f_first, g_last]).heap (some 0) [0, 1] ∧ f_first.Defines (.lit "f") ∧
      (got_state [f_first, g_last]).Regular got_sys 0 [0, 1] (got_obj [f_first, g_last]) (.dlopen (.lit "/l") RTLD_LAZY) ∧
      Nonempty (Relocation got_sys 0 (got_state [f_first, g_last]).toState (.lit "/l") RTLD_LAZY) ∧
      _dlopen got_sys (some 0) (got_state [f_first, g_last]).toState (some (.lit "/l")) RTLD_LAZY = .exit 1 ∧
      ¬ (got_state [f_first, g_last]).Binds got_sys 0 [0, 1] (got_obj [f_first, g_last]) (.dlopen (.lit "/l") RTLD_LAZY) := by
  have hexit : _dlopen got_sys (some 0) (got_state [f_first, g_last]).toState (some (.lit "/l")) RTLD_LAZY = .exit 1 := by
    refine Outcome.bind_ok_eq_exit_iff (f := fun _ => ()).mp ?_
    decide +kernel
  obtain ⟨o⟩ := got_relocation (Or.inr rfl)
  refine ⟨⟨rfl, _, rfl, rfl, rfl, _, rfl, rfl, rfl⟩, by decide +kernel, got_regular (Or.inr rfl), ⟨o⟩, hexit, fun hbinds => ?_⟩
  obtain ⟨s', hrun, -⟩ := hbinds o
  rw [hexit] at hrun
  cases hrun

/-- What is seen of the state that opening the library leaves behind the definer
of `f`: its node, whether its PLT slot may be written, and whether the tables are there. -/
theorem got_opened {s' : State} {handle : Option Nat}
    (h : _dlopen got_sys (some 0) (got_state [g_definer, definer]).toState (some (.lit "/l")) RTLD_LAZY = .ok (handle, s')) :
    s'.heap[2]? = some got_node ∧ s'.mem.WritableRegion (Memory.wordRegion 64 0x70c8) ∧
      ∀ o ∈ [g_definer, definer], o.Loaded got_sys s'.mem := by
  have hsee : (do
      let opened ← _dlopen got_sys (some 0) (got_state [g_definer, definer]).toState (some (.lit "/l")) RTLD_LAZY
      return (opened.2.heap[2]?, decide (opened.2.mem.WritableRegion (Memory.wordRegion 64 0x70c8)),
        [g_definer, definer].all fun o => tables_held o opened.2.mem) : Outcome _) = .ok (some got_node, true, true) := by
    decide +kernel
  rw [h] at hsee
  simp only [Outcome.ok_bind, Outcome.pure_eq, Outcome.ok.injEq, Prod.mk.injEq, decide_eq_true_eq,
    List.all_eq_true] at hsee
  obtain ⟨hnode, hwr, htables⟩ := hsee
  exact ⟨hnode, hwr, fun o ho => loaded_of_tables_held (got_on_disk (Or.inl rfl) o ho) (htables o ho)⟩

theorem got_plt_entry {s : State} (hnode : s.heap[2]? = some got_node) (e : PltEntry got_sys s 2 0) :
    e.rela_name = .lit "f" := by
  obtain ⟨node, elf, buf, rela, rela_name, hnode', hehdr, hplt, hentry, hname, -⟩ := e
  obtain rfl : node = got_node := Option.some.inj (hnode'.symm.trans hnode)
  obtain rfl : elf = got_file.elf := Outcome.ok.inj (hehdr.symm.trans got_file.ehdr)
  obtain rfl : buf = [⟨0xc8, 1#32 ++ R_X86_64_JUMP_SLOT, 0⟩].flatMap Rela.encode :=
    Option.some.inj (Outcome.ok.inj (hplt.symm.trans got_file.rela_plt))
  rw [relas_encode] at hentry
  obtain rfl := Option.some.inj hentry
  exact Outcome.ok.inj (hname.symm.trans got_name)

theorem definer_findsOwn : definer.FindsOwn (.lit "f") :=
  Object.findsOwn_of_not_imported rfl (by decide +kernel) (by decide +kernel)

/-- With the definer at the end of the list, the library is opened and both of
its references are bound. -/
theorem dlopen_plt_definer_last : ∃ (s₁ : Session) (a : elf_addr) (m' : Memory 64),
    (got_state [g_definer, definer]).event got_sys 0 (.dlopen (.lit "/l") RTLD_LAZY) = .ok s₁ ∧
      (got_state [g_definer, definer]).Binds got_sys 0 [0, 1] (got_obj [g_definer, definer])
        (.dlopen (.lit "/l") RTLD_LAZY) ∧
      runtime_relocations got_sys s₁.heap s₁.mem 2 0 = .ok (a, m') ∧ m'.loadWord 64 0x70c8 = .ok a ∧
      FirstDefinition (scope (got_obj [g_definer, definer]) [0, 1] 2) (.lit "f") (.ok a) := by
  have hstart : IsLinkMap (got_state [g_definer, definer]).heap (some 0) [0, 1] :=
    ⟨rfl, _, rfl, rfl, rfl, _, rfl, rfl, rfl⟩
  have hopened : ∀ s₁, (got_state [g_definer, definer]).event got_sys 0 (.dlopen (.lit "/l") RTLD_LAZY) = .ok s₁ →
      s₁.globals = [] ∧ s₁.locals = [2] := by
    intro s₁ h₁
    obtain ⟨state, -, rfl⟩ := Session.call_dlopen (by decide) h₁
    exact ⟨rfl, rfl⟩
  have hevents : Along (Session.event got_sys 0) Session.AdmitsEvent [.dlopen (.lit "/l") RTLD_LAZY, .plt 2 0]
      (got_state [g_definer, definer]) := by
    refine ⟨(by decide : RTLD_LAZY &&& RTLD_NOLOAD = 0), fun s₁ h₁ => ⟨?_, fun _ _ => trivial⟩⟩
    show 2 ∈ s₁.globals ++ s₁.locals
    rw [(hopened s₁ h₁).1, (hopened s₁ h₁).2]
    simp
  have hall : Along (Session.event got_sys 0) (fun s e => s.Regular got_sys 0 [0, 1] (got_obj [g_definer, definer]) e → _)
      [.dlopen (.lit "/l") RTLD_LAZY, .plt 2 0] (got_state [g_definer, definer]) :=
    Session.dlopen_plt_first_definition hstart ⟨rfl, rfl⟩ hevents
  have hreach : (got_state [g_definer, definer]).InReach got_sys 0 [0, 1] (got_obj [g_definer, definer])
      (.dlopen (.lit "/l") RTLD_LAZY) := by
    intro o
    obtain ⟨-, -, hdyn, hname, -⟩ := got_relocation_eq (Or.inl rfl) o
    constructor
    · rw [hdyn]
      decide
    · intro r hr _
      rw [hname r hr]
      refine ⟨[0], 1, definer, rfl, rfl, definer_findsOwn, ?_⟩
      intro q hq x hx
      obtain rfl := List.mem_singleton.mp hq
      obtain rfl : g_definer = x := Option.some.inj hx
      decide +kernel
  have hbinds := (hall.1 (got_regular (Or.inl rfl))).1 hreach
  obtain ⟨o⟩ := got_relocation (Or.inl (rfl : [g_definer, definer] = _))
  obtain ⟨s', hrun, -⟩ := hbinds o
  obtain ⟨hnode, hwr, hloaded⟩ := got_opened hrun
  have hevent : (got_state [g_definer, definer]).event got_sys 0 (.dlopen (.lit "/l") RTLD_LAZY) =
      .ok { s' with globals := [], locals := [2] } := by
    simp only [Session.event, Session.call, hrun, Outcome.ok_bind, Outcome.ofOption_some]
    rfl
  have hkeeps : (got_state [g_definer, definer]).heap.Keeps s'.heap := by
    obtain ⟨opening⟩ := _dlopen_opening (by decide) hrun
    exact opening.keeps
  have hregular : Session.Regular got_sys 0 [0, 1] (got_obj [g_definer, definer])
      { s' with globals := [], locals := [2] } (.plt 2 0) := by
    refine ⟨got_represents (Or.inl rfl) hkeeps, fun e => ?_⟩
    rw [got_plt_entry hnode e]
    exact (got_sound (Or.inl rfl) hloaded).2
  have hreachplt : Session.InReach got_sys 0 [0, 1] (got_obj [g_definer, definer])
      { s' with globals := [], locals := [2] } (.plt 2 0) := by
    intro e
    rw [got_plt_entry hnode e]
    have hnot : ¬ g_definer.Defines (.lit "f") := by decide +kernel
    have hzero : got_obj [g_definer, definer] 0 = some g_definer := rfl
    have hone : got_obj [g_definer, definer] 1 = some definer := rfl
    simp only [Reaches, List.append_nil, hzero, hone, if_neg hnot, if_pos definer_findsOwn.defines]
    exact definer_findsOwn
  have hslot : slot ⟨0xc8, 1#32 ++ R_X86_64_JUMP_SLOT, 0⟩ got_node.l_addr = 0x70c8 := by decide
  obtain ⟨a, m', hcall, hword, hfirst⟩ := ((hall.2 _ hevent).1 hregular).1 hreachplt
    { node := got_node
      elf := got_file.elf
      buf := [⟨0xc8, 1#32 ++ R_X86_64_JUMP_SLOT, 0⟩].flatMap Rela.encode
      rela := ⟨0xc8, 1#32 ++ R_X86_64_JUMP_SLOT, 0⟩
      rela_name := .lit "f"
      node_eq := hnode
      ehdr := got_file.ehdr
      rela_plt := got_file.rela_plt
      entry := by
        rw [relas_encode]
        rfl
      rela_name_eq := got_name
      writable := by rwa [hslot] }
  rw [hslot] at hword
  exact ⟨_, a, m', hevent, hbinds, hcall, hword, hfirst⟩

end ldso.libdl
