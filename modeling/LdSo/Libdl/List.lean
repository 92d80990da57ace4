import LdSo.Libdl.Session
import LdSo.Loader.Separation

open cmodel

namespace ldso.libdl

open elf loader

variable {sys : System} {first : Nat} {startup : List Nat}

namespace Session

/-- Closing an object that was opened without RTLD_GLOBAL does not cut the list:
the node its `l_prev` names was closed, or is the last one again. -/
def Harmless (startup : List Nat) (s : Session) : Call → Prop
  | .dlopen _ _ => True
  | .dlclose handle => handle ∈ s.locals → ∀ p, s.heap[handle]?.bind LinkMap.l_prev = some p →
      p ∈ startup ++ s.globals → s.heap[p]?.bind LinkMap.l_next = none

/-- The list from `full_map` is what it should be; the other open objects are
not on it and lead nowhere. -/
structure Listed (first : Nat) (startup : List Nat) (s : Session) : Prop where
  list : IsLinkMap s.heap (some first) (startup ++ s.globals)
  off_list : ∀ h ∈ s.locals, h ∉ startup ++ s.globals
  no_next : ∀ h ∈ s.locals, ∃ v, s.heap[h]? = some v ∧ v.l_next = none

theorem Listed.dlopen {s s' : Session} {filename : CString} {flags : BitVec 32} (hinv : s.Listed first startup)
    (hne : startup ≠ []) (hload : flags &&& RTLD_NOLOAD = 0) (h : s.call sys first (.dlopen filename flags) = .ok s') :
    s'.Listed first startup := by
  have hlistne : startup ++ s.globals ≠ [] := by simp [hne]
  obtain ⟨state, o, rfl⟩ := call_dlopen hload h
  by_cases hglobal : flags &&& RTLD_GLOBAL ≠ 0
  · obtain ⟨fs, hfs⟩ := o.tail_last hinv.list hlistne
    rw [if_pos hglobal]
    refine ⟨?_, ?_, ?_⟩
    · simpa using o.list_global hinv.list hlistne hglobal
    · intro h hh
      have hoff := hinv.off_list h hh
      obtain ⟨v, hv, -⟩ := hinv.no_next h hh
      have hlt := (List.getElem?_eq_some_iff.mp hv).1
      simp only [List.mem_append, List.mem_singleton] at hoff ⊢
      grind
    · intro h hh
      obtain ⟨v, hv, hnext⟩ := hinv.no_next h hh
      have hne : o.tail ≠ h := by
        rintro rfl
        exact hinv.off_list _ hh (by rw [hfs]; simp)
      refine ⟨v, ?_, hnext⟩
      rw [o.heap_eq, if_pos hglobal, Heap.append_node, Heap.link_next_of_ne _ hne,
        List.getElem?_append_left (List.getElem?_eq_some_iff.mp hv).1, hv]
  · rw [if_neg hglobal]
    refine ⟨o.list_local hinv.list hglobal, ?_, ?_⟩
    · intro h hh hlist
      obtain hh | hh := List.mem_append.mp hh
      · exact hinv.off_list h hh hlist
      · have hlt := hinv.list.lt_length h hlist
        rw [List.mem_singleton.mp hh] at hlt
        exact lt_irrefl _ hlt
    · intro h hh
      rw [o.heap_eq, if_neg hglobal]
      obtain hh | hh := List.mem_append.mp hh
      · obtain ⟨v, hv, hnext⟩ := hinv.no_next h hh
        exact ⟨v, by rw [List.getElem?_append_left (List.getElem?_eq_some_iff.mp hv).1, hv], hnext⟩
      · obtain rfl := List.mem_singleton.mp hh
        exact ⟨o.node, List.getElem?_concat_length, o.next_eq⟩

/-- Taking a listed object out. -/
theorem Listed.unlink_global {s : Session} {handle : Nat} (hinv : s.Listed first startup) (hne : startup ≠ [])
    (hmem : handle ∈ s.globals) :
    IsLinkMap (s.heap.unlink handle) (some first) (startup ++ s.globals.erase handle) := by
  obtain ⟨as, bs, hnot, hsplit, herase⟩ := List.exists_erase_eq hmem
  have hlist := hinv.list
  rw [hsplit, ← List.append_assoc] at hlist
  rw [herase, ← List.append_assoc]
  exact IsLinkMap.unlink hlist (by simp [hne])

/-- Taking out an object that is not on the list sets the `l_next` of the node
behind which it was opened to NULL; that must be harmless. -/
theorem Listed.unlink_local {s : Session} {handle : Nat} (hinv : s.Listed first startup) (hmem : handle ∈ s.locals)
    (hharmless : s.Harmless startup (.dlclose handle)) :
    IsLinkMap (s.heap.unlink handle) (some first) (startup ++ s.globals) := by
  obtain ⟨v, hv, hnext⟩ := hinv.no_next handle hmem
  apply hinv.list.congr
  · intro p hp
    have hp' := hharmless hmem p
    rw [Heap.unlink_next hv]
    cases hu : s.heap[p]? with
    | none => rfl
    | some u =>
      by_cases hprev : v.l_prev = some p
      · simp only [hv, hu, Option.bind_some] at hp'
        simp [hprev, hnext, hp' hprev hp]
      · simp [hprev]
  · intro p _
    rw [Heap.unlink_prev hv, hnext]
    simp

theorem Listed.dlclose {s s' : Session} {handle : Nat} (hinv : s.Listed first startup) (hne : startup ≠ [])
    (hadmits : s.Admits (.dlclose handle)) (hharmless : s.Harmless startup (.dlclose handle))
    (h : s.call sys first (.dlclose handle) = .ok s') : s'.Listed first startup := by
  obtain ⟨hheap, hglobals, hlocals⟩ | rfl := call_dlclose h
  · have hlist : IsLinkMap s'.heap (some first) (startup ++ s'.globals) := by
      rw [hheap, hglobals]
      by_cases hmem : handle ∈ s.globals
      · exact hinv.unlink_global hne hmem
      · rw [List.erase_of_not_mem hmem]
        exact hinv.unlink_local ((List.mem_append.mp hadmits).resolve_left hmem) hharmless
    refine ⟨hlist, ?_, ?_⟩
    · intro h hh hmem
      rw [hlocals] at hh
      rw [hglobals] at hmem
      apply hinv.off_list h (List.mem_of_mem_erase hh)
      obtain hmem | hmem := List.mem_append.mp hmem
      · exact List.mem_append_left _ hmem
      · exact List.mem_append_right _ (List.mem_of_mem_erase hmem)
    · intro h hh
      rw [hlocals] at hh
      obtain ⟨u, hu, hnext⟩ := hinv.no_next h (List.mem_of_mem_erase hh)
      obtain ⟨v, hv, hcase⟩ : ∃ v, s.heap[handle]? = some v ∧ (v.l_prev = some h → v.l_next = none) := by
        obtain hmem | hmem := List.mem_append.mp hadmits
        · have hmem' : handle ∈ startup ++ s.globals := List.mem_append_right _ hmem
          refine ⟨_, List.getElem?_eq_getElem (hinv.list.lt_length handle hmem'), fun hback => ?_⟩
          have hprev := hinv.list.prev_mem (q := h) hmem' (by
            rw [List.getElem?_eq_getElem (hinv.list.lt_length handle hmem'), Option.bind_some, hback])
          exact absurd hprev (hinv.off_list h (List.mem_of_mem_erase hh))
        · obtain ⟨v, hv, hnone⟩ := hinv.no_next handle hmem
          exact ⟨v, hv, fun _ => hnone⟩
      have hunlink := Heap.unlink_next hv h
      rw [hu, Option.map_some, ← hheap] at hunlink
      obtain ⟨w, hw, hwnext⟩ := Option.map_eq_some_iff.mp hunlink
      refine ⟨w, hw, hwnext.trans ?_⟩
      split
      · next hback => exact hcase hback
      · exact hnext
  · exact hinv

theorem Listed.call {s s' : Session} {c : Call} (hinv : s.Listed first startup) (hne : startup ≠ [])
    (hadmits : s.Admits c) (hharmless : s.Harmless startup c) (h : s.call sys first c = .ok s') :
    s'.Listed first startup := by
  cases c with
  | dlopen filename flags => exact hinv.dlopen hne hadmits h
  | dlclose handle => exact hinv.dlclose hne hadmits hharmless h

/-- A close that is not harmless loses the objects behind the node that `l_prev`
names. -/
theorem Listed.not_harmless {s : Session} {handle : Nat} (hinv : s.Listed first startup)
    (hharmless : ¬ s.Harmless startup (.dlclose handle)) :
    ¬ IsLinkMap (s.heap.unlink handle) (some first) (startup ++ s.globals) := by
  intro hlist
  unfold Harmless at hharmless
  push Not at hharmless
  obtain ⟨hmem, p, hprev, hp, hnext⟩ := hharmless
  obtain ⟨as, bs, hsplit⟩ := List.append_of_mem hp
  obtain ⟨v, hv, hvnext⟩ := hinv.no_next handle hmem
  have hold := hinv.list
  rw [hsplit] at hold hlist
  have hp' := hold.lt_length p (by simp)
  rw [hv, Option.bind_some] at hprev
  have hunlink := Heap.unlink_next hv p
  rw [List.getElem?_eq_getElem hp', Option.map_some, if_pos hprev, hvnext] at hunlink
  obtain ⟨w, hw, hwnext⟩ := Option.map_eq_some_iff.mp hunlink
  -- before the close a node is behind `p`, after it none is
  rw [hold.next_eq_head, ← hlist.next_eq_head, hw, Option.bind_some, hwnext] at hnext
  exact hnext rfl

/-- For every run of `_dlopen` and `_dlclose` calls that a program may make,
from any link map of at least two objects: when every close is harmless, the
list from `full_map` is the start-up list and the open RTLD_GLOBAL objects in
opening order, well formed. A close that is not harmless ends that. -/
theorem dlopen_dlclose_list {s s' : Session} {calls : List Call}
    (hstart : IsLinkMap s.heap (some first) startup) (htwo : 2 ≤ startup.length)
    (hopen : s.globals = [] ∧ s.locals = [])
    (hcalls : Along (Session.call sys first) (fun s c => s.Admits c ∧ s.Harmless startup c) calls s)
    (hrun : run (Session.call sys first) calls s = .ok s') :
    IsLinkMap s'.heap (some first) (startup ++ s'.globals) ∧
      ∀ handle s'', s'.Admits (.dlclose handle) → ¬ s'.Harmless startup (.dlclose handle) →
        _dlclose sys s'.toState handle = .ok (0, s'') →
        ¬ IsLinkMap s''.heap (some first) (startup ++ s'.globals.erase handle) := by
  have hne : startup ≠ [] := List.ne_nil_of_length_pos (by omega)
  have hinit : s.Listed first startup := ⟨by simpa [hopen.1] using hstart, by simp [hopen.2], by simp [hopen.2]⟩
  have hinv : s'.Listed first startup :=
    run_invariant (fun s c s' h hc hcall => h.call hne hc.1 hc.2 hcall) hinit hcalls hrun
  refine ⟨hinv.list, ?_⟩
  intro handle s'' hadmits hharmless hclose
  have hlocal : handle ∈ s'.locals := by
    unfold Harmless at hharmless
    push Not at hharmless
    exact hharmless.1
  have hglobal : handle ∉ s'.globals := fun hmem => hinv.off_list handle hlocal (List.mem_append_right _ hmem)
  obtain ⟨-, hheap⟩ | ⟨hzero, -⟩ := _dlclose_eq hclose
  · rw [hheap, List.erase_of_not_mem hglobal]
    exact hinv.not_harmless hharmless
  · cases hzero

/-- The links of a state and its open handles. -/
def shape (s : Session) : List (Option Nat × Option Nat) × List Nat × List Nat :=
  (s.heap.map fun v => (v.l_next, v.l_prev), s.globals, s.locals)

theorem next_of_shape (s : Session) (p : Nat) : s.heap[p]?.bind LinkMap.l_next = s.shape.1[p]?.bind Prod.fst := by
  simp [shape, Option.bind_map]

theorem prev_of_shape (s : Session) (p : Nat) : s.heap[p]?.bind LinkMap.l_prev = s.shape.1[p]?.bind Prod.snd := by
  simp [shape, Option.bind_map]

end Session

open Session

def two_libs_sys : System := System.of_files [(.lit "/l", lib.content), (.lit "/g", lib.content)]

/-- A program and one library. -/
def two_objects : Session where
  heap := [⟨0, .lit "/a", none, some 1, none⟩, ⟨0x403000, .lit "/b", none, none, some 0⟩]
  mem _ := none
  globals := []
  locals := []

/-- What a run from there leaves, without the memory. -/
def run_shape (calls : List Call) : Outcome (List (Option Nat × Option Nat) × List Nat × List Nat) := do
  let s ← run (Session.call two_libs_sys 0) calls two_objects
  return s.shape

theorem run_shape_eq {calls : List Call} {s : Session} {v : List (Option Nat × Option Nat) × List Nat × List Nat}
    (hrun : run (Session.call two_libs_sys 0) calls two_objects = .ok s) (h : run_shape calls = .ok v) :
    s.shape = v := by
  unfold run_shape at h
  rw [hrun] at h
  exact Outcome.ok.inj h

theorem run_shape_ok {calls : List Call} {v : List (Option Nat × Option Nat) × List Nat × List Nat}
    (h : run_shape calls = .ok v) : ∃ s, run (Session.call two_libs_sys 0) calls two_objects = .ok s ∧
      s.shape = v := by
  obtain ⟨s, hrun, hshape⟩ := Outcome.bind_eq_ok_iff.mp h
  exact ⟨s, hrun, Outcome.ok.inj hshape⟩

/-- An object opened in between loses its place on the list when the RTLD_LOCAL
object opened before it is closed. -/
theorem dlclose_cuts_list :
    IsLinkMap two_objects.heap (some 0) [0, 1] ∧
      Along (Session.call two_libs_sys 0) Session.Admits
        [.dlopen (.lit "/l") RTLD_LAZY, .dlopen (.lit "/g") (RTLD_LAZY ||| RTLD_GLOBAL), .dlclose 2] two_objects ∧
      ∃ s', run (Session.call two_libs_sys 0)
          [.dlopen (.lit "/l") RTLD_LAZY, .dlopen (.lit "/g") (RTLD_LAZY ||| RTLD_GLOBAL), .dlclose 2] two_objects = .ok s' ∧
        s'.globals = [3] ∧ s'.locals = [] ∧ ¬ IsLinkMap s'.heap (some 0) ([0, 1] ++ s'.globals) := by
  have hrun : ∃ s', run (Session.call two_libs_sys 0)
      [.dlopen (.lit "/l") RTLD_LAZY, .dlopen (.lit "/g") (RTLD_LAZY ||| RTLD_GLOBAL), .dlclose 2] two_objects = .ok s' ∧
      s'.shape = ([(some 1, none), (none, some 0), (none, some 1), (none, some 1)], [3], []) :=
    run_shape_ok (by decide +kernel)
  obtain ⟨s', hrun, hshape⟩ := hrun
  refine ⟨⟨rfl, _, rfl, rfl, rfl, _, rfl, rfl, rfl⟩, ⟨rfl, fun s₁ h₁ => ⟨rfl, fun s₂ h₂ => ⟨?_, fun _ _ => trivial⟩⟩⟩, s',
    hrun, congrArg (·.2.1) hshape, congrArg (·.2.2) hshape, ?_⟩
  · have hrun₂ : run (Session.call two_libs_sys 0)
        [.dlopen (.lit "/l") RTLD_LAZY, .dlopen (.lit "/g") (RTLD_LAZY ||| RTLD_GLOBAL)] two_objects = .ok s₂ := by
      simp [run, h₁, h₂]
    have hshape₂ : s₂.shape = ([(some 1, none), (some 3, some 0), (none, some 1), (none, some 1)], [3], [2]) :=
      run_shape_eq hrun₂ (by decide +kernel)
    have hlocals : s₂.locals = [2] := congrArg (·.2.2) hshape₂
    simp [Admits, hlocals]
  · have hglobals : s'.globals = [3] := congrArg (·.2.1) hshape
    intro hlist
    rw [hglobals] at hlist
    have hnext := @IsLinkMap.next_eq_head _ _ [0] [3] _ hlist
    rw [next_of_shape, hshape] at hnext
    cases hnext

/-- Closing it again at once does no harm. -/
theorem dlclose_keeps_list : ∃ s', run (Session.call two_libs_sys 0)
      [.dlopen (.lit "/g") (RTLD_LAZY ||| RTLD_GLOBAL), .dlopen (.lit "/l") RTLD_LAZY, .dlclose 3] two_objects = .ok s' ∧
    IsLinkMap s'.heap (some 0) [0, 1, 2] := by
  obtain ⟨s', hrun, hshape⟩ : ∃ s', run (Session.call two_libs_sys 0)
      [.dlopen (.lit "/g") (RTLD_LAZY ||| RTLD_GLOBAL), .dlopen (.lit "/l") RTLD_LAZY, .dlclose 3] two_objects = .ok s' ∧
      s'.shape = ([(some 1, none), (some 2, some 0), (none, some 1), (none, some 2)], [2], []) :=
    run_shape_ok (by decide +kernel)
  have hcalls : Along (Session.call two_libs_sys 0) (fun s c => s.Admits c ∧ s.Harmless [0, 1] c)
      [.dlopen (.lit "/g") (RTLD_LAZY ||| RTLD_GLOBAL), .dlopen (.lit "/l") RTLD_LAZY, .dlclose 3] two_objects := by
    refine ⟨⟨rfl, trivial⟩, fun s₁ h₁ => ⟨⟨rfl, trivial⟩, fun s₂ h₂ => ⟨?_, fun _ _ => trivial⟩⟩⟩
    have hrun₂ : run (Session.call two_libs_sys 0)
        [.dlopen (.lit "/g") (RTLD_LAZY ||| RTLD_GLOBAL), .dlopen (.lit "/l") RTLD_LAZY] two_objects = .ok s₂ := by
      simp [run, h₁, h₂]
    have hshape₂ : s₂.shape = ([(some 1, none), (some 2, some 0), (none, some 1), (none, some 2)], [2], [3]) :=
      run_shape_eq hrun₂ (by decide +kernel)
    have hlocals : s₂.locals = [3] := congrArg (·.2.2) hshape₂
    refine ⟨by simp [Admits, hlocals], fun _ p hprev _ => ?_⟩
    rw [prev_of_shape, hshape₂] at hprev
    obtain rfl : 2 = p := Option.some.inj hprev
    rw [next_of_shape, hshape₂]
    rfl
  have hstart : IsLinkMap two_objects.heap (some 0) [0, 1] := ⟨rfl, _, rfl, rfl, rfl, _, rfl, rfl, rfl⟩
  have hglobals : s'.globals = [2] := congrArg (·.2.1) hshape
  have hlist := (dlopen_dlclose_list hstart (by decide) ⟨rfl, rfl⟩ hcalls hrun).1
  rw [hglobals] at hlist
  exact ⟨s', hrun, hlist⟩

end ldso.libdl
