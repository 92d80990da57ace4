import LdSo.Libdl
import LdSo.Object

open cmodel

namespace ldso.libdl

open elf elf_manipulation loader utility

/-- The first element that is a hit: it is at position `i`, and all in front of it
are misses. -/
def FirstAt {α : Type} (miss hit : α → Prop) (xs : List α) (i : Nat) (x : α) : Prop :=
  ∃ before behind, xs = before ++ x :: behind ∧ before.length = i ∧ (∀ y ∈ before, miss y) ∧ hit x

theorem not_firstAt_nil {α : Type} {miss hit : α → Prop} {i : Nat} {x : α} : ¬ FirstAt miss hit [] i x := by
  rintro ⟨before, behind, hnil, -⟩
  simp at hnil

theorem firstAt_cons {α : Type} {miss hit : α → Prop} {y x : α} {ys : List α} {i : Nat} :
    FirstAt miss hit (y :: ys) i x ↔ hit y ∧ x = y ∧ i = 0 ∨ miss y ∧ ∃ j, i = j + 1 ∧ FirstAt miss hit ys j x := by
  constructor
  · rintro ⟨before, behind, hsplit, hlen, hmiss, hhit⟩
    cases before with
    | nil =>
      cases hsplit
      exact Or.inl ⟨hhit, rfl, hlen.symm⟩
    | cons z before =>
      cases hsplit
      exact Or.inr ⟨hmiss y (by simp), before.length, hlen.symm, before, behind, rfl, rfl,
        fun w hw => hmiss w (by simp [hw]), hhit⟩
  · rintro (⟨hhit, rfl, rfl⟩ | ⟨hmiss, j, rfl, before, behind, rfl, rfl, hbefore, hhit⟩)
    · exact ⟨[], ys, rfl, rfl, by simp, hhit⟩
    · refine ⟨y :: before, behind, rfl, rfl, ?_, hhit⟩
      intro w hw
      obtain rfl | hw := List.mem_cons.mp hw
      · exact hmiss
      · exact hbefore w hw

/-- The address lies in the window in which `_dladdr` looks for the object. -/
def InWindow (addr : elf_addr) (v : LinkMap) : Prop :=
  v.l_addr ≤ addr ∧ ∃ l_ld, v.l_ld = some l_ld ∧ addr ≤ l_ld + 16#64 * PAGE_SIZE

/-- It lies in front of the window, or behind one whose end is known. -/
def OutOfWindow (addr : elf_addr) (v : LinkMap) : Prop :=
  ¬ v.l_addr ≤ addr ∨ ∃ l_ld, v.l_ld = some l_ld ∧ ¬ addr ≤ l_ld + 16#64 * PAGE_SIZE

/-- The first node, in the order of the list, whose window holds the address. -/
def FoundObject (addr : elf_addr) (nodes : List LinkMap) (v : LinkMap) : Prop :=
  ∃ i, FirstAt (OutOfWindow addr) (InWindow addr) nodes i v

/-- The range of an entry, its end included. -/
def Covers (l_addr addr : elf_addr) (s : Symbol) : Prop :=
  s.sym.st_value + l_addr ≤ addr ∧ addr ≤ s.sym.st_value + l_addr + s.sym.st_size

/-- The first entry, in the order of the table, whose range holds the address. -/
def FoundSymbol (l_addr addr : elf_addr) (symbols : List Symbol) (i : Nat) (s : Symbol) : Prop :=
  FirstAt (fun u => ¬ Covers l_addr addr u) (Covers l_addr addr) symbols i s

/-- The node's file has its sections, or there is no file of that name, as for the
vdso. -/
def Described (sys : System) (v : LinkMap) : Prop := sys.file v.l_name = none ∨ ∃ o : ObjectFile, o.OnDisk sys v.l_name

variable {sys : System} {heap : Heap} {addr l_addr : elf_addr}

theorem foundObject_cons {w v : LinkMap} {nodes : List LinkMap} :
    FoundObject addr (w :: nodes) v ↔ InWindow addr w ∧ v = w ∨ OutOfWindow addr w ∧ FoundObject addr nodes v := by
  simp only [FoundObject, firstAt_cons]
  constructor
  · rintro ⟨i, ⟨hin, rfl, -⟩ | ⟨hout, j, -, hrest⟩⟩
    · exact Or.inl ⟨hin, rfl⟩
    · exact Or.inr ⟨hout, j, hrest⟩
  · rintro (⟨hin, rfl⟩ | ⟨hout, j, hrest⟩)
    · exact ⟨0, Or.inl ⟨hin, rfl, rfl⟩⟩
    · exact ⟨j + 1, Or.inr ⟨hout, j, rfl, hrest⟩⟩

/-- The search for the object stops at the first window. -/
theorem dladdr_object_eq_some_iff {ps : List Nat} {map : Option Nat} {fuel : Nat} {v : LinkMap}
    (hchain : NextChain heap map ps) (hfuel : ps.length ≤ fuel) :
    dladdr_object heap addr fuel map = .ok (some v) ↔ FoundObject addr (heap.nodes ps) v := by
  induction ps generalizing map fuel with
  | nil =>
    have hnull : map = none := hchain
    subst hnull
    have hmiss : dladdr_object heap addr fuel none = .ok none := by cases fuel <;> rfl
    rw [hmiss]
    constructor
    · intro h
      cases h
    · rintro ⟨i, hfirst⟩
      exact absurd hfirst not_firstAt_nil
  | cons p ps ih =>
    obtain ⟨rfl, w, hw, htail⟩ := hchain
    cases fuel with
    | zero => simp at hfuel
    | succ fuel =>
      have hnodes : heap.nodes (p :: ps) = w :: heap.nodes ps := List.filterMap_cons_some hw
      have hrest := ih htail (Nat.le_of_succ_le_succ hfuel)
      rw [hnodes, foundObject_cons, dladdr_object, hw, Outcome.ofOption_some, Outcome.ok_bind]
      by_cases hlow : w.l_addr ≤ addr
      · rw [if_pos hlow]
        cases hl_ld : w.l_ld with
        | none => simp [InWindow, OutOfWindow, hlow, hl_ld]
        | some l_ld =>
          rw [Outcome.ofOption_some, Outcome.ok_bind]
          by_cases hhigh : addr ≤ l_ld + 16#64 * PAGE_SIZE
          · have hin : InWindow addr w := ⟨hlow, l_ld, hl_ld, hhigh⟩
            have hnot : ¬ OutOfWindow addr w := by
              rintro (hbelow | ⟨x, hx, habove⟩)
              · exact hbelow hlow
              · obtain rfl : l_ld = x := Option.some.inj (hl_ld.symm.trans hx)
                exact habove hhigh
            rw [if_pos hhigh]
            simp only [hin, hnot, true_and, false_and, or_false, Outcome.pure_eq, Outcome.ok.injEq, Option.some.injEq]
            exact eq_comm
          · have hout : OutOfWindow addr w := Or.inr ⟨l_ld, hl_ld, hhigh⟩
            have hnot : ¬ InWindow addr w := by
              rintro ⟨-, x, hx, hbelow⟩
              obtain rfl : l_ld = x := Option.some.inj (hl_ld.symm.trans hx)
              exact hhigh hbelow
            rw [if_neg hhigh, hrest]
            simp only [hout, hnot, true_and, false_and, false_or]
      · have hout : OutOfWindow addr w := Or.inl hlow
        have hnot : ¬ InWindow addr w := fun hin => hlow hin.1
        rw [if_neg hlow, hrest]
        simp only [hout, hnot, true_and, false_and, false_or]

/-- The search for the symbol takes the first entry whose range holds the address. -/
theorem dladdr_symbol_found {dynstr : List Byte} {symbols : List Symbol} {i : Nat} {s : Symbol}
    (hnames : ∀ u ∈ symbols, CString.read dynstr u.sym.st_name.toNat = .ok u.name)
    (hfound : FoundSymbol l_addr addr symbols i s) (info : Dl_info) :
    dladdr_symbol sys dynstr l_addr addr symbols.length (symbols.map Symbol.sym) info = (do
      let dli_fname ← strdup sys s.name
      return ({ info with dli_fbase := s.sym.st_value, dli_fname := some dli_fname }, i)) := by
  induction symbols generalizing i with
  | nil => exact absurd hfound not_firstAt_nil
  | cons u symbols ih =>
    rw [List.length_cons, List.map_cons, dladdr_symbol]
    obtain ⟨hcovers, rfl, rfl⟩ | ⟨hmiss, j, rfl, hrest⟩ := firstAt_cons.mp hfound
    · rw [hnames s (by simp), Outcome.ok_bind]
      exact if_pos hcovers
    · rw [ih (fun t ht => hnames t (by simp [ht])) hrest]
      simp only [bind_assoc, pure_bind]
      exact if_neg hmiss

theorem dladdr_symbol_missed {dynstr : List Byte} {symbols : List Symbol}
    (hmiss : ∀ u ∈ symbols, ¬ Covers l_addr addr u)
    (info : Dl_info) : dladdr_symbol sys dynstr l_addr addr symbols.length (symbols.map Symbol.sym) info =
      .ok (info, symbols.length) := by
  induction symbols with
  | nil => rfl
  | cons u symbols ih =>
    rw [List.length_cons, List.map_cons, dladdr_symbol, ih fun t ht => hmiss t (by simp [ht])]
    exact if_neg (hmiss u (by simp))

theorem found_or_missed (symbols : List Symbol) :
    (∃ i s, FoundSymbol l_addr addr symbols i s) ∨ ∀ u ∈ symbols, ¬ Covers l_addr addr u := by
  induction symbols with
  | nil => exact Or.inr (by simp)
  | cons u symbols ih =>
    by_cases hcovers : Covers l_addr addr u
    · exact Or.inl ⟨0, u, firstAt_cons.mpr (Or.inl ⟨hcovers, rfl, rfl⟩)⟩
    · obtain ⟨i, s, hfound⟩ | hmiss := ih
      · exact Or.inl ⟨i + 1, s, firstAt_cons.mpr (Or.inr ⟨hcovers, i, rfl, hfound⟩)⟩
      · refine Or.inr fun t ht => ?_
        obtain rfl | ht := List.mem_cons.mp ht
        · exact hcovers
        · exact hmiss t ht

section Result

variable {free : Nat → Outcome Unit} {full_map : Option Nat} {ps : List Nat}

/-- Where a symbol is found, the object's path and address are reported as the
symbol's, and the symbol's name and value as the object's. -/
theorem _dladdr_of_found (hchain : NextChain heap full_map ps) {v : LinkMap} (hv : FoundObject addr (heap.nodes ps) v)
    {o : ObjectFile} (ho : o.OnDisk sys v.l_name) {i : Nat} {s : Symbol} (hs : FoundSymbol v.l_addr addr o.symbols i s)
    (info : Dl_info) : _dladdr sys free heap full_map addr info = (do
      let dli_sname ← strdup sys v.l_name
      let dli_fname ← strdup sys s.name
      free i
      return (1, ⟨some dli_fname, s.sym.st_value, some dli_sname, v.l_addr⟩)) := by
  have hobject := (dladdr_object_eq_some_iff hchain hchain.length_le).mpr hv
  simp only [_dladdr, hobject, ho.ehdr, ho.dynsym, ho.dynstr, ho.size, Outcome.ok_bind, Int.toNat_natCast, o.syms_eq,
    dladdr_symbol_found o.names hs, bind_assoc, pure_bind]

/-- A run that returns non-zero has found an object with its sections on disk; if
it has found no symbol, the name of the object is as it was. -/
theorem _dladdr_found (hchain : NextChain heap full_map ps)
    (hdescribed : ∀ p ∈ ps, ∀ v, heap[p]? = some v → Described sys v) {info info' : Dl_info} {r : Int} (hr : r ≠ 0)
    (h : _dladdr sys free heap full_map addr info = .ok (r, info')) :
    ∃ (v : LinkMap) (o : ObjectFile), FoundObject addr (heap.nodes ps) v ∧ o.OnDisk sys v.l_name ∧
      ((∃ i t, FoundSymbol v.l_addr addr o.symbols i t) ∨ info'.dli_fname = info.dli_fname) := by
  obtain ⟨found, hfound, h⟩ := Outcome.bind_eq_ok_iff.mp h
  cases found with
  | none =>
    cases h
    exact absurd rfl hr
  | some v =>
    have hobject := (dladdr_object_eq_some_iff hchain hchain.length_le).mp hfound
    have hmem : v ∈ heap.nodes ps := by
      obtain ⟨i, before, behind, hsplit, -⟩ := hobject
      simp [hsplit]
    obtain ⟨p, hp, hv⟩ := List.mem_filterMap.mp hmem
    obtain ⟨sname, -, h⟩ := Outcome.bind_eq_ok_iff.mp h
    obtain hnone | ⟨o, ho⟩ := hdescribed p hp v hv
    · obtain ⟨elf, -, h⟩ := Outcome.bind_eq_ok_iff.mp h
      obtain ⟨symtab, hsymtab, -⟩ := Outcome.bind_eq_ok_iff.mp h
      rw [get_section, get_section_header, show xopen sys v.l_name = .exit 1 by simp [xopen, hnone]] at hsymtab
      cases hsymtab
    · refine ⟨v, o, hobject, ho, ?_⟩
      obtain hsymbol | hmissed := @found_or_missed addr v.l_addr o.symbols
      · exact Or.inl hsymbol
      · simp only [ho.ehdr, ho.dynsym, ho.dynstr, ho.size, Outcome.ok_bind, Int.toNat_natCast, o.syms_eq,
          dladdr_symbol_missed hmissed] at h
        obtain ⟨_, -, h⟩ := Outcome.bind_eq_ok_iff.mp h
        cases h
        exact Or.inr rfl

/-- For every link map, node of it, symbol and address: `_dladdr` reports the node
and the symbol exactly when the object and the symbol that the searches come to
first have each other's names and numbers, the path being the symbol's name. -/
theorem _dladdr_inverts_iff (hchain : NextChain heap full_map ps)
    (hdescribed : ∀ p ∈ ps, ∀ v, heap[p]? = some v → Described sys v) (node : LinkMap) (s : Symbol) (addr : elf_addr) :
    (∀ info, ∃ r : Int, r ≠ 0 ∧ _dladdr sys free heap full_map addr info =
      .ok (r, ⟨some node.l_name, node.l_addr, some s.name, node.l_addr + s.sym.st_value⟩)) ↔
    ∃ (v : LinkMap) (o : ObjectFile) (i : Nat) (t : Symbol), FoundObject addr (heap.nodes ps) v ∧
      o.OnDisk sys v.l_name ∧
      FoundSymbol v.l_addr addr o.symbols i t ∧ free i = .ok () ∧
      strdup sys v.l_name = .ok s.name ∧ v.l_addr = node.l_addr + s.sym.st_value ∧
      strdup sys t.name = .ok node.l_name ∧ t.sym.st_value = node.l_addr := by
  constructor
  · intro h
    obtain ⟨r, hr, hrun⟩ := h ⟨none, 0, none, 0⟩
    obtain ⟨v, o, hobject, ho, ⟨i, t, hsymbol⟩ | hkept⟩ := _dladdr_found hchain hdescribed hr hrun
    · rw [_dladdr_of_found hchain hobject ho hsymbol] at hrun
      obtain ⟨sname, hsname, hrun⟩ := Outcome.bind_eq_ok_iff.mp hrun
      obtain ⟨fname, hfname, hrun⟩ := Outcome.bind_eq_ok_iff.mp hrun
      obtain ⟨_, hfree, hrun⟩ := Outcome.bind_eq_ok_iff.mp hrun
      simp only [Outcome.pure_eq, Outcome.ok.injEq, Prod.mk.injEq, Dl_info.mk.injEq, Option.some.injEq] at hrun
      obtain ⟨-, rfl, hfbase, rfl, hsaddr⟩ := hrun
      exact ⟨v, o, i, t, hobject, ho, hsymbol, hfree, hsname, hsaddr, hfname, hfbase⟩
    · cases hkept
  · rintro ⟨v, o, i, t, hobject, ho, hsymbol, hfree, hsname, hsaddr, hfname, hfbase⟩ info
    refine ⟨1, by decide, ?_⟩
    rw [_dladdr_of_found hchain hobject ho hsymbol, hsname, hfname, hfree, hfbase, hsaddr]
    rfl

/-- Even where the searches come to the node and the symbol themselves, they are
reported only if the two have one name and all their numbers are 0. -/
theorem _dladdr_itself_iff (hchain : NextChain heap full_map ps) {node : LinkMap} {s : Symbol} {o : ObjectFile}
    {i : Nat} (hnode : FoundObject addr (heap.nodes ps) node) (ho : o.OnDisk sys node.l_name)
    (hs : FoundSymbol node.l_addr addr o.symbols i s) (hfree : free i = .ok ()) (hpath : node.l_name.chars ≠ [])
    (hname : s.name.chars ≠ []) (info : Dl_info) :
    (∃ r : Int, r ≠ 0 ∧ _dladdr sys free heap full_map addr info =
      .ok (r, ⟨some node.l_name, node.l_addr, some s.name, node.l_addr + s.sym.st_value⟩)) ↔
    node.l_name = s.name ∧ node.l_addr = 0 ∧ s.sym.st_value = 0 := by
  rw [_dladdr_of_found hchain hnode ho hs, strdup_of_ne_nil hpath, strdup_of_ne_nil hname, hfree]
  simp only [Outcome.ok_bind, Outcome.pure_eq, Outcome.ok.injEq, Prod.mk.injEq, Dl_info.mk.injEq, Option.some.injEq]
  constructor
  · rintro ⟨r, -, -, hfname, hfbase, -, hsaddr⟩
    have hzero : s.sym.st_value = 0 := by simpa using hsaddr
    exact ⟨hfname.symm, hfbase.symm.trans hzero, hzero⟩
  · rintro ⟨hfname, hnode, hvalue⟩
    exact ⟨1, by decide, rfl, hfname.symm, by rw [hnode, hvalue], hfname, by simp [hvalue]⟩

end Result

/-- A file with one symbol of this range. -/
def sized_file (name : CString) (st_value st_size : BitVec 64) : ObjectFile where
  elf := Ehdr.decode (image []
    [⟨.lit ".dynsym", 0, [⟨0, 0, 0, 0⟩, ⟨1, 7, st_value, st_size⟩].flatMap Sym.encode⟩,
      ⟨.lit ".dynstr", 0, 0#8 :: name.bytes⟩, ⟨.lit ".dynamic", 0, Dyn.encode ⟨DT_NULL, 0⟩⟩])
  dynsym := [⟨0, 0, 0, 0⟩, ⟨1, 7, st_value, st_size⟩].flatMap Sym.encode
  dynstr := 0#8 :: name.bytes
  dynamic := Dyn.encode ⟨DT_NULL, 0⟩
  symbols := [⟨.lit "", 0, 0, 0, 0⟩, ⟨name, 1, 7, st_value, st_size⟩]
  syms_eq := syms_encode _
  names := by
    intro s hs
    obtain rfl | rfl := List.mem_pair.mp hs
    · exact CString.read_eq_ok_iff.mpr ⟨name.bytes, rfl⟩
    · exact CString.read_eq_ok_iff.mpr ⟨[], rfl⟩
  count_lt := by simp

def sized_sys (path name : CString) (st_value st_size : BitVec 64) : System :=
  .of_files [(path, (sized_file name st_value st_size).content)]

/-- Three objects. The address 0x21004 lies below the first one, behind the second one
and in the third one. -/
def crossed_heap : Heap :=
  [⟨0x40000, .lit "e", some 0x41000, some 1, none⟩, ⟨0x10000, .lit "a", some 0x10100, some 2, some 0⟩,
    ⟨0x11000, .lit "b", some 0x12000, none, some 1⟩]

/-- The symbol of the third object is called like the second one. -/
def crossed_sys : System :=
  .of_files [(.lit "e", (sized_file (.lit "main") 0x100 8).content), (.lit "a", (sized_file (.lit "b") 0x1000 8).content),
    (.lit "b", (sized_file (.lit "a") 0x10000 8).content)]

theorem crossed_on_disk : (sized_file (.lit "main") 0x100 8).OnDisk crossed_sys (.lit "e") ∧
    (sized_file (.lit "b") 0x1000 8).OnDisk crossed_sys (.lit "a") ∧
    (sized_file (.lit "a") 0x10000 8).OnDisk crossed_sys (.lit "b") := by
  decide +kernel

/-- The object `a` at 0x10000 and its symbol `b`, whose value is 0x1000, are reported for
an address in the symbol `a` of the object `b`, which lies at 0x11000. -/
theorem _dladdr_coincides :
    ∃ r : Int, r ≠ 0 ∧ _dladdr crossed_sys (fun _ => .ok ()) crossed_heap (some 0) 0x21004 ⟨none, 0, none, 0⟩ =
      .ok (r, ⟨some (.lit "a"), 0x10000, some (.lit "b"), 0x11000⟩) := by
  obtain ⟨he, ha, hb⟩ := crossed_on_disk
  have hchain : NextChain crossed_heap (some 0) [0, 1, 2] := ⟨rfl, _, rfl, rfl, _, rfl, rfl, _, rfl, rfl⟩
  have hdescribed : ∀ p ∈ [0, 1, 2], ∀ v, crossed_heap[p]? = some v → Described crossed_sys v := by
    intro p hp v hv
    simp only [List.mem_cons, List.not_mem_nil, or_false] at hp
    obtain rfl | rfl | rfl := hp
    · cases hv
      exact Or.inr ⟨_, he⟩
    · cases hv
      exact Or.inr ⟨_, ha⟩
    · cases hv
      exact Or.inr ⟨_, hb⟩
  have hbefore : ∀ v ∈ [(⟨0x40000, .lit "e", some 0x41000, some 1, none⟩ : LinkMap),
      ⟨0x10000, .lit "a", some 0x10100, some 2, some 0⟩], OutOfWindow 0x21004 v := by
    intro v hv
    obtain rfl | rfl := List.mem_pair.mp hv
    · exact Or.inl (by decide)
    · exact Or.inr ⟨0x10100, rfl, by decide⟩
  have hobject : FoundObject 0x21004 (crossed_heap.nodes [0, 1, 2]) ⟨0x11000, .lit "b", some 0x12000, none, some 1⟩ :=
    ⟨2, _, [], rfl, rfl, hbefore, by decide, 0x12000, rfl, by decide⟩
  have hmiss : ∀ u ∈ [(⟨.lit "", 0, 0, 0, 0⟩ : Symbol)], ¬ Covers 0x11000 0x21004 u := by
    simp [Covers]
  have hsymbol : FoundSymbol 0x11000 0x21004 (sized_file (.lit "a") 0x10000 8).symbols 1 ⟨.lit "a", 1, 7, 0x10000, 8⟩ :=
    ⟨[⟨.lit "", 0, 0, 0, 0⟩], [], rfl, rfl, hmiss, by decide, by decide⟩
  exact (@_dladdr_inverts_iff crossed_sys _ (fun _ => .ok ()) (some 0) [0, 1, 2] hchain hdescribed
    ⟨0x10000, .lit "a", some 0x10100, some 2, some 0⟩ ⟨.lit "b", 1, 7, 0x1000, 8⟩ 0x21004).mpr
      ⟨_, _, _, _, hobject, hb, hsymbol, rfl, by decide, rfl, by decide, rfl⟩ ⟨none, 0, none, 0⟩

/-- An address inside the symbol `f` of the object `/l` at 0x10000. -/
theorem _dladdr_swaps :
    (sized_file (.lit "f") 0x40 8).OnDisk (sized_sys (.lit "/l") (.lit "f") 0x40 8) (.lit "/l") ∧
    _dladdr (sized_sys (.lit "/l") (.lit "f") 0x40 8) (fun _ => .ok ()) [⟨0x10000, .lit "/l", some 0x11000, none, none⟩]
      (some 0) 0x10044 ⟨none, 0, none, 0⟩ = .ok (1, ⟨some (.lit "f"), 0x40, some (.lit "/l"), 0x10000⟩) :=
  ⟨by decide +kernel, by decide +kernel⟩

end ldso.libdl
