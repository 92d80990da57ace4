import LdSo.Loader.Reserve

open cmodel

namespace ldso

open elf loader utility

/-- A header of one of the two types that `load_program` acts upon. -/
def elf.Phdr.Relevant (p : Phdr) : Prop := p.p_type = PT_LOAD ∨ p.p_type = PT_DYNAMIC

instance (p : Phdr) : Decidable p.Relevant := inferInstanceAs (Decidable (_ ∨ _))

/-- `lseek` accepts the offset of the header, and it passes through an `int`. -/
def elf.Phdr.Seekable (p : Phdr) : Prop := ¬ (p.p_offset.toInt < 0 ∨ (p.p_offset.setWidth 32).toInt < 0)

instance (p : Phdr) : Decidable p.Seekable := inferInstanceAs (Decidable (¬ _))

namespace Program

/-- A table up to the first header of another type behind a PT_LOAD header. -/
def front (table : List Phdr) : List Phdr :=
  (table.takeWhile fun p => p.p_type ≠ PT_LOAD) ++
    (table.dropWhile fun p => p.p_type ≠ PT_LOAD).takeWhile fun p => p.Relevant

/-- The rest, from that header on. -/
def back (table : List Phdr) : List Phdr :=
  (table.dropWhile fun p => p.p_type ≠ PT_LOAD).dropWhile fun p => p.Relevant

def loads_of (table : List Phdr) : List Phdr := table.filter fun p => p.p_type = PT_LOAD

def last_dynamic (table : List Phdr) : Option Phdr := (table.filter fun p => p.p_type = PT_DYNAMIC).getLast?

theorem front_append_back (table : List Phdr) : front table ++ back table = table := by
  rw [front, back, List.append_assoc, List.takeWhile_append_dropWhile, List.takeWhile_append_dropWhile]

theorem loads_of_cons_load {p : Phdr} (hp : p.p_type = PT_LOAD) (rest : List Phdr) :
    loads_of (p :: rest) = p :: loads_of rest :=
  List.filter_cons_of_pos (by simpa using hp)

theorem loads_of_cons_other {p : Phdr} (hp : p.p_type ≠ PT_LOAD) (rest : List Phdr) :
    loads_of (p :: rest) = loads_of rest :=
  List.filter_cons_of_neg (by simpa using hp)

theorem last_dynamic_cons_dynamic {p : Phdr} (hp : p.p_type = PT_DYNAMIC) (rest : List Phdr) :
    last_dynamic (p :: rest) = some ((last_dynamic rest).getD p) := by
  rw [last_dynamic, List.filter_cons_of_pos (by simpa using hp), List.getLast?_cons]
  rfl

theorem last_dynamic_cons_other {p : Phdr} (hp : p.p_type ≠ PT_DYNAMIC) (rest : List Phdr) :
    last_dynamic (p :: rest) = last_dynamic rest := by
  rw [last_dynamic, List.filter_cons_of_neg (by simpa using hp)]
  rfl

/-- The headers of the two types alone. -/
def relevant (table : List Phdr) : List Phdr := table.filter fun p => p.Relevant

theorem loads_of_relevant (table : List Phdr) : loads_of (relevant table) = loads_of table := by
  rw [loads_of, relevant, List.filter_filter]
  apply List.filter_congr
  intro p _
  by_cases hload : p.p_type = PT_LOAD <;> simp [Phdr.Relevant, hload]

theorem last_dynamic_relevant (table : List Phdr) : last_dynamic (relevant table) = last_dynamic table := by
  rw [last_dynamic, relevant, List.filter_filter]
  congr 1
  apply List.filter_congr
  intro p _
  by_cases hdyn : p.p_type = PT_DYNAMIC <;> simp [Phdr.Relevant, hdyn]

theorem loads_of_split (table : List Phdr) : loads_of table = loads_of (front table) ++ loads_of (back table) := by
  rw [loads_of, loads_of, loads_of, ← List.filter_append, front_append_back]

/-- No PT_LOAD header stands behind a header of another type that stands behind
one, and a PT_DYNAMIC header only with the address of the last one in front. -/
structure Kept (table : List Phdr) : Prop where
  loads : ∀ p ∈ back table, p.p_type ≠ PT_LOAD
  dynamic : (last_dynamic (front table)).map Phdr.p_vaddr = (last_dynamic table).map Phdr.p_vaddr

theorem kept_iff {table : List Phdr} : Kept table ↔ loads_of (front table) = loads_of table ∧
    (last_dynamic (front table)).map Phdr.p_vaddr = (last_dynamic table).map Phdr.p_vaddr := by
  have hloads : (∀ p ∈ back table, p.p_type ≠ PT_LOAD) ↔ loads_of (front table) = loads_of table := by
    rw [loads_of_split table, List.self_eq_append_right, loads_of, List.filter_eq_nil_iff]
    simp
  rw [← hloads]
  exact ⟨fun h => ⟨h.loads, h.dynamic⟩, fun h => ⟨h.1, h.2⟩⟩

/-- The loop loses nothing, or the process ends before it could matter. -/
def Ordered (table : List Phdr) : Prop := Kept table ∨ ∃ p ∈ loads_of (front table), ¬ p.Seekable

end Program

namespace loader

open Program

/-- The loop of `load_program` with the segments it reads, in order: each header
with the address behind the last byte read, which also fixes the range that is
protected. -/
def load_trace (sys : System) (map : LinkMap) : Nat → List Phdr → Bool → Loading →
    Outcome (List (Phdr × elf_addr) × Loading)
  | 0, _, _, s => .ok ([], s)
  | _ + 1, [], _, _ => .fault
  | n + 1, program :: rest, load, s =>
    if program.p_type = PT_LOAD then do
      let s ← load_segment sys map program s
      let (calls, t) ← load_trace sys map n rest true s
      return ((program, s.base) :: calls, t)
    else if program.p_type = PT_DYNAMIC then
      load_trace sys map n rest load { s with l_ld := some (program.p_vaddr + map.l_addr) }
    else if load then .ok ([], s)
    else load_trace sys map n rest load s

variable {sys : System} {map : LinkMap}

/-- The trace is that of the loop. -/
theorem load_loop_eq_trace (n : Nat) (table : List Phdr) (load : Bool) (s : Loading) :
    load_loop sys map n table load s = (do
      let (_, t) ← load_trace sys map n table load s
      return t) := by
  induction n generalizing table load s with
  | zero => rfl
  | succ n ih =>
    cases table with
    | nil => rfl
    | cons p rest =>
      unfold load_loop load_trace
      split
      · simp only [ih, bind_assoc, pure_bind]
      · split
        · exact ih _ _ _
        · split
          · rfl
          · exact ih _ _ _

/-- Loading PT_LOAD segments one after the other. -/
def load_each (sys : System) (map : LinkMap) : List Phdr → Loading → Outcome (List (Phdr × elf_addr) × Loading)
  | [], s => .ok ([], s)
  | program :: rest, s => do
    let s ← load_segment sys map program s
    let (calls, t) ← load_each sys map rest s
    return ((program, s.base) :: calls, t)

def Loading.set_dynamic (map : LinkMap) (dynamic : Option Phdr) (s : Loading) : Loading :=
  { s with l_ld := dynamic.elim s.l_ld fun p => some (p.p_vaddr + map.l_addr) }

/-- Loading a segment has nothing to do with `l_ld`. -/
theorem load_segment_l_ld (p : Phdr) (s : Loading) (l_ld : Option elf_addr) :
    load_segment sys map p { s with l_ld := l_ld } = (do
      let t ← load_segment sys map p s
      return { t with l_ld := l_ld }) := by
  unfold load_segment
  simp only [bind_assoc]
  congr 1
  funext content
  congr 1
  funext pos
  congr 1
  funext ⟨r, m⟩
  dsimp only
  split <;> rfl

theorem load_each_l_ld (ps : List Phdr) (s : Loading) (l_ld : Option elf_addr) :
    load_each sys map ps { s with l_ld := l_ld } = (do
      let (calls, t) ← load_each sys map ps s
      return (calls, { t with l_ld := l_ld })) := by
  induction ps generalizing s with
  | nil => rfl
  | cons p ps ih => simp only [load_each, load_segment_l_ld, bind_assoc, pure_bind, ih]

/-- What a run over these headers does: the PT_LOAD segments one after the other,
and the last PT_DYNAMIC header sets `l_ld`. -/
def load_and_set (sys : System) (map : LinkMap) (table : List Phdr) (s : Loading) :
    Outcome (List (Phdr × elf_addr) × Loading) := do
  let (calls, t) ← load_each sys map (loads_of table) s
  return (calls, t.set_dynamic map (last_dynamic table))

theorem load_and_set_load {p : Phdr} (hp : p.p_type = PT_LOAD) (rest : List Phdr) (s : Loading) :
    load_and_set sys map (p :: rest) s = (do
      let t ← load_segment sys map p s
      let (calls, u) ← load_and_set sys map rest t
      return ((p, t.base) :: calls, u)) := by
  have hdyn : p.p_type ≠ PT_DYNAMIC := by
    rw [hp]
    decide
  simp only [load_and_set, loads_of_cons_load hp, last_dynamic_cons_other hdyn, load_each, bind_assoc, pure_bind]

theorem load_and_set_dynamic {p : Phdr} (hp : p.p_type = PT_DYNAMIC) (rest : List Phdr) (s : Loading) :
    load_and_set sys map (p :: rest) s =
      load_and_set sys map rest { s with l_ld := some (p.p_vaddr + map.l_addr) } := by
  have hload : p.p_type ≠ PT_LOAD := by
    rw [hp]
    decide
  simp only [load_and_set, loads_of_cons_other hload, last_dynamic_cons_dynamic hp, load_each_l_ld, bind_assoc,
    pure_bind]
  cases last_dynamic rest <;> rfl

theorem load_and_set_other {p : Phdr} (hp : ¬ p.Relevant) (rest : List Phdr) (s : Loading) :
    load_and_set sys map (p :: rest) s = load_and_set sys map rest s := by
  obtain ⟨hload, hdyn⟩ := not_or.mp hp
  simp only [load_and_set, loads_of_cons_other hload, last_dynamic_cons_other hdyn]

/-- Behind a PT_LOAD header the loop runs over the headers of the two types that follow. -/
theorem load_trace_behind_load (table : List Phdr) (s : Loading) :
    load_trace sys map table.length table true s = load_and_set sys map (table.takeWhile fun p => p.Relevant) s := by
  induction table generalizing s with
  | nil => rfl
  | cons p rest ih =>
    rw [List.length_cons, load_trace]
    by_cases hload : p.p_type = PT_LOAD
    · have hrelevant : p.Relevant := Or.inl hload
      rw [if_pos hload, List.takeWhile_cons_of_pos (by simpa using hrelevant), load_and_set_load hload]
      simp only [ih]
    · rw [if_neg hload]
      by_cases hdyn : p.p_type = PT_DYNAMIC
      · have hrelevant : p.Relevant := Or.inr hdyn
        rw [if_pos hdyn, List.takeWhile_cons_of_pos (by simpa using hrelevant), load_and_set_dynamic hdyn, ih]
      · have hother : ¬ p.Relevant := not_or.mpr ⟨hload, hdyn⟩
        rw [if_neg hdyn, if_pos rfl, List.takeWhile_cons_of_neg (by simpa using hother)]
        rfl

/-- The loop runs over the front of the table and stops. -/
theorem load_trace_eq_front (table : List Phdr) (s : Loading) :
    load_trace sys map table.length table false s = load_and_set sys map (front table) s := by
  induction table generalizing s with
  | nil => rfl
  | cons p rest ih =>
    rw [List.length_cons, load_trace]
    by_cases hload : p.p_type = PT_LOAD
    · have hfront : front (p :: rest) = p :: rest.takeWhile fun p => p.Relevant := by
        have hrelevant : p.Relevant := Or.inl hload
        rw [front, List.takeWhile_cons_of_neg (by simpa using hload),
          List.dropWhile_cons_of_neg (by simpa using hload),
          List.takeWhile_cons_of_pos (by simpa using hrelevant), List.nil_append]
      rw [if_pos hload, hfront, load_and_set_load hload]
      simp only [load_trace_behind_load]
    · have hfront : front (p :: rest) = p :: front rest := by
        rw [front, List.takeWhile_cons_of_pos (by simpa using hload),
          List.dropWhile_cons_of_pos (by simpa using hload)]
        rfl
      rw [if_neg hload, hfront]
      by_cases hdyn : p.p_type = PT_DYNAMIC
      · rw [if_pos hdyn, load_and_set_dynamic hdyn, ih]
      · rw [if_neg hdyn, load_and_set_other (not_or.mpr ⟨hload, hdyn⟩)]
        exact ih s

theorem load_each_append (ps qs : List Phdr) (s : Loading) :
    load_each sys map (ps ++ qs) s = (do
      let (calls, t) ← load_each sys map ps s
      let (calls', u) ← load_each sys map qs t
      return (calls ++ calls', u)) := by
  induction ps generalizing s with
  | nil => exact (bind_pure (load_each sys map qs s)).symm
  | cons p ps ih => simp only [List.cons_append, load_each, ih, bind_assoc, pure_bind, List.cons_append]

/-- A header that cannot be sought ends the process. -/
theorem load_each_unseekable {ps : List Phdr} (h : ∃ p ∈ ps, ¬ p.Seekable) (s : Loading)
    (x : List (Phdr × elf_addr) × Loading) :
    load_each sys map ps s ≠ .ok x := by
  induction ps generalizing s x with
  | nil => simp at h
  | cons p ps ih =>
    intro hok
    obtain ⟨t, hsegment, hok⟩ := Outcome.bind_eq_ok_iff.mp hok
    obtain ⟨y, hrest, -⟩ := Outcome.bind_eq_ok_iff.mp hok
    obtain ⟨q, hq, hunseekable⟩ := h
    obtain rfl | hq := List.mem_cons.mp hq
    · obtain ⟨content, -, hseek⟩ := Outcome.bind_eq_ok_iff.mp hsegment
      obtain ⟨pos, hpos, -⟩ := Outcome.bind_eq_ok_iff.mp hseek
      rw [xlseek, if_pos (not_not.mp hunseekable)] at hpos
      cases hpos
    · exact ih ⟨q, hq, hunseekable⟩ t y hrest

/-- All the segments are read, in order, and `l_ld` is left alone. -/
theorem load_each_calls {ps : List Phdr} {s t : Loading} {calls : List (Phdr × elf_addr)}
    (h : load_each sys map ps s = .ok (calls, t)) : calls.map Prod.fst = ps ∧ t.l_ld = s.l_ld := by
  induction ps generalizing s t calls with
  | nil =>
    cases h
    exact ⟨rfl, rfl⟩
  | cons p ps ih =>
    obtain ⟨u, hsegment, h⟩ := Outcome.bind_eq_ok_iff.mp h
    obtain ⟨⟨calls', t'⟩, hrest, h⟩ := Outcome.bind_eq_ok_iff.mp h
    cases h
    obtain ⟨hcalls, hl_ld⟩ := ih hrest
    have hsame := @load_segment_l_ld sys map p s s.l_ld
    rw [hsegment, Outcome.ok_bind] at hsame
    have hu := congrArg Loading.l_ld (Outcome.ok.inj hsame)
    exact ⟨by rw [List.map_cons, hcalls], hl_ld.trans hu⟩

/-- An ordered table is loaded as if its headers of other types were not there. -/
theorem load_trace_of_ordered {table : List Phdr} (h : Ordered table) (s : Loading) :
    load_trace sys map table.length table false s = load_and_set sys map table s := by
  rw [load_trace_eq_front]
  obtain hkept | hunseekable := h
  · obtain ⟨hloads, hdyn⟩ := kept_iff.mp hkept
    unfold load_and_set
    rw [hloads]
    congr 1
    funext ⟨calls, t⟩
    have hset : t.set_dynamic map (last_dynamic (front table)) = t.set_dynamic map (last_dynamic table) := by
      unfold Loading.set_dynamic
      cases hf : last_dynamic (front table) <;> cases ht : last_dynamic table <;> simp_all
    dsimp only
    rw [hset]
  · have hnot := @load_each_unseekable sys map _ hunseekable s
    unfold load_and_set
    rw [loads_of_split table, load_each_append]
    cases hrun : load_each sys map (loads_of (front table)) s with
    | ok x => exact absurd hrun (hnot x)
    | exit code => rfl
    | fault => rfl
    | diverge => rfl

/-- An empty file is loaded where everything is mapped. -/
theorem load_each_empty (hfile : sys.file map.l_name = some []) {ps : List Phdr} (hps : ∀ p ∈ ps, p.Seekable)
    {s : Loading} (hmapped : ∀ x, (s.mem x).isSome = true) : ∃ calls t, load_each sys map ps s = .ok (calls, t) := by
  induction ps generalizing s with
  | nil => exact ⟨_, _, rfl⟩
  | cons p ps ih =>
    have hseek : xlseek p.p_offset = .ok p.p_offset.toNat := if_neg (hps p (by simp))
    have hopen : xopen sys map.l_name = .ok [] := by simp [xopen, hfile]
    have hread : ∀ a, xread_memory s.mem a (xread [] p.p_offset.toNat p.p_filesz.toNat) = .ok (0, s.mem.put a []) := by
      intro a
      simp [xread, xread_memory]
    have hprotect : ∀ a len prot, unistd.mprotect (s.mem.put a []) (ALIGN a) len prot =
        some ((s.mem.put a []).mprotect ⟨ALIGN a, unistd.page_ceil len⟩ prot) := by
      intro a len prot
      refine if_pos fun i _ => ?_
      rw [← Memory.isSome_protection, Memory.protection_put, Memory.isSome_protection]
      exact hmapped _
    have hsegment : ∃ t, load_segment sys map p s = .ok t ∧ ∀ x, (t.mem x).isSome = true := by
      simp only [load_segment, hopen, hseek, hread, hprotect, Outcome.ok_bind]
      refine ⟨_, rfl, ?_⟩
      intro x
      rw [← Memory.isSome_protection, Memory.protection_mprotect, Memory.protection_put]
      split
      · rw [Option.isSome_map, Memory.isSome_protection]
        exact hmapped x
      · rw [Memory.isSome_protection]
        exact hmapped x
    obtain ⟨t, ht, hmapped'⟩ := hsegment
    obtain ⟨calls, u, hu⟩ := ih (fun q hq => hps q (by simp [hq])) hmapped'
    exact ⟨(p, t.base) :: calls, u, by rw [load_each, ht, Outcome.ok_bind, hu, Outcome.ok_bind]; rfl⟩

/-- A table whose loop loads every segment and finds the dynamic section, in
every file and memory, is ordered. -/
theorem ordered_of_loads_all {table : List Phdr} (h : ∀ sys map s calls t,
    load_trace sys map table.length table false s = .ok (calls, t) → calls.map Prod.fst = loads_of table ∧
      t.l_ld = (last_dynamic table).elim s.l_ld fun p => some (p.p_vaddr + map.l_addr)) : Ordered table := by
  by_cases hseek : ∀ p ∈ loads_of (front table), p.Seekable
  · let node : LinkMap := ⟨0, .lit "a", none, none, none⟩
    let start : Loading := ⟨fun _ => some ⟨0, true, true, true⟩, none, 0⟩
    obtain ⟨calls, t, hrun⟩ := @load_each_empty (.of_files [(.lit "a", [])]) node rfl _ hseek start
      fun _ => rfl
    obtain ⟨hcalls, hl_ld⟩ := load_each_calls hrun
    have htrace := @load_trace_eq_front (.of_files [(.lit "a", [])]) node table start
    rw [load_and_set, hrun, Outcome.ok_bind] at htrace
    obtain ⟨hall, hdyn⟩ := h _ _ _ _ _ htrace
    refine Or.inl (kept_iff.mpr ⟨hcalls.symm.trans hall, ?_⟩)
    rw [Loading.set_dynamic] at hdyn
    dsimp only at hdyn
    rw [hl_ld] at hdyn
    cases hf : last_dynamic (front table) <;> cases ht : last_dynamic table <;> simp_all [start]
  · simp only [not_forall, exists_prop] at hseek
    exact Or.inr hseek

/-- A run over an ordered table loads every segment and finds the dynamic section. -/
theorem loads_all_of_ordered {table : List Phdr} (h : Ordered table) {s t : Loading} {calls : List (Phdr × elf_addr)}
    (hrun : load_trace sys map table.length table false s = .ok (calls, t)) : calls.map Prod.fst = loads_of table ∧
      t.l_ld = (last_dynamic table).elim s.l_ld fun p => some (p.p_vaddr + map.l_addr) := by
  rw [load_trace_of_ordered h] at hrun
  obtain ⟨⟨calls', u⟩, heach, hset⟩ := Outcome.bind_eq_ok_iff.mp hrun
  cases hset
  obtain ⟨hcalls, hl_ld⟩ := load_each_calls heach
  refine ⟨hcalls, ?_⟩
  rw [Loading.set_dynamic]
  dsimp only
  rw [hl_ld]

/-- Two tables with the same PT_LOAD and PT_DYNAMIC headers: from any memory, the
loop makes the same calls over both, loads every segment and finds the dynamic
section, if and only if both are ordered; and then the two programs are loaded
alike whenever the same memory is reserved for them. -/
theorem load_program_order_iff {table table' : List Phdr} (h : relevant table = relevant table') :
    ((∀ sys map s,
        load_trace sys map table.length table false s = load_trace sys map table'.length table' false s ∧
        ∀ calls t, load_trace sys map table.length table false s = .ok (calls, t) →
          calls.map Prod.fst = loads_of table ∧
          t.l_ld = (last_dynamic table).elim s.l_ld fun p => some (p.p_vaddr + map.l_addr)) ↔
      Ordered table ∧ Ordered table') ∧
    (Ordered table → Ordered table' → ∀ (sys : System) (m : Memory 64) (elf elf' : Ehdr) (map : LinkMap) (base : elf_addr),
      elf.e_phnum.toNat = table.length → elf'.e_phnum.toNat = table'.length →
      allocate_map sys m table map.l_addr = allocate_map sys m table' map.l_addr →
      load_program sys m table elf map base = load_program sys m table' elf' map base) := by
  have hloads : loads_of table = loads_of table' := by
    rw [← loads_of_relevant table, h, loads_of_relevant]
  have hdynamic : last_dynamic table = last_dynamic table' := by
    rw [← last_dynamic_relevant table, h, last_dynamic_relevant]
  have hsame : Ordered table → Ordered table' → ∀ sys map s,
      load_trace sys map table.length table false s = load_trace sys map table'.length table' false s := by
    intro hordered hordered' sys map s
    rw [load_trace_of_ordered hordered, load_trace_of_ordered hordered', load_and_set, load_and_set, hloads, hdynamic]
  refine ⟨⟨?_, ?_⟩, ?_⟩
  · intro hrun
    refine ⟨ordered_of_loads_all fun sys map s => (hrun sys map s).2, ordered_of_loads_all ?_⟩
    intro sys map s calls t hok
    rw [← hloads, ← hdynamic]
    exact (hrun sys map s).2 calls t ((hrun sys map s).1.trans hok)
  · rintro ⟨hordered, hordered'⟩ sys map s
    exact ⟨hsame hordered hordered' sys map s, fun calls t => loads_all_of_ordered hordered⟩
  · intro hordered hordered' sys m elf elf' map base hcount hcount' hmap
    rw [load_program, load_program, hmap]
    simp only [hcount, hcount', load_loop_eq_trace, hsame hordered hordered']

/-- A segment with a note and the dynamic section in it. -/
def load_header : Phdr := ⟨PT_LOAD, 7, 0, 0, 16, 16⟩

def note_header : Phdr := ⟨4, 4, 0, 0, 16, 16⟩

def dynamic_header : Phdr := ⟨PT_DYNAMIC, 6, 8, 8, 8, 8⟩

/-- The addresses a run has loaded and the dynamic section it has found. -/
def loaded_from (table : List Phdr) : Outcome (List Phdr × Option elf_addr) := do
  let (calls, t) ← load_trace (.of_files [(.lit "a", List.replicate 16 1#8)]) ⟨0x1000, .lit "a", none, none, none⟩ table.length
    table false ⟨fun _ => some ⟨0, true, true, true⟩, none, 0⟩
  return (calls.map Prod.fst, t.l_ld)

/-- A note in front of the segment or behind the dynamic section does no harm. -/
theorem load_program_note_around :
    loaded_from [load_header, dynamic_header, note_header] = loaded_from [note_header, load_header, dynamic_header] := by
  have hfront : Ordered [note_header, load_header, dynamic_header] := Or.inl ⟨by decide, by decide⟩
  have hbehind : Ordered [load_header, dynamic_header, note_header] := Or.inl ⟨by decide, by decide⟩
  have h := ((@load_program_order_iff [load_header, dynamic_header, note_header]
    [note_header, load_header, dynamic_header] (by decide)).1.mpr ⟨hbehind, hfront⟩
    (.of_files [(.lit "a", List.replicate 16 1#8)]) ⟨0x1000, .lit "a", none, none, none⟩
    ⟨fun _ => some ⟨0, true, true, true⟩, none, 0⟩).1
  rw [loaded_from, loaded_from, h]

/-- Between the two it hides the dynamic section. -/
theorem load_program_note_between :
    relevant [load_header, note_header, dynamic_header] = relevant [note_header, load_header, dynamic_header] ∧
    loaded_from [load_header, note_header, dynamic_header] = .ok ([load_header], none) ∧
    loaded_from [note_header, load_header, dynamic_header] = .ok ([load_header], some 0x1008) := by
  refine ⟨by decide, by decide +kernel, by decide +kernel⟩

end loader

end ldso
