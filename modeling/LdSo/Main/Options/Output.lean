import LdSo.Main.Options.Text
import LdSo.Dependency.Environment

open cmodel

namespace ldso.options

open elf stdio display_auxv

namespace Place

variable (place : Place)

/-- The memory besides the buffer of `printf`. -/
abbrev visible (m : Memory 64) : Memory 64 := outside m place.printf_buf 1024

/-- The buffer may be written, and the strings of ld.so are where they are said to be. -/
structure Laid (m : Memory 64) : Prop where
  buffer : Buffer m place.printf_buf 1024
  trace : (place.visible m).Holds (place.string trace_format) trace_format.bytes
  format : ∀ type : OptionType, (place.visible m).Holds (place.string type.format) type.format.bytes
  msg : ∀ entry ∈ auxv_options, (place.visible m).Holds (place.string entry.msg) entry.msg.bytes

/-- A step has printed this text, and changed nothing but the buffer since the memory was `m`. -/
def Prints (m : Memory 64) (out : Console) (text : List Byte) (step : Outcome Console) : Prop :=
  ∃ out', step = .ok out' ∧ out'.output = out.output ++ text ∧ Console.Since m place.printf_buf 1024 out'

variable {place} {m : Memory 64} {out : Console} {first second : List Byte}

theorem prints_nil (h : Console.Since m place.printf_buf 1024 out) : place.Prints m out [] (.ok out) :=
  ⟨out, rfl, by simp, h⟩

/-- One step behind the other prints one text behind the other. -/
theorem Prints.bind {step : Outcome Console} {next : Console → Outcome Console} (h : place.Prints m out first step)
    (hnext : ∀ out', Console.Since m place.printf_buf 1024 out' → place.Prints m out' second (next out')) :
    place.Prints m out (first ++ second) (step >>= next) := by
  obtain ⟨out', rfl, houtput, hsince⟩ := h
  obtain ⟨out'', hstep, houtput', hsince'⟩ := hnext out' hsince
  exact ⟨out'', hstep, by rw [houtput', houtput, List.append_assoc], hsince'⟩

end Place

section Auxv

variable {place : Place} {m : Memory 64} {out : Console} {string : elf_addr → CString} {auxv a_type a_val : elf_addr}

theorem auxv_options_msg : ∀ entry ∈ auxv_options, entry.msg.chars.length ≤ 20 := by decide

theorem auxv_options_nodup : (auxv_options.map DictionaryEntry.a_type).Nodup := by decide

/-- What an entry of the vector makes an entry of the dictionary print. -/
def entry_text (string : elf_addr → CString) (auxv : Auxv) (entry : DictionaryEntry) : List Byte :=
  if auxv.a_type = entry.a_type then option_line string entry auxv.a_val else []

/-- The values that the vector gives to entries of the dictionary can be printed. -/
def Printable (m : Memory 64) (string : elf_addr → CString) (auxv : Auxv) : Prop :=
  ∀ entry ∈ auxv_options, auxv.a_type = entry.a_type → entry.type.Printable m string auxv.a_val

theorem print_entry_prints {value : Auxv} {entry : DictionaryEntry} (h : place.Laid m)
    (hout : Console.Since m place.printf_buf 1024 out) (hauxv : (place.visible m).Loads auxv [value.a_type, value.a_val])
    (hentry : entry ∈ auxv_options) (hvalue : Printable (place.visible m) string value) :
    place.Prints m out (entry_text string value entry) (print_entry place auxv entry out) := by
  have htype : out.mem.loadWord 64 auxv = .ok value.a_type := Outcome.eq_ok_of_le (hout.sub.loadWord_le 64 auxv) hauxv.head
  have hval : out.mem.loadWord 64 (auxv + 8#64) = .ok value.a_val :=
    Outcome.eq_ok_of_le (hout.sub.loadWord_le 64 _) hauxv.tail.head
  rw [print_entry, htype, Outcome.ok_bind, entry_text]
  by_cases heq : value.a_type = entry.a_type
  · rw [if_pos heq, if_pos heq, hval, Outcome.ok_bind]
    have hprintable := hvalue entry hentry heq
    have hmsg := auxv_options_msg entry hentry
    have hformat : entry.type.format.chars.length < 2 ^ 64 := by cases entry.type <;> decide
    exact hout.printf (h.format entry.type) hformat
      (option_format_text (h.msg entry hentry) (by omega) hprintable) (not_mem_option_line entry _)
      (option_line_length hmsg hprintable)
  · rw [if_neg heq, if_neg heq]
    exact Place.prints_nil hout

theorem print_option_prints {value : Auxv} {entries : List DictionaryEntry} (h : place.Laid m)
    (hout : Console.Since m place.printf_buf 1024 out) (hauxv : (place.visible m).Loads auxv [value.a_type, value.a_val])
    (hentries : entries ⊆ auxv_options) (hvalue : Printable (place.visible m) string value) :
    place.Prints m out (entries.flatMap (entry_text string value)) (print_option place auxv entries out) := by
  induction entries generalizing out with
  | nil => exact Place.prints_nil hout
  | cons entry entries ih =>
    rw [List.flatMap_cons, print_option]
    exact (print_entry_prints h hout hauxv (hentries (by simp)) hvalue).bind fun out' hout' =>
      ih hout' fun e he => hentries (List.mem_cons_of_mem entry he)

/-- The line of an entry of the vector, when its type is known. -/
def auxv_text (string : elf_addr → CString) (auxv : Auxv) : List Byte :=
  (auxv_options.find? (auxv.a_type = ·.a_type)).elim [] fun entry => option_line string entry auxv.a_val

/-- No type is found twice in the dictionary. -/
theorem flatMap_entry_text (string : elf_addr → CString) (value : Auxv) :
    auxv_options.flatMap (entry_text string value) = auxv_text string value := by
  rw [auxv_text]
  have hnodup := auxv_options_nodup
  generalize auxv_options = entries at hnodup
  induction entries with
  | nil => rfl
  | cons entry entries ih =>
    rw [List.map_cons, List.nodup_cons] at hnodup
    rw [List.flatMap_cons, List.find?_cons, entry_text]
    by_cases heq : value.a_type = entry.a_type
    · have hrest : entries.flatMap (entry_text string value) = [] := by
        rw [List.flatMap_eq_nil_iff]
        intro e he
        have hne : value.a_type ≠ e.a_type := fun h => hnodup.1 (List.mem_map.mpr ⟨e, he, by rw [← h, heq]⟩)
        rw [entry_text, if_neg hne]
      simp [heq, hrest]
    · rw [if_neg heq, List.nil_append, ih hnodup.2]
      simp [heq]

/-- The whole vector is printed, in its order. -/
theorem print_auxvp_loop_prints {entries : List Auxv} {null : Auxv} {fuel : Nat} (h : place.Laid m)
    (hout : Console.Since m place.printf_buf 1024 out)
    (hauxv : (place.visible m).Loads auxv (startup.InitialStack.auxv_words (entries ++ [null])))
    (hne : ∀ entry ∈ entries, entry.a_type ≠ AT_NULL.setWidth 64) (hnull : null.a_type = AT_NULL.setWidth 64)
    (hvalues : ∀ entry ∈ entries, Printable (place.visible m) string entry) (hfuel : entries.length < fuel) :
    place.Prints m out (entries.flatMap (auxv_text string)) (print_auxvp_loop place fuel auxv out) := by
  have hread : ∀ {out : Console} {p : elf_addr} {entry : Auxv} {rest : List Auxv}, Console.Since m place.printf_buf 1024 out →
      (place.visible m).Loads p (startup.InitialStack.auxv_words (entry :: rest)) →
      out.mem.loadWord 64 p = .ok entry.a_type := by
    intro out p entry rest hout hp
    exact Outcome.eq_ok_of_le (hout.sub.loadWord_le 64 p) hp.head
  induction entries generalizing out auxv fuel with
  | nil =>
    cases fuel with
    | zero => cases hfuel
    | succ fuel =>
      rw [print_auxvp_loop, hread hout hauxv, Outcome.ok_bind, if_pos hnull]
      exact Place.prints_nil hout
  | cons entry entries ih =>
    cases fuel with
    | zero => cases hfuel
    | succ fuel =>
      rw [print_auxvp_loop, hread hout hauxv, Outcome.ok_bind, if_neg (hne entry (by simp)), List.flatMap_cons,
        ← flatMap_entry_text]
      have hfirst : (place.visible m).Loads auxv [entry.a_type, entry.a_val] := (Memory.loads_append.mp hauxv).1
      have hrest : (place.visible m).Loads (auxv + 16#64) (startup.InitialStack.auxv_words (entries ++ [null])) :=
        (Memory.loads_append.mp hauxv).2
      refine (print_option_prints h hout hfirst (List.Subset.refl _) (hvalues entry (by simp))).bind fun out' hout' => ?_
      exact ih hout' hrest (fun e he => hne e (by simp [he])) (fun e he => hvalues e (by simp [he]))
        (Nat.lt_of_succ_lt_succ hfuel)

end Auxv

section Trace

variable {place : Place} {m : Memory 64} {out : Console} {heap : Heap} {map : Option Nat} {ps : List Nat}

/-- The address that is printed of a node. -/
def Place.dynamic (place : Place) (heap : Heap) (p : Nat) : elf_addr := (heap[p]?.bind LinkMap.l_ld).getD (place.l_ld p)

/-- A name that `printf` finds and has room for. -/
def Place.Named (place : Place) (m : Memory 64) (heap : Heap) (p : Nat) : Prop :=
  ∀ node, heap[p]? = some node → (place.visible m).Holds (place.l_name p) node.l_name.bytes ∧ node.l_name.chars.length < 1000

/-- The lines of some nodes, one behind the other. -/
def Place.trace_output (place : Place) (heap : Heap) (ps : List Nat) : List Byte :=
  ps.flatMap fun p => (heap[p]?).elim [] fun node => trace_line node.l_name (place.dynamic heap p)

/-- The whole link map is printed, in its order. -/
theorem trace_loop_prints {fuel : Nat} (h : place.Laid m) (hout : Console.Since m place.printf_buf 1024 out)
    (hchain : NextChain heap map ps) (hnames : ∀ p ∈ ps, place.Named m heap p) (hfuel : ps.length < fuel) :
    place.Prints m out (place.trace_output heap ps) (trace_loop place heap fuel map out) := by
  induction ps generalizing map out fuel with
  | nil =>
    obtain rfl : map = none := hchain
    cases fuel with
    | zero => cases hfuel
    | succ fuel => exact Place.prints_nil hout
  | cons p ps ih =>
    obtain ⟨rfl, node, hnode, hrest⟩ := hchain
    cases fuel with
    | zero => cases hfuel
    | succ fuel =>
      obtain ⟨hname, hlength⟩ := hnames p (by simp) node hnode
      have haddr : node.l_ld.getD (place.l_ld p) = place.dynamic heap p := by rw [Place.dynamic, hnode, Option.bind_some]
      have hnonul : 0#8 ∉ trace_line node.l_name (place.dynamic heap p) := by
        rw [trace_line, List.mem_append, not_or]
        exact ⟨not_mem_trace_text _ node.l_name.nonul (.inl rfl), by decide⟩
      have hroom : (trace_line node.l_name (place.dynamic heap p)).length < 1024 := by
        rw [trace_line, List.length_append, trace_text_length, List.length_singleton]
        omega
      rw [trace_loop, hnode, Outcome.ofOption_some, Outcome.ok_bind, haddr, Place.trace_output, List.flatMap_cons, hnode,
        Option.elim_some]
      refine Place.Prints.bind (hout.printf h.trace (by decide) (trace_format_text hname (by omega)) hnonul hroom) ?_
      exact fun out' hout' => ih hout' hrest (fun q hq => hnames q (by simp [hq])) (Nat.lt_of_succ_lt_succ hfuel)

end Trace

section Options

variable {sys : System} {place : Place} {m : Memory 64} {heap : Heap} {map : Option Nat} {ps : List Nat}
  {s : startup.InitialStack} {stack : elf_addr} {string : elf_addr → CString}

/-- An entry of the environment begins with the name and is longer. -/
def Requested (sys : System) (name : CString) : Prop := ∃ e ∈ sys.envp, process.Extends name e

instance (sys : System) (name : CString) : Decidable (Requested sys name) :=
  inferInstanceAs (Decidable (∃ e ∈ sys.envp, process.Extends name e))

theorem get_env_value_isSome (sys : System) (name : CString) :
    ∃ value, get_env_value sys.envp name = .ok value ∧ (value.isSome = true ↔ Requested sys name) := by
  refine ⟨_, process.get_env_value_eq_find sys.envp, ?_⟩
  simp [Requested]

/-- The two options are looked at one after the other. -/
theorem handle_options_eq (hstack : m.Loads stack s.words) (hfits : 8 * s.words.length ≤ 2 ^ 64) (output : List Byte) :
    handle_options sys place heap (s.envp_at stack) map ⟨m, output⟩ =
      (if Requested sys (.lit "LD_SHOW_AUXV") then print_auxvp place (s.auxv_at stack) ⟨m, output⟩
        else .ok ⟨m, output⟩) >>= fun out =>
      if Requested sys (.lit "LD_TRACE_LOADED_OBJECTS") then
        trace_loop place heap (heap.length + 1) map out >>= fun out => .ok (out, some 0)
      else .ok (out, none) := by
  obtain ⟨show_auxvp, hshow, hrequested⟩ := get_env_value_isSome sys (.lit "LD_SHOW_AUXV")
  obtain ⟨trace_ld_objects, htrace, hrequested'⟩ := get_env_value_isSome sys (.lit "LD_TRACE_LOADED_OBJECTS")
  simp only [handle_options, show_auxv, startup.find_auxv_eq hstack hfits, hshow, htrace, Outcome.ok_bind, hrequested,
    hrequested', Outcome.pure_eq]

/-- The process ends as it does when nothing is said about what it prints. -/
theorem handle_options_status {out' : Console} {status : Option Int} (hstack : m.Loads stack s.words)
    (hfits : 8 * s.words.length ≤ 2 ^ 64) {output : List Byte}
    (h : handle_options sys place heap (s.envp_at stack) map ⟨m, output⟩ = .ok (out', status)) :
    ldso.handle_options sys = status.elim (.ok ()) .exit := by
  obtain ⟨show_auxvp, hshow, -⟩ := get_env_value_isSome sys (.lit "LD_SHOW_AUXV")
  obtain ⟨trace_ld_objects, htrace, hrequested⟩ := get_env_value_isSome sys (.lit "LD_TRACE_LOADED_OBJECTS")
  rw [handle_options_eq hstack hfits] at h
  obtain ⟨out, -, h⟩ := Outcome.bind_eq_ok_iff.mp h
  simp only [ldso.handle_options, hshow, htrace, Outcome.ok_bind, hrequested]
  split at h
  · next hset =>
    obtain ⟨out₁, -, h⟩ := Outcome.bind_eq_ok_iff.mp h
    cases h
    rw [if_pos hset, Option.elim_some]
  · next hset =>
    cases h
    rw [if_neg hset]
    rfl

/-- What is seen of the stack is the stack. -/
theorem Place.loads_of_visible (hstack : (place.visible m).Loads stack s.words) : m.Loads stack s.words :=
  fun i hi => Outcome.eq_ok_of_le ((Memory.hide_sub m _).loadWord_le 64 _) (hstack i hi)

/-- What the options ask for. -/
def options_output (sys : System) (place : Place) (string : elf_addr → CString) (auxv : List Auxv) (heap : Heap)
    (ps : List Nat) : List Byte :=
  (if Requested sys (.lit "LD_SHOW_AUXV") then auxv.flatMap (auxv_text string) else []) ++
    if Requested sys (.lit "LD_TRACE_LOADED_OBJECTS") then place.trace_output heap ps else []

/-- `handle_options` prints what the options ask for, and the process ends when the
link map was asked for; nothing but the buffer of `printf` is written. -/
theorem handle_options_prints (h : place.Laid m) (hstack : (place.visible m).Loads stack s.words)
    (hfits : 8 * s.words.length ≤ 2 ^ 64)
    (hvalues : Requested sys (.lit "LD_SHOW_AUXV") → ∀ entry ∈ s.auxv, Printable (place.visible m) string entry)
    (hchain : NextChain heap map ps)
    (hnames : Requested sys (.lit "LD_TRACE_LOADED_OBJECTS") → ∀ p ∈ ps, place.Named m heap p) (output : List Byte) :
    ∃ out', handle_options sys place heap (s.envp_at stack) map ⟨m, output⟩ =
        .ok (out', if Requested sys (.lit "LD_TRACE_LOADED_OBJECTS") then some 0 else none) ∧
      out'.output = output ++ options_output sys place string s.auxv heap ps ∧
      place.visible out'.mem = place.visible m := by
  obtain ⟨-, -, hauxv⟩ := startup.loads_arrays hstack
  have hlength : s.auxv.length < 2 ^ 64 := by
    have hwords : (startup.InitialStack.auxv_words s.vector).length = 2 * (s.auxv.length + 1) := by
      simp [startup.InitialStack.auxv_words, startup.InitialStack.vector]
      omega
    simp only [startup.InitialStack.words, List.length_cons, List.length_append, hwords] at hfits
    omega
  have hfirst : place.Prints m ⟨m, output⟩
      (if Requested sys (.lit "LD_SHOW_AUXV") then s.auxv.flatMap (auxv_text string) else [])
      (if Requested sys (.lit "LD_SHOW_AUXV") then print_auxvp place (s.auxv_at stack) ⟨m, output⟩
        else .ok ⟨m, output⟩) := by
    by_cases hset : Requested sys (.lit "LD_SHOW_AUXV")
    · rw [if_pos hset, if_pos hset]
      exact print_auxvp_loop_prints h (.refl output h.buffer) hauxv s.auxv_ne rfl (hvalues hset) hlength
    · rw [if_neg hset, if_neg hset]
      exact Place.prints_nil (.refl output h.buffer)
  obtain ⟨out₁, hshown, houtput, hsince⟩ := hfirst
  rw [handle_options_eq (Place.loads_of_visible hstack) hfits, hshown, Outcome.ok_bind, options_output]
  by_cases hset : Requested sys (.lit "LD_TRACE_LOADED_OBJECTS")
  · obtain ⟨out', htraced, houtput', hsince'⟩ :=
      trace_loop_prints h hsince hchain (hnames hset) (Nat.lt_succ_of_le hchain.length_le)
    rw [if_pos hset, if_pos hset, if_pos hset, htraced]
    exact ⟨out', rfl, by rw [houtput', houtput, List.append_assoc], hsince'.outside_eq⟩
  · rw [if_neg hset, if_neg hset, if_neg hset]
    exact ⟨out₁, rfl, by rw [houtput, List.append_nil], hsince.outside_eq⟩

end Options

section Placed

/-- Where a string lies that is among some strings that lie one behind the other. -/
def string_offset (strings : List CString) (s : CString) : Nat :=
  ((strings.takeWhile (· ≠ s)).flatMap CString.bytes).length

theorem holds_string {m : Memory 64} {a : elf_addr} {strings : List CString} {s : CString}
    (h : m.Holds a (strings.flatMap CString.bytes)) (hs : s ∈ strings) :
    m.Holds (a + BitVec.ofNat 64 (string_offset strings s)) s.bytes := by
  obtain ⟨rest, hsplit⟩ : ∃ rest, strings = strings.takeWhile (· ≠ s) ++ s :: rest := by
    clear h
    induction strings with
    | nil => cases hs
    | cons t strings ih =>
      by_cases ht : t = s
      · exact ⟨strings, by simp [ht]⟩
      · obtain ⟨rest, hrest⟩ := ih ((List.mem_cons.mp hs).resolve_left (Ne.symm ht))
        refine ⟨rest, ?_⟩
        rw [List.takeWhile_cons_of_pos (by simpa using ht), List.cons_append, ← hrest]
  rw [hsplit, List.flatMap_append, Memory.holds_append, List.flatMap_cons, Memory.holds_append] at h
  exact h.2.1

/-- The strings of ld.so that `handle_options` uses. -/
def option_strings : List CString :=
  [trace_format, OptionType.STR.format, OptionType.HEX.format, OptionType.DEC.format] ++ auxv_options.map DictionaryEntry.msg

theorem format_mem_option_strings (type : OptionType) : type.format ∈ option_strings := by cases type <;> decide

/-- A place for these strings and some names, behind each other. -/
def Place.of_names (names : List CString) : Place where
  printf_buf := 0x20000
  string s := 0x10000 + BitVec.ofNat 64 (string_offset (option_strings ++ names) s)
  l_name p := 0x10000 + BitVec.ofNat 64 (string_offset (option_strings ++ names) (names.getD p (.lit "")))
  l_ld _ := 0

/-- A memory with the strings and an initial stack. -/
def Place.memory (names : List CString) (words : List (BitVec 64)) : Memory 64 :=
  (Memory.put (fun _ => some ⟨0, ⟨true, true, false⟩⟩) 0x30000 (encodeArray 8 words)).put 0x10000
    ((option_strings ++ names).flatMap CString.bytes)

section Memory

variable {names : List CString} {words : List (BitVec 64)}

theorem Place.memory_writable (names : List CString) (words : List (BitVec 64)) (a : elf_addr) :
    (Place.memory names words).Writable a := by
  rw [Place.memory, Memory.writable_put, Memory.writable_put]
  exact ⟨_, rfl, rfl⟩

/-- What was put besides the buffer can be seen. -/
theorem Place.visible_of_holds {a : elf_addr} {bs : List Byte} (h : (Place.memory names words).Holds a bs)
    (hsize : bs.length ≤ 0x1000) (hgap : 0x1000 ≤ (0x20000#64 - a).toNat ∧ 1024 ≤ (a - 0x20000#64).toNat) :
    ((Place.of_names names).visible (Place.memory names words)).Holds a bs := by
  refine h.hide fun r hr => ?_
  obtain rfl := List.mem_singleton.mp hr
  exact Region.disjoint_of_bases (hsize.trans hgap.1) hgap.2

theorem Place.visible_holds (hsize : ((option_strings ++ names).flatMap CString.bytes).length ≤ 0x1000) :
    ((Place.of_names names).visible (Place.memory names words)).Holds 0x10000
      ((option_strings ++ names).flatMap CString.bytes) := by
  refine Place.visible_of_holds (Memory.load_put_same (by omega) fun i _ => ?_) hsize (by decide)
  rw [Memory.writable_put]
  exact ⟨_, rfl, rfl⟩

/-- The stack is where it was put. -/
theorem Place.visible_loads (hsize : ((option_strings ++ names).flatMap CString.bytes).length ≤ 0x1000)
    (hwords : (encodeArray 8 words).length ≤ 0x1000) :
    ((Place.of_names names).visible (Place.memory names words)).Loads 0x30000 words := by
  have hapart : (⟨0x10000, ((option_strings ++ names).flatMap CString.bytes).length⟩ : Region 64).Disjoint
      ⟨0x30000, (encodeArray 8 words).length⟩ :=
    Region.disjoint_of_bases (hsize.trans (show 0x1000 ≤ (0x30000#64 - 0x10000#64).toNat by decide))
      (hwords.trans (show 0x1000 ≤ (0x10000#64 - 0x30000#64).toNat by decide))
  have hput : (Place.memory names words).Holds 0x30000 (encodeArray 8 words) := by
    unfold Memory.Holds
    rw [Place.memory, Memory.load_put_of_disjoint hapart]
    exact Memory.load_put_same (by omega) fun i _ => ⟨_, rfl, rfl⟩
  exact fun i hi => (Place.visible_of_holds hput hwords (by decide)).loadWord_array (by decide) hi

theorem Place.of_names_laid (hsize : ((option_strings ++ names).flatMap CString.bytes).length ≤ 0x1000) :
    (Place.of_names names).Laid (Place.memory names words) := by
  have hstring : ∀ s ∈ option_strings, ((Place.of_names names).visible (Place.memory names words)).Holds
      ((Place.of_names names).string s) s.bytes :=
    fun s hs => holds_string (Place.visible_holds hsize) (List.mem_append_left _ hs)
  refine ⟨⟨fun _ _ => Place.memory_writable _ _ _, by decide⟩, hstring _ (by decide), fun type => hstring _ (format_mem_option_strings type), ?_⟩
  intro entry hentry
  exact hstring _ (List.mem_append_right _ (List.mem_map_of_mem hentry))

/-- The names are those of the nodes. -/
theorem Place.of_names_named {heap : Heap} (hsize : ((option_strings ++ names).flatMap CString.bytes).length ≤ 0x1000)
    (hnames : heap.map LinkMap.l_name = names) (hshort : ∀ name ∈ names, name.chars.length < 1000) (p : Nat) :
    (Place.of_names names).Named (Place.memory names words) heap p := by
  intro node hnode
  have hname : names[p]? = some node.l_name := by rw [← hnames, List.getElem?_map, hnode, Option.map_some]
  have hmem : node.l_name ∈ names := List.mem_of_getElem? hname
  have hplace : (Place.of_names names).l_name p = (Place.of_names names).string node.l_name := by
    simp [Place.of_names, List.getD_eq_getElem?_getD, hname]
  rw [hplace]
  exact ⟨holds_string (Place.visible_holds hsize) (List.mem_append_right _ hmem), hshort _ hmem⟩

end Memory

/-- An environment with both options. -/
def both_options_sys : System where
  __ := System.of_files []
  envp := [.lit "LD_SHOW_AUXV=1", .lit "LD_TRACE_LOADED_OBJECTS=1"]

/-- Two environment pointers and a page size. -/
def page_size_stack : startup.InitialStack := ⟨[], [1, 2], [⟨6, 4096⟩], 0, Nat.two_pow_pos 31, by simp, by decide⟩

theorem handle_options_prints_both :
    ∃ out', handle_options both_options_sys (.of_names [.lit "/a"]) [⟨0, .lit "/a", some 0x402000, none, none⟩]
        (page_size_stack.envp_at 0x30000) (some 0) ⟨Place.memory [.lit "/a"] page_size_stack.words, []⟩ =
          .ok (out', some 0) ∧
      out'.output = (CString.lit "AT_PAGESZ : 4096\n\t/a (0x0000000000402000)\n").chars := by
  have hsize : ((option_strings ++ [CString.lit "/a"]).flatMap CString.bytes).length ≤ 0x1000 := by
    rw [List.length_flatMap]
    decide
  have hvalues : ∀ entry ∈ page_size_stack.auxv, Printable
      ((Place.of_names [.lit "/a"]).visible (Place.memory [.lit "/a"] page_size_stack.words)) (fun _ => .lit "") entry := by
    intro value hvalue entry hentry htype
    obtain rfl := List.mem_singleton.mp hvalue
    have hdec : ∀ entry ∈ auxv_options, 6#64 = entry.a_type → entry.type = .DEC := by decide
    rw [hdec entry hentry htype]
    exact (by decide : (4096#64 : BitVec 64) ≠ BitVec.intMin 64)
  have hchain : NextChain [⟨0, .lit "/a", some 0x402000, none, none⟩] (some 0) [0] := ⟨rfl, _, rfl, rfl⟩
  obtain ⟨out', hrun, houtput, -⟩ := @handle_options_prints both_options_sys _ _ _ _ _ page_size_stack _ _
    (Place.of_names_laid hsize) (Place.visible_loads hsize (by decide)) (by decide) (fun _ => hvalues) hchain
    (fun _ p _ => Place.of_names_named hsize rfl (by decide) p) []
  exact ⟨out', hrun, houtput.trans (by decide +kernel)⟩

end Placed

end ldso.options
