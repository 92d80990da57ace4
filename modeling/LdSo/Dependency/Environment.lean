import LdSo.Libc.Compare
import LdSo.Dependency.Process

open cmodel

namespace ldso.process

/-- The string begins with the name and is longer. -/
def Extends (name e : CString) : Prop := name.chars <+: e.chars ∧ name.chars.length < e.chars.length

instance (name e : CString) : Decidable (Extends name e) := inferInstanceAs (Decidable (_ ∧ _))

/-- The buffer begins with the string and its terminator. -/
def Holds (b : List Byte) (s : CString) : Prop := ∃ back, b = s.chars ++ 0#8 :: back

theorem holds_bytes (s : CString) : Holds s.bytes s := ⟨[], rfl⟩

variable {name e : CString} {b : List Byte}

theorem strlen_eq (h : Holds b e) : strlen b = .ok e.chars.length := by
  obtain ⟨back, rfl⟩ := h
  obtain ⟨cs, hnonul⟩ := e
  simp only
  induction cs with
  | nil => rfl
  | cons c cs ih =>
    have hc : c ≠ 0#8 := fun h => hnonul (by simp [h])
    rw [List.cons_append, strlen, if_pos hc, ih fun h => hnonul (by simp [h])]
    rfl

theorem take_eq_iff_extends : name.chars.length < e.chars.length ∧
    e.chars.take name.chars.length = name.chars.take name.chars.length ↔
    Extends name e := by
  unfold Extends
  rw [List.take_length, List.prefix_iff_eq_take, and_comm, eq_comm]

/-- What one entry does to the scan. -/
theorem scan_env_cons (h : Holds b e) (i : Nat) (rest : List (List Byte)) :
    scan_env name i (b :: rest) =
      if Extends name e then .ok (some ⟨i, name.chars.length + 1⟩) else scan_env name (i + 1) rest := by
  rw [scan_env, strlen_eq h, Outcome.ok_bind]
  obtain ⟨back, rfl⟩ := h
  obtain ⟨d, horder, hzero⟩ := string.strncmp_terminated e name back [] name.chars.length
  have hname : name.bytes = name.chars ++ 0#8 :: [] := rfl
  rw [hname, horder, Outcome.ok_bind]
  by_cases hlt : name.chars.length < e.chars.length
  · rw [if_pos hlt]
    by_cases hd : d = 0
    · rw [if_pos hd, if_pos (take_eq_iff_extends.mp ⟨hlt, hzero.mp hd⟩)]
      rfl
    · rw [if_neg hd, if_neg fun hext => hd (hzero.mpr (take_eq_iff_extends.mpr hext).2)]
  · rw [if_neg hlt, if_neg fun hext => hlt hext.2]

/-- The scan finds the first entry that begins with the name and is longer. -/
theorem scan_env_eq {buffers : List (List Byte)} {strings : List CString} (h : List.Forall₂ Holds buffers strings)
    (i : Nat) :
    scan_env name i buffers =
      .ok ((strings.findIdx? fun e => Extends name e).map fun k => ⟨i + k, name.chars.length + 1⟩) := by
  induction h generalizing i with
  | nil => rfl
  | @cons b e buffers strings hb h ih =>
    rw [scan_env_cons hb, List.findIdx?_cons, ih]
    by_cases hext : Extends name e
    · simp [hext]
    · simp only [hext, if_false, decide_false, Bool.false_eq_true, Option.map_map]
      congr 2
      funext k
      simp only [Function.comp_apply, Ptr.mk.injEq, and_true]
      omega

theorem get_env_value_eq {buffers : List (List Byte)} {strings : List CString}
    (h : List.Forall₂ Holds buffers strings) :
    get_env_value buffers name =
      .ok ((strings.findIdx? fun e => Extends name e).map fun k => ⟨k, name.chars.length + 1⟩) := by
  rw [get_env_value, scan_env_eq h]
  simp only [Nat.zero_add]

theorem holds_envp (envp : List CString) : List.Forall₂ Holds (envp.map CString.bytes) envp := by
  induction envp with
  | nil => exact .nil
  | cons e envp ih => exact .cons (holds_bytes e) ih

/-- The value that is found is the rest of the entry behind the name and one more byte. -/
theorem get_env_value_eq_find (envp : List CString) : display_auxv.get_env_value envp name =
    .ok ((envp.find? fun e => Extends name e).map fun e => e.drop (name.chars.length + 1)) := by
  induction envp with
  | nil => rfl
  | cons e envp ih =>
    obtain ⟨d, horder, hzero⟩ := string.strncmp_terminated e name [] [] name.chars.length
    have hbytes : ∀ s : CString, s.bytes = s.chars ++ 0#8 :: [] := fun _ => rfl
    simp only [display_auxv.get_env_value, hbytes, horder, Outcome.ok_bind, ih, List.find?_cons]
    by_cases hlt : name.chars.length < e.chars.length
    · by_cases hd : d = 0
      · have hext := take_eq_iff_extends.mp ⟨hlt, hzero.mp hd⟩
        simp [hlt, hd, hext]
      · have hext : ¬ Extends name e := fun hext => hd (hzero.mpr (take_eq_iff_extends.mpr hext).2)
        simp [hlt, hd, hext]
    · have hext : ¬ Extends name e := fun hext => hlt hext.2
      simp [hlt, hext]

section Assignment

/-- The entry is exactly the name, '=' and the value. -/
def Assigns (name e value : CString) : Prop := e.chars = name.chars ++ 0x3d#8 :: value.chars

/-- The place is the value's in the first entry that assigns one to the name;
without a place, no entry does. -/
def FirstAssignment (envp : List CString) (name : CString) : Option Ptr → Prop
  | none => ∀ e ∈ envp, ∀ value, ¬ Assigns name e value
  | some p => (∃ e value, envp[p.buffer]? = some e ∧ Assigns name e value) ∧ p.off = name.chars.length + 1 ∧
      ∀ i < p.buffer, ∀ e, envp[i]? = some e → ∀ value, ¬ Assigns name e value

/-- Among the entries that begin with the name and are longer, those that assign
a value to it are told by the byte behind the name. -/
theorem exists_assigns_iff :
    (∃ value, Assigns name e value) ↔ Extends name e ∧ e.chars[name.chars.length]? = some 0x3d#8 := by
  constructor
  · rintro ⟨value, h⟩
    unfold Extends
    rw [h]
    simp
  · rintro ⟨⟨⟨tail, htail⟩, -⟩, heq⟩
    rw [← htail, List.getElem?_append_right le_rfl, Nat.sub_self] at heq
    cases tail with
    | nil => cases heq
    | cons c cs =>
      cases heq
      refine ⟨⟨cs, fun hmem => e.nonul ?_⟩, htail.symm⟩
      rw [← htail]
      simp [hmem]

theorem FirstAssignment.unique {envp : List CString} {p q : Option Ptr} (hp : FirstAssignment envp name p)
    (hq : FirstAssignment envp name q) : p = q := by
  cases p with
  | none =>
    cases q with
    | none => rfl
    | some q =>
      obtain ⟨⟨e, value, he, h⟩, -⟩ := hq
      exact absurd h (hp e (List.mem_of_getElem? he) value)
  | some p =>
    obtain ⟨⟨e, value, he, h⟩, hoff, hfirst⟩ := hp
    cases q with
    | none => exact absurd h (hq e (List.mem_of_getElem? he) value)
    | some q =>
      obtain ⟨⟨e', value', he', h'⟩, hoff', hfirst'⟩ := hq
      have hle : q.buffer ≤ p.buffer := by
        by_contra hlt
        exact hfirst' p.buffer (by omega) e he value h
      have hge : p.buffer ≤ q.buffer := by
        by_contra hlt
        exact hfirst q.buffer (by omega) e' he' value' h'
      obtain ⟨pb, po⟩ := p
      obtain ⟨qb, qo⟩ := q
      simp only at hle hge hoff hoff'
      rw [le_antisymm hge hle, hoff, hoff']

/-- An entry that assigns the variable begins with its name, so that without such
an entry there is no assignment. -/
theorem firstAssignment_none {envp : List CString} (hidx : (envp.findIdx? fun e => Extends name e) = none) :
    FirstAssignment envp name none := by
  intro e he value hassigns
  have hext := (exists_assigns_iff.mp ⟨value, hassigns⟩).1
  simpa [hext] using List.findIdx?_eq_none_iff.mp hidx e he

/-- The first such entry is the first assignment when it is one at all. -/
theorem firstAssignment_at_iff {envp : List CString} {k : Nat}
    (hidx : (envp.findIdx? fun e => Extends name e) = some k) {e : CString} (hget : envp[k]? = some e) :
    FirstAssignment envp name (some ⟨k, name.chars.length + 1⟩) ↔ e.chars[name.chars.length]? = some 0x3d#8 := by
  obtain ⟨hk, hext, hbefore⟩ := List.findIdx?_eq_some_iff_getElem.mp hidx
  obtain rfl : envp[k] = e := by simpa [hk] using hget
  constructor
  · rintro ⟨⟨e, value, he, hassigns⟩, -, -⟩
    rw [hget] at he
    cases he
    exact (exists_assigns_iff.mp ⟨value, hassigns⟩).2
  · intro heq
    obtain ⟨value, hassigns⟩ := exists_assigns_iff.mpr ⟨by simpa using hext, heq⟩
    refine ⟨⟨envp[k], value, hget, hassigns⟩, rfl, ?_⟩
    intro i hi e he value' hassigns'
    have hext' := (exists_assigns_iff.mp ⟨value', hassigns'⟩).1
    have hmiss := hbefore i hi
    obtain ⟨hlt, rfl⟩ := List.getElem?_eq_some_iff.mp he
    simp [hext'] at hmiss

/-- `get_env_value` returns the place of the variable's value, of its first
assignment when there are several and NULL when there is none, exactly when the
first entry that begins with the variable's name and is longer, if there is
one, has '=' behind the name. Otherwise that entry belongs to a variable whose
name merely starts so, and the value is taken from it. -/
theorem get_env_value_first_iff (envp : List CString) (name : CString) :
    (∀ r, get_env_value (envp.map CString.bytes) name = .ok r ↔ FirstAssignment envp name r) ↔
      ∀ e ∈ envp.find? fun e => Extends name e, e.chars[name.chars.length]? = some 0x3d#8 := by
  rw [get_env_value_eq (holds_envp envp), List.find?_eq_bind_findIdx?_getElem?]
  -- what is returned is the first assignment, and the only one, if it is an assignment
  have hunique : ∀ p, (∀ r, Outcome.ok p = .ok r ↔ FirstAssignment envp name r) ↔ FirstAssignment envp name p := by
    intro p
    constructor
    · exact fun h => (h p).mp rfl
    · intro hfirst r
      constructor
      · rintro ⟨⟩
        exact hfirst
      · exact fun h => congrArg Outcome.ok (hfirst.unique h)
  rw [hunique]
  cases hidx : envp.findIdx? fun e => Extends name e with
  | none =>
    simp only [Option.map_none, Option.bind_none, Option.mem_def, reduceCtorEq, false_implies, implies_true, iff_true]
    exact firstAssignment_none hidx
  | some k =>
    have hget := List.getElem?_eq_getElem (List.findIdx?_eq_some_iff_getElem.mp hidx).1
    simp only [Option.map_some, Option.bind_some, hget, Option.mem_def, Option.some.injEq, forall_eq']
    exact firstAssignment_at_iff hidx hget

/-- An entry of LD_PRELOAD_X is taken for LD_PRELOAD. -/
theorem get_env_value_takes_other : ¬ ∀ r,
    get_env_value ([CString.lit "LD_PRELOAD_X=/a", .lit "LD_PRELOAD=/b"].map CString.bytes) (.lit "LD_PRELOAD") = .ok r ↔
      FirstAssignment [.lit "LD_PRELOAD_X=/a", .lit "LD_PRELOAD=/b"] (.lit "LD_PRELOAD") r := by
  intro h
  have htaken : get_env_value ([CString.lit "LD_PRELOAD_X=/a", .lit "LD_PRELOAD=/b"].map CString.bytes)
      (.lit "LD_PRELOAD") = .ok (some ⟨0, 11⟩) := by decide +kernel
  obtain ⟨⟨e, value, he, hassigns⟩, -⟩ := (h _).mp htaken
  cases he
  have hother : ¬ (Extends (.lit "LD_PRELOAD") (.lit "LD_PRELOAD_X=/a") ∧
      (CString.lit "LD_PRELOAD_X=/a").chars[(CString.lit "LD_PRELOAD").chars.length]? = some 0x3d#8) := by decide +kernel
  exact hother (exists_assigns_iff.mp ⟨value, hassigns⟩)

end Assignment

end ldso.process
