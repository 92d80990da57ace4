import LdSo.Dependency.Search
import LdSo.Libc.Heap

open cmodel

/-! `concatenate` on the bytes of memory: which of them it looks at, and whether what it
returns is a string. -/

namespace ldso.heap

open dependency

/-- The literal "/" is a block of its own. -/
def concatenate (sys : System) (heap : Heap) (path name : Pointer) (m : Blocks) : Outcome (Pointer × Blocks) := do
  let slash := m.fresh
  let m := m.alloc (CString.lit "/").bytes
  let size := BitVec.ofNat 64 (← strlen m path) + BitVec.ofNat 64 (← strlen m name) + 10
  let (ret, m) ← calloc sys heap size 1 m
  let (_, m) ← memcpy ret path (← strlen m path) m
  let last := BitVec.ofNat 64 (← strlen m ret) - 1
  if (← m.load (ret.add last.toNat)) ≠ 0x2f#8 then do
    let (_, m) ← strcat ret slash m
    strcat ret name m
  else strcat ret name m

variable {sys : System} {heap : Heap} {m : Blocks} {path name : Pointer} {dir file : CString}

/-- The size that is asked for, unless it overflows. -/
theorem size_toNat (n k : Nat) :
    (BitVec.ofNat 64 n + BitVec.ofNat 64 k + 10).toNat * (1 : BitVec 64).toNat = (n + k + 10) % 2 ^ 64 := by
  have hten : (10 : BitVec 64).toNat = 10 := rfl
  have hone : (1 : BitVec 64).toNat = 1 := rfl
  rw [hone, BitVec.toNat_add, BitVec.toNat_add, BitVec.toNat_ofNat, BitVec.toNat_ofNat, hten, Nat.mul_one,
    ← Nat.add_mod, Nat.mod_add_mod]

/-- The last byte of a string, by the index the code computes. -/
theorem load_last {ret : Pointer} (hret : m.Holds ret dir.bytes) (hne : dir.chars ≠ []) (hlen : dir.chars.length < 2 ^ 64) :
    m.load (ret.add (BitVec.ofNat 64 dir.chars.length - 1).toNat) = .ok (dir.chars.getLast hne) := by
  have hpos : 0 < dir.chars.length := List.length_pos_iff.mpr hne
  have hindex : (BitVec.ofNat 64 dir.chars.length - 1).toNat = dir.chars.length - 1 := by
    have hone : (1 : BitVec 64).toNat = 1 := rfl
    rw [BitVec.toNat_sub, BitVec.toNat_ofNat, hone]
    omega
  obtain ⟨rest, hrest⟩ := hret
  rw [hindex, Blocks.load, Blocks.bytes_add, List.head?_drop, ← hrest, CString.bytes, List.append_assoc,
    List.getElem?_append_left (by omega), ← List.getLast?_eq_getElem?, List.getLast?_eq_some_getLast hne,
    Outcome.ofOption_some]

/-- Up to the comparison of the last byte. -/
theorem concatenate_copied (hpath : m.Holds path dir.bytes) (hname : m.Holds name file.bytes)
    (hgranted : Granted sys (dir.chars.length + file.chars.length + 10)) :
    concatenate sys heap path name m = (do
      let m' := (m.alloc (CString.lit "/").bytes).alloc
        (dir.chars ++ List.replicate (file.chars.length + 10) 0#8 ++ heap.slack)
      let ret := (m.alloc (CString.lit "/").bytes).fresh
      if (← m'.load (ret.add (BitVec.ofNat 64 dir.chars.length - 1).toNat)) ≠ 0x2f#8 then do
        let r ← strcat ret m.fresh m'
        strcat ret name r.2
      else strcat ret name m') := by
  have hpath' := hpath.alloc (CString.lit "/").bytes
  have hname' := hname.alloc (CString.lit "/").bytes
  have hlt : dir.chars.length + file.chars.length + 10 < 2 ^ 64 := Nat.lt_trans hgranted.1 (by decide)
  have hsize : (BitVec.ofNat 64 dir.chars.length + BitVec.ofNat 64 file.chars.length + 10).toNat * (1 : BitVec 64).toNat =
      dir.chars.length + (file.chars.length + 10) := by
    rw [size_toNat, Nat.mod_eq_of_lt hlt, Nat.add_assoc]
  have hzeros : List.replicate (dir.chars.length + (file.chars.length + 10)) 0#8 =
      List.replicate dir.chars.length 0#8 ++ List.replicate (file.chars.length + 10) 0#8 :=
    List.replicate_append_replicate.symm
  rw [Nat.add_assoc] at hgranted
  unfold concatenate
  simp only [strlen_of_holds hpath', strlen_of_holds hname', Outcome.ok_bind, calloc_eq, hsize, if_pos hgranted, hzeros,
    List.append_assoc]
  rw [strlen_of_holds (hpath'.alloc _), Outcome.ok_bind, memcpy_fresh hpath' (by simp), Outcome.ok_bind]
  simp only [← List.append_assoc]
  rw [strlen_of_holds (holds_zeros (by omega) _ dir _), Outcome.ok_bind]

/-- A directory's entry: its separator, if one is missing, and the name are appended in
the room that `calloc` cleared. -/
theorem concatenate_eq (hpath : m.Holds path dir.bytes) (hname : m.Holds name file.bytes) (hne : dir.chars ≠ [])
    (hgranted : Granted sys (dir.chars.length + file.chars.length + 10)) :
    ∃ k, 0 < k ∧ concatenate sys heap path name m =
      .ok ((m.alloc (CString.lit "/").bytes).fresh, (m.alloc (CString.lit "/").bytes).alloc
        ((entry file dir).chars ++ List.replicate k 0#8 ++ heap.slack)) := by
  have hlt : dir.chars.length < 2 ^ 64 := Nat.lt_of_le_of_lt (by omega) (Nat.lt_trans hgranted.1 (by decide))
  have hname' := hname.alloc (CString.lit "/").bytes
  rw [concatenate_copied hpath hname hgranted]
  simp only
  rw [load_last (holds_zeros (by omega) _ dir _) hne hlt, Outcome.ok_bind, entry, List.getLast?_eq_some_getLast hne]
  by_cases hslash : dir.chars.getLast hne = 0x2f#8
  · rw [if_neg (not_not.mpr hslash), hslash, if_pos rfl]
    exact ⟨10, by omega, strcat_fresh hname' (by omega) _ _⟩
  · have hroom : 0 < file.chars.length + 9 := by omega
    have hlit := strcat_fresh (m.holds_alloc_fresh (CString.lit "/").bytes) hroom dir heap.slack
    have hlength : (CString.lit "/").chars.length + (file.chars.length + 9) = file.chars.length + 10 := by
      have hone : (CString.lit "/").chars.length = 1 := by decide
      omega
    rw [hlength] at hlit
    rw [if_pos hslash, hlit, Outcome.ok_bind, if_neg (by simpa using hslash)]
    exact ⟨9, by omega, strcat_fresh hname' (by omega) _ _⟩

/-- For an empty path the index wraps around, to a place behind every block. -/
theorem concatenate_empty (hpath : m.Holds path dir.bytes) (hname : m.Holds name file.bytes) (hempty : dir.chars = [])
    (hgranted : Granted sys (dir.chars.length + file.chars.length + 10))
    (hslack : file.chars.length + 10 + heap.slack.length < 2 ^ 64) : concatenate sys heap path name m = .fault := by
  have hindex : (BitVec.ofNat 64 0 - 1).toNat = 2 ^ 64 - 1 := by decide
  rw [concatenate_copied hpath hname hgranted]
  simp only [hempty, List.length_nil, hindex, List.nil_append]
  rw [Blocks.load, Blocks.bytes_add, Blocks.bytes_alloc_fresh, List.drop_eq_nil_of_le]
  · rfl
  · rw [List.length_append, List.length_replicate]
    omega

/-- A run that returns a block was granted what it asked for, and only stored in it. -/
theorem concatenate_eq_ok {m' : Blocks} (hpath : m.Holds path dir.bytes) (hname : m.Holds name file.bytes)
    (h : concatenate sys heap path name m = .ok ((m.alloc (CString.lit "/").bytes).fresh, m')) :
    Granted sys ((dir.chars.length + file.chars.length + 10) % 2 ^ 64) ∧
      ((m.alloc (CString.lit "/").bytes).alloc
        (List.replicate ((dir.chars.length + file.chars.length + 10) % 2 ^ 64) 0#8 ++ heap.slack)).Stored m' := by
  have hpath' := hpath.alloc (CString.lit "/").bytes
  have hname' := hname.alloc (CString.lit "/").bytes
  unfold concatenate at h
  simp only [strlen_of_holds hpath', strlen_of_holds hname', Outcome.ok_bind, calloc_eq, size_toNat] at h
  obtain ⟨⟨ret, m₁⟩, hcalloc, h⟩ := Outcome.bind_eq_ok_iff.mp h
  obtain ⟨n, -, h⟩ := Outcome.bind_eq_ok_iff.mp h
  obtain ⟨⟨copy, m₂⟩, hcopy, h⟩ := Outcome.bind_eq_ok_iff.mp h
  obtain ⟨last, -, h⟩ := Outcome.bind_eq_ok_iff.mp h
  obtain ⟨c, -, h⟩ := Outcome.bind_eq_ok_iff.mp h
  have hstored : (m.alloc (CString.lit "/").bytes).fresh = ret ∧ m₁.Stored m' := by
    obtain ⟨-, hfirst⟩ := memcpy_eq_ok hcopy
    split at h
    · obtain ⟨⟨sep, m₃⟩, hsep, h⟩ := Outcome.bind_eq_ok_iff.mp h
      obtain ⟨hret, hlast⟩ := strcat_eq_ok h
      exact ⟨hret, (hfirst.trans (strcat_eq_ok hsep).2).trans hlast⟩
    · obtain ⟨hret, hlast⟩ := strcat_eq_ok h
      exact ⟨hret, hfirst.trans hlast⟩
  obtain ⟨rfl, hstored⟩ := hstored
  split at hcalloc
  · next hgranted =>
    cases hcalloc
    exact ⟨hgranted, hstored⟩
  · cases hcalloc

/-- An entry is no shorter than its parts. -/
theorem entry_length_le (file dir : CString) : dir.chars.length + file.chars.length ≤ (entry file dir).chars.length := by
  unfold entry
  split
  · simp
  · simp

theorem concatenate_returns (hpath : m.Holds path dir.bytes) (hname : m.Holds name file.bytes) (hne : dir.chars ≠ [])
    (hgranted : Granted sys (dir.chars.length + file.chars.length + 10)) :
    Returns heap (m.alloc (CString.lit "/").bytes) (entry file dir) (concatenate sys heap path name m) := by
  obtain ⟨k, hk, hrun⟩ := concatenate_eq hpath hname hne hgranted
  exact ⟨_, hrun, CString.bytes_prefix_zeros _ hk⟩

/-- Exactly when a path and a name are put together, whatever the heap holds. One of the
heaps has nothing behind the bytes asked for, so that no other byte is looked at. -/
theorem concatenate_returns_iff (sys : System) {m : Blocks} {path name : Pointer} {dir file : CString}
    (hpath : m.Holds path dir.bytes) (hname : m.Holds name file.bytes) :
    (∀ heap, Returns heap (m.alloc (CString.lit "/").bytes) (entry file dir) (concatenate sys heap path name m)) ↔
      dir.chars ≠ [] ∧ Granted sys (dir.chars.length + file.chars.length + 10) := by
  constructor
  · intro hreturns
    obtain ⟨requested, hrun, hbytes⟩ := hreturns .exact
    obtain ⟨hgranted, hstored⟩ := concatenate_eq_ok hpath hname hrun
    have hroom := hbytes.length_le
    have hentry := entry_length_le file dir
    rw [requested_length hstored, CString.bytes, List.length_append, List.length_singleton] at hroom
    have hlt : dir.chars.length + file.chars.length + 10 < 2 ^ 64 := by omega
    rw [Nat.mod_eq_of_lt hlt] at hgranted
    refine ⟨?_, hgranted⟩
    intro hempty
    rw [concatenate_empty hpath hname hempty hgranted] at hrun
    · cases hrun
    · rw [Heap.exact, List.length_nil]
      omega
  · rintro ⟨hne, hgranted⟩ heap
    exact concatenate_returns hpath hname hne hgranted

/-- A path and a name in memory. -/
def arguments (dir file : CString) : Blocks := [dir.bytes, file.bytes]

theorem concatenate_returns_lib :
    Returns .exact ((arguments (.lit "/lib") (.lit "f")).alloc (CString.lit "/").bytes) (entry (.lit "f") (.lit "/lib"))
      (concatenate (.of_files []) .exact (.place 0 0) (.place 1 0) (arguments (.lit "/lib") (.lit "f"))) :=
  (concatenate_returns_iff (.of_files []) (by decide) (by decide)).mpr (by decide) .exact

/-- A list with two separators in a row has an empty directory, and for that one the byte
before the buffer is looked at. -/
theorem concatenate_empty_directory :
    CString.lit "" ∈ string.strtok_tokens (.lit "a::b") delimiters ∧
    concatenate (.of_files []) .exact (.place 0 0) (.place 1 0) (arguments (.lit "") (.lit "f")) = .fault ∧
    ¬ ∀ heap, Returns heap ((arguments (.lit "") (.lit "f")).alloc (CString.lit "/").bytes) (entry (.lit "f") (.lit ""))
      (concatenate (.of_files []) heap (.place 0 0) (.place 1 0) (arguments (.lit "") (.lit "f"))) := by
  have hpath : (arguments (.lit "") (.lit "f")).Holds (.place 0 0) (CString.lit "").bytes := by decide
  have hname : (arguments (.lit "") (.lit "f")).Holds (.place 1 0) (CString.lit "f").bytes := by decide
  have hfault : concatenate (.of_files []) .exact (.place 0 0) (.place 1 0) (arguments (.lit "") (.lit "f")) = .fault :=
    concatenate_empty hpath hname (by decide) (by decide) (by decide)
  refine ⟨by decide, hfault, ?_⟩
  intro h
  obtain ⟨requested, hrun, -⟩ := h .exact
  rw [hfault] at hrun
  cases hrun

/-- On strings alone this is `dependency.concatenate`. -/
theorem concatenate_string_eq (hpath : m.Holds path dir.bytes) (hname : m.Holds name file.bytes)
    (hgranted : Granted sys (dir.chars.length + file.chars.length + 10))
    (hslack : file.chars.length + 10 + heap.slack.length < 2 ^ 64) :
    (concatenate sys heap path name m >>= fun r => r.2.string r.1) = dependency.concatenate dir file := by
  by_cases hempty : dir.chars = []
  · rw [concatenate_empty hpath hname hempty hgranted hslack, dependency.concatenate, hempty]
    rfl
  · rw [(concatenate_returns hpath hname hempty hgranted).string_eq, dependency.concatenate_eq hempty]

end ldso.heap
