import LdSo.SymbolResolution.Lookup

open cmodel

namespace ldso.symbol_resolution

open elf

variable {sys : System} {m : Memory 64} {next : LinkMap} {o : ObjectFile} {name : CString} {type : BitVec 64}

/-- The dynamic section ends, and no entry before its end has the type. -/
def Lacks (type : BitVec 64) (dynamic : List Dyn) : Prop :=
  ∃ entries null rest, dynamic = entries ++ null :: rest ∧ null.d_tag = DT_NULL ∧ ∀ d ∈ entries, d.d_tag ≠ type

theorem find_dyn_of_lacks {dynamic : List Dyn} (h : Lacks type dynamic) : find_dyn type dynamic = .ok 0 := by
  obtain ⟨entries, null, rest, rfl, hnull, hlacks⟩ := h
  induction entries with
  | nil => simp [find_dyn, hnull]
  | cons d entries ih =>
    have hd := hlacks d (by simp)
    rw [List.cons_append, find_dyn, if_neg hd, ih fun d hd => hlacks d (by simp [hd])]
    split <;> rfl

/-- The first word of a table is read before anything else is. -/
theorem gnu_table_search_unmapped (symtab : List Sym) (strtab : Option (List Byte)) (l_addr : elf_addr) (size : Nat)
    (hashtab : elf_addr) : gnu_table_search (fun _ => none) symtab strtab name l_addr size hashtab = .fault := by
  simp [gnu_table_search, Memory.loadWord, Memory.load, Memory.byte]

theorem hash_table_search_unmapped (symtab : List Sym) (strtab : Option (List Byte)) (l_addr : elf_addr) (size : Nat)
    (hashtab : elf_addr) : hash_table_search (fun _ => none) symtab strtab name l_addr size hashtab = .fault := by
  simp [hash_table_search, Memory.loadWord, Memory.load, Memory.byte]

/-- Without a GNU table the object is skipped, whatever the memory holds, at
`l_addr` 0 only. -/
theorem gnu_hash_lookup_skips_iff (ho : o.OnDisk sys next.l_name) (hlacks : Lacks DT_GNU_HASH (dyns o.dynamic)) :
    (∀ m, gnu_hash_lookup sys m next name = .ok 0) ↔ next.l_addr = 0 := by
  have hdyn := find_dyn_of_lacks hlacks
  constructor
  · intro h
    by_contra hne
    have hfault := h fun _ => none
    rw [gnu_hash_lookup_eq_search ho hdyn (by simpa using hne), gnu_table_search_unmapped] at hfault
    cases hfault
  · intro hzero m
    exact gnu_hash_lookup_null ho hdyn (by simp [hzero]) name

theorem hash_lookup_skips_iff (ho : o.OnDisk sys next.l_name) (hlacks : Lacks DT_HASH (dyns o.dynamic)) :
    (∀ m, hash_lookup sys m next name = .ok 0) ↔ next.l_addr = 0 := by
  have hdyn := find_dyn_of_lacks hlacks
  constructor
  · intro h
    by_contra hne
    have hfault := h fun _ => none
    rw [hash_lookup_eq_search ho hdyn (by simpa using hne), hash_table_search_unmapped] at hfault
    cases hfault
  · intro hzero m
    exact hash_lookup_null ho hdyn (by simp [hzero]) name

theorem object_lookup_of_gnu_skip (h : gnu_hash_lookup sys m next name = .ok 0) :
    object_lookup sys m next name = hash_lookup sys m next name := by
  rw [object_lookup, h, Outcome.ok_bind]
  exact if_neg fun hne => hne rfl

theorem object_lookup_of_sysv_skip (h : hash_lookup sys m next name = .ok 0) :
    object_lookup sys m next name = gnu_hash_lookup sys m next name := by
  rw [object_lookup, h]
  cases gnu_hash_lookup sys m next name with
  | ok res =>
    rw [Outcome.ok_bind]
    by_cases hres : res = 0
    · rw [if_neg fun hne => hne hres, hres]
    · exact if_pos hres
  | exit code => rfl
  | fault => rfl
  | diverge => rfl

/-- A table that an object does not have is passed over, without a look at the
memory, and the other one searched alone, exactly when the object is at 0: the
NULL of a missing table is told from an address only after `l_addr` was added. -/
theorem missing_table_skipped_iff (ho : o.OnDisk sys next.l_name) (name : CString) :
    (Lacks DT_GNU_HASH (dyns o.dynamic) →
      ((∀ m, gnu_hash_lookup sys m next name = .ok 0 ∧
          object_lookup sys m next name = hash_lookup sys m next name) ↔ next.l_addr = 0)) ∧
    (Lacks DT_HASH (dyns o.dynamic) →
      ((∀ m, hash_lookup sys m next name = .ok 0 ∧
          object_lookup sys m next name = gnu_hash_lookup sys m next name) ↔ next.l_addr = 0)) := by
  constructor
  · intro hlacks
    rw [← @gnu_hash_lookup_skips_iff _ _ _ name ho hlacks]
    exact ⟨fun h m => (h m).1, fun h m => ⟨h m, object_lookup_of_gnu_skip (h m)⟩⟩
  · intro hlacks
    rw [← @hash_lookup_skips_iff _ _ _ name ho hlacks]
    exact ⟨fun h m => (h m).1, fun h m => ⟨h m, object_lookup_of_sysv_skip (h m)⟩⟩

/-- An object with a SysV table and no GNU table. -/
def sysv_only : ObjectFile := .single (.lit "f") 7 0x40 [⟨DT_HASH, 0x300⟩, ⟨DT_NULL, 0⟩]

def sysv_only_sys : System := .of_files [(.lit "a.so", sysv_only.content)]

theorem sysv_only_on_disk : sysv_only.OnDisk sysv_only_sys (.lit "a.so") := by
  decide +kernel

theorem sysv_only_lacks : Lacks DT_GNU_HASH (dyns sysv_only.dynamic) := by
  refine ⟨[⟨DT_HASH, 0x300⟩], ⟨DT_NULL, 0⟩, [], dyns_encode _, rfl, ?_⟩
  decide

/-- An executable at 0 is searched through its one table. -/
theorem missing_table_skipped_at_zero :
    gnu_hash_lookup sysv_only_sys (fun _ => none) ⟨0, .lit "a.so", none, none, none⟩ (.lit "f") = .ok 0 ∧
    object_lookup sysv_only_sys (fun _ => none) ⟨0, .lit "a.so", none, none, none⟩ (.lit "f") =
      hash_lookup sysv_only_sys (fun _ => none) ⟨0, .lit "a.so", none, none, none⟩ (.lit "f") :=
  ((@missing_table_skipped_iff sysv_only_sys ⟨0, .lit "a.so", none, none, none⟩ sysv_only sysv_only_on_disk
    (.lit "f")).1 sysv_only_lacks).mpr rfl fun _ => none

/-- A library that was loaded at 0x1000 is searched through a table that begins
with its ELF header, whose padding is taken for the size of the Bloom filter: the
process dies of a division by zero. -/
theorem missing_table_divides :
    sysv_only.OnDisk sysv_only_sys (.lit "a.so") ∧ Lacks DT_GNU_HASH (dyns sysv_only.dynamic) ∧
    gnu_hash_lookup sysv_only_sys
      ((Memory.mmap (fun _ => none) ⟨0x1000, 0x1000⟩ ⟨true, false, true⟩).put 0x1000 (sysv_only.content.take 64))
      ⟨0x1000, .lit "a.so", none, none, none⟩ (.lit "f") = .fault :=
  ⟨sysv_only_on_disk, sysv_only_lacks, by decide +kernel⟩

end ldso.symbol_resolution
