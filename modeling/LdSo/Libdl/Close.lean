import LdSo.Libdl
import LdSo.Loader.Reserve

open cmodel

namespace ldso

open elf elf_manipulation loader utility

/-- No PT_NULL header stands in front of the first PT_LOAD header. -/
def NoNullFirst (phdrs : List Phdr) : Prop := ∀ p ∈ phdrs.takeWhile (·.p_type ≠ PT_LOAD), p.p_type ≠ PT_NULL

instance (phdrs : List Phdr) : Decidable (NoNullFirst phdrs) := inferInstanceAs (Decidable (∀ p ∈ _, _))

/-- The pages that the file asks for, from the first PT_LOAD header to the end of
the file part of the header behind the run of PT_LOAD headers. -/
def asked (first prog : Phdr) : Region 64 :=
  ⟨first.p_vaddr, unistd.page_ceil (prog.p_vaddr + prog.p_filesz - first.p_vaddr).toNat⟩

/-- `_dlclose` comes to the first PT_LOAD header, this one asks for the start of a page,
and the pages the file asks for are those that are mapped at `l_addr`: the object
lies where the file asks for, and no page more is needed there; or they are all
that there are. -/
def Program.Closes (o : Program) (l_addr : elf_addr) : Prop :=
  NoNullFirst o.phdrs ∧ ∃ first prog, o.reserved = some (first, prog) ∧ first.p_vaddr.toNat % 4096 = 0 ∧
    (asked first prog).size = (o.mapping l_addr).size ∧ (ALIGN l_addr = 0 ∨ (asked first prog).size = 2 ^ 64)

namespace libdl

variable {sys : System} {heap : Heap} {handle : Nat} {map : LinkMap} {o : Program}

/-- In every memory that has the range mapped, `_dlclose` of the handle unmaps
exactly the range. -/
def Unmaps (sys : System) (heap : Heap) (handle : Nat) (r : Region 64) : Prop :=
  ∀ mem, (∀ a, r.Contains a → (mem a).isSome = true) →
    ∃ res heap', _dlclose sys ⟨heap, mem⟩ handle = .ok (res, ⟨heap', mem.munmap r⟩)

theorem noNullFirst_cons {p : Phdr} {rest : List Phdr} (hp : p.p_type ≠ PT_LOAD) :
    NoNullFirst (p :: rest) ↔ p.p_type ≠ PT_NULL ∧ NoNullFirst rest := by
  unfold NoNullFirst
  rw [List.takeWhile_cons_of_pos (by simpa using hp), List.forall_mem_cons]

/-- The scan for the first PT_LOAD header. -/
theorem skip_to_load_eq (phdrs : List Phdr) (hload : (phdrs.dropWhile fun p => p.p_type ≠ PT_LOAD) ≠ []) :
    skip_to_load phdrs = .ok (if NoNullFirst phdrs then some (phdrs.dropWhile fun p => p.p_type ≠ PT_LOAD) else none) := by
  induction phdrs with
  | nil => exact absurd rfl hload
  | cons p rest ih =>
    rw [skip_to_load]
    by_cases hp : p.p_type = PT_LOAD
    · simp [NoNullFirst, hp]
    · rw [List.dropWhile_cons_of_pos (by simpa using hp)] at hload
      rw [if_neg hp, List.dropWhile_cons_of_pos (by simpa using hp)]
      by_cases hnull : p.p_type = PT_NULL
      · rw [if_pos hnull, if_neg fun h => ((noNullFirst_cons hp).mp h).1 hnull]
      · rw [if_neg hnull, ih hload]
        simp only [noNullFirst_cons hp, hnull, ne_eq, not_false_eq_true, true_and]

theorem reserved_headers {first prog : Phdr} (h : o.reserved = some (first, prog)) :
    (o.phdrs.dropWhile fun p => p.p_type ≠ PT_LOAD).head? = some first ∧
      ((o.phdrs.dropWhile fun p => p.p_type ≠ PT_LOAD).dropWhile fun p => p.p_type = PT_LOAD).head? = some prog := by
  unfold Program.reserved at h
  dsimp only at h
  split at h
  · next hfirst hprog =>
    cases h
    exact ⟨hfirst, hprog⟩
  · cases h

/-- What `_dlclose` does with the handle of an object: the range it passes to
`munmap` does not depend on where the object lies. -/
theorem _dlclose_of_reserved {first prog : Phdr} (hmap : heap[handle]? = some map) (hdisk : o.OnDisk sys map.l_name)
    (hreserved : o.reserved = some (first, prog)) (mem : Memory 64) :
    _dlclose sys ⟨heap, mem⟩ handle = .ok (
      if NoNullFirst o.phdrs then
        (0, ⟨heap.unlink handle, (unistd.munmap mem first.p_vaddr (prog.p_vaddr + prog.p_filesz - first.p_vaddr).toNat).2⟩)
      else (1, ⟨heap, mem⟩)) := by
  obtain ⟨hfirst, hprog⟩ := reserved_headers hreserved
  have hload : (o.phdrs.dropWhile fun p => p.p_type ≠ PT_LOAD) ≠ [] := by
    intro hnil
    rw [hnil] at hfirst
    cases hfirst
  rw [_dlclose]
  simp only [hmap, Outcome.ofOption_some, Outcome.ok_bind, hdisk.ehdr, hdisk.phdrs, skip_to_load_eq _ hload]
  split
  · next phdr hnone =>
    split at hnone
    · cases hnone
    · next hnull =>
      rw [if_neg hnull]
      rfl
  · next phdr hsome =>
    split at hsome
    · next hnull =>
      cases hsome
      rw [if_pos hnull]
      simp only [hfirst, hprog, Outcome.ofOption_some, Outcome.ok_bind]
      unfold unistd.munmap
      split <;> rfl
    · cases hsome

theorem page_floor_add_eq_iff {v l : Nat} (hv : v % 4096 = 0) (hv' : v < 2 ^ 64) (hl : l < 2 ^ 64) :
    page_floor ((v + l) % 2 ^ 64) = v ↔ page_floor l = 0 := by
  unfold page_floor
  omega

/-- The object's first page is the one that the file asks for when it is loaded in the first page. -/
theorem ALIGN_add_eq_iff {v l : elf_addr} (hv : v.toNat % 4096 = 0) : ALIGN (v + l) = v ↔ ALIGN l = 0 := by
  have hzero : (0 : elf_addr).toNat = 0 := rfl
  rw [← BitVec.toNat_inj, ← BitVec.toNat_inj, toNat_ALIGN, toNat_ALIGN, BitVec.toNat_add, hzero]
  exact page_floor_add_eq_iff hv v.isLt l.isLt

theorem page_ceil_le (n : elf_addr) : unistd.page_ceil n.toNat ≤ 2 ^ 64 := by
  have hn := n.isLt
  unfold unistd.page_ceil
  omega

/-- What a successful `allocate_map` says about the range: there are both headers, and some page is mapped. -/
theorem allocate_map_mapping {m m' : Memory 64} {l_addr ret : elf_addr}
    (h : allocate_map sys m o.phdrs l_addr = .ok (ret, m')) :
    ∃ first prog, o.reserved = some (first, prog) ∧ (o.mapping l_addr).size ≠ 0 := by
  cases hreserved : o.reserved with
  | none =>
    rw [allocate_map_not_reserved hreserved] at h
    cases h
  | some headers =>
    obtain ⟨first, prog⟩ := headers
    refine ⟨first, prog, rfl, fun hzero => ?_⟩
    rw [mapping_eq hreserved] at hzero
    rw [allocate_map_of_reserved hreserved, unistd.mmap, if_pos (.inl (page_ceil_eq_zero.mp hzero))] at h
    cases h

/-- When the file asks for the pages that were mapped. -/
theorem same_range_iff {first prog : Phdr} {l_addr : elf_addr} (hreserved : o.reserved = some (first, prog))
    (haligned : first.p_vaddr.toNat % 4096 = 0) (hmapped : (o.mapping l_addr).size ≠ 0)
    (hasked : (asked first prog).size ≠ 0) :
    (∀ a, (asked first prog).Contains a ↔ (o.mapping l_addr).Contains a) ↔
      (asked first prog).size = (o.mapping l_addr).size ∧ (ALIGN l_addr = 0 ∨ (asked first prog).size = 2 ^ 64) := by
  have hle : (o.mapping l_addr).size ≤ 2 ^ 64 := by
    rw [mapping_eq hreserved]
    exact page_ceil_le _
  have hbase : (asked first prog).base = (o.mapping l_addr).base ↔ ALIGN l_addr = 0 := by
    rw [mapping_eq hreserved, eq_comm]
    exact ALIGN_add_eq_iff haligned
  rw [Region.same_iff hasked hmapped (page_ceil_le _) hle, hbase]

section Unmaps

variable {first prog : Phdr}

/-- Whatever range it is to unmap, `_dlclose` has to come to its call of `munmap`, and this to succeed. -/
theorem Unmaps.called (hmap : heap[handle]? = some map) (hdisk : o.OnDisk sys map.l_name)
    (hreserved : o.reserved = some (first, prog)) {r : Region 64} (hr : r.size ≠ 0) (h : Unmaps sys heap handle r) :
    NoNullFirst o.phdrs ∧ first.p_vaddr.toNat % 4096 = 0 ∧ (asked first prog).size ≠ 0 := by
  -- a memory that has every page
  obtain ⟨res, heap', hres⟩ := h (fun _ => some ⟨0, ⟨true, true, true⟩⟩) fun _ _ => rfl
  have hgone : r.Contains r.base := by
    rw [Region.Contains, sub_self]
    exact Nat.pos_of_ne_zero hr
  rw [_dlclose_of_reserved hmap hdisk hreserved] at hres
  have hpage := congrFun (congrArg (fun r => r.2.mem) (Outcome.ok.inj hres)) r.base
  simp only [Memory.munmap, if_pos hgone] at hpage
  by_cases hnull : NoNullFirst o.phdrs
  · rw [if_pos hnull, unistd.munmap] at hpage
    split at hpage
    · cases hpage
    · next hok =>
      rw [not_or, not_not] at hok
      exact ⟨hnull, hok.1, page_ceil_eq_zero.not.mpr hok.2⟩
  · rw [if_neg hnull] at hpage
    cases hpage

/-- Then it unmaps what the file asks for. -/
theorem unmaps_iff (hmap : heap[handle]? = some map) (hdisk : o.OnDisk sys map.l_name)
    (hreserved : o.reserved = some (first, prog))
    (hnull : NoNullFirst o.phdrs) (haligned : first.p_vaddr.toNat % 4096 = 0) (hasked : (asked first prog).size ≠ 0)
    {r : Region 64} :
    Unmaps sys heap handle r ↔ ∀ a, (asked first prog).Contains a ↔ r.Contains a := by
  have hok : ¬ (first.p_vaddr.toNat % 4096 ≠ 0 ∨ (prog.p_vaddr + prog.p_filesz - first.p_vaddr).toNat = 0) := by
    rw [not_or, not_not]
    exact ⟨haligned, page_ceil_eq_zero.not.mp hasked⟩
  rw [← Memory.munmap_eq_iff]
  apply forall_congr'
  intro mem
  apply imp_congr_right
  intro _
  rw [_dlclose_of_reserved hmap hdisk hreserved, if_pos hnull, unistd.munmap, if_neg hok]
  constructor
  · rintro ⟨res, heap', hres⟩
    exact congrArg (fun r => r.2.mem) (Outcome.ok.inj hres)
  · intro hsame
    exact ⟨0, heap.unlink handle, by rw [← hsame]; rfl⟩

end Unmaps

/-- For every object that was loaded: `_dlclose` of its handle unmaps exactly the
pages that `allocate_map` mapped for it if and only if the object closes. -/
theorem _dlclose_unmaps_iff {m m' : Memory 64} {ret : elf_addr} (hmap : heap[handle]? = some map)
    (hdisk : o.OnDisk sys map.l_name) (hload : allocate_map sys m o.phdrs map.l_addr = .ok (ret, m')) :
    Unmaps sys heap handle (o.mapping map.l_addr) ↔ o.Closes map.l_addr := by
  obtain ⟨first, prog, hreserved, hmapped⟩ := allocate_map_mapping hload
  constructor
  · intro hunmaps
    obtain ⟨hnull, haligned, hasked⟩ := hunmaps.called hmap hdisk hreserved hmapped
    have hsame := (unmaps_iff hmap hdisk hreserved hnull haligned hasked).mp hunmaps
    exact ⟨hnull, first, prog, hreserved, haligned, (same_range_iff hreserved haligned hmapped hasked).mp hsame⟩
  · rintro ⟨hnull, first', prog', hreserved', haligned, hrange⟩
    rw [hreserved] at hreserved'
    cases hreserved'
    have hasked : (asked first prog).size ≠ 0 := hrange.1 ▸ hmapped
    apply (unmaps_iff hmap hdisk hreserved hnull haligned hasked).mpr
    exact (same_range_iff hreserved haligned hmapped hasked).mpr hrange

section Sample

/-- An executable where its file asks for, and a library behind it. -/
def closing_heap : Heap := [⟨0, .lit "/a", none, some 1, none⟩, ⟨0x403000, .lit "/l", none, none, some 0⟩]

theorem closing_on_disk : small_exe.OnDisk (exe_and_lib_sys small_exe) (.lit "/a") ∧
    lib.OnDisk (exe_and_lib_sys small_exe) (.lit "/l") := by
  have hfiles := exe_and_lib_files.on_disk
  exact ⟨hfiles (.lit "/a") (by simp), hfiles (.lit "/l") (by simp)⟩

/-- The executable's pages are unmapped. -/
theorem _dlclose_at_zero : Unmaps (exe_and_lib_sys small_exe) closing_heap 0 (small_exe.mapping 0) := by
  have hload : ∃ ret m', allocate_map (exe_and_lib_sys small_exe) (fun _ => none) small_exe.phdrs 0 = .ok (ret, m') := ⟨_, _, rfl⟩
  obtain ⟨ret, m', hload⟩ := hload
  have hmap : closing_heap[0]? = some ⟨0, .lit "/a", none, some 1, none⟩ := rfl
  apply (_dlclose_unmaps_iff hmap closing_on_disk.1 hload).mpr
  exact ⟨by decide +kernel, _, _, rfl, by decide +kernel, by decide +kernel, .inl (by decide +kernel)⟩

/-- Those of the library stay mapped. -/
theorem _dlclose_above_zero :
    (∃ ret m', allocate_map (exe_and_lib_sys small_exe) (fun _ => none) lib.phdrs 0x403000 = .ok (ret, m')) ∧
      ¬ Unmaps (exe_and_lib_sys small_exe) closing_heap 1 (lib.mapping 0x403000) := by
  refine ⟨⟨_, _, rfl⟩, fun hunmaps => ?_⟩
  have hmap : closing_heap[1]? = some ⟨0x403000, .lit "/l", none, none, some 0⟩ := rfl
  have hsame := (unmaps_iff hmap closing_on_disk.2 rfl (by decide +kernel) (by decide +kernel) (by decide +kernel)).mp
    hunmaps 0x403000
  revert hsame
  decide +kernel

end Sample

end libdl

end ldso
