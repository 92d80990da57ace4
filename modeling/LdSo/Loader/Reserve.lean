import LdSo.Loader.Separation

open cmodel

namespace ldso

open elf loader

/-- What `allocate_map` asks the system for: an address and a length. -/
def Program.request (o : Program) (l_addr : elf_addr) : Option (elf_addr × Nat) :=
  o.reserved.map fun (first, prog) =>
    let page := ALIGN (first.p_vaddr + l_addr)
    (page, (prog.p_vaddr + prog.p_filesz + l_addr - page).toNat)

/-- A header follows the run of PT_LOAD headers that the first one starts, and
from the page of the first one, the pages up to the end of its file part are not
none, stay below the end of user memory and reach the end of every PT_LOAD segment. -/
def Program.Reserves (o : Program) (l_addr : elf_addr) (user_end : Nat) : Prop :=
  ∃ page len, o.request l_addr = some (page, len) ∧
    unistd.page_ceil len ≠ 0 ∧ page.toNat + unistd.page_ceil len ≤ user_end ∧
    ∀ p ∈ o.loads, p.p_memsz.toNat = 0 ∨ (p.p_vaddr + l_addr - page).toNat + p.p_memsz.toNat ≤ unistd.page_ceil len

namespace loader

variable {sys : System} {m : Memory 64} {o : Program} {l_addr : elf_addr}

theorem page_ceil_eq_zero {n : Nat} : unistd.page_ceil n = 0 ↔ n = 0 := by
  unfold unistd.page_ceil
  omega

theorem mapping_eq {first prog : Phdr} (h : o.reserved = some (first, prog)) :
    o.mapping l_addr = ⟨ALIGN (first.p_vaddr + l_addr),
      unistd.page_ceil (prog.p_vaddr + prog.p_filesz + l_addr - ALIGN (first.p_vaddr + l_addr)).toNat⟩ := by
  have hsize : prog.p_vaddr + prog.p_filesz - first.p_vaddr + (first.p_vaddr + l_addr) = prog.p_vaddr + prog.p_filesz + l_addr := by
    ring
  rw [Program.mapping, h, Option.elim_some]
  simp only [hsize]

/-- Without one of the two headers the loader reads beyond the table; with both,
the request is for the mapping's range. -/
theorem allocate_map_of_reserved {first prog : Phdr} (h : o.reserved = some (first, prog)) :
    allocate_map sys m o.phdrs l_addr =
      match unistd.mmap sys m (ALIGN (first.p_vaddr + l_addr))
          (prog.p_vaddr + prog.p_filesz + l_addr - ALIGN (first.p_vaddr + l_addr)).toNat ⟨true, true, true⟩ with
      | none => .exit 1
      | some m => .ok (ALIGN (first.p_vaddr + l_addr), m) := by
  have hsize : prog.p_vaddr + prog.p_filesz - first.p_vaddr + (first.p_vaddr + l_addr) = prog.p_vaddr + prog.p_filesz + l_addr := by
    ring
  unfold Program.reserved at h
  dsimp only at h
  split at h
  · next hfirst hprog =>
    cases h
    simp only [allocate_map, hfirst, hprog, Outcome.ofOption_some, Outcome.ok_bind, hsize]
    rfl
  · cases h

theorem allocate_map_not_reserved (h : o.reserved = none) : allocate_map sys m o.phdrs l_addr = .fault := by
  unfold Program.reserved at h
  dsimp only at h
  split at h
  · cases h
  · next hmissing =>
    unfold allocate_map
    dsimp only
    cases hfirst : (o.phdrs.dropWhile fun p => p.p_type ≠ PT_LOAD).head? with
    | none => rfl
    | some first =>
      cases hprog : ((o.phdrs.dropWhile fun p => p.p_type ≠ PT_LOAD).dropWhile fun p => p.p_type = PT_LOAD).head? with
      | none => rfl
      | some prog => exact absurd hprog (hmissing first prog hfirst)

theorem reserved_of_request {page : elf_addr} {len : Nat} (h : o.request l_addr = some (page, len)) :
    ∃ first prog, o.reserved = some (first, prog) ∧ page = ALIGN (first.p_vaddr + l_addr) ∧
      len = (prog.p_vaddr + prog.p_filesz + l_addr - page).toNat := by
  obtain ⟨⟨first, prog⟩, hreserved, heq⟩ := Option.map_eq_some_iff.mp h
  obtain ⟨rfl, rfl⟩ := Prod.mk.inj heq
  exact ⟨first, prog, hreserved, rfl, rfl⟩

theorem mapping_of_request {page : elf_addr} {len : Nat} (h : o.request l_addr = some (page, len)) :
    o.mapping l_addr = ⟨page, unistd.page_ceil len⟩ := by
  obtain ⟨first, prog, hreserved, rfl, rfl⟩ := reserved_of_request h
  exact mapping_eq hreserved

theorem allocate_map_of_request {page : elf_addr} {len : Nat} (h : o.request l_addr = some (page, len)) :
    allocate_map sys m o.phdrs l_addr =
      match unistd.mmap sys m page len ⟨true, true, true⟩ with
      | none => .exit 1
      | some m => .ok (page, m) := by
  obtain ⟨first, prog, hreserved, rfl, rfl⟩ := reserved_of_request h
  exact allocate_map_of_reserved hreserved

/-- For every table, when the system grants the request exactly if it lies below
`user_end`: `allocate_map` stays within the table and every segment lies in zeroed
memory that it mapped, if and only if the header behind the first run of PT_LOAD
headers ends as high as they all do. -/
theorem allocate_map_covers_iff {user_end : Nat} (huser : user_end < 2 ^ 64) (o : Program) (l_addr : elf_addr)
    (hsys : ∀ page len, o.request l_addr = some (page, len) →
      (sys.mmap page len = true ↔ page.toNat + unistd.page_ceil len ≤ user_end)) :
    (∀ m, ∃ ret m', allocate_map sys m o.phdrs l_addr = .ok (ret, m') ∧
      ∀ p ∈ o.loads, ∀ x, (Program.segment p l_addr).Contains x → m' x = some ⟨0, ⟨true, true, true⟩⟩) ↔
    o.Reserves l_addr user_end := by
  constructor
  · intro h
    obtain ⟨ret, m', hok, hzero⟩ := h fun _ => none
    cases hrequest : o.request l_addr with
    | none =>
      rw [allocate_map_not_reserved (Option.map_eq_none_iff.mp hrequest)] at hok
      cases hok
    | some asked =>
      obtain ⟨page, len⟩ := asked
      have hm' := allocate_map_eq_ok hok
      rw [allocate_map_of_request hrequest, unistd.mmap] at hok
      by_cases hasked : len = 0 ∨ sys.mmap page len = false
      · rw [if_pos hasked] at hok
        cases hok
      · obtain ⟨hlen, hgrant⟩ := not_or.mp hasked
        have hend := (hsys page len hrequest).mp (by simpa using hgrant)
        refine ⟨page, len, hrequest, page_ceil_eq_zero.not.mpr hlen, hend, fun p hp => ?_⟩
        have hcontains : ∀ x, (Program.segment p l_addr).Contains x → (o.mapping l_addr).Contains x := by
          intro x hx
          by_contra hout
          have hmapped := hzero p hp x hx
          rw [hm', Memory.mmap, if_neg hout] at hmapped
          cases hmapped
        rw [mapping_of_request hrequest] at hcontains
        obtain hnone | hall | hreach := Region.subset_iff.mp hcontains
        · exact Or.inl hnone
        · have hall : 2 ^ 64 ≤ unistd.page_ceil len := hall
          omega
        · exact Or.inr hreach
  · rintro ⟨page, len, hrequest, hsize, hend, hreach⟩ m
    have hgrant := (hsys page len hrequest).mpr hend
    refine ⟨page, m.mmap (o.mapping l_addr) ⟨true, true, true⟩, ?_, ?_⟩
    · rw [allocate_map_of_request hrequest, unistd.mmap,
        if_neg (not_or.mpr ⟨page_ceil_eq_zero.not.mp hsize, by simp [hgrant]⟩), mapping_of_request hrequest]
    · intro p hp x hx
      refine if_pos ?_
      rw [mapping_of_request hrequest]
      exact Region.subset_iff.mpr ((hreach p hp).imp_right Or.inr) x hx

/-- A text segment, a data segment with this much memory, and the dynamic section
inside the latter. -/
def with_bss (p_memsz : BitVec 64) : List Phdr :=
  [⟨PT_LOAD, 5, 0, 0, 0x100, 0x100⟩, ⟨PT_LOAD, 6, 0x100, 0x1000, 0x100, p_memsz⟩,
    ⟨PT_DYNAMIC, 6, 0x110, 0x1010, 0x20, 0x20⟩]

/-- A system that grants what lies below the usual end of user memory. -/
def user_sys : System := { System.of_files [] with mmap := fun addr len => addr.toNat + unistd.page_ceil len ≤ 0x7ffffffff000 }

/-- A .bss that ends on the page the dynamic section lies in is mapped. -/
theorem allocate_map_small_bss :
    ∃ ret m', allocate_map user_sys (fun _ => none) (with_bss 0x200) 0x10000 = .ok (ret, m') ∧
      m' 0x111ff = some ⟨0, ⟨true, true, true⟩⟩ := by
  have hreserves : (of_phdrs (with_bss 0x200) (by decide +kernel)).Reserves 0x10000 0x7ffffffff000 :=
    ⟨_, _, rfl, by decide +kernel, by decide +kernel, by decide +kernel⟩
  obtain ⟨ret, m', hok, hzero⟩ :=
    (@allocate_map_covers_iff user_sys 0x7ffffffff000 (by decide) _ _ fun page len _ => by simp [user_sys]).mpr hreserves
      fun _ => none
  exact ⟨ret, m', hok, hzero ⟨PT_LOAD, 6, 0x100, 0x1000, 0x100, 0x200⟩ (by decide +kernel) _ (by decide +kernel)⟩

/-- The pages of a larger .bss behind the dynamic section are not. -/
theorem allocate_map_large_bss :
    (of_phdrs (with_bss 0x3000) (by decide +kernel)).WellFormed ∧
    ∃ ret m', allocate_map (.of_files []) (fun _ => none) (with_bss 0x3000) 0x10000 = .ok (ret, m') ∧
      (Program.segment ⟨PT_LOAD, 6, 0x100, 0x1000, 0x100, 0x3000⟩ 0x10000).Contains 0x12000 ∧ m' 0x12000 = none :=
  ⟨⟨by decide +kernel, by decide +kernel⟩, _, _, rfl, by decide +kernel, by decide +kernel⟩

end loader

end ldso
