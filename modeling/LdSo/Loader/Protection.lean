import LdSo.Loader.Trace

open cmodel

namespace ldso

open elf loader utility

/-- An address that stands for the page it begins. -/
def PageAligned (a : elf_addr) : Prop := a.toNat % 4096 = 0

instance (a : elf_addr) : Decidable (PageAligned a) := inferInstanceAs (Decidable (_ = _))

/-- The pages that so many bytes from an address on lie in, with the page of the
address itself when it does not begin one. -/
def pages (a : elf_addr) (n : Nat) : Region 64 := ⟨ALIGN a, unistd.page_ceil ((a - ALIGN a).toNat + n)⟩

namespace Program

/-- The pages a segment has a part in. -/
def occupied (p : Phdr) (l_addr : elf_addr) : Region 64 :=
  pages (p.p_vaddr + l_addr) (max p.p_filesz.toNat p.p_memsz.toNat)

/-- The pages whose protection is set when the whole file part was read. -/
def narrowed (p : Phdr) (l_addr : elf_addr) : Region 64 :=
  let addr := p.p_vaddr + l_addr
  ⟨ALIGN addr, unistd.page_ceil (p.p_filesz + addr - ALIGN addr).toNat⟩

theorem occupied_of_narrowed {p : Phdr} {l_addr a : elf_addr} (h : (narrowed p l_addr).Contains a) :
    (occupied p l_addr).Contains a := by
  have hsize : (p.p_filesz + (p.p_vaddr + l_addr) - ALIGN (p.p_vaddr + l_addr)).toNat ≤
      (p.p_vaddr + l_addr - ALIGN (p.p_vaddr + l_addr)).toNat + p.p_filesz.toNat := by
    rw [add_sub_assoc, BitVec.toNat_add]
    exact (Nat.mod_le _ _).trans (Nat.add_comm _ _).le
  apply Nat.lt_of_lt_of_le h
  simp only [narrowed, occupied, pages, unistd.page_ceil]
  omega

theorem occupied_of_memory {p : Phdr} {l_addr a : elf_addr}
    (h : (pages (p.p_vaddr + l_addr) p.p_memsz.toNat).Contains a) :
    (occupied p l_addr).Contains a := by
  apply Nat.lt_of_lt_of_le h
  simp only [occupied, pages, unistd.page_ceil]
  omega

/-- Every read of the loop delivers the whole file part of its segment. -/
def ReadWhole (o : Program) (sys : System) (m : Memory 64) (map : LinkMap) (base : elf_addr) : Prop :=
  ∀ ret m' calls t, allocate_map sys m o.phdrs map.l_addr = .ok (ret, m') →
    load_trace sys map o.phdrs.length o.phdrs false ⟨m', map.l_ld, base⟩ = .ok (calls, t) →
    ∀ c ∈ calls, c.2 = c.1.p_vaddr + map.l_addr + c.1.p_filesz

/-- The pages of each segment's memory have the protection its flags ask for, and
of the reserved pages only those of a segment that asks for it can be written and
executed. -/
structure Protected (o : Program) (l_addr : elf_addr) (m : Memory 64) : Prop where
  segments : ∀ p ∈ o.loads, p.p_memsz ≠ 0 → ∀ a, PageAligned a →
    (pages (p.p_vaddr + l_addr) p.p_memsz.toNat).Contains a → m.protection a = some (prot p.p_flags)
  reserved : ∀ a, PageAligned a → (o.mapping l_addr).Contains a → ∀ q, m.protection a = some q → q.w = true →
    q.x = true →
    ∃ p ∈ o.loads, (occupied p l_addr).Contains a ∧ (prot p.p_flags).w = true ∧ (prot p.p_flags).x = true

/-- On the headers: each page of a segment's memory is one of its file part, and
the segment is come to, or the page had the protection when memory was reserved;
and each reserved page is one of the file part of a segment that is come to, or of
a segment that may be written and executed. -/
structure Narrowed (o : Program) (l_addr : elf_addr) (m : Memory 64) : Prop where
  segments : ∀ p ∈ o.loads, p.p_memsz ≠ 0 → ∀ a, PageAligned a →
    (pages (p.p_vaddr + l_addr) p.p_memsz.toNat).Contains a →
    p ∈ loads_of (front o.phdrs) ∧ (narrowed p l_addr).Contains a ∨
      (m.mmap (o.mapping l_addr) ⟨true, true, true⟩).protection a = some (prot p.p_flags)
  reserved : ∀ a, PageAligned a → (o.mapping l_addr).Contains a →
    (∃ p ∈ loads_of (front o.phdrs), (narrowed p l_addr).Contains a) ∨
      ∃ p ∈ o.loads, (occupied p l_addr).Contains a ∧ (prot p.p_flags).w = true ∧ (prot p.p_flags).x = true

end Program

namespace loader

open Program

variable {sys : System} {map : LinkMap}

theorem pageAligned_ALIGN (a : elf_addr) : PageAligned (ALIGN a) := by
  unfold PageAligned
  rw [toNat_ALIGN, page_floor]
  omega

/-- The pages that `mprotect` is asked for are mapped if it succeeds. -/
theorem protection_mprotect_eq {m m' : Memory 64} {addr a : elf_addr} {len : Nat} {prot : Prot}
    (haddr : PageAligned addr) (ha : PageAligned a) (h : unistd.mprotect m addr len prot = some m') :
    m'.protection a = if (⟨addr, unistd.page_ceil len⟩ : Region 64).Contains a then some prot else m.protection a := by
  unfold unistd.mprotect at h
  split at h
  · next hmapped =>
    cases h
    rw [Memory.protection_mprotect]
    split
    · next hcontains =>
      have hdiff : (a - addr).toNat % 4096 = 0 := by
        unfold PageAligned at haddr ha
        rw [BitVec.toNat_sub]
        omega
      have hpage := hmapped ((a - addr).toNat / 4096) (by
        unfold Region.Contains at hcontains
        simp only at hcontains
        unfold unistd.page_ceil at hcontains ⊢
        omega)
      rw [Nat.mul_div_cancel' (Nat.dvd_of_mod_eq_zero hdiff), ← Region.eq_add_of_contains (r := ⟨addr, 0⟩),
        ← Memory.isSome_protection] at hpage
      obtain ⟨old, hold⟩ := Option.isSome_iff_exists.mp hpage
      rw [hold, Option.map_some]
    · rfl
  · cases h

/-- A segment that is read whole gets its protection on the pages of its file part. -/
theorem load_segment_protection {p : Phdr} {s t : Loading} {a : elf_addr} (ha : PageAligned a)
    (h : load_segment sys map p s = .ok t) (hfull : t.base = p.p_vaddr + map.l_addr + p.p_filesz) :
    t.mem.protection a =
      if (narrowed p map.l_addr).Contains a then some (prot p.p_flags) else s.mem.protection a := by
  obtain ⟨content, -, h⟩ := Outcome.bind_eq_ok_iff.mp h
  obtain ⟨pos, -, h⟩ := Outcome.bind_eq_ok_iff.mp h
  obtain ⟨⟨r, m'⟩, hread, h⟩ := Outcome.bind_eq_ok_iff.mp h
  dsimp only at h
  split at h
  · cases h
  · next m'' hprotect =>
    cases h
    have hr : BitVec.ofNat 64 r = p.p_filesz := add_left_cancel hfull
    have hm' : m'.protection a = s.mem.protection a := by
      unfold xread_memory at hread
      dsimp only at hread
      split at hread
      · cases hread
      · cases hread
        exact Memory.protection_put _ _ _ _
    rw [protection_mprotect_eq (pageAligned_ALIGN _) ha hprotect, hm', hr]
    rfl

/-- Segments that share no page get their protections, each on the pages of its
file part; every other page keeps what it had. -/
theorem load_each_protection {ps : List Phdr} {s t : Loading} {calls : List (Phdr × elf_addr)} {a : elf_addr}
    (ha : PageAligned a) (h : load_each sys map ps s = .ok (calls, t))
    (hfull : ∀ c ∈ calls, c.2 = c.1.p_vaddr + map.l_addr + c.1.p_filesz)
    (hdis : ps.Pairwise fun p q => (occupied p map.l_addr).Disjoint (occupied q map.l_addr)) :
    ((∀ p ∈ ps, ¬ (narrowed p map.l_addr).Contains a) → t.mem.protection a = s.mem.protection a) ∧
    ∀ p ∈ ps, (narrowed p map.l_addr).Contains a → t.mem.protection a = some (prot p.p_flags) := by
  induction ps generalizing s t calls with
  | nil =>
    cases h
    exact ⟨fun _ => rfl, by simp⟩
  | cons p ps ih =>
    obtain ⟨u, hsegment, h⟩ := Outcome.bind_eq_ok_iff.mp h
    obtain ⟨⟨calls', t'⟩, hrest, h⟩ := Outcome.bind_eq_ok_iff.mp h
    cases h
    obtain ⟨hhead, htail⟩ := List.pairwise_cons.mp hdis
    have hu := load_segment_protection ha hsegment (hfull (p, u.base) (by simp))
    obtain ⟨hkeeps, hsets⟩ := ih hrest (fun c hc => hfull c (by simp [hc])) htail
    refine ⟨?_, ?_⟩
    · intro hout
      rw [hkeeps fun q hq => hout q (by simp [hq]), hu, if_neg (hout p (by simp))]
    · intro q hq hcontains
      obtain rfl | hq := List.mem_cons.mp hq
      · rw [hkeeps ?_, hu, if_pos hcontains]
        intro r hr hr'
        exact hhead r hr a (occupied_of_narrowed hcontains) (occupied_of_narrowed hr')
      · exact hsets q hq hcontains

theorem loads_of_front_sublist (table : List Phdr) : (loads_of (front table)).Sublist (loads_of table) := by
  rw [loads_of_split table]
  exact List.sublist_append_left _ _

section Result

variable {o : Program} {m : Memory 64} {ret base a : elf_addr} {s : Loading}

/-- The protection a page has in the end: that of the segment that is come to and
whose file part it belongs to, or else what it had when memory was reserved. -/
theorem load_program_protection (h : load_program sys m o.phdrs o.elf map base = .ok (ret, s))
    (hwhole : o.ReadWhole sys m map base)
    (hdis : o.loads.Pairwise fun p q => (occupied p map.l_addr).Disjoint (occupied q map.l_addr))
    (ha : PageAligned a) :
    ((∀ p ∈ loads_of (front o.phdrs), ¬ (narrowed p map.l_addr).Contains a) →
      s.mem.protection a = (m.mmap (o.mapping map.l_addr) ⟨true, true, true⟩).protection a) ∧
    ∀ p ∈ loads_of (front o.phdrs), (narrowed p map.l_addr).Contains a →
      s.mem.protection a = some (prot p.p_flags) := by
  obtain ⟨⟨ret', m'⟩, hmap, h⟩ := Outcome.bind_eq_ok_iff.mp h
  obtain ⟨s', hloop, h⟩ := Outcome.bind_eq_ok_iff.mp h
  cases h
  rw [← o.count, load_loop_eq_trace] at hloop
  obtain ⟨⟨calls, t⟩, htrace, hloop⟩ := Outcome.bind_eq_ok_iff.mp hloop
  cases hloop
  have hfull := hwhole _ _ _ _ hmap htrace
  rw [load_trace_eq_front] at htrace
  obtain ⟨⟨calls', u⟩, heach, hset⟩ := Outcome.bind_eq_ok_iff.mp htrace
  cases hset
  have hm' := allocate_map_eq_ok hmap
  subst hm'
  exact load_each_protection ha heach hfull (hdis.sublist (loads_of_front_sublist o.phdrs))

/-- Two segments that share no pages are not both on one. -/
theorem eq_of_occupied {l_addr : elf_addr}
    (hdis : o.loads.Pairwise fun p q => (occupied p l_addr).Disjoint (occupied q l_addr)) {p q : Phdr}
    (hp : p ∈ o.loads)
    (hq : q ∈ o.loads) (hpa : (occupied p l_addr).Contains a) (hqa : (occupied q l_addr).Contains a) : p = q := by
  have hsymm : Std.Symm fun p q => (occupied p l_addr).Disjoint (occupied q l_addr) := ⟨fun _ _ h => h.symm⟩
  by_contra hne
  exact hdis.forall hp hq hne a hpa hqa

/-- When the segments share no page and are read whole, the pages end up with
their protections if and only if the headers say so: no page of a .bss behind the
file part, no page in a gap, and no segment behind the end of the loop, which all
stay readable, writable and executable. -/
theorem load_program_protected_iff (h : load_program sys m o.phdrs o.elf map base = .ok (ret, s))
    (hwhole : o.ReadWhole sys m map base)
    (hdis : o.loads.Pairwise fun p q => (occupied p map.l_addr).Disjoint (occupied q map.l_addr)) :
    o.Protected map.l_addr s.mem ↔ o.Narrowed map.l_addr m := by
  have hsub : ∀ p ∈ loads_of (front o.phdrs), p ∈ o.loads := fun p hp => (loads_of_front_sublist o.phdrs).mem hp
  constructor
  · intro hprotected
    refine ⟨?_, ?_⟩
    · intro p hp hmem a ha hpage
      obtain ⟨hkeeps, -⟩ := load_program_protection h hwhole hdis ha
      by_cases hin : ∃ q ∈ loads_of (front o.phdrs), (narrowed q map.l_addr).Contains a
      · obtain ⟨q, hq, hqa⟩ := hin
        have heq := eq_of_occupied hdis (hsub q hq) hp (occupied_of_narrowed hqa) (occupied_of_memory hpage)
        subst heq
        exact Or.inl ⟨hq, hqa⟩
      · have hout : ∀ q ∈ loads_of (front o.phdrs), ¬ (narrowed q map.l_addr).Contains a := by
          intro q hq hqa
          exact hin ⟨q, hq, hqa⟩
        rw [← hkeeps hout]
        exact Or.inr (hprotected.segments p hp hmem a ha hpage)
    · intro a ha hmapped
      obtain ⟨hkeeps, -⟩ := load_program_protection h hwhole hdis ha
      by_cases hin : ∃ q ∈ loads_of (front o.phdrs), (narrowed q map.l_addr).Contains a
      · exact Or.inl hin
      · have hout : ∀ q ∈ loads_of (front o.phdrs), ¬ (narrowed q map.l_addr).Contains a := by
          intro q hq hqa
          exact hin ⟨q, hq, hqa⟩
        have hrwx := hkeeps hout
        rw [Memory.protection_mmap, if_pos hmapped] at hrwx
        exact Or.inr (hprotected.reserved a ha hmapped _ hrwx rfl rfl)
  · intro hnarrowed
    refine ⟨?_, ?_⟩
    · intro p hp hmem a ha hpage
      obtain ⟨hkeeps, hsets⟩ := load_program_protection h hwhole hdis ha
      obtain ⟨hreached, hpa⟩ | hbefore := hnarrowed.segments p hp hmem a ha hpage
      · exact hsets p hreached hpa
      · by_cases hin : ∃ q ∈ loads_of (front o.phdrs), (narrowed q map.l_addr).Contains a
        · obtain ⟨q, hq, hqa⟩ := hin
          have heq := eq_of_occupied hdis (hsub q hq) hp (occupied_of_narrowed hqa) (occupied_of_memory hpage)
          subst heq
          exact hsets q hq hqa
        · rw [hkeeps fun q hq hqa => hin ⟨q, hq, hqa⟩]
          exact hbefore
    · intro a ha hmapped q hq hw hx
      obtain ⟨-, hsets⟩ := load_program_protection h hwhole hdis ha
      obtain ⟨p, hp, hpa⟩ | hasks := hnarrowed.reserved a ha hmapped
      · rw [hsets p hp hpa] at hq
        cases hq
        exact ⟨p, hsub p hp, occupied_of_narrowed hpa, hw, hx⟩
      · exact hasks

end Result

/-- One segment of 64 bytes that may be read and executed, with two pages of memory,
and a header that ends where its memory does. -/
def text_large : Program :=
  of_phdrs [⟨PT_LOAD, 5, 0, 0, 64, 0x2000⟩, ⟨PT_NULL, 0, 0, 0x2000, 0, 0⟩] (by decide +kernel)

/-- A page to be read and executed, and one to be read and written. -/
def text_and_data : Program :=
  of_phdrs [⟨PT_LOAD, 5, 0, 0, 64, 64⟩, ⟨PT_LOAD, 6, 64, 0x1000, 32, 48⟩, ⟨PT_NULL, 0, 0, 0x1030, 0, 0⟩] (by decide +kernel)

def text_map : LinkMap := ⟨0x10000, .lit "a", none, none, none⟩

def text_sys (o : Program) : System := .of_files [(.lit "a", o.content)]

/-- Loading the program into empty memory, and the protection of two pages. -/
def text_pages (o : Program) : Outcome (Option Prot × Option Prot) := do
  let (_, s) ← load_program (text_sys o) (fun _ => none) o.phdrs o.elf text_map 0
  return (s.mem.protection 0x10000, s.mem.protection 0x11000)

/-- Whether the reads are whole can be seen from one run. -/
theorem readWhole_of_run {o : Program} {m : Memory 64} {base : elf_addr} {calls : List (Phdr × elf_addr)}
    (hrun : (do
      let (_, m') ← allocate_map sys m o.phdrs map.l_addr
      let (calls, _) ← load_trace sys map o.phdrs.length o.phdrs false ⟨m', map.l_ld, base⟩
      return calls) = Outcome.ok calls)
    (hfull : ∀ c ∈ calls, c.2 = c.1.p_vaddr + map.l_addr + c.1.p_filesz) : o.ReadWhole sys m map base := by
  intro ret m' calls' t hmap htrace
  simp only [hmap, htrace, Outcome.ok_bind] at hrun
  cases hrun
  exact hfull

theorem text_large_whole : text_large.ReadWhole (text_sys text_large) (fun _ => none) text_map 0 :=
  @readWhole_of_run _ _ _ _ _ [(⟨PT_LOAD, 5, 0, 0, 64, 0x2000⟩, 0x10040)] (by decide +kernel) (by decide)

theorem text_and_data_whole : text_and_data.ReadWhole (text_sys text_and_data) (fun _ => none) text_map 0 :=
  @readWhole_of_run _ _ _ _ _ [(⟨PT_LOAD, 5, 0, 0, 64, 64⟩, 0x10040), (⟨PT_LOAD, 6, 64, 0x1000, 32, 48⟩, 0x11020)]
    (by decide +kernel) (by decide)

theorem text_and_data_pages : text_pages text_and_data = .ok (some ⟨true, false, true⟩, some ⟨true, true, false⟩) := by
  decide +kernel

theorem text_pages_large : text_pages text_large = .ok (some ⟨true, false, true⟩, some ⟨true, true, true⟩) := by
  decide +kernel

/-- The two pages of the program end up with the protection of their segments. -/
theorem load_program_protects_both :
    ∃ ret s, load_program (text_sys text_and_data) (fun _ => none) text_and_data.phdrs text_and_data.elf text_map 0 =
        .ok (ret, s) ∧
      s.mem.protection 0x10000 = some ⟨true, false, true⟩ ∧ s.mem.protection 0x11000 = some ⟨true, true, false⟩ := by
  obtain ⟨⟨ret, s⟩, hload, -⟩ := Outcome.bind_eq_ok_iff.mp text_and_data_pages
  have hloads : text_and_data.loads = [⟨PT_LOAD, 5, 0, 0, 64, 64⟩, ⟨PT_LOAD, 6, 64, 0x1000, 32, 48⟩] := by decide +kernel
  have hreached : loads_of (front text_and_data.phdrs) = text_and_data.loads := by decide +kernel
  have hpages : ∀ p ∈ text_and_data.loads, pages (p.p_vaddr + 0x10000) p.p_memsz.toNat = narrowed p 0x10000 := by
    decide +kernel
  have hmapping : text_and_data.mapping 0x10000 = ⟨0x10000, 0x2000⟩ := by decide +kernel
  have htext : narrowed ⟨PT_LOAD, 5, 0, 0, 64, 64⟩ 0x10000 = ⟨0x10000, 0x1000⟩ := by decide +kernel
  have hdata : narrowed ⟨PT_LOAD, 6, 64, 0x1000, 32, 48⟩ 0x10000 = ⟨0x11000, 0x1000⟩ := by decide +kernel
  have hnarrowed : text_and_data.Narrowed 0x10000 fun _ => none := by
    refine ⟨?_, ?_⟩
    · intro p hp _ a _ hpage
      rw [hreached]
      exact Or.inl ⟨hp, hpages p hp ▸ hpage⟩
    · intro a _ hmapped
      rw [hmapping] at hmapped
      left
      by_cases hfirst : (narrowed ⟨PT_LOAD, 5, 0, 0, 64, 64⟩ 0x10000).Contains a
      · exact ⟨_, by rw [hreached, hloads]; exact List.mem_cons_self, hfirst⟩
      · refine ⟨⟨PT_LOAD, 6, 64, 0x1000, 32, 48⟩, by rw [hreached, hloads]; simp, ?_⟩
        rw [htext] at hfirst
        rw [hdata]
        unfold Region.Contains at *
        simp only at *
        bv_omega
  have hapart : text_and_data.loads.Pairwise fun p q =>
      (occupied p text_map.l_addr).Disjoint (occupied q text_map.l_addr) := by
    rw [hloads, List.pairwise_pair]
    exact Region.disjoint_of_bases (by decide +kernel) (by decide +kernel)
  have hprotected := (load_program_protected_iff hload text_and_data_whole hapart).mpr hnarrowed
  exact ⟨ret, s, hload, hprotected.segments ⟨PT_LOAD, 5, 0, 0, 64, 64⟩ (by simp [hloads]) (by decide) _ (by decide)
      (by decide +kernel),
    hprotected.segments ⟨PT_LOAD, 6, 64, 0x1000, 32, 48⟩ (by simp [hloads]) (by decide) _ (by decide) (by decide +kernel)⟩

/-- The second page of the segment's memory, which has no bytes in the file, stays
writable and executable. -/
theorem load_program_bss_open :
    ∃ ret s, load_program (text_sys text_large) (fun _ => none) text_large.phdrs text_large.elf text_map 0 = .ok (ret, s) ∧
      text_large.ReadWhole (text_sys text_large) (fun _ => none) text_map 0 ∧
      text_large.loads = [⟨PT_LOAD, 5, 0, 0, 64, 0x2000⟩] ∧
      ¬ text_large.Protected text_map.l_addr s.mem := by
  have hrun := text_pages_large
  obtain ⟨⟨ret, s⟩, hload, hresult⟩ := Outcome.bind_eq_ok_iff.mp hrun
  have hloads : text_large.loads = [⟨PT_LOAD, 5, 0, 0, 64, 0x2000⟩] := by decide +kernel
  refine ⟨ret, s, hload, text_large_whole, hloads, ?_⟩
  intro hprotected
  have hpage := hprotected.segments ⟨PT_LOAD, 5, 0, 0, 64, 0x2000⟩ (by rw [hloads, List.mem_singleton]) (by decide) 0x11000
    (by decide) (by decide +kernel)
  have hopen : s.mem.protection 0x11000 = some ⟨true, true, true⟩ := congrArg Prod.snd (Outcome.ok.inj hresult)
  rw [hopen] at hpage
  revert hpage
  decide

end loader

end ldso
