import LdSo.Relocations

open cmodel

namespace ldso.relocations

open elf elf_manipulation symbol_resolution

variable {sys : System} {heap : Heap} {elf : Ehdr} {next : LinkMap} {map : Option Nat}

/-- A store changes its own word only. -/
theorem hide_of_storeWord {m m' : Memory 64} {a v : elf_addr} {rs : List (Region 64)} (h : m.storeWord a v = .ok m')
    (ha : Memory.wordRegion 64 a ∈ rs) : m'.hide rs = m.hide rs := by
  obtain ⟨-, rfl⟩ := Memory.storeWord_eq_ok_iff.mp h
  exact Memory.hide_putWord ha

/-- A word is read as before once a word that does not meet it is stored. -/
theorem loadWord_of_storeWord {m m' : Memory 64} {a b v : elf_addr} (h : m.storeWord a v = .ok m')
    (hdis : (Memory.wordRegion 64 a).Disjoint (Memory.wordRegion 64 b)) : m'.loadWord 64 b = m.loadWord 64 b := by
  obtain ⟨-, rfl⟩ := Memory.storeWord_eq_ok_iff.mp h
  exact Memory.loadWord_putWord_of_disjoint hdis

/-- An iteration of `relocation_lookup` writes to its entry's word only, and goes
on with the same entries or with those behind it. -/
theorem relocation_lookup_loop_step {n : Nat} {r : Rela} {rest : List Rela} {m m' : Memory 64} {rs : List (Region 64)}
    (hslot : Memory.wordRegion 64 (slot r next.l_addr) ∈ rs)
    (h : relocation_lookup_loop sys heap elf next map (n + 1) (r :: rest) m = .ok m') :
    ∃ m₁ : Memory 64, m₁.hide rs = m.hide rs ∧
      (relocation_lookup_loop sys heap elf next map n (r :: rest) m₁ = .ok m' ∨
        relocation_lookup_loop sys heap elf next map n rest m₁ = .ok m') := by
  have hcursor : ∀ m₁ : Memory 64, (if r.type = R_X86_64_COPY then relocation_lookup_loop sys heap elf next map n (r :: rest) m₁
      else relocation_lookup_loop sys heap elf next map n rest m₁) = .ok m' →
      relocation_lookup_loop sys heap elf next map n (r :: rest) m₁ = .ok m' ∨
        relocation_lookup_loop sys heap elf next map n rest m₁ = .ok m' := by
    intro m₁ h
    split at h
    · exact Or.inl h
    · exact Or.inr h
  -- what follows the symbolic part
  have hrelative : ∀ m₁ : Memory 64, (do
      let m₂ ← if r.type = R_X86_64_RELATIVE then m₁.storeWord (slot r next.l_addr) (r.r_addend + next.l_addr)
        else .ok m₁
      if r.type = R_X86_64_COPY then relocation_lookup_loop sys heap elf next map n (r :: rest) m₂
      else relocation_lookup_loop sys heap elf next map n rest m₂) = .ok m' →
      ∃ m₂ : Memory 64, m₂.hide rs = m₁.hide rs ∧
        (relocation_lookup_loop sys heap elf next map n (r :: rest) m₂ = .ok m' ∨
          relocation_lookup_loop sys heap elf next map n rest m₂ = .ok m') := by
    intro m₁ h
    by_cases hrel : r.type = R_X86_64_RELATIVE
    · simp only [if_pos hrel] at h
      obtain ⟨m₂, hstore, h⟩ := Outcome.bind_eq_ok_iff.mp h
      exact ⟨m₂, hide_of_storeWord hstore hslot, hcursor m₂ h⟩
    · simp only [if_neg hrel] at h
      exact ⟨m₁, rfl, hcursor m₁ h⟩
  rw [relocation_lookup_loop] at h
  split at h
  · obtain ⟨rela_name, -, h⟩ := Outcome.bind_eq_ok_iff.mp h
    obtain ⟨addr, -, h⟩ := Outcome.bind_eq_ok_iff.mp h
    split at h
    · obtain ⟨m₁, hstore, h⟩ := Outcome.bind_eq_ok_iff.mp h
      obtain ⟨m₂, hkept, hrest⟩ := hrelative m₁ h
      exact ⟨m₂, hkept.trans (hide_of_storeWord hstore hslot), hrest⟩
    · exact hrelative m h
  · exact hrelative m h

/-- `relocation_lookup` leaves everything but the words of the array's entries as it is. -/
theorem relocation_lookup_loop_hide {n : Nat} {rela : List Rela} {m m' : Memory 64} {rs : List (Region 64)}
    (hslots : ∀ r ∈ rela, Memory.wordRegion 64 (slot r next.l_addr) ∈ rs)
    (h : relocation_lookup_loop sys heap elf next map n rela m = .ok m') : m'.hide rs = m.hide rs := by
  induction n generalizing rela m with
  | zero =>
    cases h
    rfl
  | succ n ih =>
    cases rela with
    | nil => cases h
    | cons r rest =>
      obtain ⟨m₁, hkept, h | h⟩ := relocation_lookup_loop_step (hslots r (by simp)) h
      · rw [ih hslots h, hkept]
      · rw [ih (fun s hs => hslots s (by simp [hs])) h, hkept]

theorem relocation_lookup_hide {nb_rela : Int} {rela : List Rela} {m m' : Memory 64} {rs : List (Region 64)}
    (hslots : ∀ r ∈ rela, Memory.wordRegion 64 (slot r next.l_addr) ∈ rs)
    (h : relocation_lookup sys heap m rela nb_rela next map = .ok m') : m'.hide rs = m.hide rs := by
  obtain ⟨elf, -, h⟩ := Outcome.bind_eq_ok_iff.mp h
  exact relocation_lookup_loop_hide hslots h

/-- What keeps everything but the words of an array's entries keeps every word apart from these. -/
theorem loadWord_of_hide_slots {l_addr : elf_addr} {rela : List Rela} {m m' : Memory 64} {a : elf_addr}
    (hdis : ∀ r ∈ rela, (Memory.wordRegion 64 (slot r l_addr)).Disjoint (Memory.wordRegion 64 a))
    (hhide : m'.hide (rela.map fun r => Memory.wordRegion 64 (slot r l_addr)) =
      m.hide (rela.map fun r => Memory.wordRegion 64 (slot r l_addr))) : m'.loadWord 64 a = m.loadWord 64 a := by
  refine Memory.loadWord_of_hide hhide fun x hx => ?_
  obtain ⟨r, hr, rfl⟩ := List.mem_map.mp hx
  exact hdis r hr

/-- `relocation_lookup` does not touch a word that no entry of the array names. -/
theorem relocation_lookup_loop_frame {n : Nat} {rela : List Rela} {m m' : Memory 64} {a : elf_addr}
    (hdis : ∀ r ∈ rela, (Memory.wordRegion 64 (slot r next.l_addr)).Disjoint (Memory.wordRegion 64 a))
    (h : relocation_lookup_loop sys heap elf next map n rela m = .ok m') : m'.loadWord 64 a = m.loadWord 64 a := by
  apply loadWord_of_hide_slots hdis
  exact relocation_lookup_loop_hide (fun r hr => List.mem_map.mpr ⟨r, hr, rfl⟩) h

theorem relocation_lookup_frame {nb_rela : Int} {rela : List Rela} {m m' : Memory 64} {a : elf_addr}
    (hdis : ∀ r ∈ rela, (Memory.wordRegion 64 (slot r next.l_addr)).Disjoint (Memory.wordRegion 64 a))
    (h : relocation_lookup sys heap m rela nb_rela next map = .ok m') : m'.loadWord 64 a = m.loadWord 64 a := by
  obtain ⟨elf, -, h⟩ := Outcome.bind_eq_ok_iff.mp h
  exact relocation_lookup_loop_frame hdis h

/-- Lazy relocation leaves everything but the words of the array's entries as it is. -/
theorem relocation_lazy_loop_hide {l_addr : elf_addr} {n : Nat} {rela : List Rela} {m m' : Memory 64}
    {rs : List (Region 64)} (hslots : ∀ r ∈ rela, Memory.wordRegion 64 (slot r l_addr) ∈ rs)
    (h : relocation_lazy_loop l_addr n rela m = .ok m') : m'.hide rs = m.hide rs := by
  induction n generalizing rela m with
  | zero =>
    cases h
    rfl
  | succ n ih =>
    cases rela with
    | nil => cases h
    | cons r rest =>
      obtain ⟨word, -, h⟩ := Outcome.bind_eq_ok_iff.mp h
      obtain ⟨m₁, hstore, h⟩ := Outcome.bind_eq_ok_iff.mp h
      rw [ih (fun s hs => hslots s (by simp [hs])) h]
      exact hide_of_storeWord hstore (hslots r (by simp))

/-- `relocation_lazy` does not touch a word that no entry of the array names. -/
theorem relocation_lazy_loop_frame {l_addr : elf_addr} {n : Nat} {rela : List Rela} {m m' : Memory 64} {a : elf_addr}
    (hdis : ∀ r ∈ rela, (Memory.wordRegion 64 (slot r l_addr)).Disjoint (Memory.wordRegion 64 a))
    (h : relocation_lazy_loop l_addr n rela m = .ok m') : m'.loadWord 64 a = m.loadWord 64 a := by
  apply loadWord_of_hide_slots hdis
  exact relocation_lazy_loop_hide (fun r hr => List.mem_map.mpr ⟨r, hr, rfl⟩) h

/-- When lazy relocation of an array whose slots do not meet returns, `l_addr`
was added to each of them. -/
theorem relocation_lazy_loop_content {l_addr : elf_addr} {rela : List Rela} {m m' : Memory 64}
    (hapart : Memory.Apart 64 (rela.map (slot · l_addr)))
    (h : relocation_lazy_loop l_addr rela.length rela m = .ok m') :
    ∀ r ∈ rela, ∃ c, m.loadWord 64 (slot r l_addr) = .ok c ∧ m'.loadWord 64 (slot r l_addr) = .ok (c + l_addr) := by
  induction rela generalizing m with
  | nil => simp
  | cons r rest ih =>
    obtain ⟨hhead, htail⟩ := List.pairwise_cons.mp hapart
    have hdis : ∀ s ∈ rest, (Memory.wordRegion 64 (slot r l_addr)).Disjoint (Memory.wordRegion 64 (slot s l_addr)) :=
      fun s hs => hhead _ (List.mem_map_of_mem hs)
    obtain ⟨word, hword, h⟩ := Outcome.bind_eq_ok_iff.mp h
    obtain ⟨m₁, hstore, h⟩ := Outcome.bind_eq_ok_iff.mp h
    intro s hs
    obtain rfl | hs := List.mem_cons.mp hs
    · refine ⟨word, hword, ?_⟩
      obtain ⟨hwr, rfl⟩ := Memory.storeWord_eq_ok_iff.mp hstore
      rw [relocation_lazy_loop_frame (fun t ht => (hdis t ht).symm) h]
      exact Memory.loadWord_putWord_same rfl (by decide) hwr
    · obtain ⟨c, hc, hc'⟩ := ih htail h s hs
      exact ⟨c, by rw [← loadWord_of_storeWord hstore (hdis s hs), hc], hc'⟩

/-- The second and third word of the table at `got` hold the object's link map and
the trampoline. -/
def Installed (sys : System) (m : Memory 64) (got : elf_addr) (next : Nat) : Prop :=
  m.loadWord 64 (got + 8#64) = .ok (sys.node next) ∧ m.loadWord 64 (got + 16#64) = .ok sys.reloc

/-- When lazy relocation of an object with a `.got.plt` returns, the trampoline is
behind its slots, and `l_addr` was added to each of them. -/
theorem relocation_lazy_installs {node : LinkMap} {m m' : Memory 64} {i : Nat} {rela : List Rela} {got : elf_addr}
    (hnode : heap[i]? = some node) (hehdr : get_elf_ehdr sys node.l_name = .ok elf)
    (hgot : get_got_plt sys elf node = .ok (some got)) (hapart : Memory.Apart 64 (rela.map (slot · node.l_addr)))
    (htable : ∀ w ∈ [got + 8#64, got + 16#64], ∀ r ∈ rela,
      (Memory.wordRegion 64 w).Disjoint (Memory.wordRegion 64 (slot r node.l_addr)))
    (h : relocation_lazy sys heap m i rela rela.length = .ok m') :
    Installed sys m' got i ∧ ∀ r ∈ rela, ∃ c, m.loadWord 64 (slot r node.l_addr) = .ok c ∧
      m'.loadWord 64 (slot r node.l_addr) = .ok (c + node.l_addr) := by
  unfold relocation_lazy at h
  simp only [hnode, Outcome.ofOption_some, Outcome.ok_bind, hehdr, hgot, Int.toNat_natCast] at h
  obtain ⟨m₁, hone, h⟩ := Outcome.bind_eq_ok_iff.mp h
  obtain ⟨m₂, htwo, h⟩ := Outcome.bind_eq_ok_iff.mp h
  have hframe : ∀ w ∈ [got + 8#64, got + 16#64], m'.loadWord 64 w = m₂.loadWord 64 w := fun w hw =>
    relocation_lazy_loop_frame (fun r hr => (htable w hw r hr).symm) h
  have hwords : (Memory.wordRegion 64 (got + 16#64)).Disjoint (Memory.wordRegion 64 (got + 8#64)) :=
    Region.disjoint_iff_clear.mpr (by simp [Region.Clear, Memory.wordRegion])
  constructor
  · constructor
    · rw [hframe _ (by simp), loadWord_of_storeWord htwo hwords]
      obtain ⟨hwr, rfl⟩ := Memory.storeWord_eq_ok_iff.mp hone
      exact Memory.loadWord_putWord_same rfl (by decide) hwr
    · rw [hframe _ (by simp)]
      obtain ⟨hwr, rfl⟩ := Memory.storeWord_eq_ok_iff.mp htwo
      exact Memory.loadWord_putWord_same rfl (by decide) hwr
  · intro r hr
    obtain ⟨c, hc, hc'⟩ := relocation_lazy_loop_content hapart h r hr
    refine ⟨c, ?_, hc'⟩
    rw [← hc, loadWord_of_storeWord htwo (htable _ (by simp) r hr),
      loadWord_of_storeWord hone (htable _ (by simp) r hr)]

end ldso.relocations
