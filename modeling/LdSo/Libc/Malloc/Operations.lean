import LdSo.Libc.Malloc.Unlink

open cmodel

namespace ldso.malloc

/-! A heap in use: free chunks go into the bins and out of them in any order, and what
`tmalloc_large` finds in between is the best there is. -/

inductive Operation where
  | insert (X : elf_addr)
  | unlink (X : elf_addr)

/-- A chunk is put in with the size that its head has, as `malloc` and `free` do. -/
def run_operation (fuel : Nat) (m : mstate) : Operation → Outcome mstate
  | .insert X => do
    let S ← m.chunksize X
    insert_large_chunk fuel m X S
  | .unlink X => unlink_large_chunk fuel m X

def run_operations (fuel : Nat) : mstate → List Operation → Outcome mstate
  | m, [] => .ok m
  | m, op :: ops => do
    let m ← run_operation fuel m op
    run_operations fuel m ops

/-- The operations take the free chunks `ps` to `qs`: what is put in is large and not
there, and what is taken out is there. -/
inductive Changes (U : elf_addr → Prop) (size : elf_addr → BitVec 64) :
    List elf_addr → List Operation → List elf_addr → Prop where
  | nil {ps} : Changes U size ps [] ps
  | insert {X ps ops qs} (hX : U X) (hsize : TreeSize (size X).toNat) (hnew : X ∉ ps)
      (h : Changes U size (X :: ps) ops qs) : Changes U size ps (.insert X :: ops) qs
  | unlink {X ps ops qs} (hX : X ∈ ps) (h : Changes U size (ps.erase X) ops qs) :
      Changes U size ps (.unlink X :: ops) qs

/-- The state in which `_gm_` is before `malloc` is used: no bin has a chunk. -/
structure mstate.Unused (m : mstate) : Prop where
  treemap : m.treemap = 0#32
  treebins : ∀ i < NTREEBINS, m.word (m.treebin_at i) = 0#64

/-- The free chunks of all bins. -/
def binned (ts : Nat → Trie elf_addr) : List elf_addr := (bin_entries ts).map Prod.snd

/-- `v` and `rsize` are the best fit among the chunks, or none is large enough. -/
def BestFit (m : mstate) (nb : BitVec 64) (ps : List elf_addr) (v : elf_addr) (rsize : BitVec 64) : Prop :=
  v = 0#64 ∧ rsize = -nb ∧ (∀ q ∈ ps, m.size q < nb) ∨
  v ∈ ps ∧ v ≠ 0#64 ∧ nb ≤ m.size v ∧ rsize = m.size v - nb ∧ ∀ q ∈ ps, nb ≤ m.size q → m.size v ≤ m.size q

variable {m m' : mstate} {U : elf_addr → Prop} {ts : Nat → Trie elf_addr} {t : Trie elf_addr} {X v : elf_addr}
  {ps qs : List elf_addr} {ops : List Operation} {nb rsize : BitVec 64} {i fuel : Nat}

theorem mem_binned : X ∈ binned ts ↔ ∃ i < NTREEBINS, X ∈ (ts i).values := by
  constructor
  · intro h
    obtain ⟨e, he, rfl⟩ := List.mem_map.mp h
    obtain ⟨i, hi, he⟩ := mem_bin_entries.mp he
    exact ⟨i, hi, List.mem_map_of_mem he⟩
  · rintro ⟨i, hi, h⟩
    obtain ⟨e, he, rfl⟩ := List.mem_map.mp h
    exact List.mem_map_of_mem (mem_bin_entries.mpr ⟨i, hi, he⟩)

theorem not_mem_binned_nil (q : elf_addr) : q ∈ [] ↔ q ∈ binned fun _ => .nil := by simp [mem_binned]

theorem Bins.unused (h : m.Unused) : Bins m U fun _ => .nil where
  tree := h.treebins
  marked i _ := by simp [h.treemap]
  within _ _ := trivial
  nodup _ _ := List.nodup_nil
  chunk _ _ _ he := by cases he

section Step

variable (hA : Arena m U) (hB : Bins m U ts) (hps : ∀ q, q ∈ ps ↔ q ∈ binned ts) (hfuel : 64 < fuel)

include hA hB hps hfuel

theorem run_insert (hX : U X) (hsize : TreeSize (m.size X).toNat) (hnew : X ∉ ps) :
    ∃ m' ts', run_operation fuel m (.insert X) = .ok m' ∧ Keeps U m m' ∧ Bins m' U ts' ∧
      ∀ q, q ∈ X :: ps ↔ q ∈ binned ts' := by
  have hfresh : ∀ i < NTREEBINS, X ∉ (ts i).values := fun i hi hin =>
    hnew ((hps X).mpr (mem_binned.mpr ⟨i, hi, hin⟩))
  obtain ⟨m', hrun, hkeeps, hB'⟩ := insert_large_chunk_bins hA hB hX hfresh hsize hfuel
  refine ⟨m', _, ?_, hkeeps, hB', fun q => ?_⟩
  · rw [run_operation, chunksize_eq (hA.usable X hX)]
    exact hrun
  · have hi := compute_tree_index_lt (S := m.size X)
    rw [List.mem_cons, hps q, mem_binned, mem_binned]
    constructor
    · rintro (rfl | ⟨j, hj, hq⟩)
      · refine ⟨_, hi, ?_⟩
        rw [Function.update_self]
        exact Trie.values_insert_perm.mem_iff.mpr List.mem_cons_self
      · refine ⟨j, hj, ?_⟩
        by_cases hij : j = compute_tree_index (m.size X)
        · subst hij
          rw [Function.update_self]
          exact Trie.values_insert_perm.mem_iff.mpr (List.mem_cons_of_mem _ hq)
        · rwa [Function.update_of_ne hij]
    · rintro ⟨j, hj, hq⟩
      by_cases hij : j = compute_tree_index (m.size X)
      · subst hij
        rw [Function.update_self] at hq
        obtain rfl | hq := List.mem_cons.mp (Trie.values_insert_perm.mem_iff.mp hq)
        · exact .inl rfl
        · exact .inr ⟨_, hj, hq⟩
      · rw [Function.update_of_ne hij] at hq
        exact .inr ⟨j, hj, hq⟩

theorem run_unlink (hnodup : ps.Nodup) (hX : X ∈ ps) :
    ∃ m' ts', run_operation fuel m (.unlink X) = .ok m' ∧ Keeps U m m' ∧ Bins m' U ts' ∧
      ∀ q, q ∈ ps.erase X ↔ q ∈ binned ts' := by
  obtain ⟨i, hi, hXi⟩ := mem_binned.mp ((hps X).mp hX)
  obtain ⟨m', hrun, hkeeps, hB'⟩ := unlink_large_chunk_bins hA hB hi hXi hfuel
  refine ⟨m', _, hrun, hkeeps, hB', fun q => ?_⟩
  have hperm := Trie.values_erase_perm hXi (hB.nodup i hi)
  have hgone : X ∉ (Trie.erase X (ts i)).values := (List.nodup_cons.mp (hperm.nodup_iff.mp (hB.nodup i hi))).1
  rw [hnodup.mem_erase_iff, hps q, mem_binned, mem_binned]
  constructor
  · rintro ⟨hne, j, hj, hq⟩
    refine ⟨j, hj, ?_⟩
    by_cases hij : j = i
    · subst hij
      rw [Function.update_self]
      exact (List.mem_cons.mp (hperm.mem_iff.mp hq)).resolve_left hne
    · rwa [Function.update_of_ne hij]
  · rintro ⟨j, hj, hq⟩
    by_cases hij : j = i
    · subst hij
      rw [Function.update_self] at hq
      refine ⟨?_, j, hj, hperm.mem_iff.mpr (List.mem_cons_of_mem _ hq)⟩
      rintro rfl
      exact hgone hq
    · rw [Function.update_of_ne hij] at hq
      refine ⟨?_, j, hj, hq⟩
      -- no chunk is in two bins
      rintro rfl
      exact hij ((hB.values hj hq).2.2.symm.trans (hB.values hi hXi).2.2)

end Step

theorem Changes.congr {size size' : elf_addr → BitVec 64} (h : Changes U size ps ops qs)
    (hsize : ∀ p, U p → size' p = size p) : Changes U size' ps ops qs := by
  induction h with
  | nil => exact .nil
  | insert hX htree hnew _ ih => exact .insert hX (by rwa [hsize _ hX]) hnew ih
  | unlink hX _ ih => exact .unlink hX ih

/-- Whatever the operations are, all of them succeed, and the bins hold the chunks
that are free then. -/
theorem run_operations_bins (hA : Arena m U) (hB : Bins m U ts) (hnodup : ps.Nodup)
    (hps : ∀ q, q ∈ ps ↔ q ∈ binned ts) (hfuel : 64 < fuel) (hops : Changes U m.size ps ops qs) :
    ∃ m' ts', run_operations fuel m ops = .ok m' ∧ Keeps U m m' ∧ Bins m' U ts' ∧ qs.Nodup ∧
      ∀ q, q ∈ qs ↔ q ∈ binned ts' := by
  induction ops generalizing m ts ps with
  | nil =>
    cases hops
    exact ⟨m, ts, rfl, .refl U m, hB, hnodup, hps⟩
  | cons op ops ih =>
    cases hops with
    | insert hX hsize hnew hrest =>
      obtain ⟨m₁, ts₁, hrun₁, hkeeps₁, hB₁, hps₁⟩ := run_insert hA hB hps hfuel hX hsize hnew
      obtain ⟨m', ts', hrun, hkeeps, hB', hqs⟩ := ih (hA.keep hkeeps₁) hB₁ (List.nodup_cons.mpr ⟨hnew, hnodup⟩) hps₁
        (hrest.congr fun p hp => hkeeps₁.size hp)
      refine ⟨m', ts', ?_, hkeeps₁.trans hkeeps, hB', hqs⟩
      rw [run_operations, hrun₁]
      exact hrun
    | unlink hX hrest =>
      obtain ⟨m₁, ts₁, hrun₁, hkeeps₁, hB₁, hps₁⟩ := run_unlink hA hB hps hfuel hnodup hX
      obtain ⟨m', ts', hrun, hkeeps, hB', hqs⟩ := ih (hA.keep hkeeps₁) hB₁ (hnodup.erase _) hps₁
        (hrest.congr fun p hp => hkeeps₁.size hp)
      refine ⟨m', ts', ?_, hkeeps₁.trans hkeeps, hB', hqs⟩
      rw [run_operations, hrun₁]
      exact hrun

theorem Found.bestFit {found : Option (Nat × elf_addr)} (hB : Bins m U ts) (hps : ∀ q, q ∈ ps ↔ q ∈ binned ts)
    (hfound : Found nb v rsize found) (hbest : Trie.IsBest nb.toNat (bin_entries ts) found) :
    BestFit m nb ps v rsize := by
  have hentry : ∀ e ∈ bin_entries ts, (m.size e.2).toNat = e.1 := by
    intro e he
    obtain ⟨i, hi, he⟩ := mem_bin_entries.mp he
    exact (hB.chunk i hi e he).2.1
  have hmem : ∀ q ∈ ps, ∃ e ∈ bin_entries ts, e.2 = q := fun q hq => List.mem_map.mp ((hps q).mp hq)
  cases found with
  | none =>
    refine .inl ⟨hfound.1, hfound.2, fun q hq => ?_⟩
    obtain ⟨e, he, rfl⟩ := hmem q hq
    rw [BitVec.lt_def, hentry e he]
    exact hbest e he
  | some w =>
    obtain ⟨rfl, hne, hle, hrsize, -⟩ := hfound
    obtain ⟨hw, -, hleast⟩ := hbest
    have hsize := hentry w hw
    refine .inr ⟨(hps _).mpr (List.mem_map_of_mem hw), hne, ?_, ?_, fun q hq hfits => ?_⟩
    · rwa [BitVec.le_def, hsize]
    · refine BitVec.eq_of_toNat_eq ?_
      rw [hrsize, BitVec.toNat_sub_of_le (by rwa [BitVec.le_def, hsize]), hsize]
    · obtain ⟨e, he, rfl⟩ := hmem q hq
      rw [BitVec.le_def, hentry e he] at hfits
      rw [BitVec.le_def, hsize, hentry e he]
      exact hleast e he hfits

/-- A heap of two free chunks, of 4096 and 8192 bytes. -/
def two_chunks : mstate where
  treemap := 0#32
  least_addr := 4096#64
  gm := 65536#64
  mapped a := 4096#64 ≤ a
  word := Function.update (Function.update (fun _ => 0#64) 4104#64 4097#64) 8200#64 8193#64

theorem mem_two_chunks {p : elf_addr} : p ∈ [4096#64, 8192#64] ↔ p = 4096#64 ∨ p = 8192#64 := by simp

theorem offset_le {o : BitVec 64} (ho : o ∈ 8#64 :: offsets) : o.toNat ≤ 56 := by
  simp only [offsets, List.mem_cons, List.not_mem_nil, or_false] at ho
  rcases ho with rfl | rfl | rfl | rfl | rfl | rfl | rfl <;> decide

theorem two_chunks_mapped {p o : BitVec 64} (hp : p ∈ [4096#64, 8192#64]) (ho : o ∈ 8#64 :: offsets) :
    4096#64 ≤ p + o := by
  have hle := offset_le ho
  obtain rfl | rfl := mem_two_chunks.mp hp
  · bv_omega
  · bv_omega

theorem two_chunks_arena : Arena two_chunks (· ∈ [4096#64, 8192#64]) where
  usable p hp := by
    refine ⟨?_, ?_, fun o ho => decide_eq_true (two_chunks_mapped hp ho),
      fun o ho => decide_eq_true (two_chunks_mapped hp (List.mem_cons_of_mem _ ho))⟩
    · obtain rfl | rfl := mem_two_chunks.mp hp <;> decide
    · obtain rfl | rfl := mem_two_chunks.mp hp <;> decide
  apart p hp q hq o ho o' ho' heq := by
    have hle := offset_le (List.mem_cons_of_mem _ ho)
    have hle' := offset_le ho'
    obtain rfl | rfl := mem_two_chunks.mp hp <;> obtain rfl | rfl := mem_two_chunks.mp hq
    · rfl
    · bv_omega
    · bv_omega
    · rfl
  slot_mapped := by decide +kernel
  slot_ne_null := by decide +kernel
  slot_ne i hi p hp o ho heq := by
    have hle := offset_le ho
    have hi' : i < 32 := hi
    unfold mstate.treebin_at two_chunks at heq
    obtain rfl | rfl := mem_two_chunks.mp hp
    · bv_omega
    · bv_omega

theorem two_chunks_unused : two_chunks.Unused := ⟨rfl, by decide +kernel⟩

theorem two_chunks_changes : Changes (· ∈ [4096#64, 8192#64]) two_chunks.size []
    [.insert 4096#64, .insert 8192#64, .unlink 4096#64] [8192#64] := by
  refine .insert (by decide) ?_ (by decide) (.insert (by decide) ?_ (by decide) (.unlink (by decide) ?_))
  · exact ⟨by decide, by decide⟩
  · exact ⟨by decide, by decide⟩
  · exact .nil

/-- From an unused heap on, any operations succeed; the bins are in order then, hold
the free chunks, and `treemap` tells in which of them there are any. -/
theorem run_operations_treemap (hA : Arena m U) (hunused : m.Unused) (hfuel : 64 < fuel)
    (hops : Changes U m.size [] ops qs) :
    ∃ m' ts, run_operations fuel m ops = .ok m' ∧ Keeps U m m' ∧ Bins m' U ts ∧ (∀ q, q ∈ qs ↔ q ∈ binned ts) ∧
      ∀ i < NTREEBINS, m'.treemap_is_marked i = true ↔ ∃ q ∈ qs, compute_tree_index (m.size q) = i := by
  obtain ⟨m', ts, hrun, hkeeps, hB, -, hqs⟩ := run_operations_bins hA (Bins.unused hunused) List.nodup_nil
    not_mem_binned_nil hfuel hops
  refine ⟨m', ts, hrun, hkeeps, hB, hqs, fun i hi => ?_⟩
  rw [treemap_is_marked_iff hi, hB.marked i hi]
  constructor
  · intro hne
    obtain ⟨q, hq⟩ : ∃ q, q ∈ (ts i).values := by
      cases hts : ts i with
      | nil => exact absurd hts hne
      | node k x xs l r => exact ⟨x, by simp⟩
    obtain ⟨hU, -, hindex⟩ := hB.values hi hq
    exact ⟨q, (hqs q).mpr (mem_binned.mpr ⟨i, hi, hq⟩), by rwa [← hkeeps.size hU]⟩
  · rintro ⟨q, hq, hindex⟩ hnil
    obtain ⟨j, hj, hqj⟩ := mem_binned.mp ((hqs q).mp hq)
    obtain ⟨hU, -, hindex'⟩ := hB.values hj hqj
    rw [hkeeps.size hU, hindex] at hindex'
    rw [← hindex', hnil] at hqj
    cases hqj

theorem run_operations_treemap_two : ∃ m' ts,
    run_operations 65 two_chunks [.insert 4096#64, .insert 8192#64, .unlink 4096#64] = .ok m' ∧
      Keeps (· ∈ [4096#64, 8192#64]) two_chunks m' ∧ Bins m' (· ∈ [4096#64, 8192#64]) ts ∧
      (∀ q, q ∈ [8192#64] ↔ q ∈ binned ts) ∧
      ∀ i < NTREEBINS, m'.treemap_is_marked i = true ↔ ∃ q ∈ [8192#64], compute_tree_index (two_chunks.size q) = i :=
  run_operations_treemap two_chunks_arena two_chunks_unused (by decide) two_chunks_changes

/-- From an unused heap on, any operations succeed, and then a search for `nb` bytes
finds a smallest one of the free chunks that have as many. -/
theorem tmalloc_large_find_best_fit (hA : Arena m U) (hunused : m.Unused) (hfuel : 65 < fuel)
    (hops : Changes U m.size [] ops qs) (hnb : TreeSize nb.toNat) :
    ∃ m' v rsize, run_operations fuel m ops = .ok m' ∧ tmalloc_large_find fuel m' nb = .ok (v, rsize) ∧
      BestFit m nb qs v rsize := by
  obtain ⟨m', ts', hrun, hkeeps, hB, -, hqs⟩ := run_operations_bins hA (Bins.unused hunused) List.nodup_nil
    not_mem_binned_nil (Nat.lt_of_succ_lt hfuel) hops
  obtain ⟨v, rsize, found, hfind, hfound, hbest⟩ := tmalloc_large_find_eq (hA.keep hkeeps) hB hnb hfuel
  refine ⟨m', v, rsize, hrun, hfind, ?_⟩
  have hsize : ∀ q ∈ qs, m'.size q = m.size q := by
    intro q hq
    obtain ⟨i, hi, hin⟩ := mem_binned.mp ((hqs q).mp hq)
    exact hkeeps.size (hB.values hi hin).1
  obtain ⟨hv, hr, hsmall⟩ | ⟨hv, hne, hle, hr, hleast⟩ := hfound.bestFit hB hqs hbest
  · exact .inl ⟨hv, hr, fun q hq => hsize q hq ▸ hsmall q hq⟩
  · refine .inr ⟨hv, hne, ?_, ?_, fun q hq hfits => ?_⟩
    · rwa [← hsize v hv]
    · rwa [← hsize v hv]
    · rw [← hsize v hv, ← hsize q hq]
      exact hleast q hq (by rwa [hsize q hq])

theorem tmalloc_large_find_best_fit_two : ∃ m' v rsize,
    run_operations 66 two_chunks [.insert 4096#64, .insert 8192#64, .unlink 4096#64] = .ok m' ∧
      tmalloc_large_find 66 m' 1024#64 = .ok (v, rsize) ∧ BestFit two_chunks 1024#64 [8192#64] v rsize :=
  tmalloc_large_find_best_fit two_chunks_arena two_chunks_unused (by decide) two_chunks_changes ⟨by decide, by decide⟩

end ldso.malloc
