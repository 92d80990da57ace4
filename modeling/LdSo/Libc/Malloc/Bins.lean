import LdSo.Libc.Malloc.Insert

open cmodel

namespace ldso.malloc

/-- The size that the head of a chunk has. -/
def mstate.size (m : mstate) (p : elf_addr) : BitVec 64 := m.word (head p) &&& ~~~FLAG_BITS

/-- Chunks whose words are in memory, apart from one another and from the bins. -/
structure Arena (m : mstate) (U : elf_addr → Prop) : Prop where
  usable : ∀ p, U p → m.Usable p
  apart : ∀ p, U p → ∀ q, U q → ∀ o ∈ offsets, ∀ o' ∈ 8#64 :: offsets, p + o = q + o' → p = q
  slot_mapped : ∀ i < NTREEBINS, m.mapped (m.treebin_at i) = true
  slot_ne_null : ∀ i < NTREEBINS, m.treebin_at i ≠ 0#64
  slot_ne : ∀ i < NTREEBINS, ∀ p, U p → ∀ o ∈ 8#64 :: offsets, m.treebin_at i ≠ p + o

/-- The bins hold the trees `ts`, whose chunks are of the bin they are in. -/
structure Bins (m : mstate) (U : elf_addr → Prop) (ts : Nat → Trie elf_addr) : Prop where
  tree : ∀ i < NTREEBINS, IsTree m.word (BitVec.ofNat 64 i) (m.treebin_at i) (m.treebin_at i) (ts i)
  marked : ∀ i < NTREEBINS, m.treemap.getLsbD i = true ↔ ts i ≠ .nil
  within : ∀ i < NTREEBINS, (ts i).Within (tree_base i) (tree_bits i)
  nodup : ∀ i < NTREEBINS, (ts i).values.Nodup
  chunk : ∀ i < NTREEBINS, ∀ e ∈ (ts i).entries, U e.2 ∧ (m.size e.2).toNat = e.1 ∧ TreeSize e.1 ∧
    compute_tree_index (m.size e.2) = i

/-- What the operations on the bins leave alone: where chunks may be, and their heads. -/
structure Keeps (U : elf_addr → Prop) (m m' : mstate) : Prop where
  mapped : m'.mapped = m.mapped
  gm : m'.gm = m.gm
  least_addr : m'.least_addr = m.least_addr
  heads : ∀ p, U p → m'.word (head p) = m.word (head p)

variable {m m' : mstate} {U : elf_addr → Prop} {ts : Nat → Trie elf_addr} {t t' : Trie elf_addr} {p q X a : elf_addr}
  {ps qs : List elf_addr} {i j fuel : Nat} {o : BitVec 64}

theorem treebin_at_inj (hi : i < NTREEBINS) (hj : j < NTREEBINS) (h : m.treebin_at i = m.treebin_at j) : i = j := by
  unfold mstate.treebin_at at h
  have hmul := add_left_cancel h
  have hnat := congrArg BitVec.toNat hmul
  unfold NTREEBINS at hi hj
  simp only [BitVec.toNat_mul, BitVec.toNat_ofNat] at hnat
  omega

namespace Keeps

theorem refl (U : elf_addr → Prop) (m : mstate) : Keeps U m m := ⟨rfl, rfl, rfl, fun _ _ => rfl⟩

theorem trans {m'' : mstate} (h : Keeps U m m') (h' : Keeps U m' m'') : Keeps U m m'' :=
  ⟨h'.mapped.trans h.mapped, h'.gm.trans h.gm, h'.least_addr.trans h.least_addr,
    fun p hp => (h'.heads p hp).trans (h.heads p hp)⟩

theorem treebin_at (h : Keeps U m m') (i : Nat) : m'.treebin_at i = m.treebin_at i := by
  unfold mstate.treebin_at
  rw [h.gm]

theorem size (h : Keeps U m m') (hp : U p) : m'.size p = m.size p := by
  unfold mstate.size
  rw [h.heads p hp]

end Keeps

namespace Arena

theorem keep (h : Arena m U) (hk : Keeps U m m') : Arena m' U where
  usable p hp := by
    obtain ⟨hnull, hok, hmapped, hlinks⟩ := h.usable p hp
    unfold mstate.ok_address at hok hlinks
    refine ⟨hnull, ?_, ?_, ?_⟩
    · unfold mstate.ok_address
      rwa [hk.least_addr]
    · rwa [hk.mapped]
    · unfold mstate.ok_address
      rwa [hk.least_addr]
  apart := h.apart
  slot_mapped i hi := by
    rw [hk.mapped, hk.treebin_at]
    exact h.slot_mapped i hi
  slot_ne_null i hi := by
    rw [hk.treebin_at]
    exact h.slot_ne_null i hi
  slot_ne i hi := by
    rw [hk.treebin_at]
    exact h.slot_ne i hi

theorem apart_list (h : Arena m U) (hnodup : ps.Nodup) (hps : ∀ p ∈ ps, U p) : Apart ps :=
  ⟨hnodup, fun p hp q hq => h.apart p (hps p hp) q (hps q hq)⟩

theorem slot_outside (h : Arena m U) (hi : i < NTREEBINS) (hps : ∀ p ∈ ps, U p) : Outside (m.treebin_at i) ps :=
  fun p hp o ho => h.slot_ne i hi p (hps p hp) o (List.mem_cons_of_mem _ ho)

/-- The links and the head of a chunk are no links of others. -/
theorem outside (h : Arena m U) (hp : U p) (hps : ∀ q ∈ ps, U q) (ho : o ∈ 8#64 :: offsets)
    (hnot : p ∉ ps ∨ o = 8#64) : Outside (p + o) ps := by
  intro q hq o' ho' heq
  obtain rfl := h.apart q (hps q hq) p hp o' ho' o ho heq.symm
  obtain hnot | rfl := hnot
  · exact hnot hq
  · rw [← add_left_cancel heq] at ho'
    revert ho'
    decide

end Arena

theorem Bins.values (h : Bins m U ts) (hi : i < NTREEBINS) (hp : p ∈ (ts i).values) :
    U p ∧ TreeSize (m.size p).toNat ∧ compute_tree_index (m.size p) = i := by
  obtain ⟨e, he, rfl⟩ := List.mem_map.mp hp
  obtain ⟨hU, hsize, htree, hindex⟩ := h.chunk i hi e he
  exact ⟨hU, hsize ▸ htree, hindex⟩

/-- One bin gets another tree while only its pointer and links of chunks that are in
no other bin are written. -/
theorem Bins.set (hA : Arena m U) (h : Bins m U ts) (hi : i < NTREEBINS) (hmapped : m'.mapped = m.mapped)
    (hgm : m'.gm = m.gm) (hleast : m'.least_addr = m.least_addr)
    (htree : IsTree m'.word (BitVec.ofNat 64 i) (m.treebin_at i) (m.treebin_at i) t')
    (hmarked : ∀ j < NTREEBINS, m'.treemap.getLsbD j = if j = i then decide (t' ≠ .nil) else m.treemap.getLsbD j)
    (hwithin : t'.Within (tree_base i) (tree_bits i)) (hnodup : t'.values.Nodup)
    (hchunk : ∀ e ∈ t'.entries, U e.2 ∧ (m.size e.2).toNat = e.1 ∧ TreeSize e.1 ∧ compute_tree_index (m.size e.2) = i)
    (hps : ∀ p ∈ ps, U p ∧ compute_tree_index (m.size p) = i)
    (hframe : ∀ a, a ≠ m.treebin_at i → Outside a ps → m'.word a = m.word a) :
    Keeps U m m' ∧ Bins m' U (Function.update ts i t') := by
  have hkeeps : Keeps U m m' := by
    refine ⟨hmapped, hgm, hleast, fun p hp => hframe _ ?_ ?_⟩
    · exact (hA.slot_ne i hi p hp 8#64 (by decide)).symm
    · exact hA.outside hp (fun q hq => (hps q hq).1) (by decide) (.inr rfl)
  refine ⟨hkeeps, ⟨?_, ?_, ?_, ?_, ?_⟩⟩
  · intro j hj
    rw [hkeeps.treebin_at]
    by_cases hij : j = i
    · subst hij
      rwa [Function.update_self]
    · rw [Function.update_of_ne hij]
      refine (h.tree j hj).congr (hframe _ (fun heq => hij (treebin_at_inj hj hi heq))
        (hA.slot_outside hj fun q hq => (hps q hq).1)) fun p hp o ho => hframe _ ?_ ?_
      · exact (hA.slot_ne i hi p (h.values hj hp).1 o (List.mem_cons_of_mem _ ho)).symm
      · refine hA.outside (h.values hj hp).1 (fun q hq => (hps q hq).1) (List.mem_cons_of_mem _ ho) (.inl fun hin => ?_)
        exact hij ((h.values hj hp).2.2.symm.trans (hps p hin).2)
  · intro j hj
    rw [hmarked j hj]
    by_cases hij : j = i
    · subst hij
      rw [if_pos rfl, Function.update_self, decide_eq_true_iff]
    · rw [if_neg hij, Function.update_of_ne hij]
      exact h.marked j hj
  · intro j hj
    by_cases hij : j = i
    · subst hij
      rwa [Function.update_self]
    · rw [Function.update_of_ne hij]
      exact h.within j hj
  · intro j hj
    by_cases hij : j = i
    · subst hij
      rwa [Function.update_self]
    · rw [Function.update_of_ne hij]
      exact h.nodup j hj
  · intro j hj e he
    have hold : U e.2 ∧ (m.size e.2).toNat = e.1 ∧ TreeSize e.1 ∧ compute_tree_index (m.size e.2) = j := by
      by_cases hij : j = i
      · subst hij
        rw [Function.update_self] at he
        exact hchunk e he
      · rw [Function.update_of_ne hij] at he
        exact h.chunk j hj e he
    rw [hkeeps.size hold.1]
    exact hold

theorem treemap_is_marked_iff (hi : i < NTREEBINS) : m.treemap_is_marked i = true ↔ m.treemap.getLsbD i = true := by
  unfold mstate.treemap_is_marked
  rw [decide_eq_true_iff]
  exact and_idx2bit_ne_zero hi

/-- The words after the first lines of `insert_large_chunk`. -/
def blank_words (w : elf_addr → BitVec 64) (I : BitVec 64) (X : elf_addr) : elf_addr → BitVec 64 :=
  Function.update (Function.update (Function.update w (index X) I) (child X 1#64) 0#64) (child X 0#64) 0#64

theorem blank_words_blank (w : elf_addr → BitVec 64) (I : BitVec 64) (X : elf_addr) : Blank (blank_words w I X) I X := by
  unfold blank_words
  constructor
  · simp [index, child, BitVec.add_assoc]
  · simp
  · simp [child, BitVec.add_assoc]

theorem blank_words_of_outside {w : elf_addr → BitVec 64} {I : BitVec 64} (ha : Outside a [X]) :
    blank_words w I X a = w a := by
  have hX : X ∈ [X] := List.mem_singleton_self X
  unfold blank_words
  rw [Function.update_of_ne (ha.ne_child_left hX), Function.update_of_ne (ha.ne_child_right hX)]
  exact Function.update_of_ne (ha X hX 56#64 (by decide)) _ _

/-- A chunk that is put in goes to the bin of its size, where the trie has it. -/
theorem insert_large_chunk_bins (hA : Arena m U) (hB : Bins m U ts) (hX : U X)
    (hfresh : ∀ i < NTREEBINS, X ∉ (ts i).values) (hsize : TreeSize (m.size X).toNat) (hfuel : 64 < fuel) :
    ∃ m', insert_large_chunk fuel m X (m.size X) = .ok m' ∧ Keeps U m m' ∧
      Bins m' U (Function.update ts (compute_tree_index (m.size X)) ((ts (compute_tree_index (m.size X))).insert
        (m.size X).toNat X (tree_bits (compute_tree_index (m.size X))))) := by
  obtain ⟨i, hi⟩ : ∃ i, compute_tree_index (m.size X) = i := ⟨_, rfl⟩
  have hilt : i < NTREEBINS := hi ▸ compute_tree_index_lt
  rw [hi]
  have hu := hA.usable X hX
  -- the first lines
  obtain ⟨m₁, hm₁⟩ : ∃ m₁ : mstate, m₁ = { m with word := blank_words m.word (BitVec.ofNat 64 i) X } := ⟨_, rfl⟩
  have hframe₁ : ∀ a, Outside a [X] → m₁.word a = m.word a := fun a ha => hm₁ ▸ blank_words_of_outside ha
  have hone : ∀ q ∈ [X], U q := by simpa using hX
  have hkeeps₁ : Keeps U m m₁ := by
    refine ⟨hm₁ ▸ rfl, hm₁ ▸ rfl, hm₁ ▸ rfl, fun p hp => hframe₁ _ ?_⟩
    exact hA.outside hp hone (by decide) (.inr rfl)
  have hA₁ := hA.keep hkeeps₁
  have hblank : Blank m₁.word (BitVec.ofNat 64 i) X := hm₁ ▸ blank_words_blank _ _ _
  have hmarked₁ : m₁.treemap_is_marked i = m.treemap_is_marked i := hm₁ ▸ rfl
  have hrun₁ : insert_large_chunk fuel m X (m.size X) =
      if m.treemap_is_marked i then insert_large_loop X (m.size X) fuel m₁ (m₁.word (m.treebin_at i))
        (m.size X <<< leftshift_for_tree_index i)
      else insert_large_leaf (m₁.mark_treemap i) X (m.treebin_at i) (m.treebin_at i) := by
    rw [insert_large_chunk, hi, store_eq hu.mapped_index, Outcome.ok_bind, store_eq (by simpa using hu.mapped_right),
      Outcome.ok_bind, store_eq (by simpa using hu.mapped_left), Outcome.ok_bind]
    have hstate : ((m.put (index X) (BitVec.ofNat 64 i)).put (child X 1#64) 0#64).put (child X 0#64) 0#64 = m₁ :=
      hm₁.symm
    rw [hstate, load_eq (by rw [hkeeps₁.mapped]; exact hA.slot_mapped i hilt), Outcome.ok_bind, hmarked₁]
  have hslot : Outside (m.treebin_at i) [X] := hA.slot_outside hilt hone
  have hgoal : ∃ m', (if m.treemap_is_marked i then insert_large_loop X (m.size X) fuel m₁ (m₁.word (m.treebin_at i))
        (m.size X <<< leftshift_for_tree_index i)
      else insert_large_leaf (m₁.mark_treemap i) X (m.treebin_at i) (m.treebin_at i)) = .ok m' ∧
      m'.mapped = m.mapped ∧ m'.gm = m.gm ∧ m'.least_addr = m.least_addr ∧
      (∀ j < NTREEBINS, m'.treemap.getLsbD j = if j = i then true else m.treemap.getLsbD j) ∧
      IsTree m'.word (BitVec.ofNat 64 i) (m.treebin_at i) (m.treebin_at i)
        ((ts i).insert (m.size X).toNat X (tree_bits i)) ∧
      ∀ a, a ≠ m.treebin_at i → Outside a (X :: (ts i).values) → m'.word a = m.word a := by
    by_cases hmark : m.treemap.getLsbD i = true
    · rw [if_pos ((treemap_is_marked_iff hilt).mpr hmark)]
      have hne := (hB.marked i hilt).mp hmark
      have hin : ∀ p ∈ X :: (ts i).values, U p := by
        rintro p (_ | ⟨_, hp⟩)
        · exact hX
        · exact (hB.values hilt hp).1
      have hwithin := hsize.within
      rw [hi] at hwithin
      have hlist := hA.apart_list (List.nodup_cons.mpr ⟨hfresh i hilt, hB.nodup i hilt⟩) hin
      have htree₁ : IsTree m₁.word (BitVec.ofNat 64 i) (m.treebin_at i) (m.treebin_at i) (ts i) := by
        refine (hB.tree i hilt).congr (hframe₁ _ hslot) fun p hp o ho => hframe₁ _ ?_
        refine hA.outside (hB.values hilt hp).1 hone (List.mem_cons_of_mem _ ho) (.inl fun hpX => ?_)
        rw [List.mem_singleton] at hpX
        exact hfresh i hilt (hpX ▸ hp)
      have hsized : Sized m₁.word (ts i) := by
        intro e he
        obtain ⟨heU, hesize, -, -⟩ := hB.chunk i hilt e he
        rw [hkeeps₁.heads e.2 heU]
        exact hesize
      obtain ⟨w', hrun, htree', hframe⟩ := insert_large_loop_eq hne htree₁ hsized (hB.within i hilt)
        (tree_base_dvd hilt) hwithin.1 hwithin.2 tree_bits_le (lt_of_le_of_lt tree_bits_le hfuel) hlist
        (fun p hp => hA₁.usable p (hin p hp)) (hA.slot_outside hilt hin) hblank
      rw [leftshift_eq hilt]
      refine ⟨_, hrun, hkeeps₁.mapped, hkeeps₁.gm, hkeeps₁.least_addr, ?_, htree', fun a _ ha => ?_⟩
      · intro j hj
        have hmap : m₁.treemap = m.treemap := hm₁ ▸ rfl
        split
        · next heq => rw [hmap, heq, hmark]
        · rw [hmap]
      · exact (hframe a ha).trans (hframe₁ a (ha.mono (by simp)))
    · rw [if_neg (mt (treemap_is_marked_iff hilt).mp hmark)]
      have hnil : ts i = .nil := by
        by_contra hne
        exact hmark ((hB.marked i hilt).mpr hne)
      have hu₁ : (m₁.mark_treemap i).Usable X := by
        have hkeeps : Keeps U m₁ (m₁.mark_treemap i) := ⟨rfl, rfl, rfl, fun _ _ => rfl⟩
        exact (hA₁.keep hkeeps).usable X hX
      have hmapped : (m₁.mark_treemap i).mapped (m.treebin_at i) = true := by
        have hslot := hA₁.slot_mapped i hilt
        rwa [hkeeps₁.treebin_at] at hslot
      refine ⟨_, insert_large_leaf_eq hmapped hu₁, hkeeps₁.mapped, hkeeps₁.gm, hkeeps₁.least_addr, ?_, ?_,
        fun a hne ha => ?_⟩
      · intro j hj
        have hmap : (m₁.mark_treemap i).treemap = m.treemap ||| idx2bit i := hm₁ ▸ rfl
        change ((m₁.mark_treemap i).treemap).getLsbD j = _
        rw [hmap, BitVec.getLsbD_or, getLsbD_idx2bit hj]
        split
        · next heq => simp [heq]
        · next hne =>
          have hij : ¬ i = j := fun heq => hne heq.symm
          simp [hij]
      · rw [hnil]
        exact IsTree.leaf (hA.apart_list (List.nodup_singleton X) hone) hslot hblank
      · exact (leaf_words_of_outside (ha.mono (by simp)) hne).trans (hframe₁ a (ha.mono (by simp)))
  obtain ⟨m', hrun, hmapped, hgm, hleast, hbits, htree, hframe⟩ := hgoal
  have hperm : ((ts i).insert (m.size X).toNat X (tree_bits i)).values.Perm (X :: (ts i).values) :=
    Trie.values_insert_perm
  have hset := hB.set hA hilt hmapped hgm hleast htree ?_ ?_ ?_ ?_ ?_ hframe
  · exact ⟨m', hrun₁.trans hrun, hset⟩
  · intro j hj
    rw [hbits j hj, decide_eq_true Trie.insert_ne_nil]
  · have hwithin := hsize.within
    rw [hi] at hwithin
    exact (hB.within i hilt).insert (tree_base_dvd hilt) hwithin.1 hwithin.2
  · rw [hperm.nodup_iff]
    exact List.nodup_cons.mpr ⟨hfresh i hilt, hB.nodup i hilt⟩
  · intro e he
    obtain rfl | he := List.mem_cons.mp (Trie.entries_insert_perm.mem_iff.mp he)
    · exact ⟨hX, rfl, hsize, hi⟩
    · exact hB.chunk i hilt e he
  · rintro p (_ | ⟨_, hp⟩)
    · exact ⟨hX, hi⟩
    · exact ⟨(hB.values hilt hp).1, (hB.values hilt hp).2.2⟩

end ldso.malloc
