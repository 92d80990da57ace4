import LdSo.Libc.Malloc.Bins
import LdSo.Lib.Trie.BestFit

open cmodel

namespace ldso.malloc

variable {m : mstate} {U : elf_addr → Prop} {ts : Nat → Trie elf_addr} {I nb rsize : BitVec 64} {link up v x : elf_addr}
  {xs : List elf_addr} {t l r rst : Trie elf_addr} {k n lo fuel : Nat} {found : Option (Nat × elf_addr)}

/-- The pointer to a tree. -/
def root : Trie elf_addr → elf_addr
  | .nil => 0#64
  | .node _ x _ _ _ => x

/-- The words hold the tree somewhere, and its chunks have their sizes. -/
structure Stands (m : mstate) (I : BitVec 64) (t : Trie elf_addr) : Prop where
  tree : t = .nil ∨ ∃ link up, IsTree m.word I link up t
  sized : Sized m.word t
  usable : ∀ p ∈ t.values, m.Usable p

/-- `v` and `rsize` are what was found: a chunk and the bytes it has more than `nb`. -/
def Found (nb : BitVec 64) (v : elf_addr) (rsize : BitVec 64) : Option (Nat × elf_addr) → Prop
  | none => v = 0#64 ∧ rsize = -nb
  | some w => v = w.2 ∧ v ≠ 0#64 ∧ nb.toNat ≤ w.1 ∧ rsize.toNat = w.1 - nb.toNat ∧ w.1 < 2 ^ 64

theorem root_ne_null (husable : ∀ p ∈ t.values, m.Usable p) (hne : t ≠ .nil) : root t ≠ 0#64 := by
  cases t with
  | nil => exact absurd rfl hne
  | node k x xs l r => exact (husable x (by simp)).ne_null

theorem IsTree.root_eq (h : IsTree m.word I link up t) : m.word link = root t := by
  cases t with
  | nil => exact h
  | node k x xs l r => exact h.1

namespace Stands

theorem nil : Stands m I .nil := 
  ⟨.inl rfl, fun _ he => absurd he List.not_mem_nil, fun _ hp => absurd hp List.not_mem_nil⟩

variable (h : Stands m I (.node k x xs l r))

include h

theorem is_tree : ∃ link up, IsTree m.word I link up (.node k x xs l r) := by
  obtain h | h := h.tree
  · cases h
  · exact h

theorem usable_root : m.Usable x := h.usable x (by simp)

theorem size_root : m.chunksize x = .ok (m.size x) ∧ (m.size x).toNat = k :=
  ⟨chunksize_eq h.usable_root, h.sized (k, x) (by simp)⟩

theorem left : Stands m I l := by
  obtain ⟨link, up, -, -, hl, -⟩ := h.is_tree
  exact ⟨.inr ⟨_, _, hl⟩, fun e he => h.sized e (Trie.mem_entries_node.mpr (.inr (.inl he))),
    fun p hp => h.usable p (Trie.left_sublist.mem hp)⟩

theorem right : Stands m I r := by
  obtain ⟨link, up, -, -, -, hr⟩ := h.is_tree
  exact ⟨.inr ⟨_, _, hr⟩, fun e he => h.sized e (Trie.mem_entries_node.mpr (.inr (.inr he))),
    fun p hp => h.usable p (Trie.right_sublist.mem hp)⟩

theorem load_left : m.load (child x 0#64) = .ok (root l) := by
  obtain ⟨link, up, -, -, hl, -⟩ := h.is_tree
  rw [load_eq h.usable_root.mapped_left, hl.root_eq]

theorem load_right : m.load (child x 1#64) = .ok (root r) := by
  obtain ⟨link, up, -, -, -, hr⟩ := h.is_tree
  rw [load_eq h.usable_root.mapped_right, hr.root_eq]

end Stands

theorem Stands.root_eq_zero_iff (h : Stands m I t) : root t = 0#64 ↔ t = .nil := by
  cases t with
  | nil => simp [root]
  | node k x xs l r => simpa [root] using h.usable_root.ne_null

/-- Looking at one chunk more. -/
theorem Found.better (h : Found nb v rsize found) (hpos : 0 < nb.toNat) (hx : x ≠ 0#64)
    (hsize : (m.size x).toNat = k) :
    (m.size x - nb < rsize ↔ nb.toNat ≤ k ∧ ∀ w ∈ found, k < w.1) ∧
    Found nb (if m.size x - nb < rsize then x else v) (if m.size x - nb < rsize then m.size x - nb else rsize)
      (Trie.better nb.toNat found k x) := by
  have hlt := (m.size x).isLt
  have hnb := nb.isLt
  have hsub : (m.size x - nb).toNat = if nb.toNat ≤ k then k - nb.toNat else 2 ^ 64 - (nb.toNat - k) := by
    rw [BitVec.toNat_sub, hsize]
    split <;> omega
  have hiff : m.size x - nb < rsize ↔ nb.toNat ≤ k ∧ ∀ w ∈ found, k < w.1 := by
    rw [BitVec.lt_def, hsub]
    cases found with
    | none =>
      obtain ⟨-, rfl⟩ := h
      rw [BitVec.toNat_neg, Nat.mod_eq_of_lt (by omega)]
      simp only [Option.not_mem_none, false_imp_iff, implies_true, and_true]
      by_cases hle : nb.toNat ≤ k
      · rw [if_pos hle]
        omega
      · rw [if_neg hle]
        omega
    | some w =>
      obtain ⟨-, -, hw, hrsize, hwlt⟩ := h
      simp only [Option.mem_some_iff, forall_eq', hrsize]
      by_cases hle : nb.toNat ≤ k
      · rw [if_pos hle]
        omega
      · rw [if_neg hle]
        omega
  refine ⟨hiff, ?_⟩
  unfold Trie.better
  by_cases hbetter : m.size x - nb < rsize
  · rw [if_pos hbetter, if_pos hbetter, if_pos (hiff.mp hbetter)]
    have hle := (hiff.mp hbetter).1
    rw [if_pos hle] at hsub
    exact ⟨rfl, hx, hle, hsub, hsize ▸ hlt⟩
  · rw [if_neg hbetter, if_neg hbetter, if_neg (mt hiff.mpr hbetter)]
    exact h

theorem leftmost_child_eq (h : Stands m I (.node k x xs l r)) :
    leftmost_child m x = .ok (root (Trie.orElse l r)) := by
  rw [leftmost_child, h.load_left, Outcome.ok_bind]
  cases l with
  | nil => exact (if_neg (not_not.mpr rfl)).trans h.load_right
  | node k' x' xs' l' r' =>
    have hne : root (.node k' x' xs' l' r') ≠ 0#64 := mt h.left.root_eq_zero_iff.mp (by simp)
    exact if_pos hne

/-- The last loop follows the walk to the left. -/
theorem tmalloc_smallest_eq (hpos : 0 < nb.toNat) (h : Stands m I t) (hwithin : t.Within lo n) (hfuel : n + 1 < fuel)
    (hfound : Found nb v rsize found) :
    ∃ v' rsize', tmalloc_smallest m nb fuel (root t) v rsize = .ok (v', rsize') ∧
      Found nb v' rsize' (Trie.walk nb.toNat t found) := by
  obtain ⟨fuel, rfl⟩ : ∃ f, fuel = f + 1 := Nat.exists_eq_succ_of_ne_zero (by omega)
  induction t generalizing lo n fuel v rsize found with
  | nil => exact ⟨v, rsize, rfl, hfound⟩
  | node k x xs l r ihl ihr =>
    obtain ⟨hload, hsize⟩ := h.size_root
    have hbetter := (hfound.better hpos h.usable_root.ne_null hsize).2
    have hne : root (.node k x xs l r) ≠ 0#64 := h.usable_root.ne_null
    obtain ⟨fuel, rfl⟩ : ∃ f, fuel = f + 1 := Nat.exists_eq_succ_of_ne_zero (by omega)
    rw [tmalloc_smallest, if_pos hne]
    change ∃ v' rsize', (m.chunksize x >>= _) = _ ∧ _
    rw [hload, Outcome.ok_bind]
    change ∃ v' rsize', (leftmost_child m x >>= _) = _ ∧ _
    rw [leftmost_child_eq h, Outcome.ok_bind]
    cases n with
    | zero =>
      obtain ⟨-, rfl, rfl⟩ := hwithin
      exact ⟨_, _, rfl, hbetter⟩
    | succ n =>
      obtain ⟨-, -, hl, hr⟩ := hwithin
      cases l with
      | nil =>
        rw [Trie.orElse_nil, Trie.walk]
        exact ihr h.right hr hbetter fuel (by omega)
      | node k' x' xs' l' r' =>
        rw [Trie.orElse_node, Trie.walk]
        exact ihl h.left hl hbetter fuel (by omega)

/-- The first loop and the last one together are the search in the trie. -/
theorem tmalloc_traverse_eq (hpos : 0 < nb.toNat) (hne : t ≠ .nil) (h : Stands m I t) (hnodup : t.values.Nodup)
    (hrst : Stands m I rst) (hrstw : ∃ lo' n', n' ≤ 64 ∧ rst.Within lo' n') (hrstk : ∀ k ∈ rst.keys, nb.toNat ≤ k)
    (hwithin : t.Within lo n) (hle : lo ≤ nb.toNat) (hlt : nb.toNat < lo + 2 ^ n)
    (hdvd : 2 ^ n ∣ lo) (hn : n ≤ 64) (hfuel : n < fuel)
    (hfound : Found nb v rsize found) (hlarger : ∀ w ∈ found, nb.toNat < w.1) :
    ∃ t' v' rsize' found', tmalloc_traverse m nb fuel (root t) (nb <<< (64 - n)) (root rst) v rsize =
        .ok (root t', v', rsize') ∧ Stands m I t' ∧ (∃ lo' n', n' ≤ 64 ∧ t'.Within lo' n') ∧ Found nb v' rsize' found' ∧
      Trie.walk nb.toNat t' found' = Trie.search nb.toNat n t rst found ∧
      (t' = .nil ∨ (Trie.walk nb.toNat t' found').isSome = true) := by
  induction t generalizing lo n fuel v rsize found rst with
  | nil => exact absurd rfl hne
  | node k x xs l r ihl ihr =>
    obtain ⟨fuel, rfl⟩ : ∃ f, fuel = f + 1 := Nat.exists_eq_succ_of_ne_zero (by omega)
    obtain ⟨hload, hsize⟩ := h.size_root
    obtain ⟨hiff, hbetter⟩ := hfound.better hpos h.usable_root.ne_null hsize
    have hroot : root (.node k x xs l r) = x := rfl
    have hnull : root .nil = 0#64 := rfl
    have hsome : ∀ t' : Trie elf_addr, (∀ k ∈ t'.keys, nb.toNat ≤ k) → ∀ found',
        t' = .nil ∨ (Trie.walk nb.toNat t' found').isSome = true := by
      intro t' hfits found'
      by_cases hnil : t' = .nil
      · exact .inl hnil
      · exact .inr (Trie.walk_isSome hnil hfits)
    rw [tmalloc_traverse, hroot, hload, Outcome.ok_bind, Trie.search]
    by_cases hk : k = nb.toNat
    · have hzero : m.size x - nb = 0#64 := by
        rw [BitVec.eq_of_toNat_eq (hsize.trans hk), BitVec.sub_self]
      have hless : m.size x - nb < rsize := hiff.mpr ⟨hk.ge, fun w hw => hk ▸ hlarger w hw⟩
      have hexact : Trie.better nb.toNat found k x = some (k, x) := by
        unfold Trie.better
        rw [if_pos (hiff.mp hless)]
      rw [if_pos ⟨hless, hzero⟩, if_pos hk]
      refine ⟨_, _, _, _, rfl, h, ⟨lo, n, hn, hwithin⟩, hbetter, ?_, .inr ?_⟩
      · rw [hexact, ← hk]
        exact Trie.walk_exact (Nat.le_refl k)
      · rw [hexact]
        exact Trie.walk_isSome_of_isSome rfl
    · have hnonzero : m.size x - nb ≠ 0#64 := by
        intro hzero
        have heq : m.size x = nb := sub_eq_zero.mp hzero
        exact hk (by rw [← hsize, heq])
      rw [if_neg fun hboth => hnonzero hboth.2, if_neg hk, h.load_right, Outcome.ok_bind]
      cases n with
      | zero =>
        have hbounds := hwithin.key_bounds
        omega
      | succ n =>
        obtain ⟨hklo, hkhi, hlw, hrw⟩ := hwithin
        have hpow : 2 ^ (n + 1) = 2 ^ n + 2 ^ n := by ring
        have hlarger' : ∀ w ∈ Trie.better nb.toNat found k x, nb.toNat < w.1 := by
          unfold Trie.better
          split
          · next hfits =>
            intro w hw
            obtain rfl := Option.mem_some_iff.mp hw
            exact lt_of_le_of_ne hfits.1 (Ne.symm hk)
          · exact hlarger
        rw [top_bit hn, shift_next hn, Nat.add_sub_cancel]
        have hdvd' : 2 ^ n ∣ lo := (pow_dvd_pow 2 (Nat.le_succ n)).trans hdvd
        have hhalf := Trie.testBit_iff_of_bounds hdvd hle hlt
        by_cases hbit : nb.toNat.testBit n = true
        · have hlower := hhalf.mp hbit
          rw [if_pos hbit, if_pos hbit, h.load_right, Outcome.ok_bind]
          dsimp only
          have hsame : (if root r ≠ 0#64 ∧ root r ≠ root r then root r else root rst) = root rst :=
            if_neg fun hboth => hboth.2 rfl
          rw [hsame]
          by_cases hnil : r = .nil
          · subst hnil
            rw [if_pos hnull, Trie.search]
            exact ⟨_, _, _, _, rfl, hrst, hrstw, hbetter, rfl, hsome _ hrstk _⟩
          · rw [if_neg (mt h.right.root_eq_zero_iff.mp hnil)]
            exact ihr hnil h.right (hnodup.sublist Trie.right_sublist) hrst hrstw hrstk hrw hlower (by omega)
              (Nat.dvd_add hdvd' (dvd_refl _)) (by omega) (by omega) hbetter hlarger'
        · have hupper := mt hhalf.mpr hbit
          rw [if_neg hbit, if_neg hbit, h.load_left, Outcome.ok_bind]
          dsimp only
          -- the right half is put aside where there is one
          have hother : (if root r ≠ 0#64 ∧ root r ≠ root l then root r else root rst) = root (Trie.orElse r rst) := by
            cases r with
            | nil => exact if_neg fun hboth => hboth.1 rfl
            | node k' x' xs' l' r' =>
              refine if_pos ⟨mt h.right.root_eq_zero_iff.mp (by simp), fun heq => ?_⟩
              cases l with
              | nil => exact mt h.right.root_eq_zero_iff.mp (by simp) heq
              | node k'' x'' xs'' l'' r'' =>
                have heq' : x' = x'' := heq
                exact Trie.left_not_mem_right hnodup (y := x'') (by simp) (by simp [heq'])
          have hstands : Stands m I (Trie.orElse r rst) := by
            cases r with
            | nil => exact hrst
            | node => exact h.right
          have hwithin' : ∃ lo' n', n' ≤ 64 ∧ (Trie.orElse r rst).Within lo' n' := by
            cases r with
            | nil => exact hrstw
            | node => exact ⟨_, n, by omega, hrw⟩
          have hkeys : ∀ k ∈ (Trie.orElse r rst).keys, nb.toNat ≤ k := by
            cases r with
            | nil => exact hrstk
            | node =>
              intro j hj
              have hbounds := hrw.bounds j hj
              omega
          rw [hother]
          by_cases hnil : l = .nil
          · subst hnil
            rw [if_pos hnull, Trie.search]
            exact ⟨_, _, _, _, rfl, hstands, hwithin', hbetter, rfl, hsome _ hkeys _⟩
          · rw [if_neg (mt h.left.root_eq_zero_iff.mp hnil)]
            exact ihl hnil h.left (hnodup.sublist Trie.left_sublist) hstands hwithin' hkeys hlw hle (by omega) hdvd'
              (by omega) (by omega) hbetter hlarger'

/-- The chunks of all bins with their sizes. -/
def bin_entries (ts : Nat → Trie elf_addr) : List (Nat × elf_addr) :=
  (List.range NTREEBINS).flatMap fun i => (ts i).entries

theorem mem_bin_entries {e : Nat × elf_addr} : e ∈ bin_entries ts ↔ ∃ i < NTREEBINS, e ∈ (ts i).entries := by
  simp [bin_entries]

/-- What is best in one bin is best in all, where larger chunks are only in bins above it. -/
theorem Bins.best (h : Bins m U ts) {i : Nat} (hi : i < NTREEBINS)
    (hbest : Trie.IsBest nb.toNat (ts i).entries found) (hsome : found.isSome = true)
    (hbelow : ∀ j < i, ∀ e ∈ (ts j).entries, e.1 < nb.toNat) : Trie.IsBest nb.toNat (bin_entries ts) found := by
  cases found with
  | none => cases hsome
  | some w =>
    obtain ⟨hw, hfits, hleast⟩ := hbest
    refine ⟨mem_bin_entries.mpr ⟨i, hi, hw⟩, hfits, fun e he hefits => ?_⟩
    obtain ⟨j, hj, he⟩ := mem_bin_entries.mp he
    obtain hlt | rfl | hgt := Nat.lt_trichotomy j i
    · have hsmall := hbelow j hlt e he
      omega
    · exact hleast e he hefits
    · obtain ⟨-, hsize, htree, hindex⟩ := h.chunk i hi w hw
      obtain ⟨-, hsize', htree', hindex'⟩ := h.chunk j hj e he
      rw [← hsize] at htree ⊢
      rw [← hsize'] at htree' ⊢
      exact (htree.lt_of_index_lt htree' (by rw [hindex, hindex']; exact hgt)).le

theorem Bins.stands (h : Bins m U ts) (hA : Arena m U) {i : Nat} (hi : i < NTREEBINS) :
    Stands m (BitVec.ofNat 64 i) (ts i) :=
  ⟨.inr ⟨_, _, h.tree i hi⟩, fun e he => (h.chunk i hi e he).2.1, fun p hp => hA.usable p (h.values hi hp).1⟩

theorem Bins.load_root (h : Bins m U ts) (hA : Arena m U) {i : Nat} (hi : i < NTREEBINS) :
    m.load (m.treebin_at i) = .ok (root (ts i)) := by
  rw [load_eq (hA.slot_mapped i hi), (h.tree i hi).root_eq]

/-- The next bin is the first one above that has a tree. -/
theorem next_treebin_eq (hA : Arena m U) (h : Bins m U ts) {i : Nat} (hi : i < NTREEBINS) :
    (∃ j < NTREEBINS, i < j ∧ ts j ≠ .nil ∧ (∀ k < j, i < k → ts k = .nil) ∧ next_treebin m i = .ok (root (ts j))) ∨
    (∀ k < NTREEBINS, i < k → ts k = .nil) ∧ next_treebin m i = .ok 0#64 := by
  have hbit : ∀ k < NTREEBINS, (left_bits (idx2bit i) &&& m.treemap).getLsbD k = true ↔ i < k ∧ ts k ≠ .nil := by
    intro k hk
    rw [BitVec.getLsbD_and, getLsbD_left_bits_idx2bit hi hk, Bool.and_eq_true, decide_eq_true_iff, h.marked k hk]
  unfold next_treebin
  dsimp only
  by_cases hzero : left_bits (idx2bit i) &&& m.treemap = 0#32
  · right
    refine ⟨fun k hk hik => ?_, if_neg (not_not.mpr hzero)⟩
    by_contra hne
    have hset := (hbit k hk).mpr ⟨hik, hne⟩
    rw [hzero, BitVec.getLsbD_zero] at hset
    cases hset
  · left
    obtain ⟨hlt, hset, hfirst⟩ := compute_bit2idx_least_bit hzero
    obtain ⟨hij, hne⟩ := (hbit _ hlt).mp hset
    refine ⟨_, hlt, hij, hne, fun k hk hik => ?_, ?_⟩
    · by_contra hne'
      have hset' := (hbit k (hk.trans hlt)).mpr ⟨hik, hne'⟩
      rw [hfirst k hk] at hset'
      cases hset'
    · rw [if_pos hzero]
      exact h.load_root hA hlt

/-- Where no chunk of the bin is large enough, the smallest one of the next bin is the best. -/
theorem next_treebin_best (hA : Arena m U) (hB : Bins m U ts) (hnb : TreeSize nb.toNat) (hfuel : 65 < fuel)
    (hsmall : ∀ e ∈ (ts (compute_tree_index nb)).entries, e.1 < nb.toNat) :
    ∃ v rsize found, tmalloc_least fuel m nb (compute_tree_index nb) 0#64 0#64 (-nb) = .ok (v, rsize) ∧
      Found nb v rsize found ∧ Trie.IsBest nb.toNat (bin_entries ts) found := by
  have hi := compute_tree_index_lt (S := nb)
  have hpos : 0 < nb.toNat := lt_of_lt_of_le (by decide) hnb.1
  have hbelow : ∀ j < compute_tree_index nb, ∀ e ∈ (ts j).entries, e.1 < nb.toNat := by
    intro j hj e he
    obtain ⟨-, hsize, htree, hindex⟩ := hB.chunk j (hj.trans hi) e he
    rw [← hsize] at htree ⊢
    exact htree.lt_of_index_lt hnb (by rwa [hindex])
  have hnone : Found nb 0#64 (-nb) none := ⟨rfl, rfl⟩
  rw [tmalloc_least, if_pos ⟨rfl, rfl⟩]
  obtain ⟨j, hj, hij, hne, hgap, hrun⟩ | ⟨hempty, hrun⟩ := next_treebin_eq hA hB hi
  · have hfits : ∀ k ∈ (ts j).keys, nb.toNat ≤ k := by
      intro k hk
      obtain ⟨b, hb, rfl⟩ := List.mem_map.mp hk
      have he : (b.1, b.2.1) ∈ (ts j).entries := by
        rw [Trie.entries, List.mem_flatMap]
        exact ⟨b, hb, by simp⟩
      obtain ⟨-, hsize, htree, hindex⟩ := hB.chunk j hj _ he
      rw [← hsize] at htree ⊢
      exact (hnb.lt_of_index_lt htree (by rwa [hindex])).le
    obtain ⟨v, rsize, hsmallest, hfound⟩ := tmalloc_smallest_eq hpos (hB.stands hA hj) (hB.within j hj)
      (lt_of_le_of_lt (Nat.succ_le_succ tree_bits_le) hfuel) hnone
    have hbest := Trie.isBest_walk (hB.within j hj) hfits Trie.IsBest.nil
    rw [hrun, Outcome.ok_bind]
    refine ⟨v, rsize, _, hsmallest, hfound, hB.best hj hbest (Trie.walk_isSome hne hfits) fun k hk e he => ?_⟩
    obtain hlt | rfl | hgt := Nat.lt_trichotomy k (compute_tree_index nb)
    · exact hbelow k hlt e he
    · exact hsmall e he
    · rw [hgap k hk hgt] at he
      cases he
  · rw [hrun, Outcome.ok_bind]
    obtain ⟨fuel, rfl⟩ : ∃ f, fuel = f + 1 := Nat.exists_eq_succ_of_ne_zero (by omega)
    refine ⟨0#64, -nb, none, rfl, hnone, fun e he => ?_⟩
    obtain ⟨k, hk, he⟩ := mem_bin_entries.mp he
    obtain hlt | rfl | hgt := Nat.lt_trichotomy k (compute_tree_index nb)
    · exact hbelow k hlt e he
    · exact hsmall e he
    · rw [hempty k hk hgt] at he
      cases he

theorem tmalloc_large_find_eq (hA : Arena m U) (hB : Bins m U ts) (hnb : TreeSize nb.toNat) (hfuel : 65 < fuel) :
    ∃ v rsize found, tmalloc_large_find fuel m nb = .ok (v, rsize) ∧ Found nb v rsize found ∧
      Trie.IsBest nb.toNat (bin_entries ts) found := by
  have hi := compute_tree_index_lt (S := nb)
  have hpos : 0 < nb.toNat := lt_of_lt_of_le (by decide) hnb.1
  have hnone : Found nb 0#64 (-nb) none := ⟨rfl, rfl⟩
  have hwithin := hB.within _ hi
  have hstands := hB.stands hA hi
  obtain ⟨hle, hlt⟩ := hnb.within
  rw [tmalloc_large_find, hB.load_root hA hi, Outcome.ok_bind]
  by_cases hnil : ts (compute_tree_index nb) = .nil
  · have hnull : root (ts (compute_tree_index nb)) = 0#64 := hstands.root_eq_zero_iff.mpr hnil
    rw [if_neg (not_not.mpr hnull)]
    refine next_treebin_best hA hB hnb hfuel fun e he => ?_
    rw [hnil] at he
    cases he
  · have hne : root (ts (compute_tree_index nb)) ≠ 0#64 := mt hstands.root_eq_zero_iff.mp hnil
    obtain ⟨t', v', rsize', found', hrun, hstands', ⟨lo', n', hn', hwithin'⟩, hfound', hwalk, hsome⟩ :=
      tmalloc_traverse_eq hpos hnil hstands (hB.nodup _ hi) Stands.nil ⟨0, 0, by decide, trivial⟩
        (fun k hk => absurd hk List.not_mem_nil) hwithin hle hlt (tree_base_dvd hi) tree_bits_le
        (lt_of_le_of_lt tree_bits_le (Nat.lt_of_succ_lt hfuel)) hnone (fun w hw => by cases hw)
    have hbest : Trie.IsBest nb.toNat ((ts (compute_tree_index nb)).entries) (Trie.walk nb.toNat t' found') := by
      have hnil₀ : (Trie.nil : Trie elf_addr).Within 0 0 := trivial
      have hsearch := Trie.isBest_search hwithin (tree_base_dvd hi) hle hlt hnil₀
        (fun k hk => absurd hk List.not_mem_nil) Trie.IsBest.nil
      rw [hwalk]
      simpa using hsearch
    have hrun' : tmalloc_traverse m nb fuel (root (ts (compute_tree_index nb)))
        (nb <<< leftshift_for_tree_index (compute_tree_index nb)) 0#64 0#64 (-nb) = .ok (root t', v', rsize') := by
      rw [leftshift_eq hi]
      exact hrun
    rw [if_pos hne]
    dsimp only
    rw [hrun', Outcome.ok_bind]
    by_cases hnothing : root t' = 0#64 ∧ v' = 0#64
    · have hnil' : t' = .nil := hstands'.root_eq_zero_iff.mp hnothing.1
      cases found' with
      | some w => exact absurd hnothing.2 hfound'.2.1
      | none =>
        rw [hnil', Trie.walk] at hbest
        rw [hnothing.1, hnothing.2, hfound'.2]
        exact next_treebin_best hA hB hnb hfuel hbest
    · have hfound : (Trie.walk nb.toNat t' found').isSome = true := by
        obtain hnil' | hsome := hsome
        · cases found' with
          | some w => exact Trie.walk_isSome_of_isSome rfl
          | none => exact absurd ⟨hstands'.root_eq_zero_iff.mpr hnil', hfound'.1⟩ hnothing
        · exact hsome
      obtain ⟨v, rsize, hsmallest, hfinal⟩ := tmalloc_smallest_eq hpos hstands' hwithin'
        (lt_of_le_of_lt (Nat.succ_le_succ hn') hfuel) hfound'
      rw [tmalloc_least, if_neg hnothing]
      refine ⟨v, rsize, _, hsmallest, hfinal, hB.best hi hbest hfound fun j hj e he => ?_⟩
      obtain ⟨-, hsize, htree, hindex⟩ := hB.chunk j (hj.trans hi) e he
      rw [← hsize] at htree ⊢
      exact htree.lt_of_index_lt hnb (by rwa [hindex])

end ldso.malloc
