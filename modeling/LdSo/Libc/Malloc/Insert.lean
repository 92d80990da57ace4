import LdSo.Libc.Malloc.Tree

open cmodel

namespace ldso.malloc

variable {m : mstate} {w w' : elf_addr → BitVec 64} {I : BitVec 64} {link up p q x y X a : elf_addr}
  {xs ps qs : List elf_addr} {t l r : Trie elf_addr} {k lo n fuel : Nat} {v S K o o' : BitVec 64}

/-- The bit by which the search goes left or right. -/
theorem top_bit (hn : n + 1 ≤ 64) :
    ((S <<< (64 - (n + 1))) >>> (SIZE_T_BITSIZE - 1)) &&& 1#64 = if S.toNat.testBit n then 1#64 else 0#64 := by
  apply BitVec.eq_of_getLsbD_eq
  intro i hi
  have hbit : S.toNat.testBit n = S.getLsbD n := rfl
  rw [BitVec.getLsbD_and, BitVec.getLsbD_ushiftRight, BitVec.getLsbD_shiftLeft, hbit]
  by_cases h0 : i = 0
  · subst h0
    have hidx : 63 - (63 - n) = n := by omega
    cases hb : S.getLsbD n <;> simp [SIZE_T_BITSIZE, hidx, hb]
  · have hone : (1#64).getLsbD i = false := by simp [BitVec.getLsbD_one, h0]
    rw [hone, Bool.and_false]
    cases S.getLsbD n <;> simp [hone]

theorem shift_next (hn : n + 1 ≤ 64) : S <<< (64 - (n + 1)) <<< 1 = S <<< (64 - n) := by
  rw [← BitVec.shiftLeft_add]
  congr 1
  omega

/-- A chunk that is not in the trees has the index of its bin and no children. -/
structure Blank (w : elf_addr → BitVec 64) (I : BitVec 64) (X : elf_addr) : Prop where
  bin : w (index X) = I
  left : w (child X 0#64) = 0#64
  right : w (child X 1#64) = 0#64

theorem chunksize_eq (h : m.Usable p) : m.chunksize p = .ok (m.word (head p) &&& ~~~FLAG_BITS) := by
  have hload : m.load (head p) = .ok (m.word (head p)) := load_eq (h.mapped 8#64 (by decide))
  rw [mstate.chunksize, hload]
  rfl

/-- The words after a chunk was put behind the first one of its size. -/
def chain_words (w : elf_addr → BitVec 64) (X x : elf_addr) : elf_addr → BitVec 64 :=
  Function.update (Function.update (Function.update (Function.update (Function.update w (bk (w (fd x))) X)
    (fd x) X) (fd X) (w (fd x))) (bk X) x) (parent X) 0#64

theorem chain_words_link (hapart : Apart (X :: x :: xs)) (hF : w (fd x) ∈ x :: xs) (hq : q ∈ X :: x :: xs)
    (ho : o ∈ offsets) : chain_words w X x (q + o) =
      if q = X ∧ o = 48#64 then 0#64 else if q = X ∧ o = 24#64 then x else if q = X ∧ o = 16#64 then w (fd x)
      else if q = x ∧ o = 16#64 then X else if q = w (fd x) ∧ o = 24#64 then X else w (q + o) := by
  have hX : X ∈ X :: x :: xs := List.mem_cons_self
  have hx : x ∈ X :: x :: xs := List.mem_cons_of_mem _ List.mem_cons_self
  have hF' : w (x + 16#64) ∈ X :: x :: xs := List.mem_cons_of_mem _ hF
  have ho' : o ∈ 8#64 :: offsets := List.mem_cons_of_mem _ ho
  unfold chain_words fd bk parent
  rw [hapart.update hX hq (by decide) ho', hapart.update hX hq (by decide) ho', hapart.update hX hq (by decide) ho',
    hapart.update hx hq (by decide) ho', hapart.update hF' hq (by decide) ho']

theorem IsNode.chain (h : IsNode w I up x xs) (hapart : Apart (X :: x :: xs)) (hblank : Blank w I X) :
    IsNode (chain_words w X x) I up x (X :: xs) := by
  obtain ⟨hX, hnodup⟩ := List.nodup_cons.mp hapart.1
  obtain ⟨hbin, hleft, hright⟩ := hblank
  have hXin : X ∈ X :: x :: xs := List.mem_cons_self
  have hxin : x ∈ X :: x :: xs := List.mem_cons_of_mem _ List.mem_cons_self
  have hxX : x ≠ X := fun heq => hX (heq ▸ List.mem_cons_self)
  have hread : ∀ q ∈ X :: x :: xs, ∀ o ∈ offsets, _ := fun q hq o ho =>
    chain_words_link hapart (h.ring.fd_mem List.mem_cons_self) hq ho
  refine ⟨?_, ?_, ?_, ?_⟩
  · refine (hread x hxin 56#64 (by decide)).trans ?_
    simpa [index] using h.bin
  · refine (hread x hxin 48#64 (by decide)).trans ?_
    simpa [hxX, parent] using h.base
  · refine (h.ring.insert hnodup hX).congr ?_ ?_
    · intro q hq
      have hq' : q ∈ X :: x :: xs := by simpa [or_left_comm] using hq
      refine (hread q hq' 16#64 (by decide)).trans ?_
      simp [Function.update_apply, fd]
    · intro q hq
      have hq' : q ∈ X :: x :: xs := by simpa [or_left_comm] using hq
      refine (hread q hq' 24#64 (by decide)).trans ?_
      simp [Function.update_apply, fd, bk]
  · intro y hy
    have hyin : y ∈ X :: x :: xs := by
      obtain rfl | hy := List.mem_cons.mp hy
      · exact hXin
      · exact List.mem_cons_of_mem _ (List.mem_cons_of_mem _ hy)
    rw [child_left, child_right]
    have hold : w (index y) = I ∧ (y ≠ X → w (parent y) = 0#64) ∧ w (y + 32#64) = 0#64 ∧ w (y + 40#64) = 0#64 := by
      obtain rfl | hy := List.mem_cons.mp hy
      · rw [child_left] at hleft
        rw [child_right] at hright
        exact ⟨hbin, fun hne => absurd rfl hne, hleft, hright⟩
      · obtain ⟨hbin', hbase', hleft', hright'⟩ := h.chained y hy
        rw [child_left] at hleft'
        rw [child_right] at hright'
        exact ⟨hbin', fun _ => hbase', hleft', hright'⟩
    refine ⟨(hread y hyin 56#64 (by decide)).trans ?_, (hread y hyin 48#64 (by decide)).trans ?_,
      (hread y hyin 32#64 (by decide)).trans ?_, (hread y hyin 40#64 (by decide)).trans ?_⟩
    · simpa [index] using hold.1
    · by_cases heq : y = X
      · simp [heq]
      · simpa [heq, parent] using hold.2.1 heq
    · simpa using hold.2.2.1
    · simpa using hold.2.2.2

theorem chain_words_of_outside (hF : w (fd x) ∈ x :: xs) (ha : Outside a (X :: x :: xs)) :
    chain_words w X x a = w a := by
  have hX : X ∈ X :: x :: xs := List.mem_cons_self
  have hx : x ∈ X :: x :: xs := List.mem_cons_of_mem _ List.mem_cons_self
  unfold chain_words fd bk parent at *
  rw [Function.update_of_ne (ha X hX 48#64 (by decide)), Function.update_of_ne (ha X hX 24#64 (by decide)),
    Function.update_of_ne (ha X hX 16#64 (by decide)), Function.update_of_ne (ha x hx 16#64 (by decide)),
    Function.update_of_ne (ha (w (x + 16#64)) (List.mem_cons_of_mem _ hF) 24#64 (by decide))]

/-- The words after a chunk was put where there was none. -/
def leaf_words (w : elf_addr → BitVec 64) (X C up : elf_addr) : elf_addr → BitVec 64 :=
  Function.update (Function.update (Function.update (Function.update w C X) (parent X) up) (bk X) X) (fd X) X

theorem leaf_words_of_outside (ha : Outside a [X]) (hne : a ≠ link) : leaf_words w X link up a = w a := by
  have hX : X ∈ [X] := List.mem_singleton_self X
  unfold leaf_words fd bk parent
  rw [Function.update_of_ne (ha X hX 16#64 (by decide)), Function.update_of_ne (ha X hX 24#64 (by decide)),
    Function.update_of_ne (ha X hX 48#64 (by decide)), Function.update_of_ne hne]

theorem IsTree.leaf (hapart : Apart [X]) (hlink : Outside link [X]) (hblank : Blank w I X) :
    IsTree (leaf_words w X link up) I link up (.node k X [] .nil .nil) := by
  obtain ⟨hbin, hleft, hright⟩ := hblank
  have hX : X ∈ [X] := List.mem_singleton_self X
  have hread : ∀ o ∈ offsets, leaf_words w X link up (X + o) =
      if o = 16#64 then X else if o = 24#64 then X else if o = 48#64 then up else w (X + o) := by
    intro o ho
    have ho' : o ∈ 8#64 :: offsets := List.mem_cons_of_mem _ ho
    unfold leaf_words fd bk parent
    rw [hapart.update hX hX (by decide) ho', hapart.update hX hX (by decide) ho', hapart.update hX hX (by decide) ho',
      Function.update_of_ne (hlink X hX o ho).symm]
    simp
  refine ⟨?_, ⟨?_, ?_, ?_, ?_⟩, ?_, ?_⟩
  · unfold leaf_words fd bk parent
    rw [Function.update_of_ne (hlink X hX 16#64 (by decide)), Function.update_of_ne (hlink X hX 24#64 (by decide)),
      Function.update_of_ne (hlink X hX 48#64 (by decide)), Function.update_self]
  · exact (hread 56#64 (by decide)).trans hbin
  · exact hread 48#64 (by decide)
  · exact IsRing.nil_iff.mpr ⟨hread 16#64 (by decide), hread 24#64 (by decide)⟩
  · intro y hy
    cases hy
  · rw [IsTree, child_left, hread 32#64 (by decide)]
    rwa [child_left] at hleft
  · rw [IsTree, child_right, hread 40#64 (by decide)]
    rwa [child_right] at hright

theorem insert_large_chain_eq (hx : m.Usable x) (hF : m.Usable (m.word (fd x))) (hX : m.Usable X) :
    insert_large_chain m X x = .ok { m with word := chain_words m.word X x } := by
  simp only [insert_large_chain, mstate.load, mstate.store, put_mapped, hx.mapped_fd, hF.mapped_bk, hX.mapped_fd,
    hX.mapped_bk, hX.mapped_parent, hx.ok, hF.ok, if_true, Outcome.ok_bind, Bool.and_self]
  rfl

theorem insert_large_leaf_eq (hlink : m.mapped link = true) (hX : m.Usable X) :
    insert_large_leaf m X link up = .ok { m with word := leaf_words m.word X link up } := by
  simp only [insert_large_leaf, mstate.store, put_mapped, hlink, hX.mapped_fd, hX.mapped_bk, hX.mapped_parent, if_true,
    Outcome.ok_bind]
  rfl

/-- What the loop does with the link `C` of the tree chunk `x`. -/
def insert_below (X : elf_addr) (S : BitVec 64) (fuel : Nat) (m : mstate) (C x : elf_addr) (K : BitVec 64) :
    Outcome mstate := do
  let c ← m.load C
  if c ≠ 0#64 then insert_large_loop X S fuel m c K
  else if m.ok_address C then insert_large_leaf m X C x
  else CORRUPTION_ERROR_ACTION

theorem insert_below_eq (htree : IsTree m.word I link x t) (hmapped : m.mapped link = true)
    (hok : m.ok_address link = true) (hapart : Apart [X]) (hX : m.Usable X) (hlink : Outside link [X])
    (hblank : Blank m.word I X) (husable : ∀ p ∈ t.values, m.Usable p)
    (ih : t ≠ .nil → ∃ w', insert_large_loop X S fuel m (m.word link) K = .ok { m with word := w' } ∧
      IsTree w' I link x (t.insert S.toNat X n) ∧ ∀ a, Outside a (X :: t.values) → w' a = m.word a) :
    ∃ w', insert_below X S fuel m link x K = .ok { m with word := w' } ∧
      IsTree w' I link x (t.insert S.toNat X n) ∧
      ∀ a, a ≠ link → Outside a (X :: t.values) → w' a = m.word a := by
  rw [insert_below, load_eq hmapped, Outcome.ok_bind]
  cases t with
  | nil =>
    have hnull : m.word link = 0#64 := htree
    rw [if_neg (not_not.mpr hnull), if_pos hok, insert_large_leaf_eq hmapped hX]
    exact ⟨_, rfl, IsTree.leaf hapart hlink hblank, fun a hne ha => leaf_words_of_outside ha hne⟩
  | node k y ys l r =>
    obtain ⟨w', hrun, htree', hframe⟩ := ih (by simp)
    have hnull : m.word link ≠ 0#64 := by
      rw [htree.1]
      exact (husable y (by simp)).ne_null
    rw [if_pos hnull]
    exact ⟨w', hrun, htree', fun a _ ha => hframe a ha⟩

/-- A chunk put behind the first one of its size leaves the rest of the tree alone. -/
theorem IsTree.chain (h : IsTree w I link up (.node k x xs l r)) (hapart : Apart (X :: (Trie.node k x xs l r).values))
    (hlink : Outside link (X :: (Trie.node k x xs l r).values)) (hblank : Blank w I X) :
    IsTree (chain_words w X x) I link up (.node k x (X :: xs) l r) ∧
      ∀ a, Outside a (X :: (Trie.node k x xs l r).values) → chain_words w X x a = w a := by
  obtain ⟨hroot, hnode, hl, hr⟩ := h
  have hring := hnode.ring.fd_mem (List.mem_cons_self (a := x) (l := xs))
  have hown : Apart (X :: x :: xs) := hapart.sublist (Trie.chain_sublist.cons_cons X)
  have hsub : ∀ q ∈ X :: x :: xs, q ∈ X :: (Trie.node k x xs l r).values := fun q hq =>
    (Trie.chain_sublist.cons_cons X).subset hq
  obtain ⟨hX, hnodup⟩ := List.nodup_cons.mp hapart.1
  have hframe : ∀ a, Outside a (X :: (Trie.node k x xs l r).values) → chain_words w X x a = w a := fun a ha =>
    chain_words_of_outside hring (ha.mono hsub)
  have hslots : ∀ o ∈ offsets, o ≠ 16#64 → o ≠ 24#64 → chain_words w X x (x + o) = w (x + o) := by
    intro o ho h16 h24
    have hxX : x ≠ X := fun heq => (List.nodup_cons.mp hown.1).1 (heq ▸ List.mem_cons_self)
    rw [chain_words_link hown hring (List.mem_cons_of_mem _ List.mem_cons_self) ho]
    simp [hxX, h16, h24]
  have hbelow : ∀ p ∈ (Trie.node k x xs l r).values, p ∉ x :: xs → ∀ o ∈ offsets,
      chain_words w X x (p + o) = w (p + o) := by
    intro p hp hnot o ho
    refine chain_words_of_outside hring (hapart.outside (List.mem_cons_of_mem _ hp) hsub ?_ ho)
    rw [List.mem_cons]
    rintro (rfl | hin)
    · exact hX hp
    · exact hnot hin
  refine ⟨⟨(hframe link hlink).trans hroot, hnode.chain hown hblank, hl.congr ?_ fun p hp => ?_,
    hr.congr ?_ fun p hp => ?_⟩, hframe⟩
  · rw [child_left]
    exact hslots _ (by decide) (by decide) (by decide)
  · exact hbelow p (Trie.left_sublist.mem hp) fun hin => (Trie.not_mem_children hnodup hin).1 hp
  · rw [child_right]
    exact hslots _ (by decide) (by decide) (by decide)
  · exact hbelow p (Trie.right_sublist.mem hp) fun hin => (Trie.not_mem_children hnodup hin).2 hp

/-- The loop puts the chunk where the trie has it, and writes no other words than
the links of the chunks. -/
theorem insert_large_loop_eq (hne : t ≠ .nil) (htree : IsTree m.word I link up t) (hsized : Sized m.word t)
    (hwithin : t.Within lo n) (hdvd : 2 ^ n ∣ lo) (hle : lo ≤ S.toNat) (hlt : S.toNat < lo + 2 ^ n) (hn : n ≤ 64)
    (hfuel : n < fuel) (hapart : Apart (X :: t.values)) (husable : ∀ p ∈ X :: t.values, m.Usable p)
    (hlink : Outside link (X :: t.values)) (hblank : Blank m.word I X) :
    ∃ w', insert_large_loop X S fuel m (m.word link) (S <<< (64 - n)) = .ok { m with word := w' } ∧
      IsTree w' I link up (t.insert S.toNat X n) ∧ ∀ a, Outside a (X :: t.values) → w' a = m.word a := by
  induction t generalizing link up lo n fuel with
  | nil => exact absurd rfl hne
  | node k x xs l r ihl ihr =>
    obtain ⟨fuel, rfl⟩ : ∃ f, fuel = f + 1 := Nat.exists_eq_succ_of_ne_zero (by omega)
    obtain ⟨hroot, hnode, hl, hr⟩ := id htree
    have hxin : x ∈ X :: (Trie.node k x xs l r).values := by simp
    have hx := husable x hxin
    have hX := husable X List.mem_cons_self
    have hkey : (m.word (head x) &&& ~~~FLAG_BITS).toNat = k := hsized (k, x) (by simp)
    rw [insert_large_loop, hroot, chunksize_eq hx, Outcome.ok_bind, Trie.insert]
    by_cases hk : k = S.toNat
    · have hsize : m.word (head x) &&& ~~~FLAG_BITS = S := BitVec.eq_of_toNat_eq (hkey.trans hk)
      have hring := hnode.ring.fd_mem (List.mem_cons_self (a := x) (l := xs))
      have hF := husable (m.word (fd x)) (List.mem_cons_of_mem _ (Trie.chain_sublist.mem hring))
      obtain ⟨hchain, hframe⟩ := htree.chain hapart hlink hblank
      rw [if_neg (not_not.mpr hsize), if_pos hk, insert_large_chain_eq hx hF hX]
      exact ⟨_, rfl, hchain, hframe⟩
    · have hsize : m.word (head x) &&& ~~~FLAG_BITS ≠ S := fun heq => hk (hkey.symm.trans (congrArg BitVec.toNat heq))
      rw [if_pos hsize, if_neg hk]
      cases n with
      | zero =>
        -- no size is left but the one of the node
        have hbounds := hwithin.key_bounds
        omega
      | succ n =>
        obtain ⟨hklo, hkhi, hlw, hrw⟩ := hwithin
        obtain ⟨hXnot, hnodup⟩ := List.nodup_cons.mp hapart.1
        have hpow : 2 ^ (n + 1) = 2 ^ n + 2 ^ n := by ring
        have hdvd' : 2 ^ n ∣ lo := (pow_dvd_pow 2 (Nat.le_succ n)).trans hdvd
        have hhalf := Trie.testBit_iff_of_bounds hdvd hle hlt
        have hXapart : Apart [X] := hapart.sublist (by simp)
        have hxX : x ≠ X := fun heq => hXnot (heq ▸ Trie.chain_sublist.mem List.mem_cons_self)
        have hslot : ∀ s : Trie elf_addr, s.values.Sublist (Trie.node k x xs l r).values → x ∉ s.values →
            ∀ o ∈ offsets, Outside (x + o) (X :: s.values) := fun s hs hnot o ho =>
          hapart.outside hxin (fun q hq => (hs.cons_cons X).subset hq) (by simp [hxX, hnot]) ho
        rw [top_bit hn, shift_next hn, Nat.add_sub_cancel]
        by_cases hbit : S.toNat.testBit n = true
        · rw [if_pos hbit, if_pos hbit]
          have hlower := hhalf.mp hbit
          have hsub : r.values.Sublist (Trie.node k x xs l r).values := Trie.right_sublist
          have hout : Outside (child x 1#64) (X :: r.values) := by
            rw [child_right]
            exact hslot r hsub (Trie.not_mem_children hnodup List.mem_cons_self).2 _ (by decide)
          have hn : n < fuel := by omega
          obtain ⟨w', hrun, htree', hframe⟩ := insert_below_eq (K := S <<< (64 - n)) (n := n) hr
            hx.mapped_right hx.ok_right hXapart hX (hout.mono (by simp)) hblank
            (fun p hp => husable p (List.mem_cons_of_mem _ (hsub.mem hp))) fun hne =>
              ihr hne hr (fun e he => hsized e (Trie.mem_entries_node.mpr (.inr (.inr he)))) hrw
                (Nat.dvd_add hdvd' (dvd_refl _)) hlower (by omega) (by omega) hn
                (hapart.sublist (hsub.cons_cons X)) (fun p hp => husable p ((hsub.cons_cons X).mem hp)) hout
          exact ⟨w', hrun, htree.set_right [X] hapart hlink htree' hframe,
            fun a ha => hframe a (ha.ne_child_right hxin) (ha.mono fun q hq => (hsub.cons_cons X).subset hq)⟩
        · rw [if_neg hbit, if_neg hbit]
          have hlower := mt hhalf.mpr hbit
          have hsub : l.values.Sublist (Trie.node k x xs l r).values := Trie.left_sublist
          have hout : Outside (child x 0#64) (X :: l.values) := by
            rw [child_left]
            exact hslot l hsub (Trie.not_mem_children hnodup List.mem_cons_self).1 _ (by decide)
          have hn : n < fuel := by omega
          obtain ⟨w', hrun, htree', hframe⟩ := insert_below_eq (K := S <<< (64 - n)) (n := n) hl
            hx.mapped_left hx.ok_left hXapart hX (hout.mono (by simp)) hblank
            (fun p hp => husable p (List.mem_cons_of_mem _ (hsub.mem hp))) fun hne =>
              ihl hne hl (fun e he => hsized e (Trie.mem_entries_node.mpr (.inr (.inl he)))) hlw
                hdvd' hle (by omega) (by omega) hn
                (hapart.sublist (hsub.cons_cons X)) (fun p hp => husable p ((hsub.cons_cons X).mem hp)) hout
          exact ⟨w', hrun, htree.set_left [X] hapart hlink htree' hframe,
            fun a ha => hframe a (ha.ne_child_left hxin) (ha.mono fun q hq => (hsub.cons_cons X).subset hq)⟩

end ldso.malloc
