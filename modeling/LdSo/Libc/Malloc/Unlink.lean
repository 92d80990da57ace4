import LdSo.Libc.Malloc.Search

open cmodel

namespace ldso.malloc

variable {m m' : mstate} {w w' : elf_addr → BitVec 64} {I : BitVec 64} {link up x y z X XP R a : elf_addr}
  {xs ys rs ps qs : List elf_addr} {t l r : Trie elf_addr} {k n lo i fuel : Nat} {o c : BitVec 64}
  {U : elf_addr → Prop} {ts : Nat → Trie elf_addr}

/-- A tree is hung below another chunk. -/
theorem relink_child_eq (hslot : ∀ p, child p c = p + o) (ho : o ∈ offsets) (htree : IsTree m.word I (child X c) X t)
    (hR : m.word (child R c) = 0#64) (hapart : Apart (R :: t.values)) (husable : ∀ p ∈ R :: t.values, m.Usable p)
    (hX : m.Usable X) :
    ∃ w', relink_child m X R c = .ok { m with word := w' } ∧ IsTree w' I (child R c) R t ∧
      ∀ a, a ≠ child R c → (∀ p ∈ t.values, a ≠ p + 48#64) → w' a = m.word a := by
  have hload : m.load (child X c) = .ok (root t) := by
    rw [load_eq, htree.root_eq]
    rw [hslot]
    exact hX.mapped o (List.mem_cons_of_mem _ ho)
  rw [relink_child, hload, Outcome.ok_bind]
  cases t with
  | nil =>
    have hnull : root .nil = 0#64 := rfl
    rw [if_neg (not_not.mpr hnull)]
    exact ⟨m.word, rfl, hR, fun a _ _ => rfl⟩
  | node k y ys l r =>
    obtain ⟨-, hnode, hl, hr⟩ := htree
    have hyin : y ∈ R :: (Trie.node k y ys l r).values := by simp
    have hy := husable y hyin
    have hroot : root (.node k y ys l r) = y := rfl
    obtain ⟨hRnot, hnodup⟩ := List.nodup_cons.mp hapart.1
    have hmapped : m.mapped (child R c) = true := by
      rw [hslot]
      exact (husable R List.mem_cons_self).mapped o (List.mem_cons_of_mem _ ho)
    rw [hroot, if_pos hy.ne_null, if_pos hy.ok, store_eq hmapped, Outcome.ok_bind,
      store_eq (m := m.put (child R c) y) hy.mapped_parent]
    have hread : ∀ q ∈ (Trie.node k y ys l r).values, ∀ o' ∈ offsets, (q = y → o' ≠ 48#64) →
        Function.update (Function.update m.word (child R c) y) (parent y) R (q + o') = m.word (q + o') := by
      intro q hq o' ho' hne
      have hqR : q + o' ≠ child R c := by
        rw [hslot]
        exact hapart.add_ne (List.mem_cons_of_mem _ hq) List.mem_cons_self (fun heq => hRnot (heq ▸ hq)) ho' ho
      have hqy : q + o' ≠ parent y := by
        intro heq
        obtain rfl := hapart.2 q (List.mem_cons_of_mem _ hq) y hyin o' ho' 48#64 (by decide) heq
        exact hne rfl (add_left_cancel heq)
      rw [Function.update_of_ne hqy, Function.update_of_ne hqR]
    have hyvals : y ∈ (Trie.node k y ys l r).values := by simp
    have hrest : ∀ q ∈ (Trie.node k y ys l r).values, q ≠ y → ∀ o' ∈ offsets,
        Function.update (Function.update m.word (child R c) y) (parent y) R (q + o') = m.word (q + o') :=
      fun q hq hne o' ho' => hread q hq o' ho' fun heq => absurd heq hne
    refine ⟨_, rfl, ⟨?_, hnode.rebase ?_ ?_ ?_, hl.congr ?_ ?_, hr.congr ?_ ?_⟩, ?_⟩
    · have hne : child R c ≠ parent y := by
        rw [hslot]
        exact hapart.add_ne List.mem_cons_self hyin (fun heq => hRnot (heq ▸ hyvals)) ho (by decide)
      exact (Function.update_of_ne hne _ _).trans (Function.update_self _ _ _)
    · exact fun o' ho' _ _ hne => hread y hyvals o' ho' fun _ => hne
    · exact Function.update_self _ _ _
    · refine fun q hq o' ho' => hrest q (Trie.chain_sublist.mem (List.mem_cons_of_mem _ hq)) ?_ o' ho'
      rintro rfl
      exact (List.nodup_cons.mp (hnodup.sublist Trie.chain_sublist)).1 hq
    · rw [child_left]
      exact hread y hyvals _ (by decide) fun _ => by decide
    · refine fun q hq o' ho' => hrest q (Trie.left_sublist.mem hq) ?_ o' ho'
      rintro rfl
      exact (Trie.not_mem_children hnodup List.mem_cons_self).1 hq
    · rw [child_right]
      exact hread y hyvals _ (by decide) fun _ => by decide
    · refine fun q hq o' ho' => hrest q (Trie.right_sublist.mem hq) ?_ o' ho'
      rintro rfl
      exact (Trie.not_mem_children hnodup List.mem_cons_self).2 hq
    · intro a hne hall
      exact (Function.update_of_ne (hall y hyvals) _ _).trans (Function.update_of_ne hne _ _)

theorem mstate.Usable.with_word (h : m.Usable x) (w : elf_addr → BitVec 64) : ({ m with word := w } : mstate).Usable x :=
  ⟨h.ne_null, h.ok, h.mapped, h.ok_links⟩

/-- The chunk that replaces `X` becomes a node with what was below `X`. -/
theorem relink_replacement_eq (XP : elf_addr) (hnode : IsNode m.word I up R rs) (hleft : m.word (child R 0#64) = 0#64)
    (hright : m.word (child R 1#64) = 0#64) (hl : IsTree m.word I (child X 0#64) X l)
    (hr : IsTree m.word I (child X 1#64) X r) (hapart : Apart (X :: (Trie.node k R rs l r).values))
    (husable : ∀ p ∈ X :: (Trie.node k R rs l r).values, m.Usable p) :
    ∃ w', relink_replacement m X XP R = .ok { m with word := w' } ∧ IsNode w' I XP R rs ∧
      IsTree w' I (child R 0#64) R l ∧ IsTree w' I (child R 1#64) R r ∧
      ∀ a, Outside a (Trie.node k R rs l r).values → w' a = m.word a := by
  obtain ⟨hXnot, hnodup⟩ := List.nodup_cons.mp hapart.1
  have hvals := hapart.sublist (List.sublist_cons_self X _)
  have hRin : R ∈ (Trie.node k R rs l r).values := by simp
  have hR := husable R (List.mem_cons_of_mem _ hRin)
  have hRX : R ≠ X := fun heq => hXnot (heq ▸ hRin)
  have hwhole : ∀ q ∈ (Trie.node k R rs l r).values, q ≠ X := fun q hq heq => hXnot (heq ▸ hq)
  have hRl := (Trie.not_mem_children hnodup (List.mem_cons_self (a := R) (l := rs))).1
  have hRr := (Trie.not_mem_children hnodup (List.mem_cons_self (a := R) (l := rs))).2
  rw [relink_replacement, if_pos hR.ok, store_eq hR.mapped_parent, Outcome.ok_bind]
  -- the parent
  obtain ⟨m₁, hm₁⟩ : ∃ m₁, m.put (parent R) XP = m₁ := ⟨_, rfl⟩
  have hword₁ : ∀ a, a ≠ R + 48#64 → m₁.word a = m.word a := fun a ha => by
    rw [← hm₁, put_word]
    exact Function.update_of_ne ha _ _
  have hne₁ : ∀ q ∈ X :: (Trie.node k R rs l r).values, ∀ o ∈ offsets, (q = R → o ≠ 48#64) → q + o ≠ R + 48#64 := by
    intro q hq o ho hne heq
    obtain rfl := hapart.2 q hq R (List.mem_cons_of_mem _ hRin) o ho 48#64 (by decide) heq
    exact hne rfl (add_left_cancel heq)
  have hnode₁ : IsNode m₁.word I XP R rs := by
    refine hnode.rebase (fun o ho _ _ hne => hword₁ _ (hne₁ R (List.mem_cons_of_mem _ hRin) o ho fun _ => hne)) ?_
      fun q hq o ho => hword₁ _ (hne₁ q (List.mem_cons_of_mem _ (Trie.chain_sublist.mem (List.mem_cons_of_mem _ hq))) o ho ?_)
    · rw [← hm₁, put_word]
      exact Function.update_self _ _ _
    · rintro rfl
      exact absurd hq (List.nodup_cons.mp (hnodup.sublist Trie.chain_sublist)).1
  have hl₁ : IsTree m₁.word I (child X 0#64) X l := by
    refine hl.congr (hword₁ _ ?_) fun q hq o ho => hword₁ _ ?_
    · rw [child_left]
      exact hne₁ X List.mem_cons_self _ (by decide) fun heq => absurd heq.symm hRX
    · exact hne₁ q (List.mem_cons_of_mem _ (Trie.left_sublist.mem hq)) o ho fun heq => absurd (heq ▸ hq) hRl
  have hr₁ : IsTree m₁.word I (child X 1#64) X r := by
    refine hr.congr (hword₁ _ ?_) fun q hq o ho => hword₁ _ ?_
    · rw [child_right]
      exact hne₁ X List.mem_cons_self _ (by decide) fun heq => absurd heq.symm hRX
    · exact hne₁ q (List.mem_cons_of_mem _ (Trie.right_sublist.mem hq)) o ho fun heq => absurd (heq ▸ hq) hRr
  have hu₁ : ∀ p ∈ X :: (Trie.node k R rs l r).values, m₁.Usable p := fun p hp => by
    rw [← hm₁]
    exact (husable p hp).with_word _
  have hsep : ∀ q ∈ X :: (Trie.node k R rs l r).values, ∀ p ∈ (Trie.node k R rs l r).values, q ≠ p → ∀ o ∈ offsets,
      ∀ o' ∈ offsets, q + o ≠ p + o' := fun q hq p hp hne o ho o' ho' =>
    hapart.add_ne hq (List.mem_cons_of_mem _ hp) hne ho ho'
  have hX := hu₁ X List.mem_cons_self
  -- the left child
  have hsubl : (R :: l.values).Sublist (X :: (Trie.node k R rs l r).values) := by
    rw [Trie.values_node]
    exact ((List.sublist_append_left _ _).trans (List.sublist_append_right _ _)).cons_cons R |>.trans
      (List.sublist_cons_self X _)
  have hsubr : (R :: r.values).Sublist (X :: (Trie.node k R rs l r).values) := by
    rw [Trie.values_node]
    exact ((List.sublist_append_right _ _).trans (List.sublist_append_right _ _)).cons_cons R |>.trans
      (List.sublist_cons_self X _)
  have hslot₁ : m₁.word (child R 0#64) = 0#64 ∧ m₁.word (child R 1#64) = 0#64 := by
    rw [child_left] at hleft ⊢
    rw [child_right] at hright ⊢
    rw [hword₁ _ (hne₁ R (List.mem_cons_of_mem _ hRin) 32#64 (by decide) fun _ => by decide),
      hword₁ _ (hne₁ R (List.mem_cons_of_mem _ hRin) 40#64 (by decide) fun _ => by decide)]
    exact ⟨hleft, hright⟩
  obtain ⟨w₂, hrun₂, hl₂, hframe₂⟩ := relink_child_eq child_left (by decide) hl₁ hslot₁.1 (hapart.sublist hsubl)
    (fun p hp => hu₁ p (hsubl.mem hp)) hX
  rw [child_left] at hframe₂
  have hread₂ : ∀ q ∈ X :: (Trie.node k R rs l r).values, q ∉ l.values → ∀ o ∈ offsets, (q = R → o ≠ 32#64) →
      w₂ (q + o) = m₁.word (q + o) := by
    intro q hq hql o ho hne
    refine hframe₂ _ ?_ fun p hp => hsep q hq p (Trie.left_sublist.mem hp) (fun heq => hql (heq ▸ hp)) o ho _ (by decide)
    by_cases hqR : q = R
    · subst hqR
      exact fun heq => hne rfl (add_left_cancel heq)
    · exact hsep q hq R hRin hqR o ho _ (by decide)
  have hXl : X ∉ l.values := fun hin => hXnot (Trie.left_sublist.mem hin)
  have hr₂ : IsTree w₂ I (child X 1#64) X r := by
    refine hr₁.congr ?_ fun q hq o ho => hread₂ q (List.mem_cons_of_mem _ (Trie.right_sublist.mem hq))
      (fun hin => Trie.left_not_mem_right hnodup hin hq) o ho fun heq => absurd (heq ▸ hq) hRr
    rw [child_right]
    exact hread₂ X List.mem_cons_self hXl _ (by decide) fun heq => absurd heq.symm hRX
  have hright₂ : w₂ (child R 1#64) = 0#64 := by
    have hslot := hslot₁.2
    rw [child_right] at hslot ⊢
    rw [hread₂ R (List.mem_cons_of_mem _ hRin) hRl _ (by decide) fun _ => by decide]
    exact hslot
  -- the right child
  obtain ⟨w₃, hrun₃, hr₃, hframe₃⟩ := relink_child_eq (m := { m₁ with word := w₂ }) child_right (by decide) hr₂ hright₂
    (hapart.sublist hsubr) (fun p hp => (hu₁ p (hsubr.mem hp)).with_word _) (hX.with_word _)
  rw [child_right] at hframe₃
  have hread₃ : ∀ q ∈ (Trie.node k R rs l r).values, q ∉ r.values → ∀ o ∈ offsets, (q = R → o ≠ 40#64) →
      w₃ (q + o) = w₂ (q + o) := by
    intro q hq hqr o ho hne
    refine hframe₃ _ ?_ fun p hp => hsep q (List.mem_cons_of_mem _ hq) p (Trie.right_sublist.mem hp)
      (fun heq => hqr (heq ▸ hp)) o ho _ (by decide)
    by_cases hqR : q = R
    · subst hqR
      exact fun heq => hne rfl (add_left_cancel heq)
    · exact hsep q (List.mem_cons_of_mem _ hq) R hRin hqR o ho _ (by decide)
  refine ⟨w₃, ?_, ?_, ?_, hr₃, ?_⟩
  · rw [hm₁, hrun₂, Outcome.ok_bind, hrun₃, ← hm₁]
    rfl
  · refine hnode₁.congr (fun o ho hleft hright => ?_) fun q hq o ho => ?_
    · rw [hread₃ R hRin hRr o ho fun _ => hright,
        hread₂ R (List.mem_cons_of_mem _ hRin) hRl o ho fun _ => hleft]
    · have hqin : q ∈ (Trie.node k R rs l r).values := Trie.chain_sublist.mem (List.mem_cons_of_mem R hq)
      have hqR : q ≠ R := by
        rintro rfl
        exact (List.nodup_cons.mp (hnodup.sublist Trie.chain_sublist)).1 hq
      have hnot := Trie.not_mem_children hnodup (List.mem_cons_of_mem R hq)
      rw [hread₃ q hqin hnot.2 o ho fun heq => absurd heq hqR,
        hread₂ q (List.mem_cons_of_mem _ hqin) hnot.1 o ho fun heq => absurd heq hqR]
  · refine hl₂.congr ?_ fun q hq o ho => hread₃ q (Trie.left_sublist.mem hq)
      (Trie.left_not_mem_right hnodup hq) o ho fun heq => absurd (heq ▸ hq) hRl
    rw [child_left]
    exact hread₃ R hRin hRr _ (by decide) fun _ => by decide
  · intro a ha
    rw [hframe₃ a (ha R hRin _ (by decide)) fun p hp => ha p (Trie.right_sublist.mem hp) _ (by decide)]
    change w₂ a = m.word a
    rw [hframe₂ a (ha R hRin _ (by decide)) fun p hp => ha p (Trie.left_sublist.mem hp) _ (by decide)]
    exact hword₁ a (ha R hRin _ (by decide))

/-- The way to a leaf takes it off the tree. -/
theorem rightmost_loop_eq (htree : IsTree m.word I link up t) (hne : t ≠ .nil) (hwithin : t.Within lo n)
    (hfuel : n < fuel) (hapart : Apart t.values) (husable : ∀ p ∈ t.values, m.Usable p) (hlink : Outside link t.values)
    (hmapped : m.mapped link = true) (hok : m.ok_address link = true) :
    ∃ RP k R rs t' up', rightmost_loop fuel m link (root t) = .ok (RP, R) ∧ t.popLeaf = some ((k, R, rs), t') ∧
      m.mapped RP = true ∧ m.ok_address RP = true ∧ IsTree (Function.update m.word RP 0#64) I link up t' ∧
      IsNode (Function.update m.word RP 0#64) I up' R rs ∧ Function.update m.word RP 0#64 (child R 0#64) = 0#64 ∧
      Function.update m.word RP 0#64 (child R 1#64) = 0#64 ∧
      ∀ a, a ≠ link → Outside a t.values → Function.update m.word RP 0#64 a = m.word a := by
  induction t generalizing link up lo n fuel with
  | nil => exact absurd rfl hne
  | node k x xs l r ihl ihr =>
    obtain ⟨fuel, rfl⟩ : ∃ f, fuel = f + 1 := Nat.exists_eq_succ_of_ne_zero (by omega)
    obtain ⟨hroot, hnode, hl, hr⟩ := id htree
    have hxin : x ∈ (Trie.node k x xs l r).values := by simp
    have hx := husable x hxin
    have hrooteq : root (.node k x xs l r) = x := rfl
    have hright : m.load (child x 1#64) = .ok (root r) := by rw [load_eq hx.mapped_right, hr.root_eq]
    have hleft : m.load (child x 0#64) = .ok (root l) := by rw [load_eq hx.mapped_left, hl.root_eq]
    rw [rightmost_loop, hrooteq, hright, Outcome.ok_bind, Trie.popLeaf]
    by_cases hrnil : r = .nil
    · subst hrnil
      have hzero : root .nil = 0#64 := rfl
      rw [if_neg (not_not.mpr hzero), hleft, Outcome.ok_bind]
      by_cases hlnil : l = .nil
      · subst hlnil
        rw [if_neg (not_not.mpr hzero)]
        have hsame : ∀ p ∈ (Trie.node k x xs .nil .nil).values, ∀ o ∈ offsets,
            Function.update m.word link 0#64 (p + o) = m.word (p + o) := fun p hp o ho =>
          Function.update_of_ne (hlink p hp o ho).symm _ _
        refine ⟨link, k, x, xs, .nil, up, rfl, rfl, hmapped, hok, Function.update_self _ _ _,
          hnode.congr (fun o ho _ _ => hsame x hxin o ho)
            (fun y hy => hsame y (Trie.chain_sublist.mem (List.mem_cons_of_mem _ hy))), ?_, ?_,
          fun a hne _ => Function.update_of_ne hne _ _⟩
        · rw [child_left, hsame x hxin _ (by decide), ← child_left]
          exact hl
        · rw [child_right, hsame x hxin _ (by decide), ← child_right]
          exact hr
      · cases n with
        | zero => exact absurd hwithin.2.1 hlnil
        | succ n =>
          have hsub : l.values.Sublist (Trie.node k x xs l .nil).values := Trie.left_sublist
          have hout := hapart.child_left_outside
          obtain ⟨RP, k', R, rs, t', up', hrun, hpop, hRP, hokRP, htree', hnode', hleft', hright', hframe⟩ :=
            ihl hl hlnil hwithin.2.2.1 (Nat.lt_of_succ_lt_succ hfuel) (hapart.sublist hsub)
              (fun p hp => husable p (hsub.mem hp)) hout hx.mapped_left hx.ok_left
          rw [if_pos (root_ne_null (fun p hp => husable p (hsub.mem hp)) hlnil), hpop]
          exact ⟨RP, k', R, rs, _, up', hrun, rfl, hRP, hokRP, htree.set_left [] hapart hlink htree' hframe, hnode',
            hleft', hright', fun a _ ha => hframe a (ha.ne_child_left hxin) (ha.mono fun q hq => hsub.mem hq)⟩
    · cases n with
      | zero => exact absurd hwithin.2.2 hrnil
      | succ n =>
        have hsub : r.values.Sublist (Trie.node k x xs l r).values := Trie.right_sublist
        have hout := hapart.child_right_outside
        obtain ⟨RP, k', R, rs, t', up', hrun, hpop, hRP, hokRP, htree', hnode', hleft', hright', hframe⟩ :=
          ihr hr hrnil hwithin.2.2.2 (Nat.lt_of_succ_lt_succ hfuel) (hapart.sublist hsub)
            (fun p hp => husable p (hsub.mem hp)) hout hx.mapped_right hx.ok_right
        rw [if_pos (root_ne_null (fun p hp => husable p (hsub.mem hp)) hrnil), hpop]
        exact ⟨RP, k', R, rs, _, up', hrun, rfl, hRP, hokRP, htree.set_right [] hapart hlink htree' hframe, hnode',
          hleft', hright', fun a _ ha => hframe a (ha.ne_child_right hxin) (ha.mono fun q hq => hsub.mem hq)⟩

/-- The words after a chunk was taken out of the ring of its size. -/
def unchain_words (w : elf_addr → BitVec 64) (X : elf_addr) : elf_addr → BitVec 64 :=
  Function.update (Function.update w (bk (w (fd X))) (w (bk X))) (fd (w (bk X))) (w (fd X))

theorem unchain_words_of_outside (hfd : w (fd X) ∈ qs) (hbk : w (bk X) ∈ qs) (ha : Outside a qs) :
    unchain_words w X a = w a := by
  unfold unchain_words
  refine (Function.update_of_ne (ha (w (bk X)) hbk 16#64 (by decide)) _ _).trans ?_
  exact Function.update_of_ne (ha (w (fd X)) hfd 24#64 (by decide)) _ _

theorem unchain_words_link (hapart : Apart qs) (hfd : w (fd X) ∈ qs) (hbk : w (bk X) ∈ qs) (hy : y ∈ qs)
    (ho : o ∈ offsets) :
    unchain_words w X (y + o) = if y = w (bk X) ∧ o = 16#64 then w (fd X)
      else if y = w (fd X) ∧ o = 24#64 then w (bk X) else w (y + o) := by
  have ho' : o ∈ 8#64 :: offsets := List.mem_cons_of_mem _ ho
  have hupdate := hapart.update (w := Function.update w (w (fd X) + 24#64) (w (bk X))) (v := w (fd X)) hbk hy
    (o := 16#64) (by decide) ho'
  have hupdate' := hapart.update (w := w) (v := w (bk X)) hfd hy (o := 24#64) (by decide) ho'
  rw [hupdate'] at hupdate
  exact hupdate

/-- The ring without the chunk, and no other link of its chunks. -/
theorem unchain_words_ring (hapart : Apart qs) (hring : IsRing (fun p => w (fd p)) (fun p => w (bk p)) x (ys ++ X :: xs))
    (hsub : ∀ q ∈ x :: (ys ++ X :: xs), q ∈ qs) (hnodup : (x :: (ys ++ X :: xs)).Nodup) :
    IsRing (fun p => unchain_words w X (fd p)) (fun p => unchain_words w X (bk p)) x (ys ++ xs) := by
  have hXin : X ∈ x :: (ys ++ X :: xs) := by simp
  have hfd := hsub _ (hring.fd_mem hXin)
  have hbk := hsub _ (hring.bk_mem hXin)
  refine (hring.remove hnodup).congr ?_ ?_
  · intro q hq
    have hq' : q ∈ qs := hsub q (by
      simp only [List.mem_cons, List.mem_append] at hq ⊢
      tauto)
    refine (unchain_words_link hapart hfd hbk hq' (o := 16#64) (by decide)).trans ?_
    simp [Function.update_apply, fd]
  · intro q hq
    have hq' : q ∈ qs := hsub q (by
      simp only [List.mem_cons, List.mem_append] at hq ⊢
      tauto)
    refine (unchain_words_link hapart hfd hbk hq' (o := 24#64) (by decide)).trans ?_
    simp [Function.update_apply, bk]

/-- In a ring of more than one chunk the checks of `unlink_large_chunk` are passed. -/
theorem unlink_replacement_chain (fuel : Nat) (hring : IsRing (fun p => m.word (fd p)) (fun p => m.word (bk p)) x xs)
    (hX : X ∈ x :: xs) (hne : m.word (bk X) ≠ X) (husable : ∀ p ∈ x :: xs, m.Usable p) :
    unlink_replacement fuel m X = .ok ({ m with word := unchain_words m.word X }, m.word (bk X)) := by
  have hu := husable X hX
  have hF := husable _ (hring.fd_mem hX)
  have hR := husable _ (hring.bk_mem hX)
  obtain ⟨hback, hforward⟩ := hring.linked hX
  have hback' : m.word (bk (m.word (fd X))) = X := hback
  have hforward' : m.word (fd (m.word (bk X))) = X := hforward
  rw [unlink_replacement, load_eq hu.mapped_bk, Outcome.ok_bind, if_pos hne, load_eq hu.mapped_fd, Outcome.ok_bind,
    if_pos hF.ok, load_eq hF.mapped_bk, Outcome.ok_bind, if_pos hback', load_eq hR.mapped_fd, Outcome.ok_bind,
    if_pos hforward', store_eq hF.mapped_bk, Outcome.ok_bind,
    store_eq (m := m.put (bk (m.word (fd X))) (m.word (bk X))) hR.mapped_fd]
  rfl

/-- What `unlink_replacement` leaves of a node whose first chunk is `X`: the chunk `R`
stands as the first one, but for its own links to the tree. -/
structure Replaced (m : mstate) (w' : elf_addr → BitVec 64) (I : BitVec 64) (X R : elf_addr) (t t' : Trie elf_addr) :
    Prop where
  node : ∃ k rs l r up, t' = .node k R rs l r ∧ IsNode w' I up R rs ∧ w' (child R 0#64) = 0#64 ∧
    w' (child R 1#64) = 0#64 ∧ IsTree w' I (child X 0#64) X l ∧ IsTree w' I (child X 1#64) X r
  frame : ∀ a, Outside a t.values → w' a = m.word a
  index : w' (index X) = m.word (index X)

theorem unlink_replacement_last (htree : IsTree m.word I link up (.node k X xs l r)) (hxs : xs ≠ [])
    (hapart : Apart (Trie.node k X xs l r).values) (husable : ∀ p ∈ (Trie.node k X xs l r).values, m.Usable p) :
    ∃ w' R, unlink_replacement fuel m X = .ok ({ m with word := w' }, R) ∧
      Replaced m w' I X R (.node k X xs l r) (Trie.erase X (.node k X xs l r)) := by
  obtain ⟨-, hnode, hl, hr⟩ := htree
  obtain ⟨ys, z, rfl⟩ : ∃ ys z, xs = ys ++ [z] := ⟨xs.dropLast, xs.getLast hxs, (List.dropLast_append_getLast hxs).symm⟩
  have hnodup := hapart.1
  have hsub : ∀ q ∈ X :: (ys ++ [z]), q ∈ (Trie.node k X (ys ++ [z]) l r).values := fun q hq => Trie.chain_sublist.mem hq
  have hbk : m.word (bk X) = z := by
    have hfirst := hnode.ring.first.2.1
    simpa using hfirst
  have hchain := hnodup.sublist Trie.chain_sublist
  have hzX : z ≠ X := by
    rintro rfl
    exact (List.nodup_cons.mp hchain).1 (by simp)
  have hXin : X ∈ X :: (ys ++ [z]) := List.mem_cons_self
  have hfdin := hsub _ (hnode.ring.fd_mem hXin)
  have hbkin := hsub _ (hnode.ring.bk_mem hXin)
  have hframe : ∀ a, Outside a (Trie.node k X (ys ++ [z]) l r).values → unchain_words m.word X a = m.word a :=
    fun a ha => unchain_words_of_outside hfdin hbkin ha
  have hkeep : ∀ q ∈ (Trie.node k X (ys ++ [z]) l r).values, ∀ o ∈ offsets, o ≠ 16#64 → o ≠ 24#64 →
      unchain_words m.word X (q + o) = m.word (q + o) := by
    intro q hq o ho h16 h24
    rw [unchain_words_link hapart hfdin hbkin hq ho]
    simp [h16, h24]
  have hrun := unlink_replacement_chain fuel hnode.ring hXin (by rw [hbk]; exact hzX)
    fun p hp => husable p (hsub p hp)
  rw [hbk] at hrun
  have hz : z ∈ ys ++ [z] := by simp
  obtain ⟨hbin, hbase, hleft, hright⟩ := hnode.chained z hz
  have herase : Trie.erase X (.node k X (ys ++ [z]) l r) = .node k z ys l r := by simp [Trie.erase]
  refine ⟨_, z, hrun, ⟨⟨k, ys, l, r, 0#64, herase, ⟨?_, ?_, ?_, ?_⟩, ?_, ?_, ?_, ?_⟩, hframe, ?_⟩⟩
  · exact (hkeep z (hsub z (List.mem_cons_of_mem _ hz)) 56#64 (by decide) (by decide) (by decide)).trans hbin
  · exact (hkeep z (hsub z (List.mem_cons_of_mem _ hz)) 48#64 (by decide) (by decide) (by decide)).trans hbase
  · -- the ring seen from its last chunk
    have hrotate : IsRing (fun p => m.word (fd p)) (fun p => m.word (bk p)) z ([] ++ X :: ys) :=
      by
      have hsplit : X :: (ys ++ [z]) = (X :: ys) ++ z :: [] := by simp
      exact hnode.ring.rotate hsplit
    refine unchain_words_ring hapart hrotate ?_ ?_
    · intro q hq
      exact hsub q (by
        simp only [List.nil_append, List.mem_cons, List.mem_append, List.not_mem_nil, or_false] at hq ⊢
        tauto)
    · have hperm : (z :: ([] ++ X :: ys)).Perm (X :: (ys ++ [z])) := by
        rw [List.nil_append]
        exact (List.Perm.swap X z ys).trans ((List.perm_append_singleton z ys).symm.cons X)
      exact hperm.nodup_iff.mpr hchain
  · intro y hy
    have hyin : y ∈ ys ++ [z] := List.mem_append_left _ hy
    obtain ⟨hbin', hbase', hleft', hright'⟩ := hnode.chained y hyin
    have hyv := hsub y (List.mem_cons_of_mem _ hyin)
    rw [child_left] at hleft' ⊢
    rw [child_right] at hright' ⊢
    exact ⟨(hkeep y hyv 56#64 (by decide) (by decide) (by decide)).trans hbin',
      (hkeep y hyv 48#64 (by decide) (by decide) (by decide)).trans hbase',
      (hkeep y hyv 32#64 (by decide) (by decide) (by decide)).trans hleft',
      (hkeep y hyv 40#64 (by decide) (by decide) (by decide)).trans hright'⟩
  · rw [child_left] at hleft ⊢
    exact (hkeep z (hsub z (List.mem_cons_of_mem _ hz)) _ (by decide) (by decide) (by decide)).trans hleft
  · rw [child_right] at hright ⊢
    exact (hkeep z (hsub z (List.mem_cons_of_mem _ hz)) _ (by decide) (by decide) (by decide)).trans hright
  · have hsubl : ∀ q ∈ l.values, q ∉ X :: (ys ++ [z]) := fun q hq hin => (Trie.not_mem_children hnodup hin).1 hq
    refine hl.congr ?_ fun q hq o ho => ?_
    · rw [child_left]
      exact hkeep X (hsub X hXin) _ (by decide) (by decide) (by decide)
    · exact unchain_words_of_outside (hnode.ring.fd_mem hXin) (hnode.ring.bk_mem hXin)
        (hapart.outside (Trie.left_sublist.mem hq) hsub (hsubl q hq) ho)
  · have hsubr : ∀ q ∈ r.values, q ∉ X :: (ys ++ [z]) := fun q hq hin => (Trie.not_mem_children hnodup hin).2 hq
    refine hr.congr ?_ fun q hq o ho => ?_
    · rw [child_right]
      exact hkeep X (hsub X hXin) _ (by decide) (by decide) (by decide)
    · exact unchain_words_of_outside (hnode.ring.fd_mem hXin) (hnode.ring.bk_mem hXin)
        (hapart.outside (Trie.right_sublist.mem hq) hsub (hsubr q hq) ho)
  · exact hkeep X (hsub X hXin) 56#64 (by decide) (by decide) (by decide)

/-- A chunk that is alone of its size is replaced by a leaf below it, where there is one. -/
theorem unlink_replacement_lone (htree : IsTree m.word I link up (.node k X [] l r))
    (hwithin : (Trie.node k X [] l r).Within lo n)
    (hfuel : n < fuel) (hapart : Apart (Trie.node k X [] l r).values)
    (husable : ∀ p ∈ (Trie.node k X [] l r).values, m.Usable p) :
    (unlink_replacement fuel m X = .ok (m, 0#64) ∧ Trie.erase X (.node k X [] l r) = .nil) ∨
    ∃ w' R, unlink_replacement fuel m X = .ok ({ m with word := w' }, R) ∧
      Replaced m w' I X R (.node k X [] l r) (Trie.erase X (.node k X [] l r)) := by
  obtain ⟨-, hnode, hl, hr⟩ := htree
  have hnodup := hapart.1
  have hXin : X ∈ (Trie.node k X [] l r).values := by simp
  have hX := husable X hXin
  have hbk : m.word (bk X) = X := (IsRing.nil_iff.mp hnode.ring).2
  have herase : Trie.erase X (.node k X [] l r) = Trie.merge l r := by simp [Trie.erase]
  have hright : m.load (child X 1#64) = .ok (root r) := by rw [load_eq hX.mapped_right, hr.root_eq]
  have hleft : m.load (child X 0#64) = .ok (root l) := by rw [load_eq hX.mapped_left, hl.root_eq]
  have hzero : root .nil = 0#64 := rfl
  have hrun : unlink_replacement fuel m X = (do
      let RP := if root r ≠ 0#64 then child X 1#64 else child X 0#64
      let R := if root r ≠ 0#64 then root r else root l
      if R ≠ 0#64 then
        let found ← rightmost_loop fuel m RP R
        if m.ok_address found.1 then
          let m ← m.store found.1 0#64
          return (m, found.2)
        else CORRUPTION_ERROR_ACTION
      else return (m, R)) := by
    rw [unlink_replacement, load_eq hX.mapped_bk, Outcome.ok_bind, if_neg (not_not.mpr hbk), hright, Outcome.ok_bind,
      hleft, Outcome.ok_bind]
  rw [hrun, herase, Trie.merge]
  dsimp only
  by_cases hrnil : r = .nil
  · subst hrnil
    have hnot : ¬ root .nil ≠ 0#64 := not_not.mpr hzero
    rw [if_neg hnot, if_neg hnot]
    by_cases hlnil : l = .nil
    · subst hlnil
      rw [if_neg hnot]
      exact .inl ⟨rfl, rfl⟩
    · right
      have hsub : l.values.Sublist (Trie.node k X [] l .nil).values := Trie.left_sublist
      have hXl := (Trie.not_mem_children hnodup (List.mem_cons_self (a := X) (l := []))).1
      have hout := hapart.child_left_outside
      cases n with
      | zero => exact absurd hwithin.2.1 hlnil
      | succ n =>
        obtain ⟨RP, k', R, rs, t', up', hloop, hpop, hRP, hokRP, htree', hnode', hleft', hright', hframe⟩ :=
          rightmost_loop_eq hl hlnil hwithin.2.2.1 (Nat.lt_of_succ_lt hfuel) (hapart.sublist hsub)
            (fun p hp => husable p (hsub.mem hp)) hout hX.mapped_left hX.ok_left
        rw [if_pos (root_ne_null (fun p hp => husable p (hsub.mem hp)) hlnil), hloop, Outcome.ok_bind, if_pos hokRP,
          store_eq hRP, Outcome.ok_bind, hpop]
        have hXkeep : ∀ o ∈ offsets, o ≠ 32#64 → Function.update m.word RP 0#64 (X + o) = m.word (X + o) := by
          intro o ho hne
          refine hframe _ ?_ (hapart.outside hXin (fun q hq => hsub.mem hq) hXl ho)
          rw [child_left]
          exact fun heq => hne (add_left_cancel heq)
        refine ⟨_, R, rfl, ⟨⟨k', rs, t', .nil, up', rfl, hnode', hleft', hright', htree', ?_⟩, ?_, ?_⟩⟩
        · rw [IsTree, child_right, hXkeep _ (by decide) (by decide), ← child_right]
          exact hr
        · exact fun a ha => hframe a (ha.ne_child_left hXin) (ha.mono fun q hq => hsub.mem hq)
        · exact hXkeep 56#64 (by decide) (by decide)
  · right
    have hsub : r.values.Sublist (Trie.node k X [] l r).values := Trie.right_sublist
    have hrne := root_ne_null (fun p hp => husable p (hsub.mem hp)) hrnil
    have hXr := (Trie.not_mem_children hnodup (List.mem_cons_self (a := X) (l := []))).2
    have hout := hapart.child_right_outside
    cases n with
    | zero => exact absurd hwithin.2.2 hrnil
    | succ n =>
      obtain ⟨RP, k', R, rs, t', up', hloop, hpop, hRP, hokRP, htree', hnode', hleft', hright', hframe⟩ :=
        rightmost_loop_eq hr hrnil hwithin.2.2.2 (Nat.lt_of_succ_lt hfuel) (hapart.sublist hsub)
          (fun p hp => husable p (hsub.mem hp)) hout hX.mapped_right hX.ok_right
      rw [if_pos hrne, if_pos hrne, if_pos hrne, hloop, Outcome.ok_bind, if_pos hokRP, store_eq hRP, Outcome.ok_bind,
        hpop]
      have hXkeep : ∀ o ∈ offsets, o ≠ 40#64 → Function.update m.word RP 0#64 (X + o) = m.word (X + o) := by
        intro o ho hne
        refine hframe _ ?_ (hapart.outside hXin (fun q hq => hsub.mem hq) hXr ho)
        rw [child_right]
        exact fun heq => hne (add_left_cancel heq)
      refine ⟨_, R, rfl, ⟨⟨k', rs, l, t', up', rfl, hnode', hleft', hright', hl.congr ?_ fun q hq o ho => ?_, htree'⟩, ?_, ?_⟩⟩
      · rw [child_left]
        exact hXkeep _ (by decide) (by decide)
      · refine hframe _ ?_ (hapart.outside (Trie.left_sublist.mem hq) (fun q hq => hsub.mem hq)
          (Trie.left_not_mem_right hnodup hq) ho)
        rw [child_right]
        refine hapart.add_ne (Trie.left_sublist.mem hq) hXin ?_ ho (by decide)
        rintro rfl
        exact (Trie.not_mem_children hnodup List.mem_cons_self).1 hq
      · exact fun a ha => hframe a (ha.ne_child_right hXin) (ha.mono fun q hq => hsub.mem hq)
      · exact hXkeep 56#64 (by decide) (by decide)

/-- How the code tells which pointer leads to the first chunk `X` of a node: the
bin's, or one of the two of its parent. -/
def Leads (m : mstate) (H link up X : elf_addr) : Prop :=
  link = H ∧ up = H ∨ link ≠ H ∧ m.Usable up ∧ m.word H ≠ X ∧
    (link = child up 0#64 ∨ link = child up 1#64 ∧ m.word (child up 0#64) ≠ X)

theorem relink_parent_eq (hindex : (m.word (index X)).toNat = i) (hX : m.Usable X)
    (hslot : m.mapped (m.treebin_at i) = true) (hlead : m.word link = X) (hleads : Leads m (m.treebin_at i) link up X) :
    relink_parent m X up R = .ok { m with
      word := Function.update m.word link R
      treemap := if link = m.treebin_at i ∧ R = 0#64 then m.treemap &&& ~~~idx2bit i else m.treemap } := by
  rw [relink_parent, load_eq hX.mapped_index, Outcome.ok_bind, hindex]
  dsimp only
  rw [load_eq hslot, Outcome.ok_bind]
  obtain ⟨hroot, -⟩ | ⟨hne, hup, hroot, hleft | ⟨hright, hother⟩⟩ := hleads
  · subst hroot
    rw [if_pos hlead, store_eq hslot, Outcome.ok_bind]
    by_cases hR : R = 0#64
    · rw [if_pos hR, if_pos ⟨rfl, hR⟩]
      rfl
    · rw [if_neg hR, if_neg fun hboth => hR hboth.2]
      rfl
  · subst hleft
    rw [if_neg hroot, if_pos hup.ok, load_eq hup.mapped_left, Outcome.ok_bind, if_pos hlead, store_eq hup.mapped_left,
      if_neg fun hboth => hne hboth.1]
    rfl
  · subst hright
    rw [if_neg hroot, if_pos hup.ok, load_eq hup.mapped_left, Outcome.ok_bind, if_neg hother,
      store_eq hup.mapped_right, if_neg fun hboth => hne hboth.1]
    rfl

/-- A chunk behind the first one of its size is taken out of their ring. -/
theorem unlink_chained (fuel : Nat) (htree : IsTree m.word I link up (.node k x xs l r)) (hX : X ∈ xs)
    (hapart : Apart (Trie.node k x xs l r).values) (husable : ∀ p ∈ (Trie.node k x xs l r).values, m.Usable p)
    (hlink : Outside link (Trie.node k x xs l r).values) :
    ∃ w', unlink_large_chunk fuel m X = .ok { m with word := w' } ∧
      IsTree w' I link up (Trie.erase X (.node k x xs l r)) ∧
      ∀ a, Outside a (Trie.node k x xs l r).values → w' a = m.word a := by
  obtain ⟨hroot, hnode, hl, hr⟩ := htree
  obtain ⟨ys, zs, rfl⟩ := List.append_of_mem hX
  have hnodup := hapart.1
  have hchain := hnodup.sublist Trie.chain_sublist
  have hsub : ∀ q ∈ x :: (ys ++ X :: zs), q ∈ (Trie.node k x (ys ++ X :: zs) l r).values := fun q hq =>
    Trie.chain_sublist.mem hq
  have hXin : X ∈ x :: (ys ++ X :: zs) := by simp
  have hxin : x ∈ x :: (ys ++ X :: zs) := List.mem_cons_self
  have hXnot : X ∉ x :: ys := by
    rw [← List.cons_append, List.nodup_append] at hchain
    exact fun hin => hchain.2.2 X hin X List.mem_cons_self rfl
  have hxX : x ≠ X := fun heq => hXnot (heq ▸ List.mem_cons_self)
  have hbk : m.word (bk X) ≠ X := by
    have hsplit : x :: (ys ++ X :: zs) = (x :: ys) ++ X :: zs := rfl
    have hfirst := (hnode.ring.rotate hsplit).first.2.1
    intro heq
    have hmem := List.getLast_mem (l := x :: ys) (by simp)
    have hlast : m.word (bk X) = (x :: ys).getLast (by simp) := by
      refine hfirst.trans ?_
      rw [List.getLast_cons (by simp), List.getLast_append_of_ne_nil]
    rw [← hlast, heq] at hmem
    exact hXnot hmem
  have hfdin := hsub _ (hnode.ring.fd_mem hXin)
  have hbkin := hsub _ (hnode.ring.bk_mem hXin)
  have hrun := unlink_replacement_chain fuel hnode.ring hXin hbk fun p hp => husable p (hsub p hp)
  obtain ⟨-, hbase, -, -⟩ := hnode.chained X (by simp)
  have hframe : ∀ a, Outside a (Trie.node k x (ys ++ X :: zs) l r).values → unchain_words m.word X a = m.word a :=
    fun a ha => unchain_words_of_outside hfdin hbkin ha
  have hkeep : ∀ q ∈ (Trie.node k x (ys ++ X :: zs) l r).values, ∀ o ∈ offsets, o ≠ 16#64 → o ≠ 24#64 →
      unchain_words m.word X (q + o) = m.word (q + o) := by
    intro q hq o ho h16 h24
    rw [unchain_words_link hapart hfdin hbkin hq ho]
    simp [h16, h24]
  have herase : Trie.erase X (.node k x (ys ++ X :: zs) l r) = .node k x (ys ++ zs) l r := by
    have hys : X ∉ ys := fun hin => hXnot (List.mem_cons_of_mem _ hin)
    rw [Trie.erase, if_neg hxX, if_pos hX, List.erase_append_right _ hys, List.erase_cons_head]
  refine ⟨unchain_words m.word X, ?_, ?_, hframe⟩
  · rw [unlink_large_chunk, load_eq (husable X (hsub X hXin)).mapped_parent, hbase, Outcome.ok_bind, hrun,
      Outcome.ok_bind]
    rfl
  · rw [herase]
    have hbelow : ∀ q ∈ (Trie.node k x (ys ++ X :: zs) l r).values, q ∉ x :: (ys ++ X :: zs) → ∀ o ∈ offsets,
        unchain_words m.word X (q + o) = m.word (q + o) := fun q hq hnot o ho =>
      unchain_words_of_outside (hnode.ring.fd_mem hXin) (hnode.ring.bk_mem hXin) (hapart.outside hq hsub hnot ho)
    refine ⟨(hframe link hlink).trans hroot, ⟨?_, ?_, unchain_words_ring hapart hnode.ring hsub hchain, ?_⟩,
      hl.congr ?_ fun q hq => ?_, hr.congr ?_ fun q hq => ?_⟩
    · exact (hkeep x (hsub x hxin) 56#64 (by decide) (by decide) (by decide)).trans hnode.bin
    · exact (hkeep x (hsub x hxin) 48#64 (by decide) (by decide) (by decide)).trans hnode.base
    · intro y hy
      have hyin : y ∈ ys ++ X :: zs := by
        simp only [List.mem_append, List.mem_cons] at hy ⊢
        tauto
      obtain ⟨hbin', hbase', hleft', hright'⟩ := hnode.chained y hyin
      have hyv := hsub y (List.mem_cons_of_mem _ hyin)
      rw [child_left] at hleft' ⊢
      rw [child_right] at hright' ⊢
      exact ⟨(hkeep y hyv 56#64 (by decide) (by decide) (by decide)).trans hbin',
        (hkeep y hyv 48#64 (by decide) (by decide) (by decide)).trans hbase',
        (hkeep y hyv 32#64 (by decide) (by decide) (by decide)).trans hleft',
        (hkeep y hyv 40#64 (by decide) (by decide) (by decide)).trans hright'⟩
    · rw [child_left]
      exact hkeep x (hsub x hxin) _ (by decide) (by decide) (by decide)
    · exact hbelow q (Trie.left_sublist.mem hq) fun hin => (Trie.not_mem_children hnodup hin).1 hq
    · rw [child_right]
      exact hkeep x (hsub x hxin) _ (by decide) (by decide) (by decide)
    · exact hbelow q (Trie.right_sublist.mem hq) fun hin => (Trie.not_mem_children hnodup hin).2 hq

/-- The first chunk of a node is replaced by the last one of its size, by a leaf, or by nothing. -/
theorem unlink_first (htree : IsTree m.word I link up (.node k X xs l r)) (hI : I.toNat = i) (hup : up ≠ 0#64)
    (hwithin : (Trie.node k X xs l r).Within lo n) (hfuel : n < fuel) (hapart : Apart (Trie.node k X xs l r).values)
    (husable : ∀ p ∈ (Trie.node k X xs l r).values, m.Usable p) (hlink : Outside link (Trie.node k X xs l r).values)
    (hslot : m.mapped (m.treebin_at i) = true) (hH : Outside (m.treebin_at i) (Trie.node k X xs l r).values)
    (hleads : Leads m (m.treebin_at i) link up X)
    (hparent : link ≠ m.treebin_at i → up ∉ (Trie.node k X xs l r).values ∧
      Outside (child up 0#64) (Trie.node k X xs l r).values) :
    ∃ m', unlink_large_chunk fuel m X = .ok m' ∧ m'.mapped = m.mapped ∧ m'.gm = m.gm ∧ m'.least_addr = m.least_addr ∧
      m'.treemap = (if link = m.treebin_at i ∧ Trie.erase X (.node k X xs l r) = .nil then m.treemap &&& ~~~idx2bit i
        else m.treemap) ∧ IsTree m'.word I link up (Trie.erase X (.node k X xs l r)) ∧
      ∀ a, a ≠ link → Outside a (Trie.node k X xs l r).values → m'.word a = m.word a := by
  obtain ⟨hroot, hnode, -, -⟩ := id htree
  have hXin : X ∈ (Trie.node k X xs l r).values := by simp
  have hX := husable X hXin
  have hindex : (m.word (index X)).toNat = i := by rw [hnode.bin, hI]
  have hstep : (unlink_replacement fuel m X = .ok (m, 0#64) ∧ Trie.erase X (.node k X xs l r) = .nil) ∨
      ∃ w' R, unlink_replacement fuel m X = .ok ({ m with word := w' }, R) ∧
        Replaced m w' I X R (.node k X xs l r) (Trie.erase X (.node k X xs l r)) := by
    by_cases hxs : xs = []
    · subst hxs
      exact unlink_replacement_lone htree hwithin hfuel hapart husable
    · exact .inr (unlink_replacement_last htree hxs hapart husable)
  rw [unlink_large_chunk, load_eq hX.mapped_parent, Outcome.ok_bind, hnode.base]
  obtain ⟨hrun, herase⟩ | ⟨w', R, hrun, hreplaced⟩ := hstep
  · rw [hrun, Outcome.ok_bind]
    dsimp only
    rw [if_pos hup, relink_parent_eq hindex hX hslot hroot hleads, Outcome.ok_bind, if_neg (not_not.mpr rfl), herase]
    refine ⟨_, rfl, rfl, rfl, rfl, ?_, Function.update_self _ _ _, fun a hne _ => Function.update_of_ne hne _ _⟩
    simp
  · obtain ⟨⟨k', rs, l', r', up', herase, hnode', hleft', hright', hl', hr'⟩, hframe, hindex'⟩ := hreplaced
    have hperm := Trie.values_erase_perm hXin hapart.1
    rw [herase] at hperm ⊢
    have hnew : ∀ p ∈ (Trie.node k' R rs l' r').values, p ∈ (Trie.node k X xs l r).values := fun p hp =>
      hperm.mem_iff.mpr (List.mem_cons_of_mem _ hp)
    have hR : R ≠ 0#64 := (husable R (hnew R (by simp))).ne_null
    have hleads' : Leads { m with word := w' } (m.treebin_at i) link up X := by
      obtain hroot | ⟨hne, husableup, hother, hside⟩ := hleads
      · exact .inl hroot
      · refine .inr ⟨hne, husableup.with_word _, ?_, ?_⟩
        · change w' (m.treebin_at i) ≠ X
          rwa [hframe _ hH]
        · change link = child up 0#64 ∨ link = child up 1#64 ∧ w' (child up 0#64) ≠ X
          rwa [hframe _ (hparent hne).2]
    rw [hrun, Outcome.ok_bind]
    dsimp only
    rw [if_pos hup, relink_parent_eq (m := { m with word := w' }) ((congrArg BitVec.toNat hindex').trans hindex)
      (hX.with_word _) hslot ((hframe link hlink).trans hroot) hleads', Outcome.ok_bind, if_pos hR]
    have hmap : ¬ (link = ({ m with word := w' } : mstate).treebin_at i ∧ R = 0#64) := fun hboth => hR hboth.2
    rw [if_neg hmap]
    obtain ⟨m₂, hm₂⟩ : ∃ m₂ : mstate, { m with word := Function.update w' link R } = m₂ := ⟨_, rfl⟩
    have hword₂ : ∀ p ∈ (Trie.node k X xs l r).values, ∀ o ∈ offsets, m₂.word (p + o) = w' (p + o) := by
      intro p hp o ho
      rw [← hm₂]
      exact Function.update_of_ne (hlink p hp o ho).symm _ _
    have hRv := hnew R (by simp)
    have hnode₂ : IsNode m₂.word I up' R rs := hnode'.congr (fun o ho _ _ => hword₂ R hRv o ho)
      fun y hy => hword₂ y (hnew y (Trie.chain_sublist.mem (List.mem_cons_of_mem _ hy)))
    have hleft₂ : m₂.word (child R 0#64) = 0#64 := by
      rw [child_left] at hleft' ⊢
      exact (hword₂ R hRv _ (by decide)).trans hleft'
    have hright₂ : m₂.word (child R 1#64) = 0#64 := by
      rw [child_right] at hright' ⊢
      exact (hword₂ R hRv _ (by decide)).trans hright'
    have hl₂ : IsTree m₂.word I (child X 0#64) X l' := by
      refine hl'.congr ?_ fun q hq => hword₂ q (hnew q (Trie.left_sublist.mem hq))
      rw [child_left]
      exact hword₂ X hXin _ (by decide)
    have hr₂ : IsTree m₂.word I (child X 1#64) X r' := by
      refine hr'.congr ?_ fun q hq => hword₂ q (hnew q (Trie.right_sublist.mem hq))
      rw [child_right]
      exact hword₂ X hXin _ (by decide)
    obtain ⟨w₃, hrun₃, hnode₃, hl₃, hr₃, hframe₃⟩ := relink_replacement_eq up hnode₂ hleft₂ hright₂ hl₂ hr₂
      (hapart.perm hperm) fun p hp => by
        rw [← hm₂]
        exact (husable p (hperm.mem_iff.mpr hp)).with_word _
    have hnil : ¬ (link = m.treebin_at i ∧ (Trie.node k' R rs l' r' : Trie elf_addr) = .nil) :=
      fun hboth => by cases hboth.2
    rw [if_neg hnil]
    rw [← hm₂] at hrun₃
    refine ⟨_, hrun₃, rfl, rfl, rfl, rfl, ⟨?_, hnode₃, hl₃, hr₃⟩, fun a hne ha => ?_⟩
    · refine (hframe₃ link (hlink.mono hnew)).trans ?_
      rw [← hm₂]
      exact Function.update_self _ _ _
    · refine (hframe₃ a (ha.mono hnew)).trans ?_
      rw [← hm₂]
      exact (Function.update_of_ne hne _ _).trans (hframe a ha)

/-- A chunk is taken out of the tree it is in, wherever it stands there. -/
theorem unlink_large_chunk_tree (htree : IsTree m.word I link up t) (hX : X ∈ t.values) (hI : I.toNat = i)
    (hup : up ≠ 0#64)
    (hwithin : t.Within lo n) (hfuel : n < fuel) (hapart : Apart t.values) (husable : ∀ p ∈ t.values, m.Usable p)
    (hlink : Outside link t.values) (hslot : m.mapped (m.treebin_at i) = true) (hH : Outside (m.treebin_at i) t.values)
    (hleads : ∀ p ∈ t.values, Leads m (m.treebin_at i) link up p)
    (hparent : link ≠ m.treebin_at i → up ∉ t.values ∧ Outside (child up 0#64) t.values) :
    ∃ m', unlink_large_chunk fuel m X = .ok m' ∧ m'.mapped = m.mapped ∧ m'.gm = m.gm ∧ m'.least_addr = m.least_addr ∧
      m'.treemap = (if link = m.treebin_at i ∧ Trie.erase X t = .nil then m.treemap &&& ~~~idx2bit i else m.treemap) ∧
      IsTree m'.word I link up (Trie.erase X t) ∧ ∀ a, a ≠ link → Outside a t.values → m'.word a = m.word a := by
  induction t generalizing link up lo n with
  | nil => cases hX
  | node k x xs l r ihl ihr =>
    have hnodup := hapart.1
    have hxin : x ∈ (Trie.node k x xs l r).values := by simp
    by_cases hxX : x = X
    · subst hxX
      exact unlink_first htree hI hup hwithin hfuel hapart husable hlink hslot hH (hleads x hxin) hparent
    by_cases hXxs : X ∈ xs
    · obtain ⟨w', hrun, htree', hframe⟩ := unlink_chained fuel htree hXxs hapart husable hlink
      refine ⟨_, hrun, rfl, rfl, rfl, ?_, htree', fun a _ ha => hframe a ha⟩
      rw [Trie.erase, if_neg hxX, if_pos hXxs, if_neg fun hboth => by cases hboth.2]
    obtain ⟨hroot, hnode, hl, hr⟩ := id htree
    have hx := husable x hxin
    have hwx : ∀ p ∈ (Trie.node k x xs l r).values, p ≠ x → m.word (m.treebin_at i) ≠ p := by
      intro p hp hne
      obtain ⟨hroot', -⟩ | ⟨-, -, hother, -⟩ := hleads p hp
      · rw [← hroot', hroot]
        exact hne.symm
      · exact hother
    cases n with
    | zero =>
      obtain ⟨-, rfl, rfl⟩ := hwithin
      rw [Trie.mem_values_node] at hX
      obtain hown | hnil | hnil := hX
      · exact absurd hown (by simp [Ne.symm hxX, hXxs])
      · cases hnil
      · cases hnil
    | succ n =>
    obtain ⟨-, -, hwl, hwr⟩ := hwithin
    have hsubl : l.values.Sublist (Trie.node k x xs l r).values := Trie.left_sublist
    have hsubr : r.values.Sublist (Trie.node k x xs l r).values := Trie.right_sublist
    obtain ⟨hxl, hxr⟩ := Trie.not_mem_children hnodup (List.mem_cons_self (a := x) (l := xs))
    have hHne : ∀ o ∈ offsets, x + o ≠ m.treebin_at i := fun o ho => (hH x hxin o ho).symm
    obtain hXl | hXr : X ∈ l.values ∨ X ∈ r.values := by
      obtain hown | hbelow := Trie.mem_values_node.mp hX
      · exact absurd hown (by simp [Ne.symm hxX, hXxs])
      · exact hbelow
    · -- on the left
      have hXnotr := Trie.left_not_mem_right hnodup hXl
      have herase : Trie.erase X (.node k x xs l r) = .node k x xs (Trie.erase X l) r := by
        rw [Trie.erase, if_neg hxX, if_neg hXxs, Trie.erase_of_not_mem (t := r)]
        rintro e he rfl
        exact hXnotr (List.mem_map_of_mem he)
      have hout := hapart.child_left_outside
      have hne : child x 0#64 ≠ m.treebin_at i := by
        rw [child_left]
        exact hHne _ (by decide)
      obtain ⟨m', hrun, hmapped, hgm, hleast, hmap, hl', hframe⟩ := ihl hl hXl hx.ne_null hwl (by omega)
        (hapart.sublist hsubl) (fun p hp => husable p (hsubl.mem hp)) hout (hH.mono fun q hq => hsubl.mem hq)
        (fun p hp => .inr ⟨hne, hx, hwx p (hsubl.mem hp) fun heq => hxl (heq ▸ hp), .inl rfl⟩) fun _ => ⟨hxl, hout⟩
      refine ⟨m', hrun, hmapped, hgm, hleast, ?_, ?_, fun a _ ha => hframe a (ha.ne_child_left hxin)
        (ha.mono fun q hq => hsubl.mem hq)⟩
      · rw [hmap, if_neg fun hboth => hne hboth.1, herase, if_neg fun hboth => by cases hboth.2]
      · rw [herase]
        exact htree.set_left [] hapart hlink hl' hframe
    · -- on the right, where the left child of the parent is another chunk
      have hXnotl : X ∉ l.values := fun hXl => Trie.left_not_mem_right hnodup hXl hXr
      have herase : Trie.erase X (.node k x xs l r) = .node k x xs l (Trie.erase X r) := by
        rw [Trie.erase, if_neg hxX, if_neg hXxs, Trie.erase_of_not_mem (t := l)]
        rintro e he rfl
        exact hXnotl (List.mem_map_of_mem he)
      have hout := hapart.child_right_outside
      have houtl : Outside (child x 0#64) r.values := by
        rw [child_left]
        exact hapart.outside hxin (fun q hq => hsubr.mem hq) hxr (by decide)
      have hne : child x 1#64 ≠ m.treebin_at i := by
        rw [child_right]
        exact hHne _ (by decide)
      have hother : ∀ p ∈ r.values, m.word (child x 0#64) ≠ p := by
        rintro p hp heq
        cases l with
        | nil => exact (husable p (hsubr.mem hp)).ne_null (heq.symm.trans hl)
        | node k' x' xs' l' r' =>
          refine Trie.left_not_mem_right hnodup (y := p) ?_ hp
          rw [← heq, hl.1]
          simp
      obtain ⟨m', hrun, hmapped, hgm, hleast, hmap, hr', hframe⟩ := ihr hr hXr hx.ne_null hwr (by omega)
        (hapart.sublist hsubr) (fun p hp => husable p (hsubr.mem hp)) hout (hH.mono fun q hq => hsubr.mem hq)
        (fun p hp => .inr ⟨hne, hx, hwx p (hsubr.mem hp) fun heq => hxr (heq ▸ hp), .inr ⟨rfl, hother p hp⟩⟩)
        fun _ => ⟨hxr, houtl⟩
      refine ⟨m', hrun, hmapped, hgm, hleast, ?_, ?_, fun a _ ha => hframe a (ha.ne_child_right hxin)
        (ha.mono fun q hq => hsubr.mem hq)⟩
      · rw [hmap, if_neg fun hboth => hne hboth.1, herase, if_neg fun hboth => by cases hboth.2]
      · rw [herase]
        exact htree.set_right [] hapart hlink hr' hframe

/-- A chunk that is taken out of its bin leaves the others there. -/
theorem unlink_large_chunk_bins (hA : Arena m U) (hB : Bins m U ts) (hi : i < NTREEBINS) (hX : X ∈ (ts i).values)
    (hfuel : 64 < fuel) :
    ∃ m', unlink_large_chunk fuel m X = .ok m' ∧ Keeps U m m' ∧
      Bins m' U (Function.update ts i (Trie.erase X (ts i))) := by
  have hin : ∀ p ∈ (ts i).values, U p := fun p hp => (hB.values hi hp).1
  have hnodup := hB.nodup i hi
  have hslot := hA.slot_outside hi hin
  have hItoNat : (BitVec.ofNat 64 i).toNat = i := by
    unfold NTREEBINS at hi
    rw [BitVec.toNat_ofNat]
    omega
  obtain ⟨m', hrun, hmapped, hgm, hleast, hmap, htree, hframe⟩ := unlink_large_chunk_tree (hB.tree i hi) hX
    hItoNat (hA.slot_ne_null i hi) (hB.within i hi) (lt_of_le_of_lt tree_bits_le hfuel) (hA.apart_list hnodup hin)
    (fun p hp => hA.usable p (hin p hp)) hslot (hA.slot_mapped i hi) hslot (fun _ _ => .inl ⟨rfl, rfl⟩)
    fun hne => absurd rfl hne
  have hne : ts i ≠ .nil := fun hnil => by
    rw [hnil] at hX
    cases hX
  have hperm := Trie.values_erase_perm hX hnodup
  have hsub : ∀ e ∈ (Trie.erase X (ts i)).entries, e ∈ (ts i).entries := by
    obtain ⟨e, he, rfl⟩ := List.mem_map.mp hX
    exact fun e' he' => (Trie.entries_erase_perm he hnodup).mem_iff.mpr (List.mem_cons_of_mem _ he')
  refine ⟨m', hrun, hB.set hA hi hmapped hgm hleast htree ?_ ((hB.within i hi).erase) ?_
    (fun e he => hB.chunk i hi e (hsub e he))
    (fun p hp => ⟨hin p hp, (hB.values hi hp).2.2⟩) hframe⟩
  · intro j hj
    have hmark := hB.marked i hi
    rw [hmap]
    by_cases hnil : Trie.erase X (ts i) = .nil
    · rw [if_pos ⟨rfl, hnil⟩, BitVec.getLsbD_and, BitVec.getLsbD_not, getLsbD_idx2bit hj]
      by_cases hij : j = i
      · simp [hij, hnil]
      · have hji : ¬ i = j := fun heq => hij heq.symm
        have hj' : j < 32 := hj
        simp [hij, hji, hj']
    · rw [if_neg fun hboth => hnil hboth.2]
      by_cases hij : j = i
      · rw [if_pos hij, hij, hmark.mpr hne, decide_eq_true hnil]
      · rw [if_neg hij]
  · exact (List.nodup_cons.mp (hperm.nodup_iff.mp hnodup)).2

end ldso.malloc
