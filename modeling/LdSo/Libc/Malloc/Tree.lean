import LdSo.Libc.Malloc
import LdSo.Lib.Trie
import LdSo.Lib.Ring

open cmodel

namespace ldso.malloc

/-- Where the links of a tree chunk stand in it: from `fd` to `index`. -/
def offsets : List (BitVec 64) := [16, 24, 32, 40, 48, 56]

/-- A node of a tree: the chunk `x` with the others of its size behind it. -/
structure IsNode (w : elf_addr → BitVec 64) (I : BitVec 64) (up x : elf_addr) (xs : List elf_addr) : Prop where
  bin : w (index x) = I
  base : w (parent x) = up
  ring : IsRing (fun p => w (fd p)) (fun p => w (bk p)) x xs
  chained : ∀ y ∈ xs, w (index y) = I ∧ w (parent y) = 0#64 ∧ w (child y 0#64) = 0#64 ∧ w (child y 1#64) = 0#64

/-- The words hold the tree of bin `I` to whose first chunk `link` points and whose
first chunk's parent is `up`. -/
def IsTree (w : elf_addr → BitVec 64) (I : BitVec 64) : elf_addr → elf_addr → Trie elf_addr → Prop
  | link, _, .nil => w link = 0#64
  | link, up, .node _ x xs l r => w link = x ∧ IsNode w I up x xs ∧
    IsTree w I (child x 0#64) x l ∧ IsTree w I (child x 1#64) x r

/-- The chunks have the sizes under which they stand in the tree. -/
def Sized (w : elf_addr → BitVec 64) (t : Trie elf_addr) : Prop :=
  ∀ e ∈ t.entries, (w (head e.2) &&& ~~~FLAG_BITS).toNat = e.1

/-- No link of one of the chunks is a link or the head of another. -/
def Apart (ps : List elf_addr) : Prop :=
  ps.Nodup ∧ ∀ p ∈ ps, ∀ q ∈ ps, ∀ o ∈ offsets, ∀ o' ∈ 8#64 :: offsets, p + o = q + o' → p = q

/-- The word is no link of the chunks. -/
def Outside (a : elf_addr) (ps : List elf_addr) : Prop := ∀ p ∈ ps, ∀ o ∈ offsets, a ≠ p + o

/-- A chunk whose words are in memory, where the checks expect chunks. -/
structure mstate.Usable (m : mstate) (p : elf_addr) : Prop where
  ne_null : p ≠ 0#64
  ok : m.ok_address p = true
  mapped : ∀ o ∈ 8#64 :: offsets, m.mapped (p + o) = true
  ok_links : ∀ o ∈ offsets, m.ok_address (p + o) = true

variable {m : mstate} {w w' : elf_addr → BitVec 64} {I : BitVec 64} {link up p q x y X a : elf_addr}
  {xs ps qs : List elf_addr} {t l r : Trie elf_addr} {k lo n fuel : Nat} {v S K o o' : BitVec 64}

section Memory

theorem load_eq (h : m.mapped a = true) : m.load a = .ok (m.word a) := if_pos h

theorem store_eq (h : m.mapped a = true) : m.store a v = .ok (m.put a v) := if_pos h

@[simp] theorem put_mapped : (m.put a v).mapped = m.mapped := rfl

@[simp] theorem put_word : (m.put a v).word = Function.update m.word a v := rfl

theorem child_left (p : elf_addr) : child p 0#64 = p + 32#64 := by simp [child]

theorem child_right (p : elf_addr) : child p 1#64 = p + 40#64 := by simp [child, BitVec.add_assoc]

end Memory

namespace mstate.Usable

variable (h : m.Usable p)

include h

theorem mapped_fd : m.mapped (fd p) = true := h.mapped 16#64 (by decide)

theorem mapped_bk : m.mapped (bk p) = true := h.mapped 24#64 (by decide)

theorem mapped_left : m.mapped (child p 0#64) = true := by
  rw [child_left]
  exact h.mapped 32#64 (by decide)

theorem mapped_right : m.mapped (child p 1#64) = true := by
  rw [child_right]
  exact h.mapped 40#64 (by decide)

theorem mapped_parent : m.mapped (parent p) = true := h.mapped 48#64 (by decide)

theorem mapped_index : m.mapped (index p) = true := h.mapped 56#64 (by decide)

theorem ok_left : m.ok_address (child p 0#64) = true := by
  rw [child_left]
  exact h.ok_links 32#64 (by decide)

theorem ok_right : m.ok_address (child p 1#64) = true := by
  rw [child_right]
  exact h.ok_links 40#64 (by decide)

end mstate.Usable

namespace Apart

theorem sublist (h : Apart ps) (hsub : qs.Sublist ps) : Apart qs :=
  ⟨h.1.sublist hsub, fun p hp q hq => h.2 p (hsub.mem hp) q (hsub.mem hq)⟩

theorem perm (h : Apart ps) (hperm : ps.Perm qs) : Apart qs :=
  ⟨hperm.nodup_iff.mp h.1, fun p hp q hq => h.2 p (hperm.mem_iff.mpr hp) q (hperm.mem_iff.mpr hq)⟩

/-- Writing a link of one of the chunks shows at this link only. -/
theorem update (h : Apart ps) (hp : p ∈ ps) (hq : q ∈ ps) (ho : o ∈ offsets) (ho' : o' ∈ 8#64 :: offsets) :
    Function.update w (p + o) v (q + o') = if q = p ∧ o' = o then v else w (q + o') := by
  split
  · next heq =>
    rw [heq.1, heq.2, Function.update_self]
  · next hne =>
    refine Function.update_of_ne ?_ _ _
    intro heq
    obtain rfl := h.2 p hp q hq o ho o' ho' heq.symm
    exact hne ⟨rfl, add_left_cancel heq⟩

/-- A link of a chunk is none of others. -/
theorem outside (h : Apart ps) (hp : p ∈ ps) (hsub : ∀ q ∈ qs, q ∈ ps) (hnot : p ∉ qs) (ho : o ∈ offsets) :
    Outside (p + o) qs := by
  intro q hq o' ho' heq
  obtain rfl := h.2 p hp q (hsub q hq) o ho o' (List.mem_cons_of_mem _ ho') heq
  exact hnot hq

theorem add_ne (h : Apart ps) (hp : p ∈ ps) (hq : q ∈ ps) (hpq : p ≠ q) (ho : o ∈ offsets) (ho' : o' ∈ offsets) :
    p + o ≠ q + o' := fun heq => hpq (h.2 p hp q hq o ho o' (List.mem_cons_of_mem _ ho') heq)

theorem child_left_outside (h : Apart (Trie.node k x xs l r).values) : Outside (child x 0#64) l.values := by
  rw [child_left]
  exact h.outside (by simp) (fun q hq => Trie.left_sublist.mem hq) (Trie.not_mem_left h.1 (by simp)) (by decide)

theorem child_right_outside (h : Apart (Trie.node k x xs l r).values) : Outside (child x 1#64) r.values := by
  rw [child_right]
  exact h.outside (by simp) (fun q hq => Trie.right_sublist.mem hq) (Trie.not_mem_right h.1 (by simp)) (by decide)

end Apart

theorem Outside.mono (h : Outside a ps) (hsub : ∀ q ∈ qs, q ∈ ps) : Outside a qs := fun p hp => h p (hsub p hp)

theorem Outside.ne_child_left (h : Outside a ps) (hp : p ∈ ps) : a ≠ child p 0#64 := by
  rw [child_left]
  exact h p hp _ (by decide)

theorem Outside.ne_child_right (h : Outside a ps) (hp : p ∈ ps) : a ≠ child p 1#64 := by
  rw [child_right]
  exact h p hp _ (by decide)

section Congr

theorem IsNode.rebase {up' : elf_addr} (h : IsNode w I up x xs)
    (hx : ∀ o ∈ offsets, o ≠ 32#64 → o ≠ 40#64 → o ≠ 48#64 → w' (x + o) = w (x + o)) (hbase : w' (parent x) = up')
    (hxs : ∀ y ∈ xs, ∀ o ∈ offsets, w' (y + o) = w (y + o)) : IsNode w' I up' x xs where
  bin := (hx 56#64 (by decide) (by decide) (by decide) (by decide)).trans h.bin
  base := hbase
  ring := by
    refine h.ring.congr ?_ ?_
    · rintro p (_ | ⟨_, hp⟩)
      · exact hx 16#64 (by decide) (by decide) (by decide) (by decide)
      · exact hxs p hp 16#64 (by decide)
    · rintro p (_ | ⟨_, hp⟩)
      · exact hx 24#64 (by decide) (by decide) (by decide) (by decide)
      · exact hxs p hp 24#64 (by decide)
  chained y hy := by
    obtain ⟨hbin, hbase, hleft, hright⟩ := h.chained y hy
    rw [child_left] at hleft ⊢
    rw [child_right] at hright ⊢
    exact ⟨(hxs y hy 56#64 (by decide)).trans hbin, (hxs y hy 48#64 (by decide)).trans hbase,
      (hxs y hy 32#64 (by decide)).trans hleft, (hxs y hy 40#64 (by decide)).trans hright⟩

/-- A node reads the links of its chunks but for the children of the first one. -/
theorem IsNode.congr (h : IsNode w I up x xs)
    (hx : ∀ o ∈ offsets, o ≠ 32#64 → o ≠ 40#64 → w' (x + o) = w (x + o))
    (hxs : ∀ y ∈ xs, ∀ o ∈ offsets, w' (y + o) = w (y + o)) : IsNode w' I up x xs :=
  h.rebase (fun o ho hleft hright _ => hx o ho hleft hright)
    ((hx 48#64 (by decide) (by decide) (by decide)).trans h.base) hxs

/-- A tree reads the pointer to it and the links of its chunks. -/
theorem IsTree.congr (h : IsTree w I link up t) (hlink : w' link = w link)
    (hw : ∀ p ∈ t.values, ∀ o ∈ offsets, w' (p + o) = w (p + o)) : IsTree w' I link up t := by
  induction t generalizing link up with
  | nil => exact hlink.trans h
  | node k x xs l r ihl ihr =>
    obtain ⟨hroot, hnode, hl, hr⟩ := h
    rw [Trie.values_node] at hw
    have hown : ∀ p ∈ x :: xs, ∀ o ∈ offsets, w' (p + o) = w (p + o) := fun p hp => hw p (List.mem_append_left _ hp)
    refine ⟨hlink.trans hroot, hnode.congr (fun o ho _ _ => hown x List.mem_cons_self o ho)
      (fun y hy => hown y (List.mem_cons_of_mem _ hy)), ihl hl ?_ fun p hp => hw p ?_, ihr hr ?_ fun p hp => hw p ?_⟩
    · rw [child_left]
      exact hown x List.mem_cons_self _ (by decide)
    · exact List.mem_append_right _ (List.mem_append_left _ hp)
    · rw [child_right]
      exact hown x List.mem_cons_self _ (by decide)
    · exact List.mem_append_right _ (List.mem_append_right _ hp)

theorem Sized.congr (h : Sized w t) (hw : ∀ p ∈ t.values, w' (head p) = w (head p)) : Sized w' t := by
  intro e he
  rw [hw e.2 (List.mem_map_of_mem he)]
  exact h e he

section Child

variable {r' l' : Trie elf_addr} (h : IsTree w I link up (.node k x xs l r)) (qs : List elf_addr)
  (hapart : Apart (qs ++ (Trie.node k x xs l r).values)) (hlink : Outside link (qs ++ (Trie.node k x xs l r).values))

include h hapart hlink

/-- What is on the right of a tree may be changed as long as nothing else is. -/
theorem IsTree.set_right (hr : IsTree w' I (child x 1#64) x r')
    (hframe : ∀ a, a ≠ child x 1#64 → Outside a (qs ++ r.values) → w' a = w a) :
    IsTree w' I link up (.node k x xs l r') := by
  obtain ⟨hroot, hnode, hl, -⟩ := h
  obtain ⟨-, hnodup, hdis⟩ := List.nodup_append.mp hapart.1
  have hsub : ∀ q ∈ qs ++ r.values, q ∈ qs ++ (Trie.node k x xs l r).values :=
    (Trie.right_sublist.append_left qs).subset
  have hx : x ∈ (Trie.node k x xs l r).values := by simp
  have hown : ∀ p ∈ x :: xs ++ l.values, ∀ o ∈ offsets, p + o ≠ x + 40#64 → w' (p + o) = w (p + o) := by
    intro p hp o ho hne
    have hpin : p ∈ (Trie.node k x xs l r).values :=
      Trie.mem_values_node.mpr ((List.mem_append.mp hp).imp_right .inl)
    refine hframe _ (by rwa [child_right]) (hapart.outside (List.mem_append_right _ hpin) hsub ?_ ho)
    rw [List.mem_append]
    rintro (hq | hr)
    · exact hdis p hq p hpin rfl
    · exact Trie.not_mem_right hnodup hp hr
  have hrest : ∀ p ∈ xs ++ l.values, ∀ o ∈ offsets, w' (p + o) = w (p + o) := by
    intro p hp o ho
    have hpin : p ∈ (Trie.node k x xs l r).values := by
      rw [Trie.mem_values_node, List.mem_cons]
      exact (List.mem_append.mp hp).imp .inr .inl
    refine hown p (List.mem_cons_of_mem _ hp) o ho
      (hapart.add_ne (List.mem_append_right _ hpin) (List.mem_append_right _ hx) ?_ ho (by decide))
    rintro rfl
    rw [Trie.values_node, ← List.append_assoc, List.cons_append, List.cons_append] at hnodup
    exact (List.nodup_cons.mp hnodup).1 (List.mem_append_left _ hp)
  have hlink' := hframe link (hlink.ne_child_right (List.mem_append_right _ hx)) (hlink.mono hsub)
  refine ⟨hlink'.trans hroot, hnode.congr
    (fun o ho _ hright => hown x (by simp) o ho fun heq => hright (add_left_cancel heq))
    (fun y hy => hrest y (List.mem_append_left _ hy)), hl.congr ?_ fun p hp => hrest p (List.mem_append_right _ hp), hr⟩
  rw [child_left]
  exact hown x (by simp) _ (by decide) fun heq => absurd (add_left_cancel heq) (by decide)

theorem IsTree.set_left (hl : IsTree w' I (child x 0#64) x l')
    (hframe : ∀ a, a ≠ child x 0#64 → Outside a (qs ++ l.values) → w' a = w a) :
    IsTree w' I link up (.node k x xs l' r) := by
  obtain ⟨hroot, hnode, -, hr⟩ := h
  obtain ⟨-, hnodup, hdis⟩ := List.nodup_append.mp hapart.1
  have hsub : ∀ q ∈ qs ++ l.values, q ∈ qs ++ (Trie.node k x xs l r).values :=
    (Trie.left_sublist.append_left qs).subset
  have hx : x ∈ (Trie.node k x xs l r).values := by simp
  have hown : ∀ p ∈ x :: xs ++ r.values, ∀ o ∈ offsets, p + o ≠ x + 32#64 → w' (p + o) = w (p + o) := by
    intro p hp o ho hne
    have hpin : p ∈ (Trie.node k x xs l r).values :=
      Trie.mem_values_node.mpr ((List.mem_append.mp hp).imp_right .inr)
    refine hframe _ (by rwa [child_left]) (hapart.outside (List.mem_append_right _ hpin) hsub ?_ ho)
    rw [List.mem_append]
    rintro (hq | hl)
    · exact hdis p hq p hpin rfl
    · exact Trie.not_mem_left hnodup hp hl
  have hrest : ∀ p ∈ xs ++ r.values, ∀ o ∈ offsets, w' (p + o) = w (p + o) := by
    intro p hp o ho
    have hpin : p ∈ (Trie.node k x xs l r).values := by
      rw [Trie.mem_values_node, List.mem_cons]
      exact (List.mem_append.mp hp).imp .inr .inr
    refine hown p (List.mem_cons_of_mem _ hp) o ho
      (hapart.add_ne (List.mem_append_right _ hpin) (List.mem_append_right _ hx) ?_ ho (by decide))
    rintro rfl
    rw [Trie.values_node, List.cons_append, List.nodup_cons, List.mem_append, List.mem_append] at hnodup
    exact hnodup.1 ((List.mem_append.mp hp).imp_right .inr)
  have hlink' := hframe link (hlink.ne_child_left (List.mem_append_right _ hx)) (hlink.mono hsub)
  refine ⟨hlink'.trans hroot, hnode.congr
    (fun o ho hleft _ => hown x (by simp) o ho fun heq => hleft (add_left_cancel heq))
    (fun y hy => hrest y (List.mem_append_left _ hy)), hl, hr.congr ?_ fun p hp => hrest p (List.mem_append_right _ hp)⟩
  rw [child_right]
  exact hown x (by simp) _ (by decide) fun heq => absurd (add_left_cancel heq) (by decide)

end Child

end Congr

end ldso.malloc
