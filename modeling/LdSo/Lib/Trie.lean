import Mathlib.Data.List.Perm.Basic
import Mathlib.Data.List.Nodup
import Mathlib.Tactic.Ring

namespace cmodel

/-- A bitwise trie of values that stand under numbers. A node has the values of one
number; those of its children are further apart from one another than from it only
in the bit by which they go left or right. -/
inductive Trie (α : Type) where
  | nil
  | node (key : Nat) (x : α) (xs : List α) (left right : Trie α)
  deriving DecidableEq

namespace Trie

variable {α : Type} {k lo n nb : Nat} {x v : α} {xs : List α} {l r t : Trie α}

def nodes : Trie α → List (Nat × α × List α)
  | nil => []
  | node k x xs l r => (k, x, xs) :: (l.nodes ++ r.nodes)

/-- The numbers of the nodes. -/
def keys (t : Trie α) : List Nat := t.nodes.map Prod.fst

/-- The values, each with its number. -/
def entries (t : Trie α) : List (Nat × α) := t.nodes.flatMap fun b => (b.2.1 :: b.2.2).map (b.1, ·)

/-- The values alone. -/
def values (t : Trie α) : List α := t.entries.map Prod.snd

@[simp] theorem keys_nil : (nil : Trie α).keys = [] := rfl

@[simp] theorem keys_node : (node k x xs l r).keys = k :: (l.keys ++ r.keys) := by simp [keys, nodes]

@[simp] theorem entries_nil : (nil : Trie α).entries = [] := rfl

@[simp] theorem entries_node :
    (node k x xs l r).entries = (x :: xs).map (k, ·) ++ (l.entries ++ r.entries) := by simp [entries, nodes]

@[simp] theorem values_nil : (nil : Trie α).values = [] := rfl

@[simp] theorem values_node : (node k x xs l r).values = x :: xs ++ (l.values ++ r.values) := by
  simp [values, Function.comp_def]

theorem mem_values_node {y : α} : y ∈ (node k x xs l r).values ↔ y ∈ x :: xs ∨ y ∈ l.values ∨ y ∈ r.values := by
  rw [values_node, List.mem_append, List.mem_append]

theorem left_sublist : l.values.Sublist (node k x xs l r).values := by
  rw [values_node]
  exact (List.sublist_append_left _ _).trans (List.sublist_append_right _ _)

theorem right_sublist : r.values.Sublist (node k x xs l r).values := by
  rw [values_node]
  exact (List.sublist_append_right _ _).trans (List.sublist_append_right _ _)

theorem chain_sublist : (x :: xs).Sublist (node k x xs l r).values := by
  rw [values_node]
  exact List.sublist_append_left _ _

/-- The chunks of a node are none of those below it. -/
theorem not_mem_children (h : (node k x xs l r).values.Nodup) {y : α} (hy : y ∈ x :: xs) :
    y ∉ l.values ∧ y ∉ r.values := by
  rw [values_node, List.nodup_append] at h
  exact ⟨fun hin => h.2.2 y hy y (List.mem_append_left _ hin) rfl,
    fun hin => h.2.2 y hy y (List.mem_append_right _ hin) rfl⟩

theorem left_not_mem_right (h : (node k x xs l r).values.Nodup) {y : α} (hy : y ∈ l.values) : y ∉ r.values := by
  rw [values_node, List.nodup_append, List.nodup_append] at h
  exact fun hin => h.2.1.2.2 y hy y hin rfl

theorem not_mem_left (h : (node k x xs l r).values.Nodup) {y : α} (hy : y ∈ x :: xs ++ r.values) : y ∉ l.values := by
  obtain hy | hy := List.mem_append.mp hy
  · exact (not_mem_children h hy).1
  · exact fun hl => left_not_mem_right h hl hy

theorem not_mem_right (h : (node k x xs l r).values.Nodup) {y : α} (hy : y ∈ x :: xs ++ l.values) : y ∉ r.values := by
  obtain hy | hy := List.mem_append.mp hy
  · exact (not_mem_children h hy).2
  · exact left_not_mem_right h hy

/-- All numbers are among the `2 ^ n` from `lo` on, those on the left in the lower
half and those on the right in the upper half. -/
def Within : Trie α → Nat → Nat → Prop
  | nil, _, _ => True
  | node k _ _ l r, lo, 0 => k = lo ∧ l = nil ∧ r = nil
  | node k _ _ l r, lo, n + 1 => lo ≤ k ∧ k < lo + 2 ^ (n + 1) ∧ l.Within lo n ∧ r.Within (lo + 2 ^ n) n

theorem mem_entries_node {e : Nat × α} :
    e ∈ (node k x xs l r).entries ↔ e.1 = k ∧ e.2 ∈ x :: xs ∨ e ∈ l.entries ∨ e ∈ r.entries := by
  rw [entries_node, List.mem_append, List.mem_append, List.mem_map]
  constructor
  · rintro (⟨y, hy, rfl⟩ | h)
    · exact .inl ⟨rfl, hy⟩
    · exact .inr h
  · rintro (⟨rfl, hy⟩ | h)
    · exact .inl ⟨e.2, hy, rfl⟩
    · exact .inr h

/-- The entries stand under the numbers of the nodes. -/
theorem mem_keys_of_mem_entries {e : Nat × α} (h : e ∈ t.entries) : e.1 ∈ t.keys := by
  induction t with
  | nil => cases h
  | node k x xs l r ihl ihr =>
    rw [keys_node, List.mem_cons, List.mem_append]
    obtain ⟨hk, -⟩ | hl | hr := mem_entries_node.mp h
    · exact .inl hk
    · exact .inr (.inl (ihl hl))
    · exact .inr (.inr (ihr hr))

namespace Within

theorem key_bounds (h : (node k x xs l r).Within lo n) : lo ≤ k ∧ k < lo + 2 ^ n := by
  cases n with
  | zero => exact ⟨h.1.ge, by rw [h.1]; exact Nat.lt_succ_self lo⟩
  | succ n => exact ⟨h.1, h.2.1⟩

/-- Every number is in the range. -/
theorem bounds (h : t.Within lo n) : ∀ k ∈ t.keys, lo ≤ k ∧ k < lo + 2 ^ n := by
  induction t generalizing lo n with
  | nil => simp
  | node k x xs l r ihl ihr =>
    cases n with
    | zero =>
      obtain ⟨rfl, rfl, rfl⟩ := h
      simp
    | succ n =>
      obtain ⟨hlo, hhi, hl, hr⟩ := h
      have hpow : 2 ^ (n + 1) = 2 ^ n + 2 ^ n := by ring
      intro j hj
      rw [keys_node, List.mem_cons, List.mem_append] at hj
      obtain rfl | hj | hj := hj
      · exact ⟨hlo, hhi⟩
      · have hbounds := ihl hl j hj
        omega
      · have hbounds := ihr hr j hj
        omega

theorem entry_bounds (h : t.Within lo n) {e : Nat × α} (he : e ∈ t.entries) : lo ≤ e.1 ∧ e.1 < lo + 2 ^ n :=
  h.bounds _ (mem_keys_of_mem_entries he)

end Within

/-- In an aligned range, the bit says which half a number is in. -/
theorem testBit_iff_of_bounds (hlo : 2 ^ (n + 1) ∣ lo) (hle : lo ≤ k) (hlt : k < lo + 2 ^ (n + 1)) :
    k.testBit n = true ↔ lo + 2 ^ n ≤ k := by
  obtain ⟨q, rfl⟩ := hlo
  obtain ⟨j, rfl⟩ := Nat.exists_eq_add_of_le hle
  have hpos : 0 < 2 ^ n := Nat.two_pow_pos n
  have hj : j < 2 ^ n + 2 ^ n := by
    rw [pow_succ] at hlt
    omega
  have hdiv : (2 ^ (n + 1) * q + j) / 2 ^ n = 2 * q + j / 2 ^ n := by
    rw [show 2 ^ (n + 1) * q = 2 ^ n * (2 * q) by ring, Nat.mul_add_div hpos]
  rw [Nat.testBit_eq_decide_div_mod_eq, decide_eq_true_iff, hdiv]
  have hhalf : j / 2 ^ n % 2 = 1 ↔ 2 ^ n ≤ j := by
    by_cases h : j < 2 ^ n
    · rw [Nat.div_eq_of_lt h]
      omega
    · have hone : j / 2 ^ n = 1 := Nat.div_eq_of_lt_le (by omega) (by omega)
      rw [hone]
      omega
  omega

section Insert

/-- The value is put behind the first one of its number, or below the last node on
the way of the number's bits. -/
def insert (k : Nat) (v : α) : Nat → Trie α → Trie α
  | _, nil => node k v [] nil nil
  | n, node k' x xs l r =>
    if k' = k then node k' x (v :: xs) l r
    else if k.testBit (n - 1) then node k' x xs l (insert k v (n - 1) r)
    else node k' x xs (insert k v (n - 1) l) r

theorem insert_ne_nil : insert k v n t ≠ nil := by
  cases t with
  | nil => simp [insert]
  | node k' x xs l r =>
    rw [insert]
    split
    · simp
    · split <;> simp

theorem entries_insert_perm : (insert k v n t).entries.Perm ((k, v) :: t.entries) := by
  induction t generalizing n with
  | nil => exact List.Perm.refl _
  | node k' x xs l r ihl ihr =>
    rw [insert]
    split
    · next hk =>
      subst hk
      rw [entries_node, entries_node]
      exact List.Perm.swap _ _ _
    · split
      · rw [entries_node, entries_node]
        exact ((ihr.append_left _).append_left _).trans ((List.perm_middle.append_left _).trans List.perm_middle)
      · rw [entries_node, entries_node]
        exact ((ihl.append_right _).append_left _).trans List.perm_middle

theorem values_insert_perm : (insert k v n t).values.Perm (v :: t.values) := entries_insert_perm.map Prod.snd

theorem Within.insert (h : t.Within lo n) (hlo : 2 ^ n ∣ lo) (hle : lo ≤ k) (hlt : k < lo + 2 ^ n) :
    (insert k v n t).Within lo n := by
  induction t generalizing lo n with
  | nil =>
    cases n with
    | zero => exact ⟨by omega, rfl, rfl⟩
    | succ n => exact ⟨hle, hlt, trivial, trivial⟩
  | node k' x xs l r ihl ihr =>
    rw [Trie.insert]
    cases n with
    | zero =>
      obtain ⟨rfl, rfl, rfl⟩ := h
      rw [if_pos (by omega)]
      exact ⟨rfl, rfl, rfl⟩
    | succ n =>
      obtain ⟨hlo', hhi', hl, hr⟩ := h
      have hdvd : 2 ^ n ∣ lo := (pow_dvd_pow 2 (Nat.le_succ n)).trans hlo
      have hpow : 2 ^ (n + 1) = 2 ^ n + 2 ^ n := by ring
      split
      · exact ⟨hlo', hhi', hl, hr⟩
      · rw [Nat.add_sub_cancel]
        split
        · next hbit =>
          have hhalf := (testBit_iff_of_bounds hlo hle hlt).mp hbit
          exact ⟨hlo', hhi', hl, ihr hr (Nat.dvd_add hdvd (dvd_refl _)) hhalf (by omega)⟩
        · next hbit =>
          have hhalf := mt (testBit_iff_of_bounds hlo hle hlt).mpr hbit
          exact ⟨hlo', hhi', ihl hl hdvd hle (by omega), hr⟩

end Insert

section Erase

/-- Takes the node off to which going right, or left where that is not possible, leads. -/
def popLeaf : Trie α → Option ((Nat × α × List α) × Trie α)
  | nil => none
  | node k x xs l r =>
    match popLeaf r with
    | some (leaf, r) => some (leaf, node k x xs l r)
    | none =>
      match popLeaf l with
      | some (leaf, l) => some (leaf, node k x xs l r)
      | none => some ((k, x, xs), nil)

/-- The children of a node that is gone; the last leaf of them takes its place. -/
def merge (l r : Trie α) : Trie α :=
  match popLeaf r with
  | some ((k, x, xs), r) => node k x xs l r
  | none =>
    match popLeaf l with
    | some ((k, x, xs), l) => node k x xs l r
    | none => nil

/-- Takes a value off. The last value of its number takes the place of the first one. -/
def erase [DecidableEq α] (v : α) : Trie α → Trie α
  | nil => nil
  | node k x xs l r =>
    if x = v then
      match xs.getLast? with
      | some z => node k z xs.dropLast l r
      | none => merge l r
    else if v ∈ xs then node k x (xs.erase v) l r
    else node k x xs (erase v l) (erase v r)

@[simp] theorem popLeaf_eq_none_iff : popLeaf t = none ↔ t = nil := by
  cases t with
  | nil => simp [popLeaf]
  | node k x xs l r =>
    rw [popLeaf]
    split
    · simp
    · split <;> simp

/-- No node is lost. -/
theorem nodes_popLeaf {leaf : Nat × α × List α} {t' : Trie α} (h : popLeaf t = some (leaf, t')) :
    t.nodes.Perm (leaf :: t'.nodes) := by
  induction t generalizing t' with
  | nil => cases h
  | node k x xs l r ihl ihr =>
    rw [popLeaf] at h
    split at h
    · next leaf' r' hr =>
      cases h
      rw [nodes, nodes]
      exact ((((ihr hr).append_left _).trans List.perm_middle).cons _).trans (List.Perm.swap _ _ _)
    · next hr =>
      split at h
      · next leaf' l' hl =>
        cases h
        rw [nodes, nodes]
        exact (((ihl hl).append_right _).cons _).trans (List.Perm.swap _ _ _)
      · next hl =>
        cases h
        rw [popLeaf_eq_none_iff] at hl hr
        subst hl hr
        exact List.Perm.refl _

theorem Within.popLeaf {leaf : Nat × α × List α} {t' : Trie α} (hw : t.Within lo n) (h : popLeaf t = some (leaf, t')) :
    t'.Within lo n := by
  induction t generalizing lo n t' with
  | nil => cases h
  | node k x xs l r ihl ihr =>
    rw [Trie.popLeaf] at h
    cases n with
    | zero =>
      obtain ⟨rfl, rfl, rfl⟩ := hw
      cases h
      trivial
    | succ n =>
      obtain ⟨hle, hlt, hl, hr⟩ := hw
      split at h
      · next hpop =>
        cases h
        exact ⟨hle, hlt, hl, ihr hr hpop⟩
      · split at h
        · next hpop =>
          cases h
          exact ⟨hle, hlt, ihl hl hpop, hr⟩
        · cases h
          trivial

theorem nodes_merge : (merge l r).nodes.Perm (l.nodes ++ r.nodes) := by
  rw [merge]
  split
  · next hr => exact (((nodes_popLeaf hr).append_left _).trans List.perm_middle).symm
  · next hr =>
    rw [popLeaf_eq_none_iff] at hr
    subst hr
    split
    · next hl => exact ((nodes_popLeaf hl).append_right _).symm
    · next hl =>
      rw [popLeaf_eq_none_iff] at hl
      subst hl
      exact List.Perm.refl _

/-- A leaf of either half may stand at the top. -/
theorem Within.merge (hl : l.Within lo n) (hr : r.Within (lo + 2 ^ n) n) : (merge l r).Within lo (n + 1) := by
  have hpow : 2 ^ (n + 1) = 2 ^ n + 2 ^ n := by ring
  rw [Trie.merge]
  split
  · next k x xs r' hpop =>
    have hk := hr.bounds k ((nodes_popLeaf hpop).map Prod.fst |>.mem_iff.mpr List.mem_cons_self)
    exact ⟨by omega, by omega, hl, hr.popLeaf hpop⟩
  · split
    · next k x xs l' hpop =>
      have hk := hl.bounds k ((nodes_popLeaf hpop).map Prod.fst |>.mem_iff.mpr List.mem_cons_self)
      exact ⟨by omega, by omega, hl.popLeaf hpop, hr⟩
    · trivial

section Erased

variable [DecidableEq α]

theorem Within.erase (h : t.Within lo n) : (erase v t).Within lo n := by
  induction t generalizing lo n with
  | nil => exact h
  | node k x xs l r ihl ihr =>
    rw [Trie.erase]
    cases n with
    | zero =>
      obtain ⟨rfl, rfl, rfl⟩ := h
      split
      · split
        · exact ⟨rfl, rfl, rfl⟩
        · trivial
      · split <;> exact ⟨rfl, rfl, rfl⟩
    | succ n =>
      obtain ⟨hle, hlt, hl, hr⟩ := h
      split
      · split
        · exact ⟨hle, hlt, hl, hr⟩
        · exact hl.merge hr
      · split
        · exact ⟨hle, hlt, hl, hr⟩
        · exact ⟨hle, hlt, ihl hl, ihr hr⟩

theorem erase_of_not_mem (h : ∀ e ∈ t.entries, e.2 ≠ v) : erase v t = t := by
  induction t with
  | nil => rfl
  | node k x xs l r ihl ihr =>
    have hx : x ≠ v := h (k, x) (mem_entries_node.mpr (.inl ⟨rfl, List.mem_cons_self⟩))
    have hxs : v ∉ xs := fun hv => h (k, v) (mem_entries_node.mpr (.inl ⟨rfl, List.mem_cons_of_mem _ hv⟩)) rfl
    rw [erase, if_neg hx, if_neg hxs, ihl fun e he => h e (mem_entries_node.mpr (.inr (.inl he))),
      ihr fun e he => h e (mem_entries_node.mpr (.inr (.inr he)))]

/-- Of values that stand once only the value is taken off. -/
theorem entries_erase_perm {k : Nat} (h : (k, v) ∈ t.entries) (hnodup : t.values.Nodup) :
    t.entries.Perm ((k, v) :: (erase v t).entries) := by
  induction t with
  | nil => cases h
  | node j x xs l r ihl ihr =>
    rw [values_node, List.nodup_append, List.nodup_append] at hnodup
    obtain ⟨-, ⟨hnodupl, hnodupr, hapart⟩, hown⟩ := hnodup
    rw [erase]
    obtain ⟨rfl, hmem⟩ | hl | hr := mem_entries_node.mp h
    · by_cases hx : x = v
      · subst hx
        rw [if_pos rfl]
        split
        · next z hz =>
          obtain ⟨ys, rfl⟩ := List.getLast?_eq_some_iff.mp hz
          rw [entries_node, entries_node, List.dropLast_concat, List.map_cons, List.cons_append]
          refine List.Perm.cons _ (List.Perm.append_right _ (List.Perm.map _ ?_))
          exact List.perm_append_comm
        · next hz =>
          rw [List.getLast?_eq_none_iff] at hz
          subst hz
          have hperm := nodes_merge (l := l) (r := r)
          have hentries : (merge l r).entries.Perm (l.entries ++ r.entries) := by
            rw [entries, entries, entries, ← List.flatMap_append]
            exact hperm.flatMap_right _
          rw [entries_node]
          exact hentries.symm.cons _
      · have hxs : v ∈ xs := (List.mem_cons.mp hmem).resolve_left (Ne.symm hx)
        rw [if_neg hx, if_pos hxs, entries_node, entries_node, ← List.cons_append, ← List.map_cons]
        refine List.Perm.append_right _ (List.Perm.map _ ?_)
        exact ((List.perm_cons_erase hxs).cons _).trans (List.Perm.swap _ _ _)
    · have hv : v ∈ l.values := List.mem_map_of_mem hl
      have hx : v ∉ x :: xs := fun hin => hown v hin v (List.mem_append_left _ hv) rfl
      have hr : ∀ e ∈ r.entries, e.2 ≠ v := fun e he heq => hapart v hv e.2 (List.mem_map_of_mem he) heq.symm
      have hne : x ≠ v := fun heq => hx (heq ▸ List.mem_cons_self)
      rw [if_neg hne, if_neg fun hin => hx (List.mem_cons_of_mem _ hin), entries_node, entries_node, erase_of_not_mem hr]
      exact (((ihl hl hnodupl).append_right _).append_left _).trans List.perm_middle
    · have hv : v ∈ r.values := List.mem_map_of_mem hr
      have hx : v ∉ x :: xs := fun hin => hown v hin v (List.mem_append_right _ hv) rfl
      have hl : ∀ e ∈ l.entries, e.2 ≠ v := fun e he heq => hapart e.2 (List.mem_map_of_mem he) v hv heq
      have hne : x ≠ v := fun heq => hx (heq ▸ List.mem_cons_self)
      rw [if_neg hne, if_neg fun hin => hx (List.mem_cons_of_mem _ hin), entries_node, entries_node, erase_of_not_mem hl]
      exact (((ihr hr hnodupr).append_left _).append_left _).trans
        ((List.perm_middle.append_left _).trans List.perm_middle)

theorem values_erase_perm (h : v ∈ t.values) (hnodup : t.values.Nodup) : t.values.Perm (v :: (erase v t).values) := by
  obtain ⟨e, he, rfl⟩ := List.mem_map.mp h
  exact (entries_erase_perm he hnodup).map Prod.snd

end Erased

end Erase

end Trie

end cmodel
