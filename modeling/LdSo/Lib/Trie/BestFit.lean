import LdSo.Lib.Trie

namespace cmodel.Trie

variable {α : Type} {k lo n nb : Nat} {x : α} {xs : List α} {l r t : Trie α} {v : Option (Nat × α)}
  {es es' : List (Nat × α)}

/-- Of the entries whose number is `nb` or more, one with the least number; or none,
where there are none. -/
def IsBest (nb : Nat) (es : List (Nat × α)) : Option (Nat × α) → Prop
  | none => ∀ e ∈ es, e.1 < nb
  | some w => w ∈ es ∧ nb ≤ w.1 ∧ ∀ e ∈ es, nb ≤ e.1 → w.1 ≤ e.1

/-- The better one of what was found before and one more value. -/
def better (nb : Nat) (v : Option (Nat × α)) (k : Nat) (x : α) : Option (Nat × α) :=
  if nb ≤ k ∧ ∀ w ∈ v, k < w.1 then some (k, x) else v

/-- The way to the left as far as there is a node, and else to the right. -/
def walk (nb : Nat) : Trie α → Option (Nat × α) → Option (Nat × α)
  | nil, v => v
  | node k x _ nil r, v => walk nb r (better nb v k x)
  | node k x _ (node k' x' xs' l' r') _, v => walk nb (node k' x' xs' l' r') (better nb v k x)

/-- The trie, or the other one where it is empty. -/
def orElse (t rst : Trie α) : Trie α :=
  match t with
  | nil => rst
  | t => t

@[simp] theorem orElse_nil (rst : Trie α) : orElse nil rst = rst := rfl

@[simp] theorem orElse_node (rst : Trie α) : orElse (node k x xs l r) rst = node k x xs l r := rfl

/-- The way of the bits of `nb`, and from its end to the deepest part on the right of
it, which is `rst`. -/
def search (nb : Nat) : Nat → Trie α → Trie α → Option (Nat × α) → Option (Nat × α)
  | _, nil, rst, v => walk nb rst v
  | n, node k x _ l r, rst, v =>
    if k = nb then better nb v k x
    else if nb.testBit (n - 1) then search nb (n - 1) r rst (better nb v k x)
    else search nb (n - 1) l (orElse r rst) (better nb v k x)

namespace IsBest

theorem nil : IsBest nb ([] : List (Nat × α)) none := by simp [IsBest]

theorem of_perm (h : IsBest nb es v) (hperm : es.Perm es') : IsBest nb es' v := by
  cases v with
  | none => exact fun e he => h e (hperm.mem_iff.mpr he)
  | some w => exact ⟨hperm.mem_iff.mp h.1, h.2.1, fun e he => h.2.2 e (hperm.mem_iff.mpr he)⟩

/-- Entries that are too small, or not smaller than the best one, make no difference. -/
theorem append (h : IsBest nb es v) (hes : ∀ e ∈ es', e.1 < nb ∨ ∃ w ∈ v, w.1 ≤ e.1) : IsBest nb (es ++ es') v := by
  cases v with
  | none =>
    intro e he
    obtain he | he := List.mem_append.mp he
    · exact h e he
    · obtain hlt | ⟨w, hw, -⟩ := hes e he
      · exact hlt
      · cases hw
  | some w =>
    refine ⟨List.mem_append_left _ h.1, h.2.1, fun e he hfits => ?_⟩
    obtain he | he := List.mem_append.mp he
    · exact h.2.2 e he hfits
    · obtain hlt | ⟨w', hw', hle⟩ := hes e he
      · omega
      · cases hw'
        exact hle

/-- A node is looked at. -/
theorem better (h : IsBest nb es v) (k : Nat) (x : α) (xs : List α) :
    IsBest nb (es ++ (x :: xs).map (k, ·)) (better nb v k x) := by
  have hkey : ∀ e ∈ (x :: xs).map (k, ·), e.1 = k := by
    intro e he
    obtain ⟨y, -, rfl⟩ := List.mem_map.mp he
    rfl
  unfold Trie.better
  split
  · next hbetter =>
    refine ⟨List.mem_append_right _ (by simp), hbetter.1, fun e he hfits => ?_⟩
    obtain he | he := List.mem_append.mp he
    · cases v with
      | none =>
        have hsmall := h e he
        omega
      | some w => exact (hbetter.2 w rfl).le.trans (h.2.2 e he hfits)
    · exact (hkey e he).ge
  · next hnot =>
    apply h.append
    intro e he
    rw [hkey e he]
    by_cases hfits : nb ≤ k
    · right
      by_contra hnone
      refine hnot ⟨hfits, fun w hw => ?_⟩
      by_contra hle
      exact hnone ⟨w, hw, Nat.le_of_not_lt hle⟩
    · exact .inl (Nat.lt_of_not_le hfits)

/-- What is found is not above any entry that is large enough. -/
theorem le_of_mem (h : IsBest nb es v) {e : Nat × α} (he : e ∈ es) (hfits : nb ≤ e.1) : ∃ w ∈ v, w.1 ≤ e.1 := by
  cases v with
  | none =>
    have hsmall := h e he
    omega
  | some w => exact ⟨w, rfl, h.2.2 e he hfits⟩

end IsBest

/-- Where all numbers are large enough, the way to the left meets the least one. -/
theorem isBest_walk (hw : t.Within lo n) (hfits : ∀ k ∈ t.keys, nb ≤ k) (h : IsBest nb es v) :
    IsBest nb (es ++ t.entries) (walk nb t v) := by
  induction t generalizing lo n es v with
  | nil => simpa [walk] using h
  | node k x xs l r ihl ihr =>
    have hown := h.better k x xs
    rw [entries_node, ← List.append_assoc]
    cases n with
    | zero =>
      obtain ⟨rfl, rfl, rfl⟩ := hw
      simpa [walk] using hown
    | succ n =>
      obtain ⟨-, -, hl, hr⟩ := hw
      cases l with
      | nil =>
        rw [walk, entries_nil, List.nil_append]
        exact ihr hr (fun j hj => hfits j (by simp [hj])) hown
      | node k' x' xs' l' r' =>
        rw [walk, ← List.append_assoc]
        have hfitsl : ∀ j ∈ (node k' x' xs' l' r').keys, nb ≤ j := by
          intro j hj
          rw [keys_node] at hfits
          exact hfits j (List.mem_cons_of_mem _ (List.mem_append_left _ hj))
        have hleft := ihl hl hfitsl hown
        apply hleft.append
        -- all on the right are above the first node on the left
        intro e he
        have hfirst : (k', x') ∈ (node k' x' xs' l' r').entries := mem_entries_node.mpr (.inl ⟨rfl, List.mem_cons_self⟩)
        obtain ⟨w, hwin, hle⟩ := hleft.le_of_mem (List.mem_append_right _ hfirst) (hfits k' (by simp))
        have hbelow := hl.entry_bounds hfirst
        have habove := hr.entry_bounds he
        exact .inr ⟨w, hwin, by omega⟩

/-- What was found before is not lost. -/
theorem walk_isSome_of_isSome (h : v.isSome = true) : (walk nb t v).isSome = true := by
  induction t generalizing v with
  | nil => exact h
  | node k x xs l r ihl ihr =>
    have hbetter : (better nb v k x).isSome = true := by
      unfold better
      split
      · rfl
      · exact h
    cases l with
    | nil =>
      rw [walk]
      exact ihr hbetter
    | node =>
      rw [walk]
      exact ihl hbetter

theorem walk_isSome (hne : t ≠ nil) (hfits : ∀ k ∈ t.keys, nb ≤ k) : (walk nb t v).isSome = true := by
  cases t with
  | nil => exact absurd rfl hne
  | node k x xs l r =>
    have hbetter : (better nb v k x).isSome = true := by
      unfold better
      cases v with
      | none => simp [hfits k (by simp)]
      | some w =>
        split
        · rfl
        · rfl
    cases l with
    | nil =>
      rw [walk]
      exact walk_isSome_of_isSome hbetter
    | node =>
      rw [walk]
      exact walk_isSome_of_isSome hbetter

/-- Nothing is better than an entry with the number itself. -/
theorem walk_exact {w : Nat × α} (hw : w.1 ≤ k) : walk k t (some w) = some w := by
  have hbetter : ∀ j y, better k (some w) j y = some w := by
    intro j y
    unfold better
    rw [if_neg]
    rintro ⟨hle, hall⟩
    have hlt := hall w rfl
    omega
  induction t with
  | nil => rfl
  | node j x xs l r ihl ihr =>
    cases l with
    | nil => rw [walk, hbetter, ihr]
    | node => rw [walk, hbetter, ihl]

/-- The search meets the best one of the trie and of what lies further to the right. -/
theorem isBest_search {rst : Trie α} {lo' n' : Nat} (hw : t.Within lo n) (hlo : 2 ^ n ∣ lo) (hle : lo ≤ nb)
    (hlt : nb < lo + 2 ^ n) (hrst : rst.Within lo' n') (habove : ∀ k ∈ rst.keys, lo + 2 ^ n ≤ k)
    (h : IsBest nb es v) : IsBest nb (es ++ t.entries ++ rst.entries) (search nb n t rst v) := by
  induction t generalizing lo n es v rst lo' n' with
  | nil =>
    rw [search, entries_nil, List.append_nil]
    exact isBest_walk hrst (fun k hk => by have := habove k hk; omega) h
  | node k x xs l r ihl ihr =>
    have hown := h.better k x xs
    rw [search]
    by_cases hk : k = nb
    · subst hk
      -- nothing is below a number that is met
      rw [if_pos rfl, entries_node, ← List.append_assoc, List.append_assoc (es ++ _)]
      apply hown.append
      intro e _
      obtain hsmall | hfits := Nat.lt_or_ge e.1 k
      · exact .inl hsmall
      · obtain ⟨w, hwin, hwle⟩ := hown.le_of_mem (e := (k, x)) (by simp) (Nat.le_refl k)
        exact .inr ⟨w, hwin, hwle.trans hfits⟩
    · rw [if_neg hk]
      cases n with
      | zero =>
        obtain ⟨rfl, -, -⟩ := hw
        omega
      | succ n =>
        obtain ⟨hklo, hkhi, hl, hr⟩ := hw
        have hdvd : 2 ^ n ∣ lo := (pow_dvd_pow 2 (Nat.le_succ n)).trans hlo
        have hpow : 2 ^ (n + 1) = 2 ^ n + 2 ^ n := by ring
        rw [Nat.add_sub_cancel]
        by_cases hbit : nb.testBit n = true
        · have hhalf := (testBit_iff_of_bounds hlo hle hlt).mp hbit
          rw [if_pos hbit]
          have hright := ihr hr (Nat.dvd_add hdvd (dvd_refl _)) hhalf (by omega) hrst
            (fun j hj => by have := habove j hj; omega) hown
          -- all on the left are too small
          have hsmall : ∀ e ∈ l.entries, e.1 < nb := fun e he => by
            have hbounds := hl.entry_bounds he
            omega
          have hall := hright.append fun e he => .inl (hsmall e he)
          refine hall.of_perm ?_
          rw [entries_node]
          simp only [List.append_assoc]
          refine List.Perm.append_left _ (List.Perm.append_left _ ?_)
          rw [← List.append_assoc]
          exact List.perm_append_comm
        · have hhalf := mt (testBit_iff_of_bounds hlo hle hlt).mpr hbit
          rw [if_neg hbit]
          cases r with
          | nil =>
            rw [orElse_nil]
            have hleft := ihl hl hdvd hle (by omega) hrst (fun j hj => by have := habove j hj; omega) hown
            simpa [List.append_assoc] using hleft
          | node k' x' xs' l' r' =>
            rw [orElse_node]
            have hleft := ihl hl hdvd hle (by omega) hr (fun j hj => (hr.bounds j hj).1) hown
            -- what was on the right before lies above the new part
            have hfirst : (k', x') ∈ (node k' x' xs' l' r').entries :=
              mem_entries_node.mpr (.inl ⟨rfl, List.mem_cons_self⟩)
            have hbelow := hr.entry_bounds hfirst
            obtain ⟨w, hwin, hwle⟩ := hleft.le_of_mem (List.mem_append_right _ hfirst) (by omega)
            have hbeyond : ∀ e ∈ rst.entries, w.1 ≤ e.1 := fun e he => by
              have hup := habove _ (mem_keys_of_mem_entries he)
              omega
            have hall := hleft.append fun e he => .inr ⟨w, hwin, hbeyond e he⟩
            refine hall.of_perm ?_
            rw [entries_node (l := l)]
            simp only [List.append_assoc]
            exact List.Perm.refl _

end cmodel.Trie
