import LdSo.Lib.Memory.Words
import Mathlib.Logic.Function.Basic

namespace cmodel

section Assign

variable {α β : Type*} [DecidableEq α] {f : α → β} {xs ys : List (α × β)} {a : α} {v : β}

/-- A table after the entries were written in order. -/
def assign (f : α → β) (xs : List (α × β)) : α → β := xs.foldl (fun f x => Function.update f x.1 x.2) f

@[simp] theorem assign_nil (f : α → β) : assign f [] = f := rfl

@[simp] theorem assign_cons (f : α → β) (x : α × β) (xs : List (α × β)) :
    assign f (x :: xs) = assign (Function.update f x.1 x.2) xs := rfl

theorem assign_of_not_mem (h : a ∉ xs.map Prod.fst) : assign f xs a = f a := by
  induction xs generalizing f with
  | nil => rfl
  | cons x xs ih =>
    obtain ⟨hx, hxs⟩ := not_or.mp (List.mem_cons.not.mp h)
    rw [assign_cons, ih hxs, Function.update_of_ne hx]

/-- A key that was always written with the same value has this value. -/
theorem assign_of_mem (h : ∀ x ∈ xs, x.1 = a → x.2 = v) (ha : a ∈ xs.map Prod.fst) : assign f xs a = v := by
  induction xs generalizing f with
  | nil => cases ha
  | cons x xs ih =>
    rw [assign_cons]
    by_cases hmem : a ∈ xs.map Prod.fst
    · exact ih (fun y hy => h y (List.mem_cons_of_mem _ hy)) hmem
    · obtain rfl | hlater := List.mem_cons.mp ha
      · rw [assign_of_not_mem hmem, Function.update_self, h x List.mem_cons_self rfl]
      · exact absurd hlater hmem

/-- Keys written once have what was written. -/
theorem assign_of_nodup (hnodup : (xs.map Prod.fst).Nodup) {x : α × β} (hx : x ∈ xs) : assign f xs x.1 = x.2 := by
  refine assign_of_mem (fun y hy hkey => ?_) (List.mem_map_of_mem hx)
  rw [List.inj_on_of_nodup_map hnodup hy hx hkey]

end Assign

namespace Memory

variable {n w : Nat}

/-- The words hold the table `f`, and of `m₀` nothing else was changed. -/
structure Table (ws : List (BitVec n)) (m₀ m : Memory n) (f : BitVec n → BitVec w) : Prop where
  keeps : (m₀.hide (wordRegions w ws)).Sub (m.hide (wordRegions w ws))
  protection : ∀ x p, m₀.protection x = some p → m.protection x = some p
  writable : ∀ a ∈ ws, m.WritableRegion (wordRegion w a)
  words : ∀ a ∈ ws, loadWord w m a = .ok (f a)

/-- Words that do not meet are different words. -/
theorem Apart.nodup {ws : List (BitVec n)} (hapart : Apart w ws) (hsize : 0 < w / 8) : ws.Nodup := by
  refine hapart.imp ?_
  rintro a b hdis rfl
  have hin : (wordRegion w a).Contains a := by simpa [Region.Contains, wordRegion] using hsize
  exact hdis a hin hin

theorem Apart.disjoint_of_ne {ws : List (BitVec n)} (hapart : Apart w ws) {a b : BitVec n} (ha : a ∈ ws) (hb : b ∈ ws)
    (hne : a ≠ b) : (wordRegion w a).Disjoint (wordRegion w b) := by
  obtain ⟨i, hi⟩ := List.getElem?_of_mem ha
  obtain ⟨j, hj⟩ := List.getElem?_of_mem hb
  refine hapart.disjoint hi hj ?_
  rintro rfl
  exact hne (Option.some.inj (hi.symm.trans hj))

/-- A word and the protection of its bytes make up what the memory holds there. -/
theorem cell_eq_of_word {m m' : Memory n} {a x : BitVec n} {v : BitVec w} (hw : w % 8 = 0)
    (hword : loadWord w m a = .ok v) (hword' : loadWord w m' a = .ok v) (hin : (wordRegion w a).Contains x)
    (hprot : m.protection x = m'.protection x) : m x = m' x := by
  have hlt : (x - a).toNat < (leBytes (w / 8) v.toNat).length := by
    rw [leBytes_length]
    exact hin
  rw [← putWord_eq_self hw hword, ← putWord_eq_self hw hword', putWord, putWord, put_of_contains hlt,
    put_of_contains hlt]
  unfold protection at hprot
  cases hm : m x with
  | none =>
    rw [hm, Option.map_none, eq_comm, Option.map_eq_none_iff] at hprot
    rw [hprot]
  | some c =>
    rw [hm, Option.map_some, eq_comm, Option.map_eq_some_iff] at hprot
    obtain ⟨c', hc', hsame⟩ := hprot
    rw [hc', Option.map_some, Option.map_some, ← hsame]

namespace Table

variable {ws : List (BitVec n)} {m₀ m m' : Memory n} {f g : BitVec n → BitVec w}

/-- Writable words hold some table. -/
theorem of_writable (hwr : ∀ a ∈ ws, m.WritableRegion (wordRegion w a)) :
    ∃ f : BitVec n → BitVec w, Table ws m m f := by
  have hload : ∀ a ∈ ws, ∃ v : BitVec w, loadWord w m a = .ok v := fun a ha => loadWord_of_writable (hwr a ha)
  choose! f hf using hload
  exact ⟨f, Sub.refl _, fun _ _ h => h, hwr, hf⟩

/-- What is mapped besides shows in no word. -/
theorem grow (h : Table ws m₀ m f) (hsub : m.Sub m') : Table ws m₀ m' f where
  keeps := h.keeps.trans (hsub.hide _)
  protection x p hp := by
    have hold := h.protection x p hp
    unfold Memory.protection at hold ⊢
    obtain ⟨c, hc, hcp⟩ := Option.map_eq_some_iff.mp hold
    rw [hsub x c hc, Option.map_some, hcp]
  writable a ha := hsub.writableRegion (h.writable a ha)
  words a ha := Outcome.eq_ok_of_le (hsub.loadWord_le w a) (h.words a ha)

variable (hw : w % 8 = 0) (hfit : w / 8 ≤ 2 ^ n) (hapart : Apart w ws)

include hw hfit hapart in
/-- Writing one of the words updates the table there. -/
theorem putWord (h : Table ws m₀ m f) {a : BitVec n} (ha : a ∈ ws) (v : BitVec w) :
    Table ws m₀ (m.putWord a v) (Function.update f a v) where
  keeps := by
    have hkept : (m.putWord a v).hide (wordRegions w ws) = m.hide (wordRegions w ws) :=
      hide_putWord (List.mem_map_of_mem ha)
    rw [hkept]
    exact h.keeps
  protection x p hp := by
    rw [Memory.putWord, protection_put]
    exact h.protection x p hp
  writable b hb := writableRegion_putWord.mpr (h.writable b hb)
  words b hb := by
    by_cases hba : b = a
    · subst hba
      rw [loadWord_putWord_same hw hfit (h.writable b hb), Function.update_self]
    · rw [loadWord_putWord_of_disjoint (hapart.disjoint_of_ne ha hb (Ne.symm hba)), h.words b hb,
        Function.update_of_ne hba]

include hw hfit hapart in
theorem putWords (h : Table ws m₀ m f) {xs : List (BitVec n × BitVec w)} (hxs : ∀ x ∈ xs, x.1 ∈ ws) :
    Table ws m₀ (m.putWords xs) (assign f xs) := by
  induction xs generalizing m f with
  | nil => exact h
  | cons x xs ih =>
    exact ih (h.putWord hw hfit hapart (hxs x List.mem_cons_self) x.2) fun y hy => hxs y (List.mem_cons_of_mem _ hy)

/-- What was written to `m₀` is found wherever the words hold the same table, up
to the words that are hidden. -/
theorem putWords_sub (hw : w % 8 = 0) (hfit : w / 8 ≤ 2 ^ n) (hapart : Apart w ws) (h : Table ws m₀ m₀ f)
    {xs : List (BitVec n × BitVec w)} (hxs : ∀ x ∈ xs, x.1 ∈ ws) (hm : Table ws m₀ m g) {hidden : List (BitVec n)}
    (hsame : ∀ a ∈ ws, a ∉ hidden → assign f xs a = g a) :
    ((m₀.putWords xs).hide (wordRegions w hidden)).Sub (m.hide (wordRegions w hidden)) := by
  have htable := h.putWords hw hfit hapart hxs
  have hprot : ∀ x, (m₀.putWords xs).protection x = m₀.protection x := fun x =>
    putWords_keeps (·.protection x) (fun _ _ _ => protection_put _ _ _ _) m₀
  have hkept : (m₀.putWords xs).hide (wordRegions w ws) = m₀.hide (wordRegions w ws) :=
    hide_putWords fun x hx => List.mem_map_of_mem (hxs x hx)
  intro x c hx
  unfold hide at hx ⊢
  split at hx
  · cases hx
  · next hshown =>
    rw [if_neg hshown]
    by_cases hin : ∃ a ∈ ws, (wordRegion w a).Contains x
    · -- a byte of one of the words
      obtain ⟨a, ha, hax⟩ := hin
      have hvisible : a ∉ hidden := fun hmem => hshown ⟨_, List.mem_map_of_mem hmem, hax⟩
      have hword' : loadWord w m a = .ok (assign f xs a) := by rw [hsame a ha hvisible, hm.words a ha]
      have hcell : (m₀.putWords xs).protection x = some c.prot := by
        unfold Memory.protection
        rw [hx, Option.map_some]
      have hcell' := hm.protection x c.prot (by rw [← hprot, hcell])
      rw [← hx]
      exact (cell_eq_of_word hw (htable.words a ha) hword' hax (hcell.trans hcell'.symm)).symm
    · -- a byte elsewhere
      have hout : ∀ r ∈ wordRegions w ws, ¬ r.Contains x := by
        intro r hr hrx
        obtain ⟨a, ha, rfl⟩ := List.mem_map.mp hr
        exact hin ⟨a, ha, hrx⟩
      have hold : m₀ x = some c := (hide_eq_hide_iff.mp hkept x hout).symm.trans hx
      have hvisible : ¬ ∃ r ∈ wordRegions w ws, r.Contains x := by
        rintro ⟨r, hr, hrx⟩
        exact hout r hr hrx
      exact hide_sub m _ x c (hm.keeps x c (by rwa [hide, if_neg hvisible]))

end Table

end Memory

end cmodel
