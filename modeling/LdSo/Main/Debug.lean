import LdSo.Main

open cmodel

namespace ldso

open elf

/-- What the search for DT_DEBUG is there for: no tag changes, only a DT_DEBUG entry
in front of the terminator gets `r_debug`, and without one the array stays as it is. -/
structure DebugSet (r_debug : elf_addr) (dynamic dynamic' : List Dyn) : Prop where
  tags : dynamic'.map Dyn.d_tag = dynamic.map Dyn.d_tag
  only : ∀ (i : Nat) (d d' : Dyn), dynamic[i]? = some d → dynamic'[i]? = some d' → d' ≠ d → d.d_tag = DT_DEBUG
  set : (∃ d ∈ dynamic'.takeWhile (·.d_tag ≠ DT_NULL), d = ⟨DT_DEBUG, r_debug⟩) ↔
    ∃ d ∈ dynamic.takeWhile (·.d_tag ≠ DT_NULL), d.d_tag = DT_DEBUG
  none : (∀ d ∈ dynamic.takeWhile (·.d_tag ≠ DT_NULL), d.d_tag ≠ DT_DEBUG) → dynamic' = dynamic

/-- A pass through the loop that neither overflows nor reaches a tag to stop at. -/
theorem find_debug_step {fuel : Nat} {d_tag : BitVec 64} (hmax : d_tag.toNat ≠ 2 ^ 63 - 1)
    (hnull : d_tag.toNat ≠ 2 ^ 64 - 1) (hdebug : d_tag.toNat ≠ 20) :
    find_debug (fuel + 1) d_tag = find_debug fuel (d_tag + 1#64) := by
  have hover : d_tag ≠ BitVec.intMax 64 := fun h => hmax (by rw [h]; decide)
  have hgo : ¬ (d_tag + 1#64 = DT_NULL ∨ d_tag + 1#64 = DT_DEBUG) := by
    unfold DT_NULL DT_DEBUG
    bv_omega
  rw [find_debug, if_neg hover]
  exact if_neg hgo

/-- The tag is counted up to the first one at which the loop may stop. -/
theorem find_debug_reaches {fuel last : Nat} {d_tag : BitVec 64} (hle : d_tag.toNat ≤ last) (hlast : last < 2 ^ 64)
    (hpass : ∀ k, d_tag.toNat ≤ k → k < last → k ≠ 2 ^ 63 - 1 ∧ k ≠ 20) (hfuel : last - d_tag.toNat < fuel) :
    ∃ fuel', find_debug fuel d_tag = find_debug (fuel' + 1) (BitVec.ofNat 64 last) := by
  induction fuel generalizing d_tag with
  | zero => omega
  | succ fuel ih =>
    obtain rfl | hlt := Nat.eq_or_lt_of_le hle
    · exact ⟨fuel, by rw [BitVec.ofNat_toNat, BitVec.setWidth_eq]⟩
    · obtain ⟨hmax, hdebug⟩ := hpass d_tag.toNat (le_refl _) hlt
      have hnext : (d_tag + 1#64).toNat = d_tag.toNat + 1 := by bv_omega
      rw [find_debug_step hmax (by omega) hdebug]
      exact ih (by omega) (fun k hk hklt => hpass k (by omega) hklt) (by omega)

/-- A tag below DT_DEBUG is counted up to it. -/
theorem find_debug_below {fuel : Nat} {d_tag : BitVec 64} (hlt : d_tag.toNat < 21) (hfuel : 21 - d_tag.toNat ≤ fuel) :
    find_debug fuel d_tag = .ok DT_DEBUG := by
  have hpass : ∀ k, d_tag.toNat ≤ k → k < 20 → k ≠ 2 ^ 63 - 1 ∧ k ≠ 20 := by omega
  have hroom : 20 - d_tag.toNat < fuel := by omega
  obtain ⟨fuel', hrun⟩ := find_debug_reaches (Nat.le_of_lt_succ hlt) (by decide) hpass hroom
  exact hrun

/-- A negative tag is counted up to DT_NULL. -/
theorem find_debug_negative {fuel : Nat} {d_tag : BitVec 64} (hneg : 2 ^ 63 ≤ d_tag.toNat)
    (hfuel : 2 ^ 64 - d_tag.toNat ≤ fuel) : find_debug fuel d_tag = .ok DT_NULL := by
  have hlt := d_tag.isLt
  have hpass : ∀ k, d_tag.toNat ≤ k → k < 2 ^ 64 - 1 → k ≠ 2 ^ 63 - 1 ∧ k ≠ 20 := by omega
  have hroom : 2 ^ 64 - 1 - d_tag.toNat < fuel := by omega
  obtain ⟨fuel', hrun⟩ := find_debug_reaches (Nat.le_sub_one_of_lt hlt) (by decide) hpass hroom
  exact hrun

/-- Every other tag, DT_DEBUG included, is counted up to the largest `long` and beyond. -/
theorem find_debug_above {fuel : Nat} {d_tag : BitVec 64} (hle : 21 ≤ d_tag.toNat) (hlt : d_tag.toNat < 2 ^ 63)
    (hfuel : 2 ^ 63 - d_tag.toNat ≤ fuel) : find_debug fuel d_tag = .fault := by
  have hpass : ∀ k, d_tag.toNat ≤ k → k < 2 ^ 63 - 1 → k ≠ 2 ^ 63 - 1 ∧ k ≠ 20 := by omega
  have hroom : 2 ^ 63 - 1 - d_tag.toNat < fuel := by omega
  obtain ⟨fuel', hrun⟩ := find_debug_reaches (Nat.le_sub_one_of_lt hlt) (by decide) hpass hroom
  exact hrun

/-- The loop never ends at the tag it was entered with. -/
theorem find_debug_ne {d_tag d_tag' : BitVec 64} (h : find_debug (2 ^ 64) d_tag = .ok d_tag') : d_tag' ≠ d_tag := by
  have hlt := d_tag.isLt
  obtain hbelow | habove := Nat.lt_or_ge d_tag.toNat 21
  · rw [find_debug_below hbelow (by omega)] at h
    obtain rfl := Outcome.ok.inj h
    rintro rfl
    exact absurd hbelow (by decide)
  · obtain hpos | hneg := Nat.lt_or_ge d_tag.toNat (2 ^ 63)
    · rw [find_debug_above habove hpos (by omega)] at h
      cases h
    · rw [find_debug_negative hneg (by omega)] at h
      obtain rfl := Outcome.ok.inj h
      rintro rfl
      exact absurd hneg (by decide)

/-- Whatever the array holds, the search does not leave it as it should: it is the
first entry's tag that is counted up. -/
theorem set_debug_never (r_debug : elf_addr) (dynamic : List Dyn) :
    ¬ ∃ dynamic', set_debug r_debug dynamic = .ok dynamic' ∧ DebugSet r_debug dynamic dynamic' := by
  rintro ⟨dynamic', hset, hdebug⟩
  cases dynamic with
  | nil => cases hset
  | cons d rest =>
    obtain ⟨d_tag, hfind, hset⟩ := Outcome.bind_eq_ok_iff.mp hset
    cases hset
    have htags := hdebug.tags
    rw [List.map_cons, List.map_cons, List.cons.injEq] at htags
    exact find_debug_ne hfind htags.1

/-- A hash table, then DT_DEBUG: the entry of the hash table becomes a DT_DEBUG entry
and gets `r_debug`, the other one does not. -/
theorem set_debug_hash :
    set_debug 0x7000 [⟨DT_HASH, 0x200⟩, ⟨DT_DEBUG, 0⟩, ⟨DT_NULL, 0⟩] =
      .ok [⟨DT_DEBUG, 0x7000⟩, ⟨DT_DEBUG, 0⟩, ⟨DT_NULL, 0⟩] ∧
    ¬ ∃ dynamic', set_debug 0x7000 [⟨DT_HASH, 0x200⟩, ⟨DT_DEBUG, 0⟩, ⟨DT_NULL, 0⟩] = .ok dynamic' ∧
      DebugSet 0x7000 [⟨DT_HASH, 0x200⟩, ⟨DT_DEBUG, 0⟩, ⟨DT_NULL, 0⟩] dynamic' := by
  have hset : set_debug 0x7000 [⟨DT_HASH, 0x200⟩, ⟨DT_DEBUG, 0⟩, ⟨DT_NULL, 0⟩] =
      .ok [⟨DT_DEBUG, 0x7000⟩, ⟨DT_DEBUG, 0⟩, ⟨DT_NULL, 0⟩] := by decide +kernel
  refine ⟨hset, ?_⟩
  rintro ⟨dynamic', hrun, hdebug⟩
  obtain rfl := Outcome.ok.inj (hset.symm.trans hrun)
  exact absurd hdebug.tags (by decide +kernel)

end ldso
