import LdSo.Loader.Program
import Mathlib.Data.Set.BooleanAlgebra
import Mathlib.Data.Set.Disjoint
import Mathlib.Order.CompletePartialOrder

open cmodel

namespace ldso

open elf loader

namespace Program

variable {o o' : Program} {b b' : Nat} {a a' x : elf_addr}

/-- The memory a segment of an object loaded at `l_addr` takes, .bss included. -/
def segment (p : Phdr) (l_addr : elf_addr) : Region 64 := ⟨p.p_vaddr + l_addr, p.p_memsz.toNat⟩

/-- The memory image of an object loaded at `l_addr`. -/
def image (o : Program) (l_addr : elf_addr) : Set elf_addr := {x | ∃ p ∈ o.loads, (segment p l_addr).Contains x}

theorem toNat_vaddr_add_l_addr {p : Phdr} (hfits : o.FitsAt a.toNat) (hp : p ∈ o.loads) :
    (p.p_vaddr + a).toNat = a.toNat + p.p_vaddr.toNat :=
  @loader.toNat_vaddr ⟨a, .lit "", none, none, none⟩ _ _ _ hfits rfl hp

/-- An address of the image lies in one of the segments. -/
theorem mem_image_iff (hfits : o.FitsAt a.toNat) :
    x ∈ o.image a ↔ ∃ p ∈ o.loads, a.toNat + p.p_vaddr.toNat ≤ x.toNat ∧ x.toNat < a.toNat + p.mem_end := by
  have hsegment : ∀ p ∈ o.loads, (segment p a).Contains x ↔
      a.toNat + p.p_vaddr.toNat ≤ x.toNat ∧ x.toNat < a.toNat + p.mem_end := by
    intro p hp
    have hmem := hfits.mem p hp
    have hx := x.isLt
    unfold segment Region.Contains Phdr.mem_end at *
    simp only
    rw [BitVec.toNat_sub, toNat_vaddr_add_l_addr hfits hp]
    omega
  constructor
  · rintro ⟨p, hp, hx⟩
    exact ⟨p, hp, (hsegment p hp).mp hx⟩
  · rintro ⟨p, hp, hx⟩
    exact ⟨p, hp, (hsegment p hp).mpr hx⟩

/-- The last PT_LOAD segment is the highest. -/
theorem mem_end_le (hwf : o.WellFormed) {p : Phdr} (hp : p ∈ o.loads) : p.mem_end ≤ o.mem_end := by
  unfold mem_end
  cases hlast : o.loads.getLast? with
  | none =>
    rw [List.getLast?_eq_none_iff] at hlast
    rw [hlast] at hp
    cases hp
  | some last =>
    obtain ⟨front, hfront⟩ := List.getLast?_eq_some_iff.mp hlast
    have hasc := hwf.ascending
    rw [hfront] at hasc hp
    obtain hp | hp := List.mem_append.mp hp
    · have hle := (List.pairwise_append.mp hasc).2.2 p hp last (by simp)
      simp only [Option.elim_some]
      unfold Phdr.mem_end at *
      omega
    · rw [List.mem_singleton] at hp
      simp [hp]

theorem image_bounds (hwf : o.WellFormed) (hfits : o.FitsAt a.toNat) (hx : x ∈ o.image a) :
    a.toNat + o.mem_start ≤ x.toNat ∧ x.toNat < a.toNat + o.mem_end := by
  obtain ⟨p, hp, hlo, hhi⟩ := (mem_image_iff hfits).mp hx
  have hstart := mem_start_le hwf hp
  have hend := mem_end_le hwf hp
  omega

theorem mem_start_le_mem_end (hwf : o.WellFormed) : o.mem_start ≤ o.mem_end := by
  cases hfirst : o.loads.head? with
  | none => simp [mem_start, hfirst]
  | some first =>
    have hend := mem_end_le hwf (List.mem_of_head? hfirst)
    unfold Phdr.mem_end at hend
    simp only [mem_start, hfirst, Option.elim_some]
    omega

/-- The images of two objects have no address in common, and mapping the second
does not replace memory of the first. -/
def Separate (o : Program) (a : elf_addr) (o' : Program) (a' : elf_addr) : Prop :=
  Disjoint (o.image a) (o'.image a') ∧ ∀ x ∈ o.image a, ¬ (o'.mapping a').Contains x

/-- The same as arithmetic on the headers: no segment of the first object meets a
segment of the second or the range that is mapped for it. -/
def Clear (o : Program) (a : elf_addr) (o' : Program) (a' : elf_addr) : Prop :=
  ∀ p ∈ o.loads, (∀ q ∈ o'.loads, (segment p a).Clear (segment q a')) ∧ (segment p a).Clear (o'.mapping a')

instance (o : Program) (a : elf_addr) (o' : Program) (a' : elf_addr) : Decidable (o.Clear a o' a') :=
  inferInstanceAs (Decidable (∀ p ∈ o.loads, _))

theorem separate_iff_clear : o.Separate a o' a' ↔ o.Clear a o' a' := by
  unfold Separate Clear
  simp only [← Region.disjoint_iff_clear, Set.disjoint_left]
  constructor
  · rintro ⟨himage, hmapping⟩ p hp
    exact ⟨fun q hq x hx hx' => himage ⟨p, hp, hx⟩ ⟨q, hq, hx'⟩, fun x hx => hmapping x ⟨p, hp, hx⟩⟩
  · intro h
    constructor
    · rintro x ⟨p, hp, hx⟩ ⟨q, hq, hx'⟩
      exact (h p hp).1 q hq x hx hx'
    · rintro x ⟨p, hp, hx⟩
      exact (h p hp).2 x hx

/-- An object is separate from one that starts on a page behind its end. -/
theorem separate_of_le (hwf : o.WellFormed) (hwf' : o'.WellFormed) (hfits : o.FitsAt a.toNat)
    (hfits' : o'.FitsAt a'.toNat) (haligned : a'.toNat % 4096 = 0)
    (h : a.toNat + o.mem_end ≤ a'.toNat + page_floor o'.mem_start) : o.Separate a o' a' := by
  constructor
  · rw [Set.disjoint_left]
    intro x hx hx'
    have hbounds := image_bounds hwf hfits hx
    have hbounds' := image_bounds hwf' hfits' hx'
    unfold page_floor at h
    omega
  · intro x hx hmapping
    have hbounds := image_bounds hwf hfits hx
    have hmapped := (mapping_contains_iff hfits' haligned).mp hmapping
    omega

end Program

end ldso
