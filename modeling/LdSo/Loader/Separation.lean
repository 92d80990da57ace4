import LdSo.Loader.Chain
import LdSo.Elf.Image
import Mathlib.Data.List.Chain

open cmodel

namespace ldso

open elf elf_manipulation loader

/-- The next object's first page lies behind the memory of this one, .bss
included: three pages from the page in which reading it ended are enough. -/
def Program.Follows (o o' : Program) : Prop :=
  o.mem_end ≤ page_floor o.read_end + 3 * 4096 + page_floor o'.mem_start

instance (o o' : Program) : Decidable (o.Follows o') := inferInstanceAs (Decidable (_ ≤ _))

/-- The same where the file is not read whole: it lies there however little is read. -/
def Program.SurelyFollows (o o' : Program) : Prop :=
  o.mem_end ≤ page_floor o.least_end + 3 * 4096 + page_floor o'.mem_start

instance (o o' : Program) : Decidable (o.SurelyFollows o') := inferInstanceAs (Decidable (_ ≤ _))

/-- It makes no difference when reading ends in the same page in any case. -/
theorem Program.surelyFollows_iff {o o' : Program} (h : page_floor o.least_end = page_floor o.read_end) :
    o.SurelyFollows o' ↔ o.Follows o' := by
  unfold SurelyFollows Follows
  rw [h]

/-- The objects of a link map that the loader has mapped, in order, are separate. -/
def Heap.Separate (heap : Heap) (file : CString → Program) : Prop :=
  (heap.filter fun v => Mapped v.l_name).Pairwise fun u v => (file u.l_name).Separate u.l_addr (file v.l_name) v.l_addr

/-- Where the second object is put: on a page three pages behind what is read of the
first one in any case, and not further than if all of it is read. -/
structure Behind (file : CString → Program) (u v : CString × Nat) : Prop where
  aligned : v.2 % 4096 = 0
  least : page_floor (u.2 + (file u.1).least_end) + 3 * 4096 ≤ v.2
  most : v.2 ≤ (file u.1).next_base u.2

namespace loader

variable {sys : System} {base vdso : elf_addr} {file : CString → Program} {names : List CString}

theorem next_base_aligned (o : Program) (b : Nat) : o.next_base b % 4096 = 0 := by
  unfold Program.next_base page_floor
  omega

theorem least_end_le (o : Program) : o.least_end ≤ o.read_end := by
  unfold Program.least_end Program.read_end
  cases (Program.loaded false o.phdrs).getLast? with
  | none => exact le_rfl
  | some p => exact Nat.add_le_add_left (least_read_le o p) _

theorem placements_aligned {b : Nat} (hb : b % 4096 = 0) : ∀ u ∈ placements file b names, u.2 % 4096 = 0 := by
  induction names generalizing b with
  | nil => simp [placements]
  | cons name rest ih =>
    intro u hu
    obtain rfl | hu := List.mem_cons.mp hu
    · exact hb
    · exact ih (next_base_aligned _ _) u hu

theorem placements_fst {b : Nat} : (placements file b names).map Prod.fst = names := by
  induction names generalizing b with
  | nil => rfl
  | cons name rest ih => exact congrArg (name :: ·) ih

theorem placements_name {b : Nat} : ∀ u ∈ placements file b names, u.1 ∈ names := by
  intro u hu
  rw [← @placements_fst file names b]
  exact List.mem_map_of_mem hu

/-- Objects of which all is read are put behind one another. -/
theorem placements_behind {b : Nat} : (placements file b names).IsChain (Behind file) := by
  induction names generalizing b with
  | nil => exact List.isChain_nil
  | cons name rest ih =>
    cases rest with
    | nil => exact List.isChain_singleton _
    | cons name' rest =>
      refine List.isChain_cons_cons.mpr ⟨⟨next_base_aligned _ _, ?_, le_rfl⟩, ih⟩
      have hle := least_end_le (file name)
      unfold Program.next_base page_floor
      simp only
      omega

/-- If every object surely follows its neighbour, every later object starts behind
every earlier one. -/
theorem ascending_of_behind {us : List (CString × Nat)} (hwf : ∀ u ∈ us, (file u.1).WellFormed)
    (haligned : ∀ u ∈ us, u.2 % 4096 = 0) (hbehind : us.IsChain (Behind file))
    (hchain : us.IsChain fun u v => (file u.1).SurelyFollows (file v.1)) :
    us.Pairwise fun u v => u.2 + (file u.1).mem_end ≤ v.2 + page_floor (file v.1).mem_start := by
  induction us with
  | nil => exact List.Pairwise.nil
  | cons u us ih =>
    obtain ⟨hu, haligned⟩ := List.forall_mem_cons.mp haligned
    have hrest := ih (fun w hw => hwf w (List.mem_cons_of_mem _ hw)) haligned hbehind.tail hchain.tail
    refine List.pairwise_cons.mpr ⟨?_, hrest⟩
    cases us with
    | nil => simp
    | cons v us =>
      have hnext : u.2 + (file u.1).mem_end ≤ v.2 + page_floor (file v.1).mem_start := by
        have hfollows := (List.isChain_cons_cons.mp hchain).1
        have hleast := (List.isChain_cons_cons.mp hbehind).1.least
        rw [page_floor_add hu] at hleast
        unfold Program.SurelyFollows at hfollows
        omega
      intro w hw
      obtain rfl | hw := List.mem_cons.mp hw
      · exact hnext
      · have hlater := (List.pairwise_cons.mp hrest).1 w hw
        have hspan := Program.mem_start_le_mem_end (hwf v (by simp))
        have hpage : page_floor (file v.1).mem_start ≤ (file v.1).mem_start := Nat.div_mul_le_self _ _
        omega

theorem separate_of_behind {us : List (CString × Nat)} (hwf : ∀ u ∈ us, (file u.1).WellFormed)
    (haligned : ∀ u ∈ us, u.2 % 4096 = 0) (hfits : ∀ u ∈ us, (file u.1).FitsAt u.2)
    (hbehind : us.IsChain (Behind file)) (hchain : us.IsChain fun u v => (file u.1).SurelyFollows (file v.1)) :
    us.Pairwise fun u v => (file u.1).Separate (BitVec.ofNat 64 u.2) (file v.1) (BitVec.ofNat 64 v.2) := by
  have hval : ∀ u ∈ us, (BitVec.ofNat 64 u.2).toNat = u.2 := fun u hu => by
    rw [BitVec.toNat_ofNat, Nat.mod_eq_of_lt (hfits u hu).base]
  apply (ascending_of_behind hwf haligned hbehind hchain).imp_of_mem
  intro u v hu hv huv
  apply Program.separate_of_le (hwf u hu) (hwf v hv)
  · rw [hval u hu]
    exact hfits u hu
  · rw [hval v hv]
    exact hfits v hv
  · rw [hval v hv]
    exact haligned v hv
  · rw [hval u hu, hval v hv]
    exact huv

theorem placements_separate (hfiles : Files sys file names) (hread : ∀ name ∈ names, (file name).Readable) {b : Nat}
    (hb : b % 4096 = 0) (hfits : Fits file (placements file b names))
    (hchain : names.IsChain fun n n' => (file n).Follows (file n')) :
    (placements file b names).Pairwise fun u v =>
      (file u.1).Separate (BitVec.ofNat 64 u.2) (file v.1) (BitVec.ofNat 64 v.2) := by
  refine separate_of_behind (fun u hu => hfiles.well_formed _ (placements_name u hu)) (placements_aligned hb)
    (fun u hu => (hfits u hu).1) placements_behind ?_
  rw [← @placements_fst file names b, List.isChain_map] at hchain
  refine hchain.imp_of_mem_imp fun u v hu _ hfollows => ?_
  exact (Program.surelyFollows_iff (by rw [least_end_eq (hread _ (placements_name u hu))])).mpr hfollows

section LinkMap

variable {v : LinkMap} {m m' : Memory 64} {exe : CString} {rest : List CString} {heap : Heap} {ret : Option Nat}

end LinkMap

/-- A file with these program headers and nothing else. -/
def of_phdrs (phdrs : List Phdr) (count : phdrs.length = (Ehdr.decode (image phdrs [])).e_phnum.toNat) : Program where
  elf := Ehdr.decode (image phdrs [])
  phdrs := phdrs
  content := image phdrs []
  count := count

/-- One PT_LOAD segment, of which the file has 64 bytes. -/
def segment (p_vaddr p_memsz : BitVec 64) : List Phdr :=
  [⟨PT_LOAD, 7, 0, p_vaddr, 64, p_memsz⟩, ⟨PT_NULL, 0, 0, p_vaddr + 64, 0, 0⟩]

def small_exe : Program := of_phdrs (segment 0x400000 0x3000) (by decide +kernel)

def lib : Program := of_phdrs (segment 0 64) (by decide +kernel)

def exe_and_lib (exe : Program) (name : CString) : Program := if name = .lit "/a" then exe else lib

def exe_and_lib_sys (exe : Program) : System := System.of_files [(.lit "/a", exe.content), (.lit "/l", lib.content)]

/-- What a run of `build_link_map` on the two objects leaves, without the memory. -/
def exe_and_lib_map (exe : Program) : Outcome (Option Nat × Heap) := do
  let (ret, heap, _) ← build_link_map (exe_and_lib_sys exe) [⟨0, .lit "", none, none, none⟩] (fun _ => none)
    [.lit "/a", .lit "ld.so", .lit "/l"] 0x7f0000000000 0 0
  return (ret, heap)

def exe_and_lib_heap : Heap :=
  [⟨0, .lit "/a", none, some 1, none⟩, ⟨0x7f0000000000, .lit "ld.so", none, some 2, some 0⟩,
    ⟨0x403000, .lit "/l", none, none, some 1⟩]

theorem exe_and_lib_files : Files (exe_and_lib_sys small_exe) (exe_and_lib small_exe) [.lit "/a", .lit "/l"] := by
  constructor
  · intro name hname
    obtain rfl | rfl := List.mem_pair.mp hname <;>
      exact ⟨by decide +kernel, by decide +kernel, by decide +kernel⟩
  · intro name hname
    obtain rfl | rfl := List.mem_pair.mp hname <;> exact ⟨by decide +kernel, by decide +kernel⟩

end loader

end ldso
