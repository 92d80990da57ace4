import LdSo.Loader.Contents
import LdSo.Main.Relocated
import LdSo.Relocations.Writes

open cmodel

namespace ldso

open elf elf_manipulation display_auxv dependency loader relocations

section Loop

variable {sys : System} {heap : Heap} {map : Option Nat} {lazy : Bool} {m m' : Memory 64} {x : elf_addr}

/-- The pass over `.rela.plt`, from one memory to another. -/
inductive PltPass (sys : System) (heap : Heap) (next : Nat) (node : LinkMap) (map : Option Nat) (elf : Ehdr)
    (m : Memory 64) : Bool → Memory 64 → Prop where
  | none {mode : Bool} : PltPass sys heap next node map elf m mode m
  | lazy {buf nb_rela m'} (hbuf : get_section sys elf node.l_name (.lit ".rela.plt") = .ok (some buf))
      (hpass : relocation_lazy sys heap m next (relas buf) nb_rela = .ok m') :
      PltPass sys heap next node map elf m true m'
  | now {buf nb_rela m'} (hbuf : get_section sys elf node.l_name (.lit ".rela.plt") = .ok (some buf))
      (hpass : relocation_lookup sys heap m (relas buf) nb_rela node map = .ok m') :
      PltPass sys heap next node map elf m false m'

theorem PltPass.same {next : Nat} {node : LinkMap} {elf : Ehdr} (hnode : heap[next]? = some node)
    (hehdr : get_elf_ehdr sys node.l_name = .ok elf)
    (hx : ∀ w, Target sys node lazy w → ¬ (Memory.wordRegion 64 w).Contains x)
    (h : PltPass sys heap next node map elf m lazy m') : m' x = m x := by
  cases h with
  | none => rfl
  | now hbuf hpass => exact relocation_lookup_same (fun r hr => hx _ (.plt hehdr hbuf hr)) hpass
  | lazy hbuf hpass =>
    refine relocation_lazy_same hnode hehdr (fun r hr => hx _ (.plt hehdr hbuf hr)) ?_ hpass
    intro got hgot w hw
    obtain ⟨strtab, front, shdr, back, hheaders, hstrtab, hfirst, hshdr, rfl⟩ := get_got_plt_first hgot
    exact hx w (.got_plt rfl hehdr hbuf hheaders hstrtab hfirst hshdr hw)

end Loop

end ldso
