import LdSo.Lib.Orbit
import LdSo.SymbolResolution.Absent
import Mathlib.Order.Interval.Finset.Nat

open cmodel

namespace ldso.symbol_resolution

open elf elf_manipulation string

/-- The indices whose entries the loop of `hash_lookup` looks at, in order. -/
def hash_visits (m : Memory 64) (symtab : List Sym) (strtab : Option (List Byte)) (rela_name : CString)
    (chain : elf_addr) (size : Nat) : Nat → BitVec 32 → List Nat
  | fuel, i =>
    if i = 0 ∨ size ≤ i.toNat then []
    else
      match fuel with
      | 0 => []
      | fuel + 1 =>
        i.toNat ::
          match symtab[i.toNat]?.map fun s => strcmp rela_name.bytes (str_at strtab s.st_name) with
          | some (.ok order) =>
            if order = 0 then []
            else
              match m.loadWord 32 (chain + 4#64 * i.setWidth 64) with
              | .ok i => hash_visits m symtab strtab rela_name chain size fuel i
              | _ => []
          | _ => []

/-- They are as many as the loop takes steps: it does not end before, and then it
has its result. -/
theorem hash_scan_eq_visits (m : Memory 64) (symtab : List Sym) (strtab : Option (List Byte)) (rela_name : CString)
    (l_addr chain : elf_addr) (size fuel : Nat) (i : BitVec 32) :
    hash_scan m symtab strtab rela_name l_addr chain size fuel i =
        hash_scan m symtab strtab rela_name l_addr chain size
          (hash_visits m symtab strtab rela_name chain size fuel i).length i ∧
      ∀ n < (hash_visits m symtab strtab rela_name chain size fuel i).length,
        hash_scan m symtab strtab rela_name l_addr chain size n i = .diverge := by
  induction fuel generalizing i with
  | zero =>
    have hvisits : hash_visits m symtab strtab rela_name chain size 0 i = [] := by
      rw [hash_visits]
      split <;> rfl
    simp [hvisits]
  | succ fuel ih =>
    by_cases hstop : i = 0 ∨ size ≤ i.toNat
    · have hvisits : hash_visits m symtab strtab rela_name chain size (fuel + 1) i = [] := by
        rw [hash_visits, if_pos hstop]
      have hscan : ∀ n, hash_scan m symtab strtab rela_name l_addr chain size n i = .ok 0 := by
        intro n
        cases n <;> rw [hash_scan, if_pos hstop]
      simp [hvisits, hscan]
    · have hzero : hash_scan m symtab strtab rela_name l_addr chain size 0 i = .diverge := by
        rw [hash_scan, if_neg hstop]
      have hscan : ∀ n, hash_scan m symtab strtab rela_name l_addr chain size (n + 1) i = (do
          let s ← Outcome.ofOption symtab[i.toNat]?
          let order ← strcmp rela_name.bytes (str_at strtab s.st_name)
          if order = 0 then .ok (s.st_value + l_addr)
          else do
            let i ← m.loadWord 32 (chain + 4#64 * i.setWidth 64)
            hash_scan m symtab strtab rela_name l_addr chain size n i) := by
        intro n
        rw [hash_scan, if_neg hstop]
      rw [hash_visits, if_neg hstop]
      -- the loop ends in this step, or goes on to the next index
      cases hs : symtab[i.toNat]? with
      | none => simp [hscan, hzero, hs]
      | some s =>
        cases horder : strcmp rela_name.bytes (str_at strtab s.st_name) with
        | ok order =>
          by_cases hfound : order = 0
          · simp [hscan, hzero, hs, horder, hfound]
          · cases hload : m.loadWord 32 (chain + 4#64 * i.setWidth 64) with
            | ok i' =>
              obtain ⟨hsame, hbefore⟩ := ih i'
              simp only [hscan, hs, horder, hfound, hload, Outcome.ofOption_some, Outcome.ok_bind, Option.map_some,
                if_false, List.length_cons]
              refine ⟨hsame, fun n hn => ?_⟩
              cases n with
              | zero => exact hzero
              | succ n =>
                simp only [hscan, hs, horder, hfound, hload, Outcome.ofOption_some, Outcome.ok_bind, if_false]
                exact hbefore n (by omega)
            | exit code => simp [hscan, hzero, hs, horder, hfound, hload]
            | fault => simp [hscan, hzero, hs, horder, hfound, hload]
            | diverge => simp [hscan, hzero, hs, horder, hfound, hload]
        | exit code => simp [hscan, hzero, hs, horder]
        | fault => simp [hscan, hzero, hs, horder]
        | diverge => simp [hscan, hzero, hs, horder]

section Links

variable (m : Memory 64) (hashtab : elf_addr) (nbuckets : BitVec 32) (name : CString)

def chain_words : elf_addr := hashtab + 8#64 + 4#64 * nbuckets.setWidth 64

/-- The word that `k` links lead to from the bucket the loader selects, whatever
the words are; undefined where one cannot be read. -/
def hash_link : Nat → Outcome (BitVec 32)
  | 0 => m.loadWord 32 (hashtab + 8#64 + 4#64 * BitVec.ofNat 64 (elf_bucket nbuckets.toNat name))
  | k + 1 => do
    let i ← hash_link k
    m.loadWord 32 (chain_words hashtab nbuckets + 4#64 * i.setWidth 64)

/-- Every bucket and, for every symbol, its chain word can be read. -/
def TableReadable (size : Nat) : Prop :=
  (∀ b < nbuckets.toNat, ∃ w, m.loadWord 32 (hashtab + 8#64 + 4#64 * BitVec.ofNat 64 b) = .ok w) ∧
    ∀ i : BitVec 32, i.toNat < size → ∃ w, m.loadWord 32 (chain_words hashtab nbuckets + 4#64 * i.setWidth 64) = .ok w

/-- Some number of links lead to the end of a chain, out of the symbol table, to
an entry of the name, or to a word that cannot be read. -/
def ChainEnds (o : ObjectFile) : Prop :=
  ∃ k, ∀ i, hash_link m hashtab nbuckets name k = .ok i →
    i = 0 ∨ o.symbols.length ≤ i.toNat ∨ ∃ s, o.symbols[i.toNat]? = some s ∧ s.name = name

end Links

variable {sys : System} {m : Memory 64} {next : LinkMap} {o : ObjectFile} {addr hashtab : elf_addr}
  {nbuckets : BitVec 32} {name : CString}

/-- The loop goes on from this index: it is that of an entry of another name. -/
def Live (o : ObjectFile) (name : CString) (i : BitVec 32) : Prop :=
  i ≠ 0 ∧ ∃ s, o.symbols[i.toNat]? = some s ∧ s.name ≠ name

theorem not_live_iff {i : BitVec 32} :
    ¬ Live o name i ↔ i = 0 ∨ o.symbols.length ≤ i.toNat ∨ ∃ s, o.symbols[i.toNat]? = some s ∧ s.name = name := by
  unfold Live
  by_cases hzero : i = 0
  · simp [hzero]
  · cases hs : o.symbols[i.toNat]? with
    | none =>
      have hle := List.getElem?_eq_none_iff.mp hs
      simp [hle]
    | some s =>
      have hlt := (List.getElem?_eq_some_iff.mp hs).1
      have hne : i ≠ 0#32 := hzero
      simp [hne, Nat.not_le.mpr hlt]

/-- The links are followed the same way from the same index. -/
theorem hash_link_deterministic : Deterministic (hash_link m hashtab nbuckets name) := by
  intro a b hab
  simp only [hash_link, hab]

theorem chainEnds_iff :
    ChainEnds m hashtab nbuckets name o ↔ ¬ ∀ k, ∃ i, hash_link m hashtab nbuckets name k = .ok i ∧ Live o name i := by
  simp only [ChainEnds, not_forall, not_exists, not_and, not_live_iff]

section Scan

theorem hash_scan_of_live {i : BitVec 32} (h : Live o name i) (l_addr chain : elf_addr) (fuel : Nat) :
    hash_scan m (syms o.dynsym) (some o.dynstr) name l_addr chain o.symbols.length (fuel + 1) i =
      (m.loadWord 32 (chain + 4#64 * i.setWidth 64) >>=
        hash_scan m (syms o.dynsym) (some o.dynstr) name l_addr chain o.symbols.length fuel) := by
  obtain ⟨hne, s, hs, hname⟩ := h
  have hlt := (List.getElem?_eq_some_iff.mp hs).1
  obtain ⟨d, hd, hiff⟩ := ObjectFile.strcmp_symbol (List.mem_of_getElem? hs) name
  rw [hash_scan]
  rw [if_neg (by simp only [hne, false_or]; omega)]
  simp only [ObjectFile.syms_getElem?, hs, Option.map_some, Outcome.ofOption_some, Outcome.ok_bind, hd]
  exact if_neg fun hd => hname (hiff.mp hd).symm

/-- From any other index the loop returns. -/
theorem hash_scan_of_not_live {i : BitVec 32} (h : ¬ Live o name i) (l_addr chain : elf_addr) (fuel : Nat) :
    ∃ a, hash_scan m (syms o.dynsym) (some o.dynstr) name l_addr chain o.symbols.length (fuel + 1) i = .ok a := by
  rw [hash_scan]
  by_cases hstop : i = 0 ∨ o.symbols.length ≤ i.toNat
  · exact ⟨0, if_pos hstop⟩
  · obtain ⟨s, hs, hname⟩ := ((not_live_iff.mp h).resolve_left fun hi => hstop (Or.inl hi)).resolve_left
      fun hi => hstop (Or.inr hi)
    obtain ⟨d, hd, hiff⟩ := ObjectFile.strcmp_symbol (List.mem_of_getElem? hs) name
    rw [if_neg hstop]
    simp only [ObjectFile.syms_getElem?, hs, Option.map_some, Outcome.ofOption_some, Outcome.ok_bind, hd]
    exact ⟨_, if_pos (hiff.mpr hname.symm)⟩

/-- The loop never ends when every link leads on. -/
theorem hash_scan_of_all_live (l_addr : elf_addr)
    (hlive : ∀ k, ∃ i, hash_link m hashtab nbuckets name k = .ok i ∧ Live o name i) (fuel j : Nat) {i : BitVec 32}
    (hi : hash_link m hashtab nbuckets name j = .ok i) :
    hash_scan m (syms o.dynsym) (some o.dynstr) name l_addr (chain_words hashtab nbuckets) o.symbols.length fuel i =
      .diverge := by
  have hhere : Live o name i := by
    obtain ⟨i', hi', h⟩ := hlive j
    rw [hi] at hi'
    cases hi'
    exact h
  induction fuel generalizing j i with
  | zero =>
    obtain ⟨hne, s, hs, -⟩ := hhere
    have hlt := (List.getElem?_eq_some_iff.mp hs).1
    rw [hash_scan, if_neg (by simp only [hne, false_or]; omega)]
  | succ fuel ih =>
    obtain ⟨i', hi', hlive'⟩ := hlive (j + 1)
    rw [hash_scan_of_live hhere]
    have hload := hi'
    rw [hash_link, hi, Outcome.ok_bind] at hload
    rw [hload, Outcome.ok_bind]
    exact ih (j + 1) hi' hlive'

/-- As long as the loop runs, the links lead on. -/
theorem live_of_hash_scan_diverge (l_addr : elf_addr) (fuel j : Nat) {i : BitVec 32}
    (hi : hash_link m hashtab nbuckets name j = .ok i)
    (h : hash_scan m (syms o.dynsym) (some o.dynstr) name l_addr (chain_words hashtab nbuckets) o.symbols.length fuel i =
      .diverge) (k : Nat) (hk : k < fuel) :
    ∃ i, hash_link m hashtab nbuckets name (j + k) = .ok i ∧ Live o name i := by
  induction fuel generalizing j i k with
  | zero => omega
  | succ fuel ih =>
    have hlive : Live o name i := by
      by_contra hnot
      obtain ⟨a, ha⟩ := hash_scan_of_not_live (m := m) hnot l_addr (chain_words hashtab nbuckets) fuel
      rw [ha] at h
      cases h
    rw [hash_scan_of_live hlive] at h
    cases k with
    | zero => exact ⟨i, hi, hlive⟩
    | succ k =>
      have hnext : hash_link m hashtab nbuckets name (j + 1) =
          m.loadWord 32 (chain_words hashtab nbuckets + 4#64 * i.setWidth 64) := by
        rw [hash_link, hi, Outcome.ok_bind]
      obtain ⟨i', hload⟩ | hload :=
        Memory.loadWord_ok_or_fault 32 m (chain_words hashtab nbuckets + 4#64 * i.setWidth 64)
      · rw [hload, Outcome.ok_bind] at h
        rw [hload] at hnext
        have hrest := ih (j + 1) hnext h k (by omega)
        rwa [show j + 1 + k = j + (k + 1) by omega] at hrest
      · rw [hload] at h
        cases h

/-- In a table that can be read the loop returns or runs on. -/
theorem hash_scan_of_readable (hreadable : TableReadable m hashtab nbuckets o.symbols.length) (l_addr : elf_addr)
    (fuel : Nat) (i : BitVec 32) :
    (∃ a, hash_scan m (syms o.dynsym) (some o.dynstr) name l_addr (chain_words hashtab nbuckets) o.symbols.length fuel i =
      .ok a) ∨
    hash_scan m (syms o.dynsym) (some o.dynstr) name l_addr (chain_words hashtab nbuckets) o.symbols.length fuel i =
      .diverge := by
  induction fuel generalizing i with
  | zero =>
    rw [hash_scan]
    split
    · exact Or.inl ⟨0, rfl⟩
    · exact Or.inr rfl
  | succ fuel ih =>
    by_cases hlive : Live o name i
    · obtain ⟨s, hs, -⟩ := hlive.2
      obtain ⟨w, hw⟩ := hreadable.2 i (List.getElem?_eq_some_iff.mp hs).1
      rw [hash_scan_of_live hlive, hw, Outcome.ok_bind]
      exact ih w
    · exact Or.inl (hash_scan_of_not_live hlive _ _ _)

/-- Each visited index is reached over entries of other names. -/
theorem hash_visits_getElem? (fuel j : Nat) {i : BitVec 32} (hi : hash_link m hashtab nbuckets name j = .ok i)
    {k p : Nat}
    (hp : (hash_visits m (syms o.dynsym) (some o.dynstr) name (chain_words hashtab nbuckets) o.symbols.length fuel i)[k]? =
      some p) :
    (∃ i, hash_link m hashtab nbuckets name (j + k) = .ok i ∧ i.toNat = p ∧ p < o.symbols.length) ∧
    ∀ l < k, ∃ i, hash_link m hashtab nbuckets name (j + l) = .ok i ∧ Live o name i := by
  induction fuel generalizing j i k with
  | zero =>
    rw [hash_visits] at hp
    split at hp <;> cases hp
  | succ fuel ih =>
    rw [hash_visits] at hp
    split at hp
    · cases hp
    · next hstop =>
      obtain ⟨hne, hlt⟩ := not_or.mp hstop
      have hs := List.getElem?_eq_getElem (Nat.lt_of_not_le hlt)
      cases k with
      | zero =>
        cases hp
        exact ⟨⟨i, hi, rfl, Nat.lt_of_not_le hlt⟩, fun l hl => absurd hl (Nat.not_lt_zero l)⟩
      | succ k =>
        obtain ⟨d, hd, hiff⟩ := ObjectFile.strcmp_symbol (List.mem_of_getElem? hs) name
        rw [List.getElem?_cons_succ, ObjectFile.syms_getElem?, hs, Option.map_some, Option.map_some, hd] at hp
        simp only at hp
        split at hp
        · cases hp
        · next hname =>
          have hlive : Live o name i := ⟨hne, _, hs, fun h => hname (hiff.mpr h.symm)⟩
          have hnext : hash_link m hashtab nbuckets name (j + 1) =
              m.loadWord 32 (chain_words hashtab nbuckets + 4#64 * i.setWidth 64) := by
            rw [hash_link, hi, Outcome.ok_bind]
          obtain ⟨i', hload⟩ | hload :=
            Memory.loadWord_ok_or_fault 32 m (chain_words hashtab nbuckets + 4#64 * i.setWidth 64)
          · rw [hload] at hp hnext
            obtain ⟨hlast, hbefore⟩ := ih (j + 1) hnext hp
            rw [show j + 1 + k = j + (k + 1) by omega] at hlast
            refine ⟨hlast, ?_⟩
            intro l hl
            cases l with
            | zero => exact ⟨i, hi, hlive⟩
            | succ l =>
              rw [show j + (l + 1) = j + 1 + l by omega]
              exact hbefore l (by omega)
          · rw [hload] at hp
            cases hp

end Scan

/-- The indices that `hash_lookup` looks at. -/
def hash_lookup_visits (m : Memory 64) (o : ObjectFile) (hashtab : elf_addr) (nbuckets : BitVec 32) (name : CString) :
    List Nat :=
  match hash_link m hashtab nbuckets name 0 with
  | .ok i =>
    hash_visits m (syms o.dynsym) (some o.dynstr) name (chain_words hashtab nbuckets) o.symbols.length o.symbols.length i
  | _ => []

/-- A search that ends looks at no index twice. -/
theorem hash_lookup_visits_nodup (h : ChainEnds m hashtab nbuckets name o) :
    (hash_lookup_visits m o hashtab nbuckets name).Nodup := by
  unfold hash_lookup_visits
  cases hi : hash_link m hashtab nbuckets name 0 with
  | ok i =>
    rw [List.nodup_iff_getElem?_ne_getElem?]
    intro a b hab hb heq
    have hp := List.getElem?_eq_getElem hb
    obtain ⟨⟨ia, hia, htoa, -⟩, -⟩ := hash_visits_getElem? _ 0 hi (heq.trans hp)
    obtain ⟨⟨ib, hib, htob, -⟩, hbefore⟩ := hash_visits_getElem? _ 0 hi hp
    rw [Nat.zero_add] at hia hib
    have hrepeat : hash_link m hashtab nbuckets name a = hash_link m hashtab nbuckets name b := by
      rw [hia, hib, BitVec.eq_of_toNat_eq (htoa.trans htob.symm)]
    refine chainEnds_iff.mp h ?_
    refine hash_link_deterministic.forall_of_repeat (P := fun x => ∃ i, x = .ok i ∧ Live o name i) hab hrepeat ?_
    intro k hk
    simpa using hbefore k hk
  | exit code => exact List.nodup_nil
  | fault => exact List.nodup_nil
  | diverge => exact List.nodup_nil

theorem hash_lookup_visits_lt {p : Nat} (hp : p ∈ hash_lookup_visits m o hashtab nbuckets name) :
    p < o.symbols.length := by
  unfold hash_lookup_visits at hp
  split at hp
  · next i hi =>
    obtain ⟨k, hk⟩ := List.mem_iff_getElem?.mp hp
    obtain ⟨⟨-, -, -, hlt⟩, -⟩ := hash_visits_getElem? _ 0 hi hk
    exact hlt
  · cases hp

/-- The search of the table starts in the bucket of the loader's hash. -/
theorem hash_table_search_eq_scan (hcount : m.loadWord 32 hashtab = .ok nbuckets) (hpos : nbuckets ≠ 0)
    (l_addr : elf_addr) :
    hash_table_search m (syms o.dynsym) (some o.dynstr) name l_addr o.symbols.length hashtab =
      (hash_link m hashtab nbuckets name 0 >>=
        hash_scan m (syms o.dynsym) (some o.dynstr) name l_addr (chain_words hashtab nbuckets) o.symbols.length
          o.symbols.length) := by
  rw [hash_table_search, hcount, Outcome.ok_bind]
  exact if_neg hpos

/-- The fuel of the model is enough: the search goes on without end only when
the links themselves do. -/
theorem hash_table_search_diverge_iff (hcount : m.loadWord 32 hashtab = .ok nbuckets) (hpos : nbuckets ≠ 0)
    (l_addr : elf_addr) :
    hash_table_search m (syms o.dynsym) (some o.dynstr) name l_addr o.symbols.length hashtab = .diverge ↔
      ∀ k, ∃ i, hash_link m hashtab nbuckets name k = .ok i ∧ Live o name i := by
  rw [hash_table_search_eq_scan hcount hpos]
  constructor
  · intro h
    obtain ⟨i, hi⟩ | hi : (∃ i, hash_link m hashtab nbuckets name 0 = .ok i) ∨
        hash_link m hashtab nbuckets name 0 = .fault :=
      Memory.loadWord_ok_or_fault 32 m _
    · rw [hi, Outcome.ok_bind] at h
      have hsize : 0 < o.symbols.length := by
        by_contra hzero
        unfold hash_scan at h
        rw [if_pos (Or.inr (by omega))] at h
        cases h
      -- a live index is one of those from 1 to below the number of symbols
      let indices : Finset (Outcome (BitVec 32)) :=
        (Finset.Ico 1 o.symbols.length).image fun n => .ok (BitVec.ofNat 32 n)
      have hcard : indices.card < o.symbols.length := by
        apply Nat.lt_of_le_of_lt Finset.card_image_le
        rw [Nat.card_Ico]
        omega
      refine hash_link_deterministic.forall_of_card (P := fun x => ∃ i, x = .ok i ∧ Live o name i) indices ?_ ?_
      · rintro _ ⟨i, rfl, hne, s, hs, -⟩
        have hlt := (List.getElem?_eq_some_iff.mp hs).1
        have hzero : i.toNat ≠ 0 := fun h => hne (BitVec.eq_of_toNat_eq h)
        refine Finset.mem_image.mpr ⟨i.toNat, Finset.mem_Ico.mpr ⟨by omega, hlt⟩, ?_⟩
        rw [BitVec.ofNat_toNat, BitVec.setWidth_eq]
      · intro k hk
        have hlive := live_of_hash_scan_diverge l_addr _ 0 hi h k (by omega)
        rwa [Nat.zero_add] at hlive
    · rw [hi] at h
      cases h
  · intro hlive
    obtain ⟨i, hi, -⟩ := hlive 0
    rw [hi, Outcome.ok_bind]
    exact hash_scan_of_all_live l_addr hlive _ 0 hi

/-- For any words whatever in a table with a bucket, the search ends exactly when
some number of links from the bucket leads out of the chain or to an entry of the
name. It then looks at no index twice and at none beyond the symbol table, and it
returns if the table can be read. -/
theorem hash_lookup_terminates_iff (ho : o.OnDisk sys next.l_name)
    (hdyn : find_dyn DT_HASH (dyns o.dynamic) = .ok addr)
    (hne : addr + next.l_addr ≠ 0) (hcount : m.loadWord 32 (addr + next.l_addr) = .ok nbuckets) (hpos : nbuckets ≠ 0)
    (name : CString) :
    (hash_lookup sys m next name ≠ .diverge ∧
      (TableReadable m (addr + next.l_addr) nbuckets o.symbols.length → ∃ a, hash_lookup sys m next name = .ok a) ∧
      (hash_lookup_visits m o (addr + next.l_addr) nbuckets name).Nodup ∧
      ∀ i ∈ hash_lookup_visits m o (addr + next.l_addr) nbuckets name, i < o.symbols.length) ↔
    ChainEnds m (addr + next.l_addr) nbuckets name o := by
  have hdiverge := @hash_table_search_diverge_iff m o _ nbuckets name hcount hpos next.l_addr
  rw [hash_lookup_eq_search ho hdyn hne, ne_eq, hdiverge, ← chainEnds_iff]
  constructor
  · exact fun h => h.1
  · intro hends
    refine ⟨hends, ?_, hash_lookup_visits_nodup hends, fun i => hash_lookup_visits_lt⟩
    intro hreadable
    have hrun := chainEnds_iff.mp hends
    rw [← hdiverge, hash_table_search_eq_scan hcount hpos] at hrun
    rw [hash_table_search_eq_scan hcount hpos]
    obtain ⟨i, hi⟩ := hreadable.1 (elf_bucket nbuckets.toNat name)
      (Nat.mod_lt _ (Nat.pos_of_ne_zero fun h => hpos (BitVec.eq_of_toNat_eq h)))
    have hfirst : hash_link m (addr + next.l_addr) nbuckets name 0 = .ok i := hi
    rw [hfirst, Outcome.ok_bind] at hrun ⊢
    exact (hash_scan_of_readable hreadable next.l_addr _ i).resolve_right hrun

/-- A page at 0x1000 with these words at 0x1300, where the object has its table. -/
def hash_words (words : List (BitVec 32)) : Memory 64 :=
  (Memory.mmap (fun _ => none) ⟨0x1000, 0x1000⟩ ⟨true, false, true⟩).put 0x1300 (encodeArray 4 words)

/-- One bucket, whose chain is the entry of `f` alone: another name is not found,
and the search is over after that entry. -/
theorem hash_lookup_ends :
    hash_lookup sysv_only_sys (hash_words [1, 2, 1, 0, 0]) ⟨0x1000, .lit "a.so", none, none, none⟩ (.lit "g") ≠ .diverge ∧
    (hash_lookup_visits (hash_words [1, 2, 1, 0, 0]) sysv_only 0x1300 1 (.lit "g")).Nodup := by
  have hends : ChainEnds (hash_words [1, 2, 1, 0, 0]) 0x1300 1 (.lit "g") sysv_only := by
    refine ⟨1, ?_⟩
    intro i hi
    have hlink : hash_link (hash_words [1, 2, 1, 0, 0]) 0x1300 1 (.lit "g") 1 = .ok 0 := by decide +kernel
    rw [hlink] at hi
    cases hi
    exact Or.inl rfl
  have h := (@hash_lookup_terminates_iff sysv_only_sys (hash_words [1, 2, 1, 0, 0])
    ⟨0x1000, .lit "a.so", none, none, none⟩ sysv_only 0x300 1 sysv_only_on_disk (by decide +kernel) (by decide)
    (by decide +kernel) (by decide) (.lit "g")).mpr hends
  exact ⟨h.1, h.2.2.1⟩

/-- With the entry as its own successor the search for another name does not end. -/
theorem hash_lookup_cycles :
    sysv_only.OnDisk sysv_only_sys (.lit "a.so") ∧
    (hash_words [1, 2, 1, 0, 1]).loadWord 32 0x1300 = .ok 1#32 ∧
    TableReadable (hash_words [1, 2, 1, 0, 1]) 0x1300 1 sysv_only.symbols.length ∧
    hash_lookup sysv_only_sys (hash_words [1, 2, 1, 0, 1]) ⟨0x1000, .lit "a.so", none, none, none⟩ (.lit "g") = .diverge := by
  refine ⟨sysv_only_on_disk, by decide +kernel, ⟨?_, ?_⟩, by decide +kernel⟩
  · intro b hb
    obtain rfl : b = 0 := Nat.lt_one_iff.mp hb
    exact ⟨1, by decide +kernel⟩
  · intro i hi
    have htwo : i.toNat < 2 := hi
    obtain hzero | hone : i.toNat = 0 ∨ i.toNat = 1 := by omega
    · rw [show i = 0 from BitVec.eq_of_toNat_eq hzero]
      exact ⟨0, by decide +kernel⟩
    · rw [show i = 1 from BitVec.eq_of_toNat_eq hone]
      exact ⟨1, by decide +kernel⟩

end ldso.symbol_resolution
