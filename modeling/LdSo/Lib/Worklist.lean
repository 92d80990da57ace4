import Mathlib.Data.Finset.Card
import Mathlib.Data.List.Basic
import Mathlib.Data.Set.Card
import Mathlib.Order.Lattice.Nat

namespace cmodel

variable {α : Type}

/-- The table with an element behind it, unless the element is there. -/
def addNew [DecidableEq α] (table : List α) (c : α) : List α := if c ∈ table then table else table ++ [c]

/-- Scan a table that grows while it is scanned: every element from index `i` on
has its children added. The fuel bounds the number of elements. -/
def scan [DecidableEq α] (children : α → List α) : Nat → Nat → List α → Option (List α)
  | fuel, i, table =>
    match table[i]? with
    | none => some table
    | some u =>
      match fuel with
      | 0 => none
      | fuel + 1 => scan children fuel (i + 1) ((children u).foldl addNew table)

/-- A walk of `k` steps from a seed to `v`. -/
inductive Walk (children : α → List α) (seeds : List α) : Nat → α → Prop where
  | seed {v} (hv : v ∈ seeds) : Walk children seeds 0 v
  | step {k u v} (hu : Walk children seeds k u) (hv : v ∈ children u) : Walk children seeds (k + 1) v

/-- The length of a shortest walk to `v`. -/
noncomputable def dist (children : α → List α) (seeds : List α) (v : α) : Nat := sInf {k | Walk children seeds k v}

/-- `D` holds what is reached from the seeds, in breadth-first order. -/
structure BreadthFirst (children : α → List α) (seeds D : List α) : Prop where
  nodup : D.Nodup
  fresh : ∀ d ∈ D, d ∉ seeds
  parent : ∀ pre d post, D = pre ++ d :: post → ∃ u ∈ seeds ++ pre, d ∈ children u
  reached : ∀ v ∈ seeds ++ D, ∃ k, Walk children seeds k v
  closed : ∀ u ∈ seeds ++ D, ∀ c ∈ children u, c ∈ seeds ++ D
  order : D.Pairwise fun a b => dist children seeds a ≤ dist children seeds b

section Dist

variable {children : α → List α} {seeds : List α} {k : Nat} {u v : α}

theorem Walk.dist_le (h : Walk children seeds k v) : dist children seeds v ≤ k := Nat.sInf_le h

theorem Walk.shortest (h : Walk children seeds k v) : Walk children seeds (dist children seeds v) v :=
  Nat.sInf_mem (s := {k | Walk children seeds k v}) ⟨k, h⟩

/-- A walk stays in every set that has the seeds and all children. -/
theorem Walk.mem {objects : Finset α} (hseeds : ∀ v ∈ seeds, v ∈ objects)
    (hclosed : ∀ u ∈ objects, ∀ c ∈ children u, c ∈ objects) (h : Walk children seeds k v) : v ∈ objects := by
  induction h with
  | seed hv => exact hseeds _ hv
  | step _ hv ih => exact hclosed _ ih _ hv

end Dist

section BreadthFirst

variable {children : α → List α} {seeds D : List α} {v : α}

/-- The table behind the seeds lists exactly what is reached and is no seed. -/
theorem BreadthFirst.mem_iff (h : BreadthFirst children seeds D) :
    v ∈ D ↔ v ∉ seeds ∧ ∃ k, Walk children seeds k v := by
  constructor
  · intro hv
    exact ⟨h.fresh v hv, h.reached v (List.mem_append_right _ hv)⟩
  · rintro ⟨hfresh, k, hwalk⟩
    have hmem : v ∈ seeds ++ D := by
      clear hfresh
      induction hwalk with
      | seed hv => exact List.mem_append_left _ hv
      | step _ hv ih => exact h.closed _ ih _ hv
    obtain hmem | hmem := List.mem_append.mp hmem
    · exact absurd hmem hfresh
    · exact hmem

/-- How many objects are reached and are no seeds. -/
noncomputable def reachedCount (children : α → List α) (seeds : List α) : Nat :=
  {v | v ∉ seeds ∧ ∃ k, Walk children seeds k v}.ncard

theorem BreadthFirst.length_eq [DecidableEq α] (h : BreadthFirst children seeds D) :
    D.length = reachedCount children seeds := by
  have hset : {v | v ∉ seeds ∧ ∃ k, Walk children seeds k v} = D.toFinset := by
    ext v
    simp [h.mem_iff]
  rw [reachedCount, hset, Set.ncard_coe_finset, List.toFinset_card_of_nodup h.nodup]

theorem reachedCount_le {objects : Finset α} (hseeds : ∀ v ∈ seeds, v ∈ objects)
    (hclosed : ∀ u ∈ objects, ∀ c ∈ children u, c ∈ objects) : reachedCount children seeds ≤ objects.card := by
  rw [reachedCount, ← Set.ncard_coe_finset]
  apply Set.ncard_le_ncard _ objects.finite_toSet
  rintro v ⟨-, k, hwalk⟩
  exact hwalk.mem hseeds hclosed

end BreadthFirst

section AddNew

variable [DecidableEq α] {table cs : List α} {c v : α}

theorem mem_addNew : v ∈ addNew table c ↔ v ∈ table ∨ v = c := by
  unfold addNew
  split
  · next h =>
    constructor
    · exact Or.inl
    · rintro (h' | rfl)
      · exact h'
      · exact h
  · simp

theorem mem_foldl_addNew : v ∈ cs.foldl addNew table ↔ v ∈ table ∨ v ∈ cs := by
  induction cs generalizing table with
  | nil => simp
  | cons c cs ih => rw [List.foldl_cons, ih, mem_addNew, List.mem_cons, or_assoc]

theorem addNew_getElem? {i : Nat} (h : table[i]? = some v) : (addNew table c)[i]? = some v := by
  unfold addNew
  split
  · exact h
  · rw [List.getElem?_append_left (List.getElem?_eq_some_iff.mp h).1, h]

theorem foldl_addNew_getElem? {i : Nat} (h : table[i]? = some v) : (cs.foldl addNew table)[i]? = some v := by
  induction cs generalizing table with
  | nil => exact h
  | cons c cs ih => exact ih (addNew_getElem? h)

/-- Nothing is added to a table that has all of them. -/
theorem foldl_addNew_eq_self (h : ∀ c ∈ cs, c ∈ table) : cs.foldl addNew table = table := by
  induction cs with
  | nil => rfl
  | cons c cs ih =>
    rw [List.foldl_cons, addNew, if_pos (h c (by simp)), ih fun d hd => h d (by simp [hd])]

end AddNew

/-- What the scan keeps when it is at index `i`. -/
structure ScanInv (children : α → List α) (seeds : List α) (i : Nat) (table : List α) : Prop where
  split : ∃ D, table = seeds ++ D ∧ D.Nodup ∧ ∀ d ∈ D, d ∉ seeds
  parent : ∀ (k : Nat) d, table[k]? = some d → seeds.length ≤ k →
    ∃ j u, j < k ∧ table[j]? = some u ∧ d ∈ children u
  reached : ∀ v ∈ table, ∃ k, Walk children seeds k v
  sorted : table.Pairwise fun a b => dist children seeds a ≤ dist children seeds b
  near : ∀ u, table[i]? = some u → ∀ v ∈ table, dist children seeds v ≤ dist children seeds u + 1
  closed : ∀ j < i, ∀ u, table[j]? = some u → ∀ c ∈ children u, c ∈ table

namespace ScanInv

variable {children : α → List α} {seeds table : List α} {i : Nat} {u : α}

theorem seeds_subset (h : ScanInv children seeds i table) {v : α} (hv : v ∈ seeds) : v ∈ table := by
  obtain ⟨D, rfl, -⟩ := h.split
  exact List.mem_append_left D hv

theorem init (children : α → List α) (seeds : List α) : ScanInv children seeds 0 seeds := by
  have hzero : ∀ v ∈ seeds, dist children seeds v = 0 := fun v hv => Nat.le_zero.mp (Walk.seed hv).dist_le
  refine ⟨⟨[], by simp⟩, ?_, fun v hv => ⟨0, .seed hv⟩, ?_, ?_, by simp⟩
  · intro k d hd hk
    have hlt := (List.getElem?_eq_some_iff.mp hd).1
    omega
  · exact List.pairwise_iff_forall_sublist.mpr fun {a b} hab => by
      rw [hzero a (hab.subset (by simp)), hzero b (hab.subset (by simp))]
  · intro u _ v hv
    rw [hzero v hv]
    exact Nat.zero_le _

/-- Elements of the table that are nearer than the one at `i` were scanned. -/
theorem lt_of_dist_lt (h : ScanInv children seeds i table) (hu : table[i]? = some u) {j : Nat} {w : α}
    (hw : table[j]? = some w) (hlt : dist children seeds w < dist children seeds u) : j < i := by
  by_contra hge
  obtain ⟨hi, rfl⟩ := List.getElem?_eq_some_iff.mp hu
  obtain ⟨hj, rfl⟩ := List.getElem?_eq_some_iff.mp hw
  obtain heq | hgt := Nat.eq_or_lt_of_not_lt hge
  · subst heq
    omega
  · have hle := List.pairwise_iff_getElem.mp h.sorted i j hi hj hgt
    omega

/-- Whatever can be reached in fewer steps than the element at `i` is in the table. -/
theorem mem_of_dist_lt (h : ScanInv children seeds i table) (hu : table[i]? = some u) {k : Nat} {w : α}
    (hwalk : Walk children seeds k w) (hlt : dist children seeds w < dist children seeds u) : w ∈ table := by
  induction hd : dist children seeds w using Nat.strong_induction_on generalizing k w with
  | h n ih =>
    have hshort := hwalk.shortest
    rw [hd] at hshort
    cases hshort with
    | seed hw => exact h.seeds_subset hw
    | @step n v _ hv hw =>
      -- the element before `w` is nearer still, so it was scanned
      have hle := hv.dist_le
      have hmem := ih _ (by omega) hv (by omega) rfl
      obtain ⟨j, hj⟩ := List.mem_iff_getElem?.mp hmem
      exact h.closed j (h.lt_of_dist_lt hu hj (by omega)) v hj w hw

/-- A child that is new is one step further away than its parent. -/
theorem dist_new (h : ScanInv children seeds i table) (hu : table[i]? = some u) {c : α} (hc : c ∈ children u)
    (hnew : c ∉ table) : dist children seeds c = dist children seeds u + 1 := by
  obtain ⟨k, hwalk⟩ := h.reached u (List.mem_of_getElem? hu)
  have hle := (Walk.step hwalk.shortest hc).dist_le
  by_contra hne
  have hlt : dist children seeds c < dist children seeds u + 1 := by omega
  have hshort := (Walk.step hwalk hc).shortest
  generalize hd : dist children seeds c = n at hshort
  cases hshort with
  | seed hseed => exact hnew (h.seeds_subset hseed)
  | @step n w _ hw hcw =>
    have hle := hw.dist_le
    have hwlt : dist children seeds w < dist children seeds u := by omega
    obtain ⟨j, hj⟩ := List.mem_iff_getElem?.mp (h.mem_of_dist_lt hu hw hwlt)
    exact hnew (h.closed j (h.lt_of_dist_lt hu hj hwlt) w hj c hcw)

/-- At the end of the table the scan has found everything. -/
theorem done (h : ScanInv children seeds i table) (hend : table[i]? = none) :
    ∃ D, table = seeds ++ D ∧ BreadthFirst children seeds D := by
  obtain ⟨D, rfl, hnodup, hfresh⟩ := h.split
  have hlen : (seeds ++ D).length ≤ i := List.getElem?_eq_none_iff.mp hend
  refine ⟨D, rfl, hnodup, hfresh, ?_, h.reached, ?_, (List.pairwise_append.mp h.sorted).2.1⟩
  · rintro pre d post rfl
    obtain ⟨j, u, hj, hu, hmem⟩ := h.parent (seeds ++ pre).length d (by simp) (by simp)
    refine ⟨u, ?_, hmem⟩
    rw [← List.append_assoc, List.getElem?_append_left hj] at hu
    exact List.mem_of_getElem? hu
  · intro u hu c hc
    obtain ⟨j, hj⟩ := List.mem_iff_getElem?.mp hu
    have hlt := (List.getElem?_eq_some_iff.mp hj).1
    exact h.closed j (by omega) u hj c hc

/-- The table cannot outgrow the seeds and a finite set around them. -/
theorem length_le (h : ScanInv children seeds i table) {objects : Finset α} (hseeds : ∀ v ∈ seeds, v ∈ objects)
    (hclosed : ∀ u ∈ objects, ∀ c ∈ children u, c ∈ objects) : table.length ≤ seeds.length + objects.card := by
  classical
  obtain ⟨D, rfl, hnodup, -⟩ := h.split
  have hsub : D.toFinset ⊆ objects := by
    intro d hd
    obtain ⟨k, hwalk⟩ := h.reached d (List.mem_append_right seeds (List.mem_toFinset.mp hd))
    exact hwalk.mem hseeds hclosed
  have hcard := Finset.card_le_card hsub
  rw [List.toFinset_card_of_nodup hnodup] at hcard
  rw [List.length_append]
  omega

variable [DecidableEq α]

/-- Adding one child of the element at `i` keeps the invariant. -/
theorem add (h : ScanInv children seeds i table) (hu : table[i]? = some u) {c : α} (hc : c ∈ children u) :
    ScanInv children seeds i (addNew table c) := by
  unfold addNew
  split
  · exact h
  · next hnew =>
    have hdist := h.dist_new hu hc hnew
    obtain ⟨k, hwalk⟩ := h.reached u (List.mem_of_getElem? hu)
    have hi := (List.getElem?_eq_some_iff.mp hu).1
    have hold : ∀ {j : Nat} {v : α}, table[j]? = some v → (table ++ [c])[j]? = some v := fun hj => by
      rw [List.getElem?_append_left (List.getElem?_eq_some_iff.mp hj).1, hj]
    constructor
    case split =>
      obtain ⟨D, rfl, hnodup, hfresh⟩ := h.split
      refine ⟨D ++ [c], by simp, ?_, ?_⟩
      · refine List.nodup_append.mpr ⟨hnodup, List.nodup_singleton c, ?_⟩
        rintro a ha b hb rfl
        rw [List.mem_singleton] at hb
        subst hb
        exact hnew (List.mem_append_right seeds ha)
      · intro d hd
        obtain hd | hd := List.mem_append.mp hd
        · exact hfresh d hd
        · rw [List.mem_singleton] at hd
          subst hd
          exact fun hseed => hnew (List.mem_append_left D hseed)
    case parent =>
      intro k d hd hk
      obtain hlt | hge := Nat.lt_or_ge k table.length
      · rw [List.getElem?_append_left hlt] at hd
        obtain ⟨j, v, hj, hv, hmem⟩ := h.parent k d hd hk
        exact ⟨j, v, hj, hold hv, hmem⟩
      · rw [List.getElem?_append_right hge] at hd
        have hdc : c = d := by
          have hmem := List.mem_of_getElem? hd
          exact (List.mem_singleton.mp hmem).symm
        subst hdc
        exact ⟨i, u, by omega, hold hu, hc⟩
    case reached =>
      intro v hv
      obtain hv | hv := List.mem_append.mp hv
      · exact h.reached v hv
      · rw [List.mem_singleton] at hv
        subst hv
        exact ⟨k + 1, .step hwalk hc⟩
    case sorted =>
      refine List.pairwise_append.mpr ⟨h.sorted, List.pairwise_singleton _ _, ?_⟩
      intro v hv d hd
      rw [List.mem_singleton] at hd
      subst hd
      rw [hdist]
      exact h.near u hu v hv
    case near =>
      intro w hw v hv
      rw [hold hu, Option.some.injEq] at hw
      subst hw
      obtain hv | hv := List.mem_append.mp hv
      · exact h.near _ hu v hv
      · rw [List.mem_singleton] at hv
        subst hv
        exact hdist.le
    case closed =>
      intro j hj v hv d hd
      rw [List.getElem?_append_left (by omega)] at hv
      exact List.mem_append_left _ (h.closed j hj v hv d hd)

theorem add_all (h : ScanInv children seeds i table) (hu : table[i]? = some u) {cs : List α}
    (hcs : ∀ c ∈ cs, c ∈ children u) : ScanInv children seeds i (cs.foldl addNew table) := by
  induction cs generalizing table with
  | nil => exact h
  | cons c cs ih => exact ih (h.add hu (hcs c (by simp))) (addNew_getElem? hu) fun d hd => hcs d (by simp [hd])

/-- Once the element at `i` is scanned, the scan is at `i + 1`. -/
theorem step (h : ScanInv children seeds i table) (hu : table[i]? = some u) :
    ScanInv children seeds (i + 1) ((children u).foldl addNew table) := by
  have hall := h.add_all hu fun c hc => hc
  have hget : ((children u).foldl addNew table)[i]? = some u := foldl_addNew_getElem? hu
  refine { hall with near := ?_, closed := ?_ }
  · intro w hw v hv
    have hsorted : dist children seeds u ≤ dist children seeds w := by
      obtain ⟨hi, hiu⟩ := List.getElem?_eq_some_iff.mp hget
      obtain ⟨hi', hiw⟩ := List.getElem?_eq_some_iff.mp hw
      have hle := List.pairwise_iff_getElem.mp hall.sorted i (i + 1) hi hi' (by omega)
      rwa [hiu, hiw] at hle
    have hnear := hall.near u hget v hv
    omega
  · intro j hj v hv c hc
    obtain hlt | rfl := Nat.lt_or_eq_of_le (Nat.lt_succ_iff.mp hj)
    · exact hall.closed j hlt v hv c hc
    · rw [hget, Option.some.injEq] at hv
      subst hv
      exact mem_foldl_addNew.mpr (Or.inr hc)

end ScanInv

section Scan

variable [DecidableEq α] {children : α → List α} {seeds : List α}

theorem scan_of_inv {objects : Finset α} (hseeds : ∀ v ∈ seeds, v ∈ objects)
    (hclosed : ∀ u ∈ objects, ∀ c ∈ children u, c ∈ objects) {fuel i : Nat} {table : List α}
    (h : ScanInv children seeds i table) (hfuel : seeds.length + objects.card ≤ i + fuel) :
    ∃ D, scan children fuel i table = some (seeds ++ D) ∧ BreadthFirst children seeds D := by
  induction fuel generalizing i table with
  | zero =>
    have hlen := h.length_le hseeds hclosed
    have hend : table[i]? = none := List.getElem?_eq_none (by omega)
    obtain ⟨D, rfl, hdone⟩ := h.done hend
    exact ⟨D, by rw [scan, hend], hdone⟩
  | succ fuel ih =>
    unfold scan
    cases hu : table[i]? with
    | none =>
      obtain ⟨D, rfl, hdone⟩ := h.done hu
      exact ⟨D, rfl, hdone⟩
    | some u => exact ih (h.step hu) (by omega)

/-- Where the seeds lie in a finite set that has all children, the scan ends
with what is reached from the seeds, in breadth-first order. -/
theorem scan_breadthFirst {objects : Finset α} (hseeds : ∀ v ∈ seeds, v ∈ objects)
    (hclosed : ∀ u ∈ objects, ∀ c ∈ children u, c ∈ objects) {fuel : Nat}
    (hfuel : seeds.length + objects.card ≤ fuel) :
    ∃ D, scan children fuel 0 seeds = some (seeds ++ D) ∧ BreadthFirst children seeds D :=
  scan_of_inv hseeds hclosed (ScanInv.init children seeds) (by omega)

/-- A scan that ended ends alike with more fuel. -/
theorem scan_mono {fuel fuel' i : Nat} {table result : List α} (h : scan children fuel i table = some result)
    (hle : fuel ≤ fuel') : scan children fuel' i table = some result := by
  induction fuel generalizing fuel' i table with
  | zero =>
    unfold scan at h ⊢
    cases hu : table[i]? with
    | none => simpa [hu] using h
    | some u => simp [hu] at h
  | succ fuel ih =>
    unfold scan at h ⊢
    cases hu : table[i]? with
    | none => simpa [hu] using h
    | some u =>
      cases fuel' with
      | zero => omega
      | succ fuel' =>
        simp only [hu] at h
        exact ih h (by omega)

/-- Another scan of a table that has all children adds nothing. -/
theorem scan_closed {table : List α} (hclosed : ∀ u ∈ table, ∀ c ∈ children u, c ∈ table) {fuel i : Nat}
    (hfuel : table.length ≤ i + fuel) : scan children fuel i table = some table := by
  induction fuel generalizing i with
  | zero =>
    rw [scan, List.getElem?_eq_none (by omega)]
  | succ fuel ih =>
    unfold scan
    cases hu : table[i]? with
    | none => rfl
    | some u =>
      have hsame := foldl_addNew_eq_self (hclosed u (List.mem_of_getElem? hu))
      simp only [hsame]
      exact ih (by omega)

end Scan

end cmodel
