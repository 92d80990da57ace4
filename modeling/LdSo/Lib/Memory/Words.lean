import LdSo.Lib.Memory.Frame

namespace cmodel.Memory

variable {n w : Nat}

/-- The memory after the words were written in order, without a check. -/
def putWords (m : Memory n) (ws : List (BitVec n × BitVec w)) : Memory n :=
  ws.foldl (fun m x => m.putWord x.1 x.2) m

@[simp] theorem putWords_nil (m : Memory n) : m.putWords ([] : List (BitVec n × BitVec w)) = m := rfl

@[simp] theorem putWords_cons (m : Memory n) (x : BitVec n × BitVec w) (ws : List (BitVec n × BitVec w)) :
    m.putWords (x :: ws) = (m.putWord x.1 x.2).putWords ws := rfl

/-- The ranges the words occupy. -/
def wordRegions (w : Nat) (as : List (BitVec n)) : List (Region n) := as.map (wordRegion w)

/-- The words' ranges do not meet. -/
def Apart (w : Nat) (as : List (BitVec n)) : Prop := as.Pairwise fun a b => (wordRegion w a).Disjoint (wordRegion w b)

theorem Apart.disjoint {as : List (BitVec n)} (h : Apart w as) {i j : Nat} {a b : BitVec n} (hi : as[i]? = some a)
    (hj : as[j]? = some b) (hne : i ≠ j) : (wordRegion w a).Disjoint (wordRegion w b) := by
  obtain ⟨hilt, rfl⟩ := List.getElem?_eq_some_iff.mp hi
  obtain ⟨hjlt, rfl⟩ := List.getElem?_eq_some_iff.mp hj
  obtain hlt | hlt := Nat.lt_or_gt_of_ne hne
  · exact List.pairwise_iff_getElem.mp h i j hilt hjlt hlt
  · exact (List.pairwise_iff_getElem.mp h j i hjlt hilt hlt).symm

/-- What no single write changes is not changed by all of them. -/
theorem putWords_keeps {α : Type} (f : Memory n → α) {ws : List (BitVec n × BitVec w)}
    (h : ∀ x ∈ ws, ∀ m : Memory n, f (m.putWord x.1 x.2) = f m) (m : Memory n) : f (m.putWords ws) = f m := by
  induction ws generalizing m with
  | nil => rfl
  | cons x ws ih => rw [putWords_cons, ih fun y hy => h y (by simp [hy]), h x (by simp)]

@[simp] theorem writableRegion_putWords {m : Memory n} {ws : List (BitVec n × BitVec w)} {r : Region n} :
    (m.putWords ws).WritableRegion r ↔ m.WritableRegion r :=
  iff_of_eq (putWords_keeps (·.WritableRegion r) (fun _ _ _ => propext writableRegion_putWord) m)

theorem hide_putWords {m : Memory n} {ws : List (BitVec n × BitVec w)} {rs : List (Region n)}
    (h : ∀ x ∈ ws, wordRegion w x.1 ∈ rs) : (m.putWords ws).hide rs = m.hide rs :=
  putWords_keeps (·.hide rs) (fun x hx _ => hide_putWord (h x hx)) m

/-- Words elsewhere are not changed. -/
theorem loadWord_putWords_of_disjoint {m : Memory n} {ws : List (BitVec n × BitVec w)} {a : BitVec n} {k : Nat}
    (h : ∀ x ∈ ws, (wordRegion w x.1).Disjoint (wordRegion k a)) : loadWord k (m.putWords ws) a = loadWord k m a :=
  putWords_keeps (loadWord k · a) (fun x hx _ => loadWord_putWord_of_disjoint (h x hx)) m

/-- Every word of ranges that do not meet is read back. -/
theorem loadWord_putWords_mem {m : Memory n} {ws : List (BitVec n × BitVec w)} (hw : w % 8 = 0) (hfit : w / 8 ≤ 2 ^ n)
    (hapart : Apart w (ws.map Prod.fst)) (hwr : ∀ x ∈ ws, m.WritableRegion (wordRegion w x.1))
    {x : BitVec n × BitVec w} (hx : x ∈ ws) : loadWord w (m.putWords ws) x.1 = .ok x.2 := by
  induction ws generalizing m with
  | nil => cases hx
  | cons y ws ih =>
    obtain ⟨hhead, htail⟩ := List.pairwise_cons.mp hapart
    rw [putWords_cons]
    obtain rfl | hx := List.mem_cons.mp hx
    · rw [loadWord_putWords_of_disjoint fun z hz => (hhead z.1 (List.mem_map_of_mem hz)).symm,
        loadWord_putWord_same hw hfit (hwr x (by simp))]
    · exact ih htail (fun z hz => writableRegion_putWord.mpr (hwr z (by simp [hz]))) hx

/-- The order of writes to ranges that do not meet is irrelevant. -/
theorem putWords_perm {m : Memory n} {ws ws' : List (BitVec n × BitVec w)} (hperm : ws.Perm ws')
    (hapart : Apart w (ws.map Prod.fst)) : m.putWords ws = m.putWords ws' := by
  induction hperm generalizing m with
  | nil => rfl
  | cons x _ ih => exact ih (List.pairwise_cons.mp hapart).2
  | swap x y ws =>
    have hxy := (List.pairwise_cons.mp hapart).1 x.1 (by simp)
    rw [putWords_cons, putWords_cons, putWords_cons, putWords_cons, putWord_comm hxy]
  | trans hws _ ih ih' =>
    rw [ih hapart]
    apply ih'
    exact (hws.map Prod.fst).pairwise hapart fun h => Region.Disjoint.symm h

/-- Writing the words that are there changes nothing. -/
theorem putWords_eq_self {m : Memory n} {ws : List (BitVec n × BitVec w)} (hw : w % 8 = 0)
    (h : ∀ x ∈ ws, loadWord w m x.1 = .ok x.2) : m.putWords ws = m := by
  induction ws with
  | nil => rfl
  | cons x ws ih => rw [putWords_cons, putWord_eq_self hw (h x (by simp)), ih fun y hy => h y (by simp [hy])]

end cmodel.Memory
