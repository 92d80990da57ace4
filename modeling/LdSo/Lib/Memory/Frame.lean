import LdSo.Lib.Memory

namespace cmodel.Memory

variable {n : Nat}

/-- Every mapped byte of `m` is mapped alike in `m'`. -/
def Sub (m m' : Memory n) : Prop := ∀ a c, m a = some c → m' a = some c

theorem Sub.refl (m : Memory n) : m.Sub m := fun _ _ h => h

theorem Sub.trans {m m' m'' : Memory n} (h : m.Sub m') (h' : m'.Sub m'') : m.Sub m'' :=
  fun a c ha => h' a c (h a c ha)

theorem Sub.byte {m m' : Memory n} (h : m.Sub m') {a : BitVec n} {b : Byte}
    (hb : m.byte a = some b) : m'.byte a = some b := by
  unfold Memory.byte at hb ⊢
  cases hcell : m a with
  | none => simp [hcell] at hb
  | some c =>
    rw [h a c hcell]
    rwa [hcell] at hb

theorem Sub.load {m m' : Memory n} (h : m.Sub m') {a : BitVec n} {k : Nat} {bs : List Byte}
    (hload : m.load a k = some bs) : m'.load a k = some bs := by
  induction k generalizing a bs with
  | zero => exact hload
  | succ k ih =>
    cases bs with
    | nil =>
      have hlen := load_length hload
      simp at hlen
    | cons b bs =>
      rw [load_cons] at hload ⊢
      exact ⟨h.byte hload.1, ih hload.2⟩

/-- A read becomes more defined when more memory is mapped. -/
theorem Sub.loadWord_le {m m' : Memory n} (h : m.Sub m') (w : Nat) (a : BitVec n) :
    loadWord w m a ≤ loadWord w m' a := by
  cases hload : m.load a (w / 8) with
  | none =>
    simp only [loadWord, hload]
    exact Outcome.fault_le _
  | some bs =>
    simp only [loadWord, hload, h.load hload]
    exact le_rfl

theorem Sub.holds {m m' : Memory n} (h : m.Sub m') {a : BitVec n} {bs : List Byte}
    (hholds : m.Holds a bs) : m'.Holds a bs := h.load hholds

theorem Sub.writableRegion {m m' : Memory n} (h : m.Sub m') {r : Region n} (hw : m.WritableRegion r) :
    m'.WritableRegion r := by
  intro i hi
  obtain ⟨c, hc, hcw⟩ := hw i hi
  exact ⟨c, h _ c hc, hcw⟩

/-- The memory without the listed ranges. A computation that succeeds on it
reads none of them. -/
def hide (m : Memory n) (rs : List (Region n)) : Memory n :=
  fun a => if ∃ r ∈ rs, r.Contains a then none else m a

theorem hide_sub (m : Memory n) (rs : List (Region n)) : (m.hide rs).Sub m := by
  intro a c hc
  unfold hide at hc
  split at hc
  · cases hc
  · exact hc

/-- Two memories that are the same but for the listed ranges, address by address. -/
theorem hide_eq_hide_iff {m m' : Memory n} {rs : List (Region n)} :
    m'.hide rs = m.hide rs ↔ ∀ x, (∀ r ∈ rs, ¬ r.Contains x) → m' x = m x := by
  constructor
  · intro h x hx
    have hcell := congrFun h x
    have hnot : ¬ ∃ r ∈ rs, r.Contains x := fun ⟨r, hr, hin⟩ => hx r hr hin
    simpa only [hide, if_neg hnot] using hcell
  · intro h
    funext x
    unfold hide
    split
    · rfl
    · next hnot => exact h x fun r hr hin => hnot ⟨r, hr, hin⟩

/-- Extending a memory extends what is left of it after hiding. -/
theorem Sub.hide {m m' : Memory n} (h : m.Sub m') (rs : List (Region n)) :
    (m.hide rs).Sub (m'.hide rs) := by
  intro a c hc
  unfold Memory.hide at hc ⊢
  split at hc
  · cases hc
  · next hnot =>
    rw [if_neg hnot]
    exact h a c hc

/-- A read depends only on the bytes of its own range. -/
theorem load_congr {m m' : Memory n} {a : BitVec n} {k : Nat}
    (h : ∀ i < k, m.byte (a + BitVec.ofNat n i) = m'.byte (a + BitVec.ofNat n i)) : m.load a k = m'.load a k := by
  induction k generalizing a with
  | zero => rfl
  | succ k ih =>
    have hhead := h 0 (by omega)
    rw [BitVec.add_zero] at hhead
    have htail := ih (a := a + 1#n) fun i hi => by
      have h := h (i + 1) (by omega)
      rwa [BitVec.ofNat_add, BitVec.add_comm (BitVec.ofNat n i), ← BitVec.add_assoc] at h
    simp only [load, hhead, htail]

/-- The memory with one range only. -/
def only (m : Memory n) (r : Region n) : Memory n := fun a => if r.Contains a then m a else none

/-- Held bytes stay held where their range can be read as before. -/
theorem Holds.congr {m m' : Memory n} {a : BitVec n} {bs : List Byte} (h : m.Holds a bs)
    (hsame : ∀ x, (⟨a, bs.length⟩ : Region n).Contains x → m'.byte x = m.byte x) : m'.Holds a bs := by
  refine (load_congr fun i hi => hsame _ ?_).trans h
  exact Region.contains_add (r := ⟨a, bs.length⟩) hi

/-- Held bytes stay held when everything but their range is unmapped. -/
theorem Holds.only {m : Memory n} {a : BitVec n} {bs : List Byte} (h : m.Holds a bs) :
    (m.only ⟨a, bs.length⟩).Holds a bs := by
  apply h.congr
  intro x hin
  rw [Memory.byte, Memory.only, if_pos hin, Memory.byte]

/-- Held bytes stay held when ranges disjoint from theirs are hidden. -/
theorem Holds.hide {m : Memory n} {a : BitVec n} {bs : List Byte} (h : m.Holds a bs) {rs : List (Region n)}
    (hdis : ∀ r ∈ rs, (⟨a, bs.length⟩ : Region n).Disjoint r) : (m.hide rs).Holds a bs := by
  apply h.congr
  intro x hin
  have hnot : ¬ ∃ r ∈ rs, r.Contains x := fun ⟨r, hr, hcontains⟩ => hdis r hr _ hin hcontains
  rw [Memory.byte, Memory.hide, if_neg hnot, Memory.byte]

theorem put_of_contains {m : Memory n} {a x : BitVec n} {bs : List Byte}
    (h : (x - a).toNat < bs.length) :
    m.put a bs x = (m x).map fun c => { c with val := bs[(x - a).toNat] } := by
  have hget : bs[(x - a).toNat]? = some bs[(x - a).toNat] := List.getElem?_eq_getElem h
  unfold put
  rw [hget]
  cases m x <;> rfl

theorem put_of_not_contains {m : Memory n} {a x : BitVec n} {bs : List Byte}
    (h : ¬ (⟨a, bs.length⟩ : Region n).Contains x) : m.put a bs x = m x := by
  have hget : bs[(x - a).toNat]? = none := List.getElem?_eq_none (Nat.le_of_not_lt h)
  unfold put
  rw [hget]
  cases m x <;> rfl

/-- A write changes no protection. -/
@[simp] theorem writable_put {m : Memory n} {a x : BitVec n} {bs : List Byte} :
    (m.put a bs).Writable x ↔ m.Writable x := by
  unfold Writable
  by_cases h : (⟨a, bs.length⟩ : Region n).Contains x
  · rw [put_of_contains h]
    cases m x <;> simp
  · rw [put_of_not_contains h]

/-- What an address may be used for. -/
def protection (m : Memory n) (a : BitVec n) : Option Prot := (m a).map Cell.prot

@[simp] theorem isSome_protection (m : Memory n) (a : BitVec n) : (m.protection a).isSome = (m a).isSome :=
  Option.isSome_map

@[simp] theorem protection_put (m : Memory n) (a x : BitVec n) (bs : List Byte) :
    (m.put a bs).protection x = m.protection x := by
  unfold protection
  by_cases h : (⟨a, bs.length⟩ : Region n).Contains x
  · rw [put_of_contains h]
    cases m x <;> rfl
  · rw [put_of_not_contains h]

theorem protection_mmap (m : Memory n) (r : Region n) (prot : Prot) (x : BitVec n) :
    (m.mmap r prot).protection x = if r.Contains x then some prot else m.protection x := by
  unfold protection mmap
  split <;> rfl

theorem protection_mprotect (m : Memory n) (r : Region n) (prot : Prot) (x : BitVec n) :
    (m.mprotect r prot).protection x = if r.Contains x then (m.protection x).map fun _ => prot else m.protection x := by
  unfold protection mprotect
  split
  · cases m x <;> rfl
  · rfl

@[simp] theorem writableRegion_put {m : Memory n} {a : BitVec n} {bs : List Byte} {r : Region n} :
    (m.put a bs).WritableRegion r ↔ m.WritableRegion r := by
  simp [WritableRegion]

/-- Writing inside a hidden range does not show. -/
theorem hide_put {m : Memory n} {a : BitVec n} {bs : List Byte} {rs : List (Region n)}
    (h : (⟨a, bs.length⟩ : Region n) ∈ rs) : (m.put a bs).hide rs = m.hide rs := by
  funext x
  unfold hide
  split
  · rfl
  · next hnot =>
    exact put_of_not_contains fun hx => hnot ⟨_, h, hx⟩

theorem byte_put_of_disjoint {m : Memory n} {a x : BitVec n} {bs : List Byte}
    (h : ¬ (⟨a, bs.length⟩ : Region n).Contains x) : (m.put a bs).byte x = m.byte x := by
  unfold byte
  rw [put_of_not_contains h]

/-- A write does not change what is read from a range disjoint from it. -/
theorem load_put_of_disjoint {m : Memory n} {a b : BitVec n} {bs : List Byte} {k : Nat}
    (h : (⟨a, bs.length⟩ : Region n).Disjoint ⟨b, k⟩) : (m.put a bs).load b k = m.load b k :=
  load_congr fun _ hi => byte_put_of_disjoint fun hx => h _ hx (Region.contains_add (r := ⟨b, k⟩) hi)

/-- What is written is read back. -/
theorem load_put_same {m : Memory n} {a : BitVec n} {bs : List Byte}
    (hfit : bs.length ≤ 2 ^ n) (hw : m.WritableRegion ⟨a, bs.length⟩) :
    (m.put a bs).load a bs.length = some bs := by
  have hbyte : ∀ i, (hi : i < bs.length) → (m.put a bs).byte (a + BitVec.ofNat n i) = some bs[i] := by
    intro i hi
    obtain ⟨c, hc, hcw⟩ := hw i hi
    have hoff : (a + BitVec.ofNat n i - a).toNat = i := by
      rw [show a + BitVec.ofNat n i - a = BitVec.ofNat n i by ring, BitVec.toNat_ofNat]
      exact Nat.mod_eq_of_lt (by omega)
    have hr : c.prot.readable = true := by simp [Prot.readable, hcw]
    have hcell : m (a + BitVec.ofNat n i) = some c := hc
    unfold byte
    rw [put_of_contains (by omega), hcell]
    simp only [Option.map_some, hr, if_true, Option.some.injEq]
    congr 1
  generalize m.put a bs = m' at hbyte
  clear hw hfit
  induction bs generalizing a with
  | nil => rfl
  | cons b bs ih =>
    rw [List.length_cons, load_cons]
    constructor
    · have h := hbyte 0 (by simp)
      rw [BitVec.add_zero] at h
      exact h
    · apply ih
      intro i hi
      have h := hbyte (i + 1) (by simpa using hi)
      rw [BitVec.ofNat_add, BitVec.add_comm (BitVec.ofNat n i), ← BitVec.add_assoc] at h
      simpa using h

/-- What may be written may be read. -/
theorem WritableRegion.load {m : Memory n} {a : BitVec n} {k : Nat} (h : m.WritableRegion ⟨a, k⟩) :
    ∃ bs, m.load a k = some bs := by
  induction k generalizing a with
  | zero => exact ⟨[], rfl⟩
  | succ k ih =>
    obtain ⟨c, hc, hcw⟩ := h 0 (by simp)
    rw [BitVec.add_zero] at hc
    have hbyte : m.byte a = some c.val := by simp [byte, hc, Prot.readable, hcw]
    obtain ⟨bs, hbs⟩ := ih (a := a + 1#n) fun i hi => by
      have hnext := h (i + 1) (by simpa using hi)
      rwa [BitVec.ofNat_add, BitVec.add_comm (BitVec.ofNat n i), ← BitVec.add_assoc] at hnext
    exact ⟨c.val :: bs, load_cons.mpr ⟨hbyte, hbs⟩⟩

/-- Writes to disjoint ranges commute. -/
theorem put_comm {m : Memory n} {a b : BitVec n} {as bs : List Byte}
    (h : (⟨a, as.length⟩ : Region n).Disjoint ⟨b, bs.length⟩) :
    (m.put a as).put b bs = (m.put b bs).put a as := by
  funext x
  by_cases hx : (⟨a, as.length⟩ : Region n).Contains x
  · rw [put_of_not_contains (h x hx), put_of_contains hx, put_of_contains hx, put_of_not_contains (h x hx)]
  · by_cases hy : (⟨b, bs.length⟩ : Region n).Contains x
    · rw [put_of_contains hy, put_of_not_contains hx, put_of_not_contains hx, put_of_contains hy]
    · rw [put_of_not_contains hy, put_of_not_contains hx, put_of_not_contains hx, put_of_not_contains hy]

/-- Of two writes to one range the last one stays. -/
theorem put_put {m : Memory n} {a : BitVec n} {as bs : List Byte} (h : as.length = bs.length) :
    (m.put a as).put a bs = m.put a bs := by
  funext x
  by_cases hx : (⟨a, bs.length⟩ : Region n).Contains x
  · rw [put_of_contains hx, put_of_contains hx, put_of_contains (h ▸ hx), Option.map_map]
    rfl
  · rw [put_of_not_contains hx, put_of_not_contains hx, put_of_not_contains (h ▸ hx)]

/-- Writing the bytes that are there changes nothing. -/
theorem put_eq_self {m : Memory n} {a : BitVec n} {bs : List Byte} (h : m.Holds a bs) :
    m.put a bs = m := by
  funext x
  by_cases hx : (⟨a, bs.length⟩ : Region n).Contains x
  · have hi : (x - a).toNat < bs.length := hx
    have hslice := h.load_slice (i := (x - a).toNat) (k := 1) (by omega)
    rw [← Region.eq_add_of_contains (r := ⟨a, bs.length⟩)] at hslice
    rw [List.take_one, List.head?_drop, List.getElem?_eq_getElem hi, Option.toList_some, load_cons] at hslice
    rw [put_of_contains hi]
    have hb := hslice.1
    unfold byte at hb
    cases hc : m x with
    | none => rfl
    | some c =>
      rw [hc] at hb
      simp only [Option.ite_none_right_eq_some, Option.some.injEq] at hb
      simp only [Option.map_some, Option.some.injEq]
      rw [← hb.2]
  · exact put_of_not_contains hx

section Word

variable {w : Nat}

/-- The range a `w`-bit word at `a` occupies. -/
def wordRegion (w : Nat) (a : BitVec n) : Region n := ⟨a, w / 8⟩

/-- The memory after a word was written, without a check. -/
def putWord (m : Memory n) (a : BitVec n) (v : BitVec w) : Memory n := m.put a (leBytes (w / 8) v.toNat)

theorem storeWord_eq_ok_iff {m m' : Memory n} {a : BitVec n} {v : BitVec w} :
    storeWord m a v = .ok m' ↔ m.WritableRegion (wordRegion w a) ∧ m' = m.putWord a v := by
  unfold storeWord store wordRegion putWord
  rw [Outcome.ofOption_eq_ok_iff, leBytes_length]
  split
  · next h => simp [h, eq_comm]
  · next h => simp [h]

theorem storeWord_eq_ok {m : Memory n} {a : BitVec n} (v : BitVec w)
    (h : m.WritableRegion (wordRegion w a)) : storeWord m a v = .ok (m.putWord a v) :=
  storeWord_eq_ok_iff.mpr ⟨h, rfl⟩

theorem loadWord_of_writable {m : Memory n} {a : BitVec n} (h : m.WritableRegion (wordRegion w a)) :
    ∃ v, loadWord w m a = .ok v := by
  obtain ⟨bs, hbs⟩ := WritableRegion.load h
  exact ⟨BitVec.ofNat w (leNat bs), by simp only [loadWord, hbs]⟩

@[simp] theorem writableRegion_putWord {m : Memory n} {a : BitVec n} {v : BitVec w} {r : Region n} :
    (m.putWord a v).WritableRegion r ↔ m.WritableRegion r := writableRegion_put

theorem loadWord_putWord_same {m : Memory n} {a : BitVec n} {v : BitVec w} (hw : w % 8 = 0)
    (hfit : w / 8 ≤ 2 ^ n) (hwr : m.WritableRegion (wordRegion w a)) :
    loadWord w (m.putWord a v) a = .ok v := by
  have hload : (m.put a (leBytes (w / 8) v.toNat)).load a _ = some _ :=
    load_put_same (by simpa using hfit) (by simpa [wordRegion] using hwr)
  rw [leBytes_length] at hload
  have hpow : 256 ^ (w / 8) = 2 ^ w := by
    rw [show 256 = 2 ^ 8 from rfl, ← pow_mul, Nat.mul_div_cancel' (Nat.dvd_of_mod_eq_zero hw)]
  unfold loadWord putWord
  rw [hload]
  simp only [leNat_leBytes, hpow, Outcome.ok.injEq]
  apply BitVec.eq_of_toNat_eq
  rw [BitVec.toNat_ofNat, Nat.mod_mod, Nat.mod_eq_of_lt v.isLt]

theorem loadWord_putWord_of_disjoint {m : Memory n} {a b : BitVec n} {v : BitVec w} {w' : Nat}
    (h : (wordRegion w a).Disjoint (wordRegion w' b)) :
    loadWord w' (m.putWord a v) b = loadWord w' m b := by
  unfold loadWord putWord
  rw [load_put_of_disjoint (by simpa [wordRegion] using h)]

theorem putWord_comm {m : Memory n} {a b : BitVec n} {v : BitVec w} {w' : Nat} {v' : BitVec w'}
    (h : (wordRegion w a).Disjoint (wordRegion w' b)) :
    (m.putWord a v).putWord b v' = (m.putWord b v').putWord a v :=
  put_comm (by simpa [wordRegion] using h)

theorem putWord_putWord {m : Memory n} {a : BitVec n} {v v' : BitVec w} :
    (m.putWord a v).putWord a v' = m.putWord a v' := put_put (by simp)

/-- Writing the word that is there changes nothing. -/
theorem putWord_eq_self {m : Memory n} {a : BitVec n} {v : BitVec w} (hw : w % 8 = 0)
    (h : loadWord w m a = .ok v) : m.putWord a v = m := by
  unfold loadWord at h
  cases hload : m.load a (w / 8) with
  | none => simp [hload] at h
  | some bs =>
    have hlen := load_length hload
    simp only [hload, Outcome.ok.injEq] at h
    have hbs : leBytes (w / 8) v.toNat = bs := by
      have hpow : 256 ^ (w / 8) = 2 ^ w := by
        rw [show 256 = 2 ^ 8 from rfl, ← pow_mul, Nat.mul_div_cancel' (Nat.dvd_of_mod_eq_zero hw)]
      have hlt := leNat_lt bs
      rw [hlen, hpow] at hlt
      rw [← h, BitVec.toNat_ofNat, Nat.mod_eq_of_lt hlt, ← hlen, leBytes_leNat]
    unfold putWord
    apply put_eq_self
    rw [hbs]
    unfold Holds
    rwa [hlen]

/-- A word that meets none of the hidden ranges is read alike. -/
theorem loadWord_of_hide {m m' : Memory n} {rs : List (Region n)} {a : BitVec n} (h : m'.hide rs = m.hide rs)
    (hdis : ∀ r ∈ rs, r.Disjoint (wordRegion w a)) : loadWord w m' a = loadWord w m a := by
  have hload : m'.load a (w / 8) = m.load a (w / 8) := by
    apply load_congr
    intro i hi
    have hsame : m' (a + BitVec.ofNat n i) = m (a + BitVec.ofNat n i) := hide_eq_hide_iff.mp h _ fun r hr hin =>
      hdis r hr _ hin (Region.contains_add (r := wordRegion w a) hi)
    rw [byte, byte, hsame]
  unfold loadWord
  rw [hload]

theorem hide_putWord {m : Memory n} {a : BitVec n} {v : BitVec w} {rs : List (Region n)}
    (h : wordRegion w a ∈ rs) : (m.putWord a v).hide rs = m.hide rs :=
  hide_put (by simpa [wordRegion] using h)

end Word

end cmodel.Memory
