import LdSo.Lib.Memory.Frame

namespace cmodel

/-- A pointer that bytes are written through one after the other, and the memory
it points into. -/
structure Cursor (n : Nat) where
  mem : Memory n
  pos : BitVec n

namespace Memory

variable {n : Nat} {m : Memory n} {a : BitVec n} {b : Byte} {bs cs : List Byte}

theorem holds_cons : m.Holds a (b :: bs) ↔ m.byte a = some b ∧ m.Holds (a + 1#n) bs := load_cons

/-- Bytes that are written in two pieces, one behind the other. -/
theorem put_put_append (hfit : (bs ++ cs).length ≤ 2 ^ n) :
    (m.put a bs).put (a + BitVec.ofNat n bs.length) cs = m.put a (bs ++ cs) := by
  rw [List.length_append] at hfit
  funext x
  have hx := (x - a).isLt
  have hoff : x - (a + BitVec.ofNat n bs.length) = (x - a) - BitVec.ofNat n bs.length := by ring
  have hsub : (x - (a + BitVec.ofNat n bs.length)).toNat =
      (2 ^ n - bs.length % 2 ^ n + (x - a).toNat) % 2 ^ n := by
    rw [hoff, BitVec.toNat_sub, BitVec.toNat_ofNat]
  by_cases hin : (x - a).toNat < bs.length
  · -- the first piece stays as it was written
    have hnot : ¬ (⟨a + BitVec.ofNat n bs.length, cs.length⟩ : Region n).Contains x := by
      rw [Region.Contains, hsub]
      dsimp only
      obtain hlt | hge := Nat.lt_or_ge bs.length (2 ^ n)
      · rw [Nat.mod_eq_of_lt hlt, Nat.mod_eq_of_lt (by omega)]
        omega
      · omega
    rw [put_of_not_contains hnot, put_of_contains hin, put_of_contains (by rw [List.length_append]; omega)]
    simp only [List.getElem_append_left hin]
  · have hlt : bs.length < 2 ^ n := by omega
    have hdist : (x - (a + BitVec.ofNat n bs.length)).toNat = (x - a).toNat - bs.length := by
      rw [hsub, Nat.mod_eq_of_lt hlt, Nat.mod_eq_sub_mod (by omega), Nat.mod_eq_of_lt (by omega)]
      omega
    have hfront : m.put a bs x = m x := put_of_not_contains hin
    by_cases hback : (x - a).toNat < bs.length + cs.length
    · have hin' : (x - (a + BitVec.ofNat n bs.length)).toNat < cs.length := by omega
      have hback' : (x - a).toNat < (bs ++ cs).length := by rwa [List.length_append]
      rw [put_of_contains hin', put_of_contains hback', hfront]
      simp only [hdist, List.getElem_append_right (Nat.le_of_not_lt hin)]
    · have hnot : ¬ (⟨a + BitVec.ofNat n bs.length, cs.length⟩ : Region n).Contains x := by
        rw [Region.Contains, hdist]
        dsimp only
        omega
      have hnot' : ¬ (⟨a, (bs ++ cs).length⟩ : Region n).Contains x := by
        rw [Region.Contains, List.length_append]
        exact hback
      rw [put_of_not_contains hnot, put_of_not_contains hnot', hfront]

/-- Up to `k` bytes from an address on, cut at the first NUL, which may be missing
when there are as many before it. -/
def text (m : Memory n) : Nat → BitVec n → Option (List Byte)
  | 0, _ => some []
  | k + 1, a =>
    match m.byte a with
    | none => none
    | some c => if c = 0#8 then some [] else (text m k (a + 1#n)).map (c :: ·)

theorem text_eq_nil_iff {k : Nat} : m.text (k + 1) a = some [] ↔ m.byte a = some 0#8 := by
  rw [text]
  cases m.byte a with
  | none => simp
  | some c => by_cases hc : c = 0#8 <;> simp [hc]

theorem text_eq_cons_iff {k : Nat} :
    m.text (k + 1) a = some (b :: bs) ↔ b ≠ 0#8 ∧ m.byte a = some b ∧ m.text k (a + 1#n) = some bs := by
  rw [text]
  cases m.byte a with
  | none => simp
  | some c =>
    by_cases hc : c = 0#8
    · subst hc
      simp only [if_pos, Option.some.injEq, reduceCtorEq, false_iff]
      rintro ⟨hb, rfl, -⟩
      exact hb rfl
    · simp only [if_neg hc, Option.map_eq_some_iff, List.cons.injEq, Option.some.injEq]
      constructor
      · rintro ⟨rest, hrest, rfl, rfl⟩
        exact ⟨hc, rfl, hrest⟩
      · rintro ⟨-, rfl, hrest⟩
        exact ⟨bs, hrest, rfl, rfl⟩

/-- The text is read, ends where it should and contains no NUL. -/
theorem text_eq_some_iff {k : Nat} : m.text k a = some bs ↔
    m.Holds a bs ∧ 0#8 ∉ bs ∧ (bs.length = k ∨ bs.length < k ∧ m.Holds a (bs ++ [0#8])) := by
  induction k generalizing a bs with
  | zero =>
    rw [text, Option.some.injEq]
    constructor
    · rintro rfl
      exact ⟨rfl, List.not_mem_nil, .inl rfl⟩
    · rintro ⟨-, -, hlen | ⟨hlt, -⟩⟩
      · exact (List.eq_nil_of_length_eq_zero hlen).symm
      · omega
  | succ k ih =>
    cases bs with
    | nil =>
      rw [text_eq_nil_iff]
      constructor
      · exact fun h => ⟨rfl, List.not_mem_nil, .inr ⟨Nat.succ_pos k, holds_cons.mpr ⟨h, rfl⟩⟩⟩
      · rintro ⟨-, -, hlen | ⟨-, hend⟩⟩
        · cases hlen
        · exact (holds_cons.mp hend).1
    | cons b bs =>
      rw [text_eq_cons_iff, ih, List.cons_append, holds_cons, holds_cons, List.mem_cons, List.length_cons]
      constructor
      · rintro ⟨hb, hbyte, hholds, hnonul, hend⟩
        refine ⟨⟨hbyte, hholds⟩, ?_, ?_⟩
        · rintro (h | h)
          · exact hb h.symm
          · exact hnonul h
        · exact hend.imp (fun h => by omega) fun ⟨hlt, h⟩ => ⟨by omega, hbyte, h⟩
      · rintro ⟨⟨hbyte, hholds⟩, hnonul, hend⟩
        refine ⟨fun h => hnonul (.inl h.symm), hbyte, hholds, fun h => hnonul (.inr h), ?_⟩
        exact hend.imp (fun h => by omega) fun ⟨hlt, _, h⟩ => ⟨by omega, h⟩

/-- More memory, the same text. -/
theorem Sub.text {m' : Memory n} (h : m.Sub m') {k : Nat} (htext : m.text k a = some bs) : m'.text k a = some bs := by
  obtain ⟨hholds, hnonul, hend⟩ := text_eq_some_iff.mp htext
  exact text_eq_some_iff.mpr ⟨h.holds hholds, hnonul, hend.imp_right fun hlt => ⟨hlt.1, h.holds hlt.2⟩⟩

/-- A whole C string is read when there is room for its terminator. -/
theorem text_of_holds {k : Nat} (hholds : m.Holds a (bs ++ [0#8])) (hnonul : 0#8 ∉ bs) (hk : bs.length < k) :
    m.text k a = some bs :=
  text_eq_some_iff.mpr ⟨(holds_append.mp hholds).1, hnonul, .inr ⟨hk, hholds⟩⟩

end Memory

namespace Cursor

variable {n : Nat} {out : Cursor n} {bs cs : List Byte}

/-- `*out++ = c` -/
def put (out : Cursor n) (c : Byte) : Outcome (Cursor n) := do
  let m ← Outcome.ofOption (out.mem.store out.pos [c])
  return ⟨m, out.pos + 1#n⟩

/-- All these bytes, one after the other. -/
def write (out : Cursor n) : List Byte → Outcome (Cursor n)
  | [] => .ok out
  | c :: cs => do
    let out ← out.put c
    write out cs

@[simp] theorem write_nil (out : Cursor n) : out.write [] = .ok out := rfl

theorem write_cons (out : Cursor n) (c : Byte) (cs : List Byte) :
    out.write (c :: cs) = out.put c >>= fun out => out.write cs := rfl

@[simp] theorem write_singleton (out : Cursor n) (c : Byte) : out.write [c] = out.put c := by
  rw [write_cons]
  exact bind_pure (out.put c)

/-- Writes one behind the other are one write. -/
theorem write_append (out : Cursor n) (bs cs : List Byte) :
    out.write (bs ++ cs) = out.write bs >>= fun out => out.write cs := by
  induction bs generalizing out with
  | nil => rfl
  | cons b bs ih => simp only [List.cons_append, write_cons, ih, bind_assoc]

/-- The cursor after `bs` was written from `a` on. -/
def after (m : Memory n) (a : BitVec n) (bs : List Byte) : Cursor n := ⟨m.put a bs, a + BitVec.ofNat n bs.length⟩

@[simp] theorem after_nil (m : Memory n) (a : BitVec n) : after m a [] = ⟨m, a⟩ := by
  have hput : m.put a [] = m := Memory.put_eq_self (by rfl)
  simp [after, hput]

theorem put_after {m : Memory n} {a : BitVec n} {c : Byte} (hfit : bs.length < 2 ^ n)
    (hw : m.WritableRegion ⟨a, bs.length + 1⟩) : (after m a bs).put c = .ok (after m a (bs ++ [c])) := by
  have hlast : m.Writable (a + BitVec.ofNat n bs.length) := hw bs.length (Nat.lt_succ_self _)
  have hregion : (m.put a bs).WritableRegion ⟨a + BitVec.ofNat n bs.length, [c].length⟩ := by
    rw [Memory.writableRegion_put]
    intro i hi
    obtain rfl : i = 0 := Nat.lt_one_iff.mp hi
    simpa using hlast
  unfold put after Memory.store
  rw [if_pos hregion, Memory.put_put_append (by rw [List.length_append]; exact hfit)]
  simp [BitVec.add_assoc, BitVec.ofNat_add]

/-- Where there is room, a write goes through. -/
theorem write_after {m : Memory n} {a : BitVec n} (hfit : (bs ++ cs).length ≤ 2 ^ n)
    (hw : m.WritableRegion ⟨a, (bs ++ cs).length⟩) : (after m a bs).write cs = .ok (after m a (bs ++ cs)) := by
  induction cs generalizing bs with
  | nil => rw [List.append_nil, write_nil]
  | cons c cs ih =>
    have hassoc : bs ++ c :: cs = (bs ++ [c]) ++ cs := by simp
    rw [List.length_append, List.length_cons] at hfit hw
    rw [write_cons, put_after (by omega) fun i hi => hw i (by dsimp only at hi ⊢; omega), Outcome.ok_bind, hassoc]
    rw [← List.length_cons, ← List.length_append, hassoc] at hfit hw
    exact ih hfit hw

end Cursor

end cmodel
