import LdSo.Lib.CString
import Mathlib.Logic.Relation

namespace cmodel

/-- A pointer: NULL, or a place in a block. -/
inductive Pointer where
  | null
  | place (block off : Nat)
  deriving DecidableEq

namespace Pointer

/-- `p + n`; no byte is reached from NULL. -/
def add : Pointer → Nat → Pointer
  | null, _ => null
  | place b off, n => place b (off + n)

@[simp] theorem null_add (n : Nat) : null.add n = null := rfl

@[simp] theorem place_add (b off n : Nat) : (place b off).add n = place b (off + n) := rfl

@[simp] theorem add_zero (p : Pointer) : p.add 0 = p := by
  cases p <;> rfl

theorem add_add (p : Pointer) (n k : Nat) : (p.add n).add k = p.add (n + k) := by
  cases p with
  | null => rfl
  | place b off => simp only [place_add, Nat.add_assoc]

/-- The `n` bytes from `p` and the `k` bytes from `q` do not overlap. -/
def Apart (p : Pointer) (n : Nat) (q : Pointer) (k : Nat) : Prop :=
  ∀ b i j, p = place b i → q = place b j → i + n ≤ j ∨ j + k ≤ i

theorem apart_of_block_ne {b b' off off' : Nat} (h : b ≠ b') (n k : Nat) : (place b off).Apart n (place b' off') k := by
  intro b₀ i j hp hq
  cases hp
  cases hq
  exact absurd rfl h

/-- Without its first byte the range is still apart from the other. -/
theorem Apart.add_left {p q : Pointer} {n k : Nat} (h : p.Apart (n + 1) q k) : (p.add 1).Apart n q k := by
  intro b i j hp hq
  cases p with
  | null => cases hp
  | place b₁ i₁ =>
    cases hp
    have := h b i₁ j rfl hq
    omega

theorem Apart.add_right {p q : Pointer} {n k : Nat} (h : p.Apart n q (k + 1)) : p.Apart n (q.add 1) k := by
  intro b i j hp hq
  cases q with
  | null => cases hq
  | place b₁ j₁ =>
    cases hq
    have := h b i j₁ hp rfl
    omega

theorem Apart.mono {p q : Pointer} {n n' k k' : Nat} (h : p.Apart n q k) (hn : n' ≤ n) (hk : k' ≤ k) :
    p.Apart n' q k' := by
  intro b i j hp hq
  have := h b i j hp hq
  omega

end Pointer

/-- Memory as the blocks it was allocated in. A pointer leaves its block by no
arithmetic, so that an access behind a block is undefined whatever lies there. -/
abbrev Blocks := List (List Byte)

namespace Blocks

open Pointer

def block (m : Blocks) (b : Nat) : List Byte := m[b]?.getD []

/-- The bytes from a pointer to the end of its block. -/
def bytes (m : Blocks) : Pointer → List Byte
  | null => []
  | place b off => (m.block b).drop off

def load (m : Blocks) (p : Pointer) : Outcome Byte := Outcome.ofOption (m.bytes p).head?

def store (m : Blocks) : Pointer → Byte → Outcome Blocks
  | null, _ => .fault
  | place b off, c => if off < (m.block b).length then .ok (m.set b ((m.block b).set off c)) else .fault

/-- Stores to consecutive bytes. -/
def write (m : Blocks) (p : Pointer) : List Byte → Outcome Blocks
  | [] => .ok m
  | c :: cs => do
    let m ← m.store p c
    write m (p.add 1) cs

/-- Where the next block starts. -/
def fresh (m : Blocks) : Pointer := place m.length 0

def alloc (m : Blocks) (content : List Byte) : Blocks := m ++ [content]

/-- The C string at a pointer. -/
def string (m : Blocks) (p : Pointer) : Outcome CString := CString.read (m.bytes p) 0

/-- These bytes stand at the pointer. -/
def Holds (m : Blocks) (p : Pointer) (bs : List Byte) : Prop := bs <+: m.bytes p

instance (m : Blocks) (p : Pointer) (bs : List Byte) : Decidable (m.Holds p bs) := inferInstanceAs (Decidable (_ <+: _))

variable {m m' : Blocks} {p q : Pointer} {b off : Nat} {c : Byte} {bs : List Byte}

@[simp] theorem bytes_null : m.bytes null = [] := rfl

@[simp] theorem bytes_place : m.bytes (place b off) = (m.block b).drop off := rfl

theorem bytes_add (m : Blocks) (p : Pointer) (n : Nat) : m.bytes (p.add n) = (m.bytes p).drop n := by
  cases p with
  | null => simp
  | place b off => rw [place_add, bytes_place, bytes_place, List.drop_drop]

theorem set_block (m : Blocks) (b : Nat) : m.set b (m.block b) = m := by
  apply List.ext_getElem?
  intro i
  rw [List.getElem?_set, block]
  by_cases hi : b = i
  · subst hi
    by_cases hlt : b < m.length
    · simp [hlt]
    · simp [hlt]
  · rw [if_neg hi]

theorem block_set_same {content : List Byte} (h : b < m.length) : block (m.set b content) b = content := by
  simp [block, h]

theorem block_set_ne {b' : Nat} {content : List Byte} (h : b ≠ b') : block (m.set b content) b' = m.block b' := by
  simp [block, h]

theorem block_eq_nil_of_le (h : m.length ≤ b) : m.block b = [] := by
  rw [block, List.getElem?_eq_none h, Option.getD_none]

theorem lt_length_of_lt_block (h : off < (m.block b).length) : b < m.length := by
  by_contra hnot
  rw [block_eq_nil_of_le (Nat.le_of_not_lt hnot), List.length_nil] at h
  omega

@[simp] theorem block_alloc_fresh (m : Blocks) (content : List Byte) : (m.alloc content).block m.length = content := by
  simp [alloc, block]

@[simp] theorem bytes_alloc_fresh (m : Blocks) (content : List Byte) : (m.alloc content).bytes m.fresh = content := by
  rw [fresh, bytes_place, block_alloc_fresh, List.drop_zero]

theorem holds_alloc_fresh (m : Blocks) (content : List Byte) : (m.alloc content).Holds m.fresh content :=
  ⟨[], by rw [List.append_nil, bytes_alloc_fresh]⟩

theorem alloc_set_fresh (m : Blocks) (old content : List Byte) : (m.alloc old).set m.length content = m.alloc content := by
  simp [alloc]

/-- What stands behind a pointer is still there after an allocation. -/
theorem bytes_prefix_alloc (m : Blocks) (p : Pointer) (content : List Byte) : m.bytes p <+: (m.alloc content).bytes p := by
  cases p with
  | null => exact List.prefix_refl _
  | place b off =>
    by_cases hb : b < m.length
    · have hblock : (m.alloc content).block b = m.block b := by simp [alloc, block, List.getElem?_append_left hb]
      exact ⟨[], by rw [List.append_nil, bytes_place, bytes_place, hblock]⟩
    · rw [bytes_place, block_eq_nil_of_le (Nat.le_of_not_lt hb), List.drop_nil]
      exact List.nil_prefix

theorem Holds.alloc (h : m.Holds p bs) (content : List Byte) : (m.alloc content).Holds p bs :=
  h.trans (bytes_prefix_alloc m p content)

theorem holds_cons_iff : m.Holds p (c :: bs) ↔ m.load p = .ok c ∧ m.Holds (p.add 1) bs := by
  unfold Holds load
  rw [bytes_add]
  cases m.bytes p with
  | nil => simp
  | cons d ds => simp [List.cons_prefix_cons, eq_comm]

/-- A block that is allocated later is another one. -/
theorem Holds.apart_fresh (h : m.Holds p bs) (hne : bs ≠ []) (n off k : Nat) : p.Apart n (m.fresh.add off) k := by
  cases p with
  | null => exact absurd (List.prefix_nil.mp h) hne
  | place b i =>
    apply apart_of_block_ne
    have hb : b < m.length := by
      by_contra hnot
      rw [Holds, bytes_place, block_eq_nil_of_le (Nat.le_of_not_lt hnot), List.drop_nil, List.prefix_nil] at h
      exact hne h
    exact Nat.ne_of_lt hb

/-- A C string is read where its bytes stand. -/
theorem string_eq_ok_iff {text : CString} : m.string p = .ok text ↔ m.Holds p text.bytes := by
  unfold string Holds CString.bytes
  rw [CString.read_eq_ok_iff, List.drop_zero]
  constructor
  · rintro ⟨rest, hrest⟩
    exact ⟨rest, by rw [hrest, List.append_assoc]; rfl⟩
  · rintro ⟨rest, hrest⟩
    exact ⟨rest, by rw [← hrest, List.append_assoc]; rfl⟩

private theorem prefix_set {xs : List Byte} {i : Nat} (h : bs <+: xs) (hi : bs.length ≤ i) (c : Byte) :
    bs <+: xs.set i c := by
  obtain ⟨rest, rfl⟩ := h
  rw [List.set_append_right _ _ hi]
  exact List.prefix_append _ _

theorem store_eq_ok_iff : m.store p c = .ok m' ↔
    ∃ b off, p = place b off ∧ off < (m.block b).length ∧ m' = m.set b ((m.block b).set off c) := by
  cases p with
  | null => simp [store]
  | place b off =>
    rw [store]
    split
    · next hroom =>
      constructor
      · intro h
        cases h
        exact ⟨b, off, rfl, hroom, rfl⟩
      · rintro ⟨_, _, hplace, -, rfl⟩
        cases hplace
        rfl
    · next hroom =>
      constructor
      · intro h
        cases h
      · rintro ⟨_, _, hplace, hlt, -⟩
        cases hplace
        exact absurd hlt hroom

/-- A store leaves the bytes that it does not overlap. -/
theorem Holds.of_store (h : m.Holds p bs) (hstore : m.store q c = .ok m') (hapart : p.Apart bs.length q 1) :
    m'.Holds p bs := by
  obtain ⟨b, j, rfl, hj, rfl⟩ := store_eq_ok_iff.mp hstore
  cases p with
  | null => exact h
  | place b' i =>
    unfold Holds at h ⊢
    rw [bytes_place] at h ⊢
    by_cases hsame : b' = b
    · subst hsame
      have hout := hapart b' i j rfl rfl
      rw [block_set_same (lt_length_of_lt_block hj), List.drop_set]
      split
      · exact h
      · exact prefix_set h (by omega) c
    · rwa [block_set_ne (Ne.symm hsame)]

private theorem bytes_length_of_store (hstore : m.store q c = .ok m') (p : Pointer) :
    (m'.bytes p).length = (m.bytes p).length := by
  obtain ⟨b, j, rfl, hj, rfl⟩ := store_eq_ok_iff.mp hstore
  cases p with
  | null => rfl
  | place b' i =>
    rw [bytes_place, bytes_place, List.length_drop, List.length_drop]
    by_cases hsame : b' = b
    · rw [hsame, block_set_same (lt_length_of_lt_block hj), List.length_set]
    · rw [block_set_ne (Ne.symm hsame)]

/-- The second memory comes from the first by stores alone. -/
def Stored : Blocks → Blocks → Prop := Relation.ReflTransGen fun m m' => ∃ p c, m.store p c = .ok m'

theorem Stored.refl (m : Blocks) : Stored m m := Relation.ReflTransGen.refl

theorem Stored.trans {m'' : Blocks} (h : Stored m m') (h' : Stored m' m'') : Stored m m'' := Relation.ReflTransGen.trans h h'

theorem Stored.of_store (h : m.store p c = .ok m') : Stored m m' := Relation.ReflTransGen.single ⟨p, c, h⟩

/-- Stores do not change how much room a pointer has. -/
theorem Stored.bytes_length (h : Stored m m') (p : Pointer) : (m'.bytes p).length = (m.bytes p).length := by
  induction h with
  | refl => rfl
  | tail _ hstep ih =>
    obtain ⟨q, c, hstore⟩ := hstep
    rw [bytes_length_of_store hstore, ih]

/-- A store either finds room or is undefined. -/
theorem store_ok_or_fault (m : Blocks) (p : Pointer) (c : Byte) :
    (∃ m', m.store p c = .ok m' ∧ 0 < (m.bytes p).length) ∨ m.store p c = .fault := by
  cases p with
  | null => exact .inr rfl
  | place b off =>
    rw [store, bytes_place, List.length_drop]
    by_cases hroom : off < (m.block b).length
    · exact .inl ⟨_, if_pos hroom, by omega⟩
    · exact .inr (if_neg hroom)

/-- One byte of a write whose source stands apart from it: the source is still there when
the other bytes are written. -/
theorem store_bind_eq_write {k : Blocks → Outcome Blocks} {cs : List Byte} (h : m.Holds p bs)
    (hapart : p.Apart bs.length q 1) (hk : ∀ m' : Blocks, m'.Holds p bs → k m' = m'.write (q.add 1) cs) :
    m.store q c >>= k = m.write q (c :: cs) := by
  rw [write]
  obtain ⟨m', hstore, -⟩ | hfault := m.store_ok_or_fault q c
  · rw [hstore, Outcome.ok_bind, Outcome.ok_bind]
    exact hk m' (h.of_store hstore hapart)
  · rw [hfault, Outcome.fault_bind, Outcome.fault_bind]

/-- Bytes that are written replace as many of their block. -/
theorem write_eq {front old rest : List Byte} (hblock : m.block b = front ++ old ++ rest) (hlen : old.length = bs.length) :
    m.write (place b front.length) bs = .ok (m.set b (front ++ bs ++ rest)) := by
  induction bs generalizing m front old with
  | nil =>
    obtain rfl : old = [] := List.eq_nil_of_length_eq_zero hlen
    rw [write, ← hblock, set_block]
  | cons c bs ih =>
    cases old with
    | nil => cases hlen
    | cons x old =>
      have hroom : front.length < (m.block b).length := by
        rw [hblock]
        simp
      have hb : b < m.length := lt_length_of_lt_block hroom
      have hset : (m.block b).set front.length c = front ++ [c] ++ old ++ rest := by
        rw [hblock, List.append_assoc, List.set_append_right _ _ (Nat.le_refl _), Nat.sub_self]
        simp
      have hstore : m.store (place b front.length) c = .ok (m.set b (front ++ [c] ++ old ++ rest)) := by
        rw [store, if_pos hroom, hset]
      have htail := ih (m := m.set b (front ++ [c] ++ old ++ rest)) (block_set_same hb) (by simpa using hlen)
      rw [List.length_append, List.length_singleton] at htail
      rw [write, hstore, Outcome.ok_bind, place_add, htail, List.set_set]
      simp

/-- Writing into a block that was just allocated. -/
theorem write_fresh (m : Blocks) (front rest : List Byte) {old : List Byte} (hlen : old.length = bs.length) :
    (m.alloc (front ++ old ++ rest)).write (m.fresh.add front.length) bs = .ok (m.alloc (front ++ bs ++ rest)) := by
  rw [fresh, place_add, Nat.zero_add, write_eq (block_alloc_fresh _ _) hlen, alloc_set_fresh]

/-- Writing behind the first `k` bytes that a pointer reaches. -/
theorem write_add {k : Nat} (hroom : k + bs.length ≤ (m.bytes p).length) :
    ∃ m', m.write (p.add k) bs = .ok m' ∧
      m'.bytes p = (m.bytes p).take k ++ bs ++ (m.bytes p).drop (k + bs.length) := by
  cases hbs : bs with
  | nil => exact ⟨m, rfl, by simp⟩
  | cons c cs =>
    rw [← hbs]
    have hpos : 0 < bs.length := by simp [hbs]
    cases p with
    | null =>
      rw [bytes_null, List.length_nil] at hroom
      omega
    | place b off =>
      rw [bytes_place, List.length_drop] at hroom
      have hb : b < m.length := lt_length_of_lt_block (show off < (m.block b).length by omega)
      have hfront : ((m.block b).take (off + k)).length = off + k := by
        rw [List.length_take]
        omega
      have hold : (((m.block b).drop (off + k)).take bs.length).length = bs.length := by
        rw [List.length_take, List.length_drop]
        omega
      have hblock : m.block b = (m.block b).take (off + k) ++ ((m.block b).drop (off + k)).take bs.length ++
          ((m.block b).drop (off + k)).drop bs.length := by
        rw [List.append_assoc, List.take_append_drop, List.take_append_drop]
      have hwrite := write_eq hblock hold
      rw [hfront] at hwrite
      refine ⟨_, hwrite, ?_⟩
      rw [bytes_place, bytes_place, block_set_same hb, List.append_assoc, List.drop_append_of_le_length (by omega),
        List.drop_take, Nat.add_sub_cancel_left, List.drop_drop, List.drop_drop, List.append_assoc, Nat.add_assoc]

end Blocks

end cmodel
