import LdSo.Lib.Memory.Frame

namespace cmodel

variable {n : Nat}

/-- The bytes an address space has, whatever they may be used for. -/
def Memory.values (m : Memory n) (x : BitVec n) : Option Byte := (m x).map Cell.val

section Values

variable {m : Memory n} {r : Region n} {prot : Prot} {a x : BitVec n} {bs : List Byte}

@[simp] theorem Memory.values_mprotect : (m.mprotect r prot).values = m.values := by
  funext x
  unfold values mprotect
  split
  · cases m x <;> rfl
  · rfl

theorem Memory.values_mmap : (m.mmap r prot).values x = if r.Contains x then some 0 else m.values x := by
  unfold values mmap
  split <;> rfl

theorem Memory.values_put :
    (m.put a bs).values x = (m.values x).map fun b => bs[(x - a).toNat]?.getD b := by
  unfold values
  by_cases hin : (⟨a, bs.length⟩ : Region n).Contains x
  · rw [put_of_contains hin, List.getElem?_eq_getElem hin]
    cases m x <;> rfl
  · rw [put_of_not_contains hin, List.getElem?_eq_none (Nat.le_of_not_lt hin)]
    cases m x <;> rfl

end Values

/-- Bytes for the addresses of a range. -/
structure Layer (n : Nat) where
  region : Region n
  byte : BitVec n → Byte

namespace Layer

variable {f : BitVec n → Option Byte} {l : Layer n} {ls ls' : List (Layer n)} {x : BitVec n}

/-- Zeros. -/
def zero (r : Region n) : Layer n := ⟨r, fun _ => 0⟩

/-- These bytes, from `a` on. -/
def ofBytes (a : BitVec n) (bs : List Byte) : Layer n := ⟨⟨a, bs.length⟩, fun x => bs[(x - a).toNat]?.getD 0⟩

/-- What an address space has with the layer over it. -/
def onto (l : Layer n) (f : BitVec n → Option Byte) : BitVec n → Option Byte := fun x =>
  if l.region.Contains x then some (l.byte x) else f x

/-- Layers one over the other; the last one is on top. -/
def stack (ls : List (Layer n)) (f : BitVec n → Option Byte) : BitVec n → Option Byte :=
  ls.foldl (fun f l => l.onto f) f

@[simp] theorem stack_nil (f : BitVec n → Option Byte) : stack [] f = f := rfl

@[simp] theorem stack_cons (l : Layer n) (ls : List (Layer n)) (f : BitVec n → Option Byte) :
    stack (l :: ls) f = stack ls (l.onto f) := rfl

theorem stack_append (ls ls' : List (Layer n)) (f : BitVec n → Option Byte) :
    stack (ls ++ ls') f = stack ls' (stack ls f) := List.foldl_append

/-- Where no layer lies, everything is as before. -/
theorem stack_of_not_contains (h : ∀ l ∈ ls, ¬ l.region.Contains x) : stack ls f x = f x := by
  induction ls generalizing f with
  | nil => rfl
  | cons l ls ih =>
    obtain ⟨hl, hls⟩ := List.forall_mem_cons.mp h
    rw [stack_cons, ih hls, onto, if_neg hl]

/-- A layer shows where none of those over it lies. -/
theorem stack_of_contains (hx : l.region.Contains x) (hover : ∀ l' ∈ ls', ¬ l'.region.Contains x) :
    stack (ls ++ l :: ls') f x = some (l.byte x) := by
  rw [stack_append, stack_cons, stack_of_not_contains hover, onto, if_pos hx]

/-- Mapping a range puts zeros over it. -/
theorem values_mmap {m : Memory n} {r : Region n} {prot : Prot} : (m.mmap r prot).values = (zero r).onto m.values := by
  funext x
  exact Memory.values_mmap

/-- Writing where memory is mapped puts the bytes over it. -/
theorem values_put {m : Memory n} {a : BitVec n} {bs : List Byte}
    (h : ∀ x, (⟨a, bs.length⟩ : Region n).Contains x → (m x).isSome = true) :
    (m.put a bs).values = (ofBytes a bs).onto m.values := by
  funext x
  rw [Memory.values_put, onto]
  by_cases hx : (⟨a, bs.length⟩ : Region n).Contains x
  · obtain ⟨c, hc⟩ := Option.isSome_iff_exists.mp (h x hx)
    have hget : bs[(x - a).toNat]? = some bs[(x - a).toNat] := List.getElem?_eq_getElem hx
    rw [if_pos (show (ofBytes a bs).region.Contains x from hx), Memory.values, hc]
    simp only [Option.map_some, ofBytes, hget, Option.getD_some]
  · rw [if_neg (show ¬ (ofBytes a bs).region.Contains x from hx), List.getElem?_eq_none (Nat.le_of_not_lt hx)]
    cases m.values x <;> rfl

end Layer

end cmodel
