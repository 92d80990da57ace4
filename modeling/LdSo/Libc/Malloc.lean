import LdSo.System
import LdSo.Libc.Malloc.Index
import Mathlib.Logic.Function.Basic

open cmodel

/-! The trees of free chunks. Memory is accessed in words of eight bytes; the bins of
`_gm_` are in it, the other fields are kept apart. -/

namespace ldso.malloc

structure mstate where
  treemap : BitVec 32
  least_addr : elf_addr
  /-- The address of `_gm_` itself. -/
  gm : elf_addr
  /-- Which words may be accessed, and what they hold. -/
  mapped : elf_addr → Bool
  word : elf_addr → BitVec 64

section Fields

/-! The fields of a chunk and of a tree chunk. -/

def head (p : elf_addr) : elf_addr := p + 8#64

def fd (p : elf_addr) : elf_addr := p + 16#64

def bk (p : elf_addr) : elf_addr := p + 24#64

def child (p : elf_addr) (i : BitVec 64) : elf_addr := p + 32#64 + 8#64 * i

def parent (p : elf_addr) : elf_addr := p + 48#64

def index (p : elf_addr) : elf_addr := p + 56#64

end Fields

def PINUSE_BIT : BitVec 64 := 1

def CINUSE_BIT : BitVec 64 := 2

def FLAG4_BIT : BitVec 64 := 4

def FLAG_BITS : BitVec 64 := PINUSE_BIT ||| CINUSE_BIT ||| FLAG4_BIT

namespace mstate

def load (m : mstate) (a : elf_addr) : Outcome (BitVec 64) := if m.mapped a then .ok (m.word a) else .fault

/-- The state with a word changed. -/
def put (m : mstate) (a : elf_addr) (v : BitVec 64) : mstate := { m with word := Function.update m.word a v }

def store (m : mstate) (a : elf_addr) (v : BitVec 64) : Outcome mstate :=
  if m.mapped a then .ok (m.put a v) else .fault

def treebin_at (m : mstate) (i : Nat) : elf_addr := m.gm + 600#64 + 8#64 * BitVec.ofNat 64 i

def mark_treemap (m : mstate) (i : Nat) : mstate := { m with treemap := m.treemap ||| idx2bit i }

def clear_treemap (m : mstate) (i : Nat) : mstate := { m with treemap := m.treemap &&& ~~~idx2bit i }

def treemap_is_marked (m : mstate) (i : Nat) : Bool := m.treemap &&& idx2bit i ≠ 0#32

def ok_address (m : mstate) (a : elf_addr) : Bool := m.least_addr ≤ a

/-- The size in the `head` of a chunk. -/
def chunksize (m : mstate) (p : elf_addr) : Outcome (BitVec 64) := do return (← m.load (head p)) &&& ~~~FLAG_BITS

end mstate

/-- `ABORT`, which `malloc-internal.h` defines as `_exit(1)`. -/
def CORRUPTION_ERROR_ACTION {α : Type} : Outcome α := .exit 1

/-- Puts `X` where there is no tree chunk, at the link `C` of `T` or of the bin. -/
def insert_large_leaf (m : mstate) (X C T : elf_addr) : Outcome mstate := do
  let m ← m.store C X
  let m ← m.store (parent X) T
  let m ← m.store (bk X) X
  m.store (fd X) X

/-- Puts `X` behind a tree chunk of its size. -/
def insert_large_chain (m : mstate) (X T : elf_addr) : Outcome mstate := do
  let F ← m.load (fd T)
  if m.ok_address T && m.ok_address F then
    let m ← m.store (bk F) X
    let m ← m.store (fd T) X
    let m ← m.store (fd X) F
    let m ← m.store (bk X) T
    m.store (parent X) 0#64
  else CORRUPTION_ERROR_ACTION

/-- The loop of `insert_large_chunk` from the tree chunk `T` on. -/
def insert_large_loop (X : elf_addr) (S : BitVec 64) : Nat → mstate → elf_addr → BitVec 64 → Outcome mstate
  | 0, _, _, _ => .diverge
  | fuel + 1, m, T, K => do
    if (← m.chunksize T) ≠ S then
      let C := child T ((K >>> (SIZE_T_BITSIZE - 1)) &&& 1#64)
      let c ← m.load C
      if c ≠ 0#64 then insert_large_loop X S fuel m c (K <<< 1)
      else if m.ok_address C then insert_large_leaf m X C T
      else CORRUPTION_ERROR_ACTION
    else insert_large_chain m X T

def insert_large_chunk (fuel : Nat) (m : mstate) (X : elf_addr) (S : BitVec 64) : Outcome mstate := do
  let I := compute_tree_index S
  let H := m.treebin_at I
  let m ← m.store (index X) (BitVec.ofNat 64 I)
  let m ← m.store (child X 1#64) 0#64
  let m ← m.store (child X 0#64) 0#64
  if m.treemap_is_marked I then
    let T ← m.load H
    insert_large_loop X S fuel m T (S <<< leftshift_for_tree_index I)
  else insert_large_leaf (m.mark_treemap I) X H H

/-- The way down from the tree chunk `R`, to which `RP` points, to a leaf. -/
def rightmost_loop : Nat → mstate → elf_addr → elf_addr → Outcome (elf_addr × elf_addr)
  | 0, _, _, _ => .diverge
  | fuel + 1, m, RP, R => do
    let c ← m.load (child R 1#64)
    if c ≠ 0#64 then rightmost_loop fuel m (child R 1#64) c
    else
      let c ← m.load (child R 0#64)
      if c ≠ 0#64 then rightmost_loop fuel m (child R 0#64) c
      else return (RP, R)

/-- The chunk that takes the place of `X`, taken off its own place. -/
def unlink_replacement (fuel : Nat) (m : mstate) (X : elf_addr) : Outcome (mstate × elf_addr) := do
  let R ← m.load (bk X)
  if R ≠ X then
    let F ← m.load (fd X)
    if m.ok_address F then
      if (← m.load (bk F)) = X then
        if (← m.load (fd R)) = X then
          let m ← m.store (bk F) R
          let m ← m.store (fd R) F
          return (m, R)
        else CORRUPTION_ERROR_ACTION
      else CORRUPTION_ERROR_ACTION
    else CORRUPTION_ERROR_ACTION
  else
    let right ← m.load (child X 1#64)
    let left ← m.load (child X 0#64)
    let RP := if right ≠ 0#64 then child X 1#64 else child X 0#64
    let R := if right ≠ 0#64 then right else left
    if R ≠ 0#64 then
      let (RP, R) ← rightmost_loop fuel m RP R
      if m.ok_address RP then
        let m ← m.store RP 0#64
        return (m, R)
      else CORRUPTION_ERROR_ACTION
    else return (m, R)

/-- A child of `X` is made one of `R`, where there is one. -/
def relink_child (m : mstate) (X R : elf_addr) (i : BitVec 64) : Outcome mstate := do
  let C ← m.load (child X i)
  if C ≠ 0#64 then
    if m.ok_address C then
      let m ← m.store (child R i) C
      m.store (parent C) R
    else CORRUPTION_ERROR_ACTION
  else return m

/-- What pointed to `X` is made to point to `R`. -/
def relink_parent (m : mstate) (X XP R : elf_addr) : Outcome mstate := do
  let I ← m.load (index X)
  let H := m.treebin_at I.toNat
  if (← m.load H) = X then
    let m ← m.store H R
    if R = 0#64 then return m.clear_treemap I.toNat
    else return m
  else if m.ok_address XP then
    if (← m.load (child XP 0#64)) = X then m.store (child XP 0#64) R
    else m.store (child XP 1#64) R
  else CORRUPTION_ERROR_ACTION

/-- `R` gets the links of `X`. -/
def relink_replacement (m : mstate) (X XP R : elf_addr) : Outcome mstate := do
  if m.ok_address R then
    let m ← m.store (parent R) XP
    let m ← relink_child m X R 0#64
    relink_child m X R 1#64
  else CORRUPTION_ERROR_ACTION

def unlink_large_chunk (fuel : Nat) (m : mstate) (X : elf_addr) : Outcome mstate := do
  let XP ← m.load (parent X)
  let (m, R) ← unlink_replacement fuel m X
  if XP ≠ 0#64 then
    let m ← relink_parent m X XP R
    if R ≠ 0#64 then relink_replacement m X XP R
    else return m
  else return m

def leftmost_child (m : mstate) (t : elf_addr) : Outcome elf_addr := do
  let c ← m.load (child t 0#64)
  if c ≠ 0#64 then return c
  else m.load (child t 1#64)

/-- The first loop of `tmalloc_large`, which looks for a chunk of just `nb` bytes.
It leaves `t`, `v` and `rsize`. -/
def tmalloc_traverse (m : mstate) (nb : BitVec 64) :
    Nat → elf_addr → BitVec 64 → elf_addr → elf_addr → BitVec 64 → Outcome (elf_addr × elf_addr × BitVec 64)
  | 0, _, _, _, _, _ => .diverge
  | fuel + 1, t, sizebits, rst, v, rsize => do
    let trem := (← m.chunksize t) - nb
    let v := if trem < rsize then t else v
    let smaller := if trem < rsize then trem else rsize
    if trem < rsize ∧ trem = 0#64 then return (t, v, smaller)
    else
      let rt ← m.load (child t 1#64)
      let c ← m.load (child t ((sizebits >>> (SIZE_T_BITSIZE - 1)) &&& 1#64))
      let rst := if rt ≠ 0#64 ∧ rt ≠ c then rt else rst
      if c = 0#64 then return (rst, v, smaller)
      else tmalloc_traverse m nb fuel c (sizebits <<< 1) rst v smaller

/-- The last loop: the smallest chunk of a tree or subtree. -/
def tmalloc_smallest (m : mstate) (nb : BitVec 64) : Nat → elf_addr → elf_addr → BitVec 64 →
    Outcome (elf_addr × BitVec 64)
  | 0, _, _, _ => .diverge
  | fuel + 1, t, v, rsize => do
    if t ≠ 0#64 then
      let trem := (← m.chunksize t) - nb
      let v := if trem < rsize then t else v
      let rsize := if trem < rsize then trem else rsize
      let t ← leftmost_child m t
      tmalloc_smallest m nb fuel t v rsize
    else return (v, rsize)

/-- The root of the next bin above `idx` that has a tree. -/
def next_treebin (m : mstate) (idx : Nat) : Outcome elf_addr :=
  let leftbits := left_bits (idx2bit idx) &&& m.treemap
  if leftbits ≠ 0#32 then m.load (m.treebin_at (compute_bit2idx (least_bit leftbits)))
  else .ok 0#64

/-- What follows the first loop: where nothing was found, the next bin is looked at. -/
def tmalloc_least (fuel : Nat) (m : mstate) (nb : BitVec 64) (idx : Nat) (t v : elf_addr) (rsize : BitVec 64) :
    Outcome (elf_addr × BitVec 64) := do
  if t = 0#64 ∧ v = 0#64 then
    let t ← next_treebin m idx
    tmalloc_smallest m nb fuel t v rsize
  else tmalloc_smallest m nb fuel t v rsize

/-- What `tmalloc_large` finds before it splits it: the chunk, and what is left of it. -/
def tmalloc_large_find (fuel : Nat) (m : mstate) (nb : BitVec 64) : Outcome (elf_addr × BitVec 64) := do
  let t ← m.load (m.treebin_at (compute_tree_index nb))
  if t ≠ 0#64 then
    let sizebits := nb <<< leftshift_for_tree_index (compute_tree_index nb)
    let (t, v, rsize) ← tmalloc_traverse m nb fuel t sizebits 0#64 0#64 (-nb)
    tmalloc_least fuel m nb (compute_tree_index nb) t v rsize
  else tmalloc_least fuel m nb (compute_tree_index nb) 0#64 0#64 (-nb)

end ldso.malloc
