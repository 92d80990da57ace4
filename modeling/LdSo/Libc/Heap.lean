import LdSo.Lib.Blocks
import LdSo.System

open cmodel

/-! The allocator and the string functions on the bytes of memory, where what a
caller leaves unwritten is whatever was there before. -/

namespace ldso.heap

/-- What earlier use has left in the memory that `malloc` hands out: in the bytes
that are asked for, and in those of the block behind them. -/
structure Heap where
  prior : Nat → List Byte
  prior_length : ∀ n, (prior n).length = n
  slack : List Byte

/-- Blocks of exactly the size asked for: an access behind them is undefined. -/
def Heap.exact : Heap where
  prior := (List.replicate · 0#8)
  prior_length _ := List.length_replicate
  slack := []

def MAX_SIZE_T : BitVec 64 := ~~~0

def MIN_CHUNK_SIZE : BitVec 64 := 32

def MAX_REQUEST : BitVec 64 := -MIN_CHUNK_SIZE <<< 2

def malloc (sys : System) (heap : Heap) (bytes : BitVec 64) (m : Blocks) : Pointer × Blocks :=
  if MAX_REQUEST ≤ bytes ∨ sys.malloc bytes.toNat = false then (.null, m)
  else (m.fresh, m.alloc (heap.prior bytes.toNat ++ heap.slack))

/-- The loop of `memset` from byte `i` on, with the number of bytes to go. -/
def memset_loop (s : Pointer) (c : Byte) : Nat → Nat → Blocks → Outcome Blocks
  | _, 0, m => .ok m
  | i, n + 1, m => do
    let m ← m.store (s.add i) c
    memset_loop s c (i + 1) n m

def memset (s : Pointer) (c : Byte) (n : Nat) (m : Blocks) : Outcome (Pointer × Blocks) := do
  let m ← memset_loop s c 0 n m
  return (s, m)

/-- The loop of `memcpy` from byte `i` on, with the number of bytes to go. -/
def memcpy_loop (dest src : Pointer) : Nat → Nat → Blocks → Outcome Blocks
  | _, 0, m => .ok m
  | i, n + 1, m => do
    let m ← m.store (dest.add i) (← m.load (src.add i))
    memcpy_loop dest src (i + 1) n m

def memcpy (dest src : Pointer) (n : Nat) (m : Blocks) : Outcome (Pointer × Blocks) := do
  let m ← memcpy_loop dest src 0 n m
  return (dest, m)

/-- The bytes `calloc` asks `malloc` for; a product that overflows asks for more than it grants. -/
def calloc_request (n_elements elem_size : BitVec 64) : BitVec 64 :=
  if n_elements ≠ 0 then
    let req := n_elements * elem_size
    if (n_elements ||| elem_size) &&& ~~~0xffff ≠ 0 ∧ req / n_elements ≠ elem_size then MAX_SIZE_T else req
  else 0

/-- Only the bytes that were asked for are cleared. -/
def calloc (sys : System) (heap : Heap) (n_elements elem_size : BitVec 64) (m : Blocks) :
    Outcome (Pointer × Blocks) :=
  let req := calloc_request n_elements elem_size
  match malloc sys heap req m with
  | (.null, m) => .ok (.null, m)
  | (mem, m) => memset mem 0 req.toNat m

/-- The loop of `strlen`; the fuel bounds the bytes it looks at. -/
def strlen_loop (m : Blocks) : Nat → Pointer → Nat → Outcome Nat
  | 0, _, _ => .diverge
  | fuel + 1, s, n => do
    if (← m.load s) ≠ 0#8 then strlen_loop m fuel (s.add 1) (n + 1) else return n

/-- A string is shorter than the address space, so its length is the `size_t`. -/
def strlen (m : Blocks) (s : Pointer) : Outcome Nat := strlen_loop m ((m.bytes s).length + 1) s 0

/-- The loop of `strcat`; the fuel bounds the bytes it copies. -/
def strcat_loop : Nat → Pointer → Pointer → Blocks → Outcome Blocks
  | 0, _, _, _ => .diverge
  | fuel + 1, res, src, m => do
    if (← m.load src) ≠ 0#8 then do
      let m ← m.store res (← m.load src)
      strcat_loop fuel (res.add 1) (src.add 1) m
    else return m

/-- The terminator of `src` is not copied. -/
def strcat (dest src : Pointer) (m : Blocks) : Outcome (Pointer × Blocks) := do
  let res := dest.add (← strlen m dest)
  let m ← strcat_loop ((m.bytes res).length + 1) res src m
  return (dest, m)

variable {sys : System} {heap : Heap} {m : Blocks}

theorem memset_loop_eq (s : Pointer) (c : Byte) (i n : Nat) (m : Blocks) :
    memset_loop s c i n m = m.write (s.add i) (List.replicate n c) := by
  induction n generalizing i m with
  | zero => rfl
  | succ n ih =>
    rw [memset_loop, List.replicate_succ, Blocks.write, Pointer.add_add]
    simp only [ih]

/-- The loop writes what stands at `src`, as long as it does not write over it. -/
theorem memcpy_loop_eq {dest src : Pointer} {i : Nat} {bs : List Byte} (hsrc : m.Holds (src.add i) bs)
    (hapart : (src.add i).Apart bs.length (dest.add i) bs.length) :
    memcpy_loop dest src i bs.length m = m.write (dest.add i) bs := by
  induction bs generalizing i m with
  | nil => rfl
  | cons c bs ih =>
    obtain ⟨hload, hrest⟩ := Blocks.holds_cons_iff.mp hsrc
    have hbehind := hapart.add_left
    have htail := hbehind.add_right
    rw [List.length_cons, memcpy_loop, hload, Outcome.ok_bind]
    apply Blocks.store_bind_eq_write hrest (hbehind.mono (Nat.le_refl _) (by simp))
    intro m' hrest'
    rw [Pointer.add_add] at hrest' htail ⊢
    rw [Pointer.add_add] at htail
    exact ih hrest' htail

private theorem and_eq_self {w : Nat} {x y : BitVec w} (h : x &&& ~~~y = 0#w) : x &&& y = x := by
  apply BitVec.eq_of_getLsbD_eq
  intro i hi
  have hbit := congrArg (fun z => z.getLsbD i) h
  simp only [BitVec.getLsbD_and, BitVec.getLsbD_not, hi, decide_true, Bool.true_and, BitVec.getLsbD_zero] at hbit ⊢
  cases hx : x.getLsbD i <;> simp_all

private theorem lt_of_and_mask {x : BitVec 64} (h : x &&& ~~~0xffff = 0) : x.toNat < 2 ^ 16 := by
  rw [← and_eq_self h, BitVec.toNat_and]
  exact Nat.lt_of_le_of_lt Nat.and_le_right (by decide)

/-- What is asked for is the product, or more than is ever granted when that overflows. -/
theorem calloc_request_toNat (n_elements elem_size : BitVec 64) : (calloc_request n_elements elem_size).toNat =
    if n_elements.toNat * elem_size.toNat < 2 ^ 64 then n_elements.toNat * elem_size.toNat else 2 ^ 64 - 1 := by
  unfold calloc_request
  by_cases hzero : n_elements = 0
  · simp [hzero]
  · have hpos : 0 < n_elements.toNat := by
      rw [Nat.pos_iff_ne_zero]
      exact fun h => hzero (BitVec.eq_of_toNat_eq h)
    rw [if_pos hzero]
    simp only
    by_cases hfits : n_elements.toNat * elem_size.toNat < 2 ^ 64
    · have hproduct : (n_elements * elem_size).toNat = n_elements.toNat * elem_size.toNat := by
        rw [BitVec.toNat_mul, Nat.mod_eq_of_lt hfits]
      have hquotient : n_elements * elem_size / n_elements = elem_size := by
        apply BitVec.eq_of_toNat_eq
        rw [BitVec.toNat_udiv, hproduct, Nat.mul_div_cancel_left _ hpos]
      rw [if_neg (fun h => h.2 hquotient), if_pos hfits, hproduct]
    · have hlarge : (n_elements ||| elem_size) &&& ~~~0xffff ≠ 0 := by
        intro hsmall
        have hor := lt_of_and_mask hsmall
        rw [BitVec.toNat_or] at hor
        have hproduct : n_elements.toNat * elem_size.toNat < 2 ^ 16 * 2 ^ 16 :=
          Nat.mul_lt_mul'' (Nat.lt_of_le_of_lt Nat.left_le_or hor) (Nat.lt_of_le_of_lt Nat.right_le_or hor)
        omega
      have hquotient : n_elements * elem_size / n_elements ≠ elem_size := by
        intro hequal
        have hdiv := congrArg BitVec.toNat hequal
        rw [BitVec.toNat_udiv] at hdiv
        have hle : n_elements.toNat * elem_size.toNat ≤ (n_elements * elem_size).toNat := by
          rw [← hdiv]
          exact Nat.mul_div_le _ _
        have hlt := (n_elements * elem_size).isLt
        omega
      rw [if_pos ⟨hlarge, hquotient⟩, if_neg hfits]
      rfl

/-- The requests that `malloc` serves. -/
def Granted (sys : System) (bytes : Nat) : Prop := bytes < MAX_REQUEST.toNat ∧ sys.malloc bytes = true

instance (sys : System) (bytes : Nat) : Decidable (Granted sys bytes) := inferInstanceAs (Decidable (_ ∧ _))

theorem malloc_eq (sys : System) (heap : Heap) (bytes : BitVec 64) (m : Blocks) : malloc sys heap bytes m =
    if Granted sys bytes.toNat then (m.fresh, m.alloc (heap.prior bytes.toNat ++ heap.slack)) else (.null, m) := by
  have hrefused : (MAX_REQUEST ≤ bytes ∨ sys.malloc bytes.toNat = false) ↔ ¬ Granted sys bytes.toNat := by
    rw [Granted, not_and_or, Nat.not_lt, BitVec.le_def, Bool.not_eq_true]
  unfold malloc
  by_cases hgranted : Granted sys bytes.toNat
  · rw [if_pos hgranted, if_neg fun h => hrefused.mp h hgranted]
  · rw [if_neg hgranted, if_pos (hrefused.mpr hgranted)]

/-- An overflowing product is refused. -/
theorem calloc_request_of_granted {n_elements elem_size : BitVec 64}
    (h : Granted sys (calloc_request n_elements elem_size).toNat ∨ Granted sys (n_elements.toNat * elem_size.toNat)) :
    (calloc_request n_elements elem_size).toNat = n_elements.toNat * elem_size.toNat := by
  have hmax : MAX_REQUEST.toNat = 2 ^ 64 - 128 := rfl
  rw [calloc_request_toNat]
  apply if_pos
  by_contra hover
  obtain ⟨hlt, -⟩ | ⟨hlt, -⟩ := h
  · rw [calloc_request_toNat, if_neg hover] at hlt
    omega
  · omega

/-- The new block begins with the bytes asked for, which are zero. -/
theorem calloc_eq (sys : System) (heap : Heap) (n_elements elem_size : BitVec 64) (m : Blocks) :
    calloc sys heap n_elements elem_size m =
      if Granted sys (n_elements.toNat * elem_size.toNat) then
        .ok (m.fresh, m.alloc (List.replicate (n_elements.toNat * elem_size.toNat) 0#8 ++ heap.slack))
      else .ok (.null, m) := by
  unfold calloc
  by_cases hgranted : Granted sys (n_elements.toNat * elem_size.toNat)
  · have hrequest := calloc_request_of_granted (.inr hgranted)
    have hlength : (heap.prior (n_elements.toNat * elem_size.toNat)).length =
        (List.replicate (n_elements.toNat * elem_size.toNat) 0#8).length := by
      rw [heap.prior_length, List.length_replicate]
    have hwrite := Blocks.write_fresh m [] heap.slack hlength
    rw [List.nil_append, List.nil_append, List.length_nil] at hwrite
    simp only [malloc_eq, hrequest, if_pos hgranted]
    change memset m.fresh 0#8 _ (m.alloc _) = _
    rw [memset, memset_loop_eq, hwrite]
    rfl
  · have hrefused : ¬ Granted sys (calloc_request n_elements elem_size).toNat := by
      intro h
      rw [calloc_request_of_granted (.inl h)] at h
      exact hgranted h
    simp only [malloc_eq, if_neg hrefused, if_neg hgranted]

/-- The scan ends at the first NUL, or behind the block when there is none. -/
theorem strlen_loop_eq {s : Pointer} {n fuel : Nat} (hfuel : (m.bytes s).length < fuel) : strlen_loop m fuel s n =
    if 0#8 ∈ m.bytes s then .ok (n + ((m.bytes s).takeWhile (· ≠ 0#8)).length) else .fault := by
  generalize hbs : m.bytes s = bs at hfuel
  induction bs generalizing s n fuel with
  | nil =>
    cases fuel with
    | zero => omega
    | succ fuel =>
      rw [strlen_loop, Blocks.load, hbs]
      rfl
  | cons c bs ih =>
    cases fuel with
    | zero => omega
    | succ fuel =>
      have hload : m.load s = .ok c := by rw [Blocks.load, hbs]; rfl
      have hrest : m.bytes (s.add 1) = bs := by rw [Blocks.bytes_add, hbs]; rfl
      rw [strlen_loop, hload, Outcome.ok_bind]
      by_cases hc : c = 0#8
      · simp [hc]
      · rw [if_pos hc, ih hrest (by simpa using hfuel), List.takeWhile_cons_of_pos (by simpa using hc)]
        simp only [List.mem_cons, Ne.symm hc, false_or, List.length_cons, Nat.add_assoc, Nat.add_comm 1]

theorem strlen_eq (m : Blocks) (s : Pointer) : strlen m s = m.string s >>= fun text => .ok text.chars.length := by
  rw [strlen, strlen_loop_eq (Nat.lt_succ_self _)]
  unfold Blocks.string CString.read
  simp only [List.drop_zero, Nat.zero_add]
  split <;> rfl

theorem strlen_of_holds {s : Pointer} {text : CString} (h : m.Holds s text.bytes) : strlen m s = .ok text.chars.length := by
  rw [strlen_eq, Blocks.string_eq_ok_iff.mpr h, Outcome.ok_bind]

/-- The loop writes the string at `src` without its terminator, as long as it does
not write over it. -/
theorem strcat_loop_eq {fuel : Nat} {res src : Pointer} {text : CString} (hsrc : m.Holds src text.bytes)
    (hapart : src.Apart text.bytes.length res text.chars.length) (hfuel : text.chars.length < fuel) :
    strcat_loop fuel res src m = m.write res text.chars := by
  obtain ⟨chars, hnonul⟩ := text
  simp only [CString.bytes] at hsrc hapart hfuel ⊢
  induction chars generalizing fuel res src m with
  | nil =>
    cases fuel with
    | zero => omega
    | succ fuel =>
      rw [strcat_loop, (Blocks.holds_cons_iff.mp hsrc).1]
      rfl
  | cons c chars ih =>
    cases fuel with
    | zero => omega
    | succ fuel =>
      have hc : c ≠ 0#8 := fun h => hnonul (by simp [h])
      obtain ⟨hload, hrest⟩ := Blocks.holds_cons_iff.mp hsrc
      have hbehind := hapart.add_left
      rw [strcat_loop, hload, Outcome.ok_bind, if_pos hc, Outcome.ok_bind]
      apply Blocks.store_bind_eq_write hrest (hbehind.mono (Nat.le_refl _) (by simp))
      intro m' hrest'
      exact ih (fun h => hnonul (List.mem_cons_of_mem c h)) hrest' hbehind.add_right (by simpa using hfuel)

/-- Each round leaves one byte less room, so the loop ends, by a fault if not by a terminator. -/
theorem strcat_loop_ne_diverge {fuel : Nat} {res src : Pointer} (hfuel : (m.bytes res).length < fuel) :
    strcat_loop fuel res src m ≠ .diverge := by
  induction fuel generalizing res src m with
  | zero => omega
  | succ fuel ih =>
    rw [strcat_loop, Blocks.load]
    cases (m.bytes src).head? with
    | none => simp
    | some c =>
      rw [Outcome.ofOption_some, Outcome.ok_bind, Outcome.ok_bind]
      split
      · obtain ⟨m', hstore, hroom⟩ | hfault := m.store_ok_or_fault res c
        · have hlength := (Blocks.Stored.of_store hstore).bytes_length (res.add 1)
          rw [Blocks.bytes_add m, List.length_drop] at hlength
          rw [hstore, Outcome.ok_bind]
          exact ih (by omega)
        · simp [hfault]
      · simp

/-- `strcat` comes to an end, whatever its arguments point to. -/
theorem strcat_ne_diverge (dest src : Pointer) (m : Blocks) : strcat dest src m ≠ .diverge := by
  rw [strcat, strlen, strlen_loop_eq (Nat.lt_succ_self _)]
  split
  · intro hdiverge
    exact strcat_loop_ne_diverge (Nat.lt_succ_self _) (Outcome.bind_ok_eq_diverge_iff.mp hdiverge)
  · simp

theorem memcpy_loop_stored {dest src : Pointer} {i n : Nat} {m' : Blocks} (h : memcpy_loop dest src i n m = .ok m') :
    m.Stored m' := by
  induction n generalizing i m with
  | zero =>
    cases h
    exact .refl _
  | succ n ih =>
    rw [memcpy_loop] at h
    obtain ⟨c, -, h⟩ := Outcome.bind_eq_ok_iff.mp h
    obtain ⟨m₁, hstore, h⟩ := Outcome.bind_eq_ok_iff.mp h
    exact (Blocks.Stored.of_store hstore).trans (ih h)

theorem strcat_loop_stored {fuel : Nat} {res src : Pointer} {m' : Blocks} (h : strcat_loop fuel res src m = .ok m') :
    m.Stored m' := by
  induction fuel generalizing res src m with
  | zero => cases h
  | succ fuel ih =>
    rw [strcat_loop] at h
    obtain ⟨c, -, h⟩ := Outcome.bind_eq_ok_iff.mp h
    split at h
    · obtain ⟨c', -, h⟩ := Outcome.bind_eq_ok_iff.mp h
      obtain ⟨m₁, hstore, h⟩ := Outcome.bind_eq_ok_iff.mp h
      exact (Blocks.Stored.of_store hstore).trans (ih h)
    · cases h
      exact .refl _

/-- `memcpy` and `strcat` only store, and return where they stored. -/
theorem memcpy_eq_ok {dest src ret : Pointer} {n : Nat} {m' : Blocks} (h : memcpy dest src n m = .ok (ret, m')) :
    ret = dest ∧ m.Stored m' := by
  obtain ⟨m₁, hloop, heq⟩ := Outcome.bind_eq_ok_iff.mp h
  cases heq
  exact ⟨rfl, memcpy_loop_stored hloop⟩

theorem strcat_eq_ok {dest src ret : Pointer} {m' : Blocks} (h : strcat dest src m = .ok (ret, m')) :
    ret = dest ∧ m.Stored m' := by
  rw [strcat] at h
  obtain ⟨n, -, h⟩ := Outcome.bind_eq_ok_iff.mp h
  obtain ⟨m₁, hloop, heq⟩ := Outcome.bind_eq_ok_iff.mp h
  cases heq
  exact ⟨rfl, strcat_loop_stored hloop⟩

/-- Copying the characters of a string into the block that was allocated for it. -/
theorem memcpy_fresh {src : Pointer} {text : CString} {old rest : List Byte} (hsrc : m.Holds src text.bytes)
    (hlen : old.length = text.chars.length) : memcpy m.fresh src text.chars.length (m.alloc (old ++ rest)) =
      .ok (m.fresh, m.alloc (text.chars ++ rest)) := by
  have hchars : (m.alloc (old ++ rest)).Holds (src.add 0) text.chars := by
    rw [Pointer.add_zero]
    exact (List.prefix_append _ _).trans (hsrc.alloc _)
  have hapart : (src.add 0).Apart text.chars.length (m.fresh.add 0) text.chars.length := by
    rw [Pointer.add_zero]
    exact hsrc.apart_fresh (by simp [CString.bytes]) _ _ _
  have hwrite := Blocks.write_fresh m [] rest hlen
  rw [List.nil_append, List.nil_append, List.length_nil] at hwrite
  rw [memcpy, memcpy_loop_eq hchars hapart, hwrite]
  rfl

/-- `strcat` writes the characters of `src` over the terminator of `dest` and what
is behind it. -/
theorem strcat_eq {dest src : Pointer} {front text : CString} (hdest : m.Holds dest front.bytes)
    (hsrc : m.Holds src text.bytes) (hroom : front.chars.length + text.chars.length < (m.bytes dest).length)
    (hapart : src.Apart text.bytes.length (dest.add front.chars.length) text.chars.length) :
    strcat dest src m = m.write (dest.add front.chars.length) text.chars >>= fun m' => .ok (dest, m') := by
  have hfuel : text.chars.length < (m.bytes (dest.add front.chars.length)).length + 1 := by
    rw [Blocks.bytes_add, List.length_drop]
    omega
  have hloop := strcat_loop_eq hsrc hapart hfuel
  rw [strcat, strlen_of_holds hdest, Outcome.ok_bind]
  simp only [hloop]
  rfl

/-- A string with zero bytes behind it in a block that was just allocated. -/
theorem holds_zeros {k : Nat} (hk : 0 < k) (m : Blocks) (text : CString) (rest : List Byte) :
    (m.alloc (text.chars ++ List.replicate k 0#8 ++ rest)).Holds m.fresh text.bytes :=
  ((text.bytes_prefix_zeros hk).trans (List.prefix_append _ rest)).trans (m.holds_alloc_fresh _)

/-- Appending inside a block that was just allocated and is zero behind the string. -/
theorem strcat_fresh {src : Pointer} {text : CString} {k : Nat} (hsrc : m.Holds src text.bytes) (hk : 0 < k)
    (front : CString) (rest : List Byte) :
    strcat m.fresh src (m.alloc (front.chars ++ List.replicate (text.chars.length + k) 0#8 ++ rest)) =
      .ok (m.fresh, m.alloc ((front.append text).chars ++ List.replicate k 0#8 ++ rest)) := by
  have hdest := holds_zeros (Nat.add_pos_right text.chars.length hk) m front rest
  have hroom : front.chars.length + text.chars.length < ((m.alloc (front.chars ++
      List.replicate (text.chars.length + k) 0#8 ++ rest)).bytes m.fresh).length := by
    rw [Blocks.bytes_alloc_fresh, List.length_append, List.length_append, List.length_replicate]
    omega
  have hlength : (List.replicate text.chars.length 0#8).length = text.chars.length := List.length_replicate
  have hwrite := Blocks.write_fresh m front.chars (List.replicate k 0#8 ++ rest) hlength
  rw [strcat_eq hdest (hsrc.alloc _) hroom (hsrc.apart_fresh (by simp [CString.bytes]) _ _ _)]
  rw [← List.replicate_append_replicate, ← List.append_assoc front.chars, List.append_assoc _ _ rest, hwrite,
    Outcome.ok_bind, CString.append_chars, List.append_assoc _ _ rest]

/-- The run returned a new block whose requested bytes begin with the string and its
terminator, and left the rest of memory as it was. -/
def Returns (heap : Heap) (m : Blocks) (text : CString) (run : Outcome (Pointer × Blocks)) : Prop :=
  ∃ requested, run = .ok (m.fresh, m.alloc (requested ++ heap.slack)) ∧ text.bytes <+: requested

/-- What was returned reads as the string, whatever is in the slack behind it. -/
theorem Returns.string_eq {text : CString} {run : Outcome (Pointer × Blocks)} (h : Returns heap m text run) :
    run >>= (fun r => r.2.string r.1) = .ok text := by
  obtain ⟨requested, hrun, hbytes⟩ := h
  rw [hrun, Outcome.ok_bind, Blocks.string_eq_ok_iff, Blocks.Holds, Blocks.bytes_alloc_fresh]
  exact hbytes.trans (List.prefix_append _ _)

/-- Stores leave the requested bytes as many as they were. -/
theorem requested_length {requested : List Byte} {n : Nat}
    (h : (m.alloc (List.replicate n 0#8 ++ heap.slack)).Stored (m.alloc (requested ++ heap.slack))) : requested.length = n := by
  have hlength := h.bytes_length m.fresh
  rw [Blocks.bytes_alloc_fresh, Blocks.bytes_alloc_fresh, List.length_append, List.length_append,
    List.length_replicate] at hlength
  omega

end ldso.heap
