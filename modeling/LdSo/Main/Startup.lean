import LdSo.Main
import LdSo.Lib.X86.Stack

open cmodel x86

namespace ldso.startup

open elf

/-- What the kernel gives a new program: argument and environment pointers and the
auxiliary vector. The value of its AT_NULL entry is not used. -/
structure InitialStack where
  argv : List elf_addr
  envp : List elf_addr
  auxv : List Auxv
  null_val : BitVec 64
  argc_lt : argv.length < 2 ^ 31
  envp_ne : ∀ p ∈ envp, p ≠ 0#64
  auxv_ne : ∀ entry ∈ auxv, entry.a_type ≠ AT_NULL.setWidth 64

namespace InitialStack

/-- The vector with its terminator. -/
def vector (s : InitialStack) : List Auxv := s.auxv ++ [⟨AT_NULL.setWidth 64, s.null_val⟩]

def auxv_words (auxv : List Auxv) : List (BitVec 64) := auxv.flatMap fun entry => [entry.a_type, entry.a_val]

/-- The words from the stack pointer on. -/
def words (s : InitialStack) : List (BitVec 64) :=
  BitVec.ofNat 64 s.argv.length :: (s.argv ++ 0#64 :: (s.envp ++ 0#64 :: auxv_words s.vector))

end InitialStack

/-- `_start` of `ldso_start.S`. -/
def ldso_start (_DYNAMIC ldso_main next : elf_addr) : List Instr :=
  [.zero .rbp, .mov .rdi .rsp, .lea_rip .rsi _DYNAMIC, .call ldso_main next]

/-- The first lines of `ldso_main`: `argc`, `argv` and `envp`. -/
def ldso_main_args (m : Memory 64) (stack : elf_addr) : Outcome (BitVec 32 × elf_addr × elf_addr) := do
  let argc := (← m.loadWord 64 stack).setWidth 32
  let argv := stack + 8#64
  let envp := argv + 8#64 * argc.signExtend 64 + 8#64
  return (argc, argv, envp)

/-- The loop over `envp`. -/
def find_auxv_loop (m : Memory 64) : Nat → elf_addr → Outcome elf_addr
  | 0, _ => .diverge
  | fuel + 1, envp => do
    if (← m.loadWord 64 envp) ≠ 0#64 then find_auxv_loop m fuel (envp + 8#64) else return envp + 8#64

def find_auxv (m : Memory 64) (envp : elf_addr) : Outcome elf_addr := find_auxv_loop m (2 ^ 64) envp

/-- The loop of `get_auxv_entry` over the vector in memory. -/
def get_auxv_entry_loop (m : Memory 64) (type : BitVec 32) : Nat → elf_addr → Outcome (Option elf_addr)
  | 0, _ => .diverge
  | fuel + 1, auxv => do
    let a_type ← m.loadWord 64 auxv
    if a_type = AT_NULL.setWidth 64 then return none
    else if a_type = type.setWidth 64 then return some auxv
    else get_auxv_entry_loop m type fuel (auxv + 16#64)

def get_auxv_entry (m : Memory 64) (auxv : elf_addr) (type : BitVec 32) : Outcome (Option elf_addr) :=
  get_auxv_entry_loop m type (2 ^ 64) auxv

/-- The registers are those that the compiler chose for the operands. -/
def jmp_to_usercode (entry stack : Reg) : List Instr := [.mov .rsp stack, .push entry, .ret]

/-- `_start` of `crt0.S`. -/
def crt0_start (__libc_csu_fini __libc_csu_init main __libc_start_main next : elf_addr) : List Instr :=
  [.zero .rbp, .mov .r9 .rdx, .pop .rsi, .mov .rdx .rsp, .and .rsp 0xfffffffffffffff0#64, .push .rax, .push .rsp,
    .lea_rip .r8 __libc_csu_fini, .lea_rip .rcx __libc_csu_init, .lea_rip .rdi main, .call __libc_start_main next]

/-- What `__libc_start_main` calls `main` with. -/
def __libc_start_main (argc : BitVec 32) (argv : elf_addr) : BitVec 32 × elf_addr × elf_addr :=
  let envp := argv + 8#64 * argc.signExtend 64 + 8#64
  (argc, argv, envp)

section Loops

variable {m : Memory 64} {p : elf_addr} {fuel : Nat}

theorem find_auxv_loop_eq {xs rest : List elf_addr} (h : m.Loads p (xs ++ 0#64 :: rest)) (hne : ∀ x ∈ xs, x ≠ 0#64)
    (hfuel : xs.length < fuel) : find_auxv_loop m fuel p = .ok (p + BitVec.ofNat 64 (8 * (xs.length + 1))) := by
  induction xs generalizing p fuel with
  | nil =>
    cases fuel with
    | zero => omega
    | succ fuel =>
      rw [find_auxv_loop, h.head]
      rfl
  | cons x xs ih =>
    cases fuel with
    | zero => omega
    | succ fuel =>
      rw [find_auxv_loop, h.head, Outcome.ok_bind, if_pos (hne x (by simp))]
      have htail : m.Loads (p + 8#64) (xs ++ 0#64 :: rest) := h.tail
      rw [ih htail (fun y hy => hne y (by simp [hy])) (by simpa using hfuel), List.length_cons,
        show 8 * (xs.length + 1 + 1) = 8 + 8 * (xs.length + 1) by ring, ← Memory.add_ofNat_add]

/-- In memory the vector is searched as the list of its entries is. -/
theorem get_auxv_entry_loop_eq {type : BitVec 32} {entries : List Auxv} {null : Auxv}
    (h : m.Loads p (InitialStack.auxv_words (entries ++ [null]))) (hnull : null.a_type = AT_NULL.setWidth 64)
    (hfuel : entries.length < fuel) :
    get_auxv_entry_loop m type fuel p = do
      let found ← ldso.get_auxv_entry type p (entries ++ [null])
      return found.map Prod.fst := by
  induction entries generalizing p fuel with
  | nil =>
    cases fuel with
    | zero => omega
    | succ fuel =>
      have hread : m.loadWord 64 p = .ok null.a_type := h.head
      rw [get_auxv_entry_loop, hread, Outcome.ok_bind, if_pos hnull, List.nil_append, ldso.get_auxv_entry, if_pos hnull]
      rfl
  | cons entry entries ih =>
    cases fuel with
    | zero => omega
    | succ fuel =>
      have hread : m.loadWord 64 p = .ok entry.a_type := h.head
      have hnext : m.Loads (p + 16#64) (InitialStack.auxv_words (entries ++ [null])) := by
        have htail : m.Loads (p + 8#64 + 8#64) (InitialStack.auxv_words (entries ++ [null])) := h.tail.tail
        rwa [BitVec.add_assoc] at htail
      rw [get_auxv_entry_loop, hread, Outcome.ok_bind, List.cons_append, ldso.get_auxv_entry]
      split
      · rfl
      · split
        · rfl
        · exact ih hnext (by simpa using hfuel)

/-- The search of the list finds the first entry of the type. -/
theorem get_auxv_entry_list {type : BitVec 32} {entries : List Auxv} {null : Auxv}
    (hne : ∀ entry ∈ entries, entry.a_type ≠ AT_NULL.setWidth 64) (hnull : null.a_type = AT_NULL.setWidth 64) :
    (do let found ← ldso.get_auxv_entry type p (entries ++ [null]); return found.map Prod.fst) =
      .ok ((entries.findIdx? (·.a_type = type.setWidth 64)).map fun i => p + BitVec.ofNat 64 (16 * i)) := by
  induction entries generalizing p with
  | nil =>
    rw [List.nil_append, ldso.get_auxv_entry, if_pos hnull]
    rfl
  | cons entry entries ih =>
    rw [List.cons_append, ldso.get_auxv_entry, if_neg (hne entry (by simp)), List.findIdx?_cons]
    by_cases htype : entry.a_type = type.setWidth 64
    · simp [htype]
    · have haddr : ∀ i, p + 16#64 + BitVec.ofNat 64 (16 * i) = p + BitVec.ofNat 64 (16 * (i + 1)) := by
        intro i
        rw [show 16 * (i + 1) = 16 + 16 * i by ring, ← Memory.add_ofNat_add]
      rw [if_neg htype, ih fun e he => hne e (by simp [he])]
      simp [htype, Option.map_map, Function.comp_def, haddr]

end Loops

/-- The process as the kernel starts it, with the initial stack on top of some words
that are free. -/
structure LaidOut (st : State) (base : elf_addr) (low : List (BitVec 64)) (s : InitialStack) : Prop where
  stack : Stack st base low s.words
  room : 3 ≤ low.length
  aligned : (st.reg .rsp).toNat % 16 = 0

/-- `argc`, `argv` and `envp` are those of the initial stack. -/
structure Decodes (m : Memory 64) (argc : BitVec 32) (argv envp : elf_addr) (s : InitialStack) : Prop where
  argc : argc.toInt = s.argv.length
  argv : m.Loads argv (s.argv ++ [0#64])
  envp : m.Loads envp (s.envp ++ [0#64])

section Decode

variable {m : Memory 64} {stack : elf_addr} {s : InitialStack}

/-- The places of the three arrays. -/
def InitialStack.argv_at (_ : InitialStack) (stack : elf_addr) : elf_addr := stack + 8#64

def InitialStack.envp_at (s : InitialStack) (stack : elf_addr) : elf_addr :=
  s.argv_at stack + BitVec.ofNat 64 (8 * (s.argv.length + 1))

def InitialStack.auxv_at (s : InitialStack) (stack : elf_addr) : elf_addr :=
  s.envp_at stack + BitVec.ofNat 64 (8 * (s.envp.length + 1))

theorem loads_arrays (h : m.Loads stack s.words) : m.Loads (s.argv_at stack) (s.argv ++ [0#64]) ∧
    m.Loads (s.envp_at stack) (s.envp ++ [0#64]) ∧ m.Loads (s.auxv_at stack) (InitialStack.auxv_words s.vector) := by
  have hargv : m.Loads (s.argv_at stack) ((s.argv ++ [0#64]) ++ (s.envp ++ [0#64] ++ InitialStack.auxv_words s.vector)) := by
    have htail : m.Loads (s.argv_at stack) (s.argv ++ 0#64 :: (s.envp ++ 0#64 :: InitialStack.auxv_words s.vector)) :=
      h.tail
    simpa using htail
  obtain ⟨hargv, henvp⟩ := Memory.loads_append.mp hargv
  obtain ⟨henvp, hauxv⟩ := Memory.loads_append.mp henvp
  rw [List.length_append] at henvp hauxv
  rw [List.length_append] at hauxv
  exact ⟨hargv, henvp, hauxv⟩

/-- `argc` as an `int` has its value, also where pointers are moved by it. -/
theorem argc_signExtend (s : InitialStack) :
    (BitVec.ofNat 32 s.argv.length).signExtend 64 = BitVec.ofNat 64 s.argv.length := by
  have hlt := s.argc_lt
  have hmsb : (BitVec.ofNat 32 s.argv.length).msb = false := by
    rw [BitVec.msb_eq_false_iff_two_mul_lt, BitVec.toNat_ofNat]
    omega
  rw [BitVec.signExtend_eq_setWidth_of_msb_false hmsb]
  apply BitVec.eq_of_toNat_eq
  rw [BitVec.toNat_setWidth, BitVec.toNat_ofNat, BitVec.toNat_ofNat]
  omega

theorem libc_start_main_args (s : InitialStack) (stack : elf_addr) :
    __libc_start_main (BitVec.ofNat 32 s.argv.length) (s.argv_at stack) =
      (BitVec.ofNat 32 s.argv.length, s.argv_at stack, s.envp_at stack) := by
  rw [__libc_start_main, argc_signExtend, InitialStack.envp_at, Nat.mul_add, BitVec.ofNat_add, BitVec.ofNat_mul]
  ring_nf

theorem argc_setWidth (s : InitialStack) :
    (BitVec.ofNat 64 s.argv.length).setWidth 32 = BitVec.ofNat 32 s.argv.length := by
  apply BitVec.eq_of_toNat_eq
  rw [BitVec.toNat_setWidth, BitVec.toNat_ofNat, BitVec.toNat_ofNat]
  omega

theorem ldso_main_args_eq (h : m.Loads stack s.words) :
    ldso_main_args m stack = .ok (BitVec.ofNat 32 s.argv.length, s.argv_at stack, s.envp_at stack) := by
  rw [ldso_main_args, h.head, Outcome.ok_bind, argc_setWidth]
  exact congrArg Outcome.ok (libc_start_main_args s stack)

theorem decodes (h : m.Loads stack s.words) :
    Decodes m (BitVec.ofNat 32 s.argv.length) (s.argv_at stack) (s.envp_at stack) s := by
  obtain ⟨hargv, henvp, -⟩ := loads_arrays h
  refine ⟨?_, hargv, henvp⟩
  have hlt := s.argc_lt
  exact toInt_ofNat_of_lt (by omega)

theorem find_auxv_eq (h : m.Loads stack s.words) (hfits : 8 * s.words.length ≤ 2 ^ 64) :
    find_auxv m (s.envp_at stack) = .ok (s.auxv_at stack) := by
  obtain ⟨-, henvp, -⟩ := loads_arrays h
  have hlength : s.envp.length < 2 ^ 64 := by
    simp only [InitialStack.words, List.length_cons, List.length_append] at hfits
    omega
  exact find_auxv_loop_eq henvp s.envp_ne hlength

theorem get_auxv_entry_eq (h : m.Loads stack s.words) (hfits : 8 * s.words.length ≤ 2 ^ 64) (type : BitVec 32) :
    get_auxv_entry m (s.auxv_at stack) type =
      .ok ((s.auxv.findIdx? (·.a_type = type.setWidth 64)).map fun i => s.auxv_at stack + BitVec.ofNat 64 (16 * i)) := by
  obtain ⟨-, -, hauxv⟩ := loads_arrays h
  have hlength : s.auxv.length < 2 ^ 64 := by
    have hwords : s.auxv.length ≤ (InitialStack.auxv_words s.vector).length := by
      simp only [InitialStack.auxv_words, InitialStack.vector, List.length_flatMap, List.map_const', List.length_cons,
        List.length_nil, List.length_append, List.sum_replicate]
      simp
      omega
    simp only [InitialStack.words, List.length_cons, List.length_append] at hfits
    omega
  rw [get_auxv_entry, get_auxv_entry_loop_eq hauxv rfl hlength]
  exact get_auxv_entry_list s.auxv_ne rfl

end Decode

section Machine

variable {st : State} {base : elf_addr} {low : List (BitVec 64)} {s : InitialStack}

/-- A multiple of 16 is what rounding down to one leaves of the address 8 above it. -/
theorem align_down {x : BitVec 64} (h : x.toNat % 16 = 0) : (x + 8#64) &&& 0xfffffffffffffff0#64 = x := by
  have hmask : 0xfffffffffffffff0#64 = BitVec.allOnes 64 <<< 4 := by decide
  have hx : x.toNat = 2 ^ 4 * (x.toNat / 16) + 0 := by omega
  have hsum : (x + 8#64).toNat = 2 ^ 4 * (x.toNat / 16) + 8 := by bv_omega
  apply BitVec.eq_of_getLsbD_eq
  intro i hi
  rw [BitVec.getLsbD_and, hmask, BitVec.getLsbD_shiftLeft, BitVec.getLsbD_allOnes]
  unfold BitVec.getLsbD
  rw [hsum, hx, Nat.testBit_two_pow_mul_add _ (by decide), Nat.testBit_two_pow_mul_add _ (by decide)]
  by_cases hlow : i < 4
  · simp [hlow]
  · have hhigh : i - 4 < 64 := by omega
    simp [hlow, hi, hhigh]

/-- Free words below the stack pointer, the next one to be written last. -/
theorem exists_concat {n : Nat} (h : n + 1 ≤ low.length) : ∃ low' x, low = low' ++ [x] ∧ n ≤ low'.length := by
  obtain rfl | ⟨low', x, rfl⟩ := List.eq_nil_or_concat low
  · simp at h
  · exact ⟨low', x, by rw [List.concat_eq_append], by simpa using h⟩

theorem ldso_start_spec (h : LaidOut st base low s) (_DYNAMIC ldso_main next : elf_addr) :
    ∃ st', exec (ldso_start _DYNAMIC ldso_main next) st = .ok st' ∧ st'.rip = ldso_main ∧
      st'.reg .rdi = st.reg .rsp ∧ st'.reg .rsi = _DYNAMIC ∧ st'.mem.Loads (st.reg .rsp) s.words := by
  obtain ⟨low', x, rfl, -⟩ := exists_concat (Nat.le_of_succ_le h.room)
  have hstack : Stack ((({ st.set .rbp 0#64 with flags := logic_flags st.flags 0#64 } : State).set .rdi (st.reg .rsp)).set
      .rsi _DYNAMIC) base (low' ++ [x]) s.words := h.stack.congr rfl rfl
  obtain ⟨st', hcall, hstack', hrip, hreg, -, -⟩ := hstack.step_call ldso_main next
  refine ⟨st', ?_, hrip, hreg .rdi (by decide), hreg .rsi (by decide), ?_⟩
  · rw [ldso_start, exec_cons, step, Outcome.pure_eq, Outcome.ok_bind, exec_cons, step, Outcome.pure_eq, Outcome.ok_bind,
      exec_cons, step, Outcome.pure_eq, Outcome.ok_bind, exec_cons]
    exact congrArg (· >>= exec []) hcall
  · have hrsp : st.reg .rsp = st'.reg .rsp + 8#64 := hstack'.rsp_add h.stack
    rw [hrsp]
    exact hstack'.loads.tail

/-- `ldso_main` is about to jump: its calls have left the initial stack as it was, and the
two operands are in registers. -/
structure AtJump (st st' : State) (base : elf_addr) (low : List (BitVec 64)) (s : InitialStack) (entry stack : Reg) :
    Prop where
  words : ∃ low', low'.length = low.length ∧ st'.mem.Words base (low' ++ s.words)
  stack : st'.reg stack = st.reg .rsp
  entry : entry ≠ .rsp

theorem jmp_to_usercode_spec {entry stack : Reg} (hentry : entry ≠ .rsp) (hroom : 1 ≤ low.length)
    (hwords : st.mem.Words base (low ++ s.words)) (hstack : st.reg stack = base + BitVec.ofNat 64 (8 * low.length)) :
    ∃ st' low', exec (jmp_to_usercode entry stack) st = .ok st' ∧ st'.rip = st.reg entry ∧
      low'.length = low.length ∧ Stack st' base low' s.words := by
  obtain ⟨low', x, rfl, -⟩ := exists_concat hroom
  have hmoved : Stack (st.set .rsp (st.reg stack)) base (low' ++ [x]) s.words := ⟨hstack, hwords⟩
  obtain ⟨mem, hpush, hpushed⟩ := hmoved.push ((st.set .rsp (st.reg stack)).reg entry)
  obtain ⟨st', hret, hstack', hrip, -⟩ := hpushed.step_ret
  refine ⟨st', _, ?_, hrip.trans (State.set_of_ne hentry), by simp, hstack'⟩
  rw [jmp_to_usercode, exec_cons, step, Outcome.pure_eq, Outcome.ok_bind, exec_cons, step, hpush, Outcome.ok_bind,
    exec_cons, hret]
  rfl

/-- `crt0.S` up to the rounding, which takes the stack pointer back to where it was. -/
theorem crt0_start_front (h : LaidOut st base low s) :
    ∃ st', exec [.zero .rbp, .mov .r9 .rdx, .pop .rsi, .mov .rdx .rsp, .and .rsp 0xfffffffffffffff0#64] st = .ok st' ∧
      Stack st' base low s.words ∧ st'.reg .rsp = st.reg .rsp ∧
      st'.reg .rsi = BitVec.ofNat 64 s.argv.length ∧ st'.reg .rdx = s.argv_at (st.reg .rsp) := by
  let st₁ := ({ st.set .rbp 0#64 with flags := logic_flags st.flags 0#64 } : State).set .r9 (st.reg .rdx)
  have hstack : Stack st₁ base low s.words := h.stack.congr rfl rfl
  obtain ⟨hpop, -⟩ := Stack.pop hstack
  have hback : (st.reg .rsp + 8#64) &&& 0xfffffffffffffff0#64 = st.reg .rsp := align_down h.aligned
  let st₂ := ((st₁.set .rsp (st₁.reg .rsp + 8#64)).set .rsi (BitVec.ofNat 64 s.argv.length)).set .rdx
    (st.reg .rsp + 8#64)
  refine ⟨{ st₂.set .rsp (st.reg .rsp) with flags := logic_flags st₂.flags (st.reg .rsp) }, ?_, h.stack.congr rfl rfl, rfl,
    rfl, rfl⟩
  have hpopped : step st₁ (.pop .rsi) =
      .ok ((st₁.set .rsp (st₁.reg .rsp + 8#64)).set .rsi (BitVec.ofNat 64 s.argv.length)) := by
    rw [step, hpop]
    rfl
  have hand : step st₂ (.and .rsp 0xfffffffffffffff0#64) =
      .ok { st₂.set .rsp (st.reg .rsp) with flags := logic_flags st₂.flags (st.reg .rsp) } := by
    rw [step, show st₂.reg .rsp = st.reg .rsp + 8#64 from rfl, hback]
    rfl
  calc _ = exec [.pop .rsi, .mov .rdx .rsp, .and .rsp 0xfffffffffffffff0#64] st₁ := rfl
    _ = exec [.and .rsp 0xfffffffffffffff0#64] st₂ := by
      rw [exec_cons, hpopped]
      rfl
    _ = _ := by
      rw [exec_cons, hand]
      rfl

theorem crt0_start_spec (h : LaidOut st base low s) (fini init main start_main next : elf_addr) :
    ∃ st', exec (crt0_start fini init main start_main next) st = .ok st' ∧ st'.rip = start_main ∧
      st'.reg .rdi = main ∧ (st'.reg .rsi).setWidth 32 = BitVec.ofNat 32 s.argv.length ∧
      st'.reg .rdx = s.argv_at (st.reg .rsp) ∧ st'.mem.Loads (st.reg .rsp) s.words := by
  obtain ⟨low₁, x, rfl, hroom₁⟩ := exists_concat h.room
  obtain ⟨low₂, y, rfl, hroom₂⟩ := exists_concat hroom₁
  obtain ⟨low₃, z, rfl, -⟩ := exists_concat hroom₂
  obtain ⟨st₁, hfront, hstack, hrsp, hrsi, hrdx⟩ := crt0_start_front h
  obtain ⟨mem₂, hrax, hstack₂⟩ := hstack.push (st₁.reg .rax)
  let st₂ : State := { st₁.set .rsp (st₁.reg .rsp - 8#64) with mem := mem₂ }
  obtain ⟨mem₃, hpushed, hstack₃⟩ := hstack₂.push (st₂.reg .rsp)
  let st₃ : State := { st₂.set .rsp (st₂.reg .rsp - 8#64) with mem := mem₃ }
  have hstack₄ : Stack (((st₃.set .r8 fini).set .rcx init).set .rdi main) base (low₃ ++ [z])
      (st₂.reg .rsp :: st₁.reg .rax :: s.words) := hstack₃.congr rfl rfl
  obtain ⟨st', hcall, hcalled, hrip, hreg, -, -⟩ := hstack₄.step_call start_main next
  have hcode : crt0_start fini init main start_main next =
      [.zero .rbp, .mov .r9 .rdx, .pop .rsi, .mov .rdx .rsp, .and .rsp 0xfffffffffffffff0#64] ++
        [.push .rax, .push .rsp, .lea_rip .r8 fini, .lea_rip .rcx init, .lea_rip .rdi main, .call start_main next] := rfl
  have hbelow : Stack st base (low₃ ++ [z, y, x]) s.words := by simpa using h.stack
  have hrsp' : st.reg .rsp = st'.reg .rsp + 8#64 + 8#64 + 8#64 := by
    rw [hcalled.rsp_add hbelow, BitVec.add_assoc, BitVec.add_assoc]
    rfl
  refine ⟨st', ?_, hrip, hreg .rdi (by decide), ?_, ?_, ?_⟩
  · have hpush : step st₁ (.push .rax) = .ok st₂ := hrax
    have hpush' : step st₂ (.push .rsp) = .ok st₃ := hpushed
    rw [hcode, exec_append, hfront, Outcome.ok_bind, exec_cons, hpush, Outcome.ok_bind, exec_cons, hpush', Outcome.ok_bind]
    exact congrArg (· >>= exec []) hcall
  · rw [hreg .rsi (by decide), ← argc_setWidth, ← hrsi]
    rfl
  · rw [hreg .rdx (by decide), ← hrdx]
    rfl
  · rw [hrsp']
    exact hcalled.loads.tail.tail.tail

/-- The jump and the start of the C runtime, from the stack pointer that the loader was
started with. -/
theorem AtJump.main_args (h : LaidOut st base low s) {st₂ : State} {entry stack : Reg}
    (hjump : AtJump st st₂ base low s entry stack) (fini init main start_main next : elf_addr) :
    ∃ st₃ st₄, exec (jmp_to_usercode entry stack) st₂ = .ok st₃ ∧ st₃.rip = st₂.reg entry ∧
      exec (crt0_start fini init main start_main next) st₃ = .ok st₄ ∧ st₄.rip = start_main ∧ st₄.reg .rdi = main ∧
      __libc_start_main ((st₄.reg .rsi).setWidth 32) (st₄.reg .rdx) =
        (BitVec.ofNat 32 s.argv.length, s.argv_at (st.reg .rsp), s.envp_at (st.reg .rsp)) ∧
      st₄.mem.Loads (st.reg .rsp) s.words := by
  obtain ⟨low₂, hlength, hwords⟩ := hjump.words
  have hroom := h.room
  have hstack : st₂.reg stack = base + BitVec.ofNat 64 (8 * low₂.length) := by
    rw [hjump.stack, h.stack.rsp, hlength]
  obtain ⟨st₃, low₃, hjmp, hrip, hlength', hstack₃⟩ := jmp_to_usercode_spec hjump.entry (by omega) hwords hstack
  have hrsp : st₃.reg .rsp = st.reg .rsp := by
    rw [hstack₃.rsp, h.stack.rsp, hlength', hlength]
  have hlaid : LaidOut st₃ base low₃ s := ⟨hstack₃, by omega, by rw [hrsp]; exact h.aligned⟩
  obtain ⟨st₄, hcrt0, hrip', hrdi, hrsi, hrdx, hloads⟩ := crt0_start_spec hlaid fini init main start_main next
  rw [hrsp] at hrdx hloads
  exact ⟨st₃, st₄, hjmp, hrip, hcrt0, hrip', hrdi, by rw [hrsi, hrdx, libc_start_main_args], hloads⟩

end Machine

/-- The loader and the program decode the initial stack to the same arrays, which are
those that were laid out. -/
theorem initial_stack_decoded (s : InitialStack) (st : State) (base : elf_addr) (low : List (BitVec 64))
    (_DYNAMIC ldso_main next : elf_addr) (h : LaidOut st base low s) :
    ∃ st₁ argc argv envp auxv, exec (ldso_start _DYNAMIC ldso_main next) st = .ok st₁ ∧ st₁.rip = ldso_main ∧
      ldso_main_args st₁.mem (st₁.reg .rdi) = .ok (argc, argv, envp) ∧ Decodes st₁.mem argc argv envp s ∧
      find_auxv st₁.mem envp = .ok auxv ∧ st₁.mem.Loads auxv (InitialStack.auxv_words s.vector) ∧
      (∀ type, get_auxv_entry st₁.mem auxv type =
        .ok ((s.auxv.findIdx? (·.a_type = type.setWidth 64)).map fun i => auxv + BitVec.ofNat 64 (16 * i))) ∧
      ∀ (st₂ : State) (entry stack : Reg), AtJump st st₂ base low s entry stack →
        ∀ fini init main start_main next, ∃ st₃ st₄,
          exec (jmp_to_usercode entry stack) st₂ = .ok st₃ ∧ st₃.rip = st₂.reg entry ∧
          exec (crt0_start fini init main start_main next) st₃ = .ok st₄ ∧ st₄.rip = start_main ∧ st₄.reg .rdi = main ∧
          __libc_start_main ((st₄.reg .rsi).setWidth 32) (st₄.reg .rdx) = (argc, argv, envp) ∧
          Decodes st₄.mem argc argv envp s := by
  have hfits : 8 * s.words.length ≤ 2 ^ 64 := by
    have hall := h.stack.words.fits
    rw [List.length_append] at hall
    omega
  obtain ⟨st₁, hexec, hrip, hrdi, -, hloads⟩ := ldso_start_spec h _DYNAMIC ldso_main next
  refine ⟨st₁, BitVec.ofNat 32 s.argv.length, s.argv_at (st.reg .rsp), s.envp_at (st.reg .rsp), s.auxv_at (st.reg .rsp),
    hexec, hrip, ?_, decodes hloads, find_auxv_eq hloads hfits, (loads_arrays hloads).2.2, get_auxv_entry_eq hloads hfits, ?_⟩
  · rw [hrdi]
    exact ldso_main_args_eq hloads
  · intro st₂ entry stack hjump fini init main start_main next
    obtain ⟨st₃, st₄, hjmp, hrip₃, hcrt0, hrip₄, hmain, hsame, hloads₄⟩ := hjump.main_args h fini init main start_main next
    exact ⟨st₃, st₄, hjmp, hrip₃, hcrt0, hrip₄, hmain, hsame, decodes hloads₄⟩

/-- A program with two arguments, two variables in its environment, and the page size
before the entry point in the vector. -/
def two_arguments : InitialStack where
  argv := [0x5000, 0x5008]
  envp := [0x5010, 0x5020]
  auxv := [⟨6, 4096⟩, ⟨9, 0x401000⟩]
  null_val := 0
  argc_lt := by simp
  envp_ne := by simp
  auxv_ne := by decide

/-- The process that is started with it. -/
def two_arguments_state : State where
  reg r := if r = .rsp then 0x7020 else 0
  flags := 0x202
  xmm _ := 0
  rip := 0
  mem := Memory.put (fun a => if (⟨0x7000, 136⟩ : Region 64).Contains a then some ⟨0, ⟨true, true, false⟩⟩ else none) 0x7020
    (encodeArray 8 two_arguments.words)

theorem two_arguments_laidOut : LaidOut two_arguments_state 0x7000 [0, 0, 0, 0] two_arguments := by
  have hloads : ∀ i (hi : i < ([0, 0, 0, 0] ++ two_arguments.words).length),
      two_arguments_state.mem.loadWord 64 (0x7000 + BitVec.ofNat 64 (8 * i)) =
        .ok ([0, 0, 0, 0] ++ two_arguments.words)[i] := by decide +kernel
  exact ⟨⟨by decide, hloads, by decide +kernel, by decide⟩, by decide, by decide⟩

/-- `ldso_main` with the entry point in `rcx` and the stack pointer it was given in `rax`. -/
def two_arguments_jump : State :=
  { two_arguments_state with reg := fun r => if r = .rcx then 0x401000 else if r = .rax then 0x7020 else 0x7000 }

theorem initial_stack_decoded_environment : ∃ st₁ st₃ st₄ argc argv envp auxv,
    exec (ldso_start 0x3000 0x1000 0x2000) two_arguments_state = .ok st₁ ∧ find_auxv st₁.mem envp = .ok auxv ∧
      get_auxv_entry st₁.mem auxv AT_ENTRY = .ok (some (auxv + 16)) ∧
      exec (jmp_to_usercode .rcx .rax) two_arguments_jump = .ok st₃ ∧ st₃.rip = 0x401000 ∧
      exec (crt0_start 0x401100 0x401200 0x401300 0x401400 0x401500) st₃ = .ok st₄ ∧
      __libc_start_main ((st₄.reg .rsi).setWidth 32) (st₄.reg .rdx) = (argc, argv, envp) ∧
      Decodes st₄.mem argc argv envp two_arguments := by
  obtain ⟨st₁, argc, argv, envp, auxv, hstart, -, -, -, hauxv, -, hentry, hprogram⟩ :=
    initial_stack_decoded two_arguments two_arguments_state 0x7000 [0, 0, 0, 0] 0x3000 0x1000 0x2000 two_arguments_laidOut
  have hjump : AtJump two_arguments_state two_arguments_jump 0x7000 [0, 0, 0, 0] two_arguments .rcx .rax :=
    ⟨⟨[0, 0, 0, 0], rfl, two_arguments_laidOut.stack.words⟩, rfl, by decide⟩
  obtain ⟨st₃, st₄, hjmp, hrip, hcrt0, -, -, hsame, hdecodes⟩ :=
    hprogram two_arguments_jump .rcx .rax hjump 0x401100 0x401200 0x401300 0x401400 0x401500
  refine ⟨st₁, st₃, st₄, argc, argv, envp, auxv, hstart, hauxv, ?_, hjmp, hrip, hcrt0, hsame, hdecodes⟩
  rw [hentry AT_ENTRY]
  simp [two_arguments, AT_ENTRY, List.findIdx?_cons]

end ldso.startup
