import LdSo.Lib.Memory.Array
import LdSo.Lib.Run
import Mathlib.Logic.Function.Basic

namespace cmodel.x86

inductive Reg where
  | rax | rbx | rcx | rdx | rsi | rdi | rbp | rsp | r8 | r9 | r10 | r11 | r12 | r13 | r14 | r15
  deriving DecidableEq, Repr

/-- The state of a thread in user mode. Of the flags it has those that `popfq`
restores there. -/
structure State where
  reg : Reg → BitVec 64
  flags : BitVec 64
  xmm : Fin 16 → BitVec 128
  rip : BitVec 64
  mem : Memory 64

def State.set (s : State) (r : Reg) (v : BitVec 64) : State := { s with reg := Function.update s.reg r v }

@[simp] theorem State.set_self (s : State) (r : Reg) (v : BitVec 64) : (s.set r v).reg r = v := Function.update_self _ _ _

theorem State.set_of_ne {s : State} {r r' : Reg} {v : BitVec 64} (h : r' ≠ r) : (s.set r v).reg r' = s.reg r' :=
  Function.update_of_ne h _ _

/-- Instructions in the operand order of the manuals, the destination first. The two
addresses of a call are those of the function and of the instruction behind the call. -/
inductive Instr where
  | push (r : Reg)
  | pop (r : Reg)
  | pushfq
  | popfq
  | mov (dst src : Reg)
  | load (dst base : Reg) (disp : BitVec 64)
  | store (base : Reg) (disp : BitVec 64) (src : Reg)
  | lea (dst base : Reg) (disp : BitVec 64)
  | lea_rip (dst : Reg) (symbol : BitVec 64)
  | zero (dst : Reg)
  | and (dst : Reg) (imm : BitVec 64)
  | call (target next : BitVec 64)
  | ret
  deriving DecidableEq, Repr

/-- The flags after a logical operation: CF and OF are cleared, PF, ZF and SF tell of
the result. AF is undefined and left as it is. -/
def logic_flags (flags result : BitVec 64) : BitVec 64 :=
  let parity := (List.range 8).countP (result.getLsbD ·) % 2 = 0
  flags &&& ~~~0x8c5#64 ||| (if parity then 0x4#64 else 0#64) ||| (if result = 0#64 then 0x40#64 else 0#64) |||
    (if result.msb then 0x80#64 else 0#64)

def push (s : State) (v : BitVec 64) : Outcome State := do
  let rsp := s.reg .rsp - 8#64
  let mem ← s.mem.storeWord rsp v
  return { s.set .rsp rsp with mem }

def pop (s : State) : Outcome (BitVec 64 × State) := do
  let v ← s.mem.loadWord 64 (s.reg .rsp)
  return (v, s.set .rsp (s.reg .rsp + 8#64))

/-- The effect of an instruction. `rip` is followed where control is transferred only. -/
def step (s : State) : Instr → Outcome State
  | .push r => push s (s.reg r)
  | .pop r => do
    let (v, s) ← pop s
    return s.set r v
  | .pushfq => push s s.flags
  | .popfq => do
    let (v, s) ← pop s
    return { s with flags := v }
  | .mov dst src => return s.set dst (s.reg src)
  | .load dst base disp => do
    let v ← s.mem.loadWord 64 (s.reg base + disp)
    return s.set dst v
  | .store base disp src => do
    let mem ← s.mem.storeWord (s.reg base + disp) (s.reg src)
    return { s with mem }
  | .lea dst base disp => return s.set dst (s.reg base + disp)
  | .lea_rip dst symbol => return s.set dst symbol
  | .zero dst => return { s.set dst 0#64 with flags := logic_flags s.flags 0#64 }
  | .and dst imm =>
    let v := s.reg dst &&& imm
    return { s.set dst v with flags := logic_flags s.flags v }
  | .call target next => do
    let s ← push s next
    return { s with rip := target }
  | .ret => do
    let (v, s) ← pop s
    return { s with rip := v }

/-- The effect of instructions that stand one behind the other. -/
def exec (is : List Instr) (s : State) : Outcome State := run step is s

theorem exec_cons (i : Instr) (is : List Instr) (s : State) : exec (i :: is) s = step s i >>= exec is := rfl

theorem exec_append (is js : List Instr) (s : State) : exec (is ++ js) s = exec is s >>= exec js := by
  induction is generalizing s with
  | nil => rfl
  | cons i is ih =>
    rw [List.cons_append, exec_cons, exec_cons, bind_assoc]
    congr 1
    funext s'
    exact ih s'

end cmodel.x86
