import LdSo.Lib.X86

namespace cmodel.x86

open Memory

/-- The stack as a list of words from `base` on: `low` lies below the stack pointer,
`top` is what was pushed, the last word first. -/
structure Stack (s : State) (base : BitVec 64) (low top : List (BitVec 64)) : Prop where
  rsp : s.reg .rsp = base + BitVec.ofNat 64 (8 * low.length)
  words : s.mem.Words base (low ++ top)

namespace Stack

variable {s : State} {base v x : BitVec 64} {low top : List (BitVec 64)}

/-- What is on the stack does not depend on the other registers. -/
theorem congr {s' : State} (h : Stack s base low top) (hrsp : s'.reg .rsp = s.reg .rsp) (hmem : s'.mem = s.mem) :
    Stack s' base low top := ⟨hrsp.trans h.rsp, hmem ▸ h.words⟩

/-- The stack pointer moves with the words that are popped. -/
theorem rsp_add {s' : State} {words top' : List (BitVec 64)} (h : Stack s base low top)
    (h' : Stack s' base (low ++ words) top') : s'.reg .rsp = s.reg .rsp + BitVec.ofNat 64 (8 * words.length) := by
  rw [h'.rsp, h.rsp, add_ofNat_add, List.length_append, Nat.mul_add]

theorem loads (h : Stack s base low top) : s.mem.Loads (s.reg .rsp) top := by
  rw [h.rsp]
  exact (loads_append.mp h.words.loads).2

theorem load (h : Stack s base low top) (i : Nat) (hi : i < top.length) :
    s.mem.loadWord 64 (s.reg .rsp + BitVec.ofNat 64 (8 * i)) = .ok top[i] := h.loads i hi

theorem step_load (h : Stack s base low top) (i : Nat) (hi : i < top.length) (dst : Reg) (hdst : dst ≠ .rsp)
    (disp : BitVec 64) (hdisp : disp = BitVec.ofNat 64 (8 * i)) :
    step s (.load dst .rsp disp) = .ok (s.set dst top[i]) ∧ Stack (s.set dst top[i]) base low top := by
  refine ⟨?_, h.congr (State.set_of_ne hdst.symm) rfl⟩
  rw [step, hdisp, h.load i hi]
  rfl

theorem store (h : Stack s base low top) (i : Nat) (hi : i < top.length) (v : BitVec 64) :
    ∃ mem, s.mem.storeWord (s.reg .rsp + BitVec.ofNat 64 (8 * i)) v = .ok mem ∧
      Stack { s with mem } base low (top.set i v) := by
  have hlt : low.length + i < (low ++ top).length := by
    rw [List.length_append]
    omega
  obtain ⟨mem, hstore, hwords⟩ := h.words.store (by decide) hlt v
  rw [List.set_append_right _ _ (by omega), Nat.add_sub_cancel_left] at hwords
  refine ⟨mem, ?_, h.rsp, hwords⟩
  rw [h.rsp, add_ofNat_add, ← Nat.mul_add]
  exact hstore

theorem push (h : Stack s base (low ++ [x]) top) (v : BitVec 64) :
    ∃ mem, push s v = .ok { s.set .rsp (s.reg .rsp - 8#64) with mem } ∧
      Stack { s.set .rsp (s.reg .rsp - 8#64) with mem } base low (v :: top) := by
  have hrsp : s.reg .rsp - 8#64 = base + BitVec.ofNat 64 (8 * low.length) := by
    rw [h.rsp, List.length_append, List.length_singleton, Nat.mul_add, BitVec.ofNat_add]
    ring
  have hlt : low.length < (low ++ [x] ++ top).length := by
    simp only [List.length_append, List.length_singleton]
    omega
  obtain ⟨mem, hstore, hwords⟩ := h.words.store (by decide) hlt v
  rw [List.append_assoc, List.set_append_right _ _ (by omega), Nat.sub_self] at hwords
  refine ⟨mem, ?_, ⟨?_, hwords⟩⟩
  · have hstore : s.mem.storeWord (s.reg .rsp - 8#64) v = .ok mem := by
      rw [hrsp]
      exact hstore
    rw [x86.push, hstore]
    rfl
  · rw [← hrsp]
    exact State.set_self s .rsp _

theorem pop (h : Stack s base low (v :: top)) :
    pop s = .ok (v, s.set .rsp (s.reg .rsp + 8#64)) ∧ Stack (s.set .rsp (s.reg .rsp + 8#64)) base (low ++ [v]) top := by
  have hread := h.load 0 (by simp)
  rw [Nat.mul_zero, BitVec.add_zero] at hread
  refine ⟨?_, ?_, ?_⟩
  · rw [x86.pop, hread]
    rfl
  · rw [List.length_append, List.length_singleton, Nat.mul_add, BitVec.ofNat_add, ← BitVec.add_assoc, ← h.rsp]
    simp [State.set]
  · rw [List.append_assoc]
    exact h.words

theorem step_call (h : Stack s base (low ++ [x]) top) (target next : BitVec 64) :
    ∃ s', step s (.call target next) = .ok s' ∧ Stack s' base low (next :: top) ∧ s'.rip = target ∧
      (∀ r, r ≠ .rsp → s'.reg r = s.reg r) ∧ s'.flags = s.flags ∧ s'.xmm = s.xmm := by
  obtain ⟨mem, hpush, hstack⟩ := h.push next
  refine ⟨{ s.set .rsp (s.reg .rsp - 8#64) with mem, rip := target }, ?_, hstack.congr rfl rfl, rfl, ?_, rfl, rfl⟩
  · rw [step, hpush]
    rfl
  · exact fun r hr => State.set_of_ne hr

theorem step_ret (h : Stack s base low (v :: top)) :
    ∃ s', step s .ret = .ok s' ∧ Stack s' base (low ++ [v]) top ∧ s'.rip = v ∧
      (∀ r, r ≠ .rsp → s'.reg r = s.reg r) ∧ s'.flags = s.flags ∧ s'.xmm = s.xmm := by
  obtain ⟨hpop, hstack⟩ := h.pop
  refine ⟨{ s.set .rsp (s.reg .rsp + 8#64) with rip := v }, ?_, hstack.congr rfl rfl, rfl, ?_, rfl, rfl⟩
  · rw [step, hpop]
    rfl
  · exact fun r hr => State.set_of_ne hr

/-- The words that pushes write are replaced from the top one on. -/
theorem exec_push (rs : List Reg) {old : List (BitVec 64)} (hrs : Reg.rsp ∉ rs)
    (h : Stack s base (low ++ old) top) (hlen : old.length = rs.length) :
    ∃ s', exec (rs.map .push) s = .ok s' ∧ Stack s' base low ((rs.map s.reg).reverse ++ top) ∧
      (∀ r, r ≠ .rsp → s'.reg r = s.reg r) ∧ s'.flags = s.flags ∧ s'.xmm = s.xmm ∧ s'.rip = s.rip := by
  induction rs generalizing s old top with
  | nil =>
    obtain rfl := List.length_eq_zero_iff.mp hlen
    rw [List.append_nil] at h
    exact ⟨s, rfl, h, fun r _ => rfl, rfl, rfl, rfl⟩
  | cons r rs ih =>
    rw [List.mem_cons, not_or] at hrs
    obtain ⟨old, x, rfl⟩ := List.eq_nil_or_concat old |>.resolve_left (by rintro rfl; simp at hlen)
    rw [List.concat_eq_append, ← List.append_assoc] at h
    obtain ⟨mem, hpush, hstack⟩ := h.push (s.reg r)
    have hkept : ∀ r', r' ≠ .rsp → ({ s.set .rsp (s.reg .rsp - 8#64) with mem } : State).reg r' = s.reg r' :=
      fun r' hr' => State.set_of_ne hr'
    obtain ⟨s', hexec, hstack', hreg, hflags, hxmm, hrip⟩ := ih hrs.2 hstack (by simpa using hlen)
    have hsame : rs.map ({ s.set .rsp (s.reg .rsp - 8#64) with mem } : State).reg = rs.map s.reg :=
      List.map_congr_left fun r' hr' => hkept r' fun heq => hrs.2 (heq ▸ hr')
    refine ⟨s', ?_, ?_, fun r' hr' => (hreg r' hr').trans (hkept r' hr'), hflags, hxmm, hrip⟩
    · rw [List.map_cons, exec_cons, step, hpush]
      exact hexec
    · rw [hsame] at hstack'
      rw [List.map_cons, List.reverse_cons, List.append_assoc]
      exact hstack'

theorem exec_pop (rs : List Reg) {f : Reg → BitVec 64} (hrs : Reg.rsp ∉ rs) (h : Stack s base low (rs.map f ++ top)) :
    ∃ s', exec (rs.map .pop) s = .ok s' ∧ Stack s' base (low ++ rs.map f) top ∧ (∀ r ∈ rs, s'.reg r = f r) ∧
      (∀ r ∉ rs, r ≠ .rsp → s'.reg r = s.reg r) ∧ s'.flags = s.flags ∧ s'.xmm = s.xmm ∧ s'.rip = s.rip := by
  induction rs generalizing s low with
  | nil => exact ⟨s, rfl, by simpa using h, by simp, fun r _ _ => rfl, rfl, rfl, rfl⟩
  | cons r rs ih =>
    rw [List.mem_cons, not_or] at hrs
    obtain ⟨hpop, hstack⟩ := h.pop
    have hstack : Stack ((s.set .rsp (s.reg .rsp + 8#64)).set r (f r)) base (low ++ [f r]) (rs.map f ++ top) :=
      hstack.congr (State.set_of_ne hrs.1) rfl
    obtain ⟨s', hexec, hstack', hpopped, hkept, hflags, hxmm, hrip⟩ := ih hrs.2 hstack
    refine ⟨s', ?_, ?_, ?_, ?_, hflags, hxmm, hrip⟩
    · rw [List.map_cons, exec_cons, step, hpop]
      exact hexec
    · rw [List.map_cons]
      simpa using hstack'
    · intro r' hr'
      by_cases hmem : r' ∈ rs
      · exact hpopped r' hmem
      · obtain rfl : r' = r := (List.mem_cons.mp hr').resolve_right hmem
        rw [hkept r' hmem fun heq => hrs.1 heq.symm]
        exact State.set_self _ _ _
    · intro r' hr' hrsp
      rw [List.mem_cons, not_or] at hr'
      rw [hkept r' hr'.2 hrsp]
      exact (State.set_of_ne hr'.1).trans (State.set_of_ne hrsp)

end Stack

/-- The registers that a function of the System V ABI leaves as they were. -/
def callee_saved : List Reg := [.rbx, .rbp, .r12, .r13, .r14, .r15]

/-- `s'` is a state in which a function that was entered in `s` may return under the
System V ABI, to a caller that has `top` on the stack. The other registers, the flags
and the memory elsewhere may have any content. -/
structure Returns (base : BitVec 64) (top : List (BitVec 64)) (s s' : State) : Prop where
  rip : s.mem.loadWord 64 (s.reg .rsp) = .ok s'.rip
  rsp : s'.reg .rsp = s.reg .rsp + 8#64
  saved : ∀ r ∈ callee_saved, s'.reg r = s.reg r
  stack : ∃ low, Stack s' base low top

end cmodel.x86
