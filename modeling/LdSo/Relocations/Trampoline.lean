import LdSo.Lib.X86.Stack

open cmodel x86

namespace ldso.relocations

/-- `__reloc` up to the call; `next` is the address behind it. -/
def __reloc (runtime_relocations next : BitVec 64) : List Instr :=
  [.pushfq, .push .rax, .push .rcx, .push .rdx, .push .rsi, .push .rdi, .push .r8, .push .r9, .push .r10, .push .r11,
    .load .rdi .rsp 80, .load .rsi .rsp 88, .call runtime_relocations next]

/-- `__reloc` from the return of `runtime_relocations` on. -/
def __reloc_next : List Instr :=
  [.store .rsp 88 .rax, .pop .r11, .pop .r10, .pop .r9, .pop .r8, .pop .rdi, .pop .rsi, .pop .rdx, .pop .rcx, .pop .rax,
    .popfq, .lea .rsp .rsp 8#64, .ret]

section Trampoline

variable {s : State} {base link_map index caller : BitVec 64} {low above : List (BitVec 64)}

/-- What `__reloc` pushes, the last word first. -/
def saved (s : State) : List (BitVec 64) :=
  [.r11, .r10, .r9, .r8, .rdi, .rsi, .rdx, .rcx, .rax].map s.reg ++ [s.flags]

theorem reloc_call {old : List (BitVec 64)} (runtime_relocations next : BitVec 64)
    (h : Stack s base (low ++ old) (link_map :: index :: above)) (hold : old.length = 11) :
    ∃ s', exec (__reloc runtime_relocations next) s = .ok s' ∧
      Stack s' base low (next :: (saved s ++ link_map :: index :: above)) ∧
      s'.rip = runtime_relocations ∧ s'.reg .rdi = link_map ∧ s'.reg .rsi = index ∧
      (∀ r, r ≠ .rsp → r ≠ .rdi → r ≠ .rsi → s'.reg r = s.reg r) ∧ s'.xmm = s.xmm := by
  obtain ⟨x, rest, rfl⟩ := List.exists_cons_of_length_eq_add_one hold
  obtain ⟨mid, y, rfl⟩ := List.eq_nil_or_concat rest |>.resolve_left (by rintro rfl; simp at hold)
  have hmid : mid.length = 9 := by simpa using hold
  have hentry : Stack s base (low ++ [x] ++ mid ++ [y]) (link_map :: index :: above) := by simpa using h
  obtain ⟨mem, hpushfq, hflags⟩ := hentry.push s.flags
  obtain ⟨s₁, hpushes, hstack, hreg, -, hxmm, -⟩ :=
    hflags.exec_push [.rax, .rcx, .rdx, .rsi, .rdi, .r8, .r9, .r10, .r11] (by decide) hmid
  have hsaved : Stack s₁ base (low ++ [x]) (saved s ++ link_map :: index :: above) := hstack
  obtain ⟨hrdi, hstack₂⟩ := hsaved.step_load 10 (by simp [saved]) .rdi (by decide) 80 rfl
  obtain ⟨hrsi, hstack₃⟩ := hstack₂.step_load 11 (by simp [saved]) .rsi (by decide) 88 rfl
  obtain ⟨s', hcall, hcalled, hrip, hkept, -, hxmm'⟩ := hstack₃.step_call runtime_relocations next
  have hcode : __reloc runtime_relocations next =
      .pushfq :: (([.rax, .rcx, .rdx, .rsi, .rdi, .r8, .r9, .r10, .r11] : List Reg).map .push ++
        [.load .rdi .rsp 80, .load .rsi .rsp 88, .call runtime_relocations next]) := rfl
  refine ⟨s', ?_, hcalled, hrip, ?_, ?_, ?_, hxmm'.trans hxmm⟩
  · rw [hcode, exec_cons, step, hpushfq, Outcome.ok_bind, exec_append, hpushes, Outcome.ok_bind, exec_cons, hrdi,
      Outcome.ok_bind, exec_cons, hrsi, Outcome.ok_bind, exec_cons, hcall]
    rfl
  · rw [hkept .rdi (by decide)]
    rfl
  · rw [hkept .rsi (by decide)]
    rfl
  · intro r hne hrdi' hrsi'
    rw [hkept r hne, State.set_of_ne hrsi', State.set_of_ne hrdi', hreg r hne]
    exact State.set_of_ne hne

/-- The registers in the order in which they are restored. -/
def popped : List Reg := [.r11, .r10, .r9, .r8, .rdi, .rsi, .rdx, .rcx, .rax]

/-- The way back, when the resolved function is in `rax`. -/
theorem reloc_return {f : Reg → BitVec 64} {flags : BitVec 64}
    (h : Stack s base low (popped.map f ++ flags :: link_map :: index :: above)) :
    ∃ s', exec __reloc_next s = .ok s' ∧ (∃ low, Stack s' base low above) ∧ s'.rip = s.reg .rax ∧
      s'.reg .rsp = s.reg .rsp + 96 ∧ s'.flags = flags ∧ s'.xmm = s.xmm ∧
      (∀ r ∈ popped, s'.reg r = f r) ∧ ∀ r ∉ popped, r ≠ .rsp → s'.reg r = s.reg r := by
  obtain ⟨mem, hstore, hstack₁⟩ := h.store 11 (by simp [popped]) (s.reg .rax)
  have hstack₁ : Stack { s with mem } base low (popped.map f ++ flags :: link_map :: s.reg .rax :: above) := hstack₁
  obtain ⟨s₂, hpops, hstack₂, hpopped, hkept, -, hxmm, -⟩ := hstack₁.exec_pop popped (by decide)
  obtain ⟨hpopfq, hstack₃⟩ := hstack₂.pop
  have hstack₄ : Stack { s₂.set .rsp (s₂.reg .rsp + 8) with flags } base _ _ := hstack₃.congr rfl rfl
  obtain ⟨-, hstack₅⟩ := hstack₄.pop
  obtain ⟨s', hret, hstack', hrip, hkept', hflags, hxmm'⟩ := hstack₅.step_ret
  have hcode : __reloc_next = .store .rsp 88 .rax :: (popped.map .pop ++ [.popfq, .lea .rsp .rsp 8#64, .ret]) := rfl
  have hreg : ∀ r, r ≠ .rsp → s'.reg r = s₂.reg r := by
    intro r hr
    rw [hkept' r hr, State.set_of_ne hr]
    exact State.set_of_ne hr
  refine ⟨s', ?_, ⟨_, hstack'⟩, hrip, ?_, hflags, hxmm'.trans hxmm, ?_, ?_⟩
  · have hstore : step s (.store .rsp 88 .rax) = .ok { s with mem } := by
      rw [step, show s.mem.storeWord (s.reg .rsp + 88) (s.reg .rax) = .ok mem from hstore]
      rfl
    have hflags : step s₂ .popfq = .ok { s₂.set .rsp (s₂.reg .rsp + 8) with flags } := by
      rw [step, hpopfq]
      rfl
    rw [hcode, exec_cons, hstore, Outcome.ok_bind, exec_append, hpops, Outcome.ok_bind, exec_cons, hflags, Outcome.ok_bind,
      exec_cons, step, Outcome.pure_eq, Outcome.ok_bind, exec_cons, hret]
    rfl
  · rw [List.append_assoc, List.append_assoc, List.append_assoc] at hstack'
    exact h.rsp_add hstack'
  · intro r hr
    rw [hreg r (by rintro rfl; revert hr; decide), hpopped r hr]
  · intro r hr hne
    rw [hreg r hne, hkept r hr hne]

/-- The state in which PLT0 jumps to `__reloc`: the caller's stack was aligned when it made
the call, and below the return address there are the two words that the PLT pushed. -/
structure Entered (s : State) (base link_map index caller : BitVec 64) (low above : List (BitVec 64)) : Prop where
  stack : Stack s base low (link_map :: index :: caller :: above)
  room : 11 ≤ low.length
  aligned : (s.reg .rsp + 24#64).toNat % 16 = 0

/-- `s'` is what the caller had made its call in, but for the vector registers, with
control at the function that `runtime_relocations` returned in `s₂`. -/
structure Resumed (s s₂ s' : State) (base caller : BitVec 64) (above : List (BitVec 64)) : Prop where
  rip : s'.rip = s₂.reg .rax
  rsp : s'.reg .rsp = s.reg .rsp + 16#64
  stack : ∃ low, Stack s' base low (caller :: above)
  reg : ∀ r, r ≠ .rsp → s'.reg r = s.reg r
  flags : s'.flags = s.flags

/-- The trampoline cannot be told from a direct call: `runtime_relocations` is called with
its arguments and an aligned stack, and however it returns, the resolved function finds
everything as the caller left it. -/
def Transparent (s : State) (base link_map index caller : BitVec 64) (above : List (BitVec 64))
    (runtime_relocations next : BitVec 64) : Prop :=
  ∃ s₁, exec (__reloc runtime_relocations next) s = .ok s₁ ∧ s₁.rip = runtime_relocations ∧
    s₁.reg .rdi = link_map ∧ s₁.reg .rsi = index ∧ (s₁.reg .rsp + 8#64).toNat % 16 = 0 ∧
    ∀ s₂, Returns base (saved s ++ link_map :: index :: caller :: above) s₁ s₂ →
      ∃ s', exec __reloc_next s₂ = .ok s' ∧ Resumed s s₂ s' base caller above ∧ ∀ i < 8, s'.xmm i = s.xmm i

/-- The return address of the call and the ten words that are saved lie below the stack
pointer at the entry. -/
theorem Entered.call (h : Entered s base link_map index caller low above) (runtime_relocations next : BitVec 64) :
    ∃ s₁ low₁, exec (__reloc runtime_relocations next) s = .ok s₁ ∧
      Stack s₁ base low₁ (next :: (saved s ++ link_map :: index :: caller :: above)) ∧
      s₁.rip = runtime_relocations ∧ s₁.reg .rdi = link_map ∧ s₁.reg .rsi = index ∧
      s₁.reg .rsp + 88#64 = s.reg .rsp ∧
      (∀ r, r ≠ .rsp → r ≠ .rdi → r ≠ .rsi → s₁.reg r = s.reg r) ∧ s₁.xmm = s.xmm := by
  obtain ⟨low₁, old, rfl, hold⟩ : ∃ low₁ old, low = low₁ ++ old ∧ old.length = 11 :=
    ⟨low.take (low.length - 11), low.drop (low.length - 11), (List.take_append_drop _ _).symm, by
      rw [List.length_drop]
      have hroom := h.room
      omega⟩
  obtain ⟨s₁, hexec, hstack, hrip, hrdi, hrsi, hreg, hxmm⟩ := reloc_call runtime_relocations next h.stack hold
  have hrsp := hstack.rsp_add h.stack
  rw [hold] at hrsp
  exact ⟨s₁, low₁, hexec, hstack, hrip, hrdi, hrsi, hrsp.symm, hreg, hxmm⟩

/-- The ten pushes leave the stack misaligned for the call. -/
theorem Entered.misaligned (h : Entered s base link_map index caller low above) {s₁ : State}
    (hrsp : s₁.reg .rsp + 88#64 = s.reg .rsp) : (s₁.reg .rsp + 8#64).toNat % 16 = 8 := by
  have haligned := h.aligned
  rw [← hrsp] at haligned
  bv_omega

theorem resumed_of_returns {s₁ s₂ : State} (hrsp : s₁.reg .rsp + 88#64 = s.reg .rsp)
    (hreg : ∀ r, r ≠ .rsp → r ≠ .rdi → r ≠ .rsi → s₁.reg r = s.reg r)
    (hreturns : Returns base (saved s ++ link_map :: index :: caller :: above) s₁ s₂) :
    ∃ s', exec __reloc_next s₂ = .ok s' ∧ Resumed s s₂ s' base caller above ∧ s'.xmm = s₂.xmm := by
  obtain ⟨low₂, hstack₂⟩ := hreturns.stack
  have hstack₂ : Stack s₂ base low₂ (popped.map s.reg ++ s.flags :: link_map :: index :: caller :: above) := by
    simpa [saved, popped] using hstack₂
  obtain ⟨s', hexec, hstack, hrip, hrsp', hflags, hxmm, hpopped, hkept⟩ := reloc_return hstack₂
  have hsaved : ∀ r, r ≠ .rsp → r ∉ popped → r ∈ callee_saved ∧ r ≠ .rdi ∧ r ≠ .rsi := by
    intro r
    cases r <;> decide
  refine ⟨s', hexec, ⟨hrip, ?_, hstack, ?_, hflags⟩, hxmm⟩
  · rw [hrsp', hreturns.rsp, ← hrsp]
    bv_omega
  · intro r hne
    by_cases hmem : r ∈ popped
    · exact hpopped r hmem
    · obtain ⟨hcallee, hrdi, hrsi⟩ := hsaved r hne hmem
      rw [hkept r hmem hne, hreturns.saved r hcallee, hreg r hne hrdi hrsi]

/-- A function may return with other vector registers than it was entered with. -/
theorem exists_returns_xmm {s₁ : State} {low₁ top : List (BitVec 64)} {next : BitVec 64}
    (hstack : Stack s₁ base low₁ (next :: top)) (xmm : Fin 16 → BitVec 128) : ∃ s₂, Returns base top s₁ s₂ ∧ s₂.xmm = xmm := by
  obtain ⟨s₂, -, hstack₂, hrip, hreg, -, -⟩ := hstack.step_ret
  have hread := hstack.load 0 (by simp)
  rw [Nat.mul_zero, BitVec.add_zero] at hread
  refine ⟨{ s₂ with xmm }, ⟨?_, hstack.rsp_add hstack₂, ?_, _, hstack₂.congr rfl rfl⟩, rfl⟩
  · rw [hread]
    exact congrArg Outcome.ok hrip.symm
  · intro r hr
    exact hreg r (by rintro rfl; revert hr; decide)

end Trampoline

/-- `__reloc` calls `runtime_relocations` with its arguments and restores the general
registers, the flags and the stack, but the stack is misaligned at the call and the
vector registers are those that the function left: no call through the PLT is
transparent. -/
theorem reloc_not_transparent (s : State) (base link_map index caller : BitVec 64) (low above : List (BitVec 64))
    (runtime_relocations next : BitVec 64) (h : Entered s base link_map index caller low above) :
    (∃ s₁, exec (__reloc runtime_relocations next) s = .ok s₁ ∧ s₁.rip = runtime_relocations ∧
      s₁.reg .rdi = link_map ∧ s₁.reg .rsi = index ∧ (s₁.reg .rsp + 8#64).toNat % 16 = 8 ∧
      (∀ s₂, Returns base (saved s ++ link_map :: index :: caller :: above) s₁ s₂ →
        ∃ s', exec __reloc_next s₂ = .ok s' ∧ Resumed s s₂ s' base caller above ∧ s'.xmm = s₂.xmm) ∧
      ∃ s₂, Returns base (saved s ++ link_map :: index :: caller :: above) s₁ s₂ ∧ s₂.xmm 0 ≠ s.xmm 0) ∧
    ¬ Transparent s base link_map index caller above runtime_relocations next := by
  obtain ⟨s₁, low₁, hexec, hstack, hrip, hrdi, hrsi, hrsp, hreg, hxmm⟩ := h.call runtime_relocations next
  have hmisaligned := h.misaligned hrsp
  constructor
  · obtain ⟨s₂, hreturns, hother⟩ := exists_returns_xmm hstack fun i => s.xmm i + 1
    refine ⟨s₁, hexec, hrip, hrdi, hrsi, hmisaligned, fun s₂ => resumed_of_returns hrsp hreg, s₂, hreturns, ?_⟩
    rw [hother]
    simp
  · rintro ⟨s₁', hexec', -, -, -, haligned, -⟩
    obtain rfl := Outcome.ok.inj (hexec.symm.trans hexec')
    omega

/-- The general registers of a thread, all different. -/
def entered_reg : Reg → BitVec 64
  | .rsp => 0x7058
  | .rax => 1
  | .rbx => 2
  | .rcx => 3
  | .rdx => 4
  | .rsi => 5
  | .rdi => 6
  | .rbp => 0x7800
  | .r8 => 8
  | .r9 => 9
  | .r10 => 10
  | .r11 => 11
  | .r12 => 12
  | .r13 => 13
  | .r14 => 14
  | .r15 => 15

/-- The stack of the thread: what it was used for before, the link map at 0x60001000
and the index 7 that the PLT has pushed, the return address, and two words of the caller. -/
def entered_words : List (BitVec 64) :=
  [21, 22, 23, 24, 25, 26, 27, 28, 29, 30, 31, 0x60001000, 7, 0x401234, 0x51, 0x52]

/-- The thread in a call of its program through the PLT. -/
def entered_state : State where
  reg := entered_reg
  flags := 0x246
  xmm i := BitVec.ofNat 128 (100 + i)
  rip := 0x401020
  mem := Memory.put (fun a => if (⟨0x7000, 128⟩ : Region 64).Contains a then some ⟨0, ⟨true, true, false⟩⟩ else none) 0x7000
    (encodeArray 8 entered_words)

theorem entered_state_entered :
    Entered entered_state 0x7000 0x60001000 7 0x401234 (entered_words.take 11) [0x51, 0x52] := by
  have hloads : ∀ i (hi : i < entered_words.length),
      entered_state.mem.loadWord 64 (0x7000 + BitVec.ofNat 64 (8 * i)) = .ok entered_words[i] := by decide +kernel
  exact ⟨⟨by decide, hloads, by decide +kernel, by decide⟩, by decide, by decide⟩

theorem reloc_not_transparent_distinct :
    ¬ Transparent entered_state 0x7000 0x60001000 7 0x401234 [0x51, 0x52] 0x1000 0x2000 :=
  (reloc_not_transparent entered_state 0x7000 0x60001000 7 0x401234 (entered_words.take 11) [0x51, 0x52] 0x1000 0x2000
    entered_state_entered).2

/-- In this state the pushes and the call leave `rsp` at `0x7000`, not 8 below a multiple of 16. -/
theorem reloc_misaligned :
    (∃ s₁, exec (__reloc 0x1000 0x2000) entered_state = .ok s₁ ∧ s₁.reg .rsp = 0x7000) ∧
      ¬ Transparent entered_state 0x7000 0x60001000 7 0x401234 [0x51, 0x52] 0x1000 0x2000 := by
  obtain ⟨s₁, -, hexec, -, -, -, -, hrsp, -, -⟩ := entered_state_entered.call 0x1000 0x2000
  have hrsp : s₁.reg .rsp = 0x7000 := by
    have hentry : entered_state.reg .rsp = 0x7058 := rfl
    bv_omega
  refine ⟨⟨s₁, hexec, hrsp⟩, ?_⟩
  rintro ⟨s₁', hexec', -, -, -, haligned, -⟩
  obtain rfl := Outcome.ok.inj (hexec.symm.trans hexec')
  rw [hrsp] at haligned
  exact absurd haligned (by decide)

end ldso.relocations
