import LdSo.Dependency
import LdSo.Lib.Simulation

open cmodel

/-! The dependency search once more, with the process's own strings: the
functions of `ldso.dependency` say what is found, these also where bytes and
table slots are written on the way. -/

namespace ldso.process

open elf elf_manipulation utility dependency

/-- A place in the process's strings: a buffer, and an offset in it. -/
structure Ptr where
  buffer : Nat
  off : Nat
  deriving DecidableEq

/-- What the search writes to: the buffers of the environment's strings and of the
copies that `strdup` makes, the place where `strtok` goes on (`pos`), and the
slots of the dependency table that were written, in order. -/
structure Process where
  buffers : List (List Byte)
  pos : Option Ptr
  slots : List Nat

abbrev Run := StateT Process Outcome

/-- The process at its start: the environment, one buffer a string. -/
def start (sys : System) : Process where
  buffers := sys.envp.map CString.bytes
  pos := none
  slots := []

/-- The slots that the table is allocated with. -/
def MAX_DEP : Nat := 100

def buffer (buffers : List (List Byte)) (i : Nat) : List Byte := buffers[i]?.getD []

/-- The string at a place. -/
def read (p : Ptr) : Run CString := fun process => do
  let s ← CString.read (buffer process.buffers p.buffer) p.off
  return (s, process)

def strlen : List Byte → Outcome Nat
  | [] => .fault
  | c :: s => if c ≠ 0#8 then do return (← strlen s) + 1 else .ok 0

/-- The scan runs to the first delimiter or terminator; a delimiter is
overwritten in the buffer itself. -/
def strtok_r (buffers : List (List Byte)) (str : Option Ptr) (delim : CString) (saveptr : Option Ptr) :
    Outcome (Option Ptr × Option Ptr × List (List Byte)) :=
  match str.or saveptr with
  | none => .ok (none, saveptr, buffers)
  | some str =>
    let b := buffer buffers str.buffer
    let p := str.off + ((b.drop str.off).takeWhile fun c => c ≠ 0#8 ∧ c ∉ delim.chars).length
    match b[p]? with
    | none => .fault
    | some c =>
      if c ≠ 0#8 then .ok (some str, some ⟨str.buffer, p + 1⟩, buffers.set str.buffer (b.set p 0#8))
      else .ok (some str, none, buffers)

def strtok (str : Option Ptr) (delim : CString) : Run (Option Ptr) := fun process => do
  let (token, pos, buffers) ← strtok_r process.buffers str delim process.pos
  return (token, { process with pos, buffers })

/-- A new buffer that holds the string. -/
def alloc (s : CString) : Run Ptr := fun process =>
  .ok (⟨process.buffers.length, 0⟩, { process with buffers := process.buffers ++ [s.bytes] })

/-- The copy is a buffer of its own. What lies behind its terminator is not read. -/
def strdup (sys : System) (s : CString) : Run Ptr := do
  let copy ← utility.strdup sys s
  alloc copy

/-- The scan of the environment from entry `i` on. -/
def scan_env (name : CString) : Nat → List (List Byte) → Outcome (Option Ptr)
  | _, [] => .ok none
  | i, env :: rest => do
    let name_size := name.chars.length
    let size ← strlen env
    if name_size < size then do
      let order ← string.strncmp env name.bytes name_size
      if order = 0 then return some ⟨i, name_size + 1⟩ else scan_env name (i + 1) rest
    else scan_env name (i + 1) rest

def get_env_value (envp : List (List Byte)) (name : CString) : Outcome (Option Ptr) := scan_env name 0 envp

/-- `get_env_value` on the environment as it is now. -/
def get_env (sys : System) (name : CString) : Run (Option Ptr) := fun process => do
  let value ← get_env_value (process.buffers.take sys.envp.length) name
  return (value, process)

/-- The loop of `test`, entered with the first token; the fuel bounds the tokens. -/
def test_loop (sys : System) (name : CString) : Nat → Option Ptr → Run (Option CString)
  | _, none => return none
  | 0, some _ => Outcome.diverge
  | fuel + 1, some buff => do
    let ret ← concatenate (← read buff) name
    if (sys.file ret).isSome then return some ret else do
      let buff ← strtok none delimiters
      test_loop sys name fuel buff

def test (sys : System) (path name : CString) : Run (Option CString) := do
  let copy ← strdup sys path
  let fuel := (← read copy).chars.length + 1
  let buff ← strtok (some copy) delimiters
  test_loop sys name fuel buff

def search_paths (sys : System) (tag : BitVec 64) (string : List Byte) (name : CString) :
    List Dyn → Run (Option CString)
  | [] => Outcome.fault
  | dyn :: rest =>
    if dyn.d_tag = DT_NULL then return none
    else if dyn.d_tag = tag then do
      let path ← CString.read string dyn.d_val.toNat
      match ← test sys path name with
      | some res => return some res
      | none => search_paths sys tag string name rest
    else search_paths sys tag string name rest

def search_environment (sys : System) (name : CString) : Run (Option CString) := do
  match ← get_env sys (.lit "LD_LIBRARY_PATH") with
  | none => return none
  | some path => test sys (← read path) name

def get_lib_absolute_path (sys : System) (name binary : CString) : Run CString := do
  if name.chars.head? = some 0x2f#8 then return name
  if (← test sys (.lit ".") name).isSome then return name
  let elf ← get_elf_ehdr sys binary
  let dyn ← get_section sys elf binary (.lit ".dynamic")
  let string ← get_section sys elf binary (.lit ".dynstr")
  if let some res ← search_paths sys DT_RPATH (string.getD []) name (dyns (dyn.getD [])) then return res
  if let some res ← search_environment sys name then return res
  if let some res ← search_paths sys DT_RUNPATH (string.getD []) name (dyns (dyn.getD [])) then return res
  if let some res ← test sys (.lit "/lib/") name then return res
  if let some res ← test sys (.lit "/usr/lib/") name then return res
  Outcome.exit 1

/-- `res[nb_dep++] = name`. -/
def push (res : List CString) (name : CString) : Run (List CString) := fun process =>
  .ok (res ++ [name], { process with slots := process.slots ++ [res.length] })

def fill_needed (sys : System) (object : CString) (dynstr : List Byte) : List Dyn → List CString → Run (List CString)
  | [], _ => Outcome.fault
  | dynamic :: rest, res =>
    if dynamic.d_tag = DT_NULL then return res
    else if dynamic.d_tag = DT_NEEDED then do
      let name ← CString.read dynstr dynamic.d_val.toNat
      let name ← get_lib_absolute_path sys name object
      let res ← if is_in res name then pure res else push res name
      fill_needed sys object dynstr rest res
    else fill_needed sys object dynstr rest res

def fill_dependency (sys : System) : Nat → Nat → List CString → Run (List CString)
  | fuel, i, res =>
    match res[i]? with
    | none => return res
    | some object =>
      match fuel with
      | 0 => Outcome.diverge
      | fuel + 1 => do
        let elf ← get_elf_ehdr sys object
        let dynamic ← get_section sys elf object (.lit ".dynamic")
        let dynstr ← get_section sys elf object (.lit ".dynstr")
        let res ← fill_needed sys object (dynstr.getD []) (dyns (dynamic.getD [])) res
        fill_dependency sys fuel (i + 1) res

def fill_rounds (sys : System) (fuel : Nat) : Nat → List CString → Run (List CString)
  | 0, _ => Outcome.diverge
  | rounds + 1, res => do
    let cpy := res.length
    let res ← fill_dependency sys fuel 0 res
    if cpy ≠ res.length then fill_rounds sys fuel rounds res else return res

/-- The loop over LD_PRELOAD, which is cut in place. Its first token is never NULL. -/
def preload_loop : Nat → Option Ptr → List CString → Run (List CString)
  | _, none, res => return res
  | 0, some _, _ => Outcome.diverge
  | fuel + 1, some buff, res => do
    let res ← push res (← read buff)
    let buff ← strtok none delimiters
    preload_loop fuel buff res

def preload (sys : System) (res : List CString) : Run (List CString) := do
  match ← get_env sys (.lit "LD_PRELOAD") with
  | none => return res
  | some preload =>
    let fuel := (← read preload).chars.length + 1
    let buff ← strtok (some preload) delimiters
    preload_loop fuel buff res

def build_dependency_table (sys : System) (rounds fuel : Nat) (executable_name : CString) : Run (List CString) := do
  let res ← push [] executable_name
  let res ← push res (.lit "ld.so")
  let res ← preload sys res
  let res ← fill_rounds sys fuel rounds res
  let res ← if sys.vdso.isSome then push res (.lit "linux-vdso.so.1") else pure res
  modify fun process => { process with slots := process.slots ++ [res.length] }
  return res

end ldso.process
