import LdSo.ElfManipulation
import LdSo.Lib.Worklist

open cmodel

namespace ldso

namespace display_auxv

open string

/-- The scan of the environment. The entry only has to begin with the name; the
character behind it is skipped, whatever it is. -/
def get_env_value : List CString → CString → Outcome (Option CString)
  | [], _ => .ok none
  | env :: rest, name =>
    let name_size := name.chars.length
    if name_size < env.chars.length then do
      let order ← strncmp env.bytes name.bytes name_size
      if order = 0 then return some (env.drop (name_size + 1)) else get_env_value rest name
    else get_env_value rest name

end display_auxv

namespace dependency

open elf elf_manipulation string utility display_auxv

/-- The separators of LD_PRELOAD and of the search paths. -/
def delimiters : CString := .lit ":; "

/-- For an empty path the last byte that is looked at lies before the buffer. -/
def concatenate (path name : CString) : Outcome CString :=
  match path.chars.getLast? with
  | none => .fault
  | some c => .ok (if c ≠ 0x2f#8 then (path.append (.lit "/")).append name else path.append name)

/-- The loop of `test` over the directories of a path. -/
def test_directories (sys : System) (name : CString) : List CString → Outcome (Option CString)
  | [] => .ok none
  | buff :: rest => do
    let ret ← concatenate buff name
    if (sys.file ret).isSome then return some ret else test_directories sys name rest

def test (sys : System) (path name : CString) : Outcome (Option CString) := do
  let path ← strdup sys path
  test_directories sys name (strtok_tokens path delimiters)

/-- The loop over the dynamic section that tries each path with tag `tag`. -/
def search_paths (sys : System) (tag : BitVec 64) (string : List Byte) (name : CString) :
    List Dyn → Outcome (Option CString)
  | [] => .fault
  | dyn :: rest =>
    if dyn.d_tag = DT_NULL then .ok none
    else if dyn.d_tag = tag then do
      let path ← CString.read string dyn.d_val.toNat
      match ← test sys path name with
      | some res => return some res
      | none => search_paths sys tag string name rest
    else search_paths sys tag string name rest

/-- The search of LD_LIBRARY_PATH, when it is set. -/
def search_environment (sys : System) (name : CString) : Outcome (Option CString) := do
  match ← get_env_value sys.envp (.lit "LD_LIBRARY_PATH") with
  | none => return none
  | some path => test sys path name

def get_lib_absolute_path (sys : System) (name binary : CString) : Outcome CString := do
  if name.chars.head? = some 0x2f#8 then return name
  if (← test sys (.lit ".") name).isSome then return name
  let elf ← get_elf_ehdr sys binary
  let dyn ← get_section sys elf binary (.lit ".dynamic")
  let string ← get_section sys elf binary (.lit ".dynstr")
  if let some res ← search_paths sys DT_RPATH (string.getD []) name (dyns (dyn.getD [])) then return res
  if let some res ← search_environment sys name then return res
  if let some res ← search_paths sys DT_RUNPATH (string.getD []) name (dyns (dyn.getD [])) then return res
  if let some res ← test sys (.lit "/lib/") name then return res
  if let some res ← test sys (.lit "/usr/lib/") name then return res
  .exit 1

def is_in (res : List CString) (name : CString) : Bool := res.any fun s => s = name

/-- The loop over the dynamic section of `object`, which the table has already. -/
def fill_needed (sys : System) (object : CString) (dynstr : List Byte) : List Dyn → List CString →
    Outcome (List CString)
  | [], _ => .fault
  | dynamic :: rest, res =>
    if dynamic.d_tag = DT_NULL then .ok res
    else if dynamic.d_tag = DT_NEEDED then do
      let name ← CString.read dynstr dynamic.d_val.toNat
      let name ← get_lib_absolute_path sys name object
      fill_needed sys object dynstr rest (if is_in res name then res else res ++ [name])
    else fill_needed sys object dynstr rest res

/-- The loop of `fill_dependency` from index `i` on. The table holds the first
`*nb_dep` elements; the fuel bounds the number of objects that are scanned. -/
def fill_dependency (sys : System) : Nat → Nat → List CString → Outcome (List CString)
  | fuel, i, res =>
    match res[i]? with
    | none => .ok res
    | some object =>
      match fuel with
      | 0 => .diverge
      | fuel + 1 => do
        let elf ← get_elf_ehdr sys object
        let dynamic ← get_section sys elf object (.lit ".dynamic")
        let dynstr ← get_section sys elf object (.lit ".dynstr")
        let res ← fill_needed sys object (dynstr.getD []) (dyns (dynamic.getD [])) res
        fill_dependency sys fuel (i + 1) res

/-- The loop that fills the table until it stays the same, at most `rounds` times. -/
def fill_rounds (sys : System) (fuel : Nat) : Nat → List CString → Outcome (List CString)
  | 0, _ => .diverge
  | rounds + 1, res => do
    let cpy := res.length
    let res ← fill_dependency sys fuel 0 res
    if cpy ≠ res.length then fill_rounds sys fuel rounds res else return res

/-- The tokens of LD_PRELOAD. -/
def preload (sys : System) : Outcome (List CString) := do
  match ← get_env_value sys.envp (.lit "LD_PRELOAD") with
  | none => return []
  | some preload => return strtok_tokens preload delimiters

def build_dependency_table (sys : System) (rounds fuel : Nat) (executable_name : CString) :
    Outcome (List CString) := do
  let preload ← preload sys
  let res ← fill_rounds sys fuel rounds ([executable_name, .lit "ld.so"] ++ preload)
  return if sys.vdso.isSome then res ++ [.lit "linux-vdso.so.1"] else res

end dependency

end ldso
