import LdSo.Lib.CString
import LdSo.Lib.Memory.Cursor

open cmodel

namespace ldso.stdio

/-- The value of an `int` expression; overflow is undefined. -/
def int (x : Int) : Outcome Int := if -2 ^ 31 ≤ x ∧ x < 2 ^ 31 then .ok x else .fault

/-- A character constant. -/
abbrev chr (c : Char) : Byte := BitVec.ofNat 8 c.toNat

/-- The arguments that `va_arg` has not taken yet, each in its 8-byte slot. -/
abbrev va_list := List (BitVec 64)

def va_arg : va_list → Outcome (BitVec 64 × va_list)
  | [] => .fault
  | arg :: args => .ok (arg, args)

def va_int (arg : BitVec 64) : Int := (arg.setWidth 32).toInt

def isdigit (c : Byte) : Bool := 0x30#8 ≤ c && c ≤ 0x39#8

def strnlen (m : Memory 64) : Nat → BitVec 64 → Outcome Nat
  | 0, _ => .ok 0
  | maxlen + 1, s => do
    let c ← Outcome.ofOption (m.byte s)
    if c = 0#8 then return 0 else return (← strnlen m maxlen (s + 1#64)) + 1

/-- A string without a terminator may take the pointer around the address space. -/
def strlen (m : Memory 64) : Nat → BitVec 64 → Outcome Nat
  | 0, _ => .diverge
  | fuel + 1, s => do
    let c ← Outcome.ofOption (m.byte s)
    if c = 0#8 then return 0 else return (← strlen m fuel (s + 1#64)) + 1

/-- The loop of `skip_atoi`, with the number read so far. -/
def skip_atoi (m : Memory 64) : Nat → BitVec 64 → Int → Outcome (Int × BitVec 64)
  | 0, _, _ => .diverge
  | fuel + 1, s, i => do
    let c ← Outcome.ofOption (m.byte s)
    if isdigit c then do
      let i ← int (i * 10)
      let i ← int (i + c.toNat)
      let i ← int (i - 48)
      skip_atoi m fuel (s + 1#64) i
    else return (i, s)

section Number

/-- pad with zero -/
def ZEROPAD : BitVec 32 := 1
/-- unsigned/signed long -/
def SIGN : BitVec 32 := 2
/-- show plus -/
def PLUS : BitVec 32 := 4
/-- space if plus -/
def SPACE : BitVec 32 := 8
/-- left justified -/
def LEFT : BitVec 32 := 16
def SMALL : BitVec 32 := 32
/-- 0x -/
def SPECIAL : BitVec 32 := 64

/-- `type & flag` as a condition. -/
def has (type flag : BitVec 32) : Bool := type &&& flag ≠ 0#32

def digits : List Byte := (CString.lit "0123456789ABCDEF").chars

/-- A loop that counts `size` down and writes `c`, with the iterations left; the
counter is decremented once more when its test fails. -/
def pad_loop (c : Byte) : Nat → Int → Cursor 64 → Outcome (Int × Cursor 64)
  | 0, size, str => do return (← int (size - 1), str)
  | n + 1, size, str => do
    let size ← int (size - 1)
    pad_loop c n size (← str.put c)

/-- The same loop where a flag makes it be skipped. -/
def pad_unless (flag : Bool) (c : Byte) (n : Nat) (size : Int) (str : Cursor 64) : Outcome (Int × Cursor 64) :=
  if flag then .ok (size, str) else pad_loop c n size str

/-- The sign, the absolute value and what is left of the width. -/
def number_sign (num : BitVec 64) (size : Int) (type : BitVec 32) : Outcome (Byte × BitVec 64 × Int) :=
  if has type SIGN then
    if num.toInt < 0 then
      if num = BitVec.intMin 64 then .fault else do return (chr '-', -num, ← int (size - 1))
    else if has type PLUS then do return (chr '+', num, ← int (size - 1))
    else if has type SPACE then do return (chr ' ', num, ← int (size - 1))
    else .ok (0#8, num, size)
  else .ok (0#8, num, size)

def number_special (base size : Int) (type : BitVec 32) : Outcome Int :=
  if has type SPECIAL then
    if base = 16 then int (size - 2) else if base = 8 then int (size - 1) else .ok size
  else .ok size

/-- The loop that fills `tmp` with the digits, with the room that is left in it.
The remainder and the quotient are those of `unsigned long`. -/
def number_digits (base : Int) (locase : Byte) : Nat → BitVec 64 → List Byte → Outcome (List Byte)
  | room, num, tmp =>
    if num = 0#64 then .ok tmp
    else
      match room with
      | 0 => .fault
      | room + 1 => do
        let div := (BitVec.ofInt 32 base).setWidth 64
        let digit ← Outcome.ofOption digits[(num % div).toNat]?
        number_digits base locase room (num / div) (tmp ++ [digit ||| locase])

def number_tmp (base : Int) (locase : Byte) (num : BitVec 64) : Outcome (List Byte) :=
  if num = 0#64 then .ok [chr '0'] else number_digits base locase 66 num []

def put_sign (sign : Byte) (str : Cursor 64) : Outcome (Cursor 64) := if sign ≠ 0#8 then str.put sign else .ok str

/-- The prefix in front of the digits. -/
def number_base (base : Int) (type : BitVec 32) (locase : Byte) (str : Cursor 64) : Outcome (Cursor 64) :=
  if has type SPECIAL then
    if base = 8 then str.put (chr '0')
    else if base = 16 then do
      let str ← str.put (chr '0')
      str.put (chr 'X' ||| locase)
    else .ok str
  else .ok str

/-- `while (i-- > 0) *str++ = tmp[i];` -/
def number_reverse (tmp : List Byte) : Nat → Cursor 64 → Outcome (Cursor 64)
  | 0, str => .ok str
  | i + 1, str => do
    let digit ← Outcome.ofOption tmp[i]?
    number_reverse tmp i (← str.put digit)

def number (str : Cursor 64) (num : BitVec 64) (base size precision : Int) (type : BitVec 32) :
    Outcome (Cursor 64) := do
  let locase := (type &&& SMALL).setWidth 8
  let type := if has type LEFT then type &&& ~~~ZEROPAD else type
  if base < 2 ∨ base > 16 then return { str with pos := 0#64 }
  let c := if has type ZEROPAD then chr '0' else chr ' '
  let (sign, num, size) ← number_sign num size type
  let size ← number_special base size type
  let tmp ← number_tmp base locase num
  let i : Int := tmp.length
  let precision := if i > precision then i else precision
  let size ← int (size - precision)
  let (size, str) ← pad_unless (has type (ZEROPAD + LEFT)) (chr ' ') size.toNat size str
  let str ← put_sign sign str
  let str ← number_base base type locase str
  let (size, str) ← pad_unless (has type LEFT) c size.toNat size str
  let (_, str) ← pad_loop (chr '0') (precision - i).toNat precision str
  let str ← number_reverse tmp tmp.length str
  let (_, str) ← pad_loop (chr ' ') size.toNat size str
  return str

end Number

/-- What stands between '%' and the conversion character; `none` is the qualifier -1. -/
structure Conversion where
  flags : BitVec 32
  field_width : Int
  precision : Int
  qualifier : Option Byte
  deriving DecidableEq

/-- The flag a character stands for. -/
def flag (c : Byte) : Option (BitVec 32) :=
  if c = chr '-' then some LEFT
  else if c = chr '+' then some PLUS
  else if c = chr ' ' then some SPACE
  else if c = chr '#' then some SPECIAL
  else if c = chr '0' then some ZEROPAD
  else none

/-- The jumps to `repeat`, from a pointer to the character in front of the flags. -/
def get_flags (m : Memory 64) : Nat → BitVec 64 → BitVec 32 → Outcome (BitVec 32 × BitVec 64)
  | 0, _, _ => .diverge
  | fuel + 1, fmt, flags => do
    let fmt := fmt + 1#64
    let c ← Outcome.ofOption (m.byte fmt)
    match flag c with
    | some f => get_flags m fuel fmt (flags ||| f)
    | none => return (flags, fmt)

def get_field_width (m : Memory 64) (fuel : Nat) (fmt : BitVec 64) (flags : BitVec 32) (args : va_list) :
    Outcome (Int × BitVec 32 × BitVec 64 × va_list) := do
  let c ← Outcome.ofOption (m.byte fmt)
  if isdigit c then do
    let (field_width, fmt) ← skip_atoi m fuel fmt 0
    return (field_width, flags, fmt, args)
  else if c = chr '*' then do
    let (arg, args) ← va_arg args
    if va_int arg < 0 then return (← int (-va_int arg), flags ||| LEFT, fmt + 1#64, args)
    else return (va_int arg, flags, fmt + 1#64, args)
  else return (-1, flags, fmt, args)

/-- What stands behind the '.', -1 when it is neither a number nor '*'. -/
def get_precision_count (m : Memory 64) (fuel : Nat) (fmt : BitVec 64) (args : va_list) :
    Outcome (Int × BitVec 64 × va_list) := do
  let c ← Outcome.ofOption (m.byte fmt)
  if isdigit c then do
    let (precision, fmt) ← skip_atoi m fuel fmt 0
    return (precision, fmt, args)
  else if c = chr '*' then do
    let (arg, args) ← va_arg args
    return (va_int arg, fmt + 1#64, args)
  else return (-1, fmt, args)

def get_precision (m : Memory 64) (fuel : Nat) (fmt : BitVec 64) (args : va_list) :
    Outcome (Int × BitVec 64 × va_list) := do
  let c ← Outcome.ofOption (m.byte fmt)
  if c = chr '.' then do
    let (precision, fmt, args) ← get_precision_count m fuel (fmt + 1#64) args
    return (if precision < 0 then 0 else precision, fmt, args)
  else return (-1, fmt, args)

def get_qualifier (m : Memory 64) (fmt : BitVec 64) : Outcome (Option Byte × BitVec 64) := do
  let c ← Outcome.ofOption (m.byte fmt)
  if c = chr 'h' ∨ c = chr 'l' ∨ c = chr 'L' then return (some c, fmt + 1#64) else return (none, fmt)

section Convert

/-- `%c`; its loops decrement before they test. -/
def convert_char (str : Cursor 64) (args : va_list) (v : Conversion) : Outcome (Cursor 64 × va_list) := do
  let (field_width, str) ← pad_unless (has v.flags LEFT) (chr ' ') (v.field_width - 1).toNat v.field_width str
  let (arg, args) ← va_arg args
  let str ← str.put (arg.setWidth 8)
  let (_, str) ← pad_loop (chr ' ') (field_width - 1).toNat field_width str
  return (str, args)

/-- `for (i = 0; i < len; ++i) *str++ = *s++;` -/
def copy_loop : Nat → BitVec 64 → Cursor 64 → Outcome (Cursor 64)
  | 0, _, str => .ok str
  | n + 1, s, str => do
    let c ← Outcome.ofOption (str.mem.byte s)
    copy_loop n (s + 1#64) (← str.put c)

/-- `%s`; the length is an `int`. -/
def convert_string (str : Cursor 64) (args : va_list) (v : Conversion) : Outcome (Cursor 64 × va_list) := do
  let (s, args) ← va_arg args
  let len := va_int (BitVec.ofNat 64 (← strnlen str.mem (BitVec.ofInt 64 v.precision).toNat s))
  let (field_width, str) ← pad_unless (has v.flags LEFT) (chr ' ') (v.field_width - len).toNat v.field_width str
  let str ← copy_loop len.toNat s str
  let (_, str) ← pad_loop (chr ' ') (field_width - len).toNat field_width str
  return (str, args)

def convert_pointer (str : Cursor 64) (args : va_list) (v : Conversion) : Outcome (Cursor 64 × va_list) := do
  let flags := if v.field_width = -1 then v.flags ||| ZEROPAD else v.flags
  let field_width := if v.field_width = -1 then 16 else v.field_width
  let (arg, args) ← va_arg args
  let str ← number str arg 16 field_width v.precision flags
  return (str, args)

/-- `%n` stores how much was written before it. -/
def convert_count (buf : BitVec 64) (str : Cursor 64) (args : va_list) (v : Conversion) :
    Outcome (Cursor 64 × va_list) := do
  let (ip, args) ← va_arg args
  let m ← if v.qualifier = some (chr 'l') then str.mem.storeWord ip (str.pos - buf)
    else str.mem.storeWord ip ((str.pos - buf).setWidth 32)
  return ({ str with mem := m }, args)

/-- The base of an integer conversion, and its flags. -/
def integer_format (c : Byte) (flags : BitVec 32) : Option (Int × BitVec 32) :=
  if c = chr 'o' then some (8, flags)
  else if c = chr 'x' then some (16, flags ||| SMALL)
  else if c = chr 'X' then some (16, flags)
  else if c = chr 'd' ∨ c = chr 'i' then some (10, flags ||| SIGN)
  else if c = chr 'u' then some (10, flags)
  else none

/-- The integer an argument is taken as. -/
def integer_arg (arg : BitVec 64) (qualifier : Option Byte) (flags : BitVec 32) : BitVec 64 :=
  if qualifier = some (chr 'l') then arg
  else if qualifier = some (chr 'h') then
    if has flags SIGN then (arg.setWidth 16).signExtend 64 else (arg.setWidth 16).setWidth 64
  else if has flags SIGN then (arg.setWidth 32).signExtend 64
  else (arg.setWidth 32).setWidth 64

/-- The conversion at `fmt`. At the end of the format the pointer is moved back, so
that the main loop meets the terminator. -/
def convert (buf : BitVec 64) (str : Cursor 64) (fmt : BitVec 64) (args : va_list) (v : Conversion) :
    Outcome (Cursor 64 × BitVec 64 × va_list) := do
  let c ← Outcome.ofOption (str.mem.byte fmt)
  if c = chr 'c' then do
    let (str, args) ← convert_char str args v
    return (str, fmt, args)
  else if c = chr 's' then do
    let (str, args) ← convert_string str args v
    return (str, fmt, args)
  else if c = chr 'p' then do
    let (str, args) ← convert_pointer str args v
    return (str, fmt, args)
  else if c = chr 'n' then do
    let (str, args) ← convert_count buf str args v
    return (str, fmt, args)
  else if c = chr '%' then do
    let str ← str.put (chr '%')
    return (str, fmt, args)
  else
    match integer_format c v.flags with
    | some (base, flags) => do
      let (arg, args) ← va_arg args
      let str ← number str (integer_arg arg v.qualifier flags) base v.field_width v.precision flags
      return (str, fmt, args)
    | none => do
      let str ← str.put (chr '%')
      if c ≠ 0#8 then do
        let str ← str.put c
        return (str, fmt, args)
      else return (str, fmt - 1#64, args)

end Convert

/-- What the main loop does at a '%'. -/
def vsprintf_directive (buf : BitVec 64) (fuel : Nat) (str : Cursor 64) (fmt : BitVec 64) (args : va_list) :
    Outcome (Cursor 64 × BitVec 64 × va_list) := do
  let (flags, fmt) ← get_flags str.mem fuel fmt 0#32
  let (field_width, flags, fmt, args) ← get_field_width str.mem fuel fmt flags args
  let (precision, fmt, args) ← get_precision str.mem fuel fmt args
  let (qualifier, fmt) ← get_qualifier str.mem fmt
  convert buf str fmt args ⟨flags, field_width, precision, qualifier⟩

/-- The main loop. The fuel bounds the characters of the format. -/
def vsprintf_loop (buf : BitVec 64) : Nat → Cursor 64 → BitVec 64 → va_list → Outcome (Cursor 64)
  | 0, _, _, _ => .diverge
  | fuel + 1, str, fmt, args => do
    let c ← Outcome.ofOption (str.mem.byte fmt)
    if c = 0#8 then return str
    else if c ≠ chr '%' then do
      let str ← str.put c
      vsprintf_loop buf fuel str (fmt + 1#64) args
    else do
      let (str, fmt, args) ← vsprintf_directive buf fuel str fmt args
      vsprintf_loop buf fuel str (fmt + 1#64) args

/-- The memory behind the call, and its result, the length as an `int`. -/
def vsprintf (fuel : Nat) (m : Memory 64) (buf fmt : BitVec 64) (args : va_list) : Outcome (Memory 64 × Int) := do
  let str ← vsprintf_loop buf fuel ⟨m, buf⟩ fmt args
  let out ← str.put 0#8
  return (out.mem, va_int (str.pos - buf))

def sprintf (fuel : Nat) (m : Memory 64) (buf fmt : BitVec 64) (args : va_list) : Outcome (Memory 64 × Int) :=
  vsprintf fuel m buf fmt args

/-- What `printf` does with its 1024 bytes at `printf_buf`: the memory behind the
call, the bytes that were passed to `write(1, ..)` and the result. -/
def printf (fuel : Nat) (m : Memory 64) (printf_buf fmt : BitVec 64) (args : va_list) :
    Outcome (Memory 64 × List Byte × Int) := do
  let (m, printed) ← vsprintf fuel m printf_buf fmt args
  let len ← strlen m (2 ^ 64) printf_buf
  let output ← Outcome.ofOption (m.load printf_buf len)
  return (m, output, printed)

end ldso.stdio
