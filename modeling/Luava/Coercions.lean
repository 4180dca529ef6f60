import Luava.Value

/-
Lua's coercions between numbers and strings (lobject.c, lvm.c). The C library's strtod and
sprintf depend on the locale the process runs in, so they are a parameter.
-/
namespace Luava

/-- strtod gives the value and the number of bytes it consumed; sprintf n is "%.ng". -/
structure Libc where
  strtod : List UInt8 → Binary64 × Nat
  sprintf : Nat → Binary64 → List UInt8
  decimalPoint : UInt8

namespace Coercions

def lisspace (c : UInt8) : Bool := c == 32 || 9 ≤ c && c ≤ 13
def lisdigit (c : UInt8) : Bool := 48 ≤ c && c ≤ 57
def ltolower (c : UInt8) : UInt8 := c ||| 32

/- luaO_hexavalue of a hexadecimal digit. -/
def hexavalue? (c : UInt8) : Option Nat :=
  if lisdigit c then some (c.toNat - 48)
  else if 97 ≤ ltolower c && ltolower c ≤ 102 then some (c.toNat % 32 + 9)
  else none

def isneg : List UInt8 → Bool × List UInt8
  | 45 :: s => (true, s)
  | 43 :: s => (false, s)
  | s => (false, s)

/- The digit loops of l_str2int: accumulator, whether a digit was read, rest. -/
def hexDigits : Nat → Bool → List UInt8 → Nat × Bool × List UInt8
  | a, seen, [] => (a, seen, [])
  | a, seen, c :: s =>
    match hexavalue? c with
    | some d => hexDigits ((a * 16 + d) % 2 ^ 64) true s
    | none => (a, seen, c :: s)

def decimalDigits (neg : Bool) : Nat → Bool → List UInt8 → Option (Nat × Bool × List UInt8)
  | a, seen, [] => some (a, seen, [])
  | a, seen, c :: s =>
    if lisdigit c then
      let d := c.toNat - 48
      let limit := if neg then 8 else 7
      if 922337203685477580 ≤ a ∧ (922337203685477580 < a ∨ limit < d) then none
      else decimalDigits neg (a * 10 + d) true s
    else some (a, seen, c :: s)

/- l_str2int on a string without its terminator. -/
def str2int (s : List UInt8) : Option Int64 :=
  let (neg, s) := isneg (s.dropWhile lisspace)
  let digits :=
    match s with
    | 48 :: 120 :: s | 48 :: 88 :: s => some (hexDigits 0 false s)
    | s => decimalDigits neg 0 false s
  match digits with
  | some (a, true, rest) =>
    if (rest.dropWhile lisspace).isEmpty then
      some (Int64.ofInt (if neg then -(a : Int) else a))
    else none
  | _ => none

/- l_str2dloc: the numeral followed by nothing but spaces. -/
def str2dloc (libc : Libc) (s : List UInt8) : Option Binary64 :=
  let (value, consumed) := libc.strtod s
  if consumed = 0 then none
  else if ((s.drop consumed).dropWhile lisspace).isEmpty then some value
  else none

/- l_str2d: inf and nan are refused, and a dot is tried as the locale's radix mark too. -/
def str2d (libc : Libc) (s : List UInt8) : Option Binary64 :=
  let special := s.find? fun c => c == 46 || c == 120 || c == 88 || c == 110 || c == 78
  if special.map ltolower = some 110 then none
  else
    match str2dloc libc s with
    | some n => some n
    | none =>
      if s.contains 46 && s.length ≤ 200 then
        str2dloc libc (s.takeWhile (· != 46) ++
          libc.decimalPoint :: (s.dropWhile (· != 46)).drop 1)
      else none

/-- l_strton with luaO_str2num: the numeral has to reach the end of the Lua string, so a string
   with an embedded zero is no number. -/
def strton (libc : Libc) (s : List UInt8) : Option Value :=
  if s.contains 0 then none
  else
    match str2int s with
    | some i => some (.integer i)
    | none => (str2d libc s).map .float

/- The macro tonumber with luaV_tonumber_. -/
def tonumber (libc : Libc) : Value → Option Binary64
  | .float n => some n
  | .integer i => some (Binary64.ofInt i.toInt)
  | .string s =>
    match strton libc s with
    | some (.integer i) => some (Binary64.ofInt i.toInt)
    | some (.float n) => some n
    | _ => none
  | _ => none

/- luaV_tointegerns with F2Ieq. -/
def tointegerns : Value → Option Int64
  | .float n => n.flttointeger
  | .integer i => some i
  | _ => none

/- The macro tointeger with luaV_tointeger. -/
def tointeger (libc : Libc) : Value → Option Int64
  | .string s => (strton libc s).bind tointegerns
  | v => tointegerns v

/- tostringbuffFloat. -/
def floatText (libc : Libc) (n : Binary64) : List UInt8 :=
  let short := libc.sprintf 15 n
  let text := if (libc.strtod short).1.eq n then short else libc.sprintf 17 n
  if text.all fun c => c == 45 || lisdigit c then text ++ [libc.decimalPoint, 48] else text

/- luaO_tostringbuff. -/
def tostringbuff (libc : Libc) : Value → List UInt8
  | .integer i => Utf8.encode (toString i.toInt).toList
  | .float n => floatText libc n
  | _ => []

end Coercions

example : Coercions.str2int (Utf8.encode " -0x10 ".toList) = some (-16) := by decide

end Luava
