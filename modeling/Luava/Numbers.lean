import Mathlib.Algebra.Group.Int.Defs
import Mathlib.Algebra.Group.Nat.Defs
import Mathlib.Data.Nat.Log

/-
The two number formats the wrapper moves between Java and Lua, as bit patterns: IEEE 754
binary64 (Java double, lua_Number) and binary32 (Java float). Only the operations the
conversions use are here.
-/
namespace Luava

structure Binary64 where
  bits : UInt64
  deriving DecidableEq, Repr

structure Binary32 where
  bits : UInt32
  deriving DecidableEq, Repr

namespace Binary64

def negative (d : Binary64) : Bool := decide (2 ^ 63 ≤ d.bits.toNat)
def exponent (d : Binary64) : Nat := d.bits.toNat / 2 ^ 52 % 2 ^ 11
def fraction (d : Binary64) : Nat := d.bits.toNat % 2 ^ 52

def isNaN (d : Binary64) : Bool := d.exponent == 2047 && d.fraction != 0
def isZero (d : Binary64) : Bool := d.exponent == 0 && d.fraction == 0

/- A finite value is significand * 2 ^ (max exponent 1 - 1075), up to its sign. -/
def significand (d : Binary64) : Nat :=
  if d.exponent = 0 then d.fraction else 2 ^ 52 + d.fraction

/- The C comparison d == e. -/
def eq (d e : Binary64) : Bool :=
  !d.isNaN && !e.isNaN && (d == e || d.isZero && e.isZero)

def ofParts (negative : Bool) (exponent fraction : Nat) : Binary64 :=
  ⟨UInt64.ofNat ((if negative then 2 ^ 63 else 0) + exponent * 2 ^ 52 + fraction)⟩

/- cast_num of a lua_Integer: round to nearest, ties to even. -/
def ofInt (i : Int) : Binary64 :=
  let n := i.natAbs
  if n = 0 then ofParts false 0 0
  else
    let e := Nat.log2 n
    if e ≤ 52 then ofParts (decide (i < 0)) (e + 1023) (n * 2 ^ (52 - e) - 2 ^ 52)
    else
      let q := n / 2 ^ (e - 52)
      let r := n % 2 ^ (e - 52)
      let half := 2 ^ (e - 53)
      let rounded := if half < r ∨ (r = half ∧ q % 2 = 1) then q + 1 else q
      -- a carry out of the fraction moves on into the exponent
      ofParts (decide (i < 0)) (e + 1023) (rounded - 2 ^ 52)

/- The magnitude of an integral value below 2 ^ 64. -/
def integral? (d : Binary64) : Option Nat :=
  let e := max d.exponent 1
  if 1087 ≤ e then none
  else if 1075 ≤ e then some (d.significand * 2 ^ (e - 1075))
  else if e < 1023 then if d.significand = 0 then some 0 else none
  else if d.significand % 2 ^ (1075 - e) = 0 then some (d.significand / 2 ^ (1075 - e))
  else none

/- luaV_flttointeger with mode F2Ieq: only integral values in the range of lua_Integer. -/
def flttointeger (d : Binary64) : Option Int64 :=
  match d.integral? with
  | none => none
  | some n =>
    let i : Int := if d.negative then -n else n
    if -2 ^ 63 ≤ i ∧ i < 2 ^ 63 then some (Int64.ofInt i) else none

end Binary64

/- The widening conversion from Java float to double. -/
def Binary32.toBinary64 (f : Binary32) : Binary64 :=
  let n := f.bits.toNat
  let negative := decide (2 ^ 31 ≤ n)
  let exponent := n / 2 ^ 23 % 2 ^ 8
  let fraction := n % 2 ^ 23
  if exponent = 255 then Binary64.ofParts negative 2047 (fraction * 2 ^ 29)
  else if exponent = 0 then
    if fraction = 0 then Binary64.ofParts negative 0 0
    else
      let e := Nat.log2 fraction
      Binary64.ofParts negative (e + 874) (fraction * 2 ^ (52 - e) - 2 ^ 52)
  else Binary64.ofParts negative (exponent + 896) (fraction * 2 ^ 29)

example : Binary64.flttointeger (Binary64.ofInt 42) = some 42 := by decide
example : Binary64.flttointeger ⟨0x4045199999999A⟩ = none := by decide

end Luava
