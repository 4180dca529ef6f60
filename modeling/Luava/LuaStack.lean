import Luava.LuaApi

/-
LuaStack.java: the typed pushes, pops and reads of one thread's stack.
-/
namespace Luava

open LuaApi

def throwJava {α : Type} (e : JavaException) : Wrapper α := throw (.exception e)

namespace Arena

/-- Every allocation, of a C string, of an out parameter or of an upcall stub, first checks that
   the arena is alive. -/
def allocate : Wrapper Unit := do
  if !(← get).arenaOpen then throwJava (.illegalState "Already closed")

/- allocateFrom(String): the UTF-8 bytes and one zero. -/
def allocateFrom (s : String) : Wrapper (List UInt8) := do
  allocate
  return Utf8.encode s.toList ++ [0]

def close : Wrapper Unit := do
  allocate
  modify fun w => { w with arenaOpen := false }

end Arena

namespace LuaStack

variable (vm : VM) (L : ThreadId)

def getType (idx : Int) : Wrapper LuaType := do
  let type ← luaType L idx
  match LuaType.forCode type with
  | some t => return t
  | none => throwJava (.illegalArgument ("No type found for code " ++ toString type))

def isString (idx : Int) : Wrapper Bool := luaIsstring L idx

def pushNil : Wrapper Unit := luaPushnil L
def pushBoolean (value : Bool) : Wrapper Unit := luaPushboolean L value
def pushNumber (n : Binary64) : Wrapper Unit := luaPushnumber L n
def pushInteger (n : Int64) : Wrapper Unit := luaPushinteger L n

def pushString (value : String) : Wrapper Unit := do
  let segment ← Arena.allocateFrom value
  luaPushlstring L (segment.take (segment.length - 1))

/- The upcall stub is a new entry of the callbacks. -/
def pushCFunction (fn : Callback) : Wrapper Unit := do
  Arena.allocate
  let stub := (← get).callbacks.length
  modify fun w => { w with callbacks := w.callbacks ++ [fn] }
  luaPushcfunction L stub

def pushObject : Object → Wrapper Unit
  | .null => pushNil L
  | .integer i => pushInteger L i.toInt64
  | .long l => pushInteger L l
  | .float f => pushNumber L f.toBinary64
  | .double d => pushNumber L d
  | .boolean b => pushBoolean L b
  | .string s => pushString L s
  | .function f => pushCFunction L (.function f)
  | .other className text =>
    throwJava (.illegalArgument
      ("Unsupported type " ++ className ++ " of value '" ++ text ++ "'"))

def setTop (n : Int) : Wrapper Unit := luaSettop L n

def popN (n : Nat) : Wrapper Unit := setTop L (-(n : Int) - 1)

def pop : Wrapper Unit := popN L 1

def toBoolean (idx : Int) : Wrapper Bool := luaToboolean L idx

def popBoolean : Wrapper Bool := do
  let bool ← toBoolean L (-1)
  pop L
  return bool

/- One trailing zero byte is taken for a terminator. -/
def stripZero (bytes : List UInt8) : List UInt8 :=
  if bytes.getLast? = some 0 then bytes.dropLast else bytes

/- MemorySegment.toArray takes the bytes of a string that fits a Java array, that is at most
   2^31 - 9 of them; longer strings are left out here. -/
def toString (idx : Int) : Wrapper String := do
  if !(← isString L idx) then
    let type ← getType L idx
    throwJava (.luaException
      ("Expected string at index " ++ ToString.toString idx ++ " but was " ++ type.name))
  Arena.allocate
  match ← luaTolstring vm L idx with
  | some bytes => return String.ofList (Utf8.decode (stripZero bytes))
  | none => throw .undefined

def popString : Wrapper String := do
  let value ← toString vm L (-1)
  pop L
  return value

def toNumber (idx : Int) : Wrapper Binary64 := do
  Arena.allocate
  match ← luaTonumberx vm L idx with
  | some value => return value
  | none =>
    let type ← getType L idx
    throwJava (.luaException
      ("No number at index " ++ ToString.toString idx ++ " but is " ++ type.name))

def popNumber : Wrapper Binary64 := do
  let number ← toNumber vm L (-1)
  pop L
  return number

def toInteger (idx : Int) : Wrapper Int64 := do
  Arena.allocate
  match ← luaTointegerx vm L idx with
  | some value => return value
  | none =>
    let type ← getType L idx
    throwJava (.luaException
      ("No integer at index " ++ ToString.toString idx ++ " but is " ++ type.name))

def popInteger : Wrapper Int64 := do
  let integer ← toInteger vm L (-1)
  pop L
  return integer

def getTop : Wrapper Int := luaGettop L

def toObject (idx : Int) (expectedType : JavaClass) : Wrapper Object := do
  let type ← getType L idx
  if type = .nil then return .null
  if expectedType = .boolean then return .boolean (← toBoolean L idx)
  if expectedType = .long ∨ expectedType = .primitive .long then
    return .long (← toInteger vm L idx)
  if expectedType = .double then return .double (← toNumber vm L idx)
  if expectedType = .string then return .string (← toString vm L idx)
  throwJava (.unsupportedOperation
    ("Unsupported Lua type " ++ expectedType.text ++ " / " ++ type.name))

def popObject (expectedType : JavaClass) : Wrapper Object := do
  let result ← toObject vm L (-1) expectedType
  pop L
  return result

def format (idx : Int) : Wrapper String := do
  let type ← getType L idx
  let result := "#" ++ ToString.toString idx ++ " " ++ type.name
  let value ←
    match type with
    | .string => toString vm L idx
    | .number => vm.valueOf <$> toNumber vm L idx
    | .boolean => (fun b => if b then "true" else "false") <$> toBoolean L idx
    | _ => pure ""
  return if value = "" then result else result ++ ": " ++ value

/- The loop of printStack: index, indices left, text so far. -/
def printSlots (top : Int) : Nat → Nat → String → Wrapper String
  | _, 0, b => return b
  | idx, left + 1, b => do
    let slot ← format vm L idx
    printSlots top (idx + 1) left (b ++ slot ++ if idx < top then ", " else "")

def printStack : Wrapper String := do
  let top ← getTop L
  printSlots vm L top 1 top.toNat ("Stack size: " ++ ToString.toString top ++ ": ")

/- The i-th of n values is read at index i - n, the lowest first. -/
def toObjects (n : Nat) : Nat → List JavaClass → Wrapper (List Object)
  | _, [] => return []
  | i, type :: types => do
    let value ← toObject vm L ((i : Int) - n) type
    let values ← toObjects n (i + 1) types
    return value :: values

/- Get the top elements from the stack without removing them. -/
def getValues (types : List JavaClass) : Wrapper (List Object) := do
  let values ← toObjects vm L types.length 0 types
  if vm.finest then
    let _ ← printStack vm L
  return values

end LuaStack

end Luava
