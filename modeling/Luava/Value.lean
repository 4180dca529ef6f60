import Luava.Numbers
import Luava.Utf8

/-
The values on both sides of the boundary: Lua's tagged values with their type codes, and the
Java objects, classes and exceptions the wrapper deals in.
-/
namespace Luava

abbrev TableId := Nat

/-- A lua_State of one interpreter: the main thread or a coroutine. -/
inductive ThreadId where
  | main
  | coroutine (id : Nat)
  deriving DecidableEq, Repr

/-- cfunction is the light C function of a Java upcall stub; closure is any other function. -/
inductive Function where
  | cfunction (stub : Nat)
  | closure (id : Nat)
  deriving DecidableEq, Repr

inductive Value where
  | nil
  | boolean (b : Bool)
  | lightuserdata (address : Nat)
  | integer (i : Int64)
  | float (n : Binary64)
  | string (bytes : List UInt8)
  | table (id : TableId)
  | function (f : Function)
  | userdata (id : Nat)
  | thread (id : ThreadId)
  deriving DecidableEq, Repr

namespace Value

/- The value of a C string literal. -/
def literal (s : String) : Value := string (Utf8.encode s.toList)

def isNil : Value → Bool
  | nil => true
  | _ => false

def isNumber : Value → Bool
  | integer _ | float _ => true
  | _ => false

def isString : Value → Bool
  | string _ => true
  | _ => false

def isFalse : Value → Bool
  | nil | boolean false => true
  | _ => false

end Value

/-- LuaType.java: the constants and their native codes. -/
inductive LuaType where
  | none | nil | boolean | lightUserdata | number | string | table | function | userdata
  | thread | numtypes
  deriving DecidableEq, Repr

namespace LuaType

def all : List LuaType :=
  [none, nil, boolean, lightUserdata, number, string, table, function, userdata, thread, numtypes]

def type : LuaType → Int
  | none => -1
  | nil => 0
  | boolean => 1
  | lightUserdata => 2
  | number => 3
  | string => 4
  | table => 5
  | function => 6
  | userdata => 7
  | thread => 8
  | numtypes => 9

def name : LuaType → String
  | none => "NONE"
  | nil => "NIL"
  | boolean => "BOOLEAN"
  | lightUserdata => "LIGHT_USERDATA"
  | number => "NUMBER"
  | string => "STRING"
  | table => "TABLE"
  | function => "FUNCTION"
  | userdata => "USERDATA"
  | thread => "THREAD"
  | numtypes => "NUMTYPES"

def forCode (code : Int) : Option LuaType := all.find? (·.type == code)

/- ttype of a value. -/
def ofValue : Value → LuaType
  | .nil => nil
  | .boolean _ => boolean
  | .lightuserdata _ => lightUserdata
  | .integer _ | .float _ => number
  | .string _ => string
  | .table _ => table
  | .function _ => function
  | .userdata _ => userdata
  | .thread _ => thread

theorem for_code_type (t : LuaType) : forCode t.type = some t := by
  cases t <;> rfl

/- luaT_typenames_. -/
def typename : LuaType → String
  | none => "no value"
  | nil => "nil"
  | boolean => "boolean"
  | lightUserdata => "userdata"
  | number => "number"
  | string => "string"
  | table => "table"
  | function => "function"
  | userdata => "userdata"
  | thread => "thread"
  | numtypes => "upvalue"

end LuaType

inductive Primitive where
  | boolean | byte | char | short | int | long | float | double | void
  deriving DecidableEq, Repr

/-- A java.lang.Class object. A boxed class and its primitive are different objects. -/
inductive JavaClass where
  | primitive (p : Primitive)
  | boolean | integer | long | float | double | string | void
  | other (name : String)
  deriving DecidableEq, Repr

namespace JavaClass

def isPrimitive : JavaClass → Bool
  | primitive _ => true
  | _ => false

/- Class.toString. -/
def text : JavaClass → String
  | primitive .boolean => "boolean"
  | primitive .byte => "byte"
  | primitive .char => "char"
  | primitive .short => "short"
  | primitive .int => "int"
  | primitive .long => "long"
  | primitive .float => "float"
  | primitive .double => "double"
  | primitive .void => "void"
  | boolean => "class java.lang.Boolean"
  | integer => "class java.lang.Integer"
  | long => "class java.lang.Long"
  | float => "class java.lang.Float"
  | double => "class java.lang.Double"
  | string => "class java.lang.String"
  | void => "class java.lang.Void"
  | other name => "class " ++ name

end JavaClass

/-- function is an instance of lua_CFunction.Function, known by an identity of its own. -/
inductive Object where
  | null
  | integer (i : Int32)
  | long (i : Int64)
  | float (f : Binary32)
  | double (d : Binary64)
  | boolean (b : Bool)
  | string (s : String)
  | function (id : Nat)
  | other (className text : String)
  deriving DecidableEq, Repr

inductive JavaException where
  | luaException (message : String)
  | functionCallException (function : String) (errorCode : Int) (rootError : String)
  | illegalArgument (message : String)
  | illegalState (message : String)
  | unsupportedOperation (message : String)
  | illegalAccess (message : String)
  | invocationTarget
  | other (className message : String)
  deriving DecidableEq, Repr

namespace JavaException

/- FunctionCallException is a subclass of LuaException. -/
def isLuaException : JavaException → Bool
  | luaException _ | functionCallException .. => true
  | _ => false

/- Throwable.getMessage as it is concatenated into other messages. -/
def getMessage : JavaException → String
  | luaException message | illegalArgument message | illegalState message
  | unsupportedOperation message | illegalAccess message | other _ message => message
  | functionCallException function errorCode rootError =>
    "Function '" ++ function ++ "' failed with error " ++ toString errorCode ++ ": " ++ rootError
  | invocationTarget => "null"

end JavaException

end Luava
