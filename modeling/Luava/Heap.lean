import Luava.Value
import Mathlib.Logic.Function.Basic

/-
Lua tables and metatables as far as table accesses from C follow them. Walking a chain of
handlers changes nothing, so an access is a pure function up to the point where a handler
function has to be called.
-/
namespace Luava

/-- get is the raw content; nil marks an absent key. -/
structure Table where
  get : Value → Value
  metatable : Option TableId

structure Heap where
  table : TableId → Table
  globals : TableId
  userdataMetatable : Nat → Option TableId
  typeMetatable : LuaType → Option TableId

def LUA_OK : Int := 0
def LUA_ERRRUN : Int := 2
def LUA_ERRSYNTAX : Int := 3

/-- A Lua error on its way: the status luaD_throw was called with and the error object. -/
structure LuaError where
  status : Int
  object : Value
  failed : status ≠ LUA_OK
  deriving DecidableEq, Repr

def LuaError.run (message : String) : LuaError :=
  ⟨LUA_ERRRUN, Value.literal message, by decide⟩

namespace Heap

def rawget (h : Heap) (t : TableId) (key : Value) : Value := (h.table t).get key

def rawset (h : Heap) (t : TableId) (key val : Value) : Heap :=
  let updated : Table := { h.table t with get := Function.update (h.table t).get key val }
  { h with table := Function.update h.table t updated }

def metatable (h : Heap) : Value → Option TableId
  | .table t => (h.table t).metatable
  | .userdata u => h.userdataMetatable u
  | v => h.typeMetatable (LuaType.ofValue v)

/- luaT_gettmbyobj: the raw field of the metatable, nil when there is none. -/
def gettmbyobj (h : Heap) (v : Value) (event : String) : Value :=
  match h.metatable v with
  | some mt => h.rawget mt (Value.literal event)
  | none => .nil

/- luaT_objtypename: the __name of a table or userdata as a C string, or the name of the type. -/
def objtypename (h : Heap) (v : Value) : List UInt8 :=
  match v, h.gettmbyobj v "__name" with
  | .table _, .string name | .userdata _, .string name => Utf8.cString name
  | _, _ => Utf8.encode (LuaType.ofValue v).typename.toList

/- luaG_typeerror raised from a C frame, which adds no position and no variable name. -/
def typeerror (h : Heap) (v : Value) (operation : String) : LuaError :=
  ⟨LUA_ERRRUN, .string (Utf8.encode ("attempt to " ++ operation ++ " a ").toList ++
    h.objtypename v ++ Utf8.encode " value".toList), by decide⟩

def MAXTAGLOOP : Nat := 2000

/-- Where a table read ends: with a value, in the call of a handler function on an object, or
   in an error. -/
inductive Access where
  | value (v : Value)
  | call (tm object : Value)
  | fail (e : LuaError)
  deriving DecidableEq

/- luaV_fastget: a present value of a table. -/
def fastget (h : Heap) (t key : Value) : Option Value :=
  match t with
  | .table id => if (h.rawget id key).isNil then none else some (h.rawget id key)
  | _ => none

/- luaV_finishget up to the call of a function: loop iterations that are left, object. -/
def finishget (h : Heap) (key : Value) : Nat → Value → Access
  | 0, _ => .fail (.run "'__index' chain too long; possible loop")
  | loop + 1, t =>
    match h.gettmbyobj t "__index" with
    | .nil =>
      match t with
      | .table _ => .value .nil
      | _ => .fail (h.typeerror t "index")
    | .function f => .call (.function f) t
    | tm =>
      match h.fastget tm key with
      | some v => .value v
      | none => finishget h key loop tm

def access (h : Heap) (t key : Value) : Access :=
  match h.fastget t key with
  | some v => .value v
  | none => h.finishget key MAXTAGLOOP t

/-- Where a table write ends. -/
inductive Assignment where
  | store (t : TableId)
  | call (tm object : Value)
  | fail (e : LuaError)
  deriving DecidableEq

/-- luaV_fastset with luaH_psetstr: an existing key is overwritten, and a new one is added
   when no handler intervenes and insertkey finds room without a rehash. -/
def fastset (insertkey : Heap → TableId → Value → Bool) (h : Heap) (t key : Value) :
    Option TableId :=
  match t with
  | .table id =>
    if !(h.rawget id key).isNil || (h.gettmbyobj t "__newindex").isNil && insertkey h id key
    then some id else none
  | _ => none

def finishset (insertkey : Heap → TableId → Value → Bool) (h : Heap) (key : Value) :
    Nat → Value → Assignment
  | 0, _ => .fail (.run "'__newindex' chain too long; possible loop")
  | loop + 1, t =>
    match h.gettmbyobj t "__newindex" with
    | .nil =>
      match t with
      | .table id => .store id
      | _ => .fail (h.typeerror t "index")
    | .function f => .call (.function f) t
    | tm =>
      match h.fastset insertkey tm key with
      | some id => .store id
      | none => finishset insertkey h key loop tm

/-- How a call starts: at a function, with the callee put before the arguments once for every
   __call handler that was followed. -/
inductive Callee where
  | function (f : Function) (args : List Value)
  | fail (e : LuaError)
  deriving DecidableEq

def MAX_CCMT : Nat := 15

/- luaD_precall with tryfuncTM. -/
def precall (h : Heap) : Nat → Value → List Value → Callee
  | count, callee, args =>
    match callee with
    | .function f => .function f args
    | _ =>
      match h.gettmbyobj callee "__call", count with
      | .nil, _ => .fail (h.typeerror callee "call")
      | _, 0 => .fail (.run "'__call' chain too long")
      | tm, count + 1 => precall h count tm (callee :: args)

theorem rawget_rawset_self (h : Heap) (t : TableId) (key val : Value) :
    (h.rawset t key val).rawget t key = val := by
  simp [rawget, rawset]

theorem rawget_rawset_other (h : Heap) {t u : TableId} {key k : Value} (val : Value)
    (other : u ≠ t ∨ k ≠ key) : (h.rawset t key val).rawget u k = h.rawget u k := by
  by_cases same : u = t
  · subst same
    have different : k ≠ key := other.resolve_left (by simp)
    simp [rawget, rawset, different]
  · simp [rawget, rawset, same]

theorem metatable_rawset (h : Heap) (t : TableId) (key val v : Value) :
    (h.rawset t key val).metatable v = h.metatable v := by
  cases v with
  | table u =>
    by_cases same : u = t
    · subst same; simp [metatable, rawset]
    · simp [metatable, rawset, same]
  | _ => rfl

theorem globals_rawset (h : Heap) (t : TableId) (key val : Value) :
    (h.rawset t key val).globals = h.globals := rfl

/- A table without a metatable is read and written as the map it holds. -/
theorem access_plain (h : Heap) (t : TableId) (key : Value)
    (plain : (h.table t).metatable = none) :
    h.access (.table t) key = .value (h.rawget t key) := by
  simp only [access, fastget]
  cases content : h.rawget t key with
  | nil => simp [Value.isNil, MAXTAGLOOP, finishget, gettmbyobj, metatable, plain]
  | _ => simp [Value.isNil]

theorem finishset_plain (insertkey : Heap → TableId → Value → Bool) (h : Heap) (t : TableId)
    (key : Value) (loop : Nat) (plain : (h.table t).metatable = none) :
    h.finishset insertkey key (loop + 1) (.table t) = .store t := by
  simp [finishset, gettmbyobj, metatable, plain]

end Heap

end Luava
