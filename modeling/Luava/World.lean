import Luava.Effects
import Luava.Heap
import Luava.Coercions

/-
The state a run of the wrapper works on: the Lua state with the stacks of its threads, the
arena, and the registered callbacks, together with a record of the API checks that failed.
The checks are compiled out of the library, so a failed check changes nothing else.
-/
namespace Luava

/-- slots holds the whole stack, newest first, down to the entry of the base frame. func and
   ciTop are offsets of ci->func and ci->top from the bottom of the stack. -/
structure LuaState where
  slots : List Value
  func : Nat
  ciTop : Nat

def LUA_MINSTACK : Nat := 20
def MAXRESULTS : Nat := 250

namespace LuaState

/- stack_init: the entry of the base frame holds nil. -/
def init : LuaState := ⟨[.nil], 0, 1 + LUA_MINSTACK⟩

def top (s : LuaState) : Nat := s.slots.length

/- Free slots of the current frame. -/
def free (s : LuaState) : Nat := s.ciTop - s.top

end LuaState

/-- lua_close runs finalizers between closing and closed. -/
inductive Status where
  | opened | closing | closed
  deriving DecidableEq, Repr

/-- What a registered C function calls: a method of an object, or a lua_CFunction.Function. -/
inductive Callback where
  | method (id : Nat)
  | function (id : Nat)
  deriving DecidableEq, Repr

structure LuaTable where
  state : ThreadId
  tableIndex : Int
  deriving DecidableEq, Repr

/- The constructor of LuaTable is not public: a table Java code holds is one getGlobalTable
   returned, on the main thread at index -1. -/
abbrev Handle := { t : LuaTable // t = ⟨.main, -1⟩ }

structure LuaFunction where
  name : String
  argumentValues : List Object
  resultTypes : List JavaClass
  deriving DecidableEq, Repr

/-- The public operations, each with its arguments. -/
inductive Operation where
  | exec (chunk : String)
  | getGlobalString (name : String)
  | getGlobalInteger (name : String)
  | getGlobalNumber (name : String)
  | getGlobalBoolean (name : String)
  | getGlobalTable (name : String)
  | setGlobalString (name value : String)
  | setGlobalInteger (name : String) (value : Int64)
  | setGlobalNumber (name : String) (value : Binary64)
  | setGlobalBoolean (name : String) (value : Bool)
  | setGlobalFunction (name : String) (method : Nat)
  | call (function : LuaFunction)
  | getString (table : Handle) (key : String)
  | getInteger (table : Handle) (key : String)
  | getNumber (table : Handle) (key : String)
  | getBoolean (table : Handle) (key : String)
  | close
  deriving DecidableEq, Repr

inductive OperationResult where
  | done
  | string (s : String)
  | integer (i : Int64)
  | number (d : Binary64)
  | boolean (b : Bool)
  | table (t : LuaTable)
  | list (values : List Object)
  deriving DecidableEq, Repr

/-- The api_check conditions, and two the FFM API leaves to its users. -/
inductive Violation where
  | stackOverflow
  | resultsOverflow
  | numberOfResults
  | invalidIndex
  | invalidTop
  | notEnoughElements
  | afterClose
  | deadStub
  deriving DecidableEq, Repr

/-- A step of a run and the state it was taken in: an operation, or an upcall that is about to
   push the result of its method. -/
inductive Step where
  | operation (o : Operation) (before : LuaState) (heap : Heap) (status : Status) (calls : Nat)
  | result (o : Object) (before : LuaState)

/-- The record of a run: the lowest top of the main stack, the failed checks and the steps,
   latest first. -/
structure Record where
  low : Nat
  failed : List Violation
  steps : List Step

structure World where
  heap : Heap
  main : LuaState
  coroutine : Nat → LuaState
  callbacks : List Callback
  arenaOpen : Bool
  status : Status
  -- Lua calls under way, each started by a native function
  calls : Nat
  -- the methods invoked by Lua with the arguments they were handed, latest first
  invocations : List (Nat × List Object)
  record : Record

/-- How a computation ends other than by a value. A Lua error unwinds to the innermost protected
   call of its thread. An exception that leaves an upcall stub terminates the JVM. Undefined is
   an access to memory the Lua state does not own. -/
inductive Fault where
  | exception (e : JavaException)
  | luaError (L : ThreadId) (e : LuaError)
  | jvmTerminated
  | undefined
  deriving DecidableEq, Repr

abbrev Wrapper := EStateM Fault World

namespace World

def thread (w : World) : ThreadId → LuaState
  | .main => w.main
  | .coroutine id => w.coroutine id

def setThread (w : World) (s : LuaState) : ThreadId → World
  | .main => { w with main := s, record := { w.record with low := min w.record.low s.top } }
  | .coroutine id => { w with coroutine := fun i => if i = id then s else w.coroutine i }

def fail (w : World) (v : Violation) : World :=
  { w with record := { w.record with failed := v :: w.record.failed } }

/- api_check. -/
def check (w : World) (condition : Prop) [Decidable condition] (v : Violation) : World :=
  if condition then w else w.fail v

def addStep (w : World) (s : Step) : World :=
  { w with record := { w.record with steps := s :: w.record.steps } }

/- luaL_newstate with the libraries opened, and an arena of its own. -/
def create (heap : Heap) : World where
  heap := heap
  main := .init
  coroutine := fun _ => .init
  callbacks := []
  arenaOpen := true
  status := .opened
  calls := 0
  invocations := []
  record := ⟨LuaState.init.top, [], []⟩

/- The n slots at the bottom of a stack. -/
def bottom (n : Nat) (slots : List Value) : List Value := slots.drop (slots.length - n)

/-- What a long jump or a return to thread L's frame of w' makes of w: the frame's own slots
   as they are now, its ci, and the calls that were under way. -/
def unwind (w : World) (L : ThreadId) (w' : World) : World :=
  let frame := w'.thread L
  { w.setThread ⟨bottom frame.top (w.thread L).slots, frame.func, frame.ciTop⟩ L with
    calls := w'.calls }

end World

/- lua_newstate leaves the base frame with 20 free slots. -/
example : LuaState.init.free = LUA_MINSTACK := rfl

end Luava
