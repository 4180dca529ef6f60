import Luava.LuaStack

/-
LowLevelLua.java, LuaTable.java, LuaFunction.java and LuaInterpreter.java.
-/
namespace Luava

open LuaApi

namespace LowLevelLua

variable (vm : VM) (state : ThreadId)

def checkStatus (functionName : String) (nativeFunctionCall : Wrapper Int) : Wrapper Unit := do
  let status ← nativeFunctionCall
  if status ≠ LUA_OK then
    let message ← LuaStack.popString vm state
    throwJava (.functionCallException functionName status message)

def pcall (nargs nresults : Nat) : Wrapper Unit :=
  checkStatus vm state "lua_pcallk" (luaPcallk vm state nargs nresults)

def loadString (chunk : String) : Wrapper Unit :=
  checkStatus vm state "luaL_loadstring" do
    let segment ← Arena.allocateFrom chunk
    luaLLoadstring vm state segment

def getGlobal (name : String) : Wrapper Unit := do
  let segment ← Arena.allocateFrom name
  let _ ← luaGetglobal vm state segment

def setGlobal (name : String) : Wrapper Unit := do
  let segment ← Arena.allocateFrom name
  luaSetglobal vm state segment

def assertType (idx : Int) (expectedType : LuaType) : Wrapper Unit := do
  let type ← LuaStack.getType state idx
  if type ≠ expectedType then
    throwJava (.luaException ("Expected " ++ expectedType.name ++ " at " ++ toString idx ++
      " but got " ++ type.name))

def table (idx : Int) : Wrapper LuaTable := do
  assertType state idx .table
  return ⟨state, idx⟩

def close : Wrapper Unit := do
  luaClose vm
  Arena.close

end LowLevelLua

namespace LuaTable

variable (vm : VM) (t : LuaTable)

def getFieldType (key : String) : Wrapper LuaType := do
  let segment ← Arena.allocateFrom key
  let fieldType ← luaGetfield vm t.state t.tableIndex segment
  match LuaType.forCode fieldType with
  | some type => return type
  | none => throwJava (.illegalArgument ("No type found for code " ++ toString fieldType))

def getField (key : String) (expectedFieldType : LuaType) : Wrapper Unit := do
  let fieldType ← getFieldType vm t key
  if fieldType ≠ expectedFieldType then
    throwJava (.luaException ("Expected field '" ++ key ++ "' of type " ++
      expectedFieldType.name ++ " but was " ++ fieldType.name))

def getString (key : String) : Wrapper String := do
  getField vm t key .string
  LuaStack.popString vm t.state

def getInteger (key : String) : Wrapper Int64 := do
  getField vm t key .number
  LuaStack.popInteger vm t.state

def getNumber (key : String) : Wrapper Binary64 := do
  getField vm t key .number
  LuaStack.popNumber vm t.state

def getBoolean (key : String) : Wrapper Bool := do
  getField vm t key .boolean
  LuaStack.popBoolean t.state

end LuaTable

namespace LuaFunction

variable (vm : VM) (state : ThreadId) (f : LuaFunction)

def pushArguments : Wrapper Unit := f.argumentValues.forM (LuaStack.pushObject state)

def getResultValues : Wrapper (List Object) := f.resultTypes.mapM (LuaStack.popObject vm state)

def call : Wrapper (List Object) := do
  LowLevelLua.getGlobal vm state f.name
  pushArguments state f
  LowLevelLua.pcall vm state f.argumentValues.length f.resultTypes.length
  getResultValues vm state f

end LuaFunction

/-- A method and the object it is called on. access is what Method.invoke throws before the call
   when reflection refuses the method or the object; body is the method's own behaviour. -/
structure Method (Body : Type) where
  parameterTypes : List JavaClass
  returnType : JavaClass
  access : Option JavaException
  text : String
  body : List Object → Body

namespace LuaInterpreter

variable (vm : VM) (state : ThreadId)

def getGlobalString (name : String) : Wrapper String := do
  LowLevelLua.getGlobal vm state name
  LuaStack.popString vm state

def getGlobalInteger (name : String) : Wrapper Int64 := do
  LowLevelLua.getGlobal vm state name
  LuaStack.popInteger vm state

def getGlobalNumber (name : String) : Wrapper Binary64 := do
  LowLevelLua.getGlobal vm state name
  LuaStack.popNumber vm state

def getGlobalBoolean (name : String) : Wrapper Bool := do
  LowLevelLua.getGlobal vm state name
  LuaStack.popBoolean state

def getGlobalTable (name : String) : Wrapper LuaTable := do
  LowLevelLua.getGlobal vm state name
  LowLevelLua.table state (-1)

def setGlobalString (name value : String) : Wrapper Unit := do
  LuaStack.pushString state value
  LowLevelLua.setGlobal vm state name

def setGlobalInteger (name : String) (value : Int64) : Wrapper Unit := do
  LuaStack.pushInteger state value
  LowLevelLua.setGlobal vm state name

def setGlobalNumber (name : String) (value : Binary64) : Wrapper Unit := do
  LuaStack.pushNumber state value
  LowLevelLua.setGlobal vm state name

def setGlobalBoolean (name : String) (value : Bool) : Wrapper Unit := do
  LuaStack.pushBoolean state value
  LowLevelLua.setGlobal vm state name

def setGlobalFunction (name : String) (method : Nat) : Wrapper Unit := do
  LuaStack.pushCFunction state (.method method)
  LowLevelLua.setGlobal vm state name

def exec (chunk : String) : Wrapper Unit := do
  LowLevelLua.loadString vm state chunk
  LowLevelLua.pcall vm state 0 0

/-- Method.invoke: a primitive parameter takes no null, and what the method throws is wrapped. -/
def invoke {Body : Type} (run : Body → Wrapper Object) (id : Nat) (method : Method Body)
    (args : List Object) : Wrapper Object := do
  match method.access with
  | some e => throwJava e
  | none =>
    if (method.parameterTypes.zip args).any fun (type, arg) => type.isPrimitive && arg == .null then
      throwJava (.illegalArgument "argument type mismatch")
    modify fun w => { w with invocations := (id, args) :: w.invocations }
    tryCatch (run (method.body args)) fun
      | .exception _ => throwJava .invocationTarget
      | f => throw f

/-- The exception invokeMethod ends with where its body throws e: the two that Method.invoke
   declares are caught and wrapped. -/
def wrapped (method : String) : JavaException → JavaException
  | .illegalAccess message => .illegalState
      ("Failed to call Java method " ++ method ++ ": " ++
        (JavaException.illegalAccess message).getMessage)
  | .invocationTarget => .illegalState
      ("Failed to call Java method " ++ method ++ ": " ++
        JavaException.invocationTarget.getMessage)
  | e => e

/- The upcall of a method. It works on the interpreter's own stack, whatever thread called. -/
def invokeMethod {Body : Type} (run : Body → Wrapper Object) (id : Nat) (method : Method Body) :
    Wrapper Nat := do
  let args ← LuaStack.getValues vm state method.parameterTypes
  tryCatch (do
    let result ← invoke run id method args
    if method.returnType ≠ .void then
      modify fun w => w.addStep (.result result (w.thread state))
      LuaStack.pushObject state result
      return 1
    return 0) fun
    | .exception e => throwJava (wrapped method.text e)
    | f => throw f

/- One public operation, entered in the record of the run. -/
def operation (o : Operation) : Wrapper OperationResult := do
  modify fun w => w.addStep (.operation o (w.thread state) w.heap w.status w.calls)
  match o with
  | .exec chunk => (fun _ => .done) <$> exec vm state chunk
  | .getGlobalString name => .string <$> getGlobalString vm state name
  | .getGlobalInteger name => .integer <$> getGlobalInteger vm state name
  | .getGlobalNumber name => .number <$> getGlobalNumber vm state name
  | .getGlobalBoolean name => .boolean <$> getGlobalBoolean vm state name
  | .getGlobalTable name => .table <$> getGlobalTable vm state name
  | .setGlobalString name value => (fun _ => .done) <$> setGlobalString vm state name value
  | .setGlobalInteger name value => (fun _ => .done) <$> setGlobalInteger vm state name value
  | .setGlobalNumber name value => (fun _ => .done) <$> setGlobalNumber vm state name value
  | .setGlobalBoolean name value => (fun _ => .done) <$> setGlobalBoolean vm state name value
  | .setGlobalFunction name method => (fun _ => .done) <$> setGlobalFunction vm state name method
  | .call function => .list <$> function.call vm state
  | .getString table key => .string <$> table.val.getString vm key
  | .getInteger table key => .integer <$> table.val.getInteger vm key
  | .getNumber table key => .number <$> table.val.getNumber vm key
  | .getBoolean table key => .boolean <$> table.val.getBoolean vm key
  | .close => (fun _ => .done) <$> LowLevelLua.close vm

end LuaInterpreter

end Luava
