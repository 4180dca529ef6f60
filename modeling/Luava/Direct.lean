import Luava.Lowering
import Luava.Closed

/-
The operations without the stack: what each of them returns, and what it does to the Lua heap and
the registered callbacks, as a function of these alone. Values that the wrapper passes over the
stack are passed on directly here.
-/
namespace Luava

open Effects LuaApi

/-- What a run works on besides the stacks of the threads. -/
structure Store where
  heap : Heap
  callbacks : List Callback
  arenaOpen : Bool
  status : Status
  calls : Nat
  invocations : List (Nat × List Object)

def World.store (w : World) : Store :=
  ⟨w.heap, w.callbacks, w.arenaOpen, w.status, w.calls, w.invocations⟩

abbrev Direct := EStateM Fault Store

/-- What Lua does when it calls a value with arguments. -/
abbrev DirectCall := Value → List Value → Direct (List Value)

def Setter.allocates : Setter → Bool
  | .string _ | .function _ => true
  | _ => false

namespace Direct

def enter : Direct Unit := do
  if (← get).status = .closed then throw .undefined

def allocate : Direct Unit := do
  if !(← get).arenaOpen then throw (.exception (.illegalState "Already closed"))

def allocateIf (needed : Bool) : Direct Unit := if needed then allocate else pure ⟨⟩

def settle {α : Type} : Except JavaException α → Direct α
  | .ok a => pure a
  | .error e => throw (.exception e)

def register (callbacks : List Callback) : Direct Unit :=
  modify fun s => { s with callbacks := s.callbacks ++ callbacks }

/-- A protected call: an error raised on the main thread is a result. -/
def protect {α : Type} (x : Direct α) : Direct (Except LuaError α) := fun s =>
  match x s with
  | .ok a s' => .ok (.ok a) s'
  | .error (.luaError .main e) s' => .ok (.error e) { s' with calls := s.calls }
  | .error f s' => .error f s'

section Accesses

variable (vm : VM) (call : DirectCall)

def lookup (t key : Value) : Direct Value := do
  match (← get).heap.access t key with
  | .value v => return v
  | .call tm object => return (← call tm [object, key]).headD .nil
  | .fail e => throw (.luaError .main e)

def assign (t key val : Value) : Direct Unit := do
  match (← get).heap.assign vm.insertkey t key with
  | .store id => modify fun s => { s with heap := s.heap.rawset id key val }
  | .call tm object =>
    let _ ← call tm [object, key, val]
  | .fail e => throw (.luaError .main e)

def getGlobal (name : String) : Direct Value := do
  allocate
  lookup call (.table (← get).heap.globals) (keyOf name)

def setGlobal (name : String) (val : Value) : Direct Unit := do
  allocate
  assign vm call (.table (← get).heap.globals) (keyOf name) val

def pcall (f : Value) (args : List Value) (nresults : Nat) : Direct (List Value) := do
  enter
  match ← protect (call f args) with
  | .ok results => return moveresults nresults results
  | .error e =>
    enter
    throw (.exception (LowLevelLua.failure vm.libc "lua_pcallk" e.status e.object))

def loadString (chunk : String) : Direct Value := do
  allocate
  match vm.load (Utf8.cString (Utf8.encode chunk.toList)) with
  | .ok f => return f
  | .error e =>
    throw (.exception (LowLevelLua.failure vm.libc "luaL_loadstring" e.status e.object))

end Accesses

/-- The push of an object makes a Lua value of it. -/
def pushObject (o : Object) : Direct Value := do
  allocateIf o.allocates
  let v ← settle (LuaStack.imageOf (← get).callbacks.length o)
  register (LuaStack.callbacksOf o)
  enter
  return v

def pushSetter (s : Setter) : Direct Value := do
  allocateIf s.allocates
  let v := s.value (← get).callbacks.length
  register s.callbacks
  enter
  return v

section Reads

variable (vm : VM)

def pop (k : Kind) (v : Value) : Direct OperationResult := do
  match k with
  | .string | .boolean => enter
  | .integer | .number => allocate
  settle (k.resultOf vm.libc v)

def table (v : Value) : Direct LuaTable := do
  enter
  settle (LowLevelLua.tableOf v)

/-- The results come back in the order they are popped. -/
def getResultValues (types : List JavaClass) (results : List Value) : Direct (List Object) := do
  if types ≠ [] then enter
  settle (LuaFunction.objectsOf vm.libc types results.reverse)

end Reads

variable (vm : VM) (call : DirectCall)

def exec (chunk : String) : Direct Unit := do
  let f ← loadString vm chunk
  let _ ← pcall vm call f [] 0

def callFunction (f : LuaFunction) : Direct (List Object) := do
  let callee ← getGlobal call f.name
  let args ← f.argumentValues.mapM pushObject
  let results ← pcall vm call callee args f.resultTypes.length
  getResultValues vm f.resultTypes results

def getAs (k : Kind) (name : String) : Direct OperationResult := do
  let v ← getGlobal call name
  pop vm k v

def setTo (s : Setter) (name : String) : Direct OperationResult := do
  let v ← pushSetter s
  setGlobal vm call name v
  return .done

/-- What a handle denotes and what is left of a closed state depends on the stack. -/
def operation : Operation → Direct OperationResult
  | .exec chunk => (fun _ => .done) <$> exec vm call chunk
  | .getGlobalString name => getAs vm call .string name
  | .getGlobalInteger name => getAs vm call .integer name
  | .getGlobalNumber name => getAs vm call .number name
  | .getGlobalBoolean name => getAs vm call .boolean name
  | .getGlobalTable name => .table <$> (do table (← getGlobal call name))
  | .setGlobalString name value => setTo vm call (.string value) name
  | .setGlobalInteger name value => setTo vm call (.integer value) name
  | .setGlobalNumber name value => setTo vm call (.number value) name
  | .setGlobalBoolean name value => setTo vm call (.boolean value) name
  | .setGlobalFunction name method => setTo vm call (.function method) name
  | .call f => .list <$> callFunction vm call f
  | .getString .. | .getInteger .. | .getNumber .. | .getBoolean .. | .close => throw .undefined

end Direct

end Luava
