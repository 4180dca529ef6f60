import Luava.World

/-
The native functions the wrapper calls (lapi.c, ldo.c, lauxlib.c). Every one works on the
thread it is given. What running Lua code does is the parameter VM, which also holds what
the wrapper takes from the platform.
-/
namespace Luava

/-- call runs a function value on a thread whose stack ends below it, and returns its results;
   load compiles a chunk; finalize runs the finalizers of lua_close. insertkey tells whether a
   table takes a new key without a rehash or a collector barrier. valueOf is the text of a Java
   double, and finest whether the logger of LuaStack is enabled for FINEST. -/
structure VM where
  call : ThreadId → Value → List Value → Wrapper (List Value)
  load : List UInt8 → Except LuaError Value
  finalize : Wrapper Unit
  insertkey : Heap → TableId → Value → Bool
  libc : Libc
  valueOf : Binary64 → String
  finest : Bool

namespace LuaApi

def fail (v : Violation) : Wrapper Unit := modify (·.fail v)

def apiCheck (condition : Prop) [Decidable condition] (v : Violation) : Wrapper Unit :=
  modify (·.check condition v)

/- Every native function needs a state that lua_close has not freed. -/
def enter : Wrapper Unit := do
  let w ← get
  if w.status = .closed then
    fail .afterClose
    throw .undefined

def getThread (L : ThreadId) : Wrapper LuaState := do return (← get).thread L

def setThread (s : LuaState) (L : ThreadId) : Wrapper Unit := modify (·.setThread s L)

/- api_incr_top after a value was stored at the top. -/
def push (L : ThreadId) (v : Value) : Wrapper Unit := do
  let s ← getThread L
  setThread { s with slots := v :: s.slots } L
  apiCheck (s.top + 1 ≤ s.ciTop) .stackOverflow

def drop (L : ThreadId) (n : Nat) : Wrapper Unit := do
  let s ← getThread L
  setThread { s with slots := s.slots.drop n } L

/-- The position in slots of an index, none for an acceptable index above the top. A negative
   index is taken relative to the top even when it leaves the frame, or the stack. -/
def index2stack (L : ThreadId) (idx : Int) : Wrapper (Option Nat) := do
  let s ← getThread L
  if 0 < idx then
    apiCheck (s.func + idx.toNat < s.ciTop) .invalidIndex
    let position := s.func + idx.toNat
    return if position < s.top then some (s.top - 1 - position) else none
  else
    apiCheck (idx ≠ 0 ∧ idx.natAbs < s.top - s.func) .invalidIndex
    if idx ≠ 0 ∧ idx.natAbs ≤ s.top then return some (idx.natAbs - 1)
    else throw .undefined

def index2value (L : ThreadId) (idx : Int) : Wrapper (Option Value) := do
  match ← index2stack L idx with
  | none => return none
  | some i => return (← getThread L).slots[i]?

def luaGettop (L : ThreadId) : Wrapper Int := do
  enter
  let s ← getThread L
  return (s.top : Int) - (s.func + 1)

def luaSettop (L : ThreadId) (idx : Int) : Wrapper Unit := do
  enter
  let s ← getThread L
  if 0 ≤ idx then
    apiCheck (s.func + 1 + idx.toNat ≤ s.ciTop) .invalidTop
    let top := s.func + 1 + idx.toNat
    setThread { s with
      slots := List.replicate (top - s.top) .nil ++ World.bottom top s.slots } L
  else
    apiCheck (idx.natAbs ≤ s.top - s.func) .invalidTop
    setThread { s with slots := s.slots.drop (idx.natAbs - 1) } L

def luaType (L : ThreadId) (idx : Int) : Wrapper Int := do
  enter
  match ← index2value L idx with
  | some v => return (LuaType.ofValue v).type
  | none => return LuaType.none.type

def luaIsstring (L : ThreadId) (idx : Int) : Wrapper Bool := do
  enter
  match ← index2value L idx with
  | some v => return v.isString || v.isNumber
  | none => return false

def luaToboolean (L : ThreadId) (idx : Int) : Wrapper Bool := do
  enter
  match ← index2value L idx with
  | some v => return !v.isFalse
  | none => return false

def luaTonumberx (vm : VM) (L : ThreadId) (idx : Int) : Wrapper (Option Binary64) := do
  enter
  match ← index2value L idx with
  | some v => return Coercions.tonumber vm.libc v
  | none => return none

def luaTointegerx (vm : VM) (L : ThreadId) (idx : Int) : Wrapper (Option Int64) := do
  enter
  match ← index2value L idx with
  | some v => return Coercions.tointeger vm.libc v
  | none => return none

/- A number is replaced in its slot by its text. -/
def luaTolstring (vm : VM) (L : ThreadId) (idx : Int) : Wrapper (Option (List UInt8)) := do
  enter
  match ← index2stack L idx with
  | none => return none
  | some i =>
    let s ← getThread L
    match s.slots[i]? with
    | some (.string bytes) => return some bytes
    | some v =>
      if v.isNumber then
        let text := Coercions.tostringbuff vm.libc v
        setThread { s with slots := s.slots.set i (.string text) } L
        return some text
      else return none
    | none => return none

def luaPushnil (L : ThreadId) : Wrapper Unit := do
  enter
  push L .nil

def luaPushboolean (L : ThreadId) (b : Bool) : Wrapper Unit := do
  enter
  push L (.boolean b)

def luaPushnumber (L : ThreadId) (n : Binary64) : Wrapper Unit := do
  enter
  push L (.float n)

def luaPushinteger (L : ThreadId) (n : Int64) : Wrapper Unit := do
  enter
  push L (.integer n)

def luaPushlstring (L : ThreadId) (bytes : List UInt8) : Wrapper Unit := do
  enter
  push L (.string bytes)

/- lua_pushcclosure without upvalues. -/
def luaPushcfunction (L : ThreadId) (stub : Nat) : Wrapper Unit := do
  enter
  push L (.function (.cfunction stub))

/- luaG_runerror and its kind. -/
def luaDThrow {α : Type} (L : ThreadId) (e : LuaError) : Wrapper α := throw (.luaError L e)

/-- auxgetstr: a present field is pushed at once; otherwise the key is pushed, and its slot
   takes the value luaV_finishget ends with. -/
def auxgetstr (vm : VM) (L : ThreadId) (t : Value) (k : List UInt8) : Wrapper Int := do
  let h := (← get).heap
  let key := Value.string (Utf8.cString k)
  match h.fastget t key with
  | some v =>
    push L v
    return (LuaType.ofValue v).type
  | none =>
    push L key
    let v ←
      match h.finishget key Heap.MAXTAGLOOP t with
      | .value v => pure v
      | .call tm object =>
        let results ← vm.call L tm [object, key]
        pure (results.headD .nil)
      | .fail e => luaDThrow L e
    let s ← getThread L
    setThread { s with slots := v :: s.slots.drop 1 } L
    return (LuaType.ofValue v).type

def luaGetglobal (vm : VM) (L : ThreadId) (name : List UInt8) : Wrapper Int := do
  enter
  auxgetstr vm L (.table (← get).heap.globals) name

def luaGetfield (vm : VM) (L : ThreadId) (idx : Int) (k : List UInt8) : Wrapper Int := do
  enter
  match ← index2value L idx with
  | some t => auxgetstr vm L t k
  | none => auxgetstr vm L .nil k

def rawset (t : TableId) (key val : Value) : Wrapper Unit :=
  modify fun w => { w with heap := w.heap.rawset t key val }

/-- auxsetstr: the value is at the top. Unless the fast path takes it, the key is pushed too. -/
def auxsetstr (vm : VM) (L : ThreadId) (t : Value) (k : List UInt8) : Wrapper Unit := do
  let h := (← get).heap
  let key := Value.string (Utf8.cString k)
  let s ← getThread L
  apiCheck (1 < s.top - s.func) .notEnoughElements
  match s.slots with
  | [] => throw .undefined
  | val :: _ =>
    match h.fastset vm.insertkey t key with
    | some id =>
      rawset id key val
      drop L 1
    | none =>
      push L key
      match h.finishset vm.insertkey key Heap.MAXTAGLOOP t with
      | .store id => rawset id key val
      | .call tm object =>
        let _ ← vm.call L tm [object, key, val]
      | .fail e => luaDThrow L e
      drop L 2

def luaSetglobal (vm : VM) (L : ThreadId) (name : List UInt8) : Wrapper Unit := do
  enter
  auxsetstr vm L (.table (← get).heap.globals) name

/-- luaD_rawrunprotected with the restoration of luaD_pcall: an error raised on L is caught, and
   L goes back to the frame it had. -/
def rawrunprotected {α : Type} (L : ThreadId) (x : Wrapper α) : Wrapper (Except LuaError α) :=
  fun w =>
    match x w with
    | .ok a w' => .ok (.ok a) w'
    | .error (.luaError L' e) w' =>
      if L' = L then .ok (.error e) (w'.unwind L w) else .error (.luaError L' e) w'
    | .error f w' => .error f w'

/-- moveresults: the low byte of the call status holds the wanted number plus one, and 0 there
   means all results. -/
def moveresults (nresults : Nat) (results : List Value) : List Value :=
  match (nresults + 1) % 256 with
  | 0 => results
  | wanted + 1 => (results ++ List.replicate wanted Value.nil).take wanted

/- lua_pcallk without a message handler and without a continuation. -/
def luaPcallk (vm : VM) (L : ThreadId) (nargs nresults : Nat) : Wrapper Int := do
  enter
  let s ← getThread L
  apiCheck (nargs + 1 < s.top - s.func) .notEnoughElements
  apiCheck (s.top + nresults ≤ s.ciTop + nargs) .resultsOverflow
  apiCheck (nresults ≤ MAXRESULTS) .numberOfResults
  match s.slots.drop nargs with
  | [] => throw .undefined
  | func :: below =>
    setThread { s with slots := below } L
    let outcome ← rawrunprotected L (vm.call L func (s.slots.take nargs).reverse)
    let s ← getThread L
    match outcome with
    | .ok results =>
      setThread { s with slots := (moveresults nresults results).reverse ++ s.slots } L
      return LUA_OK
    | .error e =>
      setThread { s with slots := e.object :: s.slots } L
      return e.status

/-- lua_load has no check of its own for the slot it fills; the record notes it all the same. -/
def luaLLoadstring (vm : VM) (L : ThreadId) (s : List UInt8) : Wrapper Int := do
  enter
  match vm.load (Utf8.cString s) with
  | .ok f =>
    push L f
    return LUA_OK
  | .error e =>
    push L e.object
    return e.status

/-- close_state resets the main thread to its base frame to run the finalizers. The stack itself
   is freed, so what the record keeps of it afterwards stands for nothing. -/
def luaClose (vm : VM) : Wrapper Unit := do
  let w ← get
  if w.status ≠ .opened then
    fail .afterClose
    throw .undefined
  set { w with status := .closing, main := .init }
  vm.finalize
  modify fun w' => { w' with status := .closed, main := w.main }

end LuaApi

end Luava
