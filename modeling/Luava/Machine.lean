import Luava.LuaInterpreter

/-
Runs of a whole program: Java code that uses the wrapper, the Lua code it starts, the Java
methods that code calls back, and so on to any depth. Both sides are arbitrary, so their code
is a tree of the steps they take, each continued by what the step gave them.
-/
namespace Luava

open Effects LuaApi

/-- What a Lua function still does on the thread it runs on. locals are the slots its frames
   hold above the thread's stack when it calls out of Lua.
   access reads and replaces the heap; upcall calls a Java function value with arguments;
   resume runs a coroutine to its next yield or its end, with the slots that the calling
   function (coroutine.resume, or one made by coroutine.wrap) keeps in its frame. -/
inductive LuaCode where
  | ret (results : List Value)
  | error (e : LuaError)
  | access (update : Heap → Heap) (next : Heap → LuaCode)
  | upcall (locals : List Value) (stub : Nat) (args : List Value)
      (next : Except LuaError (List Value) → LuaCode)
  | resume (locals : List Value) (fn : Value) (frame : List Value) (co : Nat) (body : LuaCode)
      (next : Except LuaError (List Value) → LuaCode)

/-- What a Java method still does: an operation may return or throw, and the code goes on. -/
inductive JavaCode where
  | ret (result : Object)
  | throws (e : JavaException)
  | op (o : Operation) (next : Except JavaException OperationResult → JavaCode)

/-- methods and functions are the Java side of the callbacks; code is what the Lua functions
   do, given their arguments, and compile the compiler. -/
structure Program where
  methods : Nat → Method JavaCode
  functions : Nat → ThreadId → JavaCode
  code : Nat → List Value → LuaCode
  compile : List UInt8 → Except LuaError Value
  finalizers : Heap → LuaCode
  insertkey : Heap → TableId → Value → Bool
  libc : Libc
  valueOf : Binary64 → String
  finest : Bool

namespace Machine

/- The outcome of an operation as Java code sees it. -/
def catchException {α : Type} (x : Wrapper α) : Wrapper (Except JavaException α) := fun w =>
  match x w with
  | .ok a w' => .ok (.ok a) w'
  | .error (.exception e) w' => .ok (.error e) w'
  | .error f w' => .error f w'

/- The interpreter is created on the main thread. -/
def runJava (vm : VM) : JavaCode → Wrapper Object
  | .ret result => return result
  | .throws e => throwJava e
  | .op o next => do
    let outcome ← catchException (LuaInterpreter.operation vm .main o)
    runJava vm (next outcome)

/- An exception that reaches the upcall stub terminates the JVM. -/
def terminate {α : Type} (x : Wrapper α) : Wrapper α := fun w =>
  match x w with
  | .ok a w' => .ok a w'
  | .error (.exception _) w' => .error .jvmTerminated w'
  | .error f w' => .error f w'

/- The lua_CFunction that Lua calls on thread L. -/
def upcall (program : Program) (vm : VM) (L : ThreadId) (stub : Nat) : Wrapper Nat := do
  let w ← get
  if !w.arenaOpen then
    fail .deadStub
    throw .undefined
  match w.callbacks[stub]? with
  | none => throw .undefined
  | some (.method id) =>
    terminate (LuaInterpreter.invokeMethod vm .main (runJava vm) id (program.methods id))
  | some (.function id) =>
    match ← terminate (runJava vm (program.functions id L)) with
    | .integer n => return n.toInt.toNat
    | _ => return 0

/-- precallC and luaD_poscall: a frame for fn and args above locals, and its n top slots as
   results. -/
def precallC (L : ThreadId) (locals : List Value) (fn : Value) (args : List Value)
    (f : Wrapper Nat) : Wrapper (List Value) := do
  let w ← get
  let below := locals ++ (w.thread L).slots
  let slots := args.reverse ++ fn :: below
  setThread ⟨slots, below.length, slots.length + LUA_MINSTACK⟩ L
  let n ← f
  let results := ((← getThread L).slots.take n).reverse
  modify fun w' => w'.unwind L w
  return results

def runLua (program : Program) (vm : VM) (L : ThreadId) : LuaCode → Wrapper (List Value)
  | .ret results => return results
  | .error e => luaDThrow L e
  | .access update next => do
    let h := (← get).heap
    modify fun w => { w with heap := update h }
    runLua program vm L (next h)
  | .upcall locals stub args next => do
    let outcome ← rawrunprotected L
      (precallC L locals (.function (.cfunction stub)) args (upcall program vm L stub))
    runLua program vm L (next outcome)
  | .resume locals fn frame co body next => do
    let w ← get
    let below := locals ++ (w.thread L).slots
    let slots := frame ++ fn :: below
    setThread ⟨slots, below.length, slots.length + LUA_MINSTACK⟩ L
    let outcome ← rawrunprotected (.coroutine co)
      (runLua program vm (.coroutine co) body)
    modify fun w' => w'.unwind L w
    runLua program vm L (next outcome)

/-- The VM at a nesting depth. Each native call into Lua takes one level of the C stack, whose
   limit luaE_checkcstack enforces. -/
def vmAt (program : Program) : Nat → VM
  | 0 =>
    { call := fun L _ _ => luaDThrow L (.run "C stack overflow")
      load := program.compile
      finalize := return ()
      insertkey := program.insertkey
      libc := program.libc
      valueOf := program.valueOf
      finest := program.finest }
  | depth + 1 =>
    { call := fun L callee args => do
        let w ← get
        set { w with calls := w.calls + 1 }
        let results ←
          match w.heap.precall Heap.MAX_CCMT callee args with
          | .function (.cfunction stub) args =>
            precallC L [] (.function (.cfunction stub)) args
              (upcall program (vmAt program depth) L stub)
          | .function (.closure id) args =>
            runLua program (vmAt program depth) L (program.code id args)
          | .fail e => luaDThrow L e
        modify fun w' => { w' with calls := w.calls }
        return results
      load := program.compile
      finalize := do
        let w ← get
        set { w with calls := w.calls + 1 }
        let _ ← rawrunprotected .main
          (runLua program (vmAt program depth) .main (program.finalizers w.heap))
        modify fun w' => { w' with calls := w.calls }
      insertkey := program.insertkey
      libc := program.libc
      valueOf := program.valueOf
      finest := program.finest }

/- The world a computation ends in, by a value or by a fault. -/
def endOf {α : Type} (x : Wrapper α) (w : World) : World :=
  match x w with
  | .ok _ w' => w'
  | .error _ w' => w'

/- How it ends there. -/
def outcomeOf {α : Type} (x : Wrapper α) (w : World) : Except Fault α :=
  match x w with
  | .ok a _ => .ok a
  | .error f _ => .error f

theorem outcome_congr {α : Type} {x y : Wrapper α} {w w' : World} (same : x w = y w') :
    outcomeOf x w = outcomeOf y w' := by
  rw [outcomeOf, same]
  rfl

theorem outcome_map {α β : Type} (g : α → β) (x : Wrapper α) (w : World) :
    outcomeOf (g <$> x) w = (outcomeOf x w).map g := by
  unfold outcomeOf
  rw [run_map]
  cases x w <;> rfl

theorem ends_of_outcome {α : Type} {x : Wrapper α} {w : World} {a : α}
    (outcome : outcomeOf x w = .ok a) : x w = .ok a (endOf x w) := by
  unfold outcomeOf at outcome
  unfold endOf
  cases ends : x w <;> simp_all

theorem fault_of_outcome {α : Type} {x : Wrapper α} {w : World} {f : Fault}
    (outcome : outcomeOf x w = .error f) : x w = .error f (endOf x w) := by
  unfold outcomeOf at outcome
  unfold endOf
  cases ends : x w <;> simp_all

end Machine

/-- Samples start from a state without globals and a program without methods or Lua functions. -/
def Heap.blank : Heap where
  table := fun _ => ⟨fun _ => .nil, none⟩
  globals := 0
  userdataMetatable := fun _ => none
  typeMetatable := fun _ => none

def Program.blank : Program where
  methods := fun _ => ⟨[], .void, none, "", fun _ => .ret .null⟩
  functions := fun _ _ => .ret .null
  code := fun _ _ => .ret []
  compile := fun _ => .ok (.function (.closure 0))
  finalizers := fun _ => .ret []
  insertkey := fun _ _ _ => true
  libc := ⟨fun _ => (⟨0⟩, 0), fun _ _ => [], 46⟩
  valueOf := fun _ => ""
  finest := false

/- Operations one after the other, whatever their outcomes. -/
def JavaCode.sequence : List Operation → JavaCode
  | [] => .ret .null
  | o :: os => .op o fun _ => sequence os

end Luava
