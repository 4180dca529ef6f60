import Luava.Direct

/-
The machine that keeps to its own slots. Lua code called by a native function starts on an empty
main stack here, so what it does there says nothing about the slots it finds; a run that would
reach them, or that closes the state under the code it is called by, is left undefined.
-/
namespace Luava

open Effects LuaApi Machine

/- A state with that store and empty stacks. -/
def Store.bare (s : Store) : World where
  heap := s.heap
  main := ⟨[], 0, 0⟩
  coroutine := fun _ => ⟨[], 0, 0⟩
  callbacks := s.callbacks
  arenaOpen := s.arenaOpen
  status := s.status
  calls := s.calls
  invocations := s.invocations
  record := ⟨0, [], []⟩

namespace Confined

/-- x on an empty main stack. The slots that were there are below the ones it leaves. -/
def isolate {α : Type} (x : Wrapper α) : Wrapper α := fun w =>
  match x { w with main := { w.main with slots := [] } } with
  | .ok a w' => .ok a { w' with main := { w'.main with slots := w'.main.slots ++ w.main.slots } }
  | .error f w' =>
    .error f { w' with main := { w'.main with slots := w'.main.slots ++ w.main.slots } }

def runJava (vm : VM) : JavaCode → Wrapper Object
  | .ret result => return result
  | .throws e => throwJava e
  | .op o next => do
    if o = .close then throw .undefined
    let outcome ← catchException (LuaInterpreter.operation vm .main o)
    runJava vm (next outcome)

def upcall (program : Program) (vm : VM) (L : ThreadId) (stub : Nat) : Wrapper Nat := do
  let w ← get
  if !w.arenaOpen then throw .undefined
  match w.callbacks[stub]? with
  | none => throw .undefined
  | some (.method id) =>
    terminate (LuaInterpreter.invokeMethod vm .main (runJava vm) id (program.methods id))
  | some (.function id) =>
    match ← terminate (runJava vm (program.functions id L)) with
    | .integer n => return n.toInt.toNat
    | _ => return 0

/- A function must have its results on the stack. -/
def precallC (L : ThreadId) (locals : List Value) (fn : Value) (args : List Value)
    (f : Wrapper Nat) : Wrapper (List Value) := do
  let w ← get
  let below := locals ++ (w.thread L).slots
  let slots := args.reverse ++ fn :: below
  setThread ⟨slots, below.length, slots.length + LUA_MINSTACK⟩ L
  let n ← f
  let s ← getThread L
  if s.top < n then throw .undefined
  let results := (s.slots.take n).reverse
  modify fun w' => w'.unwind L w
  return results

def runLua (program : Program) (vm : VM) (L : ThreadId) : LuaCode → Wrapper (List Value)
  | .ret results => return results
  | .error e => luaDThrow L e
  | .access update next => do
    let h := (← get).heap
    modify fun w => { w with heap := update h }
    runLua program vm L (next h)
  | .upcall locals stub args next => do
    let outcome ← rawrunprotected L
      (precallC L locals (.function (.cfunction stub)) args (upcall program vm L stub))
    runLua program vm L (next outcome)
  | .resume locals fn frame co body next => do
    let w ← get
    let below := locals ++ (w.thread L).slots
    let slots := frame ++ fn :: below
    setThread ⟨slots, below.length, slots.length + LUA_MINSTACK⟩ L
    let outcome ← rawrunprotected (.coroutine co)
      (runLua program vm (.coroutine co) body)
    modify fun w' => w'.unwind L w
    runLua program vm L (next outcome)

def vmAt (program : Program) : Nat → VM
  | 0 => Machine.vmAt program 0
  | depth + 1 =>
    { Machine.vmAt program (depth + 1) with
      call := fun L callee args => isolate do
        let w ← get
        set { w with calls := w.calls + 1 }
        let results ←
          match w.heap.precall Heap.MAX_CCMT callee args with
          | .function (.cfunction stub) args =>
            precallC L [] (.function (.cfunction stub)) args
              (upcall program (vmAt program depth) L stub)
          | .function (.closure id) args =>
            runLua program (vmAt program depth) L (program.code id args)
          | .fail e => luaDThrow L e
        modify fun w' => { w' with calls := w.calls }
        return results }

end Confined

end Luava
