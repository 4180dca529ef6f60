import Luava.ConfinedRuns
import Luava.UpcallErrors

/-
A Lua function that calls Java functions, run on the main thread and in coroutines. The upcall
works on the main stack whatever thread called it, so the two agree as long as no call needs a
stack: its method takes nothing, gives nothing and reaches for no slot.
-/
namespace Luava

open Effects LuaApi Machine

/-- A coroutine that runs the code under it: the slots of the function that resumes it, with the
    frame of coroutine.resume or of the function that coroutine.wrap made. -/
structure Resumption where
  locals : List Value
  fn : Value
  frame : List Value
  co : Nat
  next : Except LuaError (List Value) → LuaCode

/-- The body in a nest of coroutines, each resumed by the one before. -/
def LuaCode.within : List Resumption → LuaCode → LuaCode
  | [], body => body
  | r :: rs, body => .resume r.locals r.fn r.frame r.co (within rs body) r.next

namespace Machine

/-- The thread that runs the code inside. -/
def innermost : ThreadId → List Resumption → ThreadId
  | L, [] => L
  | _, r :: rs => innermost (.coroutine r.co) rs

/-- The stack of the thread that resumes. -/
def resuming (s : LuaState) (r : Resumption) : LuaState :=
  let below := r.locals ++ s.slots
  let slots := r.frame ++ r.fn :: below
  ⟨slots, below.length, slots.length + LUA_MINSTACK⟩

/-- The state the code inside starts in. -/
def inside : ThreadId → List Resumption → World → World
  | _, [], w => w
  | L, r :: rs, w => inside (.coroutine r.co) rs (w.setThread (resuming (w.thread L) r) L)

/- The steps of a body that leave its own code. -/
def callJava (program : Program) (vm : VM) (L : ThreadId) (locals : List Value) (stub : Nat)
    (args : List Value) : Wrapper (Except LuaError (List Value)) :=
  rawrunprotected L
    (precallC L locals (.function (.cfunction stub)) args (upcall program vm L stub))

def resume (program : Program) (vm : VM) (L : ThreadId) (r : Resumption) (body : LuaCode) :
    Wrapper (Except LuaError (List Value)) := do
  let w ← get
  setThread (resuming (w.thread L) r) L
  let outcome ← rawrunprotected (.coroutine r.co) (runLua program vm (.coroutine r.co) body)
  modify fun w' => w'.unwind L w
  return outcome

/-- A call of a Java function that came back, with the states before and after it. -/
structure Call where
  outcome : Except LuaError (List Value)
  before : World
  after : World

/-- The calls of Java functions a body makes. -/
def callsOf (program : Program) (vm : VM) (L : ThreadId) : LuaCode → World → List Call
  | .ret _, _ => []
  | .error _, _ => []
  | .access update next, w => callsOf program vm L (next w.heap) (w.withHeap (update w.heap))
  | .upcall locals stub args next, w =>
    match callJava program vm L locals stub args w with
    | .ok outcome w' => ⟨outcome, w, w'⟩ :: callsOf program vm L (next outcome) w'
    | .error _ _ => []
  | .resume locals fn frame co body next, w =>
    match resume program vm L ⟨locals, fn, frame, co, next⟩ body w with
    | .ok outcome w' => callsOf program vm L (next outcome) w'
    | .error _ _ => []

end Machine

/-- An error the body lets out, each on its own thread, or the end of the program. -/
inductive Fault.Alike (L L' : ThreadId) : Fault → Fault → Prop
  | luaError (e : LuaError) : Alike L L' (.luaError L e) (.luaError L' e)
  | jvmTerminated : Alike L L' .jvmTerminated .jvmTerminated

/-- The body run inside the coroutines does what it does on the main thread: it ends alike with
    the same invocations of Java methods, its calls give the same, one by one, and none of them
    touches the stack of a thread that did not call. -/
structure SameInside (program : Program) (depth : Nat) (rs : List Resumption) (body : LuaCode)
    (w : World) : Prop where
  ends : Simulates (fun _ => False) (runLua program (vmAt program depth) (innermost .main rs) body)
    (runLua program (vmAt program depth) .main body) (inside .main rs w) w
    (fun results w₁ results' w₂ => results = results' ∧ w₁.store = w₂.store)
    fun f w₁ g w₂ => Fault.Alike (innermost .main rs) .main f g ∧ w₁.store = w₂.store
  calls : (callsOf program (vmAt program depth) (innermost .main rs) body
      (inside .main rs w)).map (fun c => (c.outcome, c.after.invocations)) =
    (callsOf program (vmAt program depth) .main body w).map
      fun c => (c.outcome, c.after.invocations)
  others : ∀ c ∈ callsOf program (vmAt program depth) (innermost .main rs) body
      (inside .main rs w), ∀ T, T ≠ innermost .main rs →
    (c.after.thread T).slots = (c.before.thread T).slots

/- The method is invoked without arguments. -/
def Store.invoked (s : Store) (id : Nat) : Store :=
  { s with invocations := (id, []) :: s.invocations }

/-- Java code ends the program where it was called from Lua. -/
inductive Fault.EndsProgram : Fault → Prop
  | exception (e : JavaException) : EndsProgram (.exception e)
  | jvmTerminated : EndsProgram .jvmTerminated

/-- No call of the body needs a stack. The methods it calls have no parameters and the result type
    java.lang.Void; their code, run on empty stacks, reaches for no slot, leaves none and lets no
    Lua error out. The coroutines it resumes do not reach for slots of the main thread either. -/
def LuaCode.Stackless (program : Program) (vm : VM) : LuaCode → Store → Prop
  | .ret _, _ => True
  | .error _, _ => True
  | .access update next, s => Stackless program vm (next s.heap) { s with heap := update s.heap }
  | .upcall _ stub _ next, s => ∃ id, s.callbacks[stub]? = some (.method id) ∧
      s.arenaOpen = true ∧ (program.methods id).parameterTypes = [] ∧
      (program.methods id).returnType = .void ∧ ((program.methods id).access = none →
        Ensures (Confined.runJava vm ((program.methods id).body [])) (s.invoked id).bare
          (fun _ u => (∀ T, (u.thread T).slots = []) ∧
            Stackless program vm (next (.ok [])) { u.store with calls := s.calls })
          fun f _ => f.EndsProgram)
  | .resume _ _ _ co body next, s =>
    Ensures (rawrunprotected (.coroutine co) (Confined.runLua program vm (.coroutine co) body))
      s.bare
      (fun outcome u => Stackless program vm (next outcome) { u.store with calls := s.calls })
      fun f _ => f = .jvmTerminated

section Threads

variable {w w' : World}

theorem World.store_unwind (w w' : World) (L : ThreadId) :
    (w'.unwind L w).store = { w'.store with calls := w.calls } := by
  cases L <;> rfl

theorem World.sound_unwind (L : ThreadId) : (w'.unwind L w).Sound ↔ w'.Sound := by
  cases L <;> exact Iff.rfl

theorem World.Sound.arena_alive (sound : w.Sound) (arena : w.arenaOpen = true) : w.Alive := by
  apply sound.alive
  intro closed
  cases arena.symm.trans (sound.closed closed).arena

theorem World.thread_setThread_other (w : World) (f : LuaState) {L T : ThreadId} (other : T ≠ L) :
    (w.setThread f L).thread T = w.thread T := by
  cases L with
  | main =>
    cases T with
    | main => exact absurd rfl other
    | coroutine id => rfl
  | coroutine id =>
    cases T with
    | main => rfl
    | coroutine id' =>
      have differ : id' ≠ id := fun same => other (by rw [same])
      exact if_neg differ

theorem World.thread_unwind_other (w w' : World) {L T : ThreadId} (other : T ≠ L) :
    (w'.unwind L w).thread T = w'.thread T := by
  have same := w'.thread_setThread_other
    ⟨World.bottom (w.thread L).top (w'.thread L).slots, (w.thread L).func, (w.thread L).ciTop⟩ other
  cases T with
  | main => exact same
  | coroutine id => exact same

end Threads

section Calls

variable {program : Program} {vm vm' : VM} {w : World} {L : ThreadId} {locals args : List Value}
  {stub id : Nat}

/- The frame of a C function. -/
def Machine.calling (L : ThreadId) (locals : List Value) (fn : Value) (args : List Value)
    (w : World) : World :=
  let below := locals ++ (w.thread L).slots
  let slots := args.reverse ++ fn :: below
  w.setThread ⟨slots, below.length, slots.length + LUA_MINSTACK⟩ L

theorem store_calling (L : ThreadId) (locals : List Value) (fn : Value) (args : List Value)
    (w : World) : (calling L locals fn args w).store = w.store :=
  w.store_setThread _ L

theorem precallC_calling (f : Wrapper Nat) (fn : Value) (w : World) :
    precallC L locals fn args f w = (do
      let n ← f
      let s ← getThread L
      modify fun w' : World => w'.unwind L w
      return (s.slots.take n).reverse) (calling L locals fn args w) := rfl

theorem precallC_nothing {f : Wrapper Nat} {fn : Value} {w' : World}
    (run : f (calling L locals fn args w) = .ok 0 w') :
    precallC L locals fn args f w = .ok [] (w'.unwind L w) := by
  rw [precallC_calling, bind_of_ok run]
  rfl

theorem precallC_fault {f : Wrapper Nat} {fn : Value} {w' : World} {e : Fault}
    (run : f (calling L locals fn args w) = .error e w') :
    precallC L locals fn args f w = .error e w' := by
  rw [precallC_calling, bind_of_error run]

theorem run_upcall_method (registered : w.callbacks[stub]? = some (.method id))
    (arena : w.arenaOpen = true) : upcall program vm L stub w =
      terminate (LuaInterpreter.invokeMethod vm .main (runJava vm) id (program.methods id)) w := by
  rw [upcall, bind_of_ok (run_get w)]
  simp only [arena, Bool.not_true, Bool.false_eq_true, ↓reduceIte, registered]

/- Nothing is read where nothing is declared. -/
theorem getValues_none (vm : VM) (alive : w.Alive) :
    ∃ r, LuaStack.getValues vm .main [] w = .ok [] (w.withMain w.main.slots r) := by
  have enough : ([] : List JavaClass).length ≤ w.main.slots.length := Nat.zero_le _
  obtain ⟨r, read, _⟩ := LuaStack.run_getValues vm alive enough (P := fun _ => True)
    (.inr trivial) (.inr trivial)
  exact ⟨r, read⟩

/- The world a method without parameters starts in. -/
theorem Lifted.invoked (sound : w.Sound) (id : Nat) (r : Record) :
    Lifted (w.bases 0 (Nat.zero_le _)) (w.store.invoked id).bare
      { w.withMain w.main.slots r with invocations := (id, []) :: w.invocations } where
  slots := by
    intro T
    cases T <;> rfl
  store := rfl
  sound := sound
  low := Nat.zero_le _

section Plain

variable {method : Method JavaCode} (follows : vm.Follows vm') (plain : method.parameterTypes = [])

/- An invocation without arguments ends where the code of the method ends. -/
theorem invoke_ok (access : method.access = none) {o : Object} {w' : World}
    (run : runJava vm (method.body []) { w with invocations := (id, []) :: w.invocations } =
      .ok o w') : LuaInterpreter.invoke (runJava vm) id method [] w = .ok o w' := by
  rw [run_invoke vm method id [] w access (by rw [List.zip_nil_right]; exact Bool.false_ne_true),
    run]

theorem invoke_error (access : method.access = none) {f : Fault} {w' : World}
    (ends : f.EndsProgram)
    (run : runJava vm (method.body []) { w with invocations := (id, []) :: w.invocations } =
      .error f w') :
    ∃ g, g.EndsProgram ∧ LuaInterpreter.invoke (runJava vm) id method [] w = .error g w' := by
  rw [run_invoke vm method id [] w access (by rw [List.zip_nil_right]; exact Bool.false_ne_true),
    run]
  cases ends with
  | exception e => exact ⟨.exception .invocationTarget, .exception _, rfl⟩
  | jvmTerminated => exact ⟨.jvmTerminated, .jvmTerminated, rfl⟩

include plain

/- What ends the program in the invocation ends it at the stub. -/
theorem invokeMethod_ends {f : Fault} {w' : World} {r : Record} (ends : f.EndsProgram)
    (read : LuaStack.getValues vm .main [] w = .ok [] (w.withMain w.main.slots r))
    (run : LuaInterpreter.invoke (runJava vm) id method [] (w.withMain w.main.slots r) =
      .error f w') :
    terminate (LuaInterpreter.invokeMethod vm .main (runJava vm) id method) w =
      .error .jvmTerminated w' := by
  rw [terminate, LuaInterpreter.invokeMethod, plain, bind_of_ok read, run_tryCatch,
    bind_of_error run]
  cases ends with
  | exception e => rfl
  | jvmTerminated => rfl

/- Reflection refuses the method. -/
theorem plain_refused (alive : w.Alive) {e : JavaException} (access : method.access = some e) :
    ∃ w', terminate (LuaInterpreter.invokeMethod vm .main (runJava vm) id method) w =
      .error .jvmTerminated w' ∧ w'.store = w.store := by
  obtain ⟨r, read⟩ := getValues_none vm alive
  have refused : LuaInterpreter.invoke (runJava vm) id method [] (w.withMain w.main.slots r) =
      .error (.exception e) (w.withMain w.main.slots r) := by
    rw [LuaInterpreter.invoke, access]
    rfl
  exact ⟨_, invokeMethod_ends plain (.exception e) read refused, rfl⟩

variable (access : method.access = none)

include follows access

/- The method ends as its code does on empty stacks. -/
theorem plain_returns (void : method.returnType = .void) (alive : w.Alive) (sound : w.Sound)
    {o : Object} {u : World}
    (run : Confined.runJava vm' (method.body []) (w.store.invoked id).bare = .ok o u) :
    ∃ w', terminate (LuaInterpreter.invokeMethod vm .main (runJava vm) id method) w = .ok 0 w' ∧
      Lifted (w.bases 0 (Nat.zero_le _)) u w' := by
  obtain ⟨r, read⟩ := getValues_none vm alive
  cases follows_runJava follows (method.body []) (Lifted.invoked sound id r) with
  | undefined g u' right open' => cases run.symm.trans right
  | error f g w' u' left right post => cases run.symm.trans right
  | ok a b w' u' left right post =>
    cases run.symm.trans right
    have body := invoke_ok access left
    refine ⟨w', ?_, post.2⟩
    rw [terminate, LuaInterpreter.invokeMethod, plain, bind_of_ok read, run_tryCatch,
      bind_of_ok body, if_neg (not_not.mpr void)]
    rfl

theorem plain_ends (alive : w.Alive) (sound : w.Sound) {f : Fault} {u : World}
    (ends : f.EndsProgram)
    (run : Confined.runJava vm' (method.body []) (w.store.invoked id).bare = .error f u) :
    ∃ w', terminate (LuaInterpreter.invokeMethod vm .main (runJava vm) id method) w =
      .error .jvmTerminated w' ∧ w'.store = u.store := by
  obtain ⟨r, read⟩ := getValues_none vm alive
  cases follows_runJava follows (method.body []) (Lifted.invoked sound id r) with
  | undefined g u' right open' =>
    cases run.symm.trans right
    subst open'
    cases ends
  | ok a b w' u' left right post => cases run.symm.trans right
  | error g f' w' u' left right post =>
    cases run.symm.trans right
    obtain ⟨rfl, lifted⟩ := post
    obtain ⟨g', ends', body⟩ := invoke_error access ends left
    exact ⟨w', invokeMethod_ends plain ends' read body, lifted.store⟩

end Plain

/- A call of such a method, on any thread. -/
section CallJava

variable (follows : vm.Follows vm') (registered : w.callbacks[stub]? = some (.method id))
  (arena : w.arenaOpen = true) (plain : (program.methods id).parameterTypes = [])
  (sound : w.Sound)

include arena sound in
theorem calling_alive (fn : Value) : (calling L locals fn args w).Alive := by
  have store := store_calling L locals fn args w
  exact (World.Sound.of_store store sound).arena_alive
    ((congrArg Store.arenaOpen store).trans arena)

include registered arena

theorem upcall_calling (fn : Value) : upcall program vm L stub (calling L locals fn args w) =
    terminate (LuaInterpreter.invokeMethod vm .main (runJava vm) id (program.methods id))
      (calling L locals fn args w) := by
  have store := store_calling L locals fn args w
  exact run_upcall_method ((congrArg (fun s => s.callbacks[stub]?) store).trans registered)
    ((congrArg Store.arenaOpen store).trans arena)

theorem callJava_ends {w' : World}
    (run : terminate (LuaInterpreter.invokeMethod vm .main (runJava vm) id (program.methods id))
      (calling L locals (.function (.cfunction stub)) args w) = .error .jvmTerminated w') :
    callJava program vm L locals stub args w = .error .jvmTerminated w' := by
  have ended := precallC_fault ((upcall_calling registered arena _).trans run)
  exact rawrunprotected_other ended fun _ => Fault.noConfusion

include plain sound

theorem callJava_refused {e : JavaException} (access : (program.methods id).access = some e) :
    ∃ w', callJava program vm L locals stub args w = .error .jvmTerminated w' ∧
      w'.store = w.store := by
  obtain ⟨w', refused, store⟩ := plain_refused plain (calling_alive arena sound _) access
  exact ⟨w', callJava_ends registered arena refused, store.trans (store_calling L locals _ args w)⟩

include follows

theorem callJava_faults (access : (program.methods id).access = none) {f : Fault} {u : World}
    (ends : f.EndsProgram)
    (run : Confined.runJava vm' ((program.methods id).body []) (w.store.invoked id).bare =
      .error f u) :
    ∃ w', callJava program vm L locals stub args w = .error .jvmTerminated w' ∧
      w'.store = u.store := by
  have store := store_calling L locals (.function (.cfunction stub)) args w
  rw [← store] at run
  obtain ⟨w', ended, same⟩ := plain_ends follows plain access (calling_alive arena sound _)
    (World.Sound.of_store store sound) ends run
  exact ⟨w', callJava_ends registered arena ended, same⟩

theorem callJava_returns (void : (program.methods id).returnType = .void)
    (access : (program.methods id).access = none) {o : Object} {u : World}
    (run : Confined.runJava vm' ((program.methods id).body []) (w.store.invoked id).bare =
      .ok o u) :
    ∃ w', callJava program vm L locals stub args w = .ok (.ok []) w' ∧
      w'.store = { u.store with calls := w.calls } ∧ w'.Sound ∧
      ∀ T, T ≠ L → (w'.thread T).slots = (u.thread T).slots ++ (w.thread T).slots := by
  have store := store_calling L locals (.function (.cfunction stub)) args w
  rw [← store] at run
  obtain ⟨v, returned, lifted⟩ := plain_returns follows plain access void
    (calling_alive arena sound _) (World.Sound.of_store store sound) run
  have called := precallC_nothing ((upcall_calling registered arena _).trans returned)
  refine ⟨v.unwind L w, ?_, ?_, ?_, ?_⟩
  · rw [callJava, rawrunprotected, called]
  · rw [World.store_unwind, lifted.store]
  · exact (World.sound_unwind L).mpr (World.Sound.of_store lifted.store lifted.sound)
  · intro T other
    rw [World.thread_unwind_other w v other, lifted.slots T]
    exact congrArg _ (congrArg LuaState.slots (w.thread_setThread_other _ other))

end CallJava

end Calls

end Luava
