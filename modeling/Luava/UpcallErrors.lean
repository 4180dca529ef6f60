import Luava.Runs

/-
How the upcall of a Java method ends. Only the invocation itself is guarded against exceptions,
and the guard throws again, so an exception at any stage leaves the upcall stub.
-/
namespace Luava

open Effects LuaApi Machine

/-- x returns, or raises a Lua error. -/
structure Contained {α : Type} (x : Wrapper α) (w : World) : Prop where
  ends : ∀ f, outcomeOf x w = .error f → ∃ L e, f = .luaError L e

namespace Contained

variable {α β : Type} {x : Wrapper α} {w w' : World}

theorem iff_run : Contained x w ↔ match x w with
    | .ok _ _ => True
    | .error f _ => ∃ L e, f = .luaError L e := by
  constructor
  · rintro ⟨ends⟩
    cases run : x w with
    | ok a w' => trivial
    | error f w' => exact ends f (by rw [outcomeOf, run])
  · intro ends
    refine ⟨fun f failed => ?_⟩
    unfold outcomeOf at failed
    cases run : x w with
    | ok a w' => simp [run] at failed
    | error g w' =>
      simp only [run, Except.error.injEq] at failed ends
      exact failed ▸ ends

theorem of_ok {a : α} (run : x w = .ok a w') : Contained x w := by
  rw [iff_run, run]
  trivial

theorem iff_fault {f : Fault} (run : x w = .error f w') :
    Contained x w ↔ ∃ L e, f = .luaError L e := by
  rw [iff_run, run]

theorem not_of_exception {e : JavaException} (run : x w = .error (.exception e) w') :
    ¬ Contained x w := by
  simp [iff_fault run]

theorem bind_iff (f : α → Wrapper β) : Contained (x >>= f) w ↔ match x w with
    | .ok a w' => Contained (f a) w'
    | .error g _ => ∃ L e, g = .luaError L e := by
  cases run : x w with
  | ok a w' =>
    show _ ↔ Contained (f a) w'
    rw [iff_run, iff_run, bind_of_ok run]
  | error g w' => rw [iff_fault (bind_of_error run f)]

/- A guard that throws again makes no difference, and neither does the stub. -/
theorem guarded_iff {h : Fault → Wrapper α} (rethrows : ∀ f w, ∃ g, h f w = .error g w ∧
    ((∃ L e, g = .luaError L e) ↔ ∃ L e, f = .luaError L e)) :
    Contained (tryCatch x h) w ↔ Contained x w := by
  rw [iff_run, iff_run, run_tryCatch]
  cases x w with
  | ok a w' => rfl
  | error f w' =>
    obtain ⟨g, thrown, same⟩ := rethrows f w'
    simp only [thrown]
    exact same

theorem terminate_iff : Contained (terminate x) w ↔ Contained x w := by
  rw [iff_run, iff_run, terminate]
  cases x w with
  | ok a w' => rfl
  | error f w' => cases f <;> simp

end Contained

/-- pushObject takes o in w. -/
structure Pushes (o : Object) (w : World) : Prop where
  pushable : o.isPushable = true
  opened : w.status ≠ .closed
  arena : o.allocates = true → w.arenaOpen = true

/- A push either is taken, or ends in a fault that is no Lua error. -/
def Ended (o : Object) (w : World) (x : Wrapper Unit) : Prop :=
  (∃ w', x w = .ok ⟨⟩ w') ∧ Pushes o w ∨
    (∃ f w', x w = .error f w' ∧ ∀ L e, f ≠ .luaError L e) ∧ ¬ Pushes o w

/- A native push at the end, in a state u that is as open as w. The arena has been consulted
   before where it is. -/
theorem native_push_ends {o : Object} {x : Wrapper Unit} (v : Value) {w : World} (u : World)
    (run : x w = (do enter; push .main v : Wrapper Unit) u) (same : u.status = w.status)
    (pushable : o.isPushable = true) (arena : o.allocates = true → w.arenaOpen = true) :
    Ended o w x := by
  by_cases closed : u.status = .closed
  · refine .inr ⟨⟨.undefined, _, run.trans (bind_of_error (enter_closed closed) _), by simp⟩, ?_⟩
    exact fun pushes => pushes.opened (same ▸ closed)
  · rw [bind_of_ok (enter_open closed), run_pushed] at run
    exact .inl ⟨⟨u.pushed v, run⟩, pushable, fun h => closed (same.trans h), arena⟩

/- A push that starts with an allocation the arena refuses. -/
theorem refused_push_ends {o : Object} {w : World} (f : Unit → Wrapper Unit)
    (allocates : o.allocates = true) (arena : w.arenaOpen = false) :
    Ended o w (Arena.allocate >>= f) := by
  refine .inr ⟨⟨_, w, bind_of_error (allocate_closed arena) f, by simp⟩, fun pushes => ?_⟩
  simp [pushes.arena allocates] at arena

theorem pushObject_ends (o : Object) (w : World) : Ended o w (LuaStack.pushObject .main o) := by
  have free (allocates : o.allocates = false) : o.allocates = true → w.arenaOpen = true := by
    simp [allocates]
  cases o with
  | other className text =>
    exact .inr ⟨⟨_, w, run_throwJava _ w, by simp⟩, fun pushes => by cases pushes.pushable⟩
  | string s =>
    cases arena : w.arenaOpen with
    | false =>
      rw [LuaStack.pushObject, LuaStack.pushString, Arena.allocateFrom, bind_assoc]
      exact refused_push_ends _ rfl arena
    | true =>
      have allocated : Arena.allocateFrom s w = .ok (Utf8.encode s.toList ++ [0]) w :=
        bind_of_ok (allocate_open arena) _
      exact native_push_ends _ w (bind_of_ok allocated _) rfl rfl fun _ => arena
  | function id =>
    cases arena : w.arenaOpen with
    | false => exact refused_push_ends _ rfl arena
    | true =>
      exact native_push_ends _ (w.register [.function id]) (bind_of_ok (allocate_open arena) _) rfl
        rfl fun _ => arena
  | null => exact native_push_ends .nil w rfl rfl rfl (free rfl)
  | integer i => exact native_push_ends (.integer i.toInt64) w rfl rfl rfl (free rfl)
  | long i => exact native_push_ends (.integer i) w rfl rfl rfl (free rfl)
  | float f => exact native_push_ends (.float f.toBinary64) w rfl rfl rfl (free rfl)
  | double d => exact native_push_ends (.float d) w rfl rfl rfl (free rfl)
  | boolean b => exact native_push_ends (.boolean b) w rfl rfl rfl (free rfl)

/- The world the body of a method is started in, with the arguments it is handed. -/
def entered (vm : VM) (method : Method JavaCode) (id : Nat) (args : List Object) (w : World) :
    World :=
  let read := endOf (LuaStack.getValues vm .main method.parameterTypes) w
  { read with invocations := (id, args) :: read.invocations }

/-- Nothing goes wrong on the way through the upcall of a method in w: the stack has a slot for
   every parameter, each converts to an object, reflection takes the method and the objects, and
   the body raises a Lua error or returns an object that can be pushed, if it is to be. -/
structure Harmless (vm : VM) (method : Method JavaCode) (id : Nat) (w : World)
    (args : List Object) : Prop where
  enough : method.parameterTypes.length ≤ w.main.slots.length
  converted : LuaStack.objectsOf vm.libc method.parameterTypes.length 0 method.parameterTypes
    w.main.slots = .ok args
  access : method.access = none
  primitives : ¬ (method.parameterTypes.zip args).any fun (type, arg) =>
    type.isPrimitive && arg == .null
  body : match runJava vm (method.body args) (entered vm method id args w) with
    | .ok o w' => method.returnType ≠ .void → Pushes o w'
    | .error f _ => ∃ L e, f = .luaError L e

theorem push_contained_iff (o : Object) (w : World) :
    Contained (do
      modify fun w => w.addStep (.result o (w.thread .main))
      LuaStack.pushObject .main o
      return 1 : Wrapper Nat) w ↔ Pushes o w := by
  have same : Pushes o (w.addStep (.result o w.main)) ↔ Pushes o w :=
    ⟨fun ⟨p, q, r⟩ => ⟨p, q, r⟩, fun ⟨p, q, r⟩ => ⟨p, q, r⟩⟩
  rw [Contained.bind_iff, run_modify, ← same]
  show Contained (_ >>= _) (w.addStep (.result o w.main)) ↔ _
  rw [Contained.bind_iff]
  rcases pushObject_ends o (w.addStep (.result o w.main)) with
    ⟨⟨w', pushed⟩, pushes⟩ | ⟨⟨f, w', refused, other⟩, pushes⟩
  · simp only [pushed, pushes, iff_true]
    exact Contained.of_ok (run_pure 1 w')
  · simp only [refused, pushes, iff_false]
    exact fun ⟨L, e, raised⟩ => other L e raised

section Invoke

variable (vm : VM) (method : Method JavaCode) (id : Nat) (args : List Object) (w : World)

theorem invoke_mismatch (access : method.access = none)
    (mismatch : ((method.parameterTypes.zip args).any fun (type, arg) =>
      type.isPrimitive && arg == .null) = true) :
    LuaInterpreter.invoke (runJava vm) id method args w =
      .error (.exception (.illegalArgument "argument type mismatch")) w := by
  rw [LuaInterpreter.invoke, access]
  simp only [mismatch, ↓reduceIte]
  rfl

theorem run_invoke (access : method.access = none)
    (agreed : ¬ ((method.parameterTypes.zip args).any fun (type, arg) =>
      type.isPrimitive && arg == .null) = true) :
    LuaInterpreter.invoke (runJava vm) id method args w =
      match runJava vm (method.body args) { w with invocations := (id, args) :: w.invocations } with
      | .ok o w' => .ok o w'
      | .error (.exception _) w' => .error (.exception .invocationTarget) w'
      | .error f w' => .error f w' := by
  rw [LuaInterpreter.invoke, access]
  simp only [agreed, Bool.false_eq_true, ↓reduceIte]
  rw [bind_of_ok (run_modify _ w), run_tryCatch]
  cases runJava vm (method.body args) { w with invocations := (id, args) :: w.invocations } with
  | ok o w' => rfl
  | error f w' => cases f <;> rfl

end Invoke

/- The invocation with the push of its result. -/
theorem invocation_contained_iff (vm : VM) (method : Method JavaCode) (id : Nat)
    (args : List Object) (w : World) :
    Contained (do
      let result ← LuaInterpreter.invoke (runJava vm) id method args
      if method.returnType ≠ .void then
        modify fun w => w.addStep (.result result (w.thread .main))
        LuaStack.pushObject .main result
        return 1
      return 0 : Wrapper Nat) w ↔
    method.access = none ∧
      ¬ ((method.parameterTypes.zip args).any fun (type, arg) =>
        type.isPrimitive && arg == .null) ∧
      match runJava vm (method.body args) { w with invocations := (id, args) :: w.invocations } with
      | .ok o w' => method.returnType ≠ .void → Pushes o w'
      | .error f _ => ∃ L e, f = .luaError L e := by
  rw [Contained.bind_iff]
  cases access : method.access with
  | some e =>
    have refused : LuaInterpreter.invoke (runJava vm) id method args w =
        .error (.exception e) w := by
      rw [LuaInterpreter.invoke, access]
      rfl
    simp [refused]
  | none =>
    rw [and_iff_right rfl]
    by_cases mismatch : ((method.parameterTypes.zip args).any fun (type, arg) =>
        type.isPrimitive && arg == .null) = true
    · simp [invoke_mismatch vm method id args w access mismatch, mismatch]
    · rw [and_iff_right mismatch, run_invoke vm method id args w access mismatch]
      cases runJava vm (method.body args)
          { w with invocations := (id, args) :: w.invocations } with
      | error f w' => cases f <;> simp
      | ok o w' =>
        by_cases void : method.returnType = .void
        · simp only [void, ne_eq, not_true_eq_false, ↓reduceIte, IsEmpty.forall_iff, iff_true]
          exact Contained.of_ok (run_pure 0 w')
        · simp only [ne_eq, void, not_false_eq_true, ↓reduceIte, forall_const]
          exact push_contained_iff o w'

theorem invokeMethod_contained_iff (vm : VM) (method : Method JavaCode) (id : Nat) {w : World}
    (alive : w.Alive) :
    Contained (LuaInterpreter.invokeMethod vm .main (runJava vm) id method) w ↔
      ∃ args, Harmless vm method id w args := by
  by_cases enough : method.parameterTypes.length ≤ w.main.slots.length
  · obtain ⟨r, read, _⟩ := LuaStack.run_getValues vm alive enough (P := fun _ => True)
      (.inr trivial) (.inr trivial)
    generalize LuaStack.slotsRead vm.libc _ 0 _ w.main.slots = slots at read
    cases values : LuaStack.objectsOf vm.libc method.parameterTypes.length 0
        method.parameterTypes w.main.slots with
    | error e =>
      rw [values] at read
      have refused : ¬ Contained (LuaInterpreter.invokeMethod vm .main (runJava vm) id method) w :=
        Contained.not_of_exception (bind_of_error read _)
      refine iff_of_false refused ?_
      rintro ⟨args, harmless⟩
      cases values.symm.trans harmless.converted
    | ok args =>
      rw [values] at read
      have ended : endOf (LuaStack.getValues vm .main method.parameterTypes) w =
          w.withMain slots r := by rw [endOf, read]; rfl
      rw [LuaInterpreter.invokeMethod, Contained.bind_iff, read]
      show Contained (tryCatch _ _) (w.withMain slots r) ↔ _
      refine (Contained.guarded_iff fun f w => ?_).trans ?_
      · cases f with
        | exception e => exact ⟨_, rfl, by simp⟩
        | _ => exact ⟨_, rfl, Iff.rfl⟩
      rw [invocation_contained_iff]
      constructor
      · rintro ⟨access, primitives, body⟩
        refine ⟨args, enough, values, access, primitives, ?_⟩
        simpa only [entered, ended] using body
      · rintro ⟨args', harmless⟩
        cases values.symm.trans harmless.converted
        refine ⟨harmless.access, harmless.primitives, ?_⟩
        simpa only [entered, ended] using harmless.body
  · obtain ⟨r, read, _⟩ := LuaStack.getValues_outside vm alive (Nat.lt_of_not_le enough)
      (P := fun _ => True) trivial
    have crashed : LuaInterpreter.invokeMethod vm .main (runJava vm) id method w =
        .error .undefined (w.withMain w.main.slots r) := bind_of_error read _
    refine iff_of_false ?_ ?_
    · simp [Contained.iff_fault crashed]
    · rintro ⟨args, harmless⟩
      exact enough harmless.enough

/-- The upcall of a registered method returns its result count or raises a Lua error exactly when
   nothing goes wrong on the way. -/
theorem upcall_contained_iff (program : Program) (vm : VM) (L : ThreadId) {stub id : Nat}
    {w : World} (alive : w.Alive) (registered : w.callbacks[stub]? = some (.method id)) :
    Contained (upcall program vm L stub) w ↔
      ∃ args, Harmless vm (program.methods id) id w args := by
  have run : upcall program vm L stub w =
      terminate (LuaInterpreter.invokeMethod vm .main (runJava vm) id (program.methods id)) w := by
    rw [upcall, bind_of_ok (run_get w)]
    simp only [alive.arena, Bool.not_true, Bool.false_eq_true, ↓reduceIte, registered]
  have same : Contained (upcall program vm L stub) w ↔ Contained (terminate
      (LuaInterpreter.invokeMethod vm .main (runJava vm) id (program.methods id))) w := by
    rw [Contained.iff_run, run, ← Contained.iff_run]
  rw [same, Contained.terminate_iff, invokeMethod_contained_iff vm _ id alive]

namespace UpcallErrors

/- A method with a parameter of type long, and a chunk that calls it with a string. -/
def program : Program :=
  { Program.blank with
    methods := fun _ => ⟨[.primitive .long], .void, none, "take", fun _ => .ret .null⟩
    code := fun _ _ => .upcall [] 0 [.literal "x"] fun _ => .ret [] }

/- The method's stub has been entered with one argument. -/
def called (arg : Value) : World :=
  { World.create .blank with
    main := ⟨[arg, .function (.cfunction 0), .nil], 1, 23⟩
    callbacks := [.method 0] }

end UpcallErrors

open UpcallErrors

theorem integer_for_long_is_contained :
    Contained (upcall program (vmAt program 0) .main 0) (called (.integer 1)) :=
  (upcall_contained_iff program (vmAt program 0) .main ⟨by decide, rfl⟩ rfl).mpr
    ⟨[.long 1],
      { enough := by decide
        converted := rfl
        access := rfl
        primitives := by decide
        body := fun returns => absurd rfl returns }⟩

/-- The conversion of a string to a long throws before the guard is reached. -/
theorem string_for_long_leaves_the_upcall :
    ¬ Contained (upcall program (vmAt program 0) .main 0) (called (.literal "x")) ∧
    outcomeOf (runJava (vmAt program 1) (.sequence [.setGlobalFunction "take" 0,
      .exec "take('x')"])) (.create .blank) = .error .jvmTerminated := by
  refine ⟨?_, by decide +kernel⟩
  rintro ⟨ends⟩
  have crashed : outcomeOf (upcall program (vmAt program 0) .main 0) (called (.literal "x")) =
      .error .jvmTerminated := by decide +kernel
  obtain ⟨L, e, raised⟩ := ends _ crashed
  cases raised

end Luava
