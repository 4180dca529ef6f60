import Luava.UpcallArguments
import Luava.UpcallErrors

/-
The results of an upcall. Whether there is one is decided by a comparison with the class
java.lang.Void, which is not the class of a method declared void.
-/
namespace Luava

open Effects LuaApi Machine

/-- What Lua should receive from a method with the given return type that returned o: nothing if
it is void, and otherwise the image of o, where stub is the number of the next upcall stub. -/
inductive FollowsDeclaration (returnType : JavaClass) (stub : Nat) (o : Object) (rs : List Value) :
    Prop
  | void (declared : returnType = .primitive .void) (nothing : rs = [])
  | value (v : Value) (declared : returnType ≠ .primitive .void)
      (image : LuaStack.imageOf stub o = .ok v) (one : rs = [v])

namespace MethodResults

/- A native push that returns has put its value on top. -/
theorem push_returned {v : Value} {w w' : World}
    (run : (do enter; push .main v : Wrapper Unit) w = .ok ⟨⟩ w') :
    w'.main.slots = v :: w.main.slots := by
  by_cases closed : w.status = .closed
  · cases (bind_of_error (enter_closed closed) _).symm.trans run
  · rw [bind_of_ok (enter_open closed), run_pushed] at run
    cases run
    exact w.pushed_slots v

/- What is left of an allocation that returned. -/
theorem allocate_returned {w w' : World} (run : Arena.allocate w = .ok ⟨⟩ w') : w' = w := by
  cases arena : w.arenaOpen with
  | true =>
    cases (allocate_open arena).symm.trans run
    rfl
  | false => cases (allocate_closed arena).symm.trans run

theorem pushObject_returned {o : Object} {w w' : World}
    (run : LuaStack.pushObject .main o w = .ok ⟨⟩ w') :
    ∃ v, LuaStack.imageOf w.callbacks.length o = .ok v ∧ w'.main.slots = v :: w.main.slots := by
  cases o with
  | other className text => cases (run_throwJava _ w).symm.trans run
  | string s =>
    obtain ⟨segment, w₁, allocated, pushed⟩ := ok_of_bind run
    obtain ⟨_, w₂, alive, bytes⟩ := ok_of_bind allocated
    cases bytes
    obtain rfl := allocate_returned alive
    refine ⟨_, rfl, push_returned ?_⟩
    simpa [luaPushlstring] using pushed
  | function id =>
    obtain ⟨_, w₁, allocated, pushed⟩ := ok_of_bind run
    obtain rfl := allocate_returned allocated
    exact ⟨_, rfl, push_returned (w := w₁.register [.function id]) pushed⟩
  | null => exact ⟨.nil, rfl, push_returned run⟩
  | integer i => exact ⟨.integer i.toInt64, rfl, push_returned run⟩
  | long i => exact ⟨.integer i, rfl, push_returned run⟩
  | float f => exact ⟨.float f.toBinary64, rfl, push_returned run⟩
  | double d => exact ⟨.float d, rfl, push_returned run⟩
  | boolean b => exact ⟨.boolean b, rfl, push_returned run⟩

/- A guard that only throws does not return. -/
theorem guarded_returned {α : Type} {x : Wrapper α} {h : Fault → Wrapper α} {w w' : World} {a : α}
    (throws : ∀ f w, ∃ g, h f w = .error g w) (run : tryCatch x h w = .ok a w') :
    x w = .ok a w' := by
  rw [run_tryCatch] at run
  cases ends : x w with
  | ok b u => simpa only [ends] using run
  | error f u =>
    simp only [ends] at run
    obtain ⟨g, thrown⟩ := throws f u
    cases thrown.symm.trans run

/- The invocation of a method that returned. -/
theorem invoke_returned {vm : VM} {method : Method JavaCode} {id : Nat} {args : List Object}
    {w w' : World} {o : Object}
    (run : LuaInterpreter.invoke (runJava vm) id method args w = .ok o w') :
    runJava vm (method.body args) { w with invocations := (id, args) :: w.invocations } =
      .ok o w' := by
  cases access : method.access with
  | some e =>
    rw [LuaInterpreter.invoke, access] at run
    cases run
  | none =>
    by_cases agreed : ((method.parameterTypes.zip args).any fun given =>
        given.1.isPrimitive && given.2 == .null) = true
    · cases (invoke_mismatch vm method id args w access agreed).symm.trans run
    · rw [run_invoke vm method id args w access agreed] at run
      cases body : runJava vm (method.body args)
          { w with invocations := (id, args) :: w.invocations } with
      | ok o' u => simpa only [body] using run
      | error f u => cases f <;> simp [body] at run

/- An upcall that returned: its body has returned an object, and the top slots that are taken for
   results are the image of it, or none where the declared class is java.lang.Void. -/
theorem invokeMethod_returned {vm : VM} {method : Method JavaCode} {id n : Nat} {w w' : World}
    (run : LuaInterpreter.invokeMethod vm .main (runJava vm) id method w = .ok n w') :
    ∃ args o w₁, outcomeOf (LuaStack.getValues vm .main method.parameterTypes) w = .ok args ∧
      runJava vm (method.body args) (entered vm method id args w) = .ok o w₁ ∧
      (method.returnType = .void ∧ n = 0 ∨ method.returnType ≠ .void ∧ ∃ v,
        LuaStack.imageOf w₁.callbacks.length o = .ok v ∧ w'.main.slots.take n = [v]) := by
  obtain ⟨args, w₀, read, guarded⟩ := ok_of_bind run
  have inner := guarded_returned (fun f u => by cases f <;> exact ⟨_, rfl⟩) guarded
  obtain ⟨o, w₁, invoked, rest⟩ := ok_of_bind inner
  have ended : endOf (LuaStack.getValues vm .main method.parameterTypes) w = w₀ := by
    rw [endOf, read]
  refine ⟨args, o, w₁, by rw [outcomeOf, read], ?_, ?_⟩
  · rw [entered, ended]
    exact invoke_returned invoked
  · by_cases void : method.returnType = .void
    · rw [if_neg (not_not.mpr void)] at rest
      cases rest
      exact .inl ⟨void, rfl⟩
    · rw [if_pos void] at rest
      obtain ⟨_, _, noted, more⟩ := ok_of_bind rest
      cases noted
      obtain ⟨_, w₂, pushed, one⟩ := ok_of_bind more
      obtain ⟨v, image, slots⟩ := pushObject_returned pushed
      cases one
      exact .inr ⟨void, v, image, by rw [slots]; rfl⟩

theorem terminate_returned {α : Type} {x : Wrapper α} {w w' : World} {a : α}
    (run : terminate x w = .ok a w') : x w = .ok a w' := by
  unfold terminate at run
  cases ends : x w with
  | ok b u => simpa only [ends] using run
  | error f u => cases f <;> simp [ends] at run

/- The stub of a method that is entered runs the method. -/
theorem upcall_returned {program : Program} {vm : VM} {stub id n : Nat} {w w' : World}
    (registered : w.callbacks[stub]? = some (.method id))
    (run : upcall program vm .main stub w = .ok n w') :
    LuaInterpreter.invokeMethod vm .main (runJava vm) id (program.methods id) w = .ok n w' := by
  rw [upcall, bind_of_ok (run_get w)] at run
  cases arena : w.arenaOpen with
  | false =>
    simp only [arena, Bool.not_false, ↓reduceIte] at run
    cases run
  | true =>
    simp only [arena, Bool.not_true, Bool.false_eq_true, ↓reduceIte, registered] at run
    exact terminate_returned run

end MethodResults

open MethodResults

/-- What Lua receives from a registered method it has called on the main thread follows the
method's declaration exactly when the declared class is neither void nor java.lang.Void. -/
theorem results_follow_declaration_iff {program : Program} {vm : VM} {stub id : Nat}
    {locals args rs : List Value} {fn : Value} {w w' : World}
    (registered : w.callbacks[stub]? = some (.method id))
    (run : precallC .main locals fn args (upcall program vm .main stub) w = .ok rs w') :
    ∃ objects o w₁,
      outcomeOf (LuaStack.getValues vm .main (program.methods id).parameterTypes)
        (calledWith w locals fn args) = .ok objects ∧
      runJava vm ((program.methods id).body objects)
        (entered vm (program.methods id) id objects (calledWith w locals fn args)) = .ok o w₁ ∧
      (FollowsDeclaration (program.methods id).returnType w₁.callbacks.length o rs ↔
        (program.methods id).returnType ≠ .primitive .void ∧
          (program.methods id).returnType ≠ .void) := by
  rw [run_precallC] at run
  obtain ⟨n, w₂, called, rest⟩ := ok_of_bind run
  obtain ⟨_, _, got, rest⟩ := ok_of_bind rest
  cases got
  obtain ⟨_, _, unwound, taken⟩ := ok_of_bind rest
  cases taken
  obtain ⟨objects, o, w₁, read, body, results⟩ :=
    invokeMethod_returned (upcall_returned (w := calledWith w locals fn args) registered called)
  refine ⟨objects, o, w₁, read, body, ?_⟩
  rcases results with ⟨void, rfl⟩ | ⟨other, v, image, top⟩
  · refine iff_of_false ?_ fun both => both.2 void
    rintro (⟨declared, _⟩ | ⟨v, _, _, one⟩)
    · rw [void] at declared
      cases declared
    · cases one
  · have taken : (w₂.thread .main).slots.take n = [v] := top
    rw [taken, List.reverse_singleton]
    constructor
    · rintro (⟨_, nothing⟩ | ⟨_, declared, _, _⟩)
      · cases nothing
      · exact ⟨declared, other⟩
    · intro both
      exact .value v both.1 image rfl

namespace MethodResults

/- A method with the given return type that returns an object, or null. -/
def program (returnType : JavaClass) (o : Object) : Program :=
  { Program.blank with methods := fun _ => ⟨[], returnType, none, "m", fun _ => .ret o⟩ }

def registered : World := { World.create .blank with callbacks := [.method 0] }

end MethodResults

theorem long_result_follows_declaration :
    ∃ next, FollowsDeclaration .long next (.long 7) [.integer 7] := by
  have outcome : outcomeOf (precallC .main [] (.function (.cfunction 0)) []
      (upcall (program .long (.long 7)) (vmAt .blank 0) .main 0)) registered =
      .ok [.integer 7] := by decide +kernel
  obtain ⟨objects, o, w₁, _, body, follows⟩ :=
    results_follow_declaration_iff rfl (ends_of_outcome outcome)
  have returned : (EStateM.Result.ok (Object.long 7) _ : EStateM.Result Fault World Object) =
      .ok o w₁ := body
  cases returned
  exact ⟨_, follows.mpr ⟨by decide, by decide⟩⟩

/-- A method declared void returns null, and Lua receives a nil. -/
theorem void_method_returns_nil :
    outcomeOf (precallC .main [] (.function (.cfunction 0)) []
      (upcall (program (.primitive .void) .null) (vmAt .blank 0) .main 0)) registered =
      .ok [.nil] ∧
    ¬ FollowsDeclaration (.primitive .void) 1 .null [.nil] := by
  refine ⟨by decide +kernel, ?_⟩
  rintro (⟨_, nothing⟩ | ⟨_, declared, _, _⟩)
  · cases nothing
  · exact declared rfl

end Luava
