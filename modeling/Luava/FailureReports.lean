import Luava.Chunks

/-
The report of a failed load or protected call. Its message is the error object read as a string,
so an error object without a text makes the report fail, with the object still on the stack.
-/
namespace Luava

open Effects LuaApi Machine

/-- x throws the FunctionCallException of the native function and its status, and the stack is as
high as before. -/
inductive Reported {α : Type} (x : Wrapper α) (functionName : String) (status : Int) (w : World) :
    Prop
  | intro (message : String) (w' : World)
      (run : x w = .error (.exception (.functionCallException functionName status message)) w')
      (height : w'.main.top = w.main.top)

/- The value has a text: it is a string or a number. -/
def Value.hasText (v : Value) : Bool := v.isString || v.isNumber

/-- The chunk is compiled, and the protected call of the function ends with the given outcome. The
   called code keeps the height of the stack. -/
structure ExecRuns (vm : VM) (chunk : String) (w : World)
    (outcome : Except LuaError (List Value)) (below : List Value) : Prop where
  alive : w.Alive
  height : below.length = w.main.slots.length
  run : ∃ f, vm.load (Utf8.cString (Utf8.encode chunk.toList)) = .ok f ∧
    ∀ r, CodeEnds vm f [] (w.withMain w.main.slots r) outcome below

namespace FailureReports

/- The end of checkStatus with the error object on top of the given slots. -/
theorem reported_iff {α : Type} {x : Wrapper α} {w w' : World} {libc : Libc} {name : String}
    {e : LuaError} {below : List Value} {r : Record} (height : below.length = w.main.slots.length)
    (run : x w = .error (.exception (LowLevelLua.failure libc name e.status e.object))
      (w'.withMain (LuaStack.remaining (LuaStack.stringOf libc (-1) e.object) e.object below) r)) :
    Reported x name e.status w ↔ e.object.hasText = true := by
  have text := LuaStack.stringOf_ok_iff libc (-1) e.object
  rw [Value.hasText, ← text]
  unfold LowLevelLua.failure at run
  cases message : LuaStack.stringOf libc (-1) e.object with
  | ok m =>
    simp only [message] at run
    exact iff_of_true ⟨m, _, run, height⟩ ⟨m, rfl⟩
  | error refusal =>
    simp only [message] at run
    refine iff_of_false ?_ (by rintro ⟨m, ok⟩; cases ok)
    rintro ⟨m, w'', ends, top⟩
    cases run.symm.trans ends
    have length : (e.object :: below).length = w.main.slots.length := top
    rw [List.length_cons, height] at length
    omega

end FailureReports

open FailureReports

theorem refused_load_reported_iff (vm : VM) {chunk : String} {w : World} {e : LuaError}
    (alive : w.Alive) (refused : vm.load (Utf8.cString (Utf8.encode chunk.toList)) = .error e) :
    Reported (LuaInterpreter.exec vm .main chunk) "luaL_loadstring" e.status w ↔
      e.object.hasText = true := by
  obtain ⟨r, run⟩ := LuaInterpreter.run_exec_refused vm alive refused
  exact reported_iff rfl run

theorem failed_exec_reported_iff (vm : VM) {chunk : String} {w : World} {e : LuaError}
    {below : List Value} (runs : ExecRuns vm chunk w (.error e) below) :
    Reported (LuaInterpreter.exec vm .main chunk) "lua_pcallk" e.status w ↔
      e.object.hasText = true := by
  obtain ⟨f, loaded, ends⟩ := runs.run
  obtain ⟨r, started⟩ := LuaInterpreter.run_exec_loaded vm runs.alive loaded
  obtain ⟨w', r', called, _⟩ := LowLevelLua.run_pcall vm 0
    ((World.withMain_alive _ _ r).mpr runs.alive) (rfl : ([] : List Value).length = 0) rfl ends
  exact reported_iff runs.height (started.trans called)

theorem failed_call_reported_iff (vm : VM) {f : LuaFunction} {w : World} {e : LuaError}
    {below : List Value} (runs : CallRuns vm f w (.ended (.error e) below)) :
    Reported (f.call vm .main) "lua_pcallk" e.status w ↔ e.object.hasText = true := by
  obtain ⟨w', r, _, run⟩ := LuaFunction.run_call_ended vm runs
  obtain _ | ⟨_, _, _, _, height, _⟩ := runs
  exact reported_iff height run

/-- A failed load or call is reported as such exactly when its error object has a text. -/
theorem failures_reported_iff (vm : VM) (w : World) (e : LuaError) (below : List Value) :
    (∀ chunk, w.Alive → vm.load (Utf8.cString (Utf8.encode chunk.toList)) = .error e →
      (Reported (LuaInterpreter.exec vm .main chunk) "luaL_loadstring" e.status w ↔
        e.object.hasText = true)) ∧
    (∀ chunk, ExecRuns vm chunk w (.error e) below →
      (Reported (LuaInterpreter.exec vm .main chunk) "lua_pcallk" e.status w ↔
        e.object.hasText = true)) ∧
    ∀ f, CallRuns vm f w (.ended (.error e) below) →
      (Reported (f.call vm .main) "lua_pcallk" e.status w ↔ e.object.hasText = true) :=
  ⟨fun _ alive refused => refused_load_reported_iff vm alive refused,
    fun _ runs => failed_exec_reported_iff vm runs, fun _ runs => failed_call_reported_iff vm runs⟩

namespace FailureReports

theorem errrun_failed : LUA_ERRRUN ≠ LUA_OK := by decide

def raised (object : Value) : LuaError := ⟨LUA_ERRRUN, object, errrun_failed⟩

theorem errsyntax_failed : LUA_ERRSYNTAX ≠ LUA_OK := by decide

/- What luaL_loadstring refuses a text with. -/
def refused (object : Value) : LuaError := ⟨LUA_ERRSYNTAX, object, errsyntax_failed⟩

/-- Compiled code and the global f raise the object; a text that is no chunk does not compile. -/
def program (object : Value) : Program :=
  { Program.blank with
    code := fun _ _ => .error (raised object)
    compile := fun text =>
      if text = [33] then .error (refused object) else .ok (.function (.closure 0)) }

def heap : Heap := Heap.blank.rawset 0 (keyOf "f") (.function (.closure 0))

theorem exec_raises (object : Value) : ExecRuns (vmAt (program object) 1) "f()" (.create heap)
    (.error (raised object)) [.nil] := by
  have opened : Status.opened ≠ .closed := by decide
  refine ⟨⟨opened, rfl⟩, rfl, .function (.closure 0), rfl, fun r => ?_⟩
  exact .of_raised rfl ⟨opened, rfl⟩ rfl

theorem call_raises (object : Value) : CallRuns (vmAt (program object) 1) ⟨"f", [], []⟩
    (.create heap) (.ended (.error (raised object)) [.nil]) := by
  have found : heap.access (.table 0) (keyOf "f") = .value (.function (.closure 0)) := by decide
  have opened : Status.opened ≠ .closed := by decide
  refine .ended _ _ ⟨opened, rfl⟩ rfl rfl fun r => ?_
  refine ⟨.function (.closure 0), [.nil], _, lookup_value _ found, ⟨opened, rfl⟩, rfl, ?_⟩
  intro r'
  exact .of_raised rfl ⟨opened, rfl⟩ rfl

end FailureReports

theorem string_failures_are_reported :
    let vm := vmAt (program (.literal "oops")) 1
    Reported (LuaInterpreter.exec vm .main "!") "luaL_loadstring" LUA_ERRSYNTAX (.create heap) ∧
    Reported (LuaInterpreter.exec vm .main "f()") "lua_pcallk" LUA_ERRRUN (.create heap) ∧
    Reported ((⟨"f", [], []⟩ : LuaFunction).call vm .main) "lua_pcallk" LUA_ERRRUN
      (.create heap) := by
  intro vm
  have unread := failures_reported_iff vm (.create heap) (refused (.literal "oops")) [.nil]
  have reported := failures_reported_iff vm (.create heap) (raised (.literal "oops")) [.nil]
  refine ⟨?_, ?_, ?_⟩
  · exact (unread.1 "!" ⟨by decide, rfl⟩ rfl).mpr rfl
  · exact (reported.2.1 "f()" (exec_raises _)).mpr rfl
  · exact (reported.2.2 ⟨"f", [], []⟩ (call_raises _)).mpr rfl

/-- The script raises a table: the LuaException of the conversion takes the place of the report. -/
theorem table_failure_is_not_reported :
    let vm := vmAt (program (.table 1)) 1
    ExecRuns vm "f()" (.create heap) (.error (raised (.table 1))) [.nil] ∧
    ¬ Reported (LuaInterpreter.exec vm .main "f()") "lua_pcallk" LUA_ERRRUN (.create heap) := by
  intro vm
  refine ⟨exec_raises (.table 1), ?_⟩
  rintro ⟨message, w', run, _⟩
  have thrown : outcomeOf (LuaInterpreter.exec vm .main "f()") (.create heap) =
      .error (.exception (.luaException "Expected string at index -1 but was TABLE")) := by
    decide +kernel
  rw [outcomeOf, run] at thrown
  cases thrown

end Luava
