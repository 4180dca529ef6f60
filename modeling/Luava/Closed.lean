import Luava.Progress

/-
What is left of the wrapper after lua_close: a native function works on freed memory, and an
allocation throws.
-/
namespace Luava

open Effects LuaApi

/- The objects whose push takes memory from the arena. -/
def Object.allocates : Object → Bool
  | .string _ | .function _ => true
  | _ => false

structure World.Closed (w : World) : Prop where
  status : w.status = .closed
  arena : w.arenaOpen = false

theorem World.Sound.closed {w : World} (sound : w.Sound) (closed : w.status = .closed) : w.Closed :=
  ⟨closed, sound.mp closed⟩

/- x has no effect, except that it may call a native function with the closed state. -/
def Inert {α : Type} (x : Wrapper α) (w : World) : Prop :=
  Ensures x w (fun _ w' => w' = w)
    (fun f w' => (∃ e, f = .exception e) ∧ w' = w ∨ f = .undefined ∧ w' = w.fail .afterClose)

/- x starts with a native function. -/
def Dead {α : Type} (x : Wrapper α) (w : World) : Prop :=
  x w = .error .undefined (w.fail .afterClose)

/- x starts with an allocation. -/
def Refused {α : Type} (x : Wrapper α) (w : World) : Prop :=
  x w = .error (.exception (.illegalState "Already closed")) w

variable {α β : Type} {w : World}

theorem Dead.bind {x : Wrapper α} (dead : Dead x w) (f : α → Wrapper β) : Dead (x >>= f) w :=
  bind_of_error dead f

theorem Refused.bind {x : Wrapper α} (refused : Refused x w) (f : α → Wrapper β) :
    Refused (x >>= f) w :=
  bind_of_error refused f

theorem Dead.map {x : Wrapper α} (dead : Dead x w) (g : α → β) : Dead (g <$> x) w := by
  rw [Dead, run_map, dead]

theorem Refused.map {x : Wrapper α} (refused : Refused x w) (g : α → β) :
    Refused (g <$> x) w := by
  rw [Refused, run_map, refused]

theorem Dead.inert {x : Wrapper α} (dead : Dead x w) : Inert x w :=
  ensures_of_fault dead (.inr ⟨rfl, rfl⟩)

theorem Refused.inert {x : Wrapper α} (refused : Refused x w) : Inert x w :=
  ensures_of_fault refused (.inl ⟨⟨_, rfl⟩, rfl⟩)

theorem inert_pure (a : α) : Inert (pure a) w := ensures_of_run (run_pure a w) rfl

theorem inert_bind {x : Wrapper α} {f : α → Wrapper β} (first : Inert x w)
    (rest : ∀ a, Inert (f a) w) : Inert (x >>= f) w := by
  refine (ensures_bind _ _ _ _ _).mpr (ensures_mono first ?_ fun _ _ h => h)
  rintro a w' rfl
  exact rest a

section

variable (vm : VM) (closed : w.Closed)

include closed

theorem dead_enter : Dead enter w := enter_closed closed.status

theorem refused_allocate : Refused Arena.allocate w := allocate_closed closed.arena

theorem refused_allocateFrom (s : String) : Refused (Arena.allocateFrom s) w :=
  (refused_allocate closed).bind _

theorem dead_getType (idx : Int) : Dead (LuaStack.getType .main idx) w :=
  ((dead_enter closed).bind _).bind _

theorem dead_toObject (idx : Int) (c : JavaClass) : Dead (LuaStack.toObject vm .main idx c) w :=
  (dead_getType closed idx).bind _

theorem dead_popObject (c : JavaClass) : Dead (LuaStack.popObject vm .main c) w :=
  (dead_toObject vm closed (-1) c).bind _

theorem dead_popString : Dead (LuaStack.popString vm .main) w :=
  (((dead_enter closed).bind _).bind _ : Dead (LuaStack.toString vm .main (-1)) w).bind _

theorem dead_popBoolean : Dead (LuaStack.popBoolean .main) w :=
  ((dead_enter closed).bind _ : Dead (LuaStack.toBoolean .main (-1)) w).bind _

theorem refused_popInteger : Refused (LuaStack.popInteger vm .main) w :=
  ((refused_allocate closed).bind _ : Refused (LuaStack.toInteger vm .main (-1)) w).bind _

theorem refused_popNumber : Refused (LuaStack.popNumber vm .main) w :=
  ((refused_allocate closed).bind _ : Refused (LuaStack.toNumber vm .main (-1)) w).bind _

theorem inert_pop (k : Kind) : Inert (k.pop vm) w := by
  cases k with
  | string => exact ((dead_popString vm closed).map _).inert
  | integer => exact ((refused_popInteger vm closed).map _).inert
  | number => exact ((refused_popNumber vm closed).map _).inert
  | boolean => exact ((dead_popBoolean closed).map _).inert

theorem inert_pushObject (o : Object) : Inert (LuaStack.pushObject .main o) w := by
  cases o with
  | string s => exact ((refused_allocateFrom closed s).bind _).inert
  | function f => exact ((refused_allocate closed).bind _).inert
  | other className text =>
    exact ensures_of_fault (run_throwJava _ w) (.inl ⟨⟨_, rfl⟩, rfl⟩)
  | _ => exact ((dead_enter closed).bind _).inert

theorem inert_pushObjects (os : List Object) : Inert (os.forM (LuaStack.pushObject .main)) w := by
  induction os with
  | nil => exact inert_pure _
  | cons o os ih => exact inert_bind (inert_pushObject closed o) fun _ => ih

theorem inert_getResultValues (types : List JavaClass) :
    Inert (types.mapM (LuaStack.popObject vm .main)) w := by
  cases types with
  | nil => rw [List.mapM_nil]; exact inert_pure _
  | cons type types =>
    rw [List.mapM_cons]
    exact ((dead_popObject vm closed type).bind _).inert

theorem dead_pcall (nargs nresults : Nat) : Dead (LowLevelLua.pcall vm .main nargs nresults) w :=
  ((dead_enter closed).bind _ : Dead (luaPcallk vm .main nargs nresults) w).bind _

theorem refused_setGlobal (name : String) : Refused (LowLevelLua.setGlobal vm .main name) w :=
  (refused_allocateFrom closed name).bind _

theorem refused_getGlobal (name : String) : Refused (LowLevelLua.getGlobal vm .main name) w :=
  (refused_allocateFrom closed name).bind _

/- An operation on a closed state throws, unless it starts with a native function. -/
theorem operation_closed (o : Operation) :
    let step := Step.operation o w.main w.heap w.status w.calls
    step.Orderly ∧ LuaInterpreter.operation vm .main o w =
        .error (.exception (.illegalState "Already closed")) (w.addStep step) ∨
      ¬ step.Orderly ∧ LuaInterpreter.operation vm .main o w =
        .error .undefined ((w.addStep step).fail .afterClose) := by
  intro step
  have closed' : (w.addStep step).Closed := ⟨closed.status, closed.arena⟩
  have allocate (t : String) := refused_allocateFrom closed' t
  have native := dead_enter closed'
  have global (name : String) := refused_getGlobal vm closed' name
  have field (key : String) (type : LuaType) :
      Refused (LuaTable.getField vm ⟨.main, -1⟩ key type) (w.addStep step) :=
    ((allocate key).bind _ : Refused (LuaTable.getFieldType vm ⟨.main, -1⟩ key) _).bind _
  cases o with
  | exec chunk =>
    have load : Refused (LowLevelLua.loadString vm .main chunk) (w.addStep step) :=
      ((allocate chunk).bind _).bind _
    exact .inl ⟨trivial, (load.bind _).map _⟩
  | getGlobalString name => exact .inl ⟨trivial, ((global name).bind _).map _⟩
  | getGlobalInteger name => exact .inl ⟨trivial, ((global name).bind _).map _⟩
  | getGlobalNumber name => exact .inl ⟨trivial, ((global name).bind _).map _⟩
  | getGlobalBoolean name => exact .inl ⟨trivial, ((global name).bind _).map _⟩
  | getGlobalTable name => exact .inl ⟨trivial, ((global name).bind _).map _⟩
  | setGlobalString name value =>
    exact .inl ⟨trivial, ((((allocate value).bind _) :
      Refused (LuaStack.pushString .main value) _).bind _).map _⟩
  | setGlobalInteger name value =>
    exact .inr ⟨fun orderly => orderly closed.status, (((native.bind _ :
      Dead (LuaStack.pushInteger .main value) _).bind _).map _)⟩
  | setGlobalNumber name value =>
    exact .inr ⟨fun orderly => orderly closed.status, (((native.bind _ :
      Dead (LuaStack.pushNumber .main value) _).bind _).map _)⟩
  | setGlobalBoolean name value =>
    exact .inr ⟨fun orderly => orderly closed.status, (((native.bind _ :
      Dead (LuaStack.pushBoolean .main value) _).bind _).map _)⟩
  | setGlobalFunction name method =>
    exact .inl ⟨trivial, ((((refused_allocate closed').bind _) :
      Refused (LuaStack.pushCFunction .main (.method method)) _).bind _).map _⟩
  | call f => exact .inl ⟨trivial, ((global f.name).bind _).map _⟩
  | getString table key =>
    obtain ⟨table, rfl⟩ := table
    exact .inl ⟨trivial, ((field key .string).bind _).map _⟩
  | getInteger table key =>
    obtain ⟨table, rfl⟩ := table
    exact .inl ⟨trivial, ((field key .number).bind _).map _⟩
  | getNumber table key =>
    obtain ⟨table, rfl⟩ := table
    exact .inl ⟨trivial, ((field key .number).bind _).map _⟩
  | getBoolean table key =>
    obtain ⟨table, rfl⟩ := table
    exact .inl ⟨trivial, ((field key .boolean).bind _).map _⟩
  | close =>
    have freed : Dead (luaClose vm) (w.addStep step) := by
      have status : (w.addStep step).status ≠ .opened := by rw [closed'.status]; decide
      rw [Dead, luaClose, bind_of_ok (run_get _), if_pos status]
      rfl
    refine .inr ⟨fun orderly => ?_, ((freed.bind _ : Dead (LowLevelLua.close vm) _).map _)⟩
    have opened : w.status = .opened := orderly.1
    rw [closed.status] at opened
    contradiction

end

end Luava
