import Luava.CallLaws

/-
Typed reads of globals and fields. The value is pushed first and checked afterwards, so a value
that is refused stays on the stack.
-/
namespace Luava

open Effects LuaApi Machine

/-- The values a typed read takes once they are on the stack. -/
def Kind.reads (libc : Libc) : Kind → Value → Bool
  | .string, v => v.isString || v.isNumber
  | .integer, v => (Coercions.tointeger libc v).isSome
  | .number, v => (Coercions.tonumber libc v).isSome
  | .boolean, _ => true

namespace TypedReads

theorem resultOf_ok_iff (libc : Libc) (k : Kind) (v : Value) :
    (∃ a, k.resultOf libc v = .ok a) ↔ k.reads libc v = true := by
  cases k with
  | string => exact (LuaStack.map_ok_iff _ _).trans (LuaStack.stringOf_ok_iff libc (-1) v)
  | integer => exact (LuaStack.map_ok_iff _ _).trans (LuaStack.integerOf_ok_iff libc (-1) v)
  | number => exact (LuaStack.map_ok_iff _ _).trans (LuaStack.numberOf_ok_iff libc (-1) v)
  | boolean => exact iff_of_true ⟨_, rfl⟩ rfl

/- The pop of the value on top of the given slots. -/
theorem pop_restores_iff (vm : VM) (k : Kind) {w w' : World} {v : Value} {below : List Value}
    {r : Record} {x : Wrapper OperationResult} (opened : w'.Alive)
    (height : below.length = w.main.slots.length)
    (run : x w = k.pop vm (w'.withMain (v :: below) r)) :
    Restores x w ↔ k.reads vm.libc v = true ∧ below = w.main.slots := by
  obtain ⟨r', popped, _⟩ := k.run_pop vm (P := fun _ => True)
    ((w'.withMain_alive (v :: below) r).mpr opened) rfl ⟨trivial, trivial⟩
  rw [restores_iff_settle (run.trans popped), World.withMain_withMain, World.withMain_slots,
    ← resultOf_ok_iff]
  cases k.resultOf vm.libc v with
  | ok a => simp [LuaStack.remaining]
  | error e =>
    refine iff_of_false ?_ (by rintro ⟨⟨a, ok⟩, _⟩; cases ok)
    intro same
    have length := congrArg List.length same
    rw [LuaStack.remaining, List.length_cons, height] at length
    omega

end TypedReads

open TypedReads

theorem getGlobal_restores_iff (vm : VM) (k : Kind) {name : String} {w : World} {v : Value}
    {below : List Value} (gives : Gives vm (.table w.heap.globals) name w v below) :
    Restores (LuaInterpreter.operation vm .main (k.getGlobal name)) w ↔
      k.reads vm.libc v = true ∧ below = w.main.slots := by
  let step := Step.operation (k.getGlobal name) w.main w.heap w.status w.calls
  obtain ⟨w', r, read, opened⟩ := Gives.run_getGlobal (w := w.addStep step) (gives.addStep step)
  refine pop_restores_iff vm k (r := r) opened gives.height ?_
  rw [Kind.operation_getGlobal, bind_of_ok (run_modify _ w)]
  exact bind_of_ok read _

theorem getField_restores_iff (vm : VM) (k : Kind) (table : Handle) {key : String} {w : World}
    {t v : Value} {rest below : List Value} (top : w.main.slots = t :: rest)
    (gives : Gives vm t key w v below) :
    Restores (LuaInterpreter.operation vm .main (k.getField table key)) w ↔
      LuaType.ofValue v = k.fieldType ∧ k.reads vm.libc v = true ∧ below = w.main.slots := by
  let step := Step.operation (k.getField table key) w.main w.heap w.status w.calls
  obtain ⟨w', r, read, opened⟩ := Gives.run_getFieldType (w := w.addStep step) top
    (gives.addStep step)
  have start : LuaInterpreter.operation vm .main (k.getField table key) w =
      (LuaTable.getField vm ⟨.main, -1⟩ key k.fieldType >>= fun _ => k.pop vm)
        (w.addStep step) := by
    rw [Kind.operation_getField, bind_of_ok (run_modify _ w)]
  by_cases type : LuaType.ofValue v = k.fieldType
  · rw [and_iff_right type]
    refine pop_restores_iff vm k (r := r) opened gives.height (start.trans ?_)
    rw [LuaTable.getField, bind_assoc, bind_of_ok read, if_neg (not_not.mpr type)]
    rfl
  · have thrown : LuaInterpreter.operation vm .main (k.getField table key) w =
        (w'.withMain (v :: below) r).settle (.error (.luaException ("Expected field '" ++ key ++
          "' of type " ++ k.fieldType.name ++ " but was " ++ (LuaType.ofValue v).name))) := by
      rw [start, LuaTable.getField, bind_assoc, bind_of_ok read, if_pos type]
      rfl
    rw [restores_iff_settle thrown]
    refine iff_of_false ?_ fun all => type all.1
    intro same
    have length := congrArg List.length same
    rw [World.withMain_slots, List.length_cons, gives.height] at length
    omega

/-- A read that returns keeps its table on the stack, as it should; one that throws keeps the
   value it refused. -/
inductive ThrowsCleanly {α : Type} (x : Wrapper α) (w : World) : Prop
  | returned (a : α) (w' : World) (run : x w = .ok a w')
  | thrown (e : JavaException) (w' : World) (run : x w = .error (.exception e) w')
      (stack : w'.main.slots = w.main.slots)

theorem getGlobalTable_throws_cleanly_iff (vm : VM) {name : String} {w : World} {v : Value}
    {below : List Value} (gives : Gives vm (.table w.heap.globals) name w v below) :
    ThrowsCleanly (LuaInterpreter.operation vm .main (.getGlobalTable name)) w ↔
      LuaType.ofValue v = .table := by
  let step := Step.operation (.getGlobalTable name) w.main w.heap w.status w.calls
  obtain ⟨w', r, read, opened⟩ := Gives.run_getGlobal (w := w.addStep step) (gives.addStep step)
  obtain ⟨r', checked, _⟩ := LowLevelLua.run_table (P := fun _ => True) (v := v)
    ((w'.withMain_alive (v :: below) r).mpr opened) rfl trivial
  have start : LuaInterpreter.operation vm .main (.getGlobalTable name) w =
      (OperationResult.table <$> LuaInterpreter.getGlobalTable vm .main name)
        (w.addStep step) := rfl
  have run : LuaInterpreter.getGlobalTable vm .main name (w.addStep step) = _ :=
    (bind_of_ok read fun _ => LowLevelLua.table .main (-1)).trans checked
  rw [LowLevelLua.tableOf] at run
  by_cases type : LuaType.ofValue v = .table
  · rw [if_pos type] at run
    exact iff_of_true (.returned _ _ (start.trans (map_of_ok run _))) type
  · rw [if_neg type] at run
    have thrown := start.trans (by rw [run_map, run])
    refine iff_of_false ?_ type
    rintro (⟨_, _, ends⟩ | ⟨_, _, ends, stack⟩)
    · cases thrown.symm.trans ends
    · cases thrown.symm.trans ends
      have length := congrArg List.length stack
      simp only [World.withMain_slots, List.length_cons, gives.height] at length
      omega

/-- A typed read leaves nothing behind exactly when the value is of a type it takes and the code
behind the access has left the slots below alone. -/
theorem typed_reads_restore_iff (vm : VM) (w : World) (v : Value) (below : List Value) :
    (∀ (k : Kind) name, Gives vm (.table w.heap.globals) name w v below →
      (Restores (LuaInterpreter.operation vm .main (k.getGlobal name)) w ↔
        k.reads vm.libc v = true ∧ below = w.main.slots)) ∧
    (∀ name, Gives vm (.table w.heap.globals) name w v below →
      (ThrowsCleanly (LuaInterpreter.operation vm .main (.getGlobalTable name)) w ↔
        LuaType.ofValue v = .table)) ∧
    ∀ (k : Kind) table key t rest, w.main.slots = t :: rest → Gives vm t key w v below →
      (Restores (LuaInterpreter.operation vm .main (k.getField table key)) w ↔
        LuaType.ofValue v = k.fieldType ∧ k.reads vm.libc v = true ∧ below = w.main.slots) :=
  ⟨fun k _ gives => getGlobal_restores_iff vm k gives,
    fun _ gives => getGlobalTable_throws_cleanly_iff vm gives,
    fun k table _ _ _ top gives => getField_restores_iff vm k table top gives⟩

namespace TypedReads

/- The globals x = 1 and t, a table with the field y = 1. -/
def heap : Heap :=
  ((Heap.blank.rawset 0 (keyOf "x") (.integer 1)).rawset 0 (keyOf "t") (.table 1)).rawset 1
    (keyOf "y") (.integer 1)

/- A state in which the table is on top. -/
def opened : World := (World.create heap).withMain [.table 1, .nil] ⟨1, [], []⟩

end TypedReads

open TypedReads

theorem fitting_reads_restore :
    Restores (LuaInterpreter.operation (vmAt .blank 0) .main (.getGlobalInteger "x")) opened ∧
    ThrowsCleanly (LuaInterpreter.operation (vmAt .blank 0) .main (.getGlobalTable "t")) opened ∧
    Restores (LuaInterpreter.operation (vmAt .blank 0) .main
      (.getInteger ⟨⟨.main, -1⟩, rfl⟩ "y")) opened := by
  have alive : opened.Alive := ⟨by decide, rfl⟩
  refine ⟨?_, ?_, ?_⟩
  · exact ((typed_reads_restore_iff (vmAt .blank 0) opened (.integer 1) _).1 .integer "x"
      (.of_stored alive (by decide))).mpr ⟨rfl, rfl⟩
  · exact ((typed_reads_restore_iff (vmAt .blank 0) opened (.table 1) _).2.1 "t"
      (.of_stored alive (by decide))).mpr rfl
  · exact ((typed_reads_restore_iff (vmAt .blank 0) opened (.integer 1) _).2.2 .integer
      ⟨⟨.main, -1⟩, rfl⟩ "y" (.table 1) [.nil] rfl (.of_stored alive (by decide))).mpr
      ⟨rfl, rfl, rfl⟩

/-- An undefined global, read as a String, leaves nil behind. -/
theorem refused_read_leaves_value :
    ¬ Restores (LuaInterpreter.operation (vmAt .blank 0) .main (.getGlobalString "absent"))
      opened := by
  intro restores
  have left : (endOf (LuaInterpreter.operation (vmAt .blank 0) .main (.getGlobalString "absent"))
      opened).main.slots = [.nil, .table 1, .nil] := by decide +kernel
  exact absurd (left.symm.trans restores.stack) (by decide)

end Luava
