import Luava.Runs
import Luava.Lookups

/-
Table handles. A handle addresses the top of the stack, so it denotes the table it was created
for only while that table is there.
-/
namespace Luava

open Effects LuaApi Machine

namespace Kind

/- A field of the expected type, as that type. -/
def read : Kind → Value → Option OperationResult
  | string, .string bytes => some (.string (String.ofList (Utf8.decode bytes)))
  | integer, .integer i => some (.integer i)
  | integer, .float n => n.flttointeger.map .integer
  | number, .integer i => some (.number (Binary64.ofInt i.toInt))
  | number, .float n => some (.number n)
  | boolean, .boolean b => some (.boolean b)
  | _, _ => none

/- A string field whose last byte is a zero, which the pop takes for a terminator. -/
def EndsInZero (k : Kind) (v : Value) : Prop :=
  k = .string ∧ ∃ bytes, v = .string bytes ∧ bytes.getLast? = some 0

theorem read_of_other_type (k : Kind) {v : Value} (other : LuaType.ofValue v ≠ k.fieldType) :
    k.read v = none := by
  cases k <;> cases v <;> first | rfl | exact absurd rfl other

/- The pop of a field whose type was checked. -/
theorem result_of_type (libc : Libc) (k : Kind) {v : Value}
    (type : LuaType.ofValue v = k.fieldType) (kept : ¬ k.EndsInZero v) :
    match k.read v with
    | some a => k.resultOf libc v = .ok a
    | none => ∃ e, k.resultOf libc v = .error e ∧ e.isLuaException = true := by
  cases k with
  | string =>
    cases v with
    | string bytes =>
      have last : bytes.getLast? ≠ some 0 := fun zero => kept ⟨rfl, bytes, rfl, zero⟩
      have whole : LuaStack.stripZero bytes = bytes := if_neg last
      change Except.map OperationResult.string (.ok (String.ofList (Utf8.decode
        (LuaStack.stripZero bytes)))) = _
      rw [whole]
      rfl
    | _ => cases type
  | number =>
    cases v with
    | integer i => rfl
    | float n => rfl
    | _ => cases type
  | boolean =>
    cases v with
    | boolean b => cases b <;> rfl
    | _ => cases type
  | integer =>
    cases v with
    | integer i => rfl
    | float n =>
      cases integral : n.flttointeger <;>
        simp [read, resultOf, LuaStack.integerOf, Coercions.tointeger, Coercions.tointegerns,
          integral, Functor.map, Except.map, JavaException.isLuaException]
    | _ => cases type

end Kind

/- The field a read through a handle is after: all of key is looked up in the table id. -/
def fieldOf (vm : VM) (id : TableId) (table : Handle) (k : Kind) (key : String) (w : World) :
    EStateM.Result Fault World Value :=
  let step := Step.operation (k.getField table key) w.main w.heap w.status w.calls
  let start := (w.addStep step).check (1 < w.main.top - w.main.func) .invalidIndex
  lookup vm (.table id) (wholeKey key) (start.pushed (wholeKey key))

theorem fieldOf_value (vm : VM) {id : TableId} {k : Kind} {key : String} {w : World} {v : Value}
    (table : Handle) (found : w.heap.access (.table id) (wholeKey key) = .value v) :
    ∃ after, fieldOf vm id table k key w = .ok v after := by
  obtain ⟨r, checked, _⟩ := (w.addStep (.operation (k.getField table key) w.main w.heap w.status
    w.calls)).check_main (1 < w.main.top - w.main.func) .invalidIndex (fun _ => True) (.inr trivial)
  refine ⟨_, lookup_value vm ?_⟩
  rw [World.pushed_heap, checked]
  exact found

/-- In w a handle denotes the table id for a read of key as k: the read looks the whole key up
   there, returns the field if it has the type, and throws a LuaException if it does not. A
   handler that ends otherwise ends the read. -/
structure Denotes (vm : VM) (id : TableId) (w : World) (k : Kind) (key : String) : Prop where
  reads : ∀ table : Handle,
    match fieldOf vm id table k key w with
    | .error f _ => ∃ w', LuaInterpreter.operation vm .main (k.getField table key) w = .error f w'
    | .ok v after => after.Alive →
      match k.read v with
      | some a => ∃ w', LuaInterpreter.operation vm .main (k.getField table key) w = .ok a w'
      | none => ∃ e w', LuaInterpreter.operation vm .main (k.getField table key) w =
          .error (.exception e) w' ∧ e.isLuaException = true

/-- Nothing of the read is cut off: the key has no NUL, and the field is no string that ends in a
   zero byte. -/
structure Uncut (vm : VM) (id : TableId) (w : World) (k : Kind) (key : String) : Prop where
  whole : '\x00' ∉ key.toList
  field : ∀ table v after, fieldOf vm id table k key w = .ok v after → ¬ k.EndsInZero v

/- The type check of a field on top, and its pop. -/
theorem checked_pop (vm : VM) (k : Kind) (key : String) {v : Value} {below : List Value} {w : World}
    (alive : w.Alive) (top : w.main.slots = v :: below) (kept : ¬ k.EndsInZero v) :
    let type := LuaType.ofValue v
    let check : Wrapper Unit :=
      if type ≠ k.fieldType then throwJava (.luaException ("Expected field '" ++ key ++
        "' of type " ++ k.fieldType.name ++ " but was " ++ type.name))
      else pure ()
    match k.read v with
    | some a => ∃ w', (check >>= fun _ => k.pop vm) w = .ok a w'
    | none => ∃ e w', (check >>= fun _ => k.pop vm) w = .error (.exception e) w' ∧
        e.isLuaException = true := by
  intro type check
  by_cases same : type = k.fieldType
  · have passed : check w = .ok ⟨⟩ w := by
      simp only [check]
      rw [if_neg (not_not.mpr same)]
      rfl
    obtain ⟨r, popped, _⟩ := k.run_pop vm alive top (P := fun _ => True) ⟨trivial, trivial⟩
    have result := k.result_of_type vm.libc same kept
    rw [bind_of_ok passed, popped]
    cases read : k.read v with
    | some a =>
      simp only [read] at result
      rw [result]
      exact ⟨_, rfl⟩
    | none =>
      simp only [read] at result
      obtain ⟨e, refused, kind⟩ := result
      rw [refused]
      exact ⟨e, _, rfl, kind⟩
  · have refused : check w = w.settle (.error (.luaException ("Expected field '" ++ key ++
        "' of type " ++ k.fieldType.name ++ " but was " ++ type.name))) := by
      simp only [check]
      rw [if_pos same]
      rfl
    rw [k.read_of_other_type same]
    exact ⟨_, w, bind_of_error refused _, rfl⟩

theorem denotes_top (vm : VM) {id : TableId} {w : World} (alive : w.Alive)
    (top : w.main.slots.head? = some (.table id)) {k : Kind} {key : String}
    (uncut : Uncut vm id w k key) : Denotes vm id w k key := by
  obtain ⟨below, slots⟩ : ∃ below, w.main.slots = .table id :: below := by
    cases h : w.main.slots <;> simp_all
  refine ⟨fun table => ?_⟩
  let step := Step.operation (k.getField table key) w.main w.heap w.status w.calls
  have found := getFieldType_looks_up vm key (w := w.addStep step) ⟨alive.status, alive.arena⟩ slots
  rw [keyOf_eq_whole uncut.whole] at found
  have entered : (modify fun w => w.addStep (.operation (k.getField table key) w.main w.heap
      w.status w.calls) : Wrapper Unit) w = .ok ⟨⟩ (w.addStep step) := rfl
  rw [Kind.operation_getField, bind_of_ok entered, LuaTable.getField, bind_assoc]
  unfold LooksUp Ensures at found
  cases read : LuaTable.getFieldType vm ⟨.main, -1⟩ key (w.addStep step) with
  | error f w' =>
    simp only [read] at found
    obtain ⟨after, looked⟩ := found
    have looked : fieldOf vm id table k key w = .error f after := looked
    simp only [looked]
    exact ⟨w', bind_of_error read _⟩
  | ok type w' =>
    simp only [read] at found
    obtain ⟨v, after, r, looked, rfl, rfl⟩ := found
    have looked : fieldOf vm id table k key w = .ok v after := looked
    simp only [looked]
    intro alive'
    rw [bind_of_ok read]
    exact checked_pop vm k key ((after.answered_alive v r).mpr alive') rfl
      (uncut.field table v after looked)

theorem table_of_top {t : LuaTable} {v : Value} {below : List Value} {w w₁ : World}
    (alive : w.Alive) (top : w.main.slots = v :: below)
    (run : LowLevelLua.table .main (-1) w = .ok t w₁) :
    ∃ id, v = .table id ∧ w₁.main.slots = .table id :: below := by
  obtain ⟨r, read, _⟩ := LowLevelLua.run_table alive top (P := fun _ => True) trivial
  rw [read, LowLevelLua.tableOf] at run
  by_cases type : LuaType.ofValue v = .table
  · rw [if_pos type] at run
    cases run
    cases v with
    | table id => exact ⟨id, rfl, top⟩
    | _ => cases type
  · rw [if_neg type] at run
    cases run

/- getGlobalTable returns with the table it found on top. -/
theorem created_table {vm : VM} {insertkey : Heap → TableId → Value → Bool}
    (lawful : vm.Lawful insertkey) {name : String} {t : LuaTable} {w w₁ : World} (sound : w.Sound)
    (created : LuaInterpreter.operation vm .main (.getGlobalTable name) w = .ok (.table t) w₁) :
    let step := Step.operation (.getGlobalTable name) w.main w.heap w.status w.calls
    ∃ id w', lookup vm (.table w.heap.globals) (keyOf name) ((w.addStep step).pushed (keyOf name)) =
        .ok (.table id) w' ∧ w₁.main.slots.head? = some (.table id) := by
  intro step
  have opened : w.status ≠ .closed := by
    intro closed
    rcases operation_closed vm (sound.closed closed) (.getGlobalTable name) with ⟨_, run⟩ |
        ⟨_, run⟩ <;>
      rw [run] at created <;> cases created
  have alive : (w.addStep step).Alive := ⟨opened, (sound.alive opened).arena⟩
  have found := getGlobal_looks_up vm name alive
  have read : LuaInterpreter.getGlobalTable vm .main name (w.addStep step) = .ok t w₁ := by
    have run : (OperationResult.table <$> LuaInterpreter.getGlobalTable vm .main name)
        (w.addStep step) = .ok (.table t) w₁ := created
    rw [run_map] at run
    split at run <;> cases run
    assumption
  unfold LooksUp Ensures at found
  rw [LuaInterpreter.getGlobalTable, run_bind] at read
  cases global : LowLevelLua.getGlobal vm .main name (w.addStep step) with
  | error f w' => simp [global] at read
  | ok u w' =>
    simp only [global] at read found
    obtain ⟨v, after, r, looked, _, rfl⟩ := found
    have kept : after.Sound :=
      lookup_sound lawful ((w.addStep step).pushed_sound (keyOf name) sound) looked
    have sound' : (after.answered v r).Sound := kept
    by_cases closed : (after.answered v r).status = .closed
    · rw [LowLevelLua.table, LowLevelLua.assertType, bind_assoc,
        (dead_getType (sound'.closed closed) (-1)).bind] at read
      cases read
    · obtain ⟨id, rfl, top⟩ := table_of_top (sound'.alive closed) (after.answered_slots v r) read
      exact ⟨id, after, looked, by rw [top]; rfl⟩

/-- The handle's stack is as high as it was: what later operations pushed has been popped. -/
structure Levelled (program : Program) (depth : Nat) (w₁ w₂ : World) : Prop where
  run : ∃ java o, runJava (vmAt program depth) java w₁ = .ok o w₂
  bounded : w₂.AllBounded
  height : w₂.main.top = w₁.main.top

theorem Levelled.keeps_top {program : Program} {depth : Nat} {id : TableId} {w₁ w₂ : World}
    (levelled : Levelled program depth w₁ w₂) (sound : w₁.Sound)
    (top : w₁.main.slots.head? = some (.table id)) : w₂.main.slots.head? = some (.table id) := by
  obtain ⟨⟨java, o, run⟩, bounded, height⟩ := levelled
  obtain ⟨n, stage⟩ := ensures_of_ok (run_progress program depth java sound) run
  have kept := stage.slots bounded
  have same := kept.length_eq
  simp only [LuaState.top] at height
  obtain rfl : n = 0 := by omega
  have retyped : Retyped w₁.main.slots w₂.main.slots := kept.2
  cases slots : w₁.main.slots with
  | nil => simp [slots] at top
  | cons v below =>
    obtain rfl : v = .table id := by simpa [slots] using top
    rw [slots] at retyped
    generalize w₂.main.slots = slots₂ at retyped
    cases retyped with
    | cons head tail => rw [rewritten_eq head rfl]; rfl

namespace TableHandles

/- Two tables with a field x each, and a text in the first. -/
def heap : Heap :=
  ((((Heap.blank.rawset 0 (keyOf "a") (.table 1)).rawset 0 (keyOf "b") (.table 2)).rawset
    1 (keyOf "x") (.integer 1)).rawset 2 (keyOf "x") (.integer 2)).rawset
      1 (keyOf "s") (.string [104, 105])

/- The world with a handle for the first of them. -/
def created : World :=
  endOf (LuaInterpreter.operation (vmAt .blank 1) .main (.getGlobalTable "a")) (.create heap)

/- A read through the handle, and other uses of globals. -/
def uses : JavaCode :=
  .sequence [.getInteger ⟨⟨.main, -1⟩, rfl⟩ "x", .setGlobalInteger "y" 3, .getGlobalInteger "y"]

def used : World := endOf (runJava (vmAt .blank 1) uses) created

def readThrough (key : String) : Except JavaException OperationResult → JavaCode
  | .ok (.table t) =>
    if valid : t = ⟨.main, -1⟩ then
      .op (.getInteger ⟨t, valid⟩ key) fun
        | .ok (.integer i) => .ret (.long i)
        | _ => .ret .null
    else .ret .null
  | _ => .ret .null

end TableHandles

open TableHandles

end Luava
