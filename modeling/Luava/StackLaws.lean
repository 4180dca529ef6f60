import Luava.Changes

/-
What the functions of LuaStack do on the main thread: one law for each, with the value it
returns or the exception it throws as a function of the slot it reads.
-/
namespace Luava

open Effects LuaApi

/- The end of a computation in w, by a value or by an exception. -/
def World.settle {α : Type} (w : World) : Except JavaException α → EStateM.Result Fault World α
  | .ok a => .ok a w
  | .error e => .error (.exception e) w

theorem run_throwJava {α : Type} (e : JavaException) (w : World) :
    (throwJava e : Wrapper α) w = w.settle (.error e) := rfl

theorem allocate_open {w : World} (arena : w.arenaOpen = true) :
    Arena.allocate w = .ok ⟨⟩ w := by
  simp [Arena.allocate, run_bind, run_get, arena, run_pure]

theorem allocate_closed {w : World} (arena : w.arenaOpen = false) :
    Arena.allocate w = .error (.exception (.illegalState "Already closed")) w := by
  simp [Arena.allocate, run_bind, run_get, arena, throwJava, run_throw]

theorem run_allocate {w : World} (alive : w.Alive) : Arena.allocate w = .ok ⟨⟩ w :=
  allocate_open alive.arena

theorem run_arenaClose {w : World} (arena : w.arenaOpen = true) :
    Arena.close w = .ok ⟨⟩ { w with arenaOpen := false } := by
  simp [Arena.close, Arena.allocate, run_bind, run_get, arena, run_pure, run_modify]

theorem arenaClose_closed {w : World} (arena : w.arenaOpen = false) :
    Arena.close w = w.settle (.error (.illegalState "Already closed")) := by
  simp [Arena.close, Arena.allocate, run_bind, run_get, arena, throwJava, run_throw,
    World.settle]

namespace LuaApi

section Reads

variable (vm : VM) {w : World} {P : Violation → Prop} {idx : Int} {p : Nat} {v : Value}
  (alive : w.Alive) (located : Locates P w.main idx p) (slot : w.main.slots[p]? = some v)

include alive located slot

theorem run_luaType :
    ∃ r, luaType .main idx w = .ok (LuaType.ofValue v).type (w.withMain w.main.slots r) ∧
      w.record.Gains P r := by
  obtain ⟨r, found, gains⟩ := run_index2value located slot
  exact ⟨r, by rw [luaType, bind_of_ok (run_enter alive), bind_of_ok found]; rfl, gains⟩

theorem run_luaIsstring :
    ∃ r, luaIsstring .main idx w = .ok (v.isString || v.isNumber) (w.withMain w.main.slots r) ∧
      w.record.Gains P r := by
  obtain ⟨r, found, gains⟩ := run_index2value located slot
  exact ⟨r, by rw [luaIsstring, bind_of_ok (run_enter alive), bind_of_ok found]; rfl, gains⟩

theorem run_luaToboolean :
    ∃ r, luaToboolean .main idx w = .ok (!v.isFalse) (w.withMain w.main.slots r) ∧
      w.record.Gains P r := by
  obtain ⟨r, found, gains⟩ := run_index2value located slot
  exact ⟨r, by rw [luaToboolean, bind_of_ok (run_enter alive), bind_of_ok found]; rfl, gains⟩

theorem run_luaTonumberx :
    ∃ r, luaTonumberx vm .main idx w = .ok (Coercions.tonumber vm.libc v)
        (w.withMain w.main.slots r) ∧ w.record.Gains P r := by
  obtain ⟨r, found, gains⟩ := run_index2value located slot
  exact ⟨r, by rw [luaTonumberx, bind_of_ok (run_enter alive), bind_of_ok found]; rfl, gains⟩

theorem run_luaTointegerx :
    ∃ r, luaTointegerx vm .main idx w = .ok (Coercions.tointeger vm.libc v)
        (w.withMain w.main.slots r) ∧ w.record.Gains P r := by
  obtain ⟨r, found, gains⟩ := run_index2value located slot
  exact ⟨r, by rw [luaTointegerx, bind_of_ok (run_enter alive), bind_of_ok found]; rfl, gains⟩

end Reads

/- What lua_tolstring leaves in the slot of v. -/
def textOf (libc : Libc) (v : Value) : Value :=
  if v.isNumber then .string (Coercions.tostringbuff libc v) else v

/- The bytes of a string or number. -/
def bytesOf (libc : Libc) : Value → List UInt8
  | .string bytes => bytes
  | v => Coercions.tostringbuff libc v

theorem textOf_string (libc : Libc) (bytes : List UInt8) :
    textOf libc (.string bytes) = .string bytes := rfl

theorem run_luaTolstring (vm : VM) {w : World} {P : Violation → Prop} {idx : Int} {p : Nat}
    {v : Value} (alive : w.Alive) (located : Locates P w.main idx p)
    (slot : w.main.slots[p]? = some v)
    (string : (v.isString || v.isNumber) = true) :
    ∃ r, luaTolstring vm .main idx w = .ok (some (bytesOf vm.libc v))
        (w.withMain (w.main.slots.set p (textOf vm.libc v)) r) ∧ w.record.Gains P r := by
  obtain ⟨inside, there⟩ := List.getElem?_eq_some_iff.mp slot
  obtain ⟨r, found, gains⟩ := run_index2stack located
  cases number : v.isNumber with
  | false =>
    obtain ⟨bytes, rfl⟩ : ∃ bytes, v = .string bytes := by
      cases v <;> simp_all [Value.isString, Value.isNumber]
    have same : w.main.slots.set p (.string bytes) = w.main.slots :=
      there ▸ List.set_getElem_self inside
    refine ⟨r, ?_, gains⟩
    rw [luaTolstring, bind_of_ok (run_enter alive), bind_of_ok found]
    simp only [bind_of_ok run_getThread, World.withMain_slots, slot, textOf_string, same]
    rfl
  | true =>
    obtain ⟨r', stored, gains'⟩ := run_setThread (w := w.withMain w.main.slots r) (P := P)
      (w.main.slots.set p (.string (Coercions.tostringbuff vm.libc v)))
    refine ⟨r', ?_, gains.trans gains'⟩
    rw [luaTolstring, bind_of_ok (run_enter alive), bind_of_ok found]
    simp only [bind_of_ok run_getThread, World.withMain_slots, slot]
    cases v with
    | integer i => exact bind_of_ok stored _
    | float n => exact bind_of_ok stored _
    | _ => simp [Value.isNumber] at number

end LuaApi

namespace LuaStack

/- The conversions of a slot's value, with the messages of the refused ones. -/
def stringOf (libc : Libc) (idx : Int) (v : Value) : Except JavaException String :=
  if v.isString || v.isNumber then .ok (String.ofList (Utf8.decode (stripZero (bytesOf libc v))))
  else .error (.luaException ("Expected string at index " ++ ToString.toString idx ++
    " but was " ++ (LuaType.ofValue v).name))

def numberOf (libc : Libc) (idx : Int) (v : Value) : Except JavaException Binary64 :=
  match Coercions.tonumber libc v with
  | some n => .ok n
  | none => .error (.luaException ("No number at index " ++ ToString.toString idx ++
      " but is " ++ (LuaType.ofValue v).name))

def integerOf (libc : Libc) (idx : Int) (v : Value) : Except JavaException Int64 :=
  match Coercions.tointeger libc v with
  | some i => .ok i
  | none => .error (.luaException ("No integer at index " ++ ToString.toString idx ++
      " but is " ++ (LuaType.ofValue v).name))

/- The Java object for a value where the given class is expected. -/
def objectOf (libc : Libc) (idx : Int) (expectedType : JavaClass) (v : Value) :
    Except JavaException Object :=
  if v = .nil then .ok .null
  else if expectedType = .boolean then .ok (.boolean (!v.isFalse))
  else if expectedType = .long ∨ expectedType = .primitive .long then
    .long <$> integerOf libc idx v
  else if expectedType = .double then .double <$> numberOf libc idx v
  else if expectedType = .string then .string <$> stringOf libc idx v
  else .error (.unsupportedOperation
    ("Unsupported Lua type " ++ expectedType.text ++ " / " ++ (LuaType.ofValue v).name))

/- What the conversion leaves in the slot: a read as a string turns a number into its text. -/
def slotAfter (libc : Libc) (expectedType : JavaClass) (v : Value) : Value :=
  if expectedType = .string then textOf libc v else v

/-- The values for which an object of the given class can be read. -/
def accepts (libc : Libc) (expectedType : JavaClass) (v : Value) : Bool :=
  v.isNil || match expectedType with
    | .boolean => true
    | .long | .primitive .long => (Coercions.tointeger libc v).isSome
    | .double => (Coercions.tonumber libc v).isSome
    | .string => v.isString || v.isNumber
    | _ => false

theorem integerOf_ok_iff (libc : Libc) (idx : Int) (v : Value) :
    (∃ i, integerOf libc idx v = .ok i) ↔ (Coercions.tointeger libc v).isSome := by
  unfold integerOf
  cases Coercions.tointeger libc v <;> simp

theorem numberOf_ok_iff (libc : Libc) (idx : Int) (v : Value) :
    (∃ n, numberOf libc idx v = .ok n) ↔ (Coercions.tonumber libc v).isSome := by
  unfold numberOf
  cases Coercions.tonumber libc v <;> simp

theorem stringOf_ok_iff (libc : Libc) (idx : Int) (v : Value) :
    (∃ s, stringOf libc idx v = .ok s) ↔ (v.isString || v.isNumber) = true := by
  unfold stringOf
  cases v.isString || v.isNumber <;> simp

theorem map_ok_iff {α β : Type} (g : α → β) (x : Except JavaException α) :
    (∃ b, g <$> x = .ok b) ↔ ∃ a, x = .ok a := by
  cases x <;> simp [Functor.map, Except.map]

theorem objectOf_ok_iff (libc : Libc) (idx : Int) (c : JavaClass) (v : Value) :
    (∃ o, objectOf libc idx c v = .ok o) ↔ accepts libc c v = true := by
  by_cases nil : v = .nil
  · simp [objectOf, accepts, nil, Value.isNil]
  have present : v.isNil = false := by cases v <;> simp_all [Value.isNil]
  cases c with
  | boolean => simp [objectOf, accepts, nil]
  | long =>
    simpa [objectOf, accepts, nil, present] using
      (map_ok_iff Object.long _).trans (integerOf_ok_iff libc idx v)
  | double =>
    simpa [objectOf, accepts, nil, present] using
      (map_ok_iff Object.double _).trans (numberOf_ok_iff libc idx v)
  | string =>
    simpa [objectOf, accepts, nil, present] using
      (map_ok_iff Object.string _).trans (stringOf_ok_iff libc idx v)
  | primitive p =>
    cases p with
    | long =>
      simpa [objectOf, accepts, nil, present] using
        (map_ok_iff Object.long _).trans (integerOf_ok_iff libc idx v)
    | _ => simp [objectOf, accepts, nil, present]
  | _ => simp [objectOf, accepts, nil, present]

theorem of_value_nil (v : Value) : LuaType.ofValue v = .nil ↔ v = .nil := by
  cases v <;> simp [LuaType.ofValue]

section Reads

variable (vm : VM) {w : World} {P : Violation → Prop} {idx : Int} {p : Nat} {v : Value}
  (alive : w.Alive) (located : Locates P w.main idx p) (slot : w.main.slots[p]? = some v)

include alive located slot

theorem run_getType :
    ∃ r, getType .main idx w = .ok (LuaType.ofValue v) (w.withMain w.main.slots r) ∧
      w.record.Gains P r := by
  obtain ⟨r, found, gains⟩ := run_luaType alive located slot
  exact ⟨r, by rw [getType, bind_of_ok found, LuaType.for_code_type]; rfl, gains⟩

theorem run_toString :
    ∃ r, toString vm .main idx w =
        (w.withMain (w.main.slots.set p (textOf vm.libc v)) r).settle (stringOf vm.libc idx v) ∧
      w.record.Gains P r := by
  obtain ⟨r, found, gains⟩ := run_luaIsstring alive located slot
  have alive' : (w.withMain w.main.slots r).Alive := (w.withMain_alive _ r).mpr alive
  obtain ⟨inside, there⟩ := List.getElem?_eq_some_iff.mp slot
  rw [← isString] at found
  cases string : v.isString || v.isNumber with
  | true =>
    obtain ⟨r', read, gains'⟩ := run_luaTolstring vm alive' located slot string
    refine ⟨r', ?_, gains.trans gains'⟩
    rw [toString, bind_of_ok found]
    simp only [string, Bool.not_true, Bool.false_eq_true, ↓reduceIte, stringOf,
      bind_of_ok (run_allocate alive'), bind_of_ok read]
    rfl
  | false =>
    obtain ⟨r', type, gains'⟩ := run_getType alive' located slot
    have same : w.main.slots.set p (textOf vm.libc v) = w.main.slots := by
      have number : v.isNumber = false := by simp_all
      rw [textOf, number, if_neg (by simp), ← there, List.set_getElem_self]
    refine ⟨r', ?_, gains.trans gains'⟩
    rw [toString, bind_of_ok found]
    simp only [string, Bool.not_false, ↓reduceIte, stringOf, same]
    rw [bind_of_ok type]
    rfl

theorem run_toNumber :
    ∃ r, toNumber vm .main idx w =
        (w.withMain w.main.slots r).settle (numberOf vm.libc idx v) ∧ w.record.Gains P r := by
  obtain ⟨r, found, gains⟩ := run_luaTonumberx vm alive located slot
  have alive' : (w.withMain w.main.slots r).Alive := (w.withMain_alive _ r).mpr alive
  cases number : Coercions.tonumber vm.libc v with
  | some n =>
    refine ⟨r, ?_, gains⟩
    rw [toNumber, bind_of_ok (run_allocate alive), bind_of_ok found, numberOf, number]
    rfl
  | none =>
    obtain ⟨r', type, gains'⟩ := run_getType alive' located slot
    refine ⟨r', ?_, gains.trans gains'⟩
    rw [toNumber, bind_of_ok (run_allocate alive), bind_of_ok found, numberOf, number]
    exact bind_of_ok type _

theorem run_toInteger :
    ∃ r, toInteger vm .main idx w =
        (w.withMain w.main.slots r).settle (integerOf vm.libc idx v) ∧ w.record.Gains P r := by
  obtain ⟨r, found, gains⟩ := run_luaTointegerx vm alive located slot
  have alive' : (w.withMain w.main.slots r).Alive := (w.withMain_alive _ r).mpr alive
  cases integer : Coercions.tointeger vm.libc v with
  | some n =>
    refine ⟨r, ?_, gains⟩
    rw [toInteger, bind_of_ok (run_allocate alive), bind_of_ok found, integerOf, integer]
    rfl
  | none =>
    obtain ⟨r', type, gains'⟩ := run_getType alive' located slot
    refine ⟨r', ?_, gains.trans gains'⟩
    rw [toInteger, bind_of_ok (run_allocate alive), bind_of_ok found, integerOf, integer]
    exact bind_of_ok type _

theorem run_toObject (c : JavaClass) :
    ∃ r, toObject vm .main idx c w =
        (w.withMain (w.main.slots.set p (slotAfter vm.libc c v)) r).settle
          (objectOf vm.libc idx c v) ∧ w.record.Gains P r := by
  obtain ⟨r, type, gains⟩ := run_getType alive located slot
  have alive' : (w.withMain w.main.slots r).Alive := (w.withMain_alive _ r).mpr alive
  obtain ⟨inside, there⟩ := List.getElem?_eq_some_iff.mp slot
  have same : w.main.slots.set p v = w.main.slots := there ▸ List.set_getElem_self inside
  rw [toObject, bind_of_ok type, objectOf, slotAfter]
  simp only [of_value_nil]
  by_cases nil : v = .nil
  · refine ⟨r, ?_, gains⟩
    simp only [nil, textOf, Value.isNumber, ↓reduceIte, Bool.false_eq_true, ite_self]
    rw [← nil, same]
    rfl
  by_cases boolean : c = .boolean
  · obtain ⟨r', read, gains'⟩ := run_luaToboolean alive' located slot
    refine ⟨r', ?_, gains.trans gains'⟩
    simp only [nil, boolean, ↓reduceIte, reduceCtorEq, same]
    exact bind_of_ok read _
  by_cases long : c = .long ∨ c = .primitive .long
  · obtain ⟨r', read, gains'⟩ := run_toInteger vm alive' located slot
    refine ⟨r', ?_, gains.trans gains'⟩
    have other : c ≠ .string := by rintro rfl; simp at long
    simp only [nil, boolean, long, other, ↓reduceIte, same]
    rw [run_bind, read]
    cases integerOf vm.libc idx v <;> rfl
  by_cases double : c = .double
  · obtain ⟨r', read, gains'⟩ := run_toNumber vm alive' located slot
    refine ⟨r', ?_, gains.trans gains'⟩
    simp only [nil, double, ↓reduceIte, reduceCtorEq, or_self, same]
    rw [run_bind, read]
    cases numberOf vm.libc idx v <;> rfl
  by_cases string : c = .string
  · obtain ⟨r', read, gains'⟩ := run_toString vm alive' located slot
    refine ⟨r', ?_, gains.trans gains'⟩
    simp only [nil, string, ↓reduceIte, reduceCtorEq, or_self]
    rw [run_bind, read]
    cases stringOf vm.libc idx v <;> rfl
  · refine ⟨r, ?_, gains⟩
    simp only [nil, boolean, long, double, string, ↓reduceIte, same]
    rfl

end Reads

section Pops

theorem top_located {s : LuaState} {P : Violation → Prop} {v : Value} {below : List Value}
    (top : s.slots = v :: below) (tolerant : P .invalidIndex) : Locates P s (-1) 0 :=
  .negative 0 (by simp [top]) (.inr tolerant)

/- What a pop leaves of the top slot v and the slots below: a refused value stays. -/
def remaining {α : Type} (a : Except JavaException α) (v : Value) (below : List Value) :
    List Value :=
  match a with
  | .ok _ => below
  | .error _ => v :: below

variable (vm : VM) {w : World} {P : Violation → Prop} {v : Value} {below : List Value}

theorem run_pop (alive : w.Alive) (top : w.main.slots = v :: below)
    (valid : 2 ≤ w.main.top - w.main.func ∨ P .invalidTop) :
    ∃ r, pop .main w = .ok ⟨⟩ (w.withMain below r) ∧ w.record.Gains P r := by
  obtain ⟨r, checked, gains⟩ := run_apiCheck (w := w) (P := P)
    ((-2 : Int).natAbs ≤ w.main.top - w.main.func) .invalidTop valid
  obtain ⟨r', stored, gains'⟩ := run_setThread (w := w.withMain w.main.slots r) (P := P)
    ((-2 : Int).natAbs - 1 |> w.main.slots.drop)
  refine ⟨r', ?_, gains.trans gains'⟩
  have lowered : luaSettop .main (-2) w = .ok ⟨⟩ (w.withMain below r') := by
    rw [luaSettop, bind_of_ok (run_enter alive), bind_of_ok run_getThread, if_neg (by decide),
      bind_of_ok checked]
    simpa [top] using stored
  exact lowered

variable (alive : w.Alive) (top : w.main.slots = v :: below)
  (tolerant : P .invalidIndex ∧ P .invalidTop)

include alive tolerant

theorem run_popping {α : Type} {read : Wrapper α} {v' : Value} {r : Record}
    {a : Except JavaException α} (run : read w = (w.withMain (v' :: below) r).settle a)
    (gains : w.record.Gains P r) (refused : ∀ e, a = .error e → v' = v) :
    ∃ r', (do let x ← read; pop .main; return x) w =
        (w.withMain (remaining a v below) r').settle a ∧ w.record.Gains P r' := by
  cases a with
  | ok x =>
    obtain ⟨r', popped, gains'⟩ := run_pop (P := P) ((w.withMain_alive (v' :: below) r).mpr alive)
      rfl (.inr tolerant.2)
    exact ⟨r', by rw [bind_of_ok run, bind_of_ok popped]; rfl, gains.trans gains'⟩
  | error e =>
    refine ⟨r, ?_, gains⟩
    rw [bind_of_error run, refused e rfl]
    rfl

include top

theorem run_popString :
    ∃ r, popString vm .main w = (w.withMain (remaining (stringOf vm.libc (-1) v) v below) r).settle
        (stringOf vm.libc (-1) v) ∧ w.record.Gains P r := by
  obtain ⟨r, read, gains⟩ := run_toString vm (v := v) alive (top_located top tolerant.1)
    (by simp [top])
  simp only [top, List.set_cons_zero] at read
  refine run_popping alive tolerant read gains fun e refused => ?_
  cases number : v.isNumber <;> simp_all [stringOf, textOf]

theorem run_popNumber :
    ∃ r, popNumber vm .main w = (w.withMain (remaining (numberOf vm.libc (-1) v) v below) r).settle
        (numberOf vm.libc (-1) v) ∧ w.record.Gains P r := by
  obtain ⟨r, read, gains⟩ := run_toNumber vm (v := v) alive (top_located top tolerant.1)
    (by simp [top])
  rw [top] at read
  exact run_popping alive tolerant read gains fun _ _ => rfl

theorem run_popInteger :
    ∃ r, popInteger vm .main w =
        (w.withMain (remaining (integerOf vm.libc (-1) v) v below) r).settle
          (integerOf vm.libc (-1) v) ∧ w.record.Gains P r := by
  obtain ⟨r, read, gains⟩ := run_toInteger vm (v := v) alive (top_located top tolerant.1)
    (by simp [top])
  rw [top] at read
  exact run_popping alive tolerant read gains fun _ _ => rfl

theorem run_popBoolean :
    ∃ r, popBoolean .main w = (w.withMain below r).settle (.ok (!v.isFalse)) ∧
      w.record.Gains P r := by
  obtain ⟨r, read, gains⟩ := run_luaToboolean (v := v) alive (top_located top tolerant.1)
    (by simp [top])
  rw [top] at read
  exact run_popping (a := .ok (!v.isFalse)) alive tolerant read gains fun _ _ => rfl

theorem run_popObject (c : JavaClass) :
    ∃ r, popObject vm .main c w =
        (w.withMain (remaining (objectOf vm.libc (-1) c v) v below) r).settle
          (objectOf vm.libc (-1) c v) ∧ w.record.Gains P r := by
  obtain ⟨r, read, gains⟩ := run_toObject vm (v := v) alive (top_located top tolerant.1)
    (by simp [top]) c
  simp only [top, List.set_cons_zero] at read
  refine run_popping alive tolerant read gains fun e refused => ?_
  by_cases string : c = .string
  · subst string
    cases number : v.isNumber with
    | true => cases v <;> simp_all [objectOf, stringOf, Value.isNumber, Functor.map, Except.map]
    | false => simp [slotAfter, textOf, number]
  · simp [slotAfter, string]

end Pops

section Pushes

/- The Lua value of a Java object, where stub is the number of the next upcall stub. -/
def imageOf (stub : Nat) : Object → Except JavaException Value
  | .null => .ok .nil
  | .integer i => .ok (.integer i.toInt64)
  | .long l => .ok (.integer l)
  | .float f => .ok (.float f.toBinary64)
  | .double d => .ok (.float d)
  | .boolean b => .ok (.boolean b)
  | .string s => .ok (.string (Utf8.encode s.toList))
  | .function _ => .ok (.function (.cfunction stub))
  | .other className text => .error (.illegalArgument
      ("Unsupported type " ++ className ++ " of value '" ++ text ++ "'"))

def callbacksOf : Object → List Callback
  | .function f => [.function f]
  | _ => []

variable {w : World} {P : Violation → Prop} (alive : w.Alive)
  (room : w.main.top + 1 ≤ w.main.ciTop ∨ P .stackOverflow)

include alive room

theorem run_pushString (s : String) :
    ∃ r, pushString .main s w =
        .ok ⟨⟩ (w.withMain (.string (Utf8.encode s.toList) :: w.main.slots) r) ∧
      w.record.Gains P r := by
  obtain ⟨r, pushed, gains⟩ := run_push (P := P) (.string (Utf8.encode s.toList)) room
  refine ⟨r, ?_, gains⟩
  have allocated : Arena.allocateFrom s w = .ok (Utf8.encode s.toList ++ [0]) w := by
    rw [Arena.allocateFrom, bind_of_ok (run_allocate alive)]; rfl
  rw [pushString, bind_of_ok allocated]
  simpa [luaPushlstring, bind_of_ok (run_enter alive)] using pushed

theorem run_pushCFunction (fn : Callback) :
    ∃ r, pushCFunction .main fn w = .ok ⟨⟩ ((w.register [fn]).withMain
        (.function (.cfunction w.callbacks.length) :: w.main.slots) r) ∧
      w.record.Gains P r := by
  have alive' : (w.register [fn]).Alive := (w.register_alive [fn]).mpr alive
  obtain ⟨r, pushed, gains⟩ := run_push (w := w.register [fn]) (P := P)
    (.function (.cfunction w.callbacks.length)) room
  refine ⟨r, ?_, gains⟩
  have registered : (modify fun w => { w with callbacks := w.callbacks ++ [fn] } : Wrapper Unit) w =
      .ok ⟨⟩ (w.register [fn]) := rfl
  rw [pushCFunction, bind_of_ok (run_allocate alive), bind_of_ok (run_get w),
    bind_of_ok registered, luaPushcfunction, bind_of_ok (run_enter alive'), pushed]
  rfl

theorem run_pushNil :
    ∃ r, pushNil .main w = .ok ⟨⟩ (w.withMain (.nil :: w.main.slots) r) ∧ w.record.Gains P r := by
  obtain ⟨r, pushed, gains⟩ := run_push (P := P) .nil room
  exact ⟨r, by rw [pushNil, luaPushnil, bind_of_ok (run_enter alive), pushed], gains⟩

theorem run_pushBoolean (b : Bool) :
    ∃ r, pushBoolean .main b w = .ok ⟨⟩ (w.withMain (.boolean b :: w.main.slots) r) ∧
      w.record.Gains P r := by
  obtain ⟨r, pushed, gains⟩ := run_push (P := P) (.boolean b) room
  exact ⟨r, by rw [pushBoolean, luaPushboolean, bind_of_ok (run_enter alive), pushed], gains⟩

theorem run_pushNumber (n : Binary64) :
    ∃ r, pushNumber .main n w = .ok ⟨⟩ (w.withMain (.float n :: w.main.slots) r) ∧
      w.record.Gains P r := by
  obtain ⟨r, pushed, gains⟩ := run_push (P := P) (.float n) room
  exact ⟨r, by rw [pushNumber, luaPushnumber, bind_of_ok (run_enter alive), pushed], gains⟩

theorem run_pushInteger (i : Int64) :
    ∃ r, pushInteger .main i w = .ok ⟨⟩ (w.withMain (.integer i :: w.main.slots) r) ∧
      w.record.Gains P r := by
  obtain ⟨r, pushed, gains⟩ := run_push (P := P) (.integer i) room
  exact ⟨r, by rw [pushInteger, luaPushinteger, bind_of_ok (run_enter alive), pushed], gains⟩

theorem run_pushObject {o : Object} {v : Value} (image : imageOf w.callbacks.length o = .ok v) :
    ∃ r, pushObject .main o w =
        .ok ⟨⟩ ((w.register (callbacksOf o)).withMain (v :: w.main.slots) r) ∧
      w.record.Gains P r := by
  cases o with
  | function f =>
    obtain rfl : Value.function (.cfunction w.callbacks.length) = v := Except.ok.inj image
    exact run_pushCFunction alive room (.function f)
  | other className text => cases image
  | null =>
    cases image
    simpa only [pushObject, callbacksOf, World.register_nil] using
      run_pushNil alive room
  | integer i =>
    cases image
    simpa only [pushObject, callbacksOf, World.register_nil] using
      run_pushInteger alive room i.toInt64
  | long l =>
    cases image
    simpa only [pushObject, callbacksOf, World.register_nil] using
      run_pushInteger alive room l
  | float f =>
    cases image
    simpa only [pushObject, callbacksOf, World.register_nil] using
      run_pushNumber alive room f.toBinary64
  | double d =>
    cases image
    simpa only [pushObject, callbacksOf, World.register_nil] using
      run_pushNumber alive room d
  | boolean b =>
    cases image
    simpa only [pushObject, callbacksOf, World.register_nil] using
      run_pushBoolean alive room b
  | string s =>
    cases image
    simpa only [pushObject, callbacksOf, World.register_nil] using
      run_pushString alive room s

omit alive room

theorem run_pushObject_refused {o : Object} {e : JavaException} {stub : Nat}
    (refused : imageOf stub o = .error e) : pushObject .main o w = w.settle (.error e) := by
  cases o with
  | other className text => cases refused; rfl
  | _ => cases refused

end Pushes

end LuaStack

end Luava
