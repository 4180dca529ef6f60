import Luava.StackLaws
import Mathlib.Data.List.Forall2

/-
The read of a callback's arguments: several slots at once, counted from the top.
-/
namespace Luava

open Effects LuaApi

/- Reads as strings may turn numbers into their texts. -/
def Rewritten (v v' : Value) : Prop := v' = v ∨ v.isNumber = true ∧ v'.isString = true

theorem rewritten_trans {v v' v'' : Value} (first : Rewritten v v') (second : Rewritten v' v'') :
    Rewritten v v'' := by
  rcases second with rfl | ⟨number, string⟩
  · exact first
  · rcases first with rfl | ⟨_, text⟩
    · exact .inr ⟨number, string⟩
    · cases v' <;> simp_all [Value.isNumber, Value.isString]

/- A value that is no number is kept. -/
theorem rewritten_eq {v v' : Value} (rewritten : Rewritten v v') (other : v.isNumber = false) :
    v' = v := rewritten.resolve_right (by simp [other])

theorem rewritten_slot_after (libc : Libc) (c : JavaClass) (v : Value) :
    Rewritten v (LuaStack.slotAfter libc c v) := by
  unfold LuaStack.slotAfter textOf
  split_ifs with string number
  · exact .inr ⟨number, rfl⟩
  · exact .inl rfl
  · exact .inl rfl

def Retyped : List Value → List Value → Prop := List.Forall₂ Rewritten

namespace Retyped

variable {slots slots' slots'' : List Value}

theorem refl (slots : List Value) : Retyped slots slots :=
  List.forall₂_same.mpr fun _ _ => .inl rfl

theorem trans (first : Retyped slots slots') (second : Retyped slots' slots'') :
    Retyped slots slots'' := by
  unfold Retyped at *
  induction first generalizing slots'' with
  | nil => exact second
  | cons head tail ih =>
    cases second with
    | cons head' tail' => exact .cons (rewritten_trans head head') (ih tail')

theorem set (slots : List Value) {p : Nat} {v v' : Value} (slot : slots[p]? = some v)
    (rewritten : Rewritten v v') : Retyped slots (slots.set p v') := by
  induction slots generalizing p with
  | nil => exact .nil
  | cons u slots ih =>
    cases p with
    | zero =>
      obtain rfl : u = v := by simpa using slot
      exact .cons rewritten (refl slots)
    | succ p => exact .cons (.inl rfl) (ih (by simpa using slot))

end Retyped

/-- os are the values vs, each converted to the type at its position; a value that is missing is
   nil. -/
structure Positional (libc : Libc) (types : List JavaClass) (vs : List Value) (os : List Object) :
    Prop where
  length : os.length = types.length
  converted : ∀ i t o, types[i]? = some t → os[i]? = some o →
    LuaStack.objectOf libc (-1) t (vs.getD i .nil) = .ok o

namespace LuaStack

variable (vm : VM) {P : Violation → Prop}

/- A slot that exists but lies outside the frame is read, one that does not is not. -/
theorem toObject_outside {w : World} {idx : Int} (c : JavaClass) (alive : w.Alive)
    (negative : idx < 0) (outside : w.main.slots.length < idx.natAbs)
    (tolerant : P .invalidIndex) :
    ∃ r, toObject vm .main idx c w = .error .undefined (w.withMain w.main.slots r) ∧
      w.record.Gains P r := by
  obtain ⟨r, found, gains⟩ := index2stack_outside negative outside tolerant
  refine ⟨r, ?_, gains⟩
  have value : index2value .main idx w = .error .undefined (w.withMain w.main.slots r) :=
    bind_of_error found _
  have type : luaType .main idx w = .error .undefined (w.withMain w.main.slots r) := by
    rw [luaType, bind_of_ok (run_enter alive)]
    exact bind_of_error value _
  rw [toObject, bind_of_error]
  rw [getType, bind_of_error type]

theorem popObject_empty {w : World} (c : JavaClass) (alive : w.Alive) (empty : w.main.slots = [])
    (tolerant : P .invalidIndex) :
    ∃ r, popObject vm .main c w = .error .undefined (w.withMain w.main.slots r) ∧
      w.record.Gains P r := by
  obtain ⟨r, read, gains⟩ := toObject_outside vm c alive (show (-1 : Int) < 0 by decide)
    (by simp [empty]) tolerant
  exact ⟨r, by rw [popObject, bind_of_error read], gains⟩

/- The value part of what format shows. -/
def shownOf (vm : VM) : Value → String
  | .string bytes => String.ofList (Utf8.decode (stripZero bytes))
  | .integer i => vm.valueOf (Binary64.ofInt i.toInt)
  | .float n => vm.valueOf n
  | .boolean b => if b then "true" else "false"
  | _ => ""

def description (vm : VM) (idx : Int) (v : Value) : String :=
  let result := "#" ++ ToString.toString idx ++ " " ++ (LuaType.ofValue v).name
  if shownOf vm v = "" then result else result ++ ": " ++ shownOf vm v

theorem run_format {w : World} {idx : Int} {p : Nat} {v : Value} (alive : w.Alive)
    (located : Locates P w.main idx p) (slot : w.main.slots[p]? = some v) :
    ∃ r, format vm .main idx w = .ok (description vm idx v) (w.withMain w.main.slots r) ∧
      w.record.Gains P r := by
  obtain ⟨r, type, gains⟩ := run_getType alive located slot
  have alive' : (w.withMain w.main.slots r).Alive := (w.withMain_alive _ r).mpr alive
  obtain ⟨inside, there⟩ := List.getElem?_eq_some_iff.mp slot
  have same : w.main.slots.set p v = w.main.slots := there ▸ List.set_getElem_self inside
  rw [format, bind_of_ok type]
  cases v with
  | string bytes =>
    obtain ⟨r', read, gains'⟩ := run_toString vm alive' located slot
    simp only [textOf_string, same, World.withMain_slots, World.withMain_withMain] at read
    exact ⟨r', bind_of_ok read _, gains.trans gains'⟩
  | integer i =>
    obtain ⟨r', read, gains'⟩ := run_toNumber vm alive' located slot
    exact ⟨r', bind_of_ok (map_of_ok read vm.valueOf) _, gains.trans gains'⟩
  | float n =>
    obtain ⟨r', read, gains'⟩ := run_toNumber vm alive' located slot
    exact ⟨r', bind_of_ok (map_of_ok read vm.valueOf) _, gains.trans gains'⟩
  | boolean b =>
    obtain ⟨r', read, gains'⟩ := run_luaToboolean alive' located slot
    have shown := map_of_ok read fun b => if b then "true" else "false"
    refine ⟨r', (bind_of_ok shown _).trans ?_, gains.trans gains'⟩
    cases b <;> rfl
  | _ => exact ⟨r, rfl, gains⟩

def commaSeparated : List String → String
  | [] => ""
  | [text] => text
  | text :: texts => text ++ ", " ++ commaSeparated texts

theorem comma_separated_cons (t u : String) (texts : List String) :
    commaSeparated (t :: u :: texts) = t ++ ", " ++ commaSeparated (u :: texts) := rfl

/- One entry for each of the slots idx, idx + 1 and so on. -/
def descriptions (vm : VM) (idx : Nat) (vs : List Value) : List String :=
  vs.mapIdx fun i v => description vm (idx + i : Nat) v

theorem descriptions_cons (idx : Nat) (v : Value) (vs : List Value) :
    descriptions vm idx (v :: vs) = description vm idx v :: descriptions vm (idx + 1) vs := by
  rw [descriptions, List.mapIdx_cons, descriptions]
  simp only [Nat.add_zero, Nat.add_assoc, Nat.add_comm 1]

/- The values of the slots idx to the top of the frame, in this order. -/
def valuesFrom (s : LuaState) (idx : Nat) : List Value :=
  (s.slots.take (s.top - (s.func + idx))).reverse

theorem length_values_from (s : LuaState) (idx : Nat) :
    (valuesFrom s idx).length = s.top - (s.func + idx) := by
  simp [valuesFrom, LuaState.top]

theorem values_from_succ {s : LuaState} {idx : Nat} {v : Value} (inside : s.func + idx < s.top)
    (slot : s.slots[s.top - 1 - (s.func + idx)]? = some v) :
    valuesFrom s idx = v :: valuesFrom s (idx + 1) := by
  have left : s.top - (s.func + idx) = s.top - (s.func + (idx + 1)) + 1 := by omega
  have position : s.top - 1 - (s.func + idx) = s.top - (s.func + (idx + 1)) := by omega
  rw [position] at slot
  rw [valuesFrom, left, List.take_add_one, slot]
  simp [valuesFrom]

theorem run_printSlots {left idx : Nat} {w : World} (text : String) (alive : w.Alive)
    (nonzero : 0 < idx) (last : w.main.func + idx + left = w.main.top)
    (valid : w.main.top ≤ w.main.ciTop ∨ P .invalidIndex) :
    ∃ r, printSlots vm .main ((w.main.top : Int) - (w.main.func + 1)) idx left text w =
        .ok (text ++ commaSeparated (descriptions vm idx (valuesFrom w.main idx)))
          (w.withMain w.main.slots r) ∧ w.record.Gains P r := by
  induction left generalizing idx text w with
  | zero =>
    refine ⟨w.record, ?_, .refl P _⟩
    have none : valuesFrom w.main idx = [] := by simp [valuesFrom, ← last]
    rw [none, printSlots]
    exact congrArg (EStateM.Result.ok · w) (String.append_empty (s := text)).symm
  | succ left ih =>
    have located : Locates P w.main idx (w.main.top - 1 - (w.main.func + idx)) :=
      .positive idx nonzero (by omega) (valid.imp_left fun h => by omega)
    obtain ⟨v, slot⟩ : ∃ v, w.main.slots[w.main.top - 1 - (w.main.func + idx)]? = some v :=
      ⟨_, List.getElem?_eq_getElem located.inside⟩
    obtain ⟨r, shown, gains⟩ := run_format vm alive located slot
    obtain ⟨r', rest, gains'⟩ := ih (w := w.withMain w.main.slots r)
      (text ++ description vm idx v ++
        if (idx : Int) < (w.main.top : Int) - (w.main.func + 1) then ", " else "")
      ((w.withMain_alive w.main.slots r).mpr alive) (show 0 < idx + 1 from Nat.succ_pos idx)
      (by rw [← Nat.add_assoc, Nat.add_right_comm _ 1]; exact last) valid
    refine ⟨r', ?_, gains.trans gains'⟩
    rw [printSlots, bind_of_ok shown]
    refine rest.trans (congrArg (EStateM.Result.ok · _) ?_)
    rw [values_from_succ (by omega) slot, descriptions_cons]
    -- a separator stands between two slots
    cases left with
    | zero =>
      have none : valuesFrom w.main (idx + 1) = [] := by simp [valuesFrom, ← last, Nat.add_assoc]
      have ended : ¬ (idx : Int) < (w.main.top : Int) - (w.main.func + 1) := by omega
      rw [if_neg ended]
      show _ ++ commaSeparated (descriptions vm (idx + 1) (valuesFrom w.main (idx + 1))) = _
      rw [none]
      simp [descriptions, commaSeparated]
    | succ left =>
      have more : (idx : Int) < (w.main.top : Int) - (w.main.func + 1) := by omega
      have inside : w.main.top - 1 - (w.main.func + (idx + 1)) < w.main.slots.length := by
        simp only [LuaState.top] at last ⊢
        omega
      rw [if_pos more]
      show _ ++ commaSeparated (descriptions vm (idx + 1) (valuesFrom w.main (idx + 1))) = _
      rw [values_from_succ (by omega) (List.getElem?_eq_getElem inside), descriptions_cons,
        comma_separated_cons]
      simp only [String.append_assoc]

theorem run_printStack {w : World} (alive : w.Alive)
    (valid : w.main.top ≤ w.main.ciTop ∨ P .invalidIndex) :
    ∃ r, printStack vm .main w =
        .ok ("Stack size: " ++ ToString.toString ((w.main.top : Int) - (w.main.func + 1)) ++ ": " ++
          commaSeparated (descriptions vm 1 (valuesFrom w.main 1)))
        (w.withMain w.main.slots r) ∧ w.record.Gains P r := by
  have top : getTop .main w = .ok ((w.main.top : Int) - (w.main.func + 1)) w := by
    rw [getTop, luaGettop, bind_of_ok (run_enter alive)]
    rfl
  rw [printStack, bind_of_ok top]
  by_cases empty : w.main.top ≤ w.main.func
  · have none : valuesFrom w.main 1 = [] := by
      have short : w.main.top - (w.main.func + 1) = 0 := by omega
      rw [valuesFrom, short, List.take_zero, List.reverse_nil]
    have left : ((w.main.top : Int) - (w.main.func + 1)).toNat = 0 := by omega
    refine ⟨w.record, ?_, .refl P _⟩
    rw [none, left, printSlots]
    exact congrArg (EStateM.Result.ok · w) (String.append_empty (s := _)).symm
  · have left : w.main.func + 1 + ((w.main.top : Int) - (w.main.func + 1)).toNat = w.main.top := by
      omega
    exact run_printSlots vm _ alive Nat.one_pos left valid

theorem getD_inside {slots : List Value} {p : Nat} (inside : p < slots.length) :
    slots[p]? = some (slots.getD p .nil) := by
  rw [List.getD_eq_getElem?_getD, List.getElem?_eq_getElem inside, Option.getD_some]

/- The objects for the top n slots from the i-th on, with the classes expected there. -/
def objectsOf (libc : Libc) (n : Nat) : Nat → List JavaClass → List Value →
    Except JavaException (List Object)
  | _, [], _ => .ok []
  | i, type :: types, slots => do
    let value ← objectOf libc ((i : Int) - n) type (slots.getD (n - 1 - i) .nil)
    let values ← objectsOf libc n (i + 1) types slots
    return value :: values

theorem objects_of_set (libc : Libc) {n i p : Nat} (types : List JavaClass) (slots : List Value)
    (v : Value) (counted : i + types.length ≤ n) (visited : n < p + 1 + i) :
    objectsOf libc n i types (slots.set p v) = objectsOf libc n i types slots := by
  induction types generalizing i with
  | nil => rfl
  | cons type types ih =>
    simp only [List.length_cons] at counted
    have other : (slots.set p v).getD (n - 1 - i) .nil = slots.getD (n - 1 - i) .nil := by
      simp only [List.getD_eq_getElem?_getD]
      rw [List.getElem?_set_ne (by omega)]
    rw [objectsOf, objectsOf, other, ih (by omega) (by omega)]

/-- What the reads of objectsOf leave of the slots. They end at the first value that is refused. -/
def slotsRead (libc : Libc) (n : Nat) : Nat → List JavaClass → List Value → List Value
  | _, [], slots => slots
  | i, type :: types, slots =>
    let v := slots.getD (n - 1 - i) .nil
    let read := slots.set (n - 1 - i) (slotAfter libc type v)
    if accepts libc type v then slotsRead libc n (i + 1) types read else read

theorem retyped_slots_read (libc : Libc) {n i : Nat} {types : List JavaClass} {slots : List Value}
    (enough : i + types.length ≤ n) (inside : n ≤ slots.length) :
    Retyped slots (slotsRead libc n i types slots) := by
  induction types generalizing i slots with
  | nil => exact .refl _
  | cons type types ih =>
    simp only [List.length_cons] at enough
    have slot := getD_inside (show n - 1 - i < slots.length by omega)
    have rewritten := Retyped.set slots slot (rewritten_slot_after libc type _)
    rw [slotsRead]
    split
    · exact rewritten.trans (ih (by omega) (by rw [List.length_set]; exact inside))
    · exact rewritten

theorem length_slots_read (libc : Libc) (n i : Nat) (types : List JavaClass)
    (slots : List Value) : (slotsRead libc n i types slots).length = slots.length := by
  induction types generalizing i slots with
  | nil => rfl
  | cons type types ih =>
    rw [slotsRead]
    split
    · rw [ih, List.length_set]
    · rw [List.length_set]

/- Nothing below the slots that are still to be read is touched. -/
theorem drop_slots_read (libc : Libc) {n i : Nat} {types : List JavaClass} {slots : List Value}
    (enough : i + types.length ≤ n) :
    (slotsRead libc n i types slots).drop (n - i) = slots.drop (n - i) := by
  induction types generalizing i slots with
  | nil => rfl
  | cons type types ih =>
    simp only [List.length_cons] at enough
    have above (v : Value) : (slots.set (n - 1 - i) v).drop (n - i) = slots.drop (n - i) :=
      List.drop_set_of_lt (by omega)
    have next : n - i = n - (i + 1) + 1 := by omega
    rw [slotsRead]
    split
    · rw [← above (slotAfter libc type (slots.getD (n - 1 - i) .nil)), next, ← List.drop_drop,
        ih (by omega), List.drop_drop]
    · rw [above]

theorem run_toObjects {n i : Nat} {types : List JavaClass} {w : World} (alive : w.Alive)
    (counted : i + types.length = n) (enough : n ≤ w.main.slots.length)
    (valid : n < w.main.top - w.main.func ∨ P .invalidIndex) :
    ∃ r, toObjects vm .main n i types w =
        (w.withMain (slotsRead vm.libc n i types w.main.slots) r).settle
          (objectsOf vm.libc n i types w.main.slots) ∧ w.record.Gains P r := by
  induction types generalizing i w with
  | nil => exact ⟨w.record, rfl, .refl P _⟩
  | cons type types ih =>
    simp only [List.length_cons] at counted
    have index : (i : Int) - n = -((n - 1 - i : Nat) : Int) - 1 := by omega
    have inside : n - 1 - i < w.main.slots.length := by omega
    have slot := getD_inside inside
    have located : Locates P w.main ((i : Int) - n) (n - 1 - i) := by
      rw [index]
      exact .negative _ inside (valid.imp_left fun h => by omega)
    obtain ⟨r, read, gains⟩ := run_toObject vm alive located slot type
    have accepted := objectOf_ok_iff vm.libc ((i : Int) - n) type
      (w.main.slots.getD (n - 1 - i) .nil)
    rw [objectsOf, slotsRead]
    cases value : objectOf vm.libc ((i : Int) - n) type (w.main.slots.getD (n - 1 - i) .nil) with
    | error e =>
      rw [value] at read accepted
      have refused : ¬ accepts vm.libc type (w.main.slots.getD (n - 1 - i) .nil) = true :=
        fun accepts => by obtain ⟨o, ok⟩ := accepted.mpr accepts; cases ok
      exact ⟨r, by rw [toObjects, bind_of_error read, if_neg refused]; rfl, gains⟩
    | ok o =>
      rw [value] at read accepted
      have converts := accepted.mp ⟨o, rfl⟩
      obtain ⟨r', rest, gains'⟩ := ih (i := i + 1)
        (w := w.withMain (w.main.slots.set (n - 1 - i)
          (slotAfter vm.libc type (w.main.slots.getD (n - 1 - i) .nil))) r)
        ((w.withMain_alive _ r).mpr alive) (by omega) (by simpa using enough)
        (by simpa [LuaState.top] using valid)
      refine ⟨r', ?_, gains.trans gains'⟩
      rw [toObjects, bind_of_ok read, run_bind, rest, World.withMain_slots,
        objects_of_set vm.libc types w.main.slots _ (by omega) (by omega),
        if_pos converts]
      cases objectsOf vm.libc n (i + 1) types w.main.slots <;> rfl

/- Fewer slots on the whole stack than values to read. -/
theorem toObjects_outside {types : List JavaClass} {w : World} (alive : w.Alive)
    (outside : w.main.slots.length < types.length) (tolerant : P .invalidIndex) :
    ∃ r, toObjects vm .main types.length 0 types w = .error .undefined
        (w.withMain w.main.slots r) ∧ w.record.Gains P r := by
  cases types with
  | nil => simp at outside
  | cons type types =>
    have negative : ((0 : Nat) : Int) - (type :: types).length < 0 := by
      simp only [List.length_cons]; omega
    obtain ⟨r, read, gains⟩ := toObject_outside vm type alive negative
      (by simp only [List.length_cons] at outside ⊢; omega) tolerant
    exact ⟨r, by rw [toObjects, bind_of_error read], gains⟩

theorem run_getValues {types : List JavaClass} {w : World} (alive : w.Alive)
    (enough : types.length ≤ w.main.slots.length)
    (valid : types.length < w.main.top - w.main.func ∨ P .invalidIndex)
    (printable : w.main.top ≤ w.main.ciTop ∨ P .invalidIndex) :
    ∃ r, getValues vm .main types w =
        (w.withMain (slotsRead vm.libc types.length 0 types w.main.slots) r).settle
          (objectsOf vm.libc types.length 0 types w.main.slots) ∧ w.record.Gains P r := by
  obtain ⟨r, read, gains⟩ := run_toObjects vm (n := types.length) alive
    (Nat.zero_add types.length) enough valid
  cases values : objectsOf vm.libc types.length 0 types w.main.slots with
  | error e =>
    rw [values] at read
    exact ⟨r, by rw [getValues, bind_of_error read]; rfl, gains⟩
  | ok os =>
    rw [values] at read
    cases finest : vm.finest with
    | false =>
      refine ⟨r, ?_, gains⟩
      rw [getValues, bind_of_ok read, finest]
      rfl
    | true =>
      obtain ⟨r', printed, gains'⟩ := run_printStack vm
        (w := w.withMain (slotsRead vm.libc types.length 0 types w.main.slots) r)
        ((w.withMain_alive _ r).mpr alive)
        (by simpa [LuaState.top, length_slots_read] using printable)
      refine ⟨r', ?_, gains.trans gains'⟩
      rw [getValues, bind_of_ok read, finest]
      exact bind_of_ok printed _

theorem getValues_outside {types : List JavaClass} {w : World} (alive : w.Alive)
    (outside : w.main.slots.length < types.length) (tolerant : P .invalidIndex) :
    ∃ r, getValues vm .main types w = .error .undefined (w.withMain w.main.slots r) ∧
      w.record.Gains P r := by
  obtain ⟨r, read, gains⟩ := toObjects_outside vm alive outside tolerant
  exact ⟨r, by rw [getValues, bind_of_error read], gains⟩

end LuaStack

end Luava
