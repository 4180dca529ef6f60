import Luava.InterpreterLaws

/-
Globals as a map. A Java name crosses the boundary as a C string, so two names are one key when
they agree up to their first NUL.
-/
namespace Luava

open Effects LuaApi Machine

namespace GlobalNames

inductive Scalar where
  | integer (value : Int64)
  | number (value : Binary64)
  | boolean (value : Bool)
  deriving DecidableEq

namespace Scalar

def setter : Scalar → Setter
  | integer value => .integer value
  | number value => .number value
  | boolean value => .boolean value

def value : Scalar → Value
  | integer value => .integer value
  | number value => .float value
  | boolean value => .boolean value

/- The getter of the matching type, and what it returns. -/
def kind : Scalar → Kind
  | integer _ => .integer
  | number _ => .number
  | boolean _ => .boolean

def result : Scalar → OperationResult
  | integer value => .integer value
  | number value => .number value
  | boolean value => .boolean value

theorem setter_value (stub : Nat) (s : Scalar) : s.setter.value stub = s.value := by
  cases s <;> rfl

theorem setter_callbacks (s : Scalar) : s.setter.callbacks = [] := by cases s <;> rfl

end Scalar

/- The names agree up to the first NUL of each. -/
def agree (m n : String) : Bool :=
  decide (m.toList.takeWhile (· != '\x00') = n.toList.takeWhile (· != '\x00'))

theorem agree_iff (m n : String) : agree m n = true ↔ keyOf m = keyOf n := by
  rw [agree, decide_eq_true_iff, ← Utf8.cString_encode_inj, keyOf, keyOf, Value.string.injEq]

/- The last set whose name p accepts. -/
def last (p : String → Bool) : List (String × Scalar) → Option (String × Scalar)
  | [] => none
  | s :: sets => (last p sets).or (if p s.1 then some s else none)

theorem last_none {p q : String → Bool} (imp : ∀ m, p m = true → q m = true)
    {sets : List (String × Scalar)} (absent : last q sets = none) : last p sets = none := by
  induction sets with
  | nil => rfl
  | cons s sets ih =>
    simp only [last, Option.or_eq_none_iff, ite_eq_right_iff, reduceCtorEq] at absent ⊢
    exact ⟨ih absent.1, fun accepted => absent.2 (imp s.1 accepted)⟩

/- A set found under a wider condition is found under a narrower one it meets. -/
theorem last_some {p q : String → Bool} (imp : ∀ m, p m = true → q m = true)
    {sets : List (String × Scalar)} {t : String × Scalar} (found : last q sets = some t)
    (accepted : p t.1 = true) : last p sets = some t := by
  induction sets with
  | nil => cases found
  | cons s sets ih =>
    rw [last] at found ⊢
    cases later : last q sets with
    | some u =>
      rw [later, Option.some_or] at found
      rw [ih (later.trans found), Option.some_or]
    | none =>
      rw [later, Option.none_or] at found
      rw [last_none imp later, Option.none_or]
      split at found
      · cases found
        exact if_pos accepted
      · cases found

def setAll (vm : VM) : List (String × Scalar) → Wrapper Unit
  | [] => return ()
  | (name, s) :: sets => do
    let _ ← LuaInterpreter.operation vm .main (s.setter.setGlobal name)
    setAll vm sets

/- The value of n in a map keyed by whole names: the last one set under n, or what the globals
   table has under all of n. -/
def expected (h : Heap) (sets : List (String × Scalar)) (n : String) : Value :=
  match last (· == n) sets with
  | some (_, s) => s.value
  | none => h.rawget h.globals (wholeKey n)

/-- Every getter reads n as such a map has it. -/
structure MapLaw (vm : VM) (w : World) (sets : List (String × Scalar)) (n : String) : Prop where
  reads : ∀ k : Kind, outcomeOf (do
      setAll vm sets
      LuaInterpreter.operation vm .main (k.getGlobal n)) w =
    (k.resultOf vm.libc (expected w.heap sets n)).mapError .exception

/- The globals table after the sets. -/
def written (h : Heap) (sets : List (String × Scalar)) : Heap :=
  sets.foldl (fun h s => h.rawset h.globals (keyOf s.1) s.2.value) h

/- What the sets leave under the key of n. -/
def stored (h : Heap) (sets : List (String × Scalar)) (n : String) : Value :=
  match last (agree · n) sets with
  | some (_, s) => s.value
  | none => h.rawget h.globals (keyOf n)

theorem stored_cons (h : Heap) (s : String × Scalar) (sets : List (String × Scalar)) (n : String) :
    stored (h.rawset h.globals (keyOf s.1) s.2.value) sets n = stored h (s :: sets) n := by
  simp only [stored, last]
  cases last (agree · n) sets with
  | some t => rfl
  | none =>
    rw [Option.none_or, Heap.globals_rawset]
    by_cases same : agree s.1 n = true
    · rw [if_pos same, (agree_iff s.1 n).mp same, Heap.rawget_rawset_self]
    · rw [if_neg same, Heap.rawget_rawset_other]
      exact .inr fun key => same ((agree_iff s.1 n).mpr key.symm)

theorem rawget_written (h : Heap) (sets : List (String × Scalar)) (n : String) :
    (written h sets).rawget h.globals (keyOf n) = stored h sets n := by
  induction sets generalizing h with
  | nil => rfl
  | cons s sets ih =>
    rw [← stored_cons, ← ih, Heap.globals_rawset]
    rfl

/- Without a metatable every assignment to a global goes to the globals table. -/
theorem assign_plain (insertkey : Heap → TableId → Value → Bool) (h : Heap) (t : TableId)
    (key : Value) (plain : (h.table t).metatable = none) :
    h.assign insertkey (.table t) key = .store t := by
  have slow : h.finishset insertkey key Heap.MAXTAGLOOP (.table t) = .store t :=
    h.finishset_plain insertkey t key 1999 plain
  rw [Heap.assign, slow]
  cases fast : h.fastset insertkey (.table t) key with
  | none => rfl
  | some id =>
    simp only [Heap.fastset] at fast
    split at fast <;> cases fast
    rfl

variable (vm : VM) {w : World}

theorem run_assign (alive : w.Alive) (plain : (w.heap.table w.heap.globals).metatable = none)
    (name : String) (s : Scalar) :
    ∃ r, (do s.setter.push; LowLevelLua.setGlobal vm .main name : Wrapper Unit) w = .ok ⟨⟩
      ((w.withHeap (w.heap.rawset w.heap.globals (keyOf name) s.value)).withMain
        w.main.slots r) := by
  obtain ⟨r, pushed, _⟩ := s.setter.run_push (P := fun _ => True) alive (.inr trivial)
  rw [s.setter_value, s.setter_callbacks, World.register_nil] at pushed
  have assigned := assign_plain vm.insertkey w.heap w.heap.globals (keyOf name) plain
  have set : Ensures (LowLevelLua.setGlobal vm .main name)
      (w.withMain (s.value :: w.main.slots) r)
      (fun _ w' => ∃ r, w' = (w.withHeap
        (w.heap.rawset w.heap.globals (keyOf name) s.value)).withMain w.main.slots r)
      fun _ _ => False := by
    refine LowLevelLua.ensures_setGlobal vm (P := fun _ => True)
      ((w.withMain_alive _ r).mpr alive) (w.withMain_slots _ r) trivial
      (fun _ => .inr trivial) ?_ ?_ ?_
    · intro id r' stored _
      cases assigned.symm.trans stored
      exact ⟨r', rfl⟩
    · intro e r' failed _
      cases assigned.symm.trans failed
    · intro tm object called
      cases assigned.symm.trans called
  obtain ⟨u, w', run, r', rfl⟩ := run_of_ensures set
  exact ⟨r', (bind_of_ok pushed _).trans run⟩

theorem run_set (alive : w.Alive) (plain : (w.heap.table w.heap.globals).metatable = none)
    (name : String) (s : Scalar) :
    ∃ r, LuaInterpreter.operation vm .main (s.setter.setGlobal name) w = .ok .done
      ((w.withHeap (w.heap.rawset w.heap.globals (keyOf name) s.value)).withMain
        w.main.slots r) := by
  let step := Step.operation (s.setter.setGlobal name) w.main w.heap w.status w.calls
  obtain ⟨r, run⟩ := run_assign vm (w := w.addStep step) ⟨alive.status, alive.arena⟩ plain name s
  rw [Setter.operation_setGlobal, bind_of_ok (run_modify _ w)]
  exact ⟨r, map_of_ok run _⟩

theorem globals_written (h : Heap) (sets : List (String × Scalar)) :
    (written h sets).globals = h.globals := by
  induction sets generalizing h with
  | nil => rfl
  | cons s sets ih => exact (ih _).trans (h.globals_rawset ..)

theorem metatable_written (h : Heap) (sets : List (String × Scalar)) (t : TableId) :
    ((written h sets).table t).metatable = (h.table t).metatable := by
  induction sets generalizing h with
  | nil => rfl
  | cons s sets ih => exact (ih _).trans (h.metatable_rawset _ _ _ (.table t))

/- The sets all return, and change nothing but the globals table. -/
theorem run_setAll (sets : List (String × Scalar)) (alive : w.Alive)
    (plain : (w.heap.table w.heap.globals).metatable = none) :
    ∃ r, setAll vm sets w =
      .ok ⟨⟩ ((w.withHeap (written w.heap sets)).withMain w.main.slots r) := by
  induction sets generalizing w with
  | nil => exact ⟨w.record, rfl⟩
  | cons s sets ih =>
    obtain ⟨r, run⟩ := run_set vm alive plain s.1 s.2
    obtain ⟨r', rest⟩ := ih (w := (w.withHeap (w.heap.rawset w.heap.globals (keyOf s.1)
      s.2.value)).withMain w.main.slots r) ⟨alive.status, alive.arena⟩
        ((w.heap.metatable_rawset _ _ _ (.table _)).trans plain)
    refine ⟨r', ?_⟩
    rw [setAll, bind_of_ok run]
    exact rest

/- A getter reads what is stored under the key of its name. -/
theorem outcome_getGlobal (alive : w.Alive)
    (plain : (w.heap.table w.heap.globals).metatable = none) (k : Kind) (n : String) :
    outcomeOf (LuaInterpreter.operation vm .main (k.getGlobal n)) w =
      (k.resultOf vm.libc (w.heap.rawget w.heap.globals (keyOf n))).mapError .exception := by
  let step := Step.operation (k.getGlobal n) w.main w.heap w.status w.calls
  have alive' : (w.addStep step).Alive := ⟨alive.status, alive.arena⟩
  have found := w.heap.access_plain w.heap.globals (keyOf n) plain
  have read : Ensures (LowLevelLua.getGlobal vm .main n) (w.addStep step)
      (fun _ w' => ∃ r, w' = (w.addStep step).withMain
        (w.heap.rawget w.heap.globals (keyOf n) :: w.main.slots) r) fun _ _ => False := by
    refine LowLevelLua.ensures_getGlobal vm (P := fun _ => True) alive' (.inr trivial) ?_ ?_ ?_
    · intro v r value _
      cases found.symm.trans value
      exact ⟨r, rfl⟩
    · intro e r failed _
      cases found.symm.trans failed
    · intro tm object called
      cases found.symm.trans called
  obtain ⟨u, w', run, r, rfl⟩ := run_of_ensures read
  obtain ⟨r', popped, _⟩ := k.run_pop vm (P := fun _ => True)
    ((World.withMain_alive _ _ r).mpr alive') (World.withMain_slots _ _ r) ⟨trivial, trivial⟩
  rw [Kind.operation_getGlobal, outcomeOf, bind_of_ok (run_modify _ w), bind_of_ok run, popped]
  cases k.resultOf vm.libc (w.heap.rawget w.heap.globals (keyOf n)) <;> rfl

theorem outcome_after (sets : List (String × Scalar)) (alive : w.Alive)
    (plain : (w.heap.table w.heap.globals).metatable = none) (k : Kind) (n : String) :
    outcomeOf (do
        setAll vm sets
        LuaInterpreter.operation vm .main (k.getGlobal n)) w =
      (k.resultOf vm.libc (stored w.heap sets n)).mapError .exception := by
  obtain ⟨r, run⟩ := run_setAll vm sets alive plain
  have read := outcome_getGlobal vm
    (w := (w.withHeap (written w.heap sets)).withMain w.main.slots r) ⟨alive.status, alive.arena⟩
    (by rwa [World.withMain_heap, World.withHeap_heap, globals_written, metatable_written]) k n
  rw [outcomeOf, bind_of_ok run]
  rw [World.withMain_heap, World.withHeap_heap, globals_written, rawget_written] at read
  exact read

theorem agree_of_same {n : String} (m : String) (same : (m == n) = true) : agree m n = true := by
  rw [beq_iff_eq] at same
  rw [same, agree_iff]

theorem stored_of_found {h : Heap} {sets : List (String × Scalar)} {n name : String} {s : Scalar}
    (found : last (agree · n) sets = some (name, s)) : stored h sets n = s.value := by
  rw [stored, found]

theorem stored_of_own_name {h : Heap} {sets : List (String × Scalar)} {n : String} {s : Scalar}
    (own : last (agree · n) sets = some (n, s)) : stored h sets n = expected h sets n := by
  rw [stored, expected, own, last_some agree_of_same own (beq_self_eq_true n)]

theorem stored_of_none {h : Heap} {sets : List (String × Scalar)} {n : String}
    (absent : last (agree · n) sets = none) :
    stored h sets n = h.rawget h.globals (keyOf n) ∧
      expected h sets n = h.rawget h.globals (wholeKey n) := by
  rw [stored, expected, absent, last_none agree_of_same absent]
  exact ⟨rfl, rfl⟩

theorem map_error_injective {ε ε' α : Type} {f : ε → ε'} (injective : Function.Injective f)
    {a b : Except ε α} (same : a.mapError f = b.mapError f) : a = b := by
  cases a <;> cases b <;> simp_all [Except.mapError]
  exact injective same

end GlobalNames

open GlobalNames

/-- The getters read n as a map keyed by whole names would exactly when the last set whose name
   agrees with n up to the first NUL was made under n, or its value reads the same; and, without
   such a set, n has no NUL or what is stored under its part before the NUL reads the same. -/
theorem globals_form_a_map_iff (vm : VM) {w : World} (alive : w.Alive)
    (plain : (w.heap.table w.heap.globals).metatable = none) (sets : List (String × Scalar))
    (n : String) :
    MapLaw vm w sets n ↔
      (∀ name s, last (agree · n) sets = some (name, s) →
        name = n ∨ ∀ k : Kind, k.resultOf vm.libc s.value =
          k.resultOf vm.libc (expected w.heap sets n)) ∧
      (last (agree · n) sets = none →
        '\x00' ∉ n.toList ∨
          ∀ k : Kind, k.resultOf vm.libc (w.heap.rawget w.heap.globals (keyOf n)) =
            k.resultOf vm.libc (w.heap.rawget w.heap.globals (wholeKey n))) := by
  constructor
  · rintro ⟨reads⟩
    have same (k : Kind) : k.resultOf vm.libc (stored w.heap sets n) =
        k.resultOf vm.libc (expected w.heap sets n) :=
      map_error_injective (fun _ _ => Fault.exception.inj)
        ((outcome_after vm sets alive plain k n).symm.trans (reads k))
    constructor
    · intro name s found
      refine .inr fun k => ?_
      rw [← same k, stored_of_found found]
    · intro absent
      obtain ⟨left, right⟩ := stored_of_none (h := w.heap) absent
      refine .inr fun k => ?_
      rw [← left, ← right, same k]
  · rintro ⟨set, never⟩
    refine ⟨fun k => ?_⟩
    rw [outcome_after vm sets alive plain k n]
    refine congrArg _ ?_
    cases found : last (agree · n) sets with
    | some t =>
      obtain ⟨name, s⟩ := t
      rcases set name s found with rfl | alike
      · rw [stored_of_own_name found]
      · rw [stored_of_found found, alike k]
    | none =>
      obtain ⟨left, right⟩ := stored_of_none (h := w.heap) found
      rw [left, right]
      rcases never found with whole | alike
      · rw [keyOf_eq_whole whole]
      · exact alike k

/-- Two sets of x and one of another name. -/
theorem short_names_form_a_map :
    MapLaw (vmAt .blank 1) (.create .blank)
      [("x", .integer 1), ("y", .boolean true), ("x", .boolean false)] "x" := by
  have own : last (agree · "x") [("x", .integer 1), ("y", .boolean true), ("x", .boolean false)] =
      some ("x", .boolean false) := by decide +kernel
  refine (globals_form_a_map_iff (vmAt .blank 1) (w := .create .blank)
    ⟨by decide, rfl⟩ rfl _ "x").mpr ⟨fun name s found => .inl ?_, fun absent => ?_⟩
  · cases own.symm.trans found
    rfl
  · cases own.symm.trans absent

/-- A set under a longer name is read under its part before a NUL, which was never set. -/
theorem names_agree_up_to_nul : ¬ MapLaw (vmAt .blank 1) (.create .blank)
    [("a\x00b", .integer 1)] "a" := by
  rintro ⟨reads⟩
  have read : outcomeOf (do
      setAll (vmAt .blank 1) [("a\x00b", .integer 1)]
      LuaInterpreter.operation (vmAt .blank 1) .main (Kind.integer.getGlobal "a"))
      (.create .blank) = .ok (.integer 1) := by decide +kernel
  have never : expected Heap.blank [("a\x00b", .integer 1)] "a" = .nil := by decide +kernel
  have law := (reads .integer).symm.trans read
  rw [show (World.create .blank).heap = .blank from rfl, never] at law
  cases law

end Luava
