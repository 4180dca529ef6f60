import Luava.Lowering

/-
The arguments of an upcall. They are addressed from the top of the stack by the number of
parameters, and the number of arguments Lua passed is not consulted.
-/
namespace Luava

open Effects LuaApi Machine

/- What the first step records stays recorded. -/
theorem recorded_first {α β : Type} {x : Wrapper α} {f : α → Wrapper β} (w : World)
    (rest : ∀ a, Lowers 0 (f a)) :
    (endOf x w).record.failed <:+ (endOf (x >>= f) w).record.failed := by
  unfold endOf
  rw [run_bind]
  cases x w with
  | ok a w' => exact (rest a w').failed
  | error g w' => exact List.suffix_refl _

section

variable (vm : VM) {w : World}

/- A read below the frame fails the check of its index. -/
theorem index_below_frame {idx : Int} (negative : idx < 0)
    (below : w.main.top - w.main.func ≤ idx.natAbs) :
    .invalidIndex :: w.record.failed <:+ (endOf (index2stack .main idx) w).record.failed := by
  have checked : (endOf (apiCheck (idx ≠ 0 ∧ idx.natAbs < w.main.top - w.main.func)
      .invalidIndex) w).record.failed = .invalidIndex :: w.record.failed := by
    rw [apiCheck, endOf, run_modify, World.check, if_neg (by omega)]
    rfl
  have same : endOf (index2stack .main idx) w = endOf (do
      apiCheck (idx ≠ 0 ∧ idx.natAbs < w.main.top - w.main.func) .invalidIndex
      if idx ≠ 0 ∧ idx.natAbs ≤ w.main.top then return some (idx.natAbs - 1)
      else throw .undefined : Wrapper (Option Nat)) w := by
    rw [index2stack, endOf, bind_of_ok run_getThread, if_neg (by omega)]
    rfl
  rw [same, ← checked]
  refine recorded_first w fun _ => ?_
  split
  · exact .pure _
  · exact .throws _

theorem luaType_entered {idx : Int} (alive : w.Alive) :
    endOf (luaType .main idx) w = endOf (do
      match ← index2value .main idx with
      | some v => return (LuaType.ofValue v).type
      | none => return LuaType.none.type : Wrapper Int) w := by
  rw [luaType, endOf, bind_of_ok (run_enter alive)]
  rfl

theorem read_below_frame {idx : Int} (c : JavaClass) (alive : w.Alive) (negative : idx < 0)
    (below : w.main.top - w.main.func ≤ idx.natAbs) :
    .invalidIndex :: w.record.failed <:+
      (endOf (LuaStack.toObject vm .main idx c) w).record.failed := by
  refine (index_below_frame negative below).trans ?_
  have value : (endOf (index2stack .main idx) w).record.failed <:+
      (endOf (index2value .main idx) w).record.failed := recorded_first w fun position => by
    cases position with
    | none => exact .pure _
    | some i => exact (lowers_getThread .main).bind fun s => .pure _
  have code : (endOf (index2value .main idx) w).record.failed <:+
      (endOf (luaType .main idx) w).record.failed := by
    rw [luaType_entered alive]
    refine recorded_first w fun v => ?_
    cases v <;> exact .pure _
  have type : (endOf (luaType .main idx) w).record.failed <:+
      (endOf (LuaStack.getType .main idx) w).record.failed := recorded_first w fun type => by
    split
    · exact .pure _
    · exact lowers_throwJava _
  exact value.trans (code.trans (type.trans (recorded_first w (lowers_convert vm idx c))))

/- More parameters than the frame has slots above its function. -/
theorem arguments_below_frame (types : List JavaClass) (alive : w.Alive)
    (below : w.main.top - w.main.func ≤ types.length) (some : types ≠ []) :
    .invalidIndex :: w.record.failed <:+
      (endOf (LuaStack.getValues vm .main types) w).record.failed := by
  obtain ⟨type, types, rfl⟩ := List.exists_cons_of_ne_nil some
  have index : ((0 : Nat) : Int) - (type :: types).length < 0 := by
    simp only [List.length_cons]; omega
  have first := read_below_frame vm type alive index (by omega)
  have all : _ <:+ (endOf (LuaStack.toObjects vm .main (type :: types).length 0 (type :: types))
      w).record.failed := recorded_first w fun _ =>
    (lowers_toObjects vm _ (0 + 1) types).bind fun _ => .pure _
  refine first.trans (all.trans (recorded_first w fun _ => ?_))
  split
  · exact (lowers_printStack vm).bind fun _ => .pure _
  · exact .pure _

end

namespace LuaStack

variable (libc : Libc)

/- The index matters for the message of a refused conversion only. -/
theorem object_of_index (i j : Int) (c : JavaClass) (v : Value) (o : Object) :
    objectOf libc i c v = .ok o ↔ objectOf libc j c v = .ok o := by
  have string : (Object.string <$> stringOf libc i v = .ok o) ↔
      Object.string <$> stringOf libc j v = .ok o := by
    unfold stringOf
    split_ifs <;> simp [Functor.map, Except.map]
  have number : (Object.double <$> numberOf libc i v = .ok o) ↔
      Object.double <$> numberOf libc j v = .ok o := by
    unfold numberOf
    cases Coercions.tonumber libc v <;> simp [Functor.map, Except.map]
  have integer : (Object.long <$> integerOf libc i v = .ok o) ↔
      Object.long <$> integerOf libc j v = .ok o := by
    unfold integerOf
    cases Coercions.tointeger libc v <;> simp [Functor.map, Except.map]
  unfold objectOf
  split_ifs
  · rfl
  · rfl
  · exact integer
  · exact number
  · exact string
  · rfl

theorem objects_of_slots {n i : Nat} {types : List JavaClass} {slots : List Value}
    {os : List Object} :
    objectsOf libc n i types slots = .ok os ↔ os.length = types.length ∧
      ∀ j t o, types[j]? = some t → os[j]? = some o →
        objectOf libc (-1) t (slots.getD (n - 1 - (i + j)) .nil) = .ok o := by
  induction types generalizing i os with
  | nil =>
    constructor
    · intro ok
      cases ok
      exact ⟨rfl, by simp⟩
    · rintro ⟨length, _⟩
      rw [List.length_eq_zero_iff.mp length]
      rfl
  | cons type types ih =>
    rw [objectsOf]
    constructor
    · intro ok
      cases first : objectOf libc ((i : Int) - n) type (slots.getD (n - 1 - i) .nil) with
      | error e => rw [first] at ok; cases ok
      | ok o =>
        cases rest : objectsOf libc n (i + 1) types slots with
        | error e => rw [first, rest] at ok; cases ok
        | ok os' =>
          rw [first, rest] at ok
          cases ok
          obtain ⟨length, converted⟩ := ih.mp rest
          refine ⟨congrArg (· + 1) length, fun j t o type object => ?_⟩
          cases j with
          | zero =>
            cases type
            cases object
            exact (object_of_index libc _ _ _ _ _).mp first
          | succ j =>
            rw [show i + (j + 1) = i + 1 + j by omega]
            exact converted j t o type object
    · rintro ⟨length, converted⟩
      cases os with
      | nil => simp at length
      | cons o os =>
        have first := (object_of_index libc (-1) ((i : Int) - n) _ _ _).mp
          (converted 0 type o rfl rfl)
        have rest : objectsOf libc n (i + 1) types slots = .ok os := by
          refine ih.mpr ⟨Nat.succ.inj length, fun j t o type object => ?_⟩
          rw [show i + 1 + j = i + (j + 1) by omega]
          exact converted (j + 1) t o (by simpa using type) (by simpa using object)
        rw [Nat.add_zero] at first
        rw [first, rest]
        rfl

/- The slots on top hold the last arguments. -/
theorem objects_of_arguments {types : List JavaClass} {args rest : List Value} {os : List Object}
    (enough : types.length ≤ args.length) :
    objectsOf libc types.length 0 types (args.reverse ++ rest) = .ok os ↔
      Positional libc types (args.drop (args.length - types.length)) os := by
  have slot {j : Nat} (inside : j < types.length) :
      (args.reverse ++ rest).getD (types.length - 1 - (0 + j)) .nil =
        (args.drop (args.length - types.length)).getD j .nil := by
    simp only [List.getD_eq_getElem?_getD]
    rw [List.getElem?_append_left (by rw [List.length_reverse]; omega),
      List.getElem?_reverse (by omega), List.getElem?_drop]
    congr 2
    omega
  rw [objects_of_slots]
  constructor
  · rintro ⟨length, converted⟩
    refine ⟨length, fun j t o type object => ?_⟩
    rw [← slot (List.getElem?_eq_some_iff.mp type).1]
    exact converted j t o type object
  · rintro ⟨length, converted⟩
    refine ⟨length, fun j t o type object => ?_⟩
    rw [slot (List.getElem?_eq_some_iff.mp type).1]
    exact converted j t o type object

end LuaStack

/- The world a C function is entered in when Lua calls it on the main thread. -/
def calledWith (w : World) (locals : List Value) (fn : Value) (args : List Value) : World :=
  w.setThread ⟨args.reverse ++ fn :: (locals ++ w.main.slots), (locals ++ w.main.slots).length,
    (args.reverse ++ fn :: (locals ++ w.main.slots)).length + LUA_MINSTACK⟩ .main

theorem run_precallC (w : World) (locals : List Value) (fn : Value) (args : List Value)
    (f : Wrapper Nat) :
    precallC .main locals fn args f w = (do
      let n ← f
      let results := ((← getThread .main).slots.take n).reverse
      modify fun (w' : World) => w'.unwind .main w
      return results) (calledWith w locals fn args) := rfl

/-- The objects handed to the method are the arguments, converted in order, and no slot but the
   arguments' own is read: no check fails. -/
structure HandsArguments (vm : VM) (types : List JavaClass) (args : List Value) (w : World) :
    Prop where
  handed : ∀ os, outcomeOf (LuaStack.getValues vm .main types) w = .ok os ↔
    Positional vm.libc types args os
  own : (endOf (LuaStack.getValues vm .main types) w).record.failed = w.record.failed

/-- The method is handed its arguments exactly when Lua passed at least as many as it has
   parameters, and the last ones convert like the first ones. -/
theorem hands_arguments_iff (vm : VM) {w : World} (alive : w.Alive) (locals : List Value)
    (fn : Value) (types : List JavaClass) (args : List Value) :
    HandsArguments vm types args (calledWith w locals fn args) ↔
      types.length ≤ args.length ∧ ∀ os,
        Positional vm.libc types (args.drop (args.length - types.length)) os ↔
          Positional vm.libc types args os := by
  have alive' : (calledWith w locals fn args).Alive := ⟨alive.status, alive.arena⟩
  have slots : (calledWith w locals fn args).main.slots =
      args.reverse ++ fn :: (locals ++ w.main.slots) := rfl
  have top : (calledWith w locals fn args).main.top =
      args.length + 1 + (calledWith w locals fn args).main.func := by
    simp [calledWith, World.setThread, LuaState.top]
    omega
  by_cases enough : types.length ≤ args.length
  · rw [and_iff_right enough]
    have inside : types.length ≤ (calledWith w locals fn args).main.slots.length := by
      rw [slots, List.length_append, List.length_reverse]
      omega
    obtain ⟨r, read, gains⟩ := LuaStack.run_getValues vm (P := fun _ => False) alive'
      inside (.inl (by omega)) (.inl (by simp [calledWith, World.setThread, LuaState.top]))
    generalize LuaStack.slotsRead vm.libc _ 0 types _ = slots' at read
    have outcome : outcomeOf (LuaStack.getValues vm .main types) (calledWith w locals fn args) =
        (LuaStack.objectsOf vm.libc types.length 0 types
          (args.reverse ++ fn :: (locals ++ w.main.slots))).mapError .exception := by
      rw [outcomeOf, read, ← slots]
      cases LuaStack.objectsOf vm.libc types.length 0 types
        (calledWith w locals fn args).main.slots <;> rfl
    have handed (os : List Object) :
        outcomeOf (LuaStack.getValues vm .main types) (calledWith w locals fn args) = .ok os ↔
          Positional vm.libc types (args.drop (args.length - types.length)) os := by
      rw [outcome, ← LuaStack.objects_of_arguments vm.libc enough]
      cases LuaStack.objectsOf vm.libc types.length 0 types
        (args.reverse ++ fn :: (locals ++ w.main.slots)) <;> simp [Except.mapError]
    constructor
    · rintro ⟨given, _⟩ os
      rw [← handed os, given os]
    · intro same
      refine ⟨fun os => (handed os).trans (same os), ?_⟩
      have ended : endOf (LuaStack.getValues vm .main types) (calledWith w locals fn args) =
          (calledWith w locals fn args).withMain slots' r := by
        rw [endOf, read]
        cases LuaStack.objectsOf vm.libc types.length 0 types
          (calledWith w locals fn args).main.slots <;> rfl
      rw [ended]
      exact gains.none
  · refine iff_of_false (fun hands => ?_) fun both => enough both.1
    have nonempty : types ≠ [] := by rintro rfl; simp at enough
    have recorded := arguments_below_frame vm types alive' (by omega) nonempty
    have longer := recorded.length_le
    rw [hands.own, List.length_cons] at longer
    omega

/-- As many arguments as parameters. -/
theorem two_arguments_are_handed : HandsArguments (vmAt .blank 0) [.long, .string]
    [.integer 1, .literal "x"] (calledWith (.create .blank) [] (.function (.cfunction 0))
      [.integer 1, .literal "x"]) :=
  (hands_arguments_iff (vmAt .blank 0) ⟨by decide, rfl⟩ [] (.function (.cfunction 0))
    [.long, .string] [.integer 1, .literal "x"]).mpr ⟨by decide, fun _ => Iff.rfl⟩

namespace UpcallArguments

/- A method with one parameter that a chunk calls with two arguments. -/
def program : Program :=
  { Program.blank with
    methods := fun _ => ⟨[.long], .void, none, "take", fun _ => .ret .null⟩
    code := fun _ _ => .upcall [] 0 [.integer 1, .integer 2] fun _ => .ret [] }

end UpcallArguments

open UpcallArguments

/-- The method is handed the second argument. -/
theorem second_argument_is_handed :
    ¬ HandsArguments (vmAt program 0) [.long] [.integer 1, .integer 2] (calledWith
      (.create .blank) [] (.function (.cfunction 0)) [.integer 1, .integer 2]) ∧
    (endOf (runJava (vmAt program 1) (.sequence [.setGlobalFunction "take" 0,
      .exec "take(1, 2)"])) (.create .blank)).invocations = [(0, [.long 2])] := by
  refine ⟨?_, by decide +kernel⟩
  rintro ⟨handed, _⟩
  have second : outcomeOf (LuaStack.getValues (vmAt program 0) .main [.long]) (calledWith
      (.create .blank) [] (.function (.cfunction 0)) [.integer 1, .integer 2]) =
        .ok [.long 2] := by decide +kernel
  have first := ((handed [.long 2]).mp second).converted 0 .long (.long 2) rfl rfl
  cases first

end Luava
