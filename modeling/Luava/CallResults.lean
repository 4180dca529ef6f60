import Luava.CallLaws

/-
The results of a call. Lua leaves the last result on top of the stack, and the results are popped
with the types from the first on.
-/
namespace Luava

open Effects LuaApi Machine

namespace CallResults

/- The values that pops with the given types meet, the first on top, are converted one by one. -/
theorem objects_ok_iff (libc : Libc) {types : List JavaClass} {vs : List Value} {os : List Object}
    (enough : types.length ≤ vs.length) :
    LuaFunction.objectsOf libc types vs = .ok os ↔ Positional libc types vs os := by
  induction types generalizing vs os with
  | nil =>
    constructor
    · intro ok
      cases ok
      exact ⟨rfl, by simp⟩
    · rintro ⟨length, _⟩
      rw [List.length_eq_zero_iff.mp length]
      rfl
  | cons type types ih =>
    cases vs with
    | nil => simp at enough
    | cons v vs =>
      have enough' : types.length ≤ vs.length := Nat.le_of_succ_le_succ enough
      rw [LuaFunction.objectsOf]
      constructor
      · intro ok
        cases first : LuaStack.objectOf libc (-1) type v with
        | error e => rw [first] at ok; cases ok
        | ok o =>
          cases rest : LuaFunction.objectsOf libc types vs with
          | error e => rw [first, rest] at ok; cases ok
          | ok os' =>
            rw [first, rest] at ok
            cases ok
            obtain ⟨length, converted⟩ := (ih enough').mp rest
            refine ⟨congrArg (· + 1) length, fun i t o type object => ?_⟩
            cases i with
            | zero =>
              cases type
              cases object
              exact first
            | succ i => exact converted i t o type object
      · rintro ⟨length, converted⟩
        cases os with
        | nil => simp at length
        | cons o os =>
          have first := converted 0 type o rfl rfl
          have rest : Positional libc types vs os :=
            ⟨Nat.succ.inj length, fun i t o type object =>
              converted (i + 1) t o (by simpa using type) (by simpa using object)⟩
          rw [List.getD_cons_zero] at first
          rw [first, (ih enough').mpr rest]
          rfl

/-- The global under key is callee, which, applied to the images of the arguments, returns rs.
   Every argument has an image. -/
structure Applies (vm : VM) (w : World) (f : LuaFunction) (key callee : Value) (rs : List Value)
    (w₁ : World) : Prop where
  alive : w.Alive
  found : lookup vm (.table w.heap.globals) key
    ((w.addStep (.operation (.call f) w.main w.heap w.status w.calls)).pushed key) = .ok callee w₁
  opened : w₁.Alive
  images : (LuaFunction.imagesOf w₁.callbacks.length f.argumentValues).outcome = .ok ()
  returns : ∀ r, ∃ w₂, vm.call .main callee
      (LuaFunction.imagesOf w₁.callbacks.length f.argumentValues).values
      ((w₁.register (LuaFunction.imagesOf w₁.callbacks.length f.argumentValues).callbacks).withMain
        (w₁.main.slots.drop 1) r) = .ok rs w₂ ∧ w₂.Alive

/-- What the code comes by under the name as a C string: the results of the function there, or
   none where the lookup or that function fails. -/
inductive Reaches (vm : VM) (w : World) (f : LuaFunction) : Option (List Value) → Prop
  | returns {callee : Value} {rs : List Value} {w₁ : World}
      (applies : Applies vm w f (keyOf f.name) callee rs w₁) : Reaches vm w f (some rs)
  | missing {e : Fault} {w₁ : World} (alive : w.Alive)
      (failed : lookup vm (.table w.heap.globals) (keyOf f.name)
        ((w.addStep (.operation (.call f) w.main w.heap w.status w.calls)).pushed
          (keyOf f.name)) = .error e w₁) : Reaches vm w f none
  | fails {callee : Value} {w₁ : World} (alive : w.Alive)
      (found : lookup vm (.table w.heap.globals) (keyOf f.name)
        ((w.addStep (.operation (.call f) w.main w.heap w.status w.calls)).pushed
          (keyOf f.name)) = .ok callee w₁)
      (opened : w₁.Alive)
      (images : (LuaFunction.imagesOf w₁.callbacks.length f.argumentValues).outcome = .ok ())
      (ends : ∀ r, ∃ e w₂, vm.call .main callee
        (LuaFunction.imagesOf w₁.callbacks.length f.argumentValues).values
        ((w₁.register (LuaFunction.imagesOf w₁.callbacks.length
          f.argumentValues).callbacks).withMain (w₁.main.slots.drop 1) r) = .error e w₂) :
      Reaches vm w f none

theorem outcome_getResultValues (vm : VM) {w : World} (types : List JavaClass) (alive : w.Alive)
    (enough : types.length ≤ w.main.slots.length) :
    outcomeOf (types.mapM (LuaStack.popObject vm .main)) w =
      (LuaFunction.objectsOf vm.libc types w.main.slots).mapError .exception := by
  have ends := LuaFunction.ensures_getResultValues vm types alive (P := fun _ => True)
    ⟨trivial, trivial⟩
  unfold Ensures at ends
  unfold outcomeOf
  cases run : types.mapM (LuaStack.popObject vm .main) w with
  | ok os w' =>
    simp only [run] at ends
    rw [ends.2.1]
    rfl
  | error f w' =>
    simp only [run] at ends
    obtain ⟨r, _, _, ⟨short, _⟩ | ⟨_, e, rfl, refused⟩⟩ := ends
    · omega
    · rw [refused]
      rfl

section

variable {vm : VM} {w w₁ : World} {f : LuaFunction} {callee : Value}

/- The run of call up to the call of the function that was found. -/
theorem run_until_pcall (alive : w.Alive)
    (found : lookup vm (.table w.heap.globals) (keyOf f.name)
      ((w.addStep (.operation (.call f) w.main w.heap w.status w.calls)).pushed (keyOf f.name)) =
        .ok callee w₁)
    (opened : w₁.Alive)
    (images : (LuaFunction.imagesOf w₁.callbacks.length f.argumentValues).outcome = .ok ()) :
    ∃ r, f.call vm .main (w.addStep (.operation (.call f) w.main w.heap w.status w.calls)) =
      (do
        LowLevelLua.pcall vm .main f.argumentValues.length f.resultTypes.length
        LuaFunction.getResultValues vm .main f)
      ((w₁.register (LuaFunction.imagesOf w₁.callbacks.length f.argumentValues).callbacks).withMain
        ((LuaFunction.imagesOf w₁.callbacks.length f.argumentValues).values.reverse ++
          callee :: w₁.main.slots.drop 1) r) ∧
      (LuaFunction.imagesOf w₁.callbacks.length f.argumentValues).values.length =
        f.argumentValues.length := by
  let step := Step.operation (.call f) w.main w.heap w.status w.calls
  have alive' : (w.addStep step).Alive := ⟨alive.status, alive.arena⟩
  have global := getGlobal_looks_up vm f.name alive'
  have found : lookup vm (.table (w.addStep step).heap.globals) (keyOf f.name)
      ((w.addStep step).pushed (keyOf f.name)) = .ok callee w₁ := found
  unfold LooksUp Ensures at global
  cases read : LowLevelLua.getGlobal vm .main f.name (w.addStep step) with
  | error e w' =>
    simp only [read] at global
    obtain ⟨w', fault⟩ := global
    cases found.symm.trans fault
  | ok u w' =>
    simp only [read] at global
    obtain ⟨v, _, r, value, _, rfl⟩ := global
    cases found.symm.trans value
    obtain ⟨r₁, pushed, _⟩ := LuaFunction.run_pushObjects f.argumentValues (P := fun _ => True)
      ((w₁.answered_alive callee r).mpr opened) (.inr trivial)
    have images' : (LuaFunction.imagesOf (w₁.answered callee r).callbacks.length
        f.argumentValues).outcome = .ok () := images
    rw [images'] at pushed
    refine ⟨r₁, ?_, ?_⟩
    · rw [LuaFunction.call, bind_of_ok read]
      exact bind_of_ok pushed _
    · have all := (LuaFunction.images_outcome _ _).mp images
      rw [LuaFunction.images_length, List.takeWhile_eq_self_iff.mpr (List.all_eq_true.mp all)]

/- What call returns: the last result is converted to the first type, and so on. -/
theorem outcome_call {rs : List Value} (applies : Applies vm w f (keyOf f.name) callee rs w₁)
    (few : f.resultTypes.length ≤ MAXRESULTS) :
    ∃ rest, outcomeOf (LuaInterpreter.operation vm .main (.call f)) w =
      ((LuaFunction.objectsOf vm.libc f.resultTypes
        ((moveresults f.resultTypes.length rs).reverse ++ rest)).map .list).mapError
          .exception := by
  obtain ⟨r, run, counted⟩ := run_until_pcall applies.alive applies.found applies.opened
    applies.images
  obtain ⟨w₂, r₂, base, _, called, alive₂⟩ := LowLevelLua.pcall_ends vm f.resultTypes.length
    (p := fun _ => True) (w := (w₁.register (LuaFunction.imagesOf w₁.callbacks.length
      f.argumentValues).callbacks).withMain ((LuaFunction.imagesOf w₁.callbacks.length
        f.argumentValues).values.reverse ++ callee :: w₁.main.slots.drop 1) r)
    (by simpa using applies.opened) counted (World.withMain_slots _ _ _) (by
      intro r
      obtain ⟨w₂, run, alive₂⟩ := applies.returns r
      exact ⟨_, trivial, .returned rs w₂ run alive₂⟩)
  have results := outcome_getResultValues vm f.resultTypes (w := w₂.withMain ((moveresults
    f.resultTypes.length rs).reverse ++ base) r₂) (by simpa using alive₂)
    (by simp [moveresults_length rs few])
  rw [bind_of_ok called] at run
  refine ⟨base, ?_⟩
  rw [World.withMain_slots] at results
  have entered : outcomeOf (LuaInterpreter.operation vm .main (.call f)) w =
      outcomeOf (OperationResult.list <$> f.call vm .main)
        (w.addStep (.operation (.call f) w.main w.heap w.status w.calls)) := rfl
  rw [entered, outcome_map, outcome_congr run]
  have popped : outcomeOf (LuaFunction.getResultValues vm .main f) (w₂.withMain
    (LowLevelLua.pcallLeaves vm.libc f.resultTypes.length base (.ok rs)) r₂) = _ := results
  rw [popped]
  cases LuaFunction.objectsOf vm.libc f.resultTypes
    ((moveresults f.resultTypes.length rs).reverse ++ base) <;> rfl

/- A native call that does not end with LUA_OK ends in an exception, or as it does itself. -/
theorem checkStatus_of_failed {functionName : String} {x : Wrapper Int}
    (failed : Ensures x w (fun status _ => status ≠ LUA_OK) fun _ _ => True) :
    Ensures (LowLevelLua.checkStatus vm .main functionName x) w (fun _ _ => False)
      fun _ _ => True := by
  refine LowLevelLua.ensures_checkStatus vm (ensures_mono failed ?_ fun _ _ _ => trivial)
  intro status w' other
  refine ⟨fun ok => absurd ok other, fun _ => ?_⟩
  exact ensures_mono (ensures_self _ _) (fun _ _ _ => trivial) fun _ _ _ => trivial

/- Without a function that returns, call returns nothing. -/
theorem call_of_none (reaches : Reaches vm w f none) (os : List Object) :
    outcomeOf (LuaInterpreter.operation vm .main (.call f)) w ≠ .ok (.list os) := by
  let step := Step.operation (.call f) w.main w.heap w.status w.calls
  have entered : outcomeOf (LuaInterpreter.operation vm .main (.call f)) w =
      (outcomeOf (f.call vm .main) (w.addStep step)).map .list := outcome_map _ _ _
  have ends : Ensures (f.call vm .main) (w.addStep step) (fun _ _ => False) fun _ _ => True := by
    cases reaches with
    | missing alive failed =>
      have global := getGlobal_looks_up vm f.name (w := w.addStep step) ⟨alive.status, alive.arena⟩
      have failed : lookup vm (.table (w.addStep step).heap.globals) (keyOf f.name)
        ((w.addStep step).pushed (keyOf f.name)) = .error _ _ := failed
      refine (ensures_bind _ _ _ _ _).mpr (ensures_mono global ?_ fun _ _ _ => trivial)
      rintro u w' ⟨v, after, r, value, _⟩
      cases failed.symm.trans value
    | fails alive found opened images ends =>
      obtain ⟨r, run, counted⟩ := run_until_pcall alive found opened images
      unfold Ensures
      rw [run]
      refine (ensures_bind _ _ _ _ _).mpr (ensures_mono (checkStatus_of_failed ?_)
        (fun _ _ no => no.elim) fun _ _ _ => trivial)
      refine ensures_luaPcallk (P := fun _ => True) (by simpa using opened) counted
        (World.withMain_slots _ _ _) trivial (.inr trivial) (.inr trivial) fun r' _ => ?_
      obtain ⟨e, w₂, raised⟩ := ends r'
      refine ensures_of_fault raised ?_
      cases e with
      | luaError L e =>
        cases L with
        | main => exact fun _ _ => e.failed
        | coroutine id => trivial
      | _ => trivial
  rw [entered]
  unfold Ensures at ends
  unfold outcomeOf
  cases run : f.call vm .main (w.addStep step) with
  | ok a w' => simp [run] at ends
  | error e w' => exact fun same => by cases same

end

/- The results rs' of the function the code comes by, against rs. -/
theorem reached_positional_iff {vm : VM} {w w₁ : World} {f : LuaFunction} {callee : Value}
    {rs rs' : List Value} {os : List Object}
    (reached : Applies vm w f (keyOf f.name) callee rs' w₁)
    (few : f.resultTypes.length ≤ MAXRESULTS) (converted : Positional vm.libc f.resultTypes rs os) :
    outcomeOf (LuaInterpreter.operation vm .main (.call f)) w = .ok (.list os) ↔
      ∀ i t, f.resultTypes[i]? = some t →
        LuaStack.objectOf vm.libc (-1) t (rs'.getD (f.resultTypes.length - 1 - i) .nil) =
          LuaStack.objectOf vm.libc (-1) t (rs.getD i .nil) := by
  obtain ⟨rest, outcome⟩ := outcome_call reached few
  have enough : f.resultTypes.length ≤
      ((moveresults f.resultTypes.length rs').reverse ++ rest).length := by
    simp [moveresults_length rs' few]
  have returned : outcomeOf (LuaInterpreter.operation vm .main (.call f)) w = .ok (.list os) ↔
      LuaFunction.objectsOf vm.libc f.resultTypes
        ((moveresults f.resultTypes.length rs').reverse ++ rest) = .ok os := by
    rw [outcome]
    cases LuaFunction.objectsOf vm.libc f.resultTypes
      ((moveresults f.resultTypes.length rs').reverse ++ rest) <;>
        simp [Except.map, Except.mapError]
  have position {i : Nat} {t : JavaClass} (type : f.resultTypes[i]? = some t) :
      ∃ o, os[i]? = some o ∧ LuaStack.objectOf vm.libc (-1) t (rs.getD i .nil) = .ok o ∧
        ((moveresults f.resultTypes.length rs').reverse ++ rest).getD i .nil =
          rs'.getD (f.resultTypes.length - 1 - i) .nil := by
    obtain ⟨inside, _⟩ := List.getElem?_eq_some_iff.mp type
    have object := List.getElem?_eq_getElem (l := os) (i := i) (converted.length ▸ inside)
    exact ⟨_, object, converted.converted i t _ type object, moved_get_reverse rs' rest few inside⟩
  rw [returned, objects_ok_iff vm.libc enough]
  constructor
  · intro popped i t type
    obtain ⟨o, object, direct, opposite⟩ := position type
    rw [direct, ← opposite]
    exact popped.converted i t o type object
  · intro symmetric
    refine ⟨converted.length, fun i t o type object => ?_⟩
    obtain ⟨o', object', direct, opposite⟩ := position type
    cases object'.symm.trans object
    rw [opposite, symmetric i t type, direct]

end CallResults

open CallResults

/-- The function under the name returns rs. call returns them position by position exactly when
   each result of the function the code finds converts like the one of rs at the opposite position.
   That function is the same one, and its results are rs, unless the name has a NUL. -/
theorem call_results_positional_iff {vm : VM} {w w₁ : World} {f : LuaFunction} {callee : Value}
    {rs : List Value} {reached : Option (List Value)} {os : List Object}
    (applies : Applies vm w f (wholeKey f.name) callee rs w₁)
    (reaches : '\x00' ∈ f.name.toList → Reaches vm w f reached)
    (few : f.resultTypes.length ≤ MAXRESULTS) (converted : Positional vm.libc f.resultTypes rs os) :
    outcomeOf (LuaInterpreter.operation vm .main (.call f)) w = .ok (.list os) ↔
      ∃ rs', (if '\x00' ∈ f.name.toList then reached = some rs' else rs' = rs) ∧
        ∀ i t, f.resultTypes[i]? = some t →
          LuaStack.objectOf vm.libc (-1) t (rs'.getD (f.resultTypes.length - 1 - i) .nil) =
            LuaStack.objectOf vm.libc (-1) t (rs.getD i .nil) := by
  by_cases nul : '\x00' ∈ f.name.toList
  · simp only [if_pos nul]
    cases reaches nul with
    | returns cut =>
      rw [reached_positional_iff cut few converted]
      constructor
      · intro symmetric
        exact ⟨_, rfl, symmetric⟩
      · rintro ⟨_, same, symmetric⟩
        cases same
        exact symmetric
    | missing alive failed =>
      exact iff_of_false (call_of_none (.missing alive failed) os) (by rintro ⟨_, no, _⟩; cases no)
    | fails alive found opened images ends =>
      exact iff_of_false (call_of_none (.fails alive found opened images ends) os)
        (by rintro ⟨_, no, _⟩; cases no)
  · simp only [if_neg nul]
    rw [← keyOf_eq_whole nul] at applies
    rw [reached_positional_iff applies few converted, exists_eq_left]

namespace CallResults

/- The global f is a function that returns its arguments. -/
def heap : Heap := Heap.blank.rawset 0 (keyOf "f") (.function (.closure 0))

def program : Program := { Program.blank with code := fun _ args => .ret args }

def threeLongs (a b c : Int64) : LuaFunction :=
  ⟨"f", [.long a, .long b, .long c], [.long, .long, .long]⟩

end CallResults

theorem palindromic_results_are_positional :
    outcomeOf (LuaInterpreter.operation (vmAt program 1) .main (.call (threeLongs 1 2 1)))
      (.create heap) = .ok (.list [.long 1, .long 2, .long 1]) := by
  have outcome : outcomeOf (lookup (vmAt program 1) (.table 0) (wholeKey "f"))
      (((World.create heap).addStep (.operation (.call (threeLongs 1 2 1)) .init heap .opened
        0)).pushed (wholeKey "f")) = .ok (.function (.closure 0)) := by decide +kernel
  have opened : (endOf (lookup (vmAt program 1) (.table 0) (wholeKey "f"))
      (((World.create heap).addStep (.operation (.call (threeLongs 1 2 1)) .init heap .opened
        0)).pushed (wholeKey "f"))).Alive := ⟨by decide +kernel, by decide +kernel⟩
  have applies : Applies (vmAt program 1) (.create heap) (threeLongs 1 2 1) (wholeKey "f")
      (.function (.closure 0)) [.integer 1, .integer 2, .integer 1] _ :=
    { alive := ⟨by decide, rfl⟩
      found := ends_of_outcome outcome
      opened := opened
      images := rfl
      returns := fun r => ⟨_, rfl, opened.status, opened.arena⟩ }
  have converted : Positional (vmAt program 1).libc (threeLongs 1 2 1).resultTypes
      [.integer 1, .integer 2, .integer 1] [.long 1, .long 2, .long 1] :=
    (objects_ok_iff _ (by decide)).mp rfl
  have whole : '\x00' ∈ "f".toList → Reaches (vmAt program 1) (.create heap) (threeLongs 1 2 1)
      none := fun nul => absurd nul (by decide)
  refine (call_results_positional_iff applies whole (by decide) converted).mpr
    ⟨_, rfl, fun i t type => ?_⟩
  obtain ⟨inside, _⟩ := List.getElem?_eq_some_iff.mp type
  rcases i with _ | _ | _ | i
  · rfl
  · rfl
  · rfl
  · simp only [threeLongs, List.length_cons, List.length_nil] at inside
    omega

/-- Two different results come back in the reverse order. -/
theorem two_results_are_reversed :
    outcomeOf ((vmAt program 1).call .main (.function (.closure 0)) [.integer 1, .integer 2])
      (.create heap) = .ok [.integer 1, .integer 2] ∧
    outcomeOf (LuaInterpreter.operation (vmAt program 1) .main
      (.call ⟨"f", [.long 1, .long 2], [.long, .long]⟩)) (.create heap) =
        .ok (.list [.long 2, .long 1]) := by
  decide +kernel

end Luava
