import Luava.Lookups

/-
What the operations that run Lua code leave of the stack: the read of a global or of a field, and
the call of a function in protected mode. The Lua code they run keeps the height of the stack of
its caller; whether it keeps the values there is recorded.
-/
namespace Luava

open Effects LuaApi

/-- x returns or throws, and every slot is as it was. -/
inductive Restores {α : Type} (x : Wrapper α) (w : World) : Prop
  | returned (a : α) (w' : World) (run : x w = .ok a w') (stack : w'.main.slots = w.main.slots)
  | thrown (e : JavaException) (w' : World) (run : x w = .error (.exception e) w')
      (stack : w'.main.slots = w.main.slots)

theorem restores_iff_settle {α : Type} {x : Wrapper α} {w w' : World} {a : Except JavaException α}
    (run : x w = w'.settle a) : Restores x w ↔ w'.main.slots = w.main.slots := by
  cases a with
  | ok b =>
    constructor
    · rintro (⟨_, _, ends, stack⟩ | ⟨_, _, ends, _⟩)
      · cases run.symm.trans ends
        exact stack
      · cases run.symm.trans ends
    · intro stack
      exact .returned b w' run stack
  | error e =>
    constructor
    · rintro (⟨_, _, ends, _⟩ | ⟨_, _, ends, stack⟩)
      · cases run.symm.trans ends
      · cases run.symm.trans ends
        exact stack
    · intro stack
      exact .thrown e w' run stack

theorem Restores.stack {α : Type} {x : Wrapper α} {w : World} (restores : Restores x w) :
    (Machine.endOf x w).main.slots = w.main.slots := by
  unfold Machine.endOf
  cases restores with
  | returned a w' run stack => rw [run]; exact stack
  | thrown e w' run stack => rw [run]; exact stack

/-- The lookup of a name in t gives v, whatever has been recorded. The code it runs keeps the height
   of the stack and leaves the given slots below the key. -/
structure Gives (vm : VM) (t : Value) (name : String) (w : World) (v : Value) (below : List Value) :
    Prop where
  alive : w.Alive
  height : below.length = w.main.slots.length
  run : ∀ r, ∃ w₁, lookup vm t (keyOf name) (w.withMain (keyOf name :: w.main.slots) r) = .ok v w₁ ∧
    w₁.Alive ∧ w₁.main.slots.drop 1 = below

namespace Gives

variable {vm : VM} {t v : Value} {name : String} {w : World} {below : List Value}

/- A value that is stored where the access ends. -/
theorem of_stored (alive : w.Alive) (found : w.heap.access t (keyOf name) = .value v) :
    Gives vm t name w v w.main.slots := by
  refine ⟨alive, rfl, fun r => ⟨w.withMain (keyOf name :: w.main.slots) r, ?_, ?_, rfl⟩⟩
  · exact lookup_value vm found
  · exact (w.withMain_alive _ r).mpr alive

theorem addStep (gives : Gives vm t name w v below) (s : Step) :
    Gives vm t name (w.addStep s) v below :=
  ⟨⟨gives.alive.status, gives.alive.arena⟩, gives.height, gives.run⟩

theorem run_getGlobal (gives : Gives vm (.table w.heap.globals) name w v below) :
    ∃ (w₁ : World) (r : Record), LowLevelLua.getGlobal vm .main name w =
      .ok ⟨⟩ (w₁.withMain (v :: below) r) ∧ w₁.Alive := by
  obtain ⟨r, pushed, _⟩ := w.pushed_eq (keyOf name) (fun _ => True) (.inr trivial)
  obtain ⟨w₁, found, opened, kept⟩ := gives.run r
  have global := getGlobal_looks_up vm name gives.alive
  rw [LooksUp, pushed] at global
  unfold Ensures at global
  cases read : LowLevelLua.getGlobal vm .main name w with
  | error f w' =>
    simp only [read] at global
    obtain ⟨w', fault⟩ := global
    cases found.symm.trans fault
  | ok u w' =>
    simp only [read] at global
    obtain ⟨v', w₁', r', value, _, rfl⟩ := global
    cases found.symm.trans value
    exact ⟨w₁, r', by rw [World.answered, kept], opened⟩

theorem run_getFieldType {rest : List Value} (top : w.main.slots = t :: rest)
    (gives : Gives vm t name w v below) :
    ∃ (w₁ : World) (r : Record), LuaTable.getFieldType vm ⟨.main, -1⟩ name w =
      .ok (LuaType.ofValue v) (w₁.withMain (v :: below) r) ∧ w₁.Alive := by
  obtain ⟨r₀, checked, _⟩ := w.check_main (1 < w.main.top - w.main.func) .invalidIndex
    (fun _ => True) (.inr trivial)
  obtain ⟨r, pushed, _⟩ := (w.withMain w.main.slots r₀).pushed_eq (keyOf name) (fun _ => True)
    (.inr trivial)
  obtain ⟨w₁, found, opened, kept⟩ := gives.run r
  have field := getFieldType_looks_up vm name gives.alive top
  rw [LooksUp, checked, pushed] at field
  unfold Ensures at field
  cases read : LuaTable.getFieldType vm ⟨.main, -1⟩ name w with
  | error f w' =>
    simp only [read] at field
    obtain ⟨w', fault⟩ := field
    cases found.symm.trans fault
  | ok type w' =>
    simp only [read] at field
    obtain ⟨v', w₁', r', value, rfl, rfl⟩ := field
    cases found.symm.trans value
    exact ⟨w₁, r', by rw [World.answered, kept], opened⟩

end Gives

/-- How a function called on the main thread ends: with results or with an error that the
   protected call catches, and the slots that are then left of its caller's. -/
inductive CodeEnds (vm : VM) (callee : Value) (args : List Value) (w : World) :
    Except LuaError (List Value) → List Value → Prop
  | returned (rs : List Value) (w₂ : World) (run : vm.call .main callee args w = .ok rs w₂)
      (alive : w₂.Alive) : CodeEnds vm callee args w (.ok rs) w₂.main.slots
  | raised (e : LuaError) (w₂ : World)
      (run : vm.call .main callee args w = .error (.luaError .main e) w₂) (alive : w₂.Alive) :
      CodeEnds vm callee args w (.error e) (World.bottom w.main.slots.length w₂.main.slots)

theorem CodeEnds.of_returned {vm : VM} {callee : Value} {args rs below : List Value}
    {w w₂ : World} (run : vm.call .main callee args w = .ok rs w₂) (alive : w₂.Alive)
    (left : w₂.main.slots = below) : CodeEnds vm callee args w (.ok rs) below :=
  left ▸ .returned rs w₂ run alive

theorem CodeEnds.of_raised {vm : VM} {callee : Value} {args below : List Value} {e : LuaError}
    {w w₂ : World} (run : vm.call .main callee args w = .error (.luaError .main e) w₂)
    (alive : w₂.Alive) (left : World.bottom w.main.slots.length w₂.main.slots = below) :
    CodeEnds vm callee args w (.error e) below :=
  left ▸ .raised e w₂ run alive

namespace LowLevelLua

/- What the protected call leaves above the slots of its caller, and how it ends. -/
def pcallLeaves (libc : Libc) (nresults : Nat) (below : List Value) :
    Except LuaError (List Value) → List Value
  | .ok rs => (moveresults nresults rs).reverse ++ below
  | .error e => LuaStack.remaining (LuaStack.stringOf libc (-1) e.object) e.object below

def pcallOutcome (libc : Libc) : Except LuaError (List Value) → Except JavaException Unit
  | .ok _ => .ok ⟨⟩
  | .error e => .error (failure libc "lua_pcallk" e.status e.object)

/- Where the code of the callee ends, whatever the record says when it starts. -/
theorem pcall_ends (vm : VM) (nresults : Nat) {w : World} {nargs : Nat} {args base : List Value}
    {callee : Value} {outcome : Except LuaError (List Value)} {p : List Value → Prop}
    (alive : w.Alive) (counted : args.length = nargs)
    (top : w.main.slots = args.reverse ++ callee :: base)
    (ends : ∀ r, ∃ below, p below ∧ CodeEnds vm callee args (w.withMain base r) outcome below) :
    ∃ (w' : World) (r : Record) (below : List Value), p below ∧
      pcall vm .main nargs nresults w = (w'.withMain (pcallLeaves vm.libc nresults below outcome)
        r).settle (pcallOutcome vm.libc outcome) ∧ w'.Alive := by
  have run : Ensures (pcall vm .main nargs nresults) w
      (fun u w' => pcallOutcome vm.libc outcome = .ok u ∧
        ∃ (w₂ : World) (r : Record) (below : List Value), p below ∧
          w' = w₂.withMain (pcallLeaves vm.libc nresults below outcome) r ∧ w₂.Alive)
      (fun f w' => ∃ e, f = .exception e ∧ pcallOutcome vm.libc outcome = .error e ∧
        ∃ (w₂ : World) (r : Record) (below : List Value), p below ∧
          w' = w₂.withMain (pcallLeaves vm.libc nresults below outcome) r ∧ w₂.Alive) := by
    refine ensures_checkStatus vm (ensures_luaPcallk (P := fun _ => True) alive counted top trivial
      (.inr trivial) (.inr trivial) fun r _ => ?_)
    obtain ⟨below, left, ended⟩ := ends r
    cases ended with
    | returned rs w₂ run alive₂ =>
      refine ensures_of_run run fun r' _ => ⟨fun _ => ⟨rfl, w₂, r', _, left, rfl, alive₂⟩, ?_⟩
      exact fun failed => absurd rfl failed
    | raised e w₂ run alive₂ =>
      refine ensures_of_fault run fun r' _ => ⟨fun ok => absurd ok e.failed, fun _ => ?_⟩
      have back : (w.recovered w₂ (e.object :: World.bottom base.length w₂.main.slots) r').Alive :=
        ⟨alive₂.status, alive₂.arena⟩
      obtain ⟨r'', popped, _⟩ := LuaStack.run_popString vm (P := fun _ => True) back rfl
        ⟨trivial, trivial⟩
      refine ensures_settle popped ?_ ?_
      · intro message converted
        refine ⟨_, rfl, ?_, _, r'', _, left, rfl, back⟩
        simp only [pcallOutcome, failure, converted]
      · intro refusal refused
        refine ⟨_, rfl, ?_, _, r'', _, left, rfl, back⟩
        simp only [pcallOutcome, failure, refused]
  unfold Ensures at run
  cases ended : pcall vm .main nargs nresults w with
  | ok u w' =>
    simp only [ended] at run
    obtain ⟨ok, w₂, r, below, left, rfl, alive₂⟩ := run
    exact ⟨w₂, r, below, left, by rw [ok]; rfl, alive₂⟩
  | error f w' =>
    simp only [ended] at run
    obtain ⟨e, rfl, bad, w₂, r, below, left, rfl, alive₂⟩ := run
    exact ⟨w₂, r, below, left, by rw [bad]; rfl, alive₂⟩

theorem run_pcall (vm : VM) (nresults : Nat) {w : World} {nargs : Nat}
    {args base below : List Value}
    {callee : Value} {outcome : Except LuaError (List Value)} (alive : w.Alive)
    (counted : args.length = nargs) (top : w.main.slots = args.reverse ++ callee :: base)
    (ends : ∀ r, CodeEnds vm callee args (w.withMain base r) outcome below) :
    ∃ (w' : World) (r : Record), pcall vm .main nargs nresults w =
        (w'.withMain (pcallLeaves vm.libc nresults below outcome) r).settle
          (pcallOutcome vm.libc outcome) ∧ w'.Alive := by
  obtain ⟨w', r, _, rfl, run, alive'⟩ := pcall_ends vm nresults alive counted top
    fun r => ⟨below, rfl, ends r⟩
  exact ⟨w', r, run, alive'⟩

end LowLevelLua

/-- The fate of a call: an argument that cannot be pushed, or what the called code does, with the
   slots it leaves of its caller's. -/
inductive Fate where
  | refused
  | ended (outcome : Except LuaError (List Value)) (below : List Value)

/-- The global of the function's name is found, and the call meets its fate. The code that is run
   keeps the height of the stack. -/
inductive CallRuns (vm : VM) (f : LuaFunction) (w : World) : Fate → Prop
  | refused (callee : Value) (below : List Value)
      (gives : Gives vm (.table w.heap.globals) f.name w callee below)
      (unsupported : f.allPushable = false) : CallRuns vm f w .refused
  | ended (outcome : Except LuaError (List Value)) (below : List Value) (alive : w.Alive)
      (supported : f.allPushable = true) (height : below.length = w.main.slots.length)
      (run : ∀ r, ∃ callee base w₁,
        lookup vm (.table w.heap.globals) (keyOf f.name)
          (w.withMain (keyOf f.name :: w.main.slots) r) = .ok callee w₁ ∧
        w₁.Alive ∧ w₁.main.slots.drop 1 = base ∧
        ∀ r', CodeEnds vm callee (LuaFunction.imagesOf w₁.callbacks.length f.argumentValues).values
          ((w₁.register (LuaFunction.imagesOf w₁.callbacks.length
            f.argumentValues).callbacks).withMain base r') outcome below) :
      CallRuns vm f w (.ended outcome below)

namespace LuaFunction

theorem images_refused {f : LuaFunction} (stub : Nat) (unsupported : f.allPushable = false) :
    ∃ e, (imagesOf stub f.argumentValues).outcome = .error e := by
  cases outcome : (imagesOf stub f.argumentValues).outcome with
  | error e => exact ⟨e, rfl⟩
  | ok u =>
    have all : f.allPushable = true := (images_outcome stub f.argumentValues).mp outcome
    rw [unsupported] at all
    cases all

/- An argument that cannot be pushed leaves the function and the arguments before it. -/
theorem run_call_refused (vm : VM) {f : LuaFunction} {w : World} {callee : Value}
    {below : List Value} (gives : Gives vm (.table w.heap.globals) f.name w callee below)
    (unsupported : f.allPushable = false) :
    ∃ e images w' r, f.call vm .main w =
      .error (.exception e) (World.withMain w' (images ++ callee :: below) r) := by
  obtain ⟨w₁, r, read, opened⟩ := gives.run_getGlobal
  obtain ⟨e, outcome⟩ := images_refused (w₁.withMain (callee :: below) r).callbacks.length
    unsupported
  obtain ⟨r', pushed, _⟩ := run_pushObjects f.argumentValues (P := fun _ => True)
    ((w₁.withMain_alive (callee :: below) r).mpr opened) (.inr trivial)
  rw [outcome] at pushed
  have run := (bind_of_ok read _ : f.call vm .main w = _).trans (bind_of_error pushed _)
  exact ⟨e, _, _, r', run⟩

/- The call goes on with the pops of the results, or with the error that was caught. -/
theorem run_call_ended (vm : VM) {f : LuaFunction} {w : World}
    {outcome : Except LuaError (List Value)} {below : List Value}
    (runs : CallRuns vm f w (.ended outcome below)) :
    ∃ (w' : World) (r : Record), w'.Alive ∧ f.call vm .main w =
      match LowLevelLua.pcallOutcome vm.libc outcome with
      | .ok _ => getResultValues vm .main f (w'.withMain
          (LowLevelLua.pcallLeaves vm.libc f.resultTypes.length below outcome) r)
      | .error e => .error (.exception e) (w'.withMain
          (LowLevelLua.pcallLeaves vm.libc f.resultTypes.length below outcome) r) := by
  obtain _ | ⟨_, _, alive, supported, height, run⟩ := runs
  obtain ⟨r₀, pushed₀, _⟩ := w.pushed_eq (keyOf f.name) (fun _ => True) (.inr trivial)
  obtain ⟨callee, base, w₁, found, opened, kept, ends⟩ := run r₀
  have global := getGlobal_looks_up vm f.name alive
  rw [LooksUp, pushed₀] at global
  unfold Ensures at global
  cases read : LowLevelLua.getGlobal vm .main f.name w with
  | error g w' =>
    simp only [read] at global
    obtain ⟨w', fault⟩ := global
    cases found.symm.trans fault
  | ok u w' =>
    simp only [read] at global
    obtain ⟨v', w₁', r, value, _, rfl⟩ := global
    cases found.symm.trans value
    obtain ⟨r', pushed, _⟩ := run_pushObjects f.argumentValues (P := fun _ => True)
      ((w₁.answered_alive callee r).mpr opened) (.inr trivial)
    have images : (imagesOf (w₁.answered callee r).callbacks.length
        f.argumentValues).outcome = .ok () := (images_outcome _ _).mpr supported
    rw [images] at pushed
    have counted : (imagesOf w₁.callbacks.length f.argumentValues).values.length =
        f.argumentValues.length := by
      rw [images_length, List.takeWhile_eq_self_iff.mpr (List.all_eq_true.mp supported)]
    obtain ⟨w₂, r₂, called, alive₂⟩ := LowLevelLua.run_pcall vm f.resultTypes.length
      (w := (w₁.register (imagesOf w₁.callbacks.length f.argumentValues).callbacks).withMain
        ((imagesOf w₁.callbacks.length f.argumentValues).values.reverse ++ callee :: base) r')
      (by simpa using opened) counted (World.withMain_slots _ _ _) ends
    refine ⟨w₂, r₂, alive₂, ?_⟩
    rw [World.answered_slots, kept] at pushed
    rw [call, bind_of_ok read]
    refine (bind_of_ok pushed _).trans ?_
    cases ended : LowLevelLua.pcallOutcome vm.libc outcome with
    | ok u =>
      rw [ended] at called
      exact bind_of_ok called _
    | error e =>
      rw [ended] at called
      exact bind_of_error called _

end LuaFunction

end Luava
