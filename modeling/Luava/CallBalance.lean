import Luava.CallLaws

/-
The stack after LuaFunction.call. Every exit in the middle of a call leaves what has been pushed
up to then; only a call that goes all the way, or fails with an error that has a text, leaves
nothing.
-/
namespace Luava

open Effects LuaApi Machine

/-- The fate of a call that leaves nothing: as many results are popped as Lua left, or the error
object is a string or a number, and the called code did not change the slots below. -/
def Fate.Clean (libc : Libc) (types : List JavaClass) (slots : List Value) : Fate → Prop
  | .refused => False
  | .ended (.ok rs) below =>
    LuaFunction.popCount libc types ((moveresults types.length rs).reverse ++ below) =
      (moveresults types.length rs).length ∧ below = slots
  | .ended (.error e) below => (e.object.isString || e.object.isNumber) = true ∧ below = slots

namespace CallBalance

theorem drop_eq_iff {above below slots : List Value} {k : Nat}
    (height : below.length = slots.length) (present : 0 < slots.length) :
    (above ++ below).drop k = slots ↔ k = above.length ∧ below = slots := by
  constructor
  · intro dropped
    have length := congrArg List.length dropped
    rw [List.length_drop, List.length_append] at length
    have all : k = above.length := by omega
    rw [all, List.drop_left] at dropped
    exact ⟨all, dropped⟩
  · rintro ⟨rfl, rfl⟩
    exact List.drop_left

/- The pops of the results restore the slots below them. -/
theorem results_restore_iff (vm : VM) (types : List JavaClass) {w : World}
    {above below slots : List Value} (alive : w.Alive) (top : w.main.slots = above ++ below)
    (height : below.length = slots.length) (present : 0 < slots.length) :
    ((∃ os w', types.mapM (LuaStack.popObject vm .main) w = .ok os w' ∧ w'.main.slots = slots) ∨
      ∃ e w', types.mapM (LuaStack.popObject vm .main) w = .error (.exception e) w' ∧
        w'.main.slots = slots) ↔
      LuaFunction.popCount vm.libc types (above ++ below) = above.length ∧ below = slots := by
  have ends := LuaFunction.ensures_getResultValues vm types alive (P := fun _ => True)
    ⟨trivial, trivial⟩
  rw [top] at ends
  unfold Ensures at ends
  rw [← drop_eq_iff height present]
  cases run : types.mapM (LuaStack.popObject vm .main) w with
  | ok os w' =>
    simp only [run] at ends
    obtain ⟨_, _, count, r, rfl, _⟩ := ends
    rw [count]
    constructor
    · rintro (⟨_, _, ended, stack⟩ | ⟨_, _, ended, _⟩)
      · cases ended
        exact stack
      · cases ended
    · intro stack
      exact .inl ⟨os, _, rfl, stack⟩
  | error f w' =>
    simp only [run] at ends
    obtain ⟨r, rfl, _, ⟨_, rfl, count⟩ | ⟨_, e, rfl, _⟩⟩ := ends
    · -- the pops went through the whole stack
      refine iff_of_false ?_ ?_
      · rintro (⟨_, _, ended, _⟩ | ⟨_, _, ended, _⟩) <;> cases ended
      · intro dropped
        rw [count, List.drop_length] at dropped
        rw [← dropped] at present
        exact absurd present (Nat.lt_irrefl 0)
    · constructor
      · rintro (⟨_, _, ended, _⟩ | ⟨_, _, ended, stack⟩)
        · cases ended
        · cases ended
          exact stack
      · intro stack
        exact .inr ⟨e, _, rfl, stack⟩

end CallBalance

theorem restores_iff_ends {α : Type} (x : Wrapper α) (w : World) : Restores x w ↔
    (∃ a w', x w = .ok a w' ∧ w'.main.slots = w.main.slots) ∨
      ∃ e w', x w = .error (.exception e) w' ∧ w'.main.slots = w.main.slots := by
  constructor
  · rintro (⟨a, w', run, stack⟩ | ⟨e, w', run, stack⟩)
    · exact .inl ⟨a, w', run, stack⟩
    · exact .inr ⟨e, w', run, stack⟩
  · rintro (⟨a, w', run, stack⟩ | ⟨e, w', run, stack⟩)
    · exact .returned a w' run stack
    · exact .thrown e w' run stack

open CallBalance

/-- call leaves the stack as it was exactly when its fate is a clean one. -/
theorem call_restores_iff {vm : VM} {f : LuaFunction} {w : World} {fate : Fate}
    (runs : CallRuns vm f w fate) (frame : w.main.func < w.main.top) :
    Restores (f.call vm .main) w ↔ fate.Clean vm.libc f.resultTypes w.main.slots := by
  have present : 0 < w.main.slots.length := Nat.zero_lt_of_lt frame
  cases fate with
  | refused =>
    obtain ⟨callee, below, gives, unsupported⟩ := runs
    obtain ⟨e, images, w', r, run⟩ := LuaFunction.run_call_refused vm gives unsupported
    have settled : f.call vm .main w =
        (w'.withMain (images ++ callee :: below) r).settle (.error e) := run
    refine (restores_iff_settle settled).trans (iff_of_false ?_ fun clean => clean)
    intro same
    have length := congrArg List.length same
    rw [World.withMain_slots, List.length_append, List.length_cons, gives.height] at length
    omega
  | ended outcome below =>
    obtain ⟨w', r, alive, run⟩ := LuaFunction.run_call_ended vm runs
    obtain _ | ⟨_, _, _, _, height, _⟩ := runs
    cases outcome with
    | ok rs =>
      have popped : f.call vm .main w = f.resultTypes.mapM (LuaStack.popObject vm .main)
          (w'.withMain ((moveresults f.resultTypes.length rs).reverse ++ below) r) := run
      have ends := results_restore_iff vm f.resultTypes ((w'.withMain_alive _ r).mpr alive)
        (World.withMain_slots w' ((moveresults f.resultTypes.length rs).reverse ++ below) r)
        height present
      rw [List.length_reverse] at ends
      rw [restores_iff_ends, popped]
      exact ends
    | error e =>
      have settled : f.call vm .main w = (w'.withMain (LowLevelLua.pcallLeaves vm.libc
          f.resultTypes.length below (.error e)) r).settle
          (.error (LowLevelLua.failure vm.libc "lua_pcallk" e.status e.object)) := run
      refine (restores_iff_settle settled).trans ?_
      have text := LuaStack.stringOf_ok_iff vm.libc (-1) e.object
      rw [World.withMain_slots, LowLevelLua.pcallLeaves, Fate.Clean, ← text]
      cases LuaStack.stringOf vm.libc (-1) e.object with
      | ok message => simp [LuaStack.remaining]
      | error refusal =>
        refine iff_of_false ?_ (by rintro ⟨⟨s, ok⟩, _⟩; cases ok)
        intro same
        have length := congrArg List.length same
        rw [LuaStack.remaining, List.length_cons, height] at length
        omega

namespace CallBalance

/- The global f is a function that returns its arguments. -/
def heap : Heap := Heap.blank.rawset 0 (keyOf "f") (.function (.closure 0))

def program : Program := { Program.blank with code := fun _ args => .ret args }

theorem one_long_runs : CallRuns (vmAt program 1) ⟨"f", [.long 1], [.long]⟩ (.create heap)
    (.ended (.ok [.integer 1]) [.nil]) := by
  have found : heap.access (.table 0) (keyOf "f") = .value (.function (.closure 0)) := by decide
  have opened : Status.opened ≠ .closed := by decide
  refine .ended _ _ ⟨by decide, rfl⟩ rfl rfl fun r => ?_
  refine ⟨.function (.closure 0), [.nil], _, lookup_value _ found, ⟨opened, rfl⟩, rfl, ?_⟩
  intro r'
  exact .of_returned rfl ⟨opened, rfl⟩ rfl

end CallBalance

theorem call_of_one_long_restores :
    Restores ((⟨"f", [.long 1], [.long]⟩ : LuaFunction).call (vmAt program 1) .main)
      (.create heap) :=
  (call_restores_iff one_long_runs (by decide)).mpr ⟨by decide, rfl⟩

/-- The function stays under an argument that cannot be pushed. -/
theorem refused_argument_leaves_function :
    ¬ Restores ((⟨"f", [.other "java.lang.Object" "o"], []⟩ : LuaFunction).call
      (vmAt program 1) .main) (.create heap) := by
  intro restores
  have left : (endOf ((⟨"f", [.other "java.lang.Object" "o"], []⟩ : LuaFunction).call
      (vmAt program 1) .main) (.create heap)).main.slots =
      [.function (.closure 0), .nil] := by decide +kernel
  exact absurd (left.symm.trans restores.stack) (by decide)

end Luava
