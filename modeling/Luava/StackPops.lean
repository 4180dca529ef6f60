import Luava.CallbackLaws

/-
The typed pops. A value that is refused is refused before anything has been changed, so a pop
either takes the top slot or leaves the stack alone.
-/
namespace Luava

open Effects LuaApi

/-- x returns and has taken the top slot, or it throws and has left every slot as it was. -/
inductive AllOrNothing {α : Type} (x : Wrapper α) (w : World) : Prop
  | all (a : α) (v : Value) (below : List Value) (r : Record) (top : w.main.slots = v :: below)
      (run : x w = .ok a (w.withMain below r))
  | nothing (e : JavaException) (r : Record)
      (run : x w = .error (.exception e) (w.withMain w.main.slots r))

theorem all_or_nothing_of_remaining {α : Type} {x : Wrapper α} {w : World} {v : Value}
    {below : List Value} {a : Except JavaException α} {r : Record}
    (top : w.main.slots = v :: below)
    (run : x w = (w.withMain (LuaStack.remaining a v below) r).settle a) : AllOrNothing x w := by
  cases a with
  | ok b => exact .all b v below r top run
  | error e =>
    apply AllOrNothing.nothing e r
    rw [run, top]
    rfl

theorem pops_are_all_or_nothing (vm : VM) {w : World} (alive : w.Alive)
    (present : w.main.slots ≠ []) :
    AllOrNothing (LuaStack.popBoolean .main) w ∧
    AllOrNothing (LuaStack.popString vm .main) w ∧
    AllOrNothing (LuaStack.popNumber vm .main) w ∧
    AllOrNothing (LuaStack.popInteger vm .main) w ∧
    ∀ c, AllOrNothing (LuaStack.popObject vm .main c) w := by
  obtain ⟨v, below, top⟩ := List.exists_cons_of_ne_nil present
  have tolerant : True ∧ True := ⟨trivial, trivial⟩
  refine ⟨?_, ?_, ?_, ?_, ?_⟩
  · obtain ⟨r, run, _⟩ := LuaStack.run_popBoolean alive top (P := fun _ => True) tolerant
    exact .all _ v below r top run
  · obtain ⟨r, run, _⟩ := LuaStack.run_popString vm alive top (P := fun _ => True) tolerant
    exact all_or_nothing_of_remaining top run
  · obtain ⟨r, run, _⟩ := LuaStack.run_popNumber vm alive top (P := fun _ => True) tolerant
    exact all_or_nothing_of_remaining top run
  · obtain ⟨r, run, _⟩ := LuaStack.run_popInteger vm alive top (P := fun _ => True) tolerant
    exact all_or_nothing_of_remaining top run
  · intro c
    obtain ⟨r, run, _⟩ := LuaStack.run_popObject vm alive top (P := fun _ => True) tolerant c
    exact all_or_nothing_of_remaining top run

/- Frames of several slots, with a string and with a table on top. -/
def stringOnTop : World :=
  (World.create .blank).withMain [.literal "5", .integer 1, .table 1, .boolean true, .nil]
    ⟨0, [], []⟩

def tableOnTop : World :=
  (World.create .blank).withMain [.table 1, .float ⟨0x4004000000000000⟩, .nil] ⟨0, [], []⟩

theorem pops_of_mixed_frames_are_all_or_nothing :
    (AllOrNothing (LuaStack.popBoolean .main) stringOnTop ∧
      AllOrNothing (LuaStack.popString (Machine.vmAt .blank 0) .main) stringOnTop ∧
      AllOrNothing (LuaStack.popNumber (Machine.vmAt .blank 0) .main) stringOnTop ∧
      AllOrNothing (LuaStack.popInteger (Machine.vmAt .blank 0) .main) stringOnTop ∧
      AllOrNothing (LuaStack.popObject (Machine.vmAt .blank 0) .main .long) stringOnTop) ∧
    AllOrNothing (LuaStack.popString (Machine.vmAt .blank 0) .main) tableOnTop ∧
    AllOrNothing (LuaStack.popObject (Machine.vmAt .blank 0) .main .double) tableOnTop := by
  have opened : Status.opened ≠ .closed := by decide
  obtain ⟨boolean, string, number, integer, object⟩ :=
    pops_are_all_or_nothing (Machine.vmAt .blank 0) (w := stringOnTop) ⟨opened, rfl⟩
      (List.cons_ne_nil _ _)
  obtain ⟨_, refused, _, _, unconverted⟩ :=
    pops_are_all_or_nothing (Machine.vmAt .blank 0) (w := tableOnTop) ⟨opened, rfl⟩
      (List.cons_ne_nil _ _)
  exact ⟨⟨boolean, string, number, integer, object .long⟩, refused, unconverted .double⟩

end Luava
