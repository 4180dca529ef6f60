import Luava.ConfinedRuns
import Luava.Runs

/-
What an operation does in two states that differ in their stacks. It does the same in both as long
as no Java method that Lua calls reaches below its own frame: Lua code itself cannot, but the
wrapper reads the arguments of a method from the top of the stack, however many there are.
-/
namespace Luava

open Effects LuaApi Machine

/-- x returns the same value, or ends in the same fault, in both states, and makes the same of
their stores. Each stack keeps its slots at the bottom, and has not been lower meanwhile. -/
inductive EndsAlike {α : Type} (x : Wrapper α) (w₁ w₂ : World) : Prop
  | returned (a : α) (own₁ own₂ : List Value) (w₁' w₂' : World) (left : x w₁ = .ok a w₁')
      (right : x w₂ = .ok a w₂') (store : w₁'.store = w₂'.store) (above₁ : Above w₁ own₁ w₁')
      (above₂ : Above w₂ own₂ w₂')
  | faulted (f : Fault) (w₁' w₂' : World) (left : x w₁ = .error f w₁')
      (right : x w₂ = .error f w₂') (store : w₁'.store = w₂'.store) (leaves₁ : Leaves w₁ f w₁')
      (leaves₂ : Leaves w₂ f w₂')

/- Two runs of one computation without the stack. -/
theorem ends_alike_of_implements {undefined : Fault → Prop} {α : Type} {x : Wrapper α}
    {d : Direct α} {w₁ w₂ : World} (same : w₁.store = w₂.store)
    (first : Implements undefined w₁ x d w₁ fun a b _ => a = b)
    (second : Implements undefined w₂ x d w₂ fun a b _ => a = b)
    (defined : ∀ f s, d w₁.store = .error f s → ¬ undefined f) : EndsAlike x w₁ w₂ := by
  unfold Implements at second
  rw [← same] at second
  cases Simulates.join (V := undefined) first second defined with
  | undefined g t right open' =>
    cases second with
    | ok a b w' s left _ _ => cases left.symm.trans right
    | undefined f s right' open'' => exact absurd open'' (defined f s right')
    | error f f' w' s left right' post =>
      cases left.symm.trans right
      rw [post.1] at open'
      exact absurd open' (defined f' s right')
  | ok a c w₁' w₂' left right post =>
    obtain ⟨b, s, ⟨store₁, own₁, above₁, same₁⟩, ⟨store₂, own₂, above₂, same₂⟩⟩ := post
    rw [same₂, ← same₁] at right
    exact .returned a own₁ own₂ w₁' w₂' left right (store₁.trans store₂.symm) above₁ above₂
  | error e f w₁' w₂' left right post =>
    obtain ⟨g, s, ⟨same₁, store₁, leaves₁⟩, ⟨same₂, store₂, leaves₂⟩⟩ := post
    have fault : f = e := same₂.trans same₁.symm
    rw [fault] at right leaves₂
    exact .faulted e w₁' w₂' left right (store₁.trans store₂.symm) leaves₁ leaves₂

/-- What Lua does when it is called on an empty main stack, by the machine that keeps to its own
slots. -/
def Confined.call (program : Program) (depth : Nat) : DirectCall := fun f args s =>
  match (Confined.vmAt program depth).call .main f args s.bare with
  | .ok results u => .ok results u.store
  | .error e u => .error e u.store

/-- The Java methods that Lua calls in the course of o reach for no slot below their frames, have
their results on the stack, and do not close the state. -/
def Operation.Contained (program : Program) (depth : Nat) (o : Operation) (s : Store) : Prop :=
  s.status = .closed ∨ Ensures (Direct.operation (vmAt program depth)
    (Confined.call program depth) o) s (fun _ _ => True) fun f _ => f ≠ .undefined

namespace FrameIndependence

section Empty

variable {u : World}

/- A frame on an empty stack is left with an empty stack. -/
theorem unwind_empty (empty : u.main.slots = []) (u' : World) :
    (u'.unwind .main u).main.slots = [] := by
  show u'.main.slots.drop (u'.main.slots.length - u.main.slots.length) = []
  rw [empty, List.length_nil, Nat.sub_zero, List.drop_length]

theorem ensures_trivial {α : Type} (x : Wrapper α) (w : World) :
    Ensures x w (fun _ _ => True) fun _ _ => True :=
  ensures_mono (ensures_self x w) (fun _ _ _ => trivial) fun _ _ _ => trivial

theorem precallC_empty {locals args : List Value} {fn : Value} {f : Wrapper Nat}
    (empty : u.main.slots = []) :
    Ensures (Confined.precallC .main locals fn args f) u (fun _ u' => u'.main.slots = [])
      fun _ _ => True := by
  refine ensures_step (run_get u) (ensures_step (run_modify _ u) ?_)
  refine (ensures_bind _ _ _ _ _).mpr (ensures_mono (ensures_trivial f _) ?_ fun _ _ h => h)
  intro n u' _
  refine ensures_step run_getThread ?_
  split
  · exact trivial
  · exact ensures_step (run_modify _ u') (ensures_of_run (run_pure _ _) (unwind_empty empty u'))

/- The induction is on the code: whatever it calls or resumes, it comes back to its own frame. -/
theorem runLua_empty (program : Program) (vm : VM) (code : LuaCode) (empty : u.main.slots = []) :
    Ensures (Confined.runLua program vm .main code) u (fun _ u' => u'.main.slots = [])
      fun _ _ => True := by
  induction code generalizing u with
  | ret results => exact ensures_of_run (run_pure results u) empty
  | error e => exact trivial
  | access update next ih =>
    exact ensures_step (run_get u) (ensures_step (run_modify _ u) (ih u.heap empty))
  | upcall locals stub args next ih =>
    refine (ensures_bind _ _ _ _ _).mpr (ensures_rawrunprotected ?_)
    refine ensures_mono (precallC_empty empty) (fun results u' empty' => ih (.ok results) empty') ?_
    intro f u' _
    cases f with
    | luaError L e =>
      cases L with
      | main => exact ih (.error e) (unwind_empty empty u')
      | coroutine id => trivial
    | _ => trivial
  | resume locals fn frame co body next inner ih =>
    refine ensures_step (run_get u) (ensures_step (run_modify _ u) ?_)
    refine (ensures_bind _ _ _ _ _).mpr (ensures_mono (ensures_trivial _ _) ?_ fun _ _ h => h)
    intro outcome u' _
    exact ensures_step (run_modify _ u') (ih outcome (unwind_empty empty u'))

theorem isolate_empty {α : Type} {x : Wrapper α}
    (run : ∀ u : World, u.main.slots = [] →
      Ensures x u (fun _ u' => u'.main.slots = []) fun _ _ => True) (empty : u.main.slots = []) :
    Ensures (Confined.isolate x) u (fun _ u' => u'.main.slots = []) fun _ _ => True := by
  have alone := run { u with main := { u.main with slots := [] } } rfl
  unfold Ensures at alone ⊢
  unfold Confined.isolate
  cases ends : x { u with main := { u.main with slots := [] } } with
  | ok a u' =>
    simp only [ends] at alone
    show u'.main.slots ++ u.main.slots = []
    rw [alone, empty, List.nil_append]
  | error f u' => exact trivial

/- A call on an empty stack leaves an empty stack. -/
theorem confined_empty (program : Program) (depth : Nat) (f : Value) (args : List Value)
    (empty : u.main.slots = []) :
    Ensures ((Confined.vmAt program depth).call .main f args) u (fun _ u' => u'.main.slots = [])
      fun _ _ => True := by
  cases depth with
  | zero => exact trivial
  | succ depth =>
    refine isolate_empty (fun u empty => ?_) empty
    refine ensures_step (run_get u) (ensures_step (run_set _ u) ?_)
    have back {x : Wrapper (List Value)}
        (run : Ensures x { u with calls := u.calls + 1 } (fun _ u' => u'.main.slots = [])
          fun _ _ => True) :
        Ensures (do
          let results ← x
          modify fun w' : World => { w' with calls := u.calls }
          return results) { u with calls := u.calls + 1 } (fun _ u' => u'.main.slots = [])
          fun _ _ => True := by
      refine (ensures_bind _ _ _ _ _).mpr (ensures_mono run ?_ fun _ _ h => h)
      intro results u' empty'
      exact ensures_step (run_modify _ u') (ensures_of_run (run_pure _ _) empty')
    cases u.heap.precall Heap.MAX_CCMT f args with
    | fail e => exact trivial
    | function f args =>
      cases f with
      | cfunction stub => exact back (precallC_empty empty)
      | closure id => exact back (runLua_empty program _ _ empty)

end Empty

/-- What Lua does in a call does not depend on the slots below it, and leaves them alone, where it
does the same on an empty stack. -/
theorem vmAt_isolated (program : Program) (depth : Nat) :
    (vmAt program depth).Isolated (· = .undefined) (Confined.call program depth) where
  defined := fun _ => Fault.noConfusion
  implements := by
    intro f args w sound
    have lifted := Lifted.bare sound (Nat.min_le_right w.record.low w.main.top)
      (Nat.min_le_left w.record.low w.main.top)
    have kept := (vmAt_lawful program depth).call f args w sound
    have empty := confined_empty program depth f args (u := w.store.bare) rfl
    unfold Ensures at kept empty
    cases (follows_vmAt program depth).call f args _ _ w lifted with
    | undefined g u right open' =>
      refine .undefined g u.store ?_ open'
      rw [Confined.call, right]
    | ok results results' w' u left right post =>
      obtain ⟨same, lifted'⟩ := post
      simp only [left] at kept
      simp only [right] at empty
      refine .ok results results' w' u.store left ?_ ⟨lifted'.store, [], ?_, same, rfl⟩
      · rw [Confined.call, right]
      · have slots := lifted'.main
        rw [empty] at slots
        exact ⟨slots, kept.func, kept.ciTop, lifted'.low, kept.sound sound⟩
    | error g g' w' u left right post =>
      obtain ⟨rfl, lifted'⟩ := post
      simp only [left] at kept
      refine .error g g w' u.store left ?_ ⟨rfl, lifted'.store, ?_⟩
      · rw [Confined.call, right]
      · cases g with
        | exception e => exact kept.elim
        | luaError L e =>
          cases L with
          | main => exact ⟨⟨_, lifted'.main⟩, lifted'.low, kept.sound sound⟩
          | coroutine id => trivial
        | _ => trivial

/- After close an operation does nothing, whatever the stack was. -/
theorem closed_ends_alike (vm : VM) (o : Operation) {w₁ w₂ : World} (closed₁ : w₁.Closed)
    (closed₂ : w₂.Closed) (sound₁ : w₁.Sound) (sound₂ : w₂.Sound) (same : w₁.store = w₂.store) :
    EndsAlike (LuaInterpreter.operation vm .main o) w₁ w₂ := by
  have orderly : (Step.operation o w₁.main w₁.heap w₁.status w₁.calls).Orderly ↔
      (Step.operation o w₂.main w₂.heap w₂.status w₂.calls).Orderly := by
    have status : w₁.status = w₂.status := congrArg Store.status same
    have calls : w₁.calls = w₂.calls := congrArg Store.calls same
    rw [status, calls]
    cases o <;> exact Iff.rfl
  rcases operation_closed vm closed₁ o with ⟨calm₁, run₁⟩ | ⟨wild₁, run₁⟩ <;>
    rcases operation_closed vm closed₂ o with ⟨calm₂, run₂⟩ | ⟨wild₂, run₂⟩
  · exact .faulted _ _ _ run₁ run₂ same ⟨[], (Above.refl sound₁).addStep _⟩
      ⟨[], (Above.refl sound₂).addStep _⟩
  · exact absurd (orderly.mp calm₁) wild₂
  · exact absurd (orderly.mpr calm₂) wild₁
  · exact .faulted _ _ _ run₁ run₂ same trivial trivial

theorem contained_of_result {program : Program} {depth : Nat} {o : Operation} {s : Store}
    {result : OperationResult}
    (ends : (match Direct.operation (vmAt program depth) (Confined.call program depth) o s with
      | .ok result _ => some result
      | .error _ _ => none) = some result) : o.Contained program depth s := by
  refine .inr ?_
  unfold Ensures
  cases run : Direct.operation (vmAt program depth) (Confined.call program depth) o s with
  | ok a s' => trivial
  | error f s' =>
    rw [run] at ends
    cases ends

end FrameIndependence

open FrameIndependence

namespace FrameIndependence

/- The Lua function g passes its arguments on to the method m and returns what m returns. The
   method takes a long, reads a global and returns the long. -/
def heap : Heap :=
  (Heap.blank.rawset 0 (keyOf "g") (.function (.closure 0))).rawset 0 (keyOf "m")
    (.function (.cfunction 0))

def program : Program :=
  { Program.blank with
    code := fun _ args => .upcall [] 0 args fun
      | .ok results => .ret results
      | .error e => .error e
    methods := fun _ => ⟨[.long], .long, none, "", fun args =>
      .op (.getGlobalInteger "y") fun _ => .ret (args.headD .null)⟩ }

def registered : World := { World.create heap with callbacks := [.method 0] }

end FrameIndependence

namespace FrameIndependence

/- A method of a string and a boolean. -/
def pair : Program :=
  { Program.blank with methods := fun _ => ⟨[.string, .boolean], .void, none, "", fun _ =>
      .ret .null⟩ }

/- A number is left on the stack where a table was asked for. -/
def left : World :=
  endOf (runJava (vmAt pair 1) (.sequence [.setGlobalFunction "m" 0, .setGlobalInteger "x" 7,
    .getGlobalTable "x"])) (.create .blank)

end FrameIndependence

end Luava
