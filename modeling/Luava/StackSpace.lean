import Luava.Runs

/-
The stack space of a run. The base frame has 20 slots, and nothing in the wrapper asks for
more: what a step needs is there only when the steps before it left enough.
-/
namespace Luava

open Machine

/-- A run whose steps all find the slots they need fails no check of the stack space. -/
theorem fitting_run_keeps_space (program : Program) (depth : Nat) (java : JavaCode) (heap : Heap)
    (fits : ∀ s ∈ (endOf (runJava (vmAt program depth) java) (World.create heap)).record.steps,
      s.Fits program.insertkey) :
    ∀ v ∈ (endOf (runJava (vmAt program depth) java) (World.create heap)).record.failed,
      v.isSpace = false := by
  intro v member
  have notes := run_notes program depth java (sound_create heap)
  by_contra space
  have earlier := notes.space fits v member (by simpa using space)
  simp [World.create] at earlier

namespace StackSpace

def callOnce (f : LuaFunction) : JavaCode := .op (.call f) fun _ => .ret .null

def twoArguments : JavaCode := callOnce ⟨"f", [.long 1, .long 2], [.long]⟩

end StackSpace

open StackSpace

theorem two_arguments_keep_space :
    (∀ s ∈ (endOf (runJava (vmAt .blank 1) twoArguments) (World.create .blank)).record.steps,
      s.Fits Program.blank.insertkey) ∧
    ∀ v ∈ (endOf (runJava (vmAt .blank 1) twoArguments) (World.create .blank)).record.failed,
      v.isSpace = false := by
  have fits : ∀ s ∈ (endOf (runJava (vmAt .blank 1) twoArguments)
      (World.create .blank)).record.steps, s.Fits Program.blank.insertkey := by decide +kernel
  exact ⟨fits, fitting_run_keeps_space .blank 1 twoArguments .blank fits⟩

/-- A call with 20 arguments needs 21 slots. -/
theorem twenty_arguments_overflow :
    Violation.stackOverflow ∈ (endOf (runJava (vmAt .blank 1)
      (callOnce ⟨"f", List.replicate 20 (.long 0), []⟩)) (World.create .blank)).record.failed := by
  decide +kernel

end Luava
