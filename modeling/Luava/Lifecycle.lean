import Luava.Runs

/-
The end of a state. close frees the Lua state before it consults the arena, and some
operations call a native function before they allocate anything.
-/
namespace Luava

open Machine

/-- A run that closes the interpreter once, outside Lua calls, and then starts no operation that
   skips the arena uses neither a closed state nor a dead stub. -/
theorem orderly_run_is_safe (program : Program) (depth : Nat) (java : JavaCode) (heap : Heap)
    (orderly : ∀ s ∈ (endOf (runJava (vmAt program depth) java) (World.create heap)).record.steps,
      s.Orderly) :
    ∀ v ∈ (endOf (runJava (vmAt program depth) java) (World.create heap)).record.failed,
      v.isLifecycle = false := by
  intro v member
  have notes := run_notes program depth java (sound_create heap)
  by_contra kind
  have guarded : (World.create heap).Guarded False := by simp [World.Guarded, World.create]
  have earlier := notes.lifecycle orderly guarded v member (by simpa using kind)
  simp [World.create] at earlier

namespace Lifecycle

/- After its close the interpreter is only asked for what the arena refuses. -/
def closedOnce : JavaCode :=
  .sequence [.setGlobalInteger "x" 1, .close, .getGlobalInteger "x", .setGlobalString "x" "y",
    .exec "x = 1"]

end Lifecycle

open Lifecycle

theorem reads_after_close_are_safe :
    (∀ s ∈ (endOf (runJava (vmAt .blank 1) closedOnce) (World.create .blank)).record.steps,
      s.Orderly) ∧
    ∀ v ∈ (endOf (runJava (vmAt .blank 1) closedOnce) (World.create .blank)).record.failed,
      v.isLifecycle = false := by
  have orderly : ∀ s ∈ (endOf (runJava (vmAt .blank 1) closedOnce)
      (World.create .blank)).record.steps, s.Orderly := by decide +kernel
  exact ⟨orderly, orderly_run_is_safe .blank 1 closedOnce .blank orderly⟩

/-- A second close frees the state again, and an integer is pushed to a freed state. -/
theorem closed_state_is_used :
    Violation.afterClose ∈ (endOf (runJava (vmAt .blank 1) (.sequence [.close, .close]))
      (World.create .blank)).record.failed ∧
    Violation.afterClose ∈ (endOf (runJava (vmAt .blank 1)
      (.sequence [.close, .setGlobalInteger "x" 1])) (World.create .blank)).record.failed := by
  decide +kernel

end Luava
