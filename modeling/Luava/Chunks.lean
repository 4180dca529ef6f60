import Luava.CallLaws

/-
The execution of a chunk: load and protected call. The text crosses to C as a string that ends at
its first zero.
-/
namespace Luava

open Effects LuaApi Machine

namespace LuaInterpreter

theorem run_exec_refused (vm : VM) {chunk : String} {w : World} {e : LuaError} (alive : w.Alive)
    (refused : vm.load (Utf8.cString (Utf8.encode chunk.toList)) = .error e) :
    ∃ r, exec vm .main chunk w =
      .error (.exception (LowLevelLua.failure vm.libc "luaL_loadstring" e.status e.object))
        (w.withMain (LuaStack.remaining (LuaStack.stringOf vm.libc (-1) e.object) e.object
          w.main.slots) r) := by
  obtain ⟨r, run, _⟩ := LowLevelLua.run_loadString vm chunk alive (P := fun _ => True)
    ⟨trivial, trivial⟩ (.inr trivial)
  rw [refused] at run
  exact ⟨r, bind_of_error run _⟩

theorem run_exec_loaded (vm : VM) {chunk : String} {w : World} {f : Value} (alive : w.Alive)
    (loaded : vm.load (Utf8.cString (Utf8.encode chunk.toList)) = .ok f) :
    ∃ r, exec vm .main chunk w =
      LowLevelLua.pcall vm .main 0 0 (w.withMain (f :: w.main.slots) r) := by
  obtain ⟨r, run, _⟩ := LowLevelLua.run_loadString vm chunk alive (P := fun _ => True)
    ⟨trivial, trivial⟩ (.inr trivial)
  rw [loaded] at run
  exact ⟨r, bind_of_ok run _⟩

/- A protected call returns only when the function it calls returns. -/
theorem pcall_returned (vm : VM) {w w' : World} {f : Value} {below : List Value} (alive : w.Alive)
    (top : w.main.slots = f :: below)
    (run : LowLevelLua.pcall vm .main 0 0 w = .ok ⟨⟩ w') :
    ∃ r rs w₂, vm.call .main f [] (w.withMain below r) = .ok rs w₂ := by
  have called : Ensures (LowLevelLua.pcall vm .main 0 0) w
      (fun _ _ => ∃ r rs w₂, vm.call .main f [] (w.withMain below r) = .ok rs w₂)
      fun _ _ => True := by
    refine LowLevelLua.ensures_checkStatus vm (ensures_luaPcallk (P := fun _ => True) alive
      (rfl : ([] : List Value).length = 0) top trivial (.inr trivial) (.inr trivial) fun r _ => ?_)
    refine ensures_mono (ensures_self _ _) ?_ ?_
    · intro rs w₂ returned r' _
      exact ⟨fun _ => ⟨r, rs, w₂, returned⟩, fun failed => absurd rfl failed⟩
    · intro fault w₂ _
      cases fault with
      | luaError L e =>
        cases L with
        | main =>
          intro r' _
          refine ⟨fun ok => absurd ok e.failed, fun _ => ?_⟩
          exact ensures_mono (ensures_self _ _) (fun _ _ _ => trivial) fun _ _ _ => trivial
        | coroutine id => trivial
      | _ => trivial
  exact ensures_of_ok called run

end LuaInterpreter

/-- exec hands the compiler the whole encoding of its chunk: it sees nothing else of the compiler,
and it returns only where that encoding has been compiled and the function has returned. -/
structure HandsWhole (chunk : String) : Prop where
  text : ∀ (vm : VM) load w, load (Utf8.encode chunk.toList) = vm.load (Utf8.encode chunk.toList) →
    LuaInterpreter.exec { vm with load := load } .main chunk w =
      LuaInterpreter.exec vm .main chunk w
  executed : ∀ (vm : VM) (w w' : World), w.Alive →
    LuaInterpreter.exec vm .main chunk w = .ok ⟨⟩ w' →
    ∃ f r rs w₂, vm.load (Utf8.encode chunk.toList) = .ok f ∧
      vm.call .main f [] (w.withMain w.main.slots r) = .ok rs w₂

namespace Chunks

/- A compiler that takes every text but one, and functions that return nothing. -/
def picky (refused : List UInt8) : VM :=
  { vmAt .blank 0 with
    load := fun text => if text = refused then .error (.run "refused") else .ok .nil
    call := fun _ _ _ => return [] }

theorem picky_executes {chunk : String}
    (other : Utf8.cString (Utf8.encode chunk.toList) ≠ Utf8.encode chunk.toList) :
    ∃ w', LuaInterpreter.exec (picky (Utf8.encode chunk.toList)) .main chunk (.create .blank) =
      .ok ⟨⟩ w' := by
  have loaded : (picky (Utf8.encode chunk.toList)).load
      (Utf8.cString (Utf8.encode chunk.toList)) = .ok .nil := if_neg other
  have alive : (World.create .blank).Alive := ⟨by decide, rfl⟩
  obtain ⟨r, run⟩ := LuaInterpreter.run_exec_loaded (picky (Utf8.encode chunk.toList)) alive loaded
  obtain ⟨w', r', called, _⟩ := LowLevelLua.run_pcall (picky (Utf8.encode chunk.toList)) 0
    ((World.withMain_alive _ _ r).mpr alive) (rfl : ([] : List Value).length = 0) rfl
    (fun r' => .of_returned rfl ((World.withMain_alive _ _ r').mpr
      ((World.withMain_alive _ _ r).mpr alive)) rfl)
  exact ⟨_, run.trans called⟩

/- Where the text is cut, the compiler may take what is left and refuse the whole. -/
theorem cut_chunk_not_whole {chunk : String}
    (other : Utf8.cString (Utf8.encode chunk.toList) ≠ Utf8.encode chunk.toList) :
    ¬ HandsWhole chunk := by
  intro hands
  obtain ⟨w', run⟩ := picky_executes other
  obtain ⟨f, _, _, _, compiled, _⟩ := hands.executed _ _ _ ⟨by decide, rfl⟩ run
  have refused : (picky (Utf8.encode chunk.toList)).load (Utf8.encode chunk.toList) =
      .error (.run "refused") := if_pos rfl
  cases refused.symm.trans compiled

end Chunks

open Chunks

/-- The whole text reaches the compiler exactly when it holds no NUL. -/
theorem hands_whole_iff (chunk : String) : HandsWhole chunk ↔ '\x00' ∉ chunk.toList := by
  rw [← Utf8.cString_encode_eq_iff]
  constructor
  · intro hands
    by_contra other
    exact cut_chunk_not_whole other hands
  · intro whole
    constructor
    · intro vm load w same
      have native : (do
            let segment ← Arena.allocateFrom chunk
            luaLLoadstring { vm with load := load } .main segment) = (do
            let segment ← Arena.allocateFrom chunk
            luaLLoadstring vm .main segment) := by
        simp only [Arena.allocateFrom, bind_assoc, pure_bind, luaLLoadstring,
          Utf8.cString_terminated, whole, same]
      rw [LuaInterpreter.exec, LuaInterpreter.exec, LowLevelLua.loadString,
        LowLevelLua.loadString, native]
      rfl
    · intro vm w w' alive run
      cases loaded : vm.load (Utf8.encode chunk.toList) with
      | error e =>
        obtain ⟨r, thrown⟩ := LuaInterpreter.run_exec_refused vm alive
          ((congrArg vm.load whole).trans loaded)
        cases run.symm.trans thrown
      | ok f =>
        obtain ⟨r, called⟩ := LuaInterpreter.run_exec_loaded vm alive
          ((congrArg vm.load whole).trans loaded)
        obtain ⟨r', rs, w₂, returned⟩ := LuaInterpreter.pcall_returned vm
          ((World.withMain_alive _ _ r).mpr alive) rfl (called.symm.trans run)
        exact ⟨f, r', rs, w₂, rfl, returned⟩

theorem chunk_with_nul_is_cut : ¬ HandsWhole "x = 1\x00error()" :=
  cut_chunk_not_whole (by decide)

end Luava
