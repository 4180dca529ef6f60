import Luava.LiftedOperations

/-
The machine does what the confined machine does, on stacks of any height below its own slots.
-/
namespace Luava

open Effects LuaApi Machine

section Rules

variable {bases : Bases} {u w w' : World} {α : Type} {x x' : Wrapper α}

/- Only exceptions are caught, by Java code or at the stub. -/
theorem catchException_other {f : Fault} (run : x w = .error f w')
    (other : ∀ e, f ≠ .exception e) : catchException x w = .error f w' := by
  rw [catchException, run]
  cases f with
  | exception e => exact absurd rfl (other e)
  | _ => rfl

theorem terminate_other {f : Fault} (run : x w = .error f w') (other : ∀ e, f ≠ .exception e) :
    terminate x w = .error f w' := by
  rw [terminate, run]
  cases f with
  | exception e => exact absurd rfl (other e)
  | _ => rfl

theorem follows_catchException (run : Follows bases x x' u w) :
    Follows bases (catchException x) (catchException x') u w := by
  cases run with
  | undefined g u' right open' =>
    subst open'
    exact .stuck (catchException_other right fun _ => Fault.noConfusion)
  | ok a b w' u' left right post =>
    obtain ⟨rfl, lifted⟩ := post
    refine .ok (.ok a) (.ok a) w' u' ?_ ?_ ⟨rfl, lifted⟩
    · rw [catchException, left]
    · rw [catchException, right]
  | error f g w' u' left right post =>
    obtain ⟨rfl, lifted⟩ := post
    by_cases caught : ∃ e, f = .exception e
    · obtain ⟨e, rfl⟩ := caught
      refine .ok (.error e) (.error e) w' u' ?_ ?_ ⟨rfl, lifted⟩
      · rw [catchException, left]
      · rw [catchException, right]
    · have other : ∀ e, f ≠ .exception e := fun e same => caught ⟨e, same⟩
      exact .error f f w' u' (catchException_other left other) (catchException_other right other)
        ⟨rfl, lifted⟩

theorem follows_terminate (run : Follows bases x x' u w) :
    Follows bases (terminate x) (terminate x') u w := by
  cases run with
  | undefined g u' right open' =>
    subst open'
    exact .stuck (terminate_other right fun _ => Fault.noConfusion)
  | ok a b w' u' left right post =>
    refine .ok a b w' u' ?_ ?_ post
    · rw [terminate, left]
    · rw [terminate, right]
  | error f g w' u' left right post =>
    obtain ⟨rfl, lifted⟩ := post
    by_cases thrown : ∃ e, f = .exception e
    · obtain ⟨e, rfl⟩ := thrown
      refine .error .jvmTerminated .jvmTerminated w' u' ?_ ?_ ⟨rfl, lifted⟩
      · rw [terminate, left]
      · rw [terminate, right]
    · have other : ∀ e, f ≠ .exception e := fun e same => thrown ⟨e, same⟩
      exact .error f f w' u' (terminate_other left other) (terminate_other right other)
        ⟨rfl, lifted⟩

/- The handler lets pass what is left open. -/
theorem follows_tryCatch {h : Fault → Wrapper α} (passes : h .undefined = throw .undefined)
    (run : Follows bases x x' u w)
    (handled : ∀ f u' w', Lifted bases u' w' → Follows bases (h f) (h f) u' w') :
    Follows bases (tryCatch x h) (tryCatch x' h) u w := by
  cases run with
  | undefined g u' right open' =>
    subst open'
    have spec : tryCatch x' h u = h .undefined u' := by rw [run_tryCatch, right]
    exact .stuck (spec.trans (congrFun passes u'))
  | ok a b w' u' left right post =>
    refine .ok a b w' u' ?_ ?_ post
    · rw [run_tryCatch, left]
    · rw [run_tryCatch, right]
  | error f g w' u' left right post =>
    obtain ⟨rfl, lifted⟩ := post
    have whole : tryCatch x h w = h f w' := by rw [run_tryCatch, left]
    have spec : tryCatch x' h u = h f u' := by rw [run_tryCatch, right]
    cases handled f u' w' lifted with
    | undefined g u'' right open' => exact .undefined g u'' (spec.trans right) open'
    | ok a b w'' u'' left right post =>
      exact .ok a b w'' u'' (whole.trans left) (spec.trans right) post
    | error f' g w'' u'' left right post =>
      exact .error f' g w'' u'' (whole.trans left) (spec.trans right) post

end Rules

section Upcalls

variable {bases : Bases} {u w : World} {vm vm' : VM} (follows : vm.Follows vm')

include follows

theorem follows_runJava (code : JavaCode) (lifted : Lifted bases u w) :
    Follows bases (runJava vm code) (Confined.runJava vm' code) u w := by
  induction code generalizing u w with
  | ret result => exact .pure lifted result
  | throws e => exact .throws lifted _
  | op o next ih =>
    rw [runJava, Confined.runJava]
    by_cases closes : o = .close
    · rw [if_pos closes]
      exact .stuck (run_throw _ u)
    · rw [if_neg closes]
      apply Follows.bind (follows_catchException (follows_operation follows closes lifted))
      intro outcome u' w' lifted'
      exact ih outcome lifted'

theorem follows_invoke (id : Nat) (method : Method JavaCode) (args : List Object)
    (lifted : Lifted bases u w) :
    Follows bases (LuaInterpreter.invoke (runJava vm) id method args)
      (LuaInterpreter.invoke (Confined.runJava vm') id method args) u w := by
  unfold LuaInterpreter.invoke
  cases method.access with
  | some e => exact .throws lifted _
  | none =>
    refine .ite (fun _ => .throws lifted _) fun _ => ?_
    have noted : Lifted bases { u with invocations := (id, args) :: u.invocations }
        { w with invocations := (id, args) :: w.invocations } :=
      lifted.changed (fun s => { s with invocations := (id, args) :: s.invocations })
        (fun L => ⟨Lifted.same_stacks rfl rfl L, Lifted.same_stacks rfl rfl L⟩) rfl rfl
        lifted.sound le_rfl
    apply Follows.step (run_modify _ w) (run_modify _ u)
    refine follows_tryCatch ?_ (follows_runJava follows (method.body args) noted) ?_
    · rfl
    · intro f u' w' lifted'
      cases f <;> exact .throws lifted' _

theorem follows_invokeMethod (id : Nat) (method : Method JavaCode) (lifted : Lifted bases u w) :
    Follows bases (LuaInterpreter.invokeMethod vm .main (runJava vm) id method)
      (LuaInterpreter.invokeMethod vm' .main (Confined.runJava vm') id method) u w := by
  apply Follows.bind (follows_getValues follows.libc follows.finest method.parameterTypes lifted)
  intro args u₁ w₁ read
  refine follows_tryCatch ?_ ?_ ?_
  · rfl
  · apply Follows.bind (follows_invoke follows id method args read)
    intro result u₂ w₂ invoked
    refine .ite (fun _ => ?_) fun _ => .pure invoked 0
    apply Follows.step (run_modify _ w₂) (run_modify _ u₂)
    apply Follows.bind (follows_pushObject result (invoked.addStep _ _))
    intro _ u₃ w₃ pushed
    exact .pure pushed 1
  · intro f u' w' lifted'
    cases f <;> exact .throws lifted' _

theorem follows_upcall (program : Program) (L : ThreadId) (stub : Nat)
    (lifted : Lifted bases u w) :
    Follows bases (upcall program vm L stub) (Confined.upcall program vm' L stub) u w := by
  apply Follows.step (run_get w) (run_get u)
  by_cases arena : u.arenaOpen = true
  · have both : w.arenaOpen = true := lifted.arenaOpen.trans arena
    simp only [arena, both, Bool.not_true, lifted.callbacks]
    cases u.callbacks[stub]? with
    | none => exact .stuck (run_throw _ u)
    | some callback =>
      cases callback with
      | method id => exact follows_terminate (follows_invokeMethod follows id _ lifted)
      | function id =>
        apply Follows.bind (follows_terminate (follows_runJava follows _ lifted))
        intro result u' w' lifted'
        cases result <;> exact .pure lifted' _
  · have closed : (!u.arenaOpen) = true := by simpa using arena
    exact Stuck.follows ⟨u, congrFun (if_pos closed) u⟩

omit follows in
theorem follows_precallC {f f' : Wrapper Nat} (L : ThreadId) (locals : List Value) (fn : Value)
    (args : List Value) (run : ∀ u w, Lifted bases u w → Follows bases f f' u w)
    (lifted : Lifted bases u w) :
    Follows bases (precallC L locals fn args f) (Confined.precallC L locals fn args f') u w := by
  apply Follows.step (run_get w) (run_get u)
  have entered := lifted.setThread (s := ⟨args.reverse ++ fn :: (locals ++ (u.thread L).slots),
    (locals ++ (u.thread L).slots).length,
    (args.reverse ++ fn :: (locals ++ (u.thread L).slots)).length + LUA_MINSTACK⟩)
    (t := ⟨args.reverse ++ fn :: (locals ++ (w.thread L).slots),
    (locals ++ (w.thread L).slots).length,
    (args.reverse ++ fn :: (locals ++ (w.thread L).slots)).length + LUA_MINSTACK⟩) L (by
      rw [lifted.slots L]
      simp only [List.append_assoc, List.cons_append])
  apply Follows.step (run_modify _ w) (run_modify _ u)
  apply Follows.bind (run _ _ entered)
  intro n u' w' lifted'
  have read (v : World) : getThread L v = .ok (v.thread L) v := rfl
  apply Follows.step (read w') (read u')
  by_cases few : (u'.thread L).top < n
  · rw [if_pos few]
    exact .stuck (run_throw _ _)
  · rw [if_neg few]
    have taken : (w'.thread L).slots.take n = (u'.thread L).slots.take n := by
      rw [lifted'.slots L, List.take_append_of_le_length (not_lt.mp few)]
    rw [taken]
    apply Follows.step (run_modify _ w') (run_modify _ u')
    exact .pure (lifted.unwound lifted' L) _

/- The induction is on the code, for all threads and all states. -/
theorem follows_runLua (program : Program) (L : ThreadId) (code : LuaCode)
    (lifted : Lifted bases u w) :
    Follows bases (runLua program vm L code) (Confined.runLua program vm' L code) u w := by
  induction code generalizing L u w with
  | ret results => exact .pure lifted results
  | error e => exact .throws lifted _
  | access update next ih =>
    apply Follows.step (run_get w) (run_get u)
    apply Follows.step (run_modify _ w) (run_modify _ u)
    rw [lifted.heap]
    exact ih u.heap L (lifted.withHeap (update u.heap))
  | upcall locals stub args next ih =>
    apply Follows.bind (follows_protected L lifted (follows_precallC L locals _ args
      (fun _ _ => follows_upcall follows program L stub) lifted))
    intro outcome u' w' lifted'
    exact ih outcome L lifted'
  | resume locals fn frame co body next inner ih =>
    apply Follows.step (run_get w) (run_get u)
    have entered := lifted.setThread (s := ⟨frame ++ fn :: (locals ++ (u.thread L).slots),
      (locals ++ (u.thread L).slots).length,
      (frame ++ fn :: (locals ++ (u.thread L).slots)).length + LUA_MINSTACK⟩)
      (t := ⟨frame ++ fn :: (locals ++ (w.thread L).slots),
      (locals ++ (w.thread L).slots).length,
      (frame ++ fn :: (locals ++ (w.thread L).slots)).length + LUA_MINSTACK⟩) L (by
        rw [lifted.slots L]
        simp only [List.append_assoc, List.cons_append])
    apply Follows.step (run_modify _ w) (run_modify _ u)
    apply Follows.bind (follows_protected (.coroutine co) entered (inner (.coroutine co) entered))
    intro outcome u' w' lifted'
    apply Follows.step (run_modify _ w') (run_modify _ u')
    exact ih outcome L (lifted.unwound lifted' L)

end Upcalls

/-- The slots of the main stack belong to what lies below. -/
def Bases.under (slots : List Value) (bases : Bases) : Bases where
  slots
    | .main => slots ++ bases .main
    | L => bases L
  floor := bases.floor
  within := by
    rw [List.length_append]
    exact bases.within.trans (Nat.le_add_left _ _)

section Isolation

variable {bases : Bases} {u w : World} {α : Type} {x x' : Wrapper α}

theorem Lifted.isolated (lifted : Lifted bases u w) :
    Lifted (bases.under u.main.slots) { u with main := { u.main with slots := [] } } w where
  slots := by
    intro L
    cases L with
    | main => exact lifted.main
    | coroutine id => exact lifted.slots (.coroutine id)
  store := lifted.store
  sound := lifted.sound
  low := lifted.low

theorem Lifted.restored {slots : List Value} (lifted : Lifted (bases.under slots) u w) :
    Lifted bases { u with main := { u.main with slots := u.main.slots ++ slots } } w where
  slots := by
    intro L
    cases L with
    | main => exact lifted.main.trans (List.append_assoc _ _ _).symm
    | coroutine id => exact lifted.slots (.coroutine id)
  store := lifted.store
  sound := lifted.sound
  low := lifted.low

theorem isolate_ok {a : α} {u' : World}
    (run : x { u with main := { u.main with slots := [] } } = .ok a u') :
    Confined.isolate x u =
      .ok a { u' with main := { u'.main with slots := u'.main.slots ++ u.main.slots } } := by
  rw [Confined.isolate, run]

theorem isolate_error {f : Fault} {u' : World}
    (run : x { u with main := { u.main with slots := [] } } = .error f u') :
    Confined.isolate x u =
      .error f { u' with main := { u'.main with slots := u'.main.slots ++ u.main.slots } } := by
  rw [Confined.isolate, run]

theorem follows_isolate (run : ∀ bases u w, Lifted bases u w → Follows bases x x' u w)
    (lifted : Lifted bases u w) : Follows bases x (Confined.isolate x') u w := by
  cases run _ _ w lifted.isolated with
  | undefined g u' right open' => exact .undefined g _ (isolate_error right) open'
  | ok a b w' u' left right post =>
    exact .ok a b w' _ left (isolate_ok right) ⟨post.1, post.2.restored⟩
  | error f g w' u' left right post =>
    exact .error f g w' _ left (isolate_error right) ⟨post.1, post.2.restored⟩

theorem isolate_high (x : Wrapper α) (u : World) :
    Ensures (Confined.isolate x) u (fun _ u' => u.main.top ≤ u'.main.top) fun _ _ => True := by
  unfold Ensures Confined.isolate
  cases run : x { u with main := { u.main with slots := [] } } with
  | ok a u' =>
    show u.main.slots.length ≤ (u'.main.slots ++ u.main.slots).length
    rw [List.length_append]
    exact Nat.le_add_left _ _
  | error f u' => exact trivial

end Isolation

/-- At every depth the machine follows the confined machine. -/
theorem follows_vmAt (program : Program) (depth : Nat) :
    (Machine.vmAt program depth).Follows (Confined.vmAt program depth) := by
  induction depth with
  | zero =>
    refine ⟨?_, ?_, rfl⟩
    · intro f args bases u w lifted
      exact .throws lifted _
    · intro f args u
      exact trivial
  | succ depth ih =>
    refine ⟨?_, ?_, rfl⟩
    · intro callee args bases u w lifted
      refine follows_isolate ?_ lifted
      intro bases u w lifted
      apply Follows.step (run_get w) (run_get u)
      have counted := lifted.withCalls (congrArg (· + 1) lifted.calls)
      apply Follows.step (run_set _ w) (run_set _ u)
      have back {u' w' : World} (results : List Value) (lifted' : Lifted bases u' w') :
          Follows bases
            (do modify fun w' => { w' with calls := w.calls }; return results)
            (do modify fun w' => { w' with calls := u.calls }; return results) u' w' := by
        apply Follows.step (run_modify _ w') (run_modify _ u')
        exact .pure (lifted'.withCalls lifted.calls) results
      have same : w.heap.precall Heap.MAX_CCMT callee args =
          u.heap.precall Heap.MAX_CCMT callee args := by rw [lifted.heap]
      rw [same]
      cases u.heap.precall Heap.MAX_CCMT callee args with
      | fail e => exact .raised counted e
      | function f args =>
        cases f with
        | cfunction stub =>
          exact .bind (follows_precallC .main [] _ args
            (fun _ _ => follows_upcall ih program .main stub) counted)
            fun results _ _ lifted' => back results lifted'
        | closure id =>
          exact .bind (follows_runLua ih program .main _ counted)
            fun results _ _ lifted' => back results lifted'
    · intro callee args u
      exact isolate_high _ u

end Luava
