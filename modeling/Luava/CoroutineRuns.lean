import Luava.Coroutines

/-
Whole runs of a body in coroutines: what one call or resumption does, and from it, by induction on
the body, what the run does.
-/
namespace Luava

open Effects LuaApi Machine

section Steps

variable {program : Program} {vm vm' : VM} {s : Store}
  {next : Except LuaError (List Value) → LuaCode}

/-- A call without a stack gives the same on every thread of every state, and spares the stacks of
    the others. -/
theorem stackless_call {locals args : List Value} {stub : Nat} (follows : vm.Follows vm')
    (stackless : (LuaCode.upcall locals stub args next).Stackless program vm' s) :
    (∃ s', (next (.ok [])).Stackless program vm' s' ∧ ∀ L w, w.store = s → w.Sound →
      ∃ w', callJava program vm L locals stub args w = .ok (.ok []) w' ∧ w'.store = s' ∧
        w'.Sound ∧ ∀ T, T ≠ L → (w'.thread T).slots = (w.thread T).slots) ∨
    ∃ s', ∀ L w, w.store = s → w.Sound →
      ∃ w', callJava program vm L locals stub args w = .error .jvmTerminated w' ∧
        w'.store = s' := by
  obtain ⟨id, registered, arena, plain, void, code⟩ := stackless
  cases access : (program.methods id).access with
  | some e =>
    refine .inr ⟨s, ?_⟩
    rintro L w rfl sound
    exact callJava_refused registered arena plain sound access
  | none =>
    have ended := code access
    unfold Ensures at ended
    cases run : Confined.runJava vm' ((program.methods id).body []) (s.invoked id).bare with
    | ok o u =>
      simp only [run] at ended
      refine .inl ⟨_, ended.2, ?_⟩
      rintro L w rfl sound
      obtain ⟨w', called, store, sound', others⟩ :=
        callJava_returns (L := L) follows registered arena plain sound void access run
      refine ⟨w', called, store, sound', ?_⟩
      intro T other
      rw [others T other, ended.1 T, List.nil_append]
    | error f u =>
      simp only [run] at ended
      refine .inr ⟨u.store, ?_⟩
      rintro L w rfl sound
      exact callJava_faults follows registered arena plain sound access ended run

/-- So does the resumption of a coroutine whose code reaches for no slot below its own. -/
theorem stackless_resume {r : Resumption} {body : LuaCode} (follows : vm.Follows vm')
    (stackless : (LuaCode.resume r.locals r.fn r.frame r.co body r.next).Stackless program vm' s) :
    (∃ outcome s', (r.next outcome).Stackless program vm' s' ∧ ∀ L w, w.store = s → w.Sound →
      ∃ w', resume program vm L r body w = .ok outcome w' ∧ w'.store = s' ∧ w'.Sound) ∨
    ∃ s', ∀ L w, w.store = s → w.Sound →
      ∃ w', resume program vm L r body w = .error .jvmTerminated w' ∧ w'.store = s' := by
  have runs {w : World} (store : w.store = s) (sound : w.Sound) (L : ThreadId) :
      Follows ((w.setThread (resuming (w.thread L) r) L).bases 0 (Nat.zero_le _))
        (rawrunprotected (.coroutine r.co) (runLua program vm (.coroutine r.co) body))
        (rawrunprotected (.coroutine r.co) (Confined.runLua program vm' (.coroutine r.co) body))
        s.bare (w.setThread (resuming (w.thread L) r) L) := by
    have same := (w.store_setThread (resuming (w.thread L) r) L).trans store
    have lifted := Lifted.bare (World.Sound.of_store (same.trans store.symm) sound)
      (Nat.zero_le _) (Nat.zero_le _)
    rw [same] at lifted
    exact follows_protected (.coroutine r.co) lifted
      (follows_runLua follows program (.coroutine r.co) body lifted)
  have ended : Ensures _ _ _ _ := stackless
  unfold Ensures at ended
  cases run : rawrunprotected (.coroutine r.co)
      (Confined.runLua program vm' (.coroutine r.co) body) s.bare with
  | ok outcome u =>
    simp only [run] at ended
    refine .inl ⟨outcome, _, ended, ?_⟩
    intro L w store sound
    cases runs store sound L with
    | undefined g u' right open' => cases run.symm.trans right
    | error f g w' u' left right post => cases run.symm.trans right
    | ok a b v u' left right post =>
      cases run.symm.trans right
      obtain ⟨rfl, lifted⟩ := post
      refine ⟨v.unwind L w, ?_, ?_, ?_⟩
      · rw [resume, bind_of_ok (run_get w)]
        exact bind_of_ok left _
      · rw [World.store_unwind, lifted.store, ← store]
        rfl
      · exact (World.sound_unwind L).mpr (World.Sound.of_store lifted.store lifted.sound)
  | error f u =>
    simp only [run] at ended
    subst ended
    refine .inr ⟨u.store, ?_⟩
    intro L w store sound
    cases runs store sound L with
    | undefined g u' right open' =>
      cases run.symm.trans right
      cases open'
    | ok a b w' u' left right post => cases run.symm.trans right
    | error f g v u' left right post =>
      cases run.symm.trans right
      obtain ⟨rfl, lifted⟩ := post
      refine ⟨v, ?_, lifted.store⟩
      rw [resume, bind_of_ok (run_get w)]
      exact bind_of_error left _

/- The run of a body is its steps. -/
theorem runLua_upcall (L : ThreadId) (locals : List Value) (stub : Nat) (args : List Value) :
    runLua program vm L (.upcall locals stub args next) =
      callJava program vm L locals stub args >>= fun outcome =>
        runLua program vm L (next outcome) := rfl

theorem runLua_resume (L : ThreadId) (r : Resumption) (body : LuaCode) :
    runLua program vm L (.resume r.locals r.fn r.frame r.co body r.next) =
      resume program vm L r body >>= fun outcome => runLua program vm L (r.next outcome) := by
  simp only [resume, bind_assoc, pure_bind]
  rfl

end Steps

section Runs

variable {program : Program} {vm vm' : VM}

/- By induction on the body, for all stores: both runs take the same steps. -/
theorem stackless_ends (follows : vm.Follows vm') (L L' : ThreadId) (body : LuaCode) {w w' : World}
    (same : w.store = w'.store) (sound : w.Sound) (stackless : body.Stackless program vm' w.store) :
    Simulates (fun _ => False) (runLua program vm L body) (runLua program vm L' body) w w'
      (fun results w₁ results' w₂ => results = results' ∧ w₁.store = w₂.store)
      fun f w₁ g w₂ => Fault.Alike L L' f g ∧ w₁.store = w₂.store := by
  have sound' := World.Sound.of_store same.symm sound
  induction body generalizing w w' with
  | ret results => exact .pure ⟨rfl, same⟩
  | error e => exact .throws ⟨.luaError e, same⟩
  | access update next ih =>
    have heap : w.heap = w'.heap := congrArg Store.heap same
    apply Simulates.step (run_get w)
    apply Simulates.spec_step (run_get w')
    apply Simulates.step (run_modify _ w)
    apply Simulates.spec_step (run_modify _ w')
    rw [← heap]
    refine ih w.heap ?_ sound stackless sound'
    exact congrArg (fun s : Store => { s with heap := update w.heap }) same
  | upcall locals stub args next ih =>
    rw [runLua_upcall, runLua_upcall]
    rcases stackless_call follows stackless with ⟨s, rest, steps⟩ | ⟨s, steps⟩
    · obtain ⟨v, left, store, kept, _⟩ := steps L w rfl sound
      obtain ⟨v', right, store', kept', _⟩ := steps L' w' same.symm sound'
      apply Simulates.step left
      apply Simulates.spec_step right
      exact ih _ (store.trans store'.symm) kept (store ▸ rest) kept'
    · obtain ⟨v, left, store⟩ := steps L w rfl sound
      obtain ⟨v', right, store'⟩ := steps L' w' same.symm sound'
      exact .error _ _ v v' (bind_of_error left _) (bind_of_error right _)
        ⟨.jvmTerminated, store.trans store'.symm⟩
  | resume locals fn frame co inner next _ ih =>
    rw [runLua_resume L ⟨locals, fn, frame, co, next⟩,
      runLua_resume L' ⟨locals, fn, frame, co, next⟩]
    rcases stackless_resume (r := ⟨locals, fn, frame, co, next⟩) follows stackless with
      ⟨outcome, s, rest, steps⟩ | ⟨s, steps⟩
    · obtain ⟨v, left, store, kept⟩ := steps L w rfl sound
      obtain ⟨v', right, store', kept'⟩ := steps L' w' same.symm sound'
      apply Simulates.step left
      apply Simulates.spec_step right
      exact ih _ (store.trans store'.symm) kept (store ▸ rest) kept'
    · obtain ⟨v, left, store⟩ := steps L w rfl sound
      obtain ⟨v', right, store'⟩ := steps L' w' same.symm sound'
      exact .error _ _ v v' (bind_of_error left _) (bind_of_error right _)
        ⟨.jvmTerminated, store.trans store'.symm⟩

theorem stackless_calls (follows : vm.Follows vm') (L L' : ThreadId) (body : LuaCode)
    {w w' : World} (same : w.store = w'.store) (sound : w.Sound)
    (stackless : body.Stackless program vm' w.store) :
    (callsOf program vm L body w).map (fun c => (c.outcome, c.after.invocations)) =
      (callsOf program vm L' body w').map fun c => (c.outcome, c.after.invocations) := by
  have sound' := World.Sound.of_store same.symm sound
  induction body generalizing w w' with
  | ret results => rfl
  | error e => rfl
  | access update next ih =>
    have heap : w.heap = w'.heap := congrArg Store.heap same
    rw [callsOf, callsOf, ← heap]
    refine ih w.heap ?_ sound stackless sound'
    exact congrArg (fun s : Store => { s with heap := update w.heap }) same
  | upcall locals stub args next ih =>
    rw [callsOf, callsOf]
    rcases stackless_call follows stackless with ⟨s, rest, steps⟩ | ⟨s, steps⟩
    · obtain ⟨v, left, store, kept, _⟩ := steps L w rfl sound
      obtain ⟨v', right, store', kept', _⟩ := steps L' w' same.symm sound'
      have invocations : v.invocations = v'.invocations :=
        congrArg Store.invocations (store.trans store'.symm)
      simp only [left, right, List.map_cons]
      rw [ih _ (store.trans store'.symm) kept (store ▸ rest) kept', invocations]
    · obtain ⟨v, left, store⟩ := steps L w rfl sound
      obtain ⟨v', right, store'⟩ := steps L' w' same.symm sound'
      simp only [left, right]
  | resume locals fn frame co inner next _ ih =>
    rw [callsOf, callsOf]
    rcases stackless_resume (r := ⟨locals, fn, frame, co, next⟩) follows stackless with
      ⟨outcome, s, rest, steps⟩ | ⟨s, steps⟩
    · obtain ⟨v, left, store, kept⟩ := steps L w rfl sound
      obtain ⟨v', right, store', kept'⟩ := steps L' w' same.symm sound'
      simp only [left, right]
      exact ih _ (store.trans store'.symm) kept (store ▸ rest) kept'
    · obtain ⟨v, left, store⟩ := steps L w rfl sound
      obtain ⟨v', right, store'⟩ := steps L' w' same.symm sound'
      simp only [left, right]

theorem stackless_spares (follows : vm.Follows vm') (L : ThreadId) (body : LuaCode) {w : World}
    (sound : w.Sound) (stackless : body.Stackless program vm' w.store) :
    ∀ c ∈ callsOf program vm L body w, ∀ T, T ≠ L →
      (c.after.thread T).slots = (c.before.thread T).slots := by
  induction body generalizing w with
  | ret results =>
    intro c member
    cases member
  | error e =>
    intro c member
    cases member
  | access update next ih =>
    rw [callsOf]
    exact ih w.heap sound stackless
  | upcall locals stub args next ih =>
    rw [callsOf]
    rcases stackless_call follows stackless with ⟨s, rest, steps⟩ | ⟨s, steps⟩
    · obtain ⟨v, left, store, kept, spared⟩ := steps L w rfl sound
      simp only [left]
      intro c member
      rcases List.mem_cons.mp member with rfl | later
      · exact spared
      · exact ih _ kept (store ▸ rest) c later
    · obtain ⟨v, left, store⟩ := steps L w rfl sound
      simp only [left]
      intro c member
      cases member
  | resume locals fn frame co inner next _ ih =>
    rw [callsOf]
    rcases stackless_resume (r := ⟨locals, fn, frame, co, next⟩) follows stackless with
      ⟨outcome, s, rest, steps⟩ | ⟨s, steps⟩
    · obtain ⟨v, left, store, kept⟩ := steps L w rfl sound
      simp only [left]
      exact ih _ kept (store ▸ rest)
    · obtain ⟨v, left, store⟩ := steps L w rfl sound
      simp only [left]
      intro c member
      cases member

theorem store_inside (rs : List Resumption) (L : ThreadId) (w : World) :
    (inside L rs w).store = w.store := by
  induction rs generalizing L w with
  | nil => rfl
  | cons r rs ih => exact (ih _ _).trans (w.store_setThread _ L)

end Runs

/-- A body whose calls need no stack does the same in every nest of coroutines. -/
theorem stackless_same_inside (program : Program) (depth : Nat) (rs : List Resumption)
    (body : LuaCode) (w : World) (sound : w.Sound)
    (stackless : body.Stackless program (Confined.vmAt program depth) w.store) :
    SameInside program depth rs body w := by
  have follows := follows_vmAt program depth
  have store := store_inside rs .main w
  have sound' := World.Sound.of_store store sound
  rw [← store] at stackless
  constructor
  · exact stackless_ends follows (innermost .main rs) .main body store sound' stackless
  · exact stackless_calls follows (innermost .main rs) .main body store sound' stackless
  · exact stackless_spares follows (innermost .main rs) body sound' stackless

namespace CoroutineRuns

/- A method with the given parameters and what it does, as Lua function 0 sees it. -/
def program (parameterTypes : List JavaClass) (returnType : JavaClass)
    (body : List Object → JavaCode) : Program :=
  { Program.blank with methods := fun _ => ⟨parameterTypes, returnType, none, "m", body⟩ }

def registered : World := { World.create .blank with callbacks := [.method 0] }

/- A function of coroutine.wrap that is called from a chunk. -/
def wrapped : Resumption where
  locals := []
  fn := .function (.closure 1)
  frame := []
  co := 0
  next
    | .ok results => .ret results
    | .error e => .error e

/- The body calls the method and returns what it gives. -/
def calls (args : List Value) : LuaCode :=
  .upcall [] 0 args fun
    | .ok results => .ret results
    | .error e => .error e

/- A method that counts its calls in a global. -/
def ticking : Program :=
  program [] .void fun _ => .op (.setGlobalInteger "ticks" 1) fun _ => .ret .null

def taking : Program := program [.primitive .long] .long fun args => .ret (args.headD .null)

end CoroutineRuns

open CoroutineRuns

theorem ticking_same_inside : SameInside ticking 1 [wrapped] (calls []) registered := by
  refine stackless_same_inside ticking 1 [wrapped] (calls []) registered (sound_create .blank) ?_
  refine ⟨0, rfl, rfl, rfl, rfl, fun _ => ?_⟩
  refine ensures_of_run rfl ⟨?_, trivial⟩
  intro T
  cases T <;> rfl

theorem taking_not_same_inside :
    ¬ SameInside taking 1 [wrapped] (calls [.integer 5]) registered := by
  intro same
  have crashed : outcomeOf (runLua taking (vmAt taking 1) (.coroutine 0) (calls [.integer 5]))
      (inside .main [wrapped] registered) = .error .jvmTerminated := by decide +kernel
  have returned : outcomeOf (runLua taking (vmAt taking 1) .main (calls [.integer 5])) registered =
      .ok [.integer 5] := by decide +kernel
  cases same.ends with
  | undefined g t right open' => exact open'
  | ok a b s t left right post => cases (fault_of_outcome crashed).symm.trans left
  | error f g s t left right post => cases (ends_of_outcome returned).symm.trans right

end Luava
