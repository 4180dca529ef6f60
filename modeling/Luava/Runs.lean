import Luava.Operations

/-
A whole run keeps what its operations keep, to any depth of Java code called from Lua code
called from Java code.
-/
namespace Luava

open Effects LuaApi Machine

variable {insertkey : Heap → TableId → Value → Bool} {inLua : Prop} {n : Nat}
  {w w₀ w₁ w₂ : World}

namespace Raised

theorem notes (first : Raised insertkey inLua w w₁) (later : Notes insertkey inLua w₁ w₂) :
    Notes insertkey inLua w w₂ where
  steps := first.steps.trans later.steps
  space all v member space := first.space (all_of_suffix later.steps all) v
    (later.space all v member space) space
  lifecycle all guarded v member kind :=
    have earlier := all_of_suffix later.steps all
    first.lifecycle earlier guarded v
      (later.lifecycle all (first.guarded earlier guarded) v member kind) kind

theorem trans (first : Raised insertkey inLua w w₁) (second : Raised insertkey inLua w₁ w₂) :
    Raised insertkey inLua w w₂ :=
  { first.notes second.toNotes with
    sound := second.sound ∘ first.sound
    guarded := fun all guarded =>
      second.guarded all (first.guarded (all_of_suffix second.steps all) guarded)
    calls := first.calls.trans second.calls
    slots := fun all =>
      have ⟨n, below⟩ := first.slots (all_of_suffix second.steps all)
      have ⟨m, above⟩ := second.slots all
      ⟨m + n, below.trans above⟩ }

/- A frame on the main thread. -/
theorem frame (w : World) (l : List Value) (func ciTop : Nat) :
    Raised insertkey inLua w (w.setThread ⟨l ++ w.main.slots, func, ciTop⟩ .main) where
  steps := List.suffix_refl _
  space := fun _ _ member _ => member
  lifecycle := fun _ _ _ member _ => member
  sound := id
  guarded := fun _ guarded => guarded
  calls := Nat.le_refl _
  slots := fun _ => ⟨l.length, (Over.refl w.main.slots).append l⟩

/- Back in the frame of the main thread. -/
theorem unwound (raised : Raised insertkey inLua w w₁) :
    Stage insertkey inLua 0 w (w₁.unwind .main w) where
  steps := raised.steps
  space := raised.space
  lifecycle := raised.lifecycle
  sound := raised.sound
  guarded all guarded running := raised.guarded all guarded
    (running.imp_right fun h => Nat.lt_of_lt_of_le h raised.calls)
  calls := rfl
  slots all := by
    obtain ⟨n, kept⟩ := raised.slots all
    show Over 0 w.main.slots (World.bottom w.main.slots.length w₁.main.slots)
    rw [kept.bottom]
    exact ⟨Nat.zero_le _, kept.2⟩
  func := rfl
  ciTop := rfl

end Raised

namespace Stage

/- The stacks of coroutines may change at will. -/
theorem coroutine (w : World) (s : LuaState) (id : Nat) :
    Stage insertkey inLua 0 w (w.setThread s (.coroutine id)) :=
  { Stage.refl w with }

theorem unwound (stage : Stage insertkey inLua n w w₁) (id : Nat) :
    Stage insertkey inLua n w (w₁.unwind (.coroutine id) w) :=
  { stage with
    guarded := fun all guarded running => stage.guarded all guarded
      (running.imp_right fun h => stage.calls.symm ▸ h)
    calls := rfl }

end Stage

theorem stage_invoked (w : World) (invocations : List (Nat × List Object)) :
    Stage insertkey inLua 0 w { w with invocations := invocations } :=
  { Stage.refl w with }

theorem ensures_catchException {α : Type} {x : Wrapper α}
    {Q : Except JavaException α → World → Prop} {E : Fault → World → Prop}
    (run : Ensures x w (fun a => Q (.ok a)) fun f w' => match f with
      | .exception e => Q (.error e) w'
      | f => E f w') : Ensures (catchException x) w Q E := by
  unfold Ensures catchException at *
  cases ends : x w with
  | ok a w' => simpa only [ends] using run
  | error f w' => cases f <;> simpa only [ends] using run

theorem ensures_terminate {α : Type} {x : Wrapper α} {Q : α → World → Prop}
    {E : Fault → World → Prop}
    (run : Ensures x w Q fun f w' => match f with
      | .exception _ => E .jvmTerminated w'
      | f => E f w') : Ensures (terminate x) w Q E := by
  unfold Ensures terminate at *
  cases ends : x w with
  | ok a w' => simpa only [ends] using run
  | error f w' => cases f <;> simpa only [ends] using run

theorem runJava_progress {vm : VM} (lawful : vm.Lawful insertkey) (java : JavaCode)
    (sound : w.Sound) :
    Ensures (runJava vm java) w (fun _ w' => ∃ n, Stage insertkey False n w w')
      (Escapes insertkey False w) := by
  induction java generalizing w with
  | ret result => exact ensures_of_run (run_pure result w) ⟨0, .refl w⟩
  | throws e => exact ensures_of_fault (run_throwJava e w) ⟨0, .refl w⟩
  | op o next ih =>
    have continued (outcome : Except JavaException OperationResult) (w' : World)
        (kept : ∃ n, Stage insertkey False n w w') :
        Ensures (runJava vm (next outcome)) w' (fun _ w'' => ∃ n, Stage insertkey False n w w'')
          (Escapes insertkey False w) := by
      obtain ⟨n, stage⟩ := kept
      exact ensures_mono (ih outcome (stage.sound sound))
        (fun _ _ ⟨m, later⟩ => ⟨m + n, stage.trans later⟩) fun _ _ later => stage.escapes later
    rw [runJava, ensures_bind]
    refine ensures_catchException (ensures_mono (operation_progress lawful o sound) ?_ ?_)
    · exact fun a w' kept => continued (.ok a) w' kept
    · intro f w' escapes
      cases f with
      | exception e => exact continued (.error e) w' escapes
      | _ => exact escapes

/- A computation of Java code while Lua waits for it. -/
theorem during_upcall (stage : Stage insertkey False n w₀ w) (alive : w₀.Alive)
    (running : 0 < w₀.calls) : During insertkey n w₀ w :=
  { stage with
    soundNow := stage.sound (by simp [World.Sound, alive.status, alive.arena])
    opened := fun all => stage.guarded all (fun _ => alive.status) (.inr (stage.calls ▸ running)) }

theorem invoke_progress {Body : Type} {run : Body → Wrapper Object} (id : Nat)
    (method : Method Body) (args : List Object) (sound : w.Sound)
    (body : ∀ b w, w.Sound → Ensures (run b) w (fun _ w' => ∃ n, Stage insertkey False n w w')
      (Escapes insertkey False w)) :
    Ensures (LuaInterpreter.invoke run id method args) w
      (fun _ w' => ∃ n, Stage insertkey False n w w') (Escapes insertkey False w) := by
  have thrown (e : JavaException) : Ensures (throwJava e : Wrapper Object) w
      (fun _ w' => ∃ n, Stage insertkey False n w w') (Escapes insertkey False w) :=
    ensures_of_fault (run_throwJava e w) ⟨0, .refl w⟩
  rw [LuaInterpreter.invoke]
  cases method.access with
  | some e => exact thrown e
  | none =>
    simp only
    split_ifs with mismatch
    · exact (ensures_bind _ _ _ _ _).mpr (ensures_of_fault (run_throwJava _ w) ⟨0, .refl w⟩)
    · have entered : Stage insertkey False 0 w _ :=
        stage_invoked w ((id, args) :: w.invocations)
      refine ensures_step (run_modify _ w) (ensures_tryCatch ?_)
      refine ensures_mono (body (method.body args) _ (entered.sound sound))
        (fun _ _ ⟨n, stage⟩ => ⟨n, entered.trans stage⟩) ?_
      intro f w' escapes
      have later := entered.escapes escapes
      cases f with
      | exception e => exact ensures_of_fault (run_throwJava _ w') later
      | _ => exact ensures_of_fault (run_throw _ w') later

theorem ends_pushObject (o : Object) (during : During insertkey n w₀ w)
    (fits : w₀.AllFit insertkey → o.isPushable = true → w₀.main.top + n + 1 ≤ w₀.main.ciTop) :
    Ends insertkey w₀ (LuaStack.pushObject .main o) w := by
  refine during.ends (fun alive => ?_) fun closed => inert_pushObject closed o
  cases image : LuaStack.imageOf w.callbacks.length o with
  | error e =>
    exact ensures_of_fault (LuaStack.run_pushObject_refused image) ⟨n, during.toStage⟩
  | ok v =>
    have pushable : o.isPushable = true := by
      cases o with
      | other className text => cases image
      | _ => rfl
    obtain ⟨r, pushed, gains⟩ := LuaStack.run_pushObject alive
      (during.room (v := .stackOverflow) rfl fun all => fits all pushable) image
    exact ensures_of_run pushed ⟨n + 1, ((during.register _).moved gains (·.cons v)).toStage⟩

/- A Java exception is thrown again, wrapped, and every other fault as it is. -/
theorem ensures_rethrown {w₀ : World} (text : String) (f : Fault) {Q : Nat → World → Prop} :
    Escapes insertkey False w₀ f w → Ensures (match f with
      | .exception e => throwJava (LuaInterpreter.wrapped text e)
      | f => throw f : Wrapper Nat) w Q (Escapes insertkey False w₀) := by
  intro escapes
  cases f with
  | exception e => exact ensures_of_fault (run_throwJava _ w) escapes
  | _ => exact ensures_of_fault (run_throw _ w) escapes

/- The upcall of a method: the arguments are read, the method runs, its result is pushed. -/
theorem invokeMethod_progress {vm : VM} {Body : Type} {run : Body → Wrapper Object}
    (id : Nat) (method : Method Body) (alive : w.Alive) (running : 0 < w.calls)
    (body : ∀ b w, w.Sound → Ensures (run b) w (fun _ w' => ∃ n, Stage insertkey False n w w')
      (Escapes insertkey False w)) :
    Ensures (LuaInterpreter.invokeMethod vm .main run id method) w
      (fun _ w' => ∃ n, Stage insertkey False n w w') (Escapes insertkey False w) := by
  rw [LuaInterpreter.invokeMethod, ensures_bind]
  have tolerant : Tolerated insertkey w .invalidIndex := tolerated_frame rfl rfl
  by_cases enough : method.parameterTypes.length ≤ w.main.slots.length
  · obtain ⟨r, read, gains⟩ := LuaStack.run_getValues vm alive enough
      (.inr tolerant) (.inr tolerant)
    have rewritten := LuaStack.retyped_slots_read vm.libc (Nat.zero_add _).le enough
    have given : Stage insertkey False 0 w _ :=
      (Stage.refl w).moved gains fun kept => kept.retyped rewritten
    refine ensures_settle read (fun args _ => ensures_tryCatch ?_) fun e _ => ⟨0, given⟩
    refine (ensures_bind _ _ _ _ _).mpr (ensures_mono (invoke_progress id method args
      (given.sound (by simp [World.Sound, alive.status, alive.arena])) body) ?_
      fun f w' escapes => ensures_rethrown method.text f (given.escapes escapes))
    rintro result w' ⟨n, later⟩
    have returned := given.trans later
    by_cases void : method.returnType = .void
    · rw [if_neg (not_not.mpr void)]
      exact ensures_of_run (run_pure 0 w') ⟨_, returned⟩
    · rw [if_pos void]
      have noted := returned.trans (stage_start w' (.result result w'.main))
      have during := during_upcall noted alive running
      have pushed : Ends insertkey (w'.addStep (.result result w'.main))
          (LuaStack.pushObject .main result) (w'.addStep (.result result w'.main)) :=
        ends_pushObject result
          { Stage.refl _ with soundNow := during.soundNow, opened := during.opened }
          fun all pushable => le_free Nat.one_pos (all _ List.mem_cons_self pushable)
      refine ensures_step (run_modify _ w') ((ensures_bind _ _ _ _ _).mpr ?_)
      refine ensures_mono pushed ?_ fun f w'' escapes =>
        ensures_rethrown method.text f (noted.escapes escapes)
      rintro _ w'' ⟨m, stage⟩
      exact ensures_of_run (run_pure 1 w'') ⟨_, noted.trans stage⟩
  · obtain ⟨r, read, gains⟩ := LuaStack.getValues_outside vm alive (Nat.lt_of_not_le enough)
      tolerant
    exact ensures_of_fault read (notes_of_gains gains rfl)

/-- How Lua code on thread L ends. A coroutine may leave slots on the main thread, where the
   wrapper pushes for it; the main thread leaves none. -/
def LuaEnds {α : Type} (insertkey : Heap → TableId → Value → Bool) (L : ThreadId) (w₀ : World)
    (x : Wrapper α) (w : World) : Prop :=
  Ensures x w (fun _ w' => ∃ n, Stage insertkey False n w₀ w' ∧ (L = .main → n = 0))
    (LuaEscapes insertkey False L w₀)

theorem luaEscapes_of_main {L : ThreadId} {f : Fault}
    (escapes : LuaEscapes insertkey inLua .main w f w₁) : LuaEscapes insertkey inLua L w f w₁ := by
  cases f with
  | luaError L' e =>
    cases L' with
    | main => exact escapes
    | coroutine id => exact absurd escapes.1 (by simp)
  | _ => exact escapes

/- A C function that Lua calls on thread L. -/
theorem upcall_progress (program : Program) {vm : VM} (lawful : vm.Lawful insertkey) (L : ThreadId)
    (stub : Nat) (sound : w.Sound) (running : 0 < w.calls) :
    Ensures (upcall program vm L stub) w (fun _ w' => ∃ n, Stage insertkey False n w w')
      (LuaEscapes insertkey False .main w) := by
  have terminated (f : Fault) (w' : World) : Escapes insertkey False w f w' → match f with
      | .exception _ => LuaEscapes insertkey False .main w .jvmTerminated w'
      | f => LuaEscapes insertkey False .main w f w' := by
    intro escapes
    cases f with
    | exception e =>
      obtain ⟨n, stage⟩ := escapes
      exact stage.toNotes
    | _ => exact escapes
  rw [upcall]
  refine ensures_step (run_get w) ?_
  by_cases arena : w.arenaOpen = true
  · have alive : w.Alive := ⟨fun closed => by simp [sound.mp closed] at arena, arena⟩
    simp only [arena, Bool.not_true, Bool.false_eq_true, ↓reduceIte]
    split
    · exact ensures_of_fault (run_throw _ w) (Stage.refl w).toNotes
    · exact ensures_terminate (ensures_mono (invokeMethod_progress _ _ alive running
        fun java w sound => runJava_progress lawful java sound) (fun _ _ h => h) terminated)
    · refine (ensures_bind _ _ _ _ _).mpr (ensures_terminate (ensures_mono
        (runJava_progress lawful _ sound) ?_ terminated))
      intro result w' kept
      split
      · exact ensures_of_run (run_pure _ w') kept
      · exact ensures_of_run (run_pure _ w') kept
  · simp only [arena, Bool.not_false, ↓reduceIte]
    refine ensures_of_fault (e := .undefined) rfl ?_
    have closed : w.status = .closed := sound.mpr (by simpa using arena)
    exact
      { steps := List.suffix_refl _
        space := fun _ v member space => by
          rcases List.mem_cons.mp member with rfl | member
          · contradiction
          · exact member
        lifecycle := fun _ guarded => absurd closed (guarded (.inr running)) }

theorem sound_setThread {s : LuaState} {L : ThreadId} : (w.setThread s L).Sound ↔ w.Sound := by
  cases L <;> exact Iff.rfl

/- A frame set up on thread L above l more slots. -/
theorem raised_frame {L : ThreadId} {frame : LuaState} {l : List Value}
    (slots : frame.slots = l ++ (w.thread L).slots) :
    Raised insertkey inLua w (w.setThread frame L) := by
  cases L with
  | main =>
    obtain ⟨s, func, ciTop⟩ := frame
    obtain rfl : s = l ++ w.main.slots := slots
    exact .frame w l func ciTop
  | coroutine id => exact (Stage.coroutine w frame id).raised

theorem stage_unframed {L : ThreadId} {frame : LuaState} {l : List Value}
    (slots : frame.slots = l ++ (w.thread L).slots)
    (stage : Stage insertkey inLua n (w.setThread frame L) w₁) :
    ∃ m, Stage insertkey inLua m w (w₁.unwind L w) ∧ (L = .main → m = 0) := by
  cases L with
  | main => exact ⟨0, ((raised_frame slots).trans stage.raised).unwound, fun _ => rfl⟩
  | coroutine id =>
    exact ⟨n + 0, ((Stage.coroutine w frame id).trans stage).unwound id, by simp⟩

theorem luaEscapes_unframed {L : ThreadId} {frame : LuaState} {l : List Value} {f : Fault}
    (slots : frame.slots = l ++ (w.thread L).slots)
    (escapes : LuaEscapes insertkey inLua .main (w.setThread frame L) f w₁) :
    LuaEscapes insertkey inLua .main w f w₁ := by
  have framed : Raised insertkey inLua w (w.setThread frame L) := raised_frame slots
  cases f with
  | luaError L' e =>
    cases L' with
    | main => exact framed.trans escapes
    | coroutine id => exact absurd escapes.1 (by simp)
  | exception e => exact escapes
  | jvmTerminated => exact framed.notes escapes
  | undefined => exact framed.notes escapes

theorem precallC_progress {L : ThreadId} {f : Wrapper Nat} (locals : List Value) (fn : Value)
    (args : List Value) (sound : w.Sound) (running : 0 < w.calls)
    (run : ∀ w, w.Sound → 0 < w.calls → Ensures f w
      (fun _ w' => ∃ n, Stage insertkey False n w w') (LuaEscapes insertkey False .main w)) :
    Ensures (precallC L locals fn args f) w
      (fun _ w' => ∃ n, Stage insertkey False n w w' ∧ (L = .main → n = 0))
      (LuaEscapes insertkey False .main w) := by
  have slots : args.reverse ++ fn :: (locals ++ (w.thread L).slots) =
      (args.reverse ++ fn :: locals) ++ (w.thread L).slots := by simp
  rw [precallC]
  refine ensures_step (run_get w) (ensures_step (run_modify _ w) ((ensures_bind _ _ _ _ _).mpr ?_))
  refine ensures_mono (run _ ?_ ?_) ?_ fun f w' escapes => luaEscapes_unframed slots escapes
  · exact sound_setThread.mpr sound
  · cases L <;> exact running
  · rintro n w' ⟨m, stage⟩
    refine ensures_step (t := w') rfl (ensures_step (run_modify _ w')
      (ensures_of_run (run_pure _ _) ?_))
    exact stage_unframed slots stage

/- A protected call on thread L catches what is raised there. -/
theorem rawrunprotected_progress {L : ThreadId} {α : Type} {x : Wrapper α}
    (run : LuaEnds insertkey L w x w) :
    Ensures (rawrunprotected L x) w
      (fun _ w' => ∃ n, Stage insertkey False n w w' ∧ (L = .main → n = 0))
      (fun f w' => LuaEscapes insertkey False .main w f w' ∧ ∀ e, f ≠ .luaError L e) := by
  unfold LuaEnds Ensures at run
  unfold Ensures rawrunprotected
  cases ends : x w with
  | ok a w' => simpa only [ends] using run
  | error f w' =>
    simp only [ends] at run ⊢
    cases f with
    | luaError L' e =>
      cases L' with
      | main =>
        by_cases same : ThreadId.main = L
        · subst same
          simp only [↓reduceIte]
          exact ⟨0, Raised.unwound run, fun _ => rfl⟩
        · simp only [same, ↓reduceIte]
          exact ⟨run, fun e' caught => same (by cases caught; rfl)⟩
      | coroutine id =>
        obtain ⟨rfl, n, stage⟩ := run
        simp only [↓reduceIte]
        exact ⟨n, stage.unwound id, by simp⟩
    | exception e => exact run.elim
    | jvmTerminated => exact ⟨run, by simp⟩
    | undefined => exact ⟨run, by simp⟩

theorem LuaEnds.after {L : ThreadId} {α : Type} {x : Wrapper α}
    (stage : Stage insertkey False n w w₁) (level : L = .main → n = 0)
    (ends : LuaEnds insertkey L w₁ x w₁) : LuaEnds insertkey L w x w₁ := by
  refine ensures_mono ends ?_ fun _ _ later => stage.luaEscapes later
  rintro a w' ⟨m, later, level'⟩
  exact ⟨m + n, stage.trans later, fun main => by rw [level main, level' main]⟩

theorem runLua_progress (program : Program) {vm : VM} (lawful : vm.Lawful insertkey)
    (code : LuaCode) (L : ThreadId) (sound : w.Sound) (running : 0 < w.calls) :
    LuaEnds insertkey L w (runLua program vm L code) w := by
  induction code generalizing L w with
  | ret results => exact ensures_of_run (run_pure results w) ⟨0, .refl w, fun _ => rfl⟩
  | error e =>
    cases L with
    | main => exact ensures_of_fault (run_throw _ w) (Stage.refl w).raised
    | coroutine id => exact ensures_of_fault (run_throw _ w) ⟨rfl, 0, .refl w⟩
  | access update next ih =>
    have stage : Stage insertkey False 0 w (w.withHeap (update w.heap)) :=
      (Stage.refl w).withHeap _
    rw [runLua]
    refine ensures_step (run_get w) (ensures_step (run_modify _ w) ?_)
    exact (ih w.heap L (stage.sound sound) running).after stage fun _ => rfl
  | upcall locals stub args next ih =>
    rw [runLua]
    refine (ensures_bind _ _ _ _ _).mpr (ensures_mono (rawrunprotected_progress
      (ensures_mono (precallC_progress locals (.function (.cfunction stub)) args sound running
        fun w sound running => upcall_progress program lawful L stub sound running)
        (fun _ _ h => h) fun _ _ escapes => luaEscapes_of_main escapes)) ?_
      fun _ _ escapes => luaEscapes_of_main escapes.1)
    rintro outcome w' ⟨n, stage, level⟩
    exact (ih outcome L (stage.sound sound) (stage.calls.symm ▸ running)).after stage level
  | resume locals fn frame co body next body_ih next_ih =>
    have slots : frame ++ fn :: (locals ++ (w.thread L).slots) =
        (frame ++ fn :: locals) ++ (w.thread L).slots := by simp
    rw [runLua]
    refine ensures_step (run_get w) (ensures_step (run_modify _ w) ?_)
    refine (ensures_bind _ _ _ _ _).mpr (ensures_mono (rawrunprotected_progress
      (body_ih (.coroutine co) ?_ ?_)) ?_
      fun _ _ escapes => luaEscapes_of_main (luaEscapes_unframed slots escapes.1))
    · exact sound_setThread.mpr sound
    · cases L <;> exact running
    · rintro outcome w' ⟨n, stage, _⟩
      obtain ⟨m, back, level⟩ := stage_unframed slots stage
      refine ensures_step (run_modify _ w') ?_
      exact (next_ih outcome L (back.sound sound) (back.calls.symm ▸ running)).after back level

/- A native function that starts Lua code counts it among the calls under way. -/
theorem Stage.counted {w' : World}
    (stage : Stage insertkey False n { w with calls := w.calls + 1 } w') :
    Stage insertkey True n w { w' with calls := w.calls } :=
  { steps := stage.steps
    space := stage.space
    lifecycle := fun all guarded => stage.lifecycle all fun _ => guarded (.inl trivial)
    sound := stage.sound
    guarded := fun all guarded _ => stage.guarded all (fun _ => guarded (.inl trivial))
      (.inr (stage.calls.symm ▸ Nat.succ_pos _))
    calls := rfl
    slots := stage.slots
    func := stage.func
    ciTop := stage.ciTop }

theorem luaEscapes_counted {f : Fault} {w' : World}
    (escapes : LuaEscapes insertkey False .main { w with calls := w.calls + 1 } f w') :
    LuaEscapes insertkey True .main w f w' := by
  have noted (notes : Notes insertkey False { w with calls := w.calls + 1 } w') :
      Notes insertkey True w w' :=
    { steps := notes.steps, space := notes.space
      lifecycle := fun all guarded => notes.lifecycle all fun _ => guarded (.inl trivial) }
  cases f with
  | luaError L e =>
    cases L with
    | main =>
      have raised : Raised insertkey False { w with calls := w.calls + 1 } w' := escapes
      exact
        { noted raised.toNotes with
          sound := raised.sound
          guarded := fun all guarded _ => raised.guarded all (fun _ => guarded (.inl trivial))
            (.inr (Nat.lt_of_lt_of_le (Nat.succ_pos _) raised.calls))
          calls := (Nat.le_succ _).trans raised.calls
          slots := raised.slots }
    | coroutine id => exact absurd escapes.1 (by simp)
  | exception e => exact escapes
  | jvmTerminated => exact noted escapes
  | undefined => exact noted escapes

theorem vmAt_lawful (program : Program) (depth : Nat) :
    (vmAt program depth).Lawful program.insertkey := by
  induction depth with
  | zero =>
    exact
      { inserts := rfl
        call := fun _ _ w _ => ensures_of_fault (run_throw _ w) (Stage.refl w).raised
        finalize := fun w _ => ensures_of_run (run_pure _ w) (.refl w) }
  | succ depth ih =>
    refine ⟨rfl, fun callee args w sound => ?_, fun w sound => ?_⟩
    · have counted {α : Type} {x : Wrapper α} (run : Ensures x { w with calls := w.calls + 1 }
          (fun _ w' => ∃ n, Stage program.insertkey False n { w with calls := w.calls + 1 } w' ∧
            (ThreadId.main = .main → n = 0))
          (LuaEscapes program.insertkey False .main { w with calls := w.calls + 1 })) :
          Ensures (do
            let results ← x
            modify fun w' => { w' with calls := w.calls }
            return results) { w with calls := w.calls + 1 }
            (fun _ w' => Stage program.insertkey True 0 w w')
            (LuaEscapes program.insertkey True .main w) := by
        refine (ensures_bind _ _ _ _ _).mpr (ensures_mono run ?_ fun _ _ => luaEscapes_counted)
        rintro results w' ⟨n, stage, level⟩
        obtain rfl := level rfl
        exact ensures_step (run_modify _ w') (ensures_of_run (run_pure _ _) stage.counted)
      refine ensures_step (run_get w) (ensures_step (run_set _ w) ?_)
      cases w.heap.precall Heap.MAX_CCMT callee args with
      | fail e => exact counted (ensures_of_fault (run_throw _ _) (Stage.refl _).raised)
      | function f args =>
        cases f with
        | cfunction stub =>
          exact counted (precallC_progress [] _ args sound (Nat.succ_pos _) fun w sound running =>
            upcall_progress program ih .main stub sound running)
        | closure id => exact counted (runLua_progress program ih _ .main sound (Nat.succ_pos _))
    · refine ensures_step (run_get w) (ensures_step (run_set _ w) ((ensures_bind _ _ _ _ _).mpr ?_))
      have sound' : ({ w with calls := w.calls + 1 } : World).Sound := sound
      refine ensures_mono (rawrunprotected_progress (runLua_progress program ih
        (program.finalizers w.heap) .main sound' (Nat.succ_pos _))) ?_ ?_
      · rintro outcome w' ⟨n, stage, level⟩
        obtain rfl := level rfl
        exact ensures_of_run (run_modify _ w') stage.counted
      · rintro f w' ⟨escapes, caught⟩
        have later := luaEscapes_counted escapes
        cases f with
        | luaError L e =>
          cases L with
          | main => exact absurd rfl (caught e)
          | coroutine id => exact absurd later.1 (by simp)
        | exception e => exact later.elim
        | jvmTerminated => exact ⟨.inl rfl, later⟩
        | undefined => exact ⟨.inr rfl, later⟩

theorem run_progress (program : Program) (depth : Nat) (java : JavaCode) (sound : w.Sound) :
    Ensures (runJava (vmAt program depth) java) w
      (fun _ w' => ∃ n, Stage program.insertkey False n w w')
      (Escapes program.insertkey False w) :=
  runJava_progress (vmAt_lawful program depth) java sound

/- Whatever its end, a run leaves notes. -/
theorem run_notes (program : Program) (depth : Nat) (java : JavaCode) (sound : w.Sound) :
    Notes program.insertkey False w (endOf (runJava (vmAt program depth) java) w) := by
  have run := run_progress program depth java sound
  unfold Ensures at run
  unfold endOf
  cases ends : runJava (vmAt program depth) java w with
  | ok result w' =>
    simp only [ends] at run ⊢
    obtain ⟨n, stage⟩ := run
    exact stage.toNotes
  | error f w' =>
    simp only [ends] at run ⊢
    cases f with
    | exception e =>
      obtain ⟨n, stage⟩ := run
      exact stage.toNotes
    | luaError L e =>
      cases L with
      | main => exact Raised.toNotes run
      | coroutine id => exact absurd run.1 (by simp)
    | jvmTerminated => exact run
    | undefined => exact run

theorem sound_create (heap : Heap) : (World.create heap).Sound := by
  simp [World.Sound, World.create]

end Luava
