import Luava.Lifts

/-
The operations on stacks that differ in what lies below them. The Lua code they start is asked to
do the same, and in the shorter run to leave the slots of its caller.
-/
namespace Luava

open Effects LuaApi Machine

/-- The Lua code vm runs does what vm' says, on any stack below it. -/
structure VM.Follows (vm vm' : VM) : Prop where
  call : ∀ f args bases u w, Lifted bases u w →
    Luava.Follows bases (vm.call .main f args) (vm'.call .main f args) u w
  high : ∀ f args u, Ensures (vm'.call .main f args) u (fun _ u' => u.main.top ≤ u'.main.top)
    fun _ _ => True
  same : vm' = { vm with call := vm'.call, finalize := vm'.finalize }

/- A Lua error ends what is left. -/
theorem Follows.raised {α β : Type} {bases : Bases} {u w : World}
    {f f' : α → Wrapper β} (lifted : Lifted bases u w) (e : LuaError) :
    Follows bases (luaDThrow .main e >>= f) (luaDThrow .main e >>= f') u w :=
  .error _ _ w u rfl rfl ⟨rfl, lifted⟩

section

variable {bases : Bases} {u w : World} {vm vm' : VM} (follows : vm.Follows vm')

include follows

theorem VM.Follows.libc : vm'.libc = vm.libc := by
  rw [follows.same]

theorem VM.Follows.finest : vm'.finest = vm.finest := by
  rw [follows.same]

theorem VM.Follows.load : vm'.load = vm.load := by
  rw [follows.same]

theorem VM.Follows.inserts : vm'.insertkey = vm.insertkey := by
  rw [follows.same]

/- A call from above slots of the caller's own leaves at least as many. -/
theorem follows_call (f : Value) (args : List Value) (lifted : Lifted bases u w) :
    Simulates (· = .undefined) (vm.call .main f args) (vm'.call .main f args) w u
      (fun a w' b u' => a = b ∧ Lifted bases u' w' ∧ u.main.top ≤ u'.main.top)
      fun f w' g u' => f = g ∧ Lifted bases u' w' := by
  have high := follows.high f args u
  unfold Ensures at high
  cases follows.call f args bases u w lifted with
  | undefined g u' right open' => exact .undefined g u' right open'
  | error g g' w' u' left right post => exact .error g g' w' u' left right post
  | ok rs rs' w' u' left right post =>
    simp only [right] at high
    exact .ok rs rs' w' u' left right ⟨post.1, post.2, high⟩

theorem follows_auxgetstr (t : Value) (k : List UInt8) (lifted : Lifted bases u w) :
    Follows bases (auxgetstr vm .main t k) (auxgetstr vm' .main t k) u w := by
  -- the value takes the slot of the key, which both stacks have on top
  have stored {u' w' : World} (v : Value) (lifted' : Lifted bases u' w')
      (own : 1 ≤ u'.main.slots.length) : Follows bases
        (do
          let s ← getThread .main
          setThread { s with slots := v :: s.slots.drop 1 } .main
          return (LuaType.ofValue v).type)
        (do
          let s ← getThread .main
          setThread { s with slots := v :: s.slots.drop 1 } .main
          return (LuaType.ofValue v).type) u' w' := by
    apply Follows.step run_getThread run_getThread
    apply Follows.step (run_modify _ w') (run_modify _ u')
    apply Follows.pure
    apply lifted'.setThread .main
    rw [lifted'.main, List.drop_append_of_le_length own, List.cons_append]
  apply Follows.step (run_get w) (run_get u)
  cases present : u.heap.fastget t (.string (Utf8.cString k)) with
  | some v =>
    simp only [lifted.heap, present]
    apply Follows.step (run_pushed v) (run_pushed v)
    exact .pure (lifted.pushed v) _
  | none =>
    have pushed := lifted.pushed (.string (Utf8.cString k))
    have own : 1 ≤ (u.pushed (.string (Utf8.cString k))).main.slots.length := by
      rw [World.pushed_slots u _]
      exact Nat.succ_le_succ (Nat.zero_le _)
    simp only [lifted.heap, present]
    apply Follows.step (run_pushed _) (run_pushed _)
    cases u.heap.finishget (.string (Utf8.cString k)) Heap.MAXTAGLOOP t with
    | value v =>
      apply Follows.step (run_pure v _) (run_pure v _)
      exact stored v pushed own
    | fail e => exact Follows.raised pushed e
    | call tm object =>
      apply Simulates.bind
      refine Simulates.mono (follows_call follows tm _ pushed) ?_ fun _ _ _ _ h => h
      rintro results w' _ u' ⟨rfl, lifted', high⟩
      apply Follows.step (run_pure _ w') (run_pure _ u')
      exact stored _ lifted' (own.trans high)

theorem follows_getGlobal (name : String) (lifted : Lifted bases u w) :
    Follows bases (LowLevelLua.getGlobal vm .main name) (LowLevelLua.getGlobal vm' .main name)
      u w := by
  refine .when_open lifted (fun alive => ?_) fun closed shut =>
    .of_refused lifted (refused_getGlobal vm shut name) (refused_getGlobal vm' closed name)
  apply Follows.step (run_allocateFrom name (lifted.alive alive)) (run_allocateFrom name alive)
  refine .bind ?_ fun _ _ _ lifted' => .pure lifted' ()
  apply Follows.step (run_enter (lifted.alive alive)) (run_enter alive)
  apply Follows.step (run_get w) (run_get u)
  rw [lifted.heap]
  exact follows_auxgetstr follows _ _ lifted

theorem follows_getFieldType (key : String) (lifted : Lifted bases u w) :
    Follows bases (LuaTable.getFieldType vm ⟨.main, -1⟩ key)
      (LuaTable.getFieldType vm' ⟨.main, -1⟩ key) u w := by
  refine .when_open lifted (fun alive => ?_) fun closed shut =>
    .of_refused lifted ((refused_allocateFrom shut key).bind _)
      ((refused_allocateFrom closed key).bind _)
  apply Follows.step (run_allocateFrom key (lifted.alive alive)) (run_allocateFrom key alive)
  refine .bind ?_ ?_
  · apply Follows.step (run_enter (lifted.alive alive)) (run_enter alive)
    cases top : u.main.slots with
    | nil => exact ((stuck_top top).bind _).follows
    | cons v own =>
      apply Follows.step (index2value_top (lifted.top top)) (index2value_top top)
      exact follows_auxgetstr follows v _ (lifted.check _ _ _ _)
  · intro type u' w' lifted'
    cases LuaType.forCode type with
    | some known => exact .pure lifted' known
    | none => exact .throws lifted' _

theorem follows_getField (key : String) (expected : LuaType) (lifted : Lifted bases u w) :
    Follows bases (LuaTable.getField vm ⟨.main, -1⟩ key expected)
      (LuaTable.getField vm' ⟨.main, -1⟩ key expected) u w := by
  apply Follows.bind (follows_getFieldType follows key lifted)
  intro type u' w' lifted'
  exact .ite (fun _ => .throws lifted' _) fun _ => .pure lifted' ()

omit follows in
/- A drop of slots both stacks have. -/
theorem follows_drop {n : Nat} (own : n ≤ u.main.slots.length) (lifted : Lifted bases u w) :
    Follows bases (drop .main n) (drop .main n) u w := by
  apply Follows.step run_getThread run_getThread
  have same : w.main.slots.drop n = u.main.slots.drop n ++ bases .main := by
    rw [lifted.main, List.drop_append_of_le_length own]
  exact .settles (a := .ok ()) (run_modify _ w) (run_modify _ u) (lifted.setThread .main same)

theorem follows_auxsetstr (t : Value) (k : List UInt8) (lifted : Lifted bases u w) :
    Follows bases (auxsetstr vm .main t k) (auxsetstr vm' .main t k) u w := by
  have stored {u' w' : World} (id : TableId) (val : Value) (n : Nat) (lifted' : Lifted bases u' w')
      (own : n ≤ u'.main.slots.length) : Follows bases
        (do rawset id (.string (Utf8.cString k)) val; drop .main n)
        (do rawset id (.string (Utf8.cString k)) val; drop .main n) u' w' := by
    have changed := lifted'.withHeap (u'.heap.rawset id (.string (Utf8.cString k)) val)
    rw [← lifted'.heap] at changed
    apply Follows.step (run_rawset id _ val) (run_rawset id _ val)
    rw [← lifted'.heap]
    exact follows_drop own changed
  apply Follows.step (run_get w) (run_get u)
  apply Follows.step run_getThread run_getThread
  apply Follows.step (run_modify _ w) (run_modify _ u)
  have checked := lifted.check (1 < u.main.top - u.main.func) (1 < w.main.top - w.main.func)
    .notEnoughElements .notEnoughElements
  cases top : u.main.slots with
  | nil => exact .stuck (run_throw _ _)
  | cons val own =>
    have one : 1 ≤ (u.check (1 < u.main.top - u.main.func)
        .notEnoughElements).main.slots.length := by
      rw [World.main_check, top]
      exact Nat.succ_le_succ (Nat.zero_le _)
    simp only [lifted.top top, lifted.heap, follows.inserts]
    cases u.heap.fastset vm.insertkey t (.string (Utf8.cString k)) with
    | some id => exact stored id val 1 checked one
    | none =>
      have pushed := checked.pushed (.string (Utf8.cString k))
      have two : 2 ≤ ((u.check (1 < u.main.top - u.main.func) .notEnoughElements).pushed
          (.string (Utf8.cString k))).main.slots.length := by
        rw [World.pushed_slots]
        exact Nat.succ_le_succ one
      apply Follows.step (run_pushed _) (run_pushed _)
      cases u.heap.finishset vm.insertkey (.string (Utf8.cString k)) Heap.MAXTAGLOOP t with
      | store id => exact stored id val 2 pushed two
      | fail e => exact Follows.raised pushed e
      | call tm object =>
        apply Simulates.bind
        refine Simulates.mono (follows_call follows tm _ pushed) ?_ fun _ _ _ _ h => h
        rintro results w' _ u' ⟨rfl, lifted', high⟩
        exact follows_drop (two.trans high) lifted'

theorem follows_setGlobal (name : String) (lifted : Lifted bases u w) :
    Follows bases (LowLevelLua.setGlobal vm .main name) (LowLevelLua.setGlobal vm' .main name)
      u w := by
  refine .when_open lifted (fun alive => ?_) fun closed shut =>
    .of_refused lifted (refused_setGlobal vm shut name) (refused_setGlobal vm' closed name)
  apply Follows.step (run_allocateFrom name (lifted.alive alive)) (run_allocateFrom name alive)
  apply Follows.step (run_enter (lifted.alive alive)) (run_enter alive)
  apply Follows.step (run_get w) (run_get u)
  rw [lifted.heap]
  exact follows_auxsetstr follows _ _ lifted

omit follows in
/- A jump to a frame of a thread. -/
theorem Lifted.unwound {u' w' : World} (lifted : Lifted bases u w) (later : Lifted bases u' w')
    (L : ThreadId) : Lifted bases (u'.unwind L u) (w'.unwind L w) := by
  have height : (w'.thread L).slots.length - (w.thread L).top =
      (u'.thread L).slots.length - (u.thread L).top := by
    simp only [LuaState.top, later.slots L, lifted.slots L, List.length_append]
    omega
  have slots : World.bottom (w.thread L).top (w'.thread L).slots =
      World.bottom (u.thread L).top (u'.thread L).slots ++ bases L := by
    rw [World.bottom, height, later.slots L, World.bottom,
      List.drop_append_of_le_length (Nat.sub_le _ _)]
  have back := later.setThread (s := ⟨World.bottom (u.thread L).top (u'.thread L).slots,
    (u.thread L).func, (u.thread L).ciTop⟩) (t := ⟨World.bottom (w.thread L).top
    (w'.thread L).slots, (w.thread L).func, (w.thread L).ciTop⟩) L slots
  exact back.withCalls lifted.calls

omit follows in
theorem follows_protected {α : Type} {x x' : Wrapper α} (L : ThreadId)
    (lifted : Lifted bases u w) (run : Follows bases x x' u w) :
    Follows bases (rawrunprotected L x) (rawrunprotected L x') u w := by
  cases run with
  | undefined g u' right open' =>
    refine .undefined g u' ?_ open'
    rw [rawrunprotected, right, open']
  | ok a b w' u' left right post =>
    obtain ⟨rfl, lifted'⟩ := post
    refine .ok (.ok a) (.ok a) w' u' ?_ ?_ ⟨rfl, lifted'⟩
    · rw [rawrunprotected, left]
    · rw [rawrunprotected, right]
  | error f g w' u' left right post =>
    obtain ⟨rfl, lifted'⟩ := post
    by_cases caught : ∃ e, f = .luaError L e
    · obtain ⟨e, rfl⟩ := caught
      refine .ok (.error e) (.error e) (w'.unwind L w) (u'.unwind L u) ?_ ?_
        ⟨rfl, lifted.unwound lifted' L⟩
      · rw [rawrunprotected, left]
        exact if_pos rfl
      · rw [rawrunprotected, right]
        exact if_pos rfl
    · refine .error f f w' u' ?_ ?_ ⟨rfl, lifted'⟩
      · exact rawrunprotected_other left fun e same => caught ⟨e, same⟩
      · exact rawrunprotected_other right fun e same => caught ⟨e, same⟩

theorem follows_popString (lifted : Lifted bases u w) :
    Follows bases (LuaStack.popString vm .main) (LuaStack.popString vm' .main) u w := by
  refine .when_open lifted (fun alive => ?_) fun closed _ => .of_dead (dead_popString vm' closed)
  cases top : u.main.slots with
  | nil => exact (stuck_popString vm' alive top).follows
  | cons v own =>
    obtain ⟨r', right, _⟩ := LuaStack.run_popString vm' alive top (P := fun _ => True)
      ⟨trivial, trivial⟩
    obtain ⟨r, left, _⟩ := LuaStack.run_popString vm (lifted.alive alive) (lifted.top top)
      (P := fun _ => True) ⟨trivial, trivial⟩
    rw [follows.libc] at right
    have one : 1 ≤ u.main.slots.length := by
      rw [top]
      exact Nat.succ_le_succ (Nat.zero_le _)
    exact .settles left right (lifted.ended left (lowers_popping (lowers_toString vm (-1))) one
      (LuaStack.remaining_append v own _))

theorem follows_checkStatus (name : String) {x x' : Wrapper Int} (run : Follows bases x x' u w) :
    Follows bases (LowLevelLua.checkStatus vm .main name x)
      (LowLevelLua.checkStatus vm' .main name x') u w := by
  apply Follows.bind run
  intro status u' w' lifted
  refine .ite (fun _ => ?_) fun _ => .pure lifted ()
  apply Follows.bind (follows_popString follows lifted)
  intro message u'' w'' lifted'
  exact .throws lifted' _

theorem follows_luaPcallk (nargs nresults : Nat) (alive : u.Alive) (lifted : Lifted bases u w) :
    Follows bases (luaPcallk vm .main nargs nresults) (luaPcallk vm' .main nargs nresults) u w := by
  apply Follows.step (run_enter (lifted.alive alive)) (run_enter alive)
  apply Follows.step run_getThread run_getThread
  apply Follows.step (run_modify _ w) (run_modify _ u)
  apply Follows.step (run_modify _ _) (run_modify _ _)
  apply Follows.step (run_modify _ _) (run_modify _ _)
  have checked := ((lifted.check (nargs + 1 < u.main.top - u.main.func)
    (nargs + 1 < w.main.top - w.main.func) .notEnoughElements .notEnoughElements).check
    (u.main.top + nresults ≤ u.main.ciTop + nargs) (w.main.top + nresults ≤ w.main.ciTop + nargs)
    .resultsOverflow .resultsOverflow).check (nresults ≤ MAXRESULTS) (nresults ≤ MAXRESULTS)
    .numberOfResults .numberOfResults
  cases dropped : u.main.slots.drop nargs with
  | nil => exact .stuck (run_throw _ _)
  | cons f below =>
    have counted : nargs ≤ u.main.slots.length := by
      have positive := congrArg List.length dropped
      rw [List.length_drop, List.length_cons] at positive
      omega
    have same : w.main.slots.drop nargs = f :: (below ++ bases .main) := by
      rw [lifted.main, List.drop_append_of_le_length counted, dropped, List.cons_append]
    have taken : w.main.slots.take nargs = u.main.slots.take nargs := by
      rw [lifted.main, List.take_append_of_le_length counted]
    simp only [same, taken]
    have lowered := checked.setThread (s := { u.main with slots := below })
      (t := { w.main with slots := below ++ bases .main }) .main rfl
    apply Follows.step (run_modify _ _) (run_modify _ _)
    apply Follows.bind (follows_protected .main lowered (follows.call f _ bases _ _ lowered))
    intro outcome u' w' lifted'
    apply Follows.step run_getThread run_getThread
    cases outcome with
    | ok results =>
      apply Follows.step (run_modify _ w') (run_modify _ u')
      apply Follows.pure
      apply lifted'.setThread .main
      rw [lifted'.main, List.append_assoc]
    | error e =>
      apply Follows.step (run_modify _ w') (run_modify _ u')
      apply Follows.pure
      apply lifted'.setThread .main
      rw [lifted'.main, List.cons_append]

theorem follows_pcall (nargs nresults : Nat) (lifted : Lifted bases u w) :
    Follows bases (LowLevelLua.pcall vm .main nargs nresults)
      (LowLevelLua.pcall vm' .main nargs nresults) u w := by
  refine .when_open lifted (fun alive => ?_) fun closed _ =>
    .of_dead (dead_pcall vm' closed nargs nresults)
  exact follows_checkStatus follows _ (follows_luaPcallk follows nargs nresults alive lifted)

theorem follows_loadString (chunk : String) (lifted : Lifted bases u w) :
    Follows bases (LowLevelLua.loadString vm .main chunk) (LowLevelLua.loadString vm' .main chunk)
      u w := by
  refine .when_open lifted (fun alive => ?_) fun closed shut =>
    .of_refused lifted (((refused_allocateFrom shut chunk).bind _).bind _)
      (((refused_allocateFrom closed chunk).bind _).bind _)
  apply follows_checkStatus follows
  apply Follows.step (run_allocateFrom chunk (lifted.alive alive)) (run_allocateFrom chunk alive)
  apply Follows.step (run_enter (lifted.alive alive)) (run_enter alive)
  rw [follows.load]
  cases vm.load (Utf8.cString (Utf8.encode chunk.toList ++ [0])) with
  | ok f =>
    apply Follows.step (run_pushed f) (run_pushed f)
    exact .pure (lifted.pushed f) LUA_OK
  | error e =>
    apply Follows.step (run_pushed e.object) (run_pushed e.object)
    exact .pure (lifted.pushed e.object) e.status

theorem follows_exec (chunk : String) (lifted : Lifted bases u w) :
    Follows bases (LuaInterpreter.exec vm .main chunk) (LuaInterpreter.exec vm' .main chunk)
      u w := by
  apply Follows.bind (follows_loadString follows chunk lifted)
  intro _ u' w' lifted'
  exact follows_pcall follows 0 0 lifted'

theorem follows_callFunction (f : LuaFunction) (lifted : Lifted bases u w) :
    Follows bases (f.call vm .main) (f.call vm' .main) u w := by
  apply Follows.bind (follows_getGlobal follows f.name lifted)
  intro _ u₁ w₁ got
  apply Follows.bind (follows_pushObjects f.argumentValues got)
  intro _ u₂ w₂ pushed
  apply Follows.bind (follows_pcall follows _ _ pushed)
  intro _ u₃ w₃ called
  exact follows_popObjects follows.libc f.resultTypes called

/-- Every operation but close does the same above whatever lies on the stacks. -/
theorem follows_operation {o : Operation} (kept : o ≠ .close) (lifted : Lifted bases u w) :
    Follows bases (LuaInterpreter.operation vm .main o) (LuaInterpreter.operation vm' .main o)
      u w := by
  have noted (s t : Step) := lifted.addStep s t
  induction o using Operation.families with
  | exec chunk =>
    apply Follows.step (run_modify _ w) (run_modify _ u)
    exact (follows_exec follows chunk (noted _ _)).map
  | getGlobal k name =>
    rw [Kind.operation_getGlobal, Kind.operation_getGlobal]
    apply Follows.step (run_modify _ w) (run_modify _ u)
    apply Follows.bind (follows_getGlobal follows name (noted _ _))
    intro _ u' w' got
    exact follows_pop follows.libc k got
  | getGlobalTable name =>
    apply Follows.step (run_modify _ w) (run_modify _ u)
    apply Follows.map
    apply Follows.bind (follows_getGlobal follows name (noted _ _))
    intro _ u' w' got
    exact follows_table got
  | setGlobal s name =>
    rw [Setter.operation_setGlobal, Setter.operation_setGlobal]
    apply Follows.step (run_modify _ w) (run_modify _ u)
    apply Follows.map
    apply Follows.bind (follows_setter_push s (noted _ _))
    intro _ u' w' pushed
    exact follows_setGlobal follows name pushed
  | call f =>
    apply Follows.step (run_modify _ w) (run_modify _ u)
    exact (follows_callFunction follows f (noted _ _)).map
  | getField k table key =>
    rw [Kind.operation_getField, Kind.operation_getField]
    apply Follows.step (run_modify _ w) (run_modify _ u)
    apply Follows.bind (follows_getField follows key k.fieldType (noted _ _))
    intro _ u' w' got
    exact follows_pop follows.libc k got
  | close => exact absurd rfl kept

end

end Luava
