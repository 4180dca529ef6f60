import Luava.Frames

/-
The functions of the wrapper do what their readings without the stack do. The Lua code they start
is asked to do the same.
-/
namespace Luava

open Effects LuaApi

namespace Direct

variable {w : World}

theorem enter_open (opened : w.status ≠ .closed) : enter w.store = .ok ⟨⟩ w.store := by
  simp [enter, run_bind, run_get, World.store, opened, run_pure]

theorem enter_closed (closed : w.Closed) : enter w.store = .error .undefined w.store := by
  simp [enter, run_bind, run_get, World.store, closed.status, run_throw]

theorem allocate_open (alive : w.Alive) : allocate w.store = .ok ⟨⟩ w.store := by
  simp [allocate, run_bind, run_get, World.store, alive.arena, run_pure]

theorem allocate_closed (closed : w.Closed) :
    allocate w.store = .error (.exception (.illegalState "Already closed")) w.store := by
  simp [allocate, run_bind, run_get, World.store, closed.arena, run_throw]

theorem allocateIf_open (alive : w.Alive) (needed : Bool) :
    allocateIf needed w.store = .ok ⟨⟩ w.store := by
  cases needed with
  | true => exact allocate_open alive
  | false => rfl

theorem register_store (callbacks : List Callback) :
    register callbacks w.store = .ok ⟨⟩ (w.register callbacks).store := rfl

end Direct

variable {undefined : Fault → Prop} {w₀ w : World} {own : List Value} {α β : Type}

/- A state is open or closed; of a closed one, what starts with a native function or with an
   allocation makes no more than that. -/
theorem Implements.when_open {x : Wrapper α} {d : Direct β} {Q : α → β → List Value → Prop}
    (above : Above w₀ own w) (alive : w.Alive → Implements undefined w₀ x d w Q)
    (closed : w.Closed → Implements undefined w₀ x d w Q) : Implements undefined w₀ x d w Q := by
  by_cases status : w.status = .closed
  · exact closed (above.sound.closed status)
  · exact alive (above.sound.alive status)

theorem Implements.of_dead {x : Wrapper α} {d : Unit → Direct β} {Q : α → β → List Value → Prop}
    (closed : w.Closed) (dead : Dead x w) :
    Implements undefined w₀ x (Direct.enter >>= d) w Q :=
  .faults dead (bind_of_error (Direct.enter_closed closed) d) (w.store_fail _) trivial

theorem Implements.of_refused {x : Wrapper α} {d : Unit → Direct β}
    {Q : α → β → List Value → Prop} (above : Above w₀ own w) (closed : w.Closed)
    (refused : Refused x w) : Implements undefined w₀ x (Direct.allocate >>= d) w Q :=
  .faults refused (bind_of_error (Direct.allocate_closed closed) d) rfl ⟨own, above⟩

namespace LuaStack

theorem remaining_append {a : Except JavaException α} (v : Value) (own rest : List Value) :
    remaining a v (own ++ rest) = remaining a v own ++ rest := by
  cases a <;> rfl

end LuaStack

section Reads

variable (vm : VM) {v : Value}

theorem implements_pop (k : Kind) (above : Above w₀ (v :: own) w) :
    Implements undefined w₀ (k.pop vm) (Direct.pop vm k v) w
      fun a b own' => a = b ∧ own' = own := by
  refine .when_open above (fun alive => ?_) fun closed => ?_
  · obtain ⟨r, popped, _⟩ := k.run_pop vm alive above.slots (P := fun _ => True)
      ⟨trivial, trivial⟩
    have mine := LuaStack.remaining_append (a := k.resultOf vm.libc v) v own w₀.main.slots
    have after := above.settled popped (lowers_kind_pop vm k) (Nat.succ_le_succ (Nat.zero_le _))
      mine
    have settled : Implements undefined w₀ (k.pop vm) (Direct.settle (k.resultOf vm.libc v)) w
        fun a b own' => a = b ∧ own' = own := by
      refine .settles popped rfl after fun b ok => ⟨rfl, ?_⟩
      rw [ok]
      rfl
    cases k with
    | string | boolean => exact .spec_step (Direct.enter_open alive.status) settled
    | integer | number => exact .spec_step (Direct.allocate_open alive) settled
  · cases k with
    | string => exact .of_dead closed ((dead_popString vm closed).map _)
    | boolean => exact .of_dead closed ((dead_popBoolean closed).map _)
    | integer => exact .of_refused above closed ((refused_popInteger vm closed).map _)
    | number => exact .of_refused above closed ((refused_popNumber vm closed).map _)

theorem implements_table (above : Above w₀ (v :: own) w) :
    Implements undefined w₀ (LowLevelLua.table .main (-1)) (Direct.table v) w
      fun a b own' => a = b ∧ own' = v :: own := by
  refine .when_open above (fun alive => ?_) fun closed => ?_
  · obtain ⟨r, run, _⟩ := LowLevelLua.run_table alive above.slots (P := fun _ => True) trivial
    have after := above.settled run lowers_table (Nat.zero_le _) above.slots
    exact .spec_step (Direct.enter_open alive.status)
      (.settles run rfl after fun _ _ => ⟨rfl, rfl⟩)
  · exact .of_dead closed (((dead_getType closed (-1)).bind _ :
      Dead (LowLevelLua.assertType .main (-1) .table) w).bind _)

/- The conversions look at as many slots as there are types. -/
theorem LuaFunction.objectsOf_append (libc : Libc) {types : List JavaClass} {vs : List Value}
    (rest : List Value) (counted : types.length = vs.length) :
    LuaFunction.objectsOf libc types (vs ++ rest) = LuaFunction.objectsOf libc types vs := by
  induction types generalizing vs with
  | nil => cases vs <;> rfl
  | cons type types ih =>
    cases vs with
    | nil => cases counted
    | cons v vs =>
      simp only [List.length_cons, Nat.succ.injEq] at counted
      simp only [List.cons_append, LuaFunction.objectsOf, ih counted]

theorem implements_getResultValues {types : List JavaClass} {results : List Value}
    (counted : results.length = types.length) (above : Above w₀ (results.reverse ++ own) w) :
    Implements undefined w₀ (types.mapM (LuaStack.popObject vm .main))
      (Direct.getResultValues vm types results) w fun a b own' => a = b ∧ own' = own := by
  have slots : w.main.slots = results.reverse ++ (own ++ w₀.main.slots) := by
    rw [above.slots, List.append_assoc]
  have same : LuaFunction.objectsOf vm.libc types w.main.slots =
      LuaFunction.objectsOf vm.libc types results.reverse := by
    rw [slots]
    exact LuaFunction.objectsOf_append vm.libc _ (by rw [List.length_reverse, counted])
  have few : types.length ≤ (results.reverse ++ own).length := by
    rw [List.length_append, List.length_reverse, counted]
    exact Nat.le_add_right _ _
  refine .when_open above (fun alive => ?_) fun closed => ?_
  · have spec (a : Except JavaException (List Object))
        (values : LuaFunction.objectsOf vm.libc types results.reverse = a) :
        Direct.getResultValues vm types results w.store = Direct.settle a w.store := by
      rw [Direct.getResultValues, values]
      split
      · exact bind_of_ok (Direct.enter_open alive.status) _
      · rfl
    have ended := LuaFunction.ensures_getResultValues vm types alive (P := fun _ => True)
      ⟨trivial, trivial⟩
    unfold Ensures at ended
    cases run : types.mapM (LuaStack.popObject vm .main) w with
    | ok os w' =>
      simp only [run] at ended
      obtain ⟨_, values, _, r, rfl, _⟩ := ended
      have settled : types.mapM (LuaStack.popObject vm .main) w =
          (w.withMain (w.main.slots.drop types.length) r).settle (.ok os) := run
      have mine : w.main.slots.drop types.length = own ++ w₀.main.slots := by
        rw [slots, List.drop_left' (by rw [List.length_reverse, counted])]
      have after := above.settled settled (lowers_popObjects vm types) few mine
      exact .ok os os _ w.store run (spec (.ok os) (same ▸ values)) ⟨rfl, own, after, rfl, rfl⟩
    | error f w' =>
      simp only [run] at ended
      obtain ⟨r, rfl, _, ⟨short, _⟩ | ⟨fewer, e, rfl, values⟩⟩ := ended
      · rw [slots, List.length_append, List.length_reverse, counted] at short
        omega
      · have settled : types.mapM (LuaStack.popObject vm .main) w = (w.withMain (w.main.slots.drop
            (LuaFunction.popCount vm.libc types w.main.slots)) r).settle (.error e) := run
        have mine := congrArg (List.drop (LuaFunction.popCount vm.libc types w.main.slots))
          above.slots
        rw [List.drop_append_of_le_length (fewer.le.trans few)] at mine
        have after := above.settled settled (lowers_popObjects vm types) few mine
        exact .faults run (spec (.error e) (same ▸ values)) rfl ⟨_, after⟩
  · cases types with
    | nil =>
      obtain rfl : results = [] := List.length_eq_zero_iff.mp counted
      rw [List.mapM_nil]
      exact .ends above ⟨rfl, rfl⟩
    | cons type types =>
      rw [List.mapM_cons]
      exact .of_dead closed ((dead_popObject vm closed type).bind _)

end Reads

section Pushes

/- A push of one value, with the callbacks it registers. -/
theorem implements_push {x : Wrapper Unit} {d : Direct Value} {v : Value}
    {callbacks : List Callback} {r : Record} (above : Above w₀ own w)
    (run : x w = .ok ⟨⟩ ((w.register callbacks).withMain (v :: w.main.slots) r))
    (lowers : Lowers 0 x) (spec : d w.store = .ok v (w.register callbacks).store) :
    Implements undefined w₀ x d w fun _ b own' => b = v ∧ own' = v :: own := by
  refine .ok ⟨⟩ v _ _ run spec ⟨rfl, v :: own, ?_, rfl, rfl⟩
  have low := (lowers w).low
  have ended : Machine.endOf x w = (w.register callbacks).withMain (v :: w.main.slots) r := by
    rw [Machine.endOf, run]
  rw [ended] at low
  exact
    { slots := by rw [World.withMain_slots, above.slots, List.cons_append]
      func := above.func
      ciTop := above.ciTop
      low := (above.base_le 0 (Nat.zero_le _)).trans low
      sound := above.sound }

/- The last steps of a push in its reading: the callbacks are registered, and the native
   function is entered. -/
theorem register_enter (alive : w.Alive) (callbacks : List Callback) (v : Value) :
    (do Direct.register callbacks; Direct.enter; return v : Direct Value) w.store =
      .ok v (w.register callbacks).store := by
  have alive' : (w.register callbacks).Alive := (w.register_alive callbacks).mpr alive
  rw [bind_of_ok (Direct.register_store callbacks),
    bind_of_ok (Direct.enter_open alive'.status)]
  rfl

theorem implements_pushObject (o : Object) (above : Above w₀ own w) :
    Implements undefined w₀ (LuaStack.pushObject .main o) (Direct.pushObject o) w
      fun _ v own' => own' = v :: own := by
  refine .when_open above (fun alive => ?_) fun closed => ?_
  · have spec : Direct.pushObject o w.store = (do
        let v ← Direct.settle (LuaStack.imageOf w.callbacks.length o)
        Direct.register (LuaStack.callbacksOf o)
        Direct.enter
        return v : Direct Value) w.store := bind_of_ok (Direct.allocateIf_open alive _) _
    cases image : LuaStack.imageOf w.callbacks.length o with
    | error e =>
      rw [image] at spec
      exact .faults (LuaStack.run_pushObject_refused image) spec rfl ⟨own, above⟩
    | ok v =>
      rw [image] at spec
      obtain ⟨r, run, _⟩ := LuaStack.run_pushObject alive (P := fun _ => True) (.inr trivial) image
      refine (implements_push above run (lowers_pushObject o)
        (spec.trans (register_enter alive _ v))).mono ?_
      rintro _ b own' ⟨rfl, rfl⟩
      rfl
  · have entered (v : Value) (dead : Dead (LuaStack.pushObject .main o) w)
        (spec : Direct.pushObject o w.store = (do
          Direct.register []; Direct.enter; return v : Direct Value) w.store) :
        Implements undefined w₀ (LuaStack.pushObject .main o) (Direct.pushObject o) w
          fun _ v own' => own' = v :: own := by
      refine .faults dead (spec.trans ?_) (w.store_fail _) trivial
      rw [bind_of_ok (Direct.register_store []), w.register_nil,
        bind_of_error (Direct.enter_closed closed)]
    cases o with
    | string text => exact .of_refused above closed ((refused_allocateFrom closed text).bind _)
    | function f => exact .of_refused above closed ((refused_allocate closed).bind _)
    | other className text => exact .faults (run_throwJava _ w) rfl rfl ⟨own, above⟩
    | null => exact entered .nil ((dead_enter closed).bind _) rfl
    | integer i => exact entered (.integer i.toInt64) ((dead_enter closed).bind _) rfl
    | long i => exact entered (.integer i) ((dead_enter closed).bind _) rfl
    | float n => exact entered (.float n.toBinary64) ((dead_enter closed).bind _) rfl
    | double n => exact entered (.float n) ((dead_enter closed).bind _) rfl
    | boolean b => exact entered (.boolean b) ((dead_enter closed).bind _) rfl

theorem implements_pushObjects (os : List Object) (above : Above w₀ own w) :
    Implements undefined w₀ (os.forM (LuaStack.pushObject .main)) (os.mapM Direct.pushObject) w
      fun _ vs own' => vs.length = os.length ∧ own' = vs.reverse ++ own := by
  induction os generalizing own w with
  | nil =>
    rw [List.mapM_nil]
    exact .ends above ⟨rfl, rfl⟩
  | cons o os ih =>
    rw [List.mapM_cons]
    refine .bind (implements_pushObject o above) ?_
    rintro _ v own' w' above' rfl
    rw [← bind_pure (os.forM (LuaStack.pushObject .main))]
    refine .bind (ih above') ?_
    rintro _ vs own'' w'' above'' ⟨counted, rfl⟩
    refine .ends above'' ⟨congrArg (· + 1) counted, ?_⟩
    rw [List.reverse_cons, List.append_assoc]
    rfl

theorem implements_pushSetter (s : Setter) (above : Above w₀ own w) :
    Implements undefined w₀ s.push (Direct.pushSetter s) w fun _ v own' => own' = v :: own := by
  refine .when_open above (fun alive => ?_) fun closed => ?_
  · have spec : Direct.pushSetter s w.store = (do
        Direct.register s.callbacks
        Direct.enter
        return s.value w.callbacks.length : Direct Value) w.store :=
      bind_of_ok (Direct.allocateIf_open alive _) _
    obtain ⟨r, run, _⟩ := s.run_push alive (P := fun _ => True) (.inr trivial)
    refine (implements_push above run (lowers_setter_push s)
      (spec.trans (register_enter alive _ _))).mono ?_
    rintro _ b own' ⟨rfl, rfl⟩
    rfl
  · have entered (dead : Dead s.push w) (spec : Direct.pushSetter s w.store = (do
          Direct.register []; Direct.enter; return s.value w.callbacks.length : Direct Value)
            w.store) :
        Implements undefined w₀ s.push (Direct.pushSetter s) w fun _ v own' => own' = v :: own := by
      refine .faults dead (spec.trans ?_) (w.store_fail _) trivial
      rw [bind_of_ok (Direct.register_store []), w.register_nil,
        bind_of_error (Direct.enter_closed closed)]
    cases s with
    | string text => exact .of_refused above closed ((refused_allocateFrom closed text).bind _)
    | function method => exact .of_refused above closed ((refused_allocate closed).bind _)
    | integer i => exact entered ((dead_enter closed).bind _) rfl
    | number n => exact entered ((dead_enter closed).bind _) rfl
    | boolean b => exact entered ((dead_enter closed).bind _) rfl

end Pushes

/-- What Lua code does in a call from the main thread is what call says, which does not know the
stack, and the slots below are not touched. Of calls that end in an undefined fault there it says
nothing. -/
structure VM.Isolated (undefined : Fault → Prop) (vm : VM) (call : DirectCall) : Prop where
  defined : ∀ e, ¬ undefined (.luaError .main e)
  implements : ∀ f args w, w.Sound → Implements undefined w (vm.call .main f args) (call f args) w
    fun results results' own => results = results' ∧ own = []

section Failures

variable (vm : VM) {v : Value}

/- The error object of a failed call is popped for the message, or stays. -/
theorem implements_failure (name : String) (status : Int)
    {R : Unit → β → List Value → Prop} (alive : w.Alive) (above : Above w₀ (v :: own) w) :
    Implements undefined w₀ (do
        let message ← LuaStack.popString vm .main
        throwJava (.functionCallException name status message) : Wrapper Unit)
      (throw (.exception (LowLevelLua.failure vm.libc name status v)) : Direct β) w R := by
  obtain ⟨r, popped, _⟩ := LuaStack.run_popString vm alive above.slots (P := fun _ => True)
    ⟨trivial, trivial⟩
  have thrown : (do
      let message ← LuaStack.popString vm .main
      throwJava (.functionCallException name status message) : Wrapper Unit) w =
      (w.withMain (LuaStack.remaining (LuaStack.stringOf vm.libc (-1) v) v
        (own ++ w₀.main.slots)) r).settle
          (.error (LowLevelLua.failure vm.libc name status v)) := by
    unfold LowLevelLua.failure
    cases text : LuaStack.stringOf vm.libc (-1) v with
    | ok message =>
      rw [text] at popped
      exact bind_of_ok popped _
    | error e =>
      rw [text] at popped
      exact bind_of_error popped _
  have lowers : Lowers 1 (do
      let message ← LuaStack.popString vm .main
      throwJava (.functionCallException name status message) : Wrapper Unit) :=
    (lowers_popping (lowers_toString vm (-1))).seq fun _ => lowers_throwJava _
  have after := above.settled thrown lowers (Nat.succ_le_succ (Nat.zero_le _))
    (LuaStack.remaining_append v own _)
  exact .faults thrown rfl rfl ⟨_, after⟩

theorem implements_loadString (chunk : String) (above : Above w₀ own w) :
    Implements undefined w₀ (LowLevelLua.loadString vm .main chunk) (Direct.loadString vm chunk) w
      fun _ f own' => own' = f :: own := by
  rw [LowLevelLua.loadString, LowLevelLua.checkStatus, bind_assoc]
  refine .when_open above (fun alive => ?_) fun closed =>
    .of_refused above closed ((refused_allocateFrom closed chunk).bind _)
  refine .spec_step (Direct.allocate_open alive) (.step (run_allocateFrom chunk alive) rfl ?_)
  rw [luaLLoadstring, Utf8.cString_terminated, bind_assoc]
  refine .step (run_enter alive) rfl ?_
  cases vm.load (Utf8.cString (Utf8.encode chunk.toList)) with
  | ok f =>
    have pushed := above.pushed f
    refine .step (bind_of_ok (run_pushed f) _) (w.store_pushed f) ?_
    rw [if_neg (not_not.mpr rfl)]
    exact .ends pushed rfl
  | error e =>
    have pushed := above.pushed e.object
    refine .step (bind_of_ok (run_pushed e.object) _) (w.store_pushed _) ?_
    rw [if_pos e.failed]
    exact implements_failure vm "luaL_loadstring" e.status (World.pushed_alive alive _) pushed

end Failures

section Accesses

variable {vm : VM} {call : DirectCall} (isolated : vm.Isolated undefined call) {v : Value}

include isolated

/- Lua code started above slots of the operation's own. -/
theorem implements_call (f : Value) (args : List Value) (above : Above w₀ own w) :
    Implements undefined w₀ (vm.call .main f args) (call f args) w
      fun results results' own' => results = results' ∧ own' = own := by
  refine (Implements.rebase above (isolated.implements f args w above.sound)).mono ?_
  rintro results results' own' ⟨more, rfl, same, rfl⟩
  exact ⟨same, rfl⟩

theorem implements_auxgetstr (t : Value) (k : List UInt8) (above : Above w₀ own w) :
    Implements undefined w₀ (auxgetstr vm .main t k)
      (Direct.lookup call t (.string (Utf8.cString k))) w fun _ v own' => own' = v :: own := by
  refine .spec_step (run_get w.store) (.step (run_get w) rfl ?_)
  cases present : w.heap.fastget t (.string (Utf8.cString k)) with
  | some v =>
    have found : w.heap.access t (.string (Utf8.cString k)) = .value v := by
      simp only [Heap.access, present]
    simp only [World.store, present, found]
    have pushed := above.pushed v
    exact .step (run_pushed v) (w.store_pushed v) (.ends pushed rfl)
  | none =>
    have slow : w.heap.access t (.string (Utf8.cString k)) =
        w.heap.finishget (.string (Utf8.cString k)) Heap.MAXTAGLOOP t := by
      simp only [Heap.access, present]
    have pushed := above.pushed (.string (Utf8.cString k))
    -- the value takes the slot of the key, which is the newest of the operation's own
    have stored {u : World} (value : Value) (above' :
        Above w₀ (.string (Utf8.cString k) :: own) u) :
        Implements undefined w₀ (do
          let s ← getThread .main
          setThread { s with slots := value :: s.slots.drop 1 } .main
          return (LuaType.ofValue value).type : Wrapper Int) (pure value : Direct Value) u
          fun _ v own' => own' = v :: own := by
      have slots : value :: u.main.slots.drop 1 = (value :: own) ++ w₀.main.slots := by
        rw [above'.slots]
        rfl
      have set : setThread { u.main with slots := value :: u.main.slots.drop 1 } .main u =
          .ok ⟨⟩ (u.setThread { u.main with slots := (value :: own) ++ w₀.main.slots } .main) := by
        rw [slots]
        rfl
      exact .step run_getThread rfl (.step set rfl (.ends (above'.stored (value :: own)) rfl))
    simp only [World.store, present, slow]
    refine .step (run_pushed _) (w.store_pushed _) ?_
    cases w.heap.finishget (.string (Utf8.cString k)) Heap.MAXTAGLOOP t with
    | value v => exact .step (run_pure v _) rfl (stored v pushed)
    | fail e =>
      exact .faults (bind_of_error (rfl : luaDThrow .main e _ = .error _ _) _) rfl rfl pushed.risen
    | call tm object =>
      refine .bind (implements_call isolated tm _ pushed) ?_
      rintro results _ _ w' above' ⟨rfl, rfl⟩
      exact .step (run_pure _ w') rfl (stored _ above')

theorem implements_getGlobal (name : String) (above : Above w₀ own w) :
    Implements undefined w₀ (LowLevelLua.getGlobal vm .main name) (Direct.getGlobal call name) w
      fun _ v own' => own' = v :: own := by
  refine .when_open above (fun alive => ?_) fun closed =>
    .of_refused above closed (refused_getGlobal vm closed name)
  have read := implements_auxgetstr isolated (.table w.heap.globals)
    (Utf8.encode name.toList ++ [0]) above
  rw [Utf8.cString_terminated] at read
  refine .spec_step (Direct.allocate_open alive) (.spec_step (run_get w.store) ?_)
  refine .step (run_allocateFrom name alive) rfl ?_
  rw [luaGetglobal, bind_assoc]
  refine .step (run_enter alive) rfl ?_
  rw [bind_assoc, ← bind_pure (Direct.lookup _ _ _)]
  refine .step (run_get w) rfl (.bind read ?_)
  rintro _ v own' w' above' rfl
  exact .ends above' rfl

omit isolated in
/- A drop of slots of the operation's own. -/
theorem run_drop_own {n : Nat} {dropped : List Value} (counted : dropped.length = n)
    (above : Above w₀ (dropped ++ own) w) : drop .main n w =
      .ok ⟨⟩ (w.setThread { w.main with slots := own ++ w₀.main.slots } .main) := by
  have slots : w.main.slots.drop n = own ++ w₀.main.slots := by
    rw [above.slots, List.append_assoc, List.drop_left' counted]
  rw [drop, bind_of_ok run_getThread, slots]
  rfl

omit isolated in
theorem implements_drop {n : Nat} (dropped : List Value) (counted : dropped.length = n)
    (above : Above w₀ (dropped ++ own) w) :
    Implements undefined w₀ (drop .main n) (pure () : Direct Unit) w fun _ _ own' => own' = own :=
  .ok ⟨⟩ ⟨⟩ _ w.store (run_drop_own counted above) rfl ⟨rfl, own, above.stored own, rfl⟩

omit isolated in
/- The value and the key, if it is there, are dropped once the table has been changed. -/
theorem implements_store {n : Nat} (id : TableId) (key val : Value) (dropped : List Value)
    (counted : dropped.length = n) (above : Above w₀ (dropped ++ own) w) :
    Implements undefined w₀ (do rawset id key val; drop .main n)
      (modify fun s => { s with heap := s.heap.rawset id key val } : Direct Unit) w
      fun _ _ own' => own' = own := by
  have changed := above.withHeap (w.heap.rawset id key val)
  have run := (bind_of_ok (run_rawset id key val) fun _ => drop .main n).trans
    (run_drop_own counted changed)
  exact .ok ⟨⟩ ⟨⟩ _ _ run rfl ⟨rfl, own, changed.stored own, rfl⟩

/- The assignment of the value on top. The key is pushed on the slow path only. -/
theorem implements_auxsetstr (t : Value) (k : List UInt8) (above : Above w₀ (v :: own) w) :
    Implements undefined w₀ (auxsetstr vm .main t k)
      (Direct.assign vm call t (.string (Utf8.cString k)) v) w fun _ _ own' => own' = own := by
  have step : apiCheck (1 < w.main.top - w.main.func) .notEnoughElements w =
      .ok ⟨⟩ (w.check (1 < w.main.top - w.main.func) .notEnoughElements) := rfl
  have checked := above.check (1 < w.main.top - w.main.func) .notEnoughElements
  refine .spec_step (run_get w.store) (.step (run_get w) rfl (.step run_getThread rfl
    (.step step (w.store_check _ _) ?_)))
  simp only [above.slots, List.cons_append, World.store]
  cases fast : w.heap.fastset vm.insertkey t (.string (Utf8.cString k)) with
  | some id =>
    have found : w.heap.assign vm.insertkey t (.string (Utf8.cString k)) = .store id := by
      simp only [Heap.assign, fast]
    simp only [found]
    exact implements_store id _ v [v] rfl checked
  | none =>
    have slow : w.heap.assign vm.insertkey t (.string (Utf8.cString k)) =
        w.heap.finishset vm.insertkey (.string (Utf8.cString k)) Heap.MAXTAGLOOP t := by
      simp only [Heap.assign, fast]
    have pushed := checked.pushed (.string (Utf8.cString k))
    simp only [slow]
    refine .step (run_pushed _) (World.store_pushed _ _) ?_
    cases w.heap.finishset vm.insertkey (.string (Utf8.cString k)) Heap.MAXTAGLOOP t with
    | store id =>
      exact implements_store id _ v [.string (Utf8.cString k), v] rfl pushed
    | fail e =>
      exact .faults (bind_of_error (rfl : luaDThrow .main e _ = .error _ _) _) rfl rfl pushed.risen
    | call tm object =>
      refine .bind (implements_call isolated tm _ pushed) ?_
      rintro results _ _ w' above' ⟨_, rfl⟩
      exact implements_drop [.string (Utf8.cString k), v] rfl above'

theorem implements_setGlobal (name : String) (above : Above w₀ (v :: own) w) :
    Implements undefined w₀ (LowLevelLua.setGlobal vm .main name)
      (Direct.setGlobal vm call name v) w fun _ _ own' => own' = own := by
  refine .when_open above (fun alive => ?_) fun closed =>
    .of_refused above closed (refused_setGlobal vm closed name)
  have written := implements_auxsetstr isolated (.table w.heap.globals)
    (Utf8.encode name.toList ++ [0]) above
  rw [Utf8.cString_terminated] at written
  refine .spec_step (Direct.allocate_open alive) (.spec_step (run_get w.store) ?_)
  refine .step (run_allocateFrom name alive) rfl ?_
  exact .step (run_enter alive) rfl (.step (run_get w) rfl written)

omit isolated in
theorem protect_other {x : Direct α} {f : Fault} {s s' : Store} (run : x s = .error f s')
    (other : ∀ e, f ≠ .luaError .main e) : Direct.protect x s = .error f s' := by
  rw [Direct.protect, run]
  cases f with
  | luaError L e =>
    cases L with
    | main => exact absurd rfl (other e)
    | coroutine id => rfl
  | _ => rfl

omit isolated in
theorem rawrunprotected_other {x : Wrapper α} {f : Fault} {w' : World} {L : ThreadId}
    (run : x w = .error f w') (other : ∀ e, f ≠ .luaError L e) :
    rawrunprotected L x w = .error f w' := by
  rw [rawrunprotected, run]
  cases f with
  | luaError L' e =>
    have elsewhere : L' ≠ L := fun same => other e (by rw [same])
    exact if_neg elsewhere
  | _ => rfl

omit isolated in
/- An error puts the frame back. -/
theorem Above.unwound {w' : World} (above : Above w₀ own w) (risen : Risen w w') :
    Above w₀ own (w'.unwind .main w) where
  slots := by
    obtain ⟨more, slots⟩ := risen.slots
    show World.bottom w.main.top w'.main.slots = own ++ w₀.main.slots
    rw [slots, World.bottom, LuaState.top, List.length_append, Nat.add_sub_cancel, List.drop_left,
      above.slots]
  func := above.func
  ciTop := above.ciTop
  low := by
    obtain ⟨more, slots⟩ := risen.slots
    have back : (World.bottom w.main.top w'.main.slots).length = w.main.top := by
      rw [slots, World.bottom, LuaState.top, List.length_append, Nat.add_sub_cancel,
        List.drop_left]
    have base := above.base_le 0 (Nat.zero_le _)
    have low := risen.low
    show _ ≤ min w'.record.low (World.bottom w.main.top w'.main.slots).length
    omega
  sound := risen.sound

/- A protected call returns the error its code raises. -/
theorem implements_protected (f : Value) (args : List Value) (above : Above w₀ own w) :
    Implements undefined w₀ (rawrunprotected .main (vm.call .main f args))
      (Direct.protect (call f args)) w
      fun outcome outcome' own' => outcome = outcome' ∧ own' = own := by
  cases isolated.implements f args w above.sound with
  | ok rs rs' w' s left right post =>
    obtain ⟨store, own', later, same, rfl⟩ := post
    refine .ok (.ok rs) (.ok rs') w' s ?_ ?_ ⟨store, own, above.trans later, ?_, rfl⟩
    · rw [rawrunprotected, left]
    · rw [Direct.protect, right]
    · rw [same]
  | undefined g s right open' =>
    have other : ∀ e, g ≠ .luaError .main e := fun e same => isolated.defined e (same ▸ open')
    exact .undefined g s (protect_other right other) open'
  | error g g' w' s left right post =>
    obtain ⟨rfl, store, leaves⟩ := post
    by_cases caught : ∃ e, g = .luaError .main e
    · obtain ⟨e, rfl⟩ := caught
      refine .ok (.error e) (.error e) (w'.unwind .main w) { s with calls := w.calls } ?_ ?_
        ⟨?_, own, above.unwound leaves, rfl, rfl⟩
      · rw [rawrunprotected, left]
        rfl
      · rw [Direct.protect, right]
        rfl
      · rw [← store]
        rfl
    · have other : ∀ e, g ≠ .luaError .main e := fun e same => caught ⟨e, same⟩
      exact .error g g w' s (rawrunprotected_other left other) (protect_other right other)
        ⟨rfl, store, above.thenLeaves leaves⟩

theorem implements_pcall {nargs : Nat} (nresults : Nat) {f : Value} {args : List Value}
    (counted : args.length = nargs) (above : Above w₀ (args.reverse ++ f :: own) w) :
    Implements undefined w₀ (LowLevelLua.pcall vm .main nargs nresults)
      (Direct.pcall vm call f args nresults) w fun _ results own' =>
        (∃ rs, results = moveresults nresults rs) ∧ own' = results.reverse ++ own := by
  refine .when_open above (fun alive => ?_) fun closed =>
    .of_dead closed (dead_pcall vm closed nargs nresults)
  have dropped : w.main.slots.drop nargs = f :: (own ++ w₀.main.slots) := by
    rw [above.slots, List.append_assoc, List.drop_left' (by simpa using counted), List.cons_append]
  have taken : (w.main.slots.take nargs).reverse = args := by
    rw [above.slots, List.append_assoc, List.take_left' (by simpa using counted),
      List.reverse_reverse]
  refine .spec_step (Direct.enter_open alive.status) ?_
  rw [LowLevelLua.pcall, LowLevelLua.checkStatus, luaPcallk]
  simp only [bind_assoc]
  refine .step (run_enter alive) rfl (.step run_getThread rfl ?_)
  refine .step (run_modify _ w) (w.store_check _ _) ?_
  refine .step (run_modify _ _) (World.store_check _ _ _) ?_
  refine .step (run_modify _ _) (World.store_check _ _ _) ?_
  have checked := ((above.check (nargs + 1 < w.main.top - w.main.func) .notEnoughElements).check
    (w.main.top + nresults ≤ w.main.ciTop + nargs) .resultsOverflow).check
    (nresults ≤ MAXRESULTS) .numberOfResults
  have lowered := checked.stored own
  simp only [World.main_check] at lowered
  simp only [dropped, taken, bind_assoc]
  refine .step (run_modify _ _) rfl (.bind (implements_protected isolated f args lowered) ?_)
  rintro outcome _ own' w' above' ⟨rfl, same⟩
  rw [same] at above'
  refine .step run_getThread rfl ?_
  cases outcome with
  | ok rs =>
    have stored := above'.stored ((moveresults nresults rs).reverse ++ own)
    rw [List.append_assoc, ← above'.slots] at stored
    refine .step (bind_of_ok (run_modify _ w') _) rfl ?_
    rw [if_neg (not_not.mpr rfl)]
    exact .ends stored ⟨⟨rs, rfl⟩, rfl⟩
  | error e =>
    have stored := above'.stored (e.object :: own)
    rw [List.cons_append, ← above'.slots] at stored
    refine .step (bind_of_ok (run_modify _ w') _) rfl ?_
    rw [if_pos e.failed]
    refine .when_open stored (fun alive' => ?_) fun closed' =>
      .of_dead closed' ((dead_popString vm closed').bind _)
    exact .spec_step (Direct.enter_open alive'.status)
      (implements_failure vm "lua_pcallk" e.status alive' stored)

theorem implements_exec (chunk : String) (above : Above w₀ own w) :
    Implements undefined w₀ (LuaInterpreter.exec vm .main chunk) (Direct.exec vm call chunk) w
      fun _ _ own' => ∃ rs, own' = (moveresults 0 rs).reverse ++ own := by
  refine .bind (implements_loadString vm chunk above) ?_
  rintro _ f own' w' loaded rfl
  rw [← bind_pure (LowLevelLua.pcall _ _ _ _)]
  refine .bind (implements_pcall isolated 0 (rfl : ([] : List Value).length = 0) loaded) ?_
  rintro _ results own'' w'' called ⟨⟨rs, rfl⟩, rfl⟩
  exact .ends called ⟨rs, rfl⟩

theorem implements_callFunction (f : LuaFunction) (few : f.resultTypes.length ≤ MAXRESULTS)
    (above : Above w₀ own w) :
    Implements undefined w₀ (f.call vm .main) (Direct.callFunction vm call f) w
      fun os os' own' => os = os' ∧ own' = own := by
  refine .bind (implements_getGlobal isolated f.name above) ?_
  rintro _ callee _ w₁ got rfl
  refine .bind (implements_pushObjects f.argumentValues got) ?_
  rintro _ args _ w₂ pushed ⟨counted, rfl⟩
  refine .bind (implements_pcall isolated f.resultTypes.length counted pushed) ?_
  rintro _ _ _ w₃ called ⟨⟨rs, rfl⟩, rfl⟩
  exact implements_getResultValues vm (moveresults_length rs few) called

theorem implements_getAs (k : Kind) (name : String) (above : Above w₀ own w) :
    Implements undefined w₀ (do LowLevelLua.getGlobal vm .main name; k.pop vm)
      (Direct.getAs vm call k name) w fun a b own' => a = b ∧ own' = own := by
  refine .bind (implements_getGlobal isolated name above) ?_
  rintro _ v _ w' got rfl
  exact implements_pop vm k got

theorem implements_setTo (s : Setter) (name : String) (above : Above w₀ own w) :
    Implements undefined w₀ ((fun _ => OperationResult.done) <$> (do
        s.push
        LowLevelLua.setGlobal vm .main name))
      (Direct.setTo vm call s name) w fun a b own' => a = b ∧ own' = own := by
  rw [map_bind]
  refine .bind (implements_pushSetter s above) ?_
  rintro _ v _ w' pushed rfl
  refine .bind (implements_setGlobal isolated name pushed) ?_
  rintro _ _ _ w'' stored rfl
  exact .ends stored ⟨rfl, rfl⟩

end Accesses

/-- The operations that do not look at the stack they find. A number of results that Lua can hand
   over is asked for. -/
def Operation.Framed : Operation → Prop
  | .getString .. | .getInteger .. | .getNumber .. | .getBoolean .. | .close => False
  | .call f => f.resultTypes.length ≤ MAXRESULTS
  | _ => True

/-- An operation does what its reading without the stack does, above the slots it finds. -/
theorem implements_operation {vm : VM} {call : DirectCall} (isolated : vm.Isolated undefined call)
    {o : Operation} (framed : o.Framed) (sound : w.Sound) :
    Implements undefined w (LuaInterpreter.operation vm .main o) (Direct.operation vm call o) w
      fun a b _ => a = b := by
  have start (s : Step) : Above w [] (w.addStep s) := (Above.refl sound).addStep s
  induction o using Operation.families with
  | exec chunk =>
    refine .step (run_modify _ w) rfl (.map ((implements_exec isolated chunk (start _)).mono ?_))
    intro _ _ _ _
    rfl
  | getGlobal k name =>
    have spec : Direct.operation vm call (k.getGlobal name) = Direct.getAs vm call k name := by
      cases k <;> rfl
    rw [Kind.operation_getGlobal, spec]
    refine .step (run_modify _ w) rfl ((implements_getAs isolated k name (start _)).mono ?_)
    rintro a b _ ⟨same, _⟩
    exact same
  | getGlobalTable name =>
    refine .step (run_modify _ w) rfl (.map (.bind (implements_getGlobal isolated name (start _))
      ?_))
    rintro _ v _ w' got rfl
    refine (implements_table got).mono ?_
    rintro a b _ ⟨same, _⟩
    rw [same]
  | setGlobal s name =>
    have spec : Direct.operation vm call (s.setGlobal name) = Direct.setTo vm call s name := by
      cases s <;> rfl
    rw [Setter.operation_setGlobal, spec]
    refine .step (run_modify _ w) rfl ((implements_setTo isolated s name (start _)).mono ?_)
    rintro a b _ ⟨same, _⟩
    exact same
  | call f =>
    refine .step (run_modify _ w) rfl (.map
      ((implements_callFunction isolated f framed (start _)).mono ?_))
    rintro a b _ ⟨same, _⟩
    rw [same]
  | getField k table key => cases k <;> cases framed
  | close => cases framed

end Luava
