import Luava.Runs
import Luava.Lookups

/-
Lua errors outside a protected call. Globals and fields are read and written by natives that
follow the handlers of the table, and no lua_pcallk stands around them: an error raised on the
way reaches the panic handler.
-/
namespace Luava

open Effects LuaApi Machine

/-- x ends in a Lua error that no protected call caught. -/
def Panics {α : Type} (x : Wrapper α) (w : World) : Prop :=
  ∃ L e w', x w = .error (.luaError L e) w'

/-- The read of a key of t raises an error: the chain of handlers ends in one, or the handler
function it ends in raises one. -/
inductive ReadRaises (vm : VM) (t key : Value) (w : World) : Prop
  | chain (e : LuaError) (ends : w.heap.access t key = .fail e)
  | handler (tm object : Value) (ends : w.heap.access t key = .call tm object)
      (raises : Panics (vm.call .main tm [object, key]) (w.pushed key))

/-- The same of a write of val, which is on top in w. -/
inductive WriteRaises (vm : VM) (t key val : Value) (w : World) : Prop
  | chain (e : LuaError) (ends : w.heap.assign vm.insertkey t key = .fail e)
  | handler (tm object : Value) (ends : w.heap.assign vm.insertkey t key = .call tm object)
      (raises : Panics (vm.call .main tm [object, key, val])
        ((w.check (1 < w.main.top - w.main.func) .notEnoughElements).pushed key))

/-- A setter's value is pushed first. -/
def SetRaises (vm : VM) (s : Setter) (name : String) (w : World) : Prop :=
  let val := s.value w.callbacks.length
  WriteRaises vm (.table w.heap.globals) (keyOf name) val ((w.register s.callbacks).pushed val)

/-- The access an operation in w makes to the globals, or to the table a handle denotes,
raises an error. -/
def Raises (vm : VM) (o : Operation) (w : World) : Prop :=
  let start := w.addStep (.operation o w.main w.heap w.status w.calls)
  match o with
  | .exec _ | .close => False
  | .getGlobalString name | .getGlobalInteger name | .getGlobalNumber name
  | .getGlobalBoolean name | .getGlobalTable name =>
    ReadRaises vm (.table w.heap.globals) (keyOf name) start
  | .call f => ReadRaises vm (.table w.heap.globals) (keyOf f.name) start
  | .setGlobalString name value => SetRaises vm (.string value) name start
  | .setGlobalInteger name value => SetRaises vm (.integer value) name start
  | .setGlobalNumber name value => SetRaises vm (.number value) name start
  | .setGlobalBoolean name value => SetRaises vm (.boolean value) name start
  | .setGlobalFunction name method => SetRaises vm (.function method) name start
  | .getString _ key | .getInteger _ key | .getNumber _ key | .getBoolean _ key =>
    ∃ t, w.main.slots.head? = some t ∧ ReadRaises vm t (keyOf key)
      (start.check (1 < w.main.top - w.main.func) .invalidIndex)

namespace Panics

variable {α β : Type} {x : Wrapper α} {w w' : World}

theorem iff_fault {f : Fault} (run : x w = .error f w') :
    Panics x w ↔ ∃ L e, f = .luaError L e := by
  constructor
  · rintro ⟨L, e, u, raised⟩
    cases run.symm.trans raised
    exact ⟨L, e, rfl⟩
  · rintro ⟨L, e, rfl⟩
    exact ⟨L, e, w', run⟩

theorem not_of_ok {a : α} (run : x w = .ok a w') : ¬ Panics x w := by
  rintro ⟨L, e, u, raised⟩
  cases run.symm.trans raised

theorem bind_of_ok {a : α} (run : x w = .ok a w') (f : α → Wrapper β) :
    Panics (x >>= f) w ↔ Panics (f a) w' := by
  unfold Panics
  rw [Effects.bind_of_ok run]

theorem bind_of_error {g : Fault} (run : x w = .error g w') (f : α → Wrapper β) :
    Panics (x >>= f) w ↔ Panics x w := by
  rw [iff_fault run, iff_fault (Effects.bind_of_error run f)]

theorem map_iff (g : α → β) : Panics (g <$> x) w ↔ Panics x w := by
  cases run : x w with
  | ok a w' => exact iff_of_false (not_of_ok (map_of_ok run g)) (not_of_ok run)
  | error f w' =>
    have mapped : (g <$> x) w = .error f w' := by rw [run_map, run]
    rw [iff_fault run, iff_fault mapped]

/- A run that raises an error if and only if c holds. -/
theorem iff_of_ensures {c : Prop} (ends : Ensures x w (fun _ _ => ¬ c)
    fun f _ => (∃ L e, f = .luaError L e) ↔ c) : Panics x w ↔ c := by
  unfold Ensures at ends
  cases run : x w with
  | ok a w' =>
    simp only [run] at ends
    exact iff_of_false (not_of_ok run) ends
  | error f w' =>
    simp only [run] at ends
    exact (iff_fault run).trans ends

/- The rule for a computation that raises no error. -/
theorem not_of_ensures (ends : Ensures x w (fun _ _ => True) fun f _ => ∀ L e, f ≠ .luaError L e) :
    ¬ Panics x w := by
  rintro ⟨L, e, w', raised⟩
  exact ensures_of_error ends raised L e rfl

theorem ensures_of_not (calm : ¬ Panics x w) :
    Ensures x w (fun _ _ => True) fun f _ => ∀ L e, f ≠ .luaError L e := by
  refine ensures_mono (ensures_self x w) (fun _ _ _ => trivial) ?_
  rintro f w' run L e rfl
  exact calm ⟨L, e, w', run⟩

theorem not_bind {f : α → Wrapper β} (first : Ensures x w (fun a w' => ¬ Panics (f a) w')
    fun g _ => ∀ L e, g ≠ .luaError L e) : ¬ Panics (x >>= f) w := by
  unfold Ensures at first
  cases run : x w with
  | ok a w' =>
    simp only [run] at first
    rwa [bind_of_ok run]
  | error g w' =>
    simp only [run] at first
    rw [bind_of_error run, iff_fault run]
    exact fun ⟨L, e, raised⟩ => first L e raised

theorem not_of_exception {e : JavaException} (run : x w = .error (.exception e) w') :
    ¬ Panics x w := by
  simp [iff_fault run]

theorem not_of_settle {u : World} {a : Except JavaException α} (run : x w = u.settle a) :
    ¬ Panics x w := by
  cases a with
  | ok b => exact not_of_ok run
  | error e => exact not_of_exception run

theorem not_of_inert (inert : Inert x w) : ¬ Panics x w := by
  refine not_of_ensures (ensures_mono inert (fun _ _ _ => trivial) ?_)
  rintro f u (⟨⟨e, rfl⟩, _⟩ | ⟨rfl, _⟩) L e' <;> simp

end Panics

section

variable {vm : VM} {t key val : Value} {w : World}

theorem read_raises_of_call {tm object : Value} (ends : w.heap.access t key = .call tm object) :
    ReadRaises vm t key w ↔ Panics (vm.call .main tm [object, key]) (w.pushed key) := by
  constructor
  · rintro (⟨e, chain⟩ | ⟨tm', object', chain, raises⟩)
    · cases ends.symm.trans chain
    · cases ends.symm.trans chain
      exact raises
  · exact .handler tm object ends

theorem not_read_raises {v : Value} (ends : w.heap.access t key = .value v) :
    ¬ ReadRaises vm t key w := by
  rintro (⟨e, chain⟩ | ⟨tm, object, chain, _⟩) <;> cases ends.symm.trans chain

/- A lookup from the world with the key pushed. -/
theorem lookup_panics_iff : Panics (lookup vm t key) (w.pushed key) ↔ ReadRaises vm t key w := by
  have heap := w.pushed_heap key
  cases ends : w.heap.access t key with
  | value v =>
    exact iff_of_false (Panics.not_of_ok (lookup_value vm (heap ▸ ends))) (not_read_raises ends)
  | fail e =>
    rw [Panics.iff_fault (lookup_fail vm (heap ▸ ends))]
    exact iff_of_true ⟨.main, e, rfl⟩ (.chain e ends)
  | call tm object =>
    rw [read_raises_of_call ends]
    have called := lookup_call vm (w := w.pushed key) (heap ▸ ends)
    cases run : vm.call .main tm [object, key] (w.pushed key) with
    | ok results w' =>
      rw [run] at called
      exact iff_of_false (Panics.not_of_ok called) (Panics.not_of_ok run)
    | error f w' =>
      rw [run] at called
      rw [Panics.iff_fault called, Panics.iff_fault run]

/- A read by a native, and the use of the value it leaves on top. -/
theorem read_panics_iff {α β : Type} {insertkey : Heap → TableId → Value → Bool}
    (lawful : vm.Lawful insertkey) {x : Wrapper α} {w₀ : World} {result : Value → α}
    {f : α → Wrapper β} (reads : LooksUp vm t key w x w₀ result) (sound : w.Sound)
    (rest : ∀ v below w', w'.Sound → w'.main.slots = v :: below →
      ¬ Panics (f (result v)) w') : Panics (x >>= f) w₀ ↔ ReadRaises vm t key w := by
  rw [← lookup_panics_iff]
  unfold LooksUp Ensures at reads
  cases run : x w₀ with
  | ok a w₁ =>
    simp only [run] at reads
    obtain ⟨v, w', r, found, rfl, rfl⟩ := reads
    have kept : w'.Sound := lookup_sound lawful (w.pushed_sound key sound) found
    rw [Panics.bind_of_ok run]
    exact iff_of_false (rest v _ (w'.answered v r) kept rfl) (Panics.not_of_ok found)
  | error g w₁ =>
    simp only [run] at reads
    obtain ⟨w', found⟩ := reads
    rw [Panics.bind_of_error run, Panics.iff_fault run, Panics.iff_fault found]

/- The assignment of the value on top. -/
theorem setGlobal_panics_iff {name : String} {below : List Value} (alive : w.Alive)
    (top : w.main.slots = val :: below) : Panics (LowLevelLua.setGlobal vm .main name) w ↔
      WriteRaises vm (.table w.heap.globals) (keyOf name) val w := by
  refine Panics.iff_of_ensures (LowLevelLua.ensures_setGlobal vm alive top (P := fun _ => True)
    trivial (fun _ => .inr trivial) ?_ ?_ ?_)
  · rintro id r ends _ (⟨e, chain⟩ | ⟨tm, object, chain, _⟩) <;> cases ends.symm.trans chain
  · intro e r ends _
    exact iff_of_true ⟨.main, e, rfl⟩ (.chain e ends)
  · intro tm object ends
    have handled : WriteRaises vm (.table w.heap.globals) (keyOf name) val w ↔
        Panics (vm.call .main tm [object, keyOf name, val])
          ((w.check (1 < w.main.top - w.main.func) .notEnoughElements).pushed (keyOf name)) := by
      constructor
      · rintro (⟨e, chain⟩ | ⟨tm', object', chain, raises⟩)
        · cases ends.symm.trans chain
        · cases ends.symm.trans chain
          exact raises
      · exact .handler tm object ends
    rw [handled]
    refine ensures_mono (ensures_self _ _) ?_ ?_
    · intro results w' run r' _
      exact Panics.not_of_ok run
    · intro f w' run
      rw [Panics.iff_fault run]

end

section

variable {vm : VM} {w : World} {v : Value} {below : List Value}

theorem pop_not_panics (k : Kind) (sound : w.Sound) (top : w.main.slots = v :: below) :
    ¬ Panics (k.pop vm) w := by
  by_cases closed : w.status = .closed
  · exact Panics.not_of_inert (inert_pop vm (sound.closed closed) k)
  · obtain ⟨r, popped, _⟩ := k.run_pop vm (sound.alive closed) top (P := fun _ => True)
      ⟨trivial, trivial⟩
    exact Panics.not_of_settle popped

theorem popString_not_panics (sound : w.Sound) (top : w.main.slots = v :: below) :
    ¬ Panics (LuaStack.popString vm .main) w :=
  fun panics => pop_not_panics .string sound top ((Panics.map_iff _).mpr panics)

theorem table_not_panics (sound : w.Sound) (top : w.main.slots = v :: below) :
    ¬ Panics (LowLevelLua.table .main (-1)) w := by
  by_cases closed : w.status = .closed
  · have dead : Dead (LowLevelLua.table .main (-1)) w :=
      ((dead_getType (sound.closed closed) (-1)).bind _ :
        Dead (LowLevelLua.assertType .main (-1) .table) w).bind _
    exact Panics.not_of_inert dead.inert
  · obtain ⟨r, run, _⟩ := LowLevelLua.run_table (sound.alive closed) top (P := fun _ => True)
      trivial
    exact Panics.not_of_settle run

/- A protected call catches what is raised on the main thread. -/
theorem ensures_pcall_sound {insertkey : Heap → TableId → Value → Bool}
    (lawful : vm.Lawful insertkey) {nargs nresults : Nat} {args : List Value} {func : Value}
    (alive : w.Alive) (sound : w.Sound) (counted : args.length = nargs)
    (top : w.main.slots = args.reverse ++ func :: below) :
    Ensures (LowLevelLua.pcall vm .main nargs nresults) w (fun _ w' => w'.Sound)
      (fun f _ => ∀ L e, f ≠ .luaError L e) := by
  refine LowLevelLua.ensures_checkStatus vm (ensures_luaPcallk (P := fun _ => True) alive counted
    top trivial (.inr trivial) (.inr trivial) ?_)
  intro r _
  have started : (w.withMain below r).Sound := sound
  refine ensures_mono (lawful.call func args _ started) ?_ ?_
  · intro results w' stage r' _
    exact ⟨fun _ => stage.sound started, fun failed => absurd rfl failed⟩
  · intro f w' escapes
    cases f with
    | luaError L e =>
      cases L with
      | main =>
        intro r' _
        have raised : Raised insertkey True (w.withMain below r) w' := escapes
        have kept : ((w.withMain below r).recovered w'
            (e.object :: World.bottom below.length w'.main.slots) r').Sound := raised.sound started
        refine ⟨fun ok => absurd ok e.failed, fun _ => ?_⟩
        refine ensures_mono (Panics.ensures_of_not (popString_not_panics kept rfl)) ?_
          fun _ _ h => h
        intro m u _ L e'
        simp
      | coroutine id => exact absurd escapes.1 (by simp)
    | exception e => exact escapes.elim
    | jvmTerminated => intro L e; simp
    | undefined => intro L e; simp

end

theorem Setter.run_pushed {w : World} (s : Setter) (alive : w.Alive) :
    s.push w = .ok ⟨⟩ ((w.register s.callbacks).pushed (s.value w.callbacks.length)) := by
  cases s with
  | string text =>
    have same : (Utf8.encode text.toList ++ [0]).take
        ((Utf8.encode text.toList ++ [0]).length - 1) = Utf8.encode text.toList := by simp
    rw [push, LuaStack.pushString, bind_of_ok (run_allocateFrom text alive), luaPushlstring,
      bind_of_ok (run_enter alive), LuaApi.run_pushed, same]
    simp only [callbacks, World.register_nil]
    rfl
  | function method =>
    have alive' : (w.register [.method method]).Alive := (w.register_alive _).mpr alive
    rw [push, LuaStack.pushCFunction, bind_of_ok (run_allocate alive), bind_of_ok (run_get w)]
    exact bind_of_ok (run_enter alive') _
  | integer i =>
    simp only [callbacks, World.register_nil]
    exact bind_of_ok (run_enter alive) _
  | number n =>
    simp only [callbacks, World.register_nil]
    exact bind_of_ok (run_enter alive) _
  | boolean b =>
    simp only [callbacks, World.register_nil]
    exact bind_of_ok (run_enter alive) _

section

variable {vm : VM} {insertkey : Heap → TableId → Value → Bool} (lawful : vm.Lawful insertkey)
  {w : World} (sound : w.Sound)

include lawful sound

theorem exec_not_panics (chunk : String) (alive : w.Alive) :
    ¬ Panics (LuaInterpreter.exec vm .main chunk) w := by
  refine Panics.not_bind (LowLevelLua.ensures_loadString vm alive (P := fun _ => True)
    ⟨trivial, trivial⟩ (.inr trivial) ?_ ?_)
  · intro f r _
    have called : Ensures (LowLevelLua.pcall vm .main 0 0) (w.withMain (f :: w.main.slots) r)
        (fun _ w' => w'.Sound) (fun f _ => ∀ L e, f ≠ .luaError L e) :=
      ensures_pcall_sound lawful (by simpa using alive) sound List.length_nil rfl
    exact Panics.not_of_ensures (ensures_mono called (fun _ _ _ => trivial) fun _ _ h => h)
  · intro e v r _ L e'
    simp

theorem close_not_panics : ¬ Panics (LowLevelLua.close vm) w := by
  rw [LowLevelLua.close, luaClose]
  by_cases opened : w.status = .opened
  · let closing : World := { w with status := .closing, main := .init }
    have arena : w.arenaOpen = true := (sound.alive (by rw [opened]; decide)).arena
    have sound' : closing.Sound := by simp [closing, World.Sound, arena]
    refine Panics.not_bind (ensures_step (run_get w) ?_)
    rw [if_neg (not_not.mpr opened)]
    refine ensures_step (run_set closing w) ((ensures_bind _ _ _ _ _).mpr ?_)
    refine ensures_mono (lawful.finalize closing sound') ?_ ?_
    · intro u w' _
      refine ensures_of_run (run_modify _ w') ?_
      by_cases arena' : w'.arenaOpen = true
      · exact Panics.not_of_ok (run_arenaClose arena')
      · exact Panics.not_of_settle (arenaClose_closed (by simpa using arena'))
    · rintro f w' ⟨rfl | rfl, _⟩ <;> simp
  · refine Panics.not_bind (ensures_step (run_get w) ?_)
    rw [if_pos opened]
    exact ensures_of_fault (e := .undefined) rfl (by simp)

/- What call does with the global it found. -/
theorem call_rest_not_panics (f : LuaFunction) {v : Value} {below : List Value}
    (top : w.main.slots = v :: below) : ¬ Panics (do
      LuaFunction.pushArguments .main f
      LowLevelLua.pcall vm .main f.argumentValues.length f.resultTypes.length
      LuaFunction.getResultValues vm .main f) w := by
  by_cases status : w.status = .closed
  · have closed := sound.closed status
    exact Panics.not_of_inert (inert_bind (inert_pushObjects closed f.argumentValues)
      fun _ => ((dead_pcall vm closed _ _).bind _).inert)
  have alive := sound.alive status
  obtain ⟨r, pushed, _⟩ := LuaFunction.run_pushObjects f.argumentValues (P := fun _ => True) alive
    (.inr trivial)
  cases outcome : (LuaFunction.imagesOf w.callbacks.length f.argumentValues).outcome with
  | error e =>
    rw [outcome] at pushed
    exact Panics.not_of_exception (bind_of_error pushed _)
  | ok u =>
    rw [outcome] at pushed
    have all := (LuaFunction.images_outcome _ _).mp outcome
    have counted : (LuaFunction.imagesOf w.callbacks.length f.argumentValues).values.length =
        f.argumentValues.length := by
      rw [LuaFunction.images_length, List.takeWhile_eq_self_iff.mpr (List.all_eq_true.mp all)]
    have pushed : LuaFunction.pushArguments .main f w = _ := pushed
    rw [Panics.bind_of_ok pushed]
    refine Panics.not_bind (ensures_mono (ensures_pcall_sound lawful (by simpa using alive)
      sound counted (by rw [World.withMain_slots, top])) ?_ fun _ _ h => h)
    intro u w' sound'
    by_cases status' : w'.status = .closed
    · exact Panics.not_of_inert
        (inert_getResultValues vm (sound'.closed status') f.resultTypes)
    · refine Panics.not_of_ensures (ensures_mono (LuaFunction.ensures_getResultValues vm
        f.resultTypes (sound'.alive status') (P := fun _ => True) ⟨trivial, trivial⟩)
        (fun _ _ _ => trivial) ?_)
      rintro g u ⟨_, _, _, ⟨_, rfl, _⟩ | ⟨_, e, rfl, _⟩⟩ <;> simp

end

/- The type check of a field and its pop. -/
theorem field_rest_not_panics (vm : VM) (k : Kind) (key : String) {w : World} {v : Value}
    {below : List Value} (sound : w.Sound) (top : w.main.slots = v :: below) (type : LuaType) :
    let check : Wrapper Unit :=
      if type ≠ k.fieldType then throwJava (.luaException ("Expected field '" ++ key ++
        "' of type " ++ k.fieldType.name ++ " but was " ++ type.name))
      else pure ()
    ¬ Panics (check >>= fun _ => k.pop vm) w := by
  intro check
  by_cases same : type = k.fieldType
  · have passed : check w = .ok ⟨⟩ w := by
      simp only [check]
      rw [if_neg (not_not.mpr same)]
      rfl
    rw [Panics.bind_of_ok passed]
    exact pop_not_panics k sound top
  · have refused : check w = w.settle (.error (.luaException ("Expected field '" ++ key ++
        "' of type " ++ k.fieldType.name ++ " but was " ++ type.name))) := by
      simp only [check]
      rw [if_pos same]
      rfl
    exact Panics.not_of_exception (bind_of_error refused _)

theorem alive_operation_panics_iff {vm : VM} {insertkey : Heap → TableId → Value → Bool}
    (lawful : vm.Lawful insertkey) (o : Operation) {w : World} (alive : w.Alive)
    (sound : w.Sound) : Panics (LuaInterpreter.operation vm .main o) w ↔ Raises vm o w := by
  have open' (s : Step) : (w.addStep s).Alive := ⟨alive.status, alive.arena⟩
  have global (name : String) (s : Step) := getGlobal_looks_up vm name (open' s)
  induction o using Operation.families with
  | exec chunk =>
    let start := w.addStep (.operation (.exec chunk) w.main w.heap w.status w.calls)
    have entered : Panics (LuaInterpreter.operation vm .main (.exec chunk)) w ↔
        Panics ((fun _ => OperationResult.done) <$> LuaInterpreter.exec vm .main chunk) start :=
      Iff.rfl
    rw [entered, Panics.map_iff]
    exact iff_of_false (exec_not_panics lawful (w := start) sound chunk (open' _)) id
  | getGlobal k name =>
    have same : Raises vm (k.getGlobal name) w = ReadRaises vm (.table w.heap.globals) (keyOf name)
        (w.addStep (.operation (k.getGlobal name) w.main w.heap w.status w.calls)) := by
      cases k <;> rfl
    rw [Kind.operation_getGlobal, Panics.bind_of_ok (run_modify _ w), same]
    exact read_panics_iff lawful (global name _) sound
      fun v below w' sound' top => pop_not_panics k sound' top
  | getGlobalTable name =>
    have entered : Panics (LuaInterpreter.operation vm .main (.getGlobalTable name)) w ↔
        Panics (OperationResult.table <$> LuaInterpreter.getGlobalTable vm .main name) (w.addStep
          (.operation (.getGlobalTable name) w.main w.heap w.status w.calls)) := Iff.rfl
    rw [entered, Panics.map_iff]
    exact read_panics_iff lawful (global name _) sound
      fun v below w' sound' top => table_not_panics sound' top
  | call f =>
    have entered : Panics (LuaInterpreter.operation vm .main (.call f)) w ↔
        Panics (OperationResult.list <$> f.call vm .main) (w.addStep
          (.operation (.call f) w.main w.heap w.status w.calls)) := Iff.rfl
    rw [entered, Panics.map_iff]
    exact read_panics_iff lawful (global f.name _) sound
      fun v below w' sound' top => call_rest_not_panics lawful sound' f top
  | setGlobal s name =>
    let start := w.addStep (.operation (s.setGlobal name) w.main w.heap w.status w.calls)
    let val := s.value w.callbacks.length
    have same : Raises vm (s.setGlobal name) w = SetRaises vm s name start := by cases s <;> rfl
    have registered : (start.register s.callbacks).Alive := (start.register_alive _).mpr (open' _)
    have pushed : s.push start = .ok ⟨⟩ ((start.register s.callbacks).pushed val) :=
      s.run_pushed (open' _)
    have heap : ((start.register s.callbacks).pushed val).heap = start.heap :=
      World.pushed_heap _ val
    rw [Setter.operation_setGlobal, Panics.bind_of_ok (run_modify _ w), Panics.map_iff, same]
    show Panics (s.push >>= _) start ↔ _
    rw [Panics.bind_of_ok pushed, setGlobal_panics_iff (World.pushed_alive registered val)
      (World.pushed_slots _ val), heap]
    exact Iff.rfl
  | getField k table key =>
    let start := w.addStep (.operation (k.getField table key) w.main w.heap w.status w.calls)
    have same : Raises vm (k.getField table key) w = ∃ t, w.main.slots.head? = some t ∧
        ReadRaises vm t (keyOf key)
          (start.check (1 < w.main.top - w.main.func) .invalidIndex) := by cases k <;> rfl
    rw [Kind.operation_getField, Panics.bind_of_ok (run_modify _ w), same, LuaTable.getField,
      bind_assoc]
    show Panics _ start ↔ _
    cases top : w.main.slots with
    | nil =>
      obtain ⟨r, outside, _⟩ := LuaTable.getFieldType_empty vm key (open' _) top
        (P := fun _ => True) (w := start) trivial
      rw [Panics.iff_fault (bind_of_error outside _)]
      simp
    | cons t below =>
      obtain ⟨r, checked, _⟩ := start.check_main (1 < w.main.top - w.main.func) .invalidIndex
        (fun _ => True) (.inr trivial)
      have sound' : (start.check (1 < w.main.top - w.main.func) .invalidIndex).Sound := by
        rw [checked]
        exact sound
      rw [read_panics_iff lawful (getFieldType_looks_up vm key (open' _) top) sound'
        fun v below w' sound' top => field_rest_not_panics vm k key sound' top _]
      constructor
      · intro raises
        exact ⟨t, rfl, raises⟩
      · rintro ⟨t', head, raises⟩
        obtain rfl := Option.some.inj head
        exact raises
  | close =>
    let start := w.addStep (.operation .close w.main w.heap w.status w.calls)
    have entered : Panics (LuaInterpreter.operation vm .main .close) w ↔
        Panics ((fun _ => OperationResult.done) <$> LowLevelLua.close vm) start := Iff.rfl
    rw [entered, Panics.map_iff]
    exact iff_of_false (close_not_panics lawful (w := start) sound) id

/-- An operation raises a Lua error outside a protected call exactly when the access it makes
raises one. -/
theorem operation_panics_iff (program : Program) (depth : Nat) (o : Operation) {w : World}
    (sound : w.Sound) : Panics (LuaInterpreter.operation (vmAt program depth) .main o) w ↔
      w.status ≠ .closed ∧ Raises (vmAt program depth) o w := by
  by_cases status : w.status = .closed
  · refine iff_of_false ?_ fun raises => raises.1 status
    rcases operation_closed (vmAt program depth) (sound.closed status) o with ⟨_, run⟩ | ⟨_, run⟩
    · simp [Panics.iff_fault run]
    · simp [Panics.iff_fault run]
  · rw [and_iff_right status]
    exact alive_operation_panics_iff (vmAt_lawful program depth) o (sound.alive status) sound

namespace UnprotectedErrors

/- The chunk sets global y and gives the globals a metatable whose __index raises an error. -/
def strict (h : Heap) : Heap :=
  let h := (h.rawset 1 (.literal "__index") (.function (.closure 1))).rawset 0 (keyOf "y")
    (.integer 1)
  { h with table := Function.update h.table 0 { h.table 0 with metatable := some 1 } }

def program : Program :=
  { Program.blank with
    code := fun
      | 0, _ => .access strict fun _ => .ret []
      | _, _ => .error (.run "undeclared variable") }

def ran : World :=
  endOf (LuaInterpreter.operation (vmAt program 2) .main (.exec "strict()")) (.create .blank)

theorem ran_sound : ran.Sound := by
  have opened : ran.status = .opened ∧ ran.arenaOpen = true := by decide +kernel
  simp [World.Sound, opened]

end UnprotectedErrors

open UnprotectedErrors

theorem present_global_does_not_panic :
    ¬ Panics (LuaInterpreter.operation (vmAt program 2) .main (.getGlobalInteger "y")) ran := by
  have present : ran.heap.access (.table ran.heap.globals) (keyOf "y") = .value (.integer 1) := by
    decide +kernel
  refine (operation_panics_iff program 2 (.getGlobalInteger "y") ran_sound).not.mpr ?_
  rintro ⟨_, raises⟩
  have read : ReadRaises (vmAt program 2) (.table ran.heap.globals) (keyOf "y") (ran.addStep
    (.operation (.getGlobalInteger "y") ran.main ran.heap ran.status ran.calls)) := raises
  refine not_read_raises (v := .integer 1) ?_ read
  exact present

/-- The error of the handler reaches no protected call. -/
theorem absent_global_panics :
    LuaInterpreter.operation (vmAt program 2) .main (.exec "strict()") (.create .blank) =
      .ok .done ran ∧ ran.calls = 0 ∧
    Panics (LuaInterpreter.operation (vmAt program 2) .main (.getGlobalInteger "x")) ran := by
  have loaded : outcomeOf (LuaInterpreter.operation (vmAt program 2) .main (.exec "strict()"))
      (.create .blank) = .ok .done := by decide +kernel
  have raised : outcomeOf (LuaInterpreter.operation (vmAt program 2) .main
      (.getGlobalInteger "x")) ran = .error (.luaError .main (.run "undeclared variable")) := by
    decide +kernel
  refine ⟨ends_of_outcome loaded, by decide +kernel, ?_⟩
  exact ⟨.main, .run "undeclared variable", _, fault_of_outcome raised⟩

end Luava
