import Luava.Closed

/-
One operation keeps what a run keeps: it ends in its frame, above the slots it started from,
and fails no check when its step meets the conditions.
-/
namespace Luava

open Effects LuaApi

/-- The middle of an operation that started in w₀: w is n slots higher. Unless a step so far was
   out of order, the state is open. -/
structure During (insertkey : Heap → TableId → Value → Bool) (n : Nat) (w₀ w : World) : Prop
    extends Stage insertkey False n w₀ w where
  soundNow : w.Sound
  opened : w.AllOrderly → w.status ≠ .closed

/- How an operation ends. -/
def Ends {α : Type} (insertkey : Heap → TableId → Value → Bool) (w₀ : World) (x : Wrapper α)
    (w : World) : Prop :=
  Ensures x w (fun _ w' => ∃ n, Stage insertkey False n w₀ w') (Escapes insertkey False w₀)

variable {insertkey : Heap → TableId → Value → Bool} {n m : Nat} {w₀ w : World}

namespace During

theorem moved (during : During insertkey n w₀ w) {slots : List Value} {r : Record}
    (gains : w.record.Gains (Tolerated insertkey w) r)
    (kept : Over n w₀.main.slots w.main.slots → Over m w₀.main.slots slots) :
    During insertkey m w₀ (w.withMain slots r) :=
  { during.toStage.moved gains kept with
    soundNow := during.soundNow
    opened := fun all => during.opened fun s member => all s (gains.steps.symm ▸ member) }

theorem withHeap (during : During insertkey n w₀ w) (heap : Heap) :
    During insertkey n w₀ (w.withHeap heap) :=
  { during.toStage.withHeap heap with soundNow := during.soundNow, opened := during.opened }

theorem register (during : During insertkey n w₀ w) (callbacks : List Callback) :
    During insertkey n w₀ (w.register callbacks) :=
  { during.toStage.register callbacks with soundNow := during.soundNow, opened := during.opened }

/- The room for k more slots, from what the step that fits was promised. -/
theorem room (during : During insertkey n w₀ w) {k : Nat} {v : Violation}
    (kind : v.isLifecycle = false)
    (fits : w₀.AllFit insertkey → w₀.main.top + n + k ≤ w₀.main.ciTop) :
    w.main.top + k ≤ w.main.ciTop ∨ Tolerated insertkey w v := by
  refine tolerated_of_room kind fun all => ?_
  have kept := during.slots fun s member => Step.bounded_of_fits (all s member)
  have := fits (all_of_suffix during.steps all)
  have := kept.length_eq
  have := during.ciTop
  simp only [LuaState.top] at *
  omega

/- A use of the closed state, which takes a step out of order. -/
theorem noted_fail (during : During insertkey n w₀ w) (disorderly : ¬ w.AllOrderly) :
    Notes insertkey False w₀ (w.fail .afterClose) where
  steps := during.steps
  space all v member space := by
    rcases List.mem_cons.mp member with rfl | member
    · contradiction
    · exact during.space all v member space
  lifecycle all := absurd all disorderly

theorem ends (during : During insertkey n w₀ w) {α : Type} {x : Wrapper α}
    (alive : w.Alive → Ends insertkey w₀ x w) (closed : w.Closed → Inert x w) :
    Ends insertkey w₀ x w := by
  by_cases status : w.status = .closed
  · refine ensures_mono (closed (during.soundNow.closed status)) ?_ ?_
    · rintro a w' rfl
      exact ⟨n, during.toStage⟩
    · rintro f w' (⟨⟨e, rfl⟩, rfl⟩ | ⟨rfl, rfl⟩)
      · exact ⟨n, during.toStage⟩
      · exact during.noted_fail fun all => during.opened all status
  · exact alive (during.soundNow.alive status)

end During

/- Lua code started by a native function in the middle of an operation. -/
theorem During.afterCall (during : During insertkey n w₀ w) (alive : w.Alive) {w' : World}
    (stage : Stage insertkey True 0 w w') : During insertkey n w₀ w' :=
  { (Nat.zero_add n ▸ during.toStage.trans (stage.ofLua alive.status) :
      Stage insertkey False n w₀ w') with
    soundNow := stage.sound during.soundNow
    opened := fun all => stage.guarded all (fun _ => alive.status) (.inl trivial) }

theorem during_call {vm : VM} (lawful : vm.Lawful insertkey) (during : During insertkey n w₀ w)
    (alive : w.Alive) (f : Value) (args : List Value) :
    Ensures (vm.call .main f args) w (fun _ w' => During insertkey n w₀ w')
      (Escapes insertkey False w₀) :=
  ensures_mono (lawful.call f args w during.soundNow)
    (fun _ _ stage => during.afterCall alive stage)
    fun _ _ escapes => during.toStage.escapes (escapes_of_lua escapes alive.status)

/- The checks of indexes are tolerated. -/
theorem tolerates_reads : Tolerated insertkey w .invalidIndex ∧ Tolerated insertkey w .invalidTop :=
  ⟨tolerated_frame rfl rfl, tolerated_frame rfl rfl⟩

/- A pop ends one slot lower, or leaves the value it refused. -/
theorem During.ends_remaining (during : During insertkey (n + 1) w₀ w) {α : Type} {x : Wrapper α}
    {a : Except JavaException α} {v : Value} {below : List Value} {r : Record}
    (run : x w = (w.withMain (LuaStack.remaining a v below) r).settle a)
    (top : w.main.slots = v :: below) (gains : w.record.Gains (Tolerated insertkey w) r) :
    Ends insertkey w₀ x w := by
  refine ensures_settle run ?_ ?_
  · rintro b rfl
    exact ⟨n, during.toStage.moved gains fun kept => (top ▸ kept).tail⟩
  · rintro e rfl
    exact ⟨n + 1, during.toStage.moved gains fun kept => (top ▸ kept : Over _ _ (v :: below))⟩

section

variable {vm : VM} (lawful : vm.Lawful insertkey) (during : During insertkey n w₀ w)

include lawful during

theorem during_getGlobal (name : String) (alive : w.Alive)
    (fits : w₀.AllFit insertkey → w₀.main.top + n + 1 ≤ w₀.main.ciTop) :
    Ensures (LowLevelLua.getGlobal vm .main name) w
      (fun _ w' => During insertkey (n + 1) w₀ w' ∧ ∃ v below, w'.main.slots = v :: below)
      (Escapes insertkey False w₀) := by
  have room := during.room (k := 1) (v := .stackOverflow) rfl fits
  refine LowLevelLua.ensures_getGlobal vm alive room ?_ ?_ ?_
  · intro v r _ gains
    exact ⟨during.moved gains (·.cons v), v, _, rfl⟩
  · intro e r _ gains
    exact (during.toStage.moved gains (·.cons (keyOf name))).raised
  · intro tm object _
    obtain ⟨r, pushed, gains⟩ := w.pushed_eq (keyOf name) _ room
    rw [pushed]
    refine ensures_mono (during_call lawful (during.moved gains (·.cons (keyOf name)))
      ((w.withMain_alive _ r).mpr alive) tm [object, keyOf name]) ?_ fun _ _ h => h
    intro results w' during' r' gains'
    exact ⟨during'.moved gains'.quiet fun kept => kept.drop.cons _, _, _, rfl⟩

end

theorem ends_pop (vm : VM) (k : Kind) (during : During insertkey (n + 1) w₀ w) {v : Value}
    {below : List Value} (top : w.main.slots = v :: below) : Ends insertkey w₀ (k.pop vm) w := by
  refine during.ends (fun alive => ?_) fun closed => inert_pop vm closed k
  obtain ⟨r, popped, gains⟩ := k.run_pop vm alive top tolerates_reads
  exact during.ends_remaining popped top gains

theorem ends_popString (vm : VM) (during : During insertkey (n + 1) w₀ w) {v : Value}
    {below : List Value} (top : w.main.slots = v :: below) :
    Ends insertkey w₀ (LuaStack.popString vm .main) w := by
  refine during.ends (fun alive => ?_) fun closed => (dead_popString vm closed).inert
  obtain ⟨r, popped, gains⟩ := LuaStack.run_popString vm alive top tolerates_reads
  exact during.ends_remaining popped top gains

/- A typed read of a field: the type is checked before the value is popped. -/
theorem ends_getField {vm : VM} (lawful : vm.Lawful insertkey) (k : Kind) (key : String)
    (during : During insertkey n w₀ w) (alive : w.Alive)
    (fits : w₀.AllFit insertkey → w₀.main.top + n + 1 ≤ w₀.main.ciTop) :
    Ends insertkey w₀ (do
      LuaTable.getField vm ⟨.main, -1⟩ key k.fieldType
      k.pop vm) w := by
  have room := during.room (k := 1) (v := .stackOverflow) rfl fits
  have read (type : LuaType) (w' : World) (during : During insertkey (n + 1) w₀ w')
      (top : ∃ v below, w'.main.slots = v :: below) :
      Ensures (if type ≠ k.fieldType then throwJava (.luaException ("Expected field '" ++ key ++
          "' of type " ++ k.fieldType.name ++ " but was " ++ type.name)) else pure () :
          Wrapper Unit) w'
        (fun _ w' => Ends insertkey w₀ (k.pop vm) w') (Escapes insertkey False w₀) := by
    obtain ⟨v, below, top⟩ := top
    by_cases same : type = k.fieldType
    · rw [if_neg (not_not.mpr same)]
      exact ensures_of_run (run_pure _ _) (ends_pop vm k during top)
    · rw [if_pos same]
      exact ensures_of_fault (run_throwJava _ w') ⟨n + 1, during.toStage⟩
  rw [Ends, LuaTable.getField, ensures_bind, ensures_bind]
  cases top : w.main.slots with
  | nil =>
    obtain ⟨r, outside, gains⟩ := LuaTable.getFieldType_empty vm key alive top
      (P := Tolerated insertkey w) (tolerated_frame rfl rfl)
    exact ensures_of_fault outside (during.notes (notes_of_gains gains rfl))
  | cons t below =>
    refine LuaTable.ensures_getFieldType vm alive top (tolerated_frame rfl rfl) room ?_ ?_ ?_
    · intro v r _ gains
      exact read _ _ (during.moved gains (·.cons v)) ⟨v, _, rfl⟩
    · intro e r _ gains
      exact (during.toStage.moved gains (·.cons (keyOf key))).raised
    · intro tm object _
      obtain ⟨r, checked, gains⟩ := w.check_main (1 < w.main.top - w.main.func) .invalidIndex
        (Tolerated insertkey w) (.inr (tolerated_frame rfl rfl))
      have found := during.moved gains id
      obtain ⟨r', pushed, gains'⟩ := (w.withMain w.main.slots r).pushed_eq (keyOf key)
        (Tolerated insertkey (w.withMain w.main.slots r)) (found.room rfl fits)
      rw [checked, pushed]
      have called := found.moved gains' (·.cons (keyOf key))
      refine ensures_mono (during_call lawful called (by simpa using alive)
        tm [object, keyOf key]) ?_ fun _ _ h => h
      intro results w' back r'' gains''
      exact read _ _ (back.moved gains''.quiet fun kept => kept.drop.cons _) ⟨_, _, rfl⟩

/- The assignment of the value on top to a global. -/
theorem ends_setGlobal {vm : VM} (lawful : vm.Lawful insertkey) (name : String) {val : Value}
    {below : List Value} (during : During insertkey (n + 1) w₀ w) (alive : w.Alive)
    (top : w.main.slots = val :: below)
    (fits : w₀.AllFit insertkey →
      w₀.main.top + (n + 1) + Step.keySlots insertkey w.heap name ≤ w₀.main.ciTop) :
    Ends insertkey w₀ (LowLevelLua.setGlobal vm .main name) w := by
  obtain rfl := lawful.inserts
  have kept (h : Over (n + 1) w₀.main.slots w.main.slots) :
      Over (n + 1) w₀.main.slots (val :: below) := top ▸ h
  have room : w.heap.fastset vm.insertkey (.table w.heap.globals) (keyOf name) = none →
      w.main.top + 1 ≤ w.main.ciTop ∨ Tolerated vm.insertkey w .stackOverflow := by
    intro slow
    rw [Step.keySlots, slow] at fits
    exact during.room rfl fits
  refine LowLevelLua.ensures_setGlobal vm alive top (tolerated_frame rfl rfl) room ?_ ?_ ?_
  · intro id r _ gains
    exact ⟨n, (during.withHeap _).toStage.moved gains fun h => (kept h).tail⟩
  · intro e r _ gains
    exact (during.toStage.moved gains fun h => (kept h).cons (keyOf name)).raised
  · intro tm object assigned
    have slow : w.heap.fastset vm.insertkey (.table w.heap.globals) (keyOf name) = none := by
      cases fast : w.heap.fastset vm.insertkey (.table w.heap.globals) (keyOf name) with
      | none => rfl
      | some id => simp [Heap.assign, fast] at assigned
    rw [Step.keySlots, slow] at fits
    obtain ⟨r, checked, gains⟩ := w.check_main (1 < w.main.top - w.main.func)
      .notEnoughElements (Tolerated vm.insertkey w) (.inr (tolerated_frame rfl rfl))
    have valid := during.moved gains id
    obtain ⟨r', pushed, gains'⟩ := (w.withMain w.main.slots r).pushed_eq (keyOf name)
      (Tolerated vm.insertkey (w.withMain w.main.slots r)) (valid.room rfl fits)
    rw [checked, pushed]
    have called := valid.moved gains' (·.cons (keyOf name))
    refine ensures_mono (during_call lawful called (by simpa using alive)
      tm [object, keyOf name, val]) ?_ fun _ _ h => h
    intro results w' back r'' gains''
    exact ⟨n, back.toStage.moved gains''.quiet (Over.drop (m := 2))⟩

/- Code called in protected mode: an error comes back as one slot above the frame it left. -/
theorem during_protected {vm : VM} (lawful : vm.Lawful insertkey) (during : During insertkey n w₀ w)
    (alive : w.Alive) (f : Value) (args : List Value) :
    Ensures (vm.call .main f args) w (fun _ w' => During insertkey n w₀ w')
      (Protected (fun e w' => ∀ r, w'.record.Gains (fun _ => False) r → During insertkey (n + 1) w₀
        (w.recovered w' (e.object :: World.bottom w.main.slots.length w'.main.slots) r))
        (Escapes insertkey False w₀)) := by
  have caught (e : LuaError) (w' : World) (raised : Raised insertkey True w w') (r : Record)
      (gains : w'.record.Gains (fun _ => False) r) : During insertkey (n + 1) w₀
        (w.recovered w' (e.object :: World.bottom w.main.slots.length w'.main.slots) r) := by
    have steps : r.steps = w'.record.steps := gains.steps
    have later : Notes insertkey False w'
        (w.recovered w' (e.object :: World.bottom w.main.slots.length w'.main.slots) r) :=
      notes_of_gains gains.quiet rfl
    have stage : Stage insertkey False 1 w
        (w.recovered w' (e.object :: World.bottom w.main.slots.length w'.main.slots) r) :=
      { steps := raised.steps.trans later.steps
        space := fun all v member space => raised.space (all_of_suffix later.steps all) v
          (later.space all v member space) space
        lifecycle := fun all _ v member kind => by
          have opened := raised.guarded (all_of_suffix later.steps all) (fun _ => alive.status)
          exact raised.lifecycle (all_of_suffix later.steps all) (fun _ => alive.status) v
            (later.lifecycle all (fun _ => opened (.inl trivial)) v member kind) kind
        sound := raised.sound
        guarded := fun all _ _ => raised.guarded (all_of_suffix later.steps all)
          (fun _ => alive.status) (.inl trivial)
        calls := rfl
        slots := fun all => by
          obtain ⟨m, kept⟩ := raised.slots (all_of_suffix later.steps all)
          rw [kept.bottom]
          exact Over.cons e.object ⟨Nat.zero_le _, kept.2⟩
        func := rfl
        ciTop := rfl }
    exact
      { (Nat.add_comm 1 n ▸ during.toStage.trans stage : Stage insertkey False (n + 1) w₀ _) with
        soundNow := raised.sound during.soundNow
        opened := fun all => raised.guarded (all_of_suffix later.steps all)
          (fun _ => alive.status) (.inl trivial) }
  refine ensures_mono (lawful.call f args w during.soundNow)
    (fun _ _ stage => during.afterCall alive stage) ?_
  intro fault w' escapes
  have others := during.toStage.escapes (escapes_of_lua escapes alive.status)
  cases fault with
  | luaError L e =>
    cases L with
    | main => exact caught e w' escapes
    | coroutine id => exact absurd escapes.1 (by simp)
  | _ => exact others

/- The protected call of the function n slots above the start, under its arguments. The results
   are as many as asked for, unless that is more than MAXRESULTS. -/
theorem during_pcall {vm : VM} (lawful : vm.Lawful insertkey) {nargs nresults : Nat}
    (args : List Value) {below : List Value} {func : Value} (counted : args.length = nargs)
    (during : During insertkey (n + (nargs + 1)) w₀ w) (alive : w.Alive)
    (top : w.main.slots = args.reverse ++ func :: below)
    (fits : w₀.AllFit insertkey →
      w₀.main.top + (n + 1) + nresults ≤ w₀.main.ciTop ∧ nresults ≤ MAXRESULTS) :
    Ensures (LowLevelLua.pcall vm .main nargs nresults) w
      (fun _ w' => ∃ results, During insertkey (n + results) w₀ w' ∧
        (nresults ≤ MAXRESULTS → results = nresults))
      (Escapes insertkey False w₀) := by
  have lower (kept : Over (n + (nargs + 1)) w₀.main.slots w.main.slots) :
      Over n w₀.main.slots below := by
    have dropped := kept.drop
    rwa [top, ← List.drop_drop, List.drop_left' (by simpa using counted)] at dropped
  have room : w.main.top + nresults ≤ w.main.ciTop + nargs ∨
      Tolerated insertkey w .resultsOverflow := by
    refine tolerated_of_room rfl fun all => ?_
    have kept := during.slots fun s member => Step.bounded_of_fits (all s member)
    have := (fits (all_of_suffix during.steps all)).1
    have := kept.length_eq
    have := during.ciTop
    simp only [LuaState.top] at *
    omega
  have few : nresults ≤ MAXRESULTS ∨ Tolerated insertkey w .numberOfResults :=
    tolerated_of_room rfl fun all => (fits (all_of_suffix during.steps all)).2
  refine LowLevelLua.ensures_checkStatus vm
    (ensures_luaPcallk alive counted top (tolerated_frame rfl rfl) room few ?_)
  intro r gains
  have called := during.moved gains lower
  refine ensures_mono (during_protected lawful called (by simpa using alive) func args) ?_ ?_
  · intro results w' back r' gains'
    refine ⟨fun _ => ⟨(moveresults nresults results).length, back.moved gains'.quiet ?_,
      moveresults_length results⟩, fun failed => absurd rfl failed⟩
    intro kept
    rw [Nat.add_comm, ← List.length_reverse]
    exact kept.append _
  · intro fault w' caught
    cases fault with
    | luaError L e =>
      cases L with
      | main =>
        intro r' gains'
        exact ⟨fun ok => absurd ok e.failed, fun _ =>
          ensures_mono (ends_popString vm (caught r' gains') rfl) (fun _ _ h => h) fun _ _ h => h⟩
      | coroutine id => exact caught
    | _ => exact caught

/- The call of the value on top: arguments, protected call, results. -/
theorem ends_call {vm : VM} (lawful : vm.Lawful insertkey) (f : LuaFunction)
    (during : During insertkey 1 w₀ w) (alive : w.Alive) {v : Value} {below : List Value}
    (top : w.main.slots = v :: below)
    (fits : w₀.AllFit insertkey → w₀.main.top + (1 + f.pushed.length) ≤ w₀.main.ciTop ∧
      (f.allPushable = true → w₀.main.top + (1 + f.resultTypes.length) ≤ w₀.main.ciTop ∧
        f.resultTypes.length ≤ MAXRESULTS))
    (bounded : w₀.AllBounded → f.allPushable = true → f.resultTypes.length ≤ MAXRESULTS) :
    Ends insertkey w₀ (do
      LuaFunction.pushArguments .main f
      LowLevelLua.pcall vm .main f.argumentValues.length f.resultTypes.length
      LuaFunction.getResultValues vm .main f) w := by
  have enough : w₀.AllFit insertkey → w₀.main.top + 1 +
      (LuaFunction.imagesOf w.callbacks.length f.argumentValues).values.length ≤
        w₀.main.ciTop := by
    intro all
    rw [LuaFunction.images_length]
    have := (fits all).1
    rw [LuaFunction.pushed] at this
    omega
  obtain ⟨r, pushed, gains⟩ := LuaFunction.run_pushObjects f.argumentValues alive
    (during.room (v := .stackOverflow) rfl enough)
  have images := (during.register
    (LuaFunction.imagesOf w.callbacks.length f.argumentValues).callbacks).moved gains
      fun kept => kept.append
        (LuaFunction.imagesOf w.callbacks.length f.argumentValues).values.reverse
  cases outcome : (LuaFunction.imagesOf w.callbacks.length f.argumentValues).outcome with
  | error e =>
    rw [outcome] at pushed
    exact ensures_of_fault (bind_of_error pushed _) ⟨_, images.toStage⟩
  | ok u =>
    rw [outcome] at pushed
    have all := (LuaFunction.images_outcome _ _).mp outcome
    have counted : (LuaFunction.imagesOf w.callbacks.length f.argumentValues).values.length =
        f.argumentValues.length := by
      rw [LuaFunction.images_length, List.takeWhile_eq_self_iff.mpr (List.all_eq_true.mp all)]
    refine ensures_step pushed ((ensures_bind _ _ _ _ _).mpr ?_)
    rw [List.length_reverse, counted, ← Nat.zero_add (f.argumentValues.length + 1)] at images
    refine ensures_mono (during_pcall lawful _ counted images (by simpa using alive)
      (by rw [World.withMain_slots, top]) fun fits' => ?_) ?_ fun _ _ h => h
    · have := (fits fits').2 all
      omega
    · rintro u' w' ⟨results, back, exact⟩
      rw [Nat.zero_add] at back
      refine back.ends (fun alive' => ?_) fun closed =>
        inert_getResultValues vm closed f.resultTypes
      refine ensures_mono (LuaFunction.ensures_getResultValues vm f.resultTypes alive'
        (P := Tolerated insertkey w') tolerates_reads) ?_ ?_
      · rintro os w'' ⟨_, _, _, r', rfl, gains'⟩
        refine ⟨0, back.toStage.moved_bounded gains' fun few kept => ?_⟩
        rw [exact (bounded (all_of_suffix back.steps few) all)] at kept
        exact Over.drop (Nat.zero_add _ ▸ kept)
      · rintro fault w'' ⟨r', rfl, gains', ⟨_, rfl, _⟩ | ⟨fewer, e, rfl, _⟩⟩
        · exact back.notes (notes_of_gains gains' rfl)
        · let count := LuaFunction.popCount vm.libc f.resultTypes w'.main.slots
          refine ⟨f.resultTypes.length - count,
            back.toStage.moved_bounded gains' fun few kept => ?_⟩
          rw [exact (bounded (all_of_suffix back.steps few) all),
            ← Nat.sub_add_cancel fewer.le] at kept
          exact kept.drop

theorem ends_exec {vm : VM} (lawful : vm.Lawful insertkey) (chunk : String)
    (during : During insertkey 0 w₀ w) (alive : w.Alive)
    (fits : w₀.AllFit insertkey → w₀.main.top + 1 ≤ w₀.main.ciTop) :
    Ends insertkey w₀ (LuaInterpreter.exec vm .main chunk) w := by
  rw [Ends, LuaInterpreter.exec, ensures_bind]
  refine LowLevelLua.ensures_loadString vm alive tolerates_reads (during.room rfl fits) ?_ ?_
  · intro f r gains
    have loaded := during.moved gains (·.cons f)
    refine ensures_mono (during_pcall lawful [] rfl loaded (by simpa using alive) rfl
      fun all => ⟨fits all, Nat.zero_le _⟩) ?_ fun _ _ h => h
    rintro u w' ⟨results, back, _⟩
    exact ⟨_, back.toStage⟩
  · intro e v r gains
    cases LuaStack.stringOf vm.libc (-1) v with
    | ok message => exact ⟨0, during.toStage.moved gains id⟩
    | error refusal => exact ⟨1, during.toStage.moved gains (·.cons v)⟩

theorem ends_table {v : Value} {below : List Value} (during : During insertkey n w₀ w)
    (top : w.main.slots = v :: below) : Ends insertkey w₀ (LowLevelLua.table .main (-1)) w := by
  refine during.ends (fun alive => ?_) fun closed =>
    (((dead_getType closed (-1)).bind _ :
      Dead (LowLevelLua.assertType .main (-1) .table) w).bind _).inert
  obtain ⟨r, run, gains⟩ := LowLevelLua.run_table alive top (P := Tolerated insertkey w)
    (tolerated_frame rfl rfl)
  have stage := during.toStage.moved gains id
  exact ensures_settle run (fun _ _ => ⟨n, stage⟩) fun _ _ => ⟨n, stage⟩

/- lua_close leaves the frame of the main thread as the record of the run keeps it. -/
theorem ends_close {vm : VM} (lawful : vm.Lawful insertkey) (during : During insertkey 0 w₀ w)
    (orderly : w.AllOrderly → w.status = .opened ∧ w.calls = 0) :
    Ends insertkey w₀ (LowLevelLua.close vm) w := by
  rw [Ends, LowLevelLua.close, ensures_bind, luaClose]
  refine ensures_step (run_get w) ?_
  by_cases opened : w.status = .opened
  · rw [if_neg (not_not.mpr opened)]
    let closing : World := { w with status := .closing, main := .init }
    have arena : w.arenaOpen = true := (during.soundNow.alive (by rw [opened]; decide)).arena
    have sound : closing.Sound := by simp [closing, World.Sound, arena]
    have guarded : closing.Guarded True := fun _ => by simp [closing]
    refine ensures_step (run_set closing w) ((ensures_bind _ _ _ _ _).mpr ?_)
    refine ensures_mono (lawful.finalize closing sound) ?_ ?_
    · intro u w' stage
      have closed (open' : Bool) (closed : open' = false) :
          Stage insertkey False 0 w
            { w' with status := .closed, main := w.main, arenaOpen := open' } :=
        { steps := stage.steps
          space := stage.space
          lifecycle := fun all _ => stage.lifecycle all guarded
          sound := fun _ => by simp [World.Sound, closed]
          guarded := fun all _ running => by
            have none := (orderly (all_of_suffix stage.steps all)).2
            have same : w'.calls = w.calls := stage.calls
            simp only [false_or, same, none] at running
            exact absurd running (Nat.lt_irrefl 0)
          calls := stage.calls
          slots := fun _ => .refl _
          func := rfl
          ciTop := rfl }
      refine ensures_of_run (run_modify _ w') ?_
      by_cases arena' : w'.arenaOpen = true
      · exact ensures_of_run (run_arenaClose arena')
          ⟨0, during.toStage.trans (closed false rfl)⟩
      · have refused := closed w'.arenaOpen (by simpa using arena')
        exact ensures_of_fault (arenaClose_closed (by simpa using arena'))
          ⟨0, during.toStage.trans refused⟩
    · rintro f w' ⟨crash, notes⟩
      have notes' : Notes insertkey False w w' :=
        { steps := notes.steps, space := notes.space
          lifecycle := fun all _ => notes.lifecycle all guarded }
      rcases crash with rfl | rfl
      · exact during.notes notes'
      · exact during.notes notes'
  · rw [if_pos opened]
    exact during.noted_fail fun all => opened (orderly all).1

/- An operation with its step at the head of the record. -/
theorem during_start {s : Step} (sound : w.Sound) (opened : w.status ≠ .closed) :
    During insertkey 0 (w.addStep s) (w.addStep s) :=
  { Stage.refl (w.addStep s) with soundNow := sound, opened := fun _ => opened }

theorem stage_start (w : World) (s : Step) : Stage insertkey False 0 w (w.addStep s) where
  steps := List.suffix_cons s _
  space := fun _ _ member _ => member
  lifecycle := fun _ _ _ member _ => member
  sound := id
  guarded := fun _ guarded => guarded
  calls := rfl
  slots := fun _ => .refl _
  func := rfl
  ciTop := rfl

theorem ends_map {α β : Type} {x : Wrapper α} (g : α → β) (ends : Ends insertkey w₀ x w) :
    Ends insertkey w₀ (g <$> x) w :=
  (ensures_map g x w _ _).mpr ends

theorem ends_bind {α β : Type} {x : Wrapper α} {f : α → Wrapper β}
    (run : Ensures x w (fun a w' => Ends insertkey w₀ (f a) w') (Escapes insertkey False w₀)) :
    Ends insertkey w₀ (x >>= f) w :=
  (ensures_bind x f w _ _).mpr run

/- The free slots of a frame, as the checks count them. -/
theorem le_free {s : LuaState} {k : Nat} (positive : 0 < k) (free : k ≤ s.free) :
    s.top + k ≤ s.ciTop := by
  simp only [LuaState.free] at free
  omega

theorem operation_alive {vm : VM} (lawful : vm.Lawful insertkey) (o : Operation)
    (sound : w.Sound) (opened : w.status ≠ .closed) :
    Ends insertkey (w.addStep (.operation o w.main w.heap w.status w.calls))
      (LuaInterpreter.operation vm .main o) w := by
  have start (s : Step) : During insertkey 0 (w.addStep s) (w.addStep s) :=
    during_start sound opened
  have alive (s : Step) : (w.addStep s).Alive := ⟨opened, (sound.alive opened).arena⟩
  have fits (s : Step) (all : (w.addStep s).AllFit insertkey) : s.Fits insertkey :=
    all s List.mem_cons_self
  have one (s : Step) (need : s.Fits insertkey → 1 ≤ w.main.free)
      (all : (w.addStep s).AllFit insertkey) : w.main.top + 1 ≤ w.main.ciTop :=
    le_free Nat.one_pos (need (fits s all))
  induction o using Operation.families with
  | exec chunk =>
    exact ensures_step (run_modify _ w) (ends_map _
      (ends_exec lawful chunk (start _) (alive _) (one _ id)))
  | getGlobal k name =>
    rw [Kind.operation_getGlobal]
    refine ensures_step (run_modify _ w) (ends_bind (ensures_mono (during_getGlobal lawful
      (start _) name (alive _) (one _ ?_)) ?_ fun _ _ h => h))
    · cases k <;> exact id
    · rintro u w' ⟨during, v, below, top⟩
      exact ends_pop vm k during top
  | getGlobalTable name =>
    refine ensures_step (run_modify _ w) (ends_map _ (ends_bind (ensures_mono
      (during_getGlobal lawful (start _) name (alive _) (one _ id)) ?_ fun _ _ h => h)))
    rintro u w' ⟨during, v, below, top⟩
    exact ends_table during top
  | setGlobal s name =>
    rw [Setter.operation_setGlobal]
    refine ensures_step (run_modify _ w) (ends_map _ ?_)
    have need (all : (w.addStep (.operation (s.setGlobal name) w.main w.heap w.status
        w.calls)).AllFit insertkey) : w.main.top + (1 + Step.keySlots insertkey w.heap name) ≤
          w.main.ciTop := by
      refine le_free (by omega) ?_
      have := fits _ all
      cases s <;> exact this
    have first (all : (w.addStep (.operation (s.setGlobal name) w.main w.heap w.status
        w.calls)).AllFit insertkey) : w.main.top + 0 + 1 ≤ w.main.ciTop :=
      le_trans (by omega) (need all)
    obtain ⟨r, pushed, gains⟩ := s.run_push (alive _)
      ((start _).room (v := .stackOverflow) rfl first)
    refine ensures_step pushed (ends_setGlobal lawful name
      (((start _).register _).moved gains (·.cons _)) (by simpa using alive _) rfl fun all => ?_)
    show w.main.top + (0 + 1) + Step.keySlots insertkey w.heap name ≤ w.main.ciTop
    exact le_trans (by omega) (need all)
  | call f =>
    refine ensures_step (run_modify _ w) (ends_map _ (ends_bind (ensures_mono
      (during_getGlobal lawful (start _) f.name (alive _) (one _ ?_)) ?_ fun _ _ h => h)))
    · exact fun fits => le_trans (Nat.le_add_right 1 _) fits.1
    rintro u w' ⟨during, v, below, top⟩
    refine during.ends (fun alive' => ?_) fun closed => inert_bind
      (inert_pushObjects closed f.argumentValues) fun _ => ((dead_pcall vm closed _ _).bind _).inert
    refine ends_call lawful f during alive' top (fun all => ?_) fun all => ?_
    · have need := fits _ all
      exact ⟨le_free (by omega) need.1, fun pushable =>
        ⟨le_free (by omega) (need.2 pushable).1, (need.2 pushable).2⟩⟩
    · exact all _ List.mem_cons_self
  | getField k table key =>
    rw [Kind.operation_getField]
    refine ensures_step (run_modify _ w) (ends_getField lawful k key (start _) (alive _)
      (one _ ?_))
    cases k <;> exact id
  | close =>
    refine ensures_step (run_modify _ w) (ends_map _ (ends_close lawful (start _) ?_))
    exact fun all => all _ List.mem_cons_self

theorem operation_progress {vm : VM} (lawful : vm.Lawful insertkey) (o : Operation)
    (sound : w.Sound) :
    Ensures (LuaInterpreter.operation vm .main o) w (fun _ w' => ∃ n, Stage insertkey False n w w')
      (Escapes insertkey False w) := by
  have start : Stage insertkey False 0 w _ :=
    stage_start w (.operation o w.main w.heap w.status w.calls)
  by_cases status : w.status = .closed
  · rcases operation_closed vm (sound.closed status) o with ⟨_, run⟩ | ⟨disorderly, run⟩
    · exact ensures_of_fault run ⟨0, start⟩
    · refine ensures_of_fault run ?_
      exact
        { steps := start.steps
          space := fun all v member space => by
            rcases List.mem_cons.mp member with rfl | member
            · contradiction
            · exact member
          lifecycle := fun all => absurd (all _ List.mem_cons_self) disorderly }
  · exact ensures_mono (operation_alive lawful o sound status)
      (fun _ _ ⟨n, stage⟩ => ⟨n, start.trans stage⟩) fun _ _ escapes => start.escapes escapes

end Luava
