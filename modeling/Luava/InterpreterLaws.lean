import Luava.CallbackLaws

/-
The accesses to globals and fields, the protected call and the load of a chunk on the main
thread. Where one of them runs Lua code, its law asks what that code ensures.
-/
namespace Luava

open Effects LuaApi

theorem ensures_settle {α : Type} {x : Wrapper α} {w w' : World} {a : Except JavaException α}
    {Q : α → World → Prop} {E : Fault → World → Prop} (run : x w = w'.settle a)
    (ok : ∀ b, a = .ok b → Q b w') (bad : ∀ e, a = .error e → E (.exception e) w') :
    Ensures x w Q E := by
  cases a with
  | ok b => exact ensures_of_run run (ok b rfl)
  | error e => exact ensures_of_fault run (bad e rfl)

namespace World

def withHeap (w : World) (heap : Heap) : World := { w with heap := heap }

section

variable (w : World) (heap : Heap)

@[simp] theorem withHeap_main : (w.withHeap heap).main = w.main := rfl
@[simp] theorem withHeap_heap : (w.withHeap heap).heap = heap := rfl
@[simp] theorem withHeap_record : (w.withHeap heap).record = w.record := rfl
@[simp] theorem withHeap_callbacks : (w.withHeap heap).callbacks = w.callbacks := rfl
@[simp] theorem withMain_withHeap (slots : List Value) (r : Record) :
    (w.withMain slots r).withHeap heap = (w.withHeap heap).withMain slots r := rfl
@[simp] theorem withHeap_alive : (w.withHeap heap).Alive ↔ w.Alive :=
  ⟨fun h => ⟨h.1, h.2⟩, fun h => ⟨h.1, h.2⟩⟩

end

/- The world w' in the frame of w: what catching an error on the main thread makes of it. -/
def recovered (w w' : World) (slots : List Value) (r : Record) : World :=
  { w' with main := ⟨slots, w.main.func, w.main.ciTop⟩, calls := w.calls, record := r }

end World

namespace Heap

/- Where the assignment of a field goes. -/
def assign (insertkey : Heap → TableId → Value → Bool) (h : Heap) (t key : Value) : Assignment :=
  match h.fastset insertkey t key with
  | some id => .store id
  | none => h.finishset insertkey key MAXTAGLOOP t

end Heap

namespace LuaApi

variable {vm : VM} {w : World} {P : Violation → Prop} {E : Fault → World → Prop}

theorem ensures_auxgetstr {t : Value} {k : List UInt8} {Q : Int → World → Prop}
    (room : w.main.top + 1 ≤ w.main.ciTop ∨ P .stackOverflow)
    (value : ∀ v r, w.heap.access t (.string (Utf8.cString k)) = .value v →
      w.record.Gains P r → Q (LuaType.ofValue v).type (w.withMain (v :: w.main.slots) r))
    (fail : ∀ e r, w.heap.access t (.string (Utf8.cString k)) = .fail e → w.record.Gains P r →
      E (.luaError .main e) (w.withMain (.string (Utf8.cString k) :: w.main.slots) r))
    (call : ∀ tm object, w.heap.access t (.string (Utf8.cString k)) = .call tm object →
      Ensures (vm.call .main tm [object, .string (Utf8.cString k)])
        (w.pushed (.string (Utf8.cString k)))
        (fun results w' => ∀ r', w'.record.Gains (fun _ => False) r' →
          Q (LuaType.ofValue (results.headD .nil)).type
            (w'.withMain (results.headD .nil :: w'.main.slots.drop 1) r')) E) :
    Ensures (auxgetstr vm .main t k) w Q E := by
  rw [auxgetstr]
  refine ensures_step (run_get w) ?_
  cases present : w.heap.fastget t (.string (Utf8.cString k)) with
  | some v =>
    obtain ⟨r, pushed, gains⟩ := run_push (P := P) v room
    have found : w.heap.access t (.string (Utf8.cString k)) = .value v := by
      simp only [Heap.access, present]
    simp only [present]
    exact ensures_step pushed (value v r found gains)
  | none =>
    obtain ⟨r, same, gains⟩ := w.pushed_eq (.string (Utf8.cString k)) P room
    have slow : w.heap.access t (.string (Utf8.cString k)) =
        w.heap.finishget (.string (Utf8.cString k)) Heap.MAXTAGLOOP t := by
      simp only [Heap.access, present]
    rw [slow] at value fail call
    simp only [present]
    refine ensures_step (run_pushed _) ?_
    cases ends : w.heap.finishget (.string (Utf8.cString k)) Heap.MAXTAGLOOP t with
    | value v =>
      obtain ⟨r', stored, gains'⟩ := run_setThread
        (w := w.withMain (.string (Utf8.cString k) :: w.main.slots) r) (P := P) (v :: w.main.slots)
      simp only [same]
      refine ensures_step (run_pure v _) ?_
      refine ensures_step run_getThread ?_
      exact ensures_step stored (value v r' ends (gains.trans gains'))
    | fail e =>
      refine ensures_of_fault (bind_of_error (rfl : luaDThrow .main e _ = .error _ _) _) ?_
      rw [same]
      exact fail e r ends gains
    | call tm object =>
      simp only [ensures_bind]
      refine ensures_mono (call tm object ends) ?_ fun _ _ h => h
      intro results w' after
      obtain ⟨r', stored, gains'⟩ := run_setThread (w := w') (P := fun _ => False)
        (results.headD .nil :: w'.main.slots.drop 1)
      refine ensures_of_run (run_pure _ _) ?_
      refine ensures_of_run run_getThread ?_
      exact ensures_of_run stored (after r' gains')

/- The top slot is read whatever the check of its index says. -/
theorem index2value_top {t : Value} {below : List Value} (top : w.main.slots = t :: below) :
    index2value .main (-1) w =
      .ok (some t) (w.check (1 < w.main.top - w.main.func) .invalidIndex) := by
  have checked : apiCheck ((-1 : Int) ≠ 0 ∧ (-1 : Int).natAbs < w.main.top - w.main.func)
      .invalidIndex w = .ok ⟨⟩ (w.check (1 < w.main.top - w.main.func) .invalidIndex) := by
    have same : ((-1 : Int) ≠ 0 ∧ (-1 : Int).natAbs < w.main.top - w.main.func) ↔
        1 < w.main.top - w.main.func := and_iff_right (by decide)
    rw [apiCheck, run_modify, World.check, World.check, if_congr same rfl rfl]
  have found : index2stack .main (-1) w =
      .ok (some 0) (w.check (1 < w.main.top - w.main.func) .invalidIndex) := by
    rw [index2stack, bind_of_ok run_getThread, if_neg (by decide), bind_of_ok checked,
      if_pos ⟨by decide, by simp [LuaState.top, top]⟩]
    rfl
  obtain ⟨r, same, _⟩ := w.check_main (1 < w.main.top - w.main.func) .invalidIndex
    (fun _ => True) (.inr trivial)
  rw [index2value, bind_of_ok found]
  simp only [bind_of_ok run_getThread, same, World.withMain_slots, top]
  rfl

theorem run_rawset (id : TableId) (key val : Value) :
    rawset id key val w = .ok ⟨⟩ (w.withHeap (w.heap.rawset id key val)) := rfl

/- The key is pushed above the value when the fast path does not take the assignment. -/
theorem ensures_auxsetstr {t val : Value} {below : List Value} {k : List UInt8}
    {Q : Unit → World → Prop} (top : w.main.slots = val :: below)
    (tolerant : P .notEnoughElements)
    (room : w.heap.fastset vm.insertkey t (.string (Utf8.cString k)) = none →
      w.main.top + 1 ≤ w.main.ciTop ∨ P .stackOverflow)
    (store : ∀ id r, w.heap.assign vm.insertkey t (.string (Utf8.cString k)) = .store id →
      w.record.Gains P r → Q ⟨⟩
        ((w.withHeap (w.heap.rawset id (.string (Utf8.cString k)) val)).withMain below r))
    (fail : ∀ e r, w.heap.assign vm.insertkey t (.string (Utf8.cString k)) = .fail e →
      w.record.Gains P r →
      E (.luaError .main e) (w.withMain (.string (Utf8.cString k) :: val :: below) r))
    (call : ∀ tm object, w.heap.assign vm.insertkey t (.string (Utf8.cString k)) =
        .call tm object →
      Ensures (vm.call .main tm [object, .string (Utf8.cString k), val])
        ((w.check (1 < w.main.top - w.main.func) .notEnoughElements).pushed
          (.string (Utf8.cString k)))
        (fun _ w' => ∀ r', w'.record.Gains (fun _ => False) r' →
          Q ⟨⟩ (w'.withMain (w'.main.slots.drop 2) r')) E) :
    Ensures (auxsetstr vm .main t k) w Q E := by
  rw [auxsetstr]
  refine ensures_step (run_get w) ?_
  refine ensures_step run_getThread ?_
  obtain ⟨r, checked, gains⟩ := w.check_main (1 < w.main.top - w.main.func)
    .notEnoughElements P (.inr tolerant)
  have step : apiCheck (1 < w.main.top - w.main.func) .notEnoughElements w =
      .ok ⟨⟩ (w.check (1 < w.main.top - w.main.func) .notEnoughElements) := rfl
  refine ensures_step step ?_
  rw [top] at checked
  simp only [top]
  cases fast : w.heap.fastset vm.insertkey t (.string (Utf8.cString k)) with
  | some id =>
    have found : w.heap.assign vm.insertkey t (.string (Utf8.cString k)) = .store id := by
      simp only [Heap.assign, fast]
    simp only [checked]
    refine ensures_step (run_rawset id (.string (Utf8.cString k)) val) ?_
    obtain ⟨r', dropped, gains'⟩ := run_drop (P := P) (w := (w.withMain (val :: below) r).withHeap
      (w.heap.rawset id (.string (Utf8.cString k)) val)) 1
    refine ensures_of_run dropped ?_
    exact store id r' found (gains.trans gains')
  | none =>
    have slow : w.heap.assign vm.insertkey t (.string (Utf8.cString k)) =
        w.heap.finishset vm.insertkey (.string (Utf8.cString k)) Heap.MAXTAGLOOP t := by
      simp only [Heap.assign, fast]
    rw [slow] at store fail call
    refine ensures_step (run_pushed _) ?_
    obtain ⟨r', same, gains'⟩ := (w.withMain (val :: below) r).pushed_eq
      (.string (Utf8.cString k)) P (by simpa [LuaState.top, top] using room fast)
    rw [World.withMain_slots, World.withMain_withMain] at same
    have grown := gains.trans gains'
    cases ends : w.heap.finishset vm.insertkey (.string (Utf8.cString k)) Heap.MAXTAGLOOP t with
    | store id =>
      rw [checked, same]
      refine ensures_step (run_rawset id (.string (Utf8.cString k)) val) ?_
      obtain ⟨r'', dropped, gains''⟩ := run_drop (P := P)
        (w := (w.withMain (.string (Utf8.cString k) :: val :: below) r').withHeap
          (w.heap.rawset id (.string (Utf8.cString k)) val)) 2
      exact ensures_of_run dropped (store id r'' ends (grown.trans gains''))
    | fail e =>
      refine ensures_of_fault (bind_of_error (rfl : luaDThrow .main e _ = .error _ _) _) ?_
      rw [checked, same]
      exact fail e r' ends grown
    | call tm object =>
      simp only [ensures_bind]
      refine ensures_mono (call tm object ends) ?_ fun _ _ h => h
      intro results w' after
      obtain ⟨r'', dropped, gains''⟩ := run_drop (P := fun _ => False) (w := w') 2
      exact ensures_of_run dropped (after r'' gains'')

theorem moveresults_length {nresults : Nat} (results : List Value)
    (few : nresults ≤ MAXRESULTS) : (moveresults nresults results).length = nresults := by
  unfold MAXRESULTS at few
  have wanted : (nresults + 1) % 256 = nresults + 1 := Nat.mod_eq_of_lt (by omega)
  rw [moveresults, wanted]
  simp

/- Missing results are nil, and further ones are cut off. -/
theorem moved_get {n i : Nat} (rs : List Value) (few : n ≤ MAXRESULTS) (inside : i < n) :
    (moveresults n rs).getD i .nil = rs.getD i .nil := by
  unfold MAXRESULTS at few
  have wanted : (n + 1) % 256 = n + 1 := Nat.mod_eq_of_lt (by omega)
  rw [moveresults, wanted]
  simp only [List.getD_eq_getElem?_getD, List.getElem?_take, inside, ↓reduceIte]
  by_cases short : i < rs.length
  · rw [List.getElem?_append_left short]
  · rw [List.getElem?_append_right (by omega), List.getElem?_replicate,
      List.getElem?_eq_none (l := rs) (by omega)]
    split <;> rfl

theorem moved_get_reverse {n i : Nat} (rs rest : List Value) (few : n ≤ MAXRESULTS)
    (inside : i < n) :
    ((moveresults n rs).reverse ++ rest).getD i .nil = rs.getD (n - 1 - i) .nil := by
  have length := moveresults_length rs few
  rw [← moved_get rs few (show n - 1 - i < n by omega)]
  simp only [List.getD_eq_getElem?_getD]
  rw [List.getElem?_append_left (by rw [List.length_reverse]; omega),
    List.getElem?_reverse (by omega), length]

/- The ends of a computation run in protected mode on the main thread. -/
def Protected (Q : LuaError → World → Prop) (E : Fault → World → Prop) : Fault → World → Prop
  | .luaError .main e, w => Q e w
  | f, w => E f w

theorem ensures_rawrunprotected {α : Type} {x : Wrapper α} {Q : Except LuaError α → World → Prop}
    (run : Ensures x w (fun a w' => Q (.ok a) w')
      (Protected (fun e w' => Q (.error e) (w'.unwind .main w)) E)) :
    Ensures (rawrunprotected .main x) w Q E := by
  unfold Ensures rawrunprotected at *
  cases ends : x w with
  | ok a w' => simpa only [ends] using run
  | error f w' =>
    simp only [ends] at run ⊢
    cases f with
    | luaError L e =>
      cases L with
      | main => exact run
      | coroutine id => exact run
    | _ => exact run

/- A call whose function and arguments are on top. The called code starts from the slots below
   them, and an error it raises comes back as one error object. -/
theorem ensures_luaPcallk {nargs nresults : Nat} {args below : List Value} {func : Value}
    {Q : Int → World → Prop} (alive : w.Alive) (counted : args.length = nargs)
    (top : w.main.slots = args.reverse ++ func :: below)
    (tolerant : P .notEnoughElements)
    (room : w.main.top + nresults ≤ w.main.ciTop + nargs ∨ P .resultsOverflow)
    (few : nresults ≤ MAXRESULTS ∨ P .numberOfResults)
    (call : ∀ r, w.record.Gains P r →
      Ensures (vm.call .main func args) (w.withMain below r)
        (fun results w' => ∀ r', w'.record.Gains (fun _ => False) r' →
          Q LUA_OK (w'.withMain ((moveresults nresults results).reverse ++ w'.main.slots) r'))
        (Protected (fun e w' => ∀ r', w'.record.Gains (fun _ => False) r' → Q e.status
          (w.recovered w' (e.object :: World.bottom below.length w'.main.slots) r')) E)) :
    Ensures (luaPcallk vm .main nargs nresults) w Q E := by
  rw [luaPcallk]
  refine ensures_step (run_enter alive) (ensures_step run_getThread ?_)
  obtain ⟨r₁, checked₁, gains₁⟩ := run_apiCheck (w := w) (P := P)
    (nargs + 1 < w.main.top - w.main.func) .notEnoughElements (.inr tolerant)
  obtain ⟨r₂, checked₂, gains₂⟩ := run_apiCheck (w := w.withMain w.main.slots r₁) (P := P)
    (w.main.top + nresults ≤ w.main.ciTop + nargs) .resultsOverflow room
  obtain ⟨r₃, checked₃, gains₃⟩ := run_apiCheck (w := w.withMain w.main.slots r₂) (P := P)
    (nresults ≤ MAXRESULTS) .numberOfResults few
  refine ensures_step checked₁ (ensures_step checked₂ (ensures_step checked₃ ?_))
  have dropped : w.main.slots.drop nargs = func :: below := by
    rw [top, List.drop_left' (by simpa using counted)]
  have taken : (w.main.slots.take nargs).reverse = args := by
    rw [top, List.take_left' (by simpa using counted), List.reverse_reverse]
  obtain ⟨r₄, stored, gains₄⟩ := run_setThread (w := w.withMain w.main.slots r₃) (P := P) below
  simp only [dropped, taken]
  refine ensures_step stored ((ensures_bind _ _ _ _ _).mpr (ensures_rawrunprotected ?_))
  have grown := ((gains₁.trans gains₂).trans gains₃).trans gains₄
  refine ensures_mono (call r₄ grown) ?_ ?_
  · intro results w' after
    obtain ⟨r', ended, gains'⟩ := run_setThread (w := w') (P := fun _ => False)
      ((moveresults nresults results).reverse ++ w'.main.slots)
    exact ensures_step run_getThread (ensures_step ended
      (ensures_of_run (run_pure LUA_OK _) (after r' gains')))
  · intro f w' after
    have caught (e : LuaError) (raised : ∀ r', w'.record.Gains (fun _ => False) r' → Q e.status
        (w.recovered w' (e.object :: World.bottom below.length w'.main.slots) r')) :
        Ensures (do
          let s ← getThread .main
          setThread { s with slots := e.object :: s.slots } .main
          return e.status) (w'.unwind .main (w.withMain below r₄)) Q E := by
      obtain ⟨r', ended, gains'⟩ := run_setThread (w := w'.unwind .main (w.withMain below r₄))
        (P := fun _ => False) (e.object :: World.bottom below.length w'.main.slots)
      refine ensures_step run_getThread (ensures_step ended
        (ensures_of_run (run_pure e.status _) (raised r' ?_)))
      exact (Record.Gains.lowered _ w'.record _).trans gains'
    cases f with
    | luaError L e =>
      cases L with
      | main => exact caught e after
      | coroutine id => exact after
    | _ => exact after

end LuaApi

/- The Lua string a global or a field is looked up by: its C string ends at the first NUL. -/
def keyOf (name : String) : Value := .string (Utf8.cString (Utf8.encode name.toList))

/- The Lua string with all the characters of a name. -/
def wholeKey (name : String) : Value := .string (Utf8.encode name.toList)

theorem keyOf_eq_whole {name : String} (whole : '\x00' ∉ name.toList) :
    keyOf name = wholeKey name := by
  rw [keyOf, (Utf8.cString_encode_eq_iff name.toList).mpr whole, wholeKey]

theorem run_allocateFrom {w : World} (name : String) (alive : w.Alive) :
    Arena.allocateFrom name w = .ok (Utf8.encode name.toList ++ [0]) w := by
  rw [Arena.allocateFrom, bind_of_ok (run_allocate alive)]
  rfl

namespace LowLevelLua

variable (vm : VM) {w : World} {P : Violation → Prop} {E : Fault → World → Prop}

theorem ensures_getGlobal {name : String} {Q : Unit → World → Prop} (alive : w.Alive)
    (room : w.main.top + 1 ≤ w.main.ciTop ∨ P .stackOverflow)
    (value : ∀ v r, w.heap.access (.table w.heap.globals) (keyOf name) = .value v →
      w.record.Gains P r → Q ⟨⟩ (w.withMain (v :: w.main.slots) r))
    (fail : ∀ e r, w.heap.access (.table w.heap.globals) (keyOf name) = .fail e →
      w.record.Gains P r → E (.luaError .main e) (w.withMain (keyOf name :: w.main.slots) r))
    (call : ∀ tm object, w.heap.access (.table w.heap.globals) (keyOf name) = .call tm object →
      Ensures (vm.call .main tm [object, keyOf name]) (w.pushed (keyOf name))
        (fun results w' => ∀ r', w'.record.Gains (fun _ => False) r' →
          Q ⟨⟩ (w'.withMain (results.headD .nil :: w'.main.slots.drop 1) r')) E) :
    Ensures (getGlobal vm .main name) w Q E := by
  have key : Value.string (Utf8.cString (Utf8.encode name.toList ++ [0])) = keyOf name := by
    rw [Utf8.cString_terminated]; rfl
  rw [getGlobal]
  refine ensures_step (run_allocateFrom name alive) ((ensures_bind _ _ _ _ _).mpr ?_)
  rw [luaGetglobal]
  refine ensures_step (run_enter alive) (ensures_step (run_get w) ?_)
  rw [← key] at value fail call
  exact ensures_auxgetstr room value fail call

theorem ensures_setGlobal {name : String} {val : Value} {below : List Value}
    {Q : Unit → World → Prop} (alive : w.Alive) (top : w.main.slots = val :: below)
    (tolerant : P .notEnoughElements)
    (room : w.heap.fastset vm.insertkey (.table w.heap.globals) (keyOf name) = none →
      w.main.top + 1 ≤ w.main.ciTop ∨ P .stackOverflow)
    (store : ∀ id r, w.heap.assign vm.insertkey (.table w.heap.globals) (keyOf name) = .store id →
      w.record.Gains P r → Q ⟨⟩
        ((w.withHeap (w.heap.rawset id (keyOf name) val)).withMain below r))
    (fail : ∀ e r, w.heap.assign vm.insertkey (.table w.heap.globals) (keyOf name) = .fail e →
      w.record.Gains P r → E (.luaError .main e) (w.withMain (keyOf name :: val :: below) r))
    (call : ∀ tm object, w.heap.assign vm.insertkey (.table w.heap.globals) (keyOf name) =
        .call tm object →
      Ensures (vm.call .main tm [object, keyOf name, val])
        ((w.check (1 < w.main.top - w.main.func) .notEnoughElements).pushed (keyOf name))
        (fun _ w' => ∀ r', w'.record.Gains (fun _ => False) r' →
          Q ⟨⟩ (w'.withMain (w'.main.slots.drop 2) r')) E) :
    Ensures (setGlobal vm .main name) w Q E := by
  have key : Value.string (Utf8.cString (Utf8.encode name.toList ++ [0])) = keyOf name := by
    rw [Utf8.cString_terminated]; rfl
  rw [setGlobal]
  refine ensures_step (run_allocateFrom name alive) ?_
  rw [luaSetglobal]
  refine ensures_step (run_enter alive) (ensures_step (run_get w) ?_)
  rw [← key] at room store fail call
  exact ensures_auxsetstr top tolerant room store fail call

/- The table on top, by its handle. -/
def tableOf (v : Value) : Except JavaException LuaTable :=
  if LuaType.ofValue v = .table then .ok ⟨.main, -1⟩
  else .error (.luaException ("Expected " ++ LuaType.table.name ++ " at " ++
    toString (-1 : Int) ++ " but got " ++ (LuaType.ofValue v).name))

theorem run_table {v : Value} {below : List Value} (alive : w.Alive)
    (top : w.main.slots = v :: below) (tolerant : P .invalidIndex) :
    ∃ r, table .main (-1) w = (w.withMain w.main.slots r).settle (tableOf v) ∧
      w.record.Gains P r := by
  obtain ⟨r, read, gains⟩ := LuaStack.run_getType (v := v) alive
    (LuaStack.top_located top tolerant) (by simp [top])
  refine ⟨r, ?_, gains⟩
  rw [table, assertType, bind_assoc, bind_of_ok read, tableOf]
  by_cases type : LuaType.ofValue v = .table
  · rw [if_neg (not_not.mpr type), if_pos type]
    rfl
  · rw [if_pos type, if_neg type]
    rfl

/- The exception for a failed native call, whose error object is v. -/
def failure (libc : Libc) (functionName : String) (status : Int) (v : Value) : JavaException :=
  match LuaStack.stringOf libc (-1) v with
  | .ok message => .functionCallException functionName status message
  | .error e => e

theorem ensures_checkStatus {functionName : String} {nativeFunctionCall : Wrapper Int}
    {Q : Unit → World → Prop}
    (run : Ensures nativeFunctionCall w (fun status w' => (status = LUA_OK → Q ⟨⟩ w') ∧
      (status ≠ LUA_OK → Ensures (LuaStack.popString vm .main) w'
        (fun m => E (.exception (.functionCallException functionName status m))) E)) E) :
    Ensures (checkStatus vm .main functionName nativeFunctionCall) w Q E := by
  rw [checkStatus, ensures_bind]
  refine ensures_mono run ?_ fun _ _ h => h
  intro status w' ends
  by_cases ok : status = LUA_OK
  · rw [if_neg (not_not.mpr ok)]
    exact ends.1 ok
  · rw [if_pos ok, ensures_bind]
    exact ends.2 ok

/-- What the load leaves: the compiled function, or nothing, unless the error object is no string
   and stays. -/
def loadLeaves (libc : Libc) (slots : List Value) : Except LuaError Value → List Value
  | .ok f => f :: slots
  | .error e => LuaStack.remaining (LuaStack.stringOf libc (-1) e.object) e.object slots

def loadOutcome (libc : Libc) : Except LuaError Value → Except JavaException Unit
  | .ok _ => .ok ⟨⟩
  | .error e => .error (failure libc "luaL_loadstring" e.status e.object)

theorem run_loadString (chunk : String) (alive : w.Alive)
    (tolerant : P .invalidIndex ∧ P .invalidTop)
    (room : w.main.top + 1 ≤ w.main.ciTop ∨ P .stackOverflow) :
    let compiled := vm.load (Utf8.cString (Utf8.encode chunk.toList))
    ∃ r, loadString vm .main chunk w = (w.withMain (loadLeaves vm.libc w.main.slots compiled)
        r).settle (loadOutcome vm.libc compiled) ∧ w.record.Gains P r := by
  intro compiled
  have native : (do
      let segment ← Arena.allocateFrom chunk
      luaLLoadstring vm .main segment) w = (match compiled with
        | .ok f => do
          push .main f
          return LUA_OK
        | .error e => do
          push .main e.object
          return e.status) w := by
    rw [bind_of_ok (run_allocateFrom chunk alive), luaLLoadstring, Utf8.cString_terminated]
    exact bind_of_ok (run_enter alive) _
  rw [loadString, checkStatus]
  cases loaded : compiled with
  | ok f =>
    obtain ⟨r, pushed, gains⟩ := run_push (P := P) f room
    rw [loaded] at native
    refine ⟨r, ?_, gains⟩
    rw [bind_of_ok (native.trans (bind_of_ok pushed _)), if_neg (not_not.mpr rfl)]
    rfl
  | error e =>
    obtain ⟨r, pushed, gains⟩ := run_push (P := P) e.object room
    obtain ⟨r', popped, gains'⟩ := LuaStack.run_popString vm
      ((w.withMain_alive (e.object :: w.main.slots) r).mpr alive) rfl tolerant
    rw [loaded] at native
    refine ⟨r', ?_, gains.trans gains'⟩
    rw [bind_of_ok (native.trans (bind_of_ok pushed _)), if_pos e.failed, loadLeaves, loadOutcome,
      failure]
    cases message : LuaStack.stringOf vm.libc (-1) e.object with
    | ok text =>
      rw [message] at popped
      exact bind_of_ok popped _
    | error refusal =>
      rw [message] at popped
      exact bind_of_error popped _

theorem ensures_loadString {chunk : String} {Q : Unit → World → Prop} (alive : w.Alive)
    (tolerant : P .invalidIndex ∧ P .invalidTop)
    (room : w.main.top + 1 ≤ w.main.ciTop ∨ P .stackOverflow)
    (loaded : ∀ f r, w.record.Gains P r → Q ⟨⟩ (w.withMain (f :: w.main.slots) r))
    (refused : ∀ e v r, w.record.Gains P r →
      E (.exception (failure vm.libc "luaL_loadstring" e v)) (w.withMain
        (LuaStack.remaining (LuaStack.stringOf vm.libc (-1) v) v w.main.slots) r)) :
    Ensures (loadString vm .main chunk) w Q E := by
  obtain ⟨r, run, gains⟩ := run_loadString vm chunk alive tolerant room
  cases compiled : vm.load (Utf8.cString (Utf8.encode chunk.toList)) with
  | ok f =>
    rw [compiled] at run
    exact ensures_of_run run (loaded f r gains)
  | error e =>
    rw [compiled] at run
    exact ensures_of_fault run (refused e.status e.object r gains)

end LowLevelLua

namespace LuaTable

variable (vm : VM) {w : World} {P : Violation → Prop} {E : Fault → World → Prop}

/- Every value's type has a constant. -/
theorem ensures_forCode {v : Value} {Q : LuaType → World → Prop} (after : Q (LuaType.ofValue v) w) :
    Ensures (match LuaType.forCode (LuaType.ofValue v).type with
      | some type => return type
      | none => throwJava (.illegalArgument ("No type found for code " ++
          toString (LuaType.ofValue v).type))) w Q E := by
  rw [LuaType.for_code_type]
  exact ensures_of_run (run_pure _ _) after

/- The read of a field through a handle, which addresses the top slot. -/
theorem ensures_getFieldType {key : String} {t : Value} {below : List Value}
    {Q : LuaType → World → Prop} (alive : w.Alive) (top : w.main.slots = t :: below)
    (tolerant : P .invalidIndex) (room : w.main.top + 1 ≤ w.main.ciTop ∨ P .stackOverflow)
    (value : ∀ v r, w.heap.access t (keyOf key) = .value v → w.record.Gains P r →
      Q (LuaType.ofValue v) (w.withMain (v :: w.main.slots) r))
    (fail : ∀ e r, w.heap.access t (keyOf key) = .fail e → w.record.Gains P r →
      E (.luaError .main e) (w.withMain (keyOf key :: w.main.slots) r))
    (call : ∀ tm object, w.heap.access t (keyOf key) = .call tm object →
      Ensures (vm.call .main tm [object, keyOf key])
        ((w.check (1 < w.main.top - w.main.func) .invalidIndex).pushed (keyOf key))
        (fun results w' => ∀ r', w'.record.Gains (fun _ => False) r' →
          Q (LuaType.ofValue (results.headD .nil))
            (w'.withMain (results.headD .nil :: w'.main.slots.drop 1) r')) E) :
    Ensures (getFieldType vm ⟨.main, -1⟩ key) w Q E := by
  have same : Value.string (Utf8.cString (Utf8.encode key.toList ++ [0])) = keyOf key := by
    rw [Utf8.cString_terminated]; rfl
  rw [← same] at value fail call
  obtain ⟨r, checked, gains⟩ := w.check_main (1 < w.main.top - w.main.func) .invalidIndex P
    (.inr tolerant)
  rw [checked] at call
  rw [getFieldType]
  refine ensures_step (run_allocateFrom key alive) ((ensures_bind _ _ _ _ _).mpr ?_)
  rw [luaGetfield]
  refine ensures_step (run_enter alive) (ensures_step (index2value_top top) ?_)
  rw [checked]
  refine ensures_auxgetstr (P := P) (w := w.withMain w.main.slots r) room ?_ ?_ ?_
  · intro v r' access gains'
    exact ensures_forCode (value v r' access (gains.trans gains'))
  · intro e r' access gains'
    exact fail e r' access (gains.trans gains')
  · intro tm object access
    refine ensures_mono (call tm object access) ?_ fun _ _ h => h
    intro results w' after r' gains'
    exact ensures_forCode (after r' gains')

/- A handle used in an empty stack. -/
theorem getFieldType_empty (key : String) (alive : w.Alive) (empty : w.main.slots = [])
    (tolerant : P .invalidIndex) :
    ∃ r, getFieldType vm ⟨.main, -1⟩ key w = .error .undefined (w.withMain w.main.slots r) ∧
      w.record.Gains P r := by
  obtain ⟨r, found, gains⟩ := index2stack_outside (w := w) (show (-1 : Int) < 0 by decide)
    (by simp [empty]) tolerant
  refine ⟨r, ?_, gains⟩
  have value : index2value .main (-1) w = .error .undefined (w.withMain w.main.slots r) :=
    bind_of_error found _
  have field : luaGetfield vm .main (-1) (Utf8.encode key.toList ++ [0]) w =
      .error .undefined (w.withMain w.main.slots r) := by
    rw [luaGetfield, bind_of_ok (run_enter alive)]
    exact bind_of_error value _
  rw [getFieldType, bind_of_ok (run_allocateFrom key alive)]
  exact bind_of_error field _

end LuaTable

/-- The Java types a global or a field is read as. -/
inductive Kind where
  | string | integer | number | boolean
  deriving DecidableEq

namespace Kind

def fieldType : Kind → LuaType
  | string => .string
  | integer | number => .number
  | boolean => .boolean

def pop (vm : VM) : Kind → Wrapper OperationResult
  | string => .string <$> LuaStack.popString vm .main
  | integer => .integer <$> LuaStack.popInteger vm .main
  | number => .number <$> LuaStack.popNumber vm .main
  | boolean => .boolean <$> LuaStack.popBoolean .main

def resultOf (libc : Libc) : Kind → Value → Except JavaException OperationResult
  | string, v => .string <$> LuaStack.stringOf libc (-1) v
  | integer, v => .integer <$> LuaStack.integerOf libc (-1) v
  | number, v => .number <$> LuaStack.numberOf libc (-1) v
  | boolean, v => .ok (.boolean (!v.isFalse))

def getGlobal : Kind → String → Operation
  | string => .getGlobalString
  | integer => .getGlobalInteger
  | number => .getGlobalNumber
  | boolean => .getGlobalBoolean

def getField : Kind → Handle → String → Operation
  | string => .getString
  | integer => .getInteger
  | number => .getNumber
  | boolean => .getBoolean

theorem run_pop (vm : VM) {w : World} {P : Violation → Prop} {v : Value} {below : List Value}
    (k : Kind) (alive : w.Alive) (top : w.main.slots = v :: below)
    (tolerant : P .invalidIndex ∧ P .invalidTop) :
    ∃ r, k.pop vm w = (w.withMain (LuaStack.remaining (k.resultOf vm.libc v) v below) r).settle
        (k.resultOf vm.libc v) ∧ w.record.Gains P r := by
  cases k with
  | string =>
    obtain ⟨r, popped, gains⟩ := LuaStack.run_popString vm alive top tolerant
    refine ⟨r, ?_, gains⟩
    rw [pop, run_map, popped, resultOf]
    cases LuaStack.stringOf vm.libc (-1) v <;> rfl
  | integer =>
    obtain ⟨r, popped, gains⟩ := LuaStack.run_popInteger vm alive top tolerant
    refine ⟨r, ?_, gains⟩
    rw [pop, run_map, popped, resultOf]
    cases LuaStack.integerOf vm.libc (-1) v <;> rfl
  | number =>
    obtain ⟨r, popped, gains⟩ := LuaStack.run_popNumber vm alive top tolerant
    refine ⟨r, ?_, gains⟩
    rw [pop, run_map, popped, resultOf]
    cases LuaStack.numberOf vm.libc (-1) v <;> rfl
  | boolean =>
    obtain ⟨r, popped, gains⟩ := LuaStack.run_popBoolean alive top tolerant
    exact ⟨r, by rw [pop, run_map, popped]; rfl, gains⟩

theorem operation_getGlobal (vm : VM) (k : Kind) (name : String) :
    LuaInterpreter.operation vm .main (k.getGlobal name) = (do
      modify fun w => w.addStep (.operation (k.getGlobal name) w.main w.heap w.status w.calls)
      LowLevelLua.getGlobal vm .main name
      k.pop vm) := by
  cases k <;> exact bind_congr fun _ => map_bind _ _ _

theorem operation_getField (vm : VM) (k : Kind) (table : Handle) (key : String) :
    LuaInterpreter.operation vm .main (k.getField table key) = (do
      modify fun w => w.addStep (.operation (k.getField table key) w.main w.heap w.status w.calls)
      LuaTable.getField vm ⟨.main, -1⟩ key k.fieldType
      k.pop vm) := by
  obtain ⟨table, rfl⟩ := table
  cases k <;> exact bind_congr fun _ => map_bind _ _ _

end Kind

/-- The setters push a value and assign it. -/
inductive Setter where
  | string (value : String)
  | integer (value : Int64)
  | number (value : Binary64)
  | boolean (value : Bool)
  | function (method : Nat)

namespace Setter

def push : Setter → Wrapper Unit
  | string value => LuaStack.pushString .main value
  | integer value => LuaStack.pushInteger .main value
  | number value => LuaStack.pushNumber .main value
  | boolean value => LuaStack.pushBoolean .main value
  | function method => LuaStack.pushCFunction .main (.method method)

/- The value that is pushed, where stub is the number of the next upcall stub. -/
def value (stub : Nat) : Setter → Value
  | string value => .string (Utf8.encode value.toList)
  | integer value => .integer value
  | number value => .float value
  | boolean value => .boolean value
  | function _ => .function (.cfunction stub)

def callbacks : Setter → List Callback
  | function method => [.method method]
  | _ => []

def setGlobal : Setter → String → Operation
  | string value, name => .setGlobalString name value
  | integer value, name => .setGlobalInteger name value
  | number value, name => .setGlobalNumber name value
  | boolean value, name => .setGlobalBoolean name value
  | function method, name => .setGlobalFunction name method

theorem run_push {w : World} {P : Violation → Prop} (s : Setter) (alive : w.Alive)
    (room : w.main.top + 1 ≤ w.main.ciTop ∨ P .stackOverflow) :
    ∃ r, s.push w = .ok ⟨⟩ ((w.register s.callbacks).withMain
        (s.value w.callbacks.length :: w.main.slots) r) ∧ w.record.Gains P r := by
  cases s with
  | function method => exact LuaStack.run_pushCFunction alive room (.method method)
  | string text =>
    simpa only [push, callbacks, value, World.register_nil] using
      LuaStack.run_pushString alive room text
  | integer i =>
    simpa only [push, callbacks, value, World.register_nil] using
      LuaStack.run_pushInteger alive room i
  | number n =>
    simpa only [push, callbacks, value, World.register_nil] using
      LuaStack.run_pushNumber alive room n
  | boolean b =>
    simpa only [push, callbacks, value, World.register_nil] using
      LuaStack.run_pushBoolean alive room b

theorem operation_setGlobal (vm : VM) (s : Setter) (name : String) :
    LuaInterpreter.operation vm .main (s.setGlobal name) = (do
      modify fun w => w.addStep (.operation (s.setGlobal name) w.main w.heap w.status w.calls)
      (fun _ => .done) <$> (do
        s.push
        LowLevelLua.setGlobal vm .main name)) := by
  cases s <;> rfl

end Setter

/- The operations by families. -/
theorem Operation.families {p : Operation → Prop} (exec : ∀ chunk, p (.exec chunk))
    (getGlobal : ∀ (k : Kind) name, p (k.getGlobal name))
    (getGlobalTable : ∀ name, p (.getGlobalTable name))
    (setGlobal : ∀ (s : Setter) name, p (s.setGlobal name))
    (call : ∀ f, p (.call f))
    (getField : ∀ (k : Kind) table key, p (k.getField table key))
    (close : p .close) (o : Operation) : p o := by
  cases o with
  | exec chunk => exact exec chunk
  | getGlobalString name => exact getGlobal .string name
  | getGlobalInteger name => exact getGlobal .integer name
  | getGlobalNumber name => exact getGlobal .number name
  | getGlobalBoolean name => exact getGlobal .boolean name
  | getGlobalTable name => exact getGlobalTable name
  | setGlobalString name value => exact setGlobal (.string value) name
  | setGlobalInteger name value => exact setGlobal (.integer value) name
  | setGlobalNumber name value => exact setGlobal (.number value) name
  | setGlobalBoolean name value => exact setGlobal (.boolean value) name
  | setGlobalFunction name method => exact setGlobal (.function method) name
  | call f => exact call f
  | getString table key => exact getField .string table key
  | getInteger table key => exact getField .integer table key
  | getNumber table key => exact getField .number table key
  | getBoolean table key => exact getField .boolean table key
  | close => exact close

namespace LuaFunction

/-- What pushing a list of objects puts on the stack, the first at the bottom, with the callbacks
   it registers; it ends at the first object without a Lua value. -/
structure Images where
  values : List Value
  callbacks : List Callback
  outcome : Except JavaException Unit

def imagesOf : Nat → List Object → Images
  | _, [] => ⟨[], [], .ok ()⟩
  | stub, o :: os =>
    match LuaStack.imageOf stub o with
    | .ok v =>
      let rest := imagesOf (stub + (LuaStack.callbacksOf o).length) os
      ⟨v :: rest.values, LuaStack.callbacksOf o ++ rest.callbacks, rest.outcome⟩
    | .error e => ⟨[], [], .error e⟩

theorem run_pushObjects {P : Violation → Prop} {w : World} (os : List Object) (alive : w.Alive)
    (room : w.main.top + (imagesOf w.callbacks.length os).values.length ≤ w.main.ciTop ∨
      P .stackOverflow) :
    ∃ r, os.forM (LuaStack.pushObject .main) w =
        ((w.register (imagesOf w.callbacks.length os).callbacks).withMain
          ((imagesOf w.callbacks.length os).values.reverse ++ w.main.slots) r).settle
          (imagesOf w.callbacks.length os).outcome ∧
      w.record.Gains P r := by
  induction os generalizing w with
  | nil => exact ⟨w.record, by rw [imagesOf, World.register_nil]; rfl, .refl P _⟩
  | cons o os ih =>
    rw [imagesOf] at room ⊢
    cases image : LuaStack.imageOf w.callbacks.length o with
    | error e =>
      refine ⟨w.record, ?_, .refl P _⟩
      rw [List.forM, bind_of_error (LuaStack.run_pushObject_refused image)]
      simp only [World.register_nil]
      rfl
    | ok v =>
      simp only [image, List.length_cons] at room
      obtain ⟨r, pushed, gains⟩ := LuaStack.run_pushObject alive
        (room.imp_left fun h => by omega) image
      obtain ⟨r', rest, gains'⟩ := ih (w := (w.register (LuaStack.callbacksOf o)).withMain
        (v :: w.main.slots) r) (by simpa using alive)
        (room.imp_left fun h => by simp [LuaState.top] at h ⊢; omega)
      refine ⟨r', ?_, gains.trans gains'⟩
      rw [List.forM, bind_of_ok pushed, rest]
      simp

/- The objects for the values that were on top, the newest first. -/
def objectsOf (libc : Libc) : List JavaClass → List Value → Except JavaException (List Object)
  | type :: types, v :: vs => do
    let value ← LuaStack.objectOf libc (-1) type v
    let values ← objectsOf libc types vs
    return value :: values
  | _, _ => .ok []

/-- How many values the pops with the given types take, until one is refused or none is left. -/
def popCount (libc : Libc) : List JavaClass → List Value → Nat
  | type :: types, v :: vs =>
    if LuaStack.accepts libc type v then popCount libc types vs + 1 else 0
  | _, _ => 0

theorem ensures_getResultValues (vm : VM) {P : Violation → Prop} (types : List JavaClass)
    {w : World} (alive : w.Alive) (tolerant : P .invalidIndex ∧ P .invalidTop) :
    Ensures (types.mapM (LuaStack.popObject vm .main)) w
      (fun os w' => types.length ≤ w.main.slots.length ∧
        objectsOf vm.libc types w.main.slots = .ok os ∧
        popCount vm.libc types w.main.slots = types.length ∧
        ∃ r, w' = w.withMain (w.main.slots.drop types.length) r ∧ w.record.Gains P r)
      (fun f w' => ∃ r,
        w' = w.withMain (w.main.slots.drop (popCount vm.libc types w.main.slots)) r ∧
        w.record.Gains P r ∧
        (w.main.slots.length < types.length ∧ f = .undefined ∧
            popCount vm.libc types w.main.slots = w.main.slots.length ∨
          popCount vm.libc types w.main.slots < types.length ∧
            ∃ e, f = .exception e ∧ objectsOf vm.libc types w.main.slots = .error e)) := by
  induction types generalizing w with
  | nil =>
    rw [List.mapM_nil]
    exact ensures_of_run (run_pure [] w) ⟨Nat.zero_le _, rfl, rfl, w.record, rfl, .refl P _⟩
  | cons type types ih =>
    rw [List.mapM_cons]
    cases top : w.main.slots with
    | nil =>
      obtain ⟨r, read, gains⟩ := LuaStack.popObject_empty vm type alive top tolerant.1
      rw [top] at read
      exact ensures_of_fault (bind_of_error read _)
        ⟨r, rfl, gains, .inl ⟨Nat.succ_pos _, rfl, rfl⟩⟩
    | cons v below =>
      obtain ⟨r, popped, gains⟩ := LuaStack.run_popObject vm alive top tolerant type
      have accepted := LuaStack.objectOf_ok_iff vm.libc (-1) type v
      rw [objectsOf, popCount]
      cases value : LuaStack.objectOf vm.libc (-1) type v with
      | error e =>
        rw [value] at popped accepted
        have refused : ¬ LuaStack.accepts vm.libc type v = true :=
          fun accepts => by obtain ⟨o, ok⟩ := accepted.mpr accepts; cases ok
        rw [if_neg refused]
        exact ensures_of_fault (bind_of_error popped _)
          ⟨r, rfl, gains, .inr ⟨Nat.succ_pos _, e, rfl, rfl⟩⟩
      | ok o =>
        rw [value] at popped accepted
        rw [if_pos (accepted.mp ⟨o, rfl⟩)]
        have popped : LuaStack.popObject vm .main type w = .ok o (w.withMain below r) := popped
        refine ensures_step popped ((ensures_bind _ _ _ _ _).mpr ?_)
        have alive' : (w.withMain below r).Alive := (w.withMain_alive below r).mpr alive
        refine ensures_mono (ih alive') ?_ ?_
        · rintro os w' ⟨enough, values, count, r', rfl, gains'⟩
          refine ensures_of_run (run_pure _ _) ⟨Nat.succ_le_succ enough, ?_,
            congrArg (· + 1) count, r', rfl, gains.trans gains'⟩
          simp only [World.withMain_slots] at values
          rw [values]
          rfl
        · rintro f w' ⟨r', rfl, gains', ends⟩
          refine ⟨r', rfl, gains.trans gains', ends.imp ?_ ?_⟩
          · exact fun ⟨short, fault, count⟩ =>
              ⟨Nat.succ_lt_succ short, fault, congrArg (· + 1) count⟩
          · rintro ⟨fewer, e, fault, values⟩
            refine ⟨Nat.succ_lt_succ fewer, e, fault, ?_⟩
            simp only [World.withMain_slots] at values
            rw [values]
            rfl

end LuaFunction

end Luava
