import Luava.Confined
import Luava.FrameLaws

/-
Two runs on stacks that differ in what lies below them. The wrapper does the same on both, as long
as the run on the shorter stacks finds the slots it reaches for.
-/
namespace Luava

open Effects LuaApi Machine

/-- What lies below the stack of each thread, and a height the main stack does not fall below. -/
structure Bases where
  slots : ThreadId → List Value
  floor : Nat
  within : floor ≤ (slots .main).length

instance : CoeFun Bases fun _ => ThreadId → List Value := ⟨Bases.slots⟩

/-- The stacks of w are those of u with a base below each, and the rest is the same. The main
stack of w has not been lower than the floor. -/
structure Lifted (bases : Bases) (u w : World) : Prop where
  slots : ∀ L, (w.thread L).slots = (u.thread L).slots ++ bases L
  store : w.store = u.store
  sound : u.Sound
  low : bases.floor ≤ w.record.low

namespace Lifted

variable {bases : Bases} {u w u' w' : World}

theorem main (lifted : Lifted bases u w) : w.main.slots = u.main.slots ++ bases .main :=
  lifted.slots .main

theorem heap (lifted : Lifted bases u w) : w.heap = u.heap :=
  congrArg Store.heap lifted.store

theorem callbacks (lifted : Lifted bases u w) : w.callbacks = u.callbacks :=
  congrArg Store.callbacks lifted.store

theorem arenaOpen (lifted : Lifted bases u w) : w.arenaOpen = u.arenaOpen :=
  congrArg Store.arenaOpen lifted.store

theorem status (lifted : Lifted bases u w) : w.status = u.status :=
  congrArg Store.status lifted.store

theorem calls (lifted : Lifted bases u w) : w.calls = u.calls :=
  congrArg Store.calls lifted.store

theorem alive (lifted : Lifted bases u w) (alive : u.Alive) : w.Alive :=
  ⟨lifted.status ▸ alive.status, lifted.arenaOpen.trans alive.arena⟩

/- The stack of one thread changes above its base. -/
theorem setThread (lifted : Lifted bases u w) {s t : LuaState} (L : ThreadId)
    (slots : t.slots = s.slots ++ bases L) : Lifted bases (u.setThread s L) (w.setThread t L) where
  slots := by
    intro L'
    cases L with
    | main =>
      cases L' with
      | main => exact slots
      | coroutine id => exact lifted.slots (.coroutine id)
    | coroutine id =>
      cases L' with
      | main => exact lifted.slots .main
      | coroutine id' =>
        have other := lifted.slots (.coroutine id')
        by_cases same : id' = id
        · subst same
          simpa [World.setThread, World.thread] using slots
        · simpa [World.setThread, World.thread, same] using other
  store := by
    cases L with
    | main => exact lifted.store
    | coroutine id => exact lifted.store
  sound := by
    cases L with
    | main => exact lifted.sound
    | coroutine id => exact lifted.sound
  low := by
    cases L with
    | coroutine id => exact lifted.low
    | main =>
      have high : bases.floor ≤ t.top := by
        rw [LuaState.top, slots, List.length_append]
        exact bases.within.trans (Nat.le_add_left _ _)
      exact Nat.le_min.mpr ⟨lifted.low, high⟩

theorem withMain (lifted : Lifted bases u w) {slots slots' : List Value} (r : Record)
    {r' : Record} (low : bases.floor ≤ r'.low) (same : slots' = slots ++ bases .main) :
    Lifted bases (u.withMain slots r) (w.withMain slots' r') where
  slots := by
    intro L
    cases L with
    | main => exact same
    | coroutine id => exact lifted.slots (.coroutine id)
  store := lifted.store
  sound := lifted.sound
  low := low

/- What lowers the stack by less than the slots above the base keeps to the floor. -/
theorem low_of_lowers (lifted : Lifted bases u w) {α : Type} {x : Wrapper α} {n : Nat}
    (lowers : Lowers n x) (few : n ≤ u.main.slots.length) :
    bases.floor ≤ (endOf x w).record.low := by
  have height : w.main.top = u.main.slots.length + (bases .main).length := by
    rw [LuaState.top, lifted.main, List.length_append]
  have within := bases.within
  have before := lifted.low
  have after := (lowers w).low
  omega

/- Two ends of one function, of which the run on the taller stack is known to lower it little. -/
theorem ended (lifted : Lifted bases u w) {α : Type} {x : Wrapper α} {a : Except JavaException α}
    {slots slots' : List Value} {r r' : Record} {n : Nat}
    (left : x w = (w.withMain slots' r').settle a) (lowers : Lowers n x)
    (few : n ≤ u.main.slots.length) (same : slots' = slots ++ bases .main) :
    Lifted bases (u.withMain slots r) (w.withMain slots' r') := by
  refine lifted.withMain r ?_ same
  have low := lifted.low_of_lowers lowers few
  rw [endOf, left] at low
  cases a <;> exact low

/- A change of the store that leaves the stacks alone. -/
theorem changed (lifted : Lifted bases u w) (f : Store → Store)
    (threads : ∀ L, u'.thread L = u.thread L ∧ w'.thread L = w.thread L)
    (left : w'.store = f w.store) (right : u'.store = f u.store) (sound : u'.Sound)
    (low : w.record.low ≤ w'.record.low) : Lifted bases u' w' where
  slots := by
    intro L
    rw [(threads L).1, (threads L).2]
    exact lifted.slots L
  store := by rw [left, right, lifted.store]
  sound := sound
  low := lifted.low.trans low

theorem same_stacks {u u' : World} (main : u'.main = u.main)
    (coroutine : u'.coroutine = u.coroutine) (L : ThreadId) : u'.thread L = u.thread L := by
  cases L with
  | main => exact main
  | coroutine id => exact congrFun coroutine id

theorem register (lifted : Lifted bases u w) (callbacks : List Callback) :
    Lifted bases (u.register callbacks) (w.register callbacks) :=
  lifted.changed (fun s => { s with callbacks := s.callbacks ++ callbacks })
    (fun L => ⟨same_stacks rfl rfl L, same_stacks rfl rfl L⟩) rfl rfl lifted.sound le_rfl

theorem withHeap (lifted : Lifted bases u w) (heap : Heap) :
    Lifted bases (u.withHeap heap) (w.withHeap heap) :=
  lifted.changed (fun s => { s with heap := heap })
    (fun L => ⟨same_stacks rfl rfl L, same_stacks rfl rfl L⟩) rfl rfl lifted.sound le_rfl

theorem withCalls (lifted : Lifted bases u w) {n m : Nat} (same : m = n) :
    Lifted bases { u with calls := n } { w with calls := m } := by
  subst same
  exact lifted.changed (fun s => { s with calls := m })
    (fun L => ⟨same_stacks rfl rfl L, same_stacks rfl rfl L⟩) rfl rfl lifted.sound le_rfl

theorem addStep (lifted : Lifted bases u w) (s t : Step) :
    Lifted bases (u.addStep s) (w.addStep t) :=
  lifted.changed id (fun L => ⟨same_stacks rfl rfl L, same_stacks rfl rfl L⟩) rfl rfl lifted.sound
    le_rfl

theorem check (lifted : Lifted bases u w) (c d : Prop) [Decidable c] [Decidable d]
    (v v' : Violation) : Lifted bases (u.check c v) (w.check d v') := by
  have left : w.check d v' = w ∨ w.check d v' = w.fail v' := by
    rw [World.check]
    split
    · exact .inl rfl
    · exact .inr rfl
  have right : u.check c v = u ∨ u.check c v = u.fail v := by
    rw [World.check]
    split
    · exact .inl rfl
    · exact .inr rfl
  rcases left with left | left <;> rcases right with right | right <;> rw [left, right] <;>
    exact lifted.changed id (fun L => ⟨same_stacks rfl rfl L, same_stacks rfl rfl L⟩) rfl rfl
      lifted.sound le_rfl

theorem pushed (lifted : Lifted bases u w) (v : Value) :
    Lifted bases (u.pushed v) (w.pushed v) := by
  apply Lifted.check
  apply lifted.setThread .main
  rw [lifted.main]
  rfl

end Lifted

/- Everything on the stacks of w lies below. -/
def World.bases (w : World) (floor : Nat) (within : floor ≤ w.main.top) : Bases :=
  ⟨fun L => (w.thread L).slots, floor, within⟩

theorem Lifted.bare {w : World} (sound : w.Sound) {floor : Nat} (within : floor ≤ w.main.top)
    (low : floor ≤ w.record.low) : Lifted (w.bases floor within) w.store.bare w where
  slots := by
    intro L
    cases L <;> rfl
  store := rfl
  sound := sound
  low := low

/-- x in w does what x' does in u. What x' leaves undefined is left open. -/
def Follows {α : Type} (bases : Bases) (x x' : Wrapper α) (u w : World) : Prop :=
  Simulates (· = .undefined) x x' w u (fun a w' b u' => a = b ∧ Lifted bases u' w')
    fun f w' g u' => f = g ∧ Lifted bases u' w'

namespace Follows

variable {bases : Bases} {u w u' w' : World} {α β : Type} {x x' : Wrapper α}

theorem pure (lifted : Lifted bases u w) (a : α) : Follows bases (pure a) (pure a) u w :=
  Simulates.pure ⟨rfl, lifted⟩

theorem throws (lifted : Lifted bases u w) (f : Fault) :
    Follows bases (throw f : Wrapper α) (throw f) u w :=
  Simulates.throws ⟨rfl, lifted⟩

theorem stuck (run : x' u = .error .undefined u') : Follows bases x x' u w :=
  .undefined .undefined u' run rfl

theorem bind {f f' : α → Wrapper β} (first : Follows bases x x' u w)
    (rest : ∀ a u' w', Lifted bases u' w' → Follows bases (f a) (f' a) u' w') :
    Follows bases (x >>= f) (x' >>= f') u w := by
  apply Simulates.bind
  refine Simulates.mono first ?_ fun _ _ _ _ h => h
  rintro a w' b u' ⟨rfl, lifted⟩
  exact rest a u' w' lifted

theorem map {f : α → β} (first : Follows bases x x' u w) :
    Follows bases (f <$> x) (f <$> x') u w :=
  bind first fun a _ _ lifted => pure lifted (f a)

theorem ite {c : Prop} [Decidable c] {y y' : Wrapper α} (yes : c → Follows bases x x' u w)
    (no : ¬ c → Follows bases y y' u w) :
    Follows bases (if c then x else y) (if c then x' else y') u w := by
  by_cases holds : c
  · rw [if_pos holds, if_pos holds]
    exact yes holds
  · rw [if_neg holds, if_neg holds]
    exact no holds

/- A step of both. -/
theorem step {γ : Type} {y : Wrapper α} {y' : Wrapper β} {f : α → Wrapper γ} {f' : β → Wrapper γ}
    {a : α} {b : β} (left : y w = .ok a w') (right : y' u = .ok b u')
    (rest : Follows bases (f a) (f' b) u' w') : Follows bases (y >>= f) (y' >>= f') u w :=
  Simulates.step left (Simulates.spec_step right rest)

/- Two ends that are known. -/
theorem settles {a : Except JavaException α} (left : x w = w'.settle a) (right : x' u = u'.settle a)
    (lifted : Lifted bases u' w') : Follows bases x x' u w := by
  cases a with
  | ok b => exact .ok b b w' u' left right ⟨rfl, lifted⟩
  | error e => exact .error _ _ w' u' left right ⟨rfl, lifted⟩

/- A state is open or closed. -/
theorem when_open (lifted : Lifted bases u w) (alive : u.Alive → Follows bases x x' u w)
    (closed : u.Closed → w.Closed → Follows bases x x' u w) : Follows bases x x' u w := by
  by_cases status : u.status = .closed
  · have shut := lifted.sound.closed status
    exact closed shut ⟨lifted.status.trans status, lifted.arenaOpen.trans shut.arena⟩
  · exact alive (lifted.sound.alive status)

theorem of_dead (dead : Dead x' u) : Follows bases x x' u w := stuck dead

theorem of_refused (lifted : Lifted bases u w) (left : Refused x w) (right : Refused x' u) :
    Follows bases x x' u w :=
  .error _ _ w u left right ⟨rfl, lifted⟩

end Follows

/- x reaches for slots that are not there. -/
def Stuck {α : Type} (x : Wrapper α) (u : World) : Prop := ∃ u', x u = .error .undefined u'

namespace Stuck

variable {α β : Type} {u u' : World} {x : Wrapper α}

theorem bind (stuck : Stuck x u) (f : α → Wrapper β) : Stuck (x >>= f) u := by
  obtain ⟨u', run⟩ := stuck
  exact ⟨u', bind_of_error run f⟩

theorem map (stuck : Stuck x u) (f : α → β) : Stuck (f <$> x) u := stuck.bind _

theorem step {f : α → Wrapper β} {a : α} (run : x u = .ok a u') (rest : Stuck (f a) u') :
    Stuck (x >>= f) u := by
  obtain ⟨u'', stuck⟩ := rest
  exact ⟨u'', (bind_of_ok run f).trans stuck⟩

theorem follows {x' : Wrapper α} {bases : Bases} {w : World} (stuck : Stuck x u) :
    Follows bases x' x u w := by
  obtain ⟨u', run⟩ := stuck
  exact .stuck run

end Stuck

section Reads

variable {bases : Bases} {u w : World} {vm vm' : VM}

theorem stuck_top (empty : u.main.slots = []) : Stuck (index2value .main (-1)) u := by
  have outside : u.main.slots.length < (-1 : Int).natAbs := by
    rw [empty]
    exact Nat.one_pos
  obtain ⟨r, run, _⟩ := index2stack_outside (by decide) outside (P := fun _ => True) trivial
  exact ⟨_, bind_of_error run _⟩

theorem stuck_popString (vm : VM) (alive : u.Alive) (empty : u.main.slots = []) :
    Stuck (LuaStack.popString vm .main) u := by
  have read : Stuck (LuaStack.isString .main (-1)) u :=
    Stuck.step (run_enter alive) ((stuck_top empty).bind _)
  exact (read.bind _ : Stuck (LuaStack.toString vm .main (-1)) u).bind _

theorem stuck_pop (vm : VM) (k : Kind) (alive : u.Alive) (empty : u.main.slots = []) :
    Stuck (k.pop vm) u := by
  have value := stuck_top empty
  cases k with
  | string => exact (stuck_popString vm alive empty).map _
  | boolean =>
    have read : Stuck (LuaStack.toBoolean .main (-1)) u :=
      Stuck.step (run_enter alive) (value.bind _)
    exact (read.bind _).map _
  | integer =>
    have read : Stuck (luaTointegerx vm .main (-1)) u :=
      Stuck.step (run_enter alive) (value.bind _)
    have converted : Stuck (LuaStack.toInteger vm .main (-1)) u :=
      Stuck.step (run_allocate alive) (read.bind _)
    exact (converted.bind _).map _
  | number =>
    have read : Stuck (luaTonumberx vm .main (-1)) u :=
      Stuck.step (run_enter alive) (value.bind _)
    have converted : Stuck (LuaStack.toNumber vm .main (-1)) u :=
      Stuck.step (run_allocate alive) (read.bind _)
    exact (converted.bind _).map _

/- The top slot of both stacks, if the shorter one has one. -/
theorem Lifted.top (lifted : Lifted bases u w) {v : Value} {own : List Value}
    (top : u.main.slots = v :: own) : w.main.slots = v :: (own ++ bases .main) := by
  rw [lifted.main, top, List.cons_append]

theorem follows_pop (libc : vm'.libc = vm.libc) (k : Kind) (lifted : Lifted bases u w) :
    Follows bases (k.pop vm) (k.pop vm') u w := by
  refine .when_open lifted (fun alive => ?_) fun closed shut => ?_
  · cases top : u.main.slots with
    | nil => exact (stuck_pop vm' k alive top).follows
    | cons v own =>
      obtain ⟨r', right, _⟩ := k.run_pop vm' alive top (P := fun _ => True) ⟨trivial, trivial⟩
      obtain ⟨r, left, _⟩ := k.run_pop vm (lifted.alive alive) (lifted.top top)
        (P := fun _ => True) ⟨trivial, trivial⟩
      rw [libc] at right
      have one : 1 ≤ u.main.slots.length := by
        rw [top]
        exact Nat.succ_le_succ (Nat.zero_le _)
      exact .settles left right (lifted.ended left (lowers_kind_pop vm k) one
        (LuaStack.remaining_append v own _))
  · cases k with
    | string => exact .of_dead ((dead_popString vm' closed).map _)
    | boolean => exact .of_dead ((dead_popBoolean closed).map _)
    | integer =>
      exact .of_refused lifted ((refused_popInteger vm shut).map _)
        ((refused_popInteger vm' closed).map _)
    | number =>
      exact .of_refused lifted ((refused_popNumber vm shut).map _)
        ((refused_popNumber vm' closed).map _)

theorem follows_table (lifted : Lifted bases u w) :
    Follows bases (LowLevelLua.table .main (-1)) (LowLevelLua.table .main (-1)) u w := by
  refine .when_open lifted (fun alive => ?_) fun closed _ => ?_
  · cases top : u.main.slots with
    | nil =>
      have type : Stuck (LuaStack.getType .main (-1)) u :=
        (Stuck.step (run_enter alive) ((stuck_top top).bind _)).bind _
      exact ((type.bind _ : Stuck (LowLevelLua.assertType .main (-1) .table) u).bind _).follows
    | cons v own =>
      obtain ⟨r', right, _⟩ := LowLevelLua.run_table alive top (P := fun _ => True) trivial
      obtain ⟨r, left, _⟩ := LowLevelLua.run_table (lifted.alive alive) (lifted.top top)
        (P := fun _ => True) trivial
      exact .settles left right (lifted.ended left lowers_table (Nat.zero_le _) lifted.main)
  · exact .of_dead (((dead_getType closed (-1)).bind _ :
      Dead (LowLevelLua.assertType .main (-1) .table) u).bind _)

theorem follows_toObject (libc : vm'.libc = vm.libc) {idx : Int} (negative : idx < 0)
    (c : JavaClass) (lifted : Lifted bases u w) :
    Follows bases (LuaStack.toObject vm .main idx c) (LuaStack.toObject vm' .main idx c) u w := by
  refine .when_open lifted (fun alive => ?_) fun closed _ => .of_dead (dead_toObject vm' closed _ _)
  by_cases inside : idx.natAbs ≤ u.main.slots.length
  · obtain ⟨p, rfl⟩ : ∃ p : Nat, idx = -(p : Int) - 1 := ⟨idx.natAbs - 1, by omega⟩
    have own : p < u.main.slots.length := by omega
    have all : p < w.main.slots.length := by
      rw [lifted.main, List.length_append]
      omega
    have slot : u.main.slots[p]? = some u.main.slots[p] := List.getElem?_eq_getElem own
    have same : w.main.slots[p]? = some u.main.slots[p] := by
      rw [lifted.main, List.getElem?_append_left own, slot]
    obtain ⟨r', right, _⟩ := LuaStack.run_toObject vm' alive
      (.negative p own (.inr trivial) : Locates (fun _ => True) u.main _ p) slot c
    obtain ⟨r, left, _⟩ := LuaStack.run_toObject vm (lifted.alive alive)
      (.negative p all (.inr trivial) : Locates (fun _ => True) w.main _ p) same c
    rw [libc] at right
    refine .settles left right (lifted.ended left (lowers_toObject vm _ c) (Nat.zero_le _) ?_)
    rw [lifted.main, List.set_append_left _ _ own]
  · obtain ⟨r, right, _⟩ := LuaStack.toObject_outside vm' c alive negative (by omega)
      (P := fun _ => True) trivial
    exact .stuck right

theorem follows_popObject (libc : vm'.libc = vm.libc) (c : JavaClass)
    (lifted : Lifted bases u w) :
    Follows bases (LuaStack.popObject vm .main c) (LuaStack.popObject vm' .main c) u w := by
  refine .when_open lifted (fun alive => ?_) fun closed _ => .of_dead (dead_popObject vm' closed c)
  cases top : u.main.slots with
  | nil =>
    obtain ⟨r, right, _⟩ := LuaStack.popObject_empty vm' c alive top (P := fun _ => True) trivial
    exact .stuck right
  | cons v own =>
    obtain ⟨r', right, _⟩ := LuaStack.run_popObject vm' alive top (P := fun _ => True)
      ⟨trivial, trivial⟩ c
    obtain ⟨r, left, _⟩ := LuaStack.run_popObject vm (lifted.alive alive) (lifted.top top)
      (P := fun _ => True) ⟨trivial, trivial⟩ c
    rw [libc] at right
    have one : 1 ≤ u.main.slots.length := by
      rw [top]
      exact Nat.succ_le_succ (Nat.zero_le _)
    exact .settles left right (lifted.ended left (lowers_popping (lowers_toObject vm (-1) c)) one
      (LuaStack.remaining_append v own _))

theorem follows_popObjects (libc : vm'.libc = vm.libc) (types : List JavaClass)
    (lifted : Lifted bases u w) :
    Follows bases (types.mapM (LuaStack.popObject vm .main))
      (types.mapM (LuaStack.popObject vm' .main)) u w := by
  induction types generalizing u w with
  | nil =>
    rw [List.mapM_nil, List.mapM_nil]
    exact .pure lifted []
  | cons type types ih =>
    rw [List.mapM_cons, List.mapM_cons]
    apply Follows.bind (follows_popObject libc type lifted)
    intro o u' w' lifted'
    apply Follows.bind (ih lifted')
    intro os u'' w'' lifted''
    exact .pure lifted'' (o :: os)

theorem follows_toObjects (libc : vm'.libc = vm.libc) {n i : Nat} (types : List JavaClass)
    (counted : i + types.length ≤ n) (lifted : Lifted bases u w) :
    Follows bases (LuaStack.toObjects vm .main n i types)
      (LuaStack.toObjects vm' .main n i types) u w := by
  induction types generalizing i u w with
  | nil => exact .pure lifted []
  | cons type types ih =>
    rw [List.length_cons] at counted
    have negative : (i : Int) - n < 0 := by omega
    apply Follows.bind (follows_toObject libc negative type lifted)
    intro o u' w' lifted'
    apply Follows.bind (ih (by omega) lifted')
    intro os u'' w'' lifted''
    exact .pure lifted'' (o :: os)

/- The printed text depends on the stack, but it is only logged. -/
theorem follows_getValues (libc : vm'.libc = vm.libc) (finest : vm'.finest = vm.finest)
    (types : List JavaClass) (lifted : Lifted bases u w) :
    Follows bases (LuaStack.getValues vm .main types) (LuaStack.getValues vm' .main types) u w := by
  apply Follows.bind (follows_toObjects libc types (Nat.zero_add _).le lifted)
  intro os u' w' lifted'
  rw [finest]
  refine .ite (fun _ => ?_) fun _ => .pure lifted' os
  refine .when_open lifted' (fun alive => ?_) fun closed _ => ?_
  · obtain ⟨r', right, _⟩ := LuaStack.run_printStack vm' alive (P := fun _ => True) (.inr trivial)
    obtain ⟨r, left, _⟩ := LuaStack.run_printStack vm (lifted'.alive alive) (P := fun _ => True)
      (.inr trivial)
    have low := lifted'.low_of_lowers (lowers_printStack vm) (Nat.zero_le _)
    rw [endOf, left] at low
    exact .step left right (.pure (lifted'.withMain r' low lifted'.main) os)
  · have top : Dead (LuaStack.getTop .main) u' := (dead_enter closed).bind _
    exact .of_dead ((top.bind _ : Dead (LuaStack.printStack vm' .main) u').bind _)

end Reads

section Pushes

variable {bases : Bases} {u w : World}

/- A push of one value, with the callbacks it registers. -/
theorem follows_push {x : Wrapper Unit} {v : Value} {callbacks : List Callback} {r r' : Record}
    (lifted : Lifted bases u w) (lowers : Lowers 0 x)
    (left : x w = .ok ⟨⟩ ((w.register callbacks).withMain (v :: w.main.slots) r))
    (right : x u = .ok ⟨⟩ ((u.register callbacks).withMain (v :: u.main.slots) r')) :
    Follows bases x x u w := by
  have same : v :: w.main.slots = (v :: u.main.slots) ++ bases .main := by
    rw [lifted.main, List.cons_append]
  have low := lifted.low_of_lowers lowers (Nat.zero_le _)
  rw [endOf, left] at low
  exact .settles (a := .ok ()) left right ((lifted.register callbacks).withMain r' low same)

theorem follows_pushObject (o : Object) (lifted : Lifted bases u w) :
    Follows bases (LuaStack.pushObject .main o) (LuaStack.pushObject .main o) u w := by
  refine .when_open lifted (fun alive => ?_) fun closed shut => ?_
  · cases image : LuaStack.imageOf u.callbacks.length o with
    | error e =>
      exact .settles (LuaStack.run_pushObject_refused image)
        (LuaStack.run_pushObject_refused image) lifted
    | ok v =>
      have same : LuaStack.imageOf w.callbacks.length o = .ok v := by
        rw [lifted.callbacks]
        exact image
      obtain ⟨r', right, _⟩ := LuaStack.run_pushObject alive (P := fun _ => True) (.inr trivial)
        image
      obtain ⟨r, left, _⟩ := LuaStack.run_pushObject (lifted.alive alive) (P := fun _ => True)
        (.inr trivial) same
      exact follows_push lifted (lowers_pushObject o) left right
  · have entered := dead_enter closed
    cases o with
    | string text =>
      exact .of_refused lifted ((refused_allocateFrom shut text).bind _)
        ((refused_allocateFrom closed text).bind _)
    | function f =>
      exact .of_refused lifted ((refused_allocate shut).bind _) ((refused_allocate closed).bind _)
    | other className text => exact .throws lifted _
    | _ => exact .of_dead (entered.bind _)

theorem follows_pushObjects (os : List Object) (lifted : Lifted bases u w) :
    Follows bases (os.forM (LuaStack.pushObject .main)) (os.forM (LuaStack.pushObject .main))
      u w := by
  induction os generalizing u w with
  | nil => exact .pure lifted ()
  | cons o os ih =>
    apply Follows.bind (follows_pushObject o lifted)
    intro _ u' w' lifted'
    exact ih lifted'

theorem follows_setter_push (s : Setter) (lifted : Lifted bases u w) :
    Follows bases s.push s.push u w := by
  refine .when_open lifted (fun alive => ?_) fun closed shut => ?_
  · obtain ⟨r', right, _⟩ := s.run_push alive (P := fun _ => True) (.inr trivial)
    obtain ⟨r, left, _⟩ := s.run_push (lifted.alive alive) (P := fun _ => True) (.inr trivial)
    rw [lifted.callbacks] at left
    exact follows_push lifted (lowers_setter_push s) left right
  · have entered := dead_enter closed
    cases s with
    | string text =>
      exact .of_refused lifted ((refused_allocateFrom shut text).bind _)
        ((refused_allocateFrom closed text).bind _)
    | function method =>
      exact .of_refused lifted ((refused_allocate shut).bind _) ((refused_allocate closed).bind _)
    | _ => exact .of_dead (entered.bind _)

end Pushes

end Luava
