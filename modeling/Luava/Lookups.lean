import Luava.Progress

/-
What a lookup by name means in Lua, and that the natives the wrapper reads globals and fields
with perform one lookup each.
-/
namespace Luava

open Effects LuaApi

/-- The value of a key of t: handlers are followed, and the first result of a handler function
   counts. -/
def lookup (vm : VM) (t key : Value) : Wrapper Value := do
  match (← get).heap.access t key with
  | .value v => return v
  | .call tm object => return (← vm.call .main tm [object, key]).headD .nil
  | .fail e => luaDThrow .main e

section

variable (vm : VM) {w : World} {t key : Value}

theorem lookup_value {v : Value} (found : w.heap.access t key = .value v) :
    lookup vm t key w = .ok v w := by
  rw [lookup, bind_of_ok (run_get w), found]
  rfl

theorem lookup_fail {e : LuaError} (found : w.heap.access t key = .fail e) :
    lookup vm t key w = .error (.luaError .main e) w := by
  rw [lookup, bind_of_ok (run_get w), found]
  rfl

theorem lookup_call {tm object : Value} (found : w.heap.access t key = .call tm object) :
    lookup vm t key w =
      match vm.call .main tm [object, key] w with
      | .ok results w' => .ok (results.headD .nil) w'
      | .error f w' => .error f w' := by
  rw [lookup, bind_of_ok (run_get w), found]
  cases ends : vm.call .main tm [object, key] w with
  | ok results w' => exact bind_of_ok ends _
  | error f w' => exact bind_of_error ends _

end

namespace World

/- The value of a lookup takes the slot of its key. -/
def answered (w : World) (v : Value) (r : Record) : World :=
  w.withMain (v :: w.main.slots.drop 1) r

@[simp] theorem answered_alive (w : World) (v : Value) (r : Record) :
    (w.answered v r).Alive ↔ w.Alive := withMain_alive w _ r

theorem answered_slots (w : World) (v : Value) (r : Record) :
    (w.answered v r).main.slots = v :: w.main.slots.drop 1 := rfl

/- The lookup ends at once, so the key's slot is above the slots of before. -/
theorem answered_pushed (w : World) (key v : Value) (r : Record) :
    (w.pushed key).answered v r = w.withMain (v :: w.main.slots) r := by
  obtain ⟨r', same, _⟩ := w.pushed_eq key (fun _ => True) (.inr trivial)
  rw [same]
  rfl

end World

/-- A native that reads a global or a field ends as one lookup does, from a world with the key
   pushed. -/
def LooksUp {α : Type} (vm : VM) (t key : Value) (w : World) (x : Wrapper α) (w₀ : World)
    (result : Value → α) : Prop :=
  Ensures x w₀
    (fun a w'' => ∃ v w' r, lookup vm t key (w.pushed key) = .ok v w' ∧ a = result v ∧
      w'' = w'.answered v r)
    (fun f _ => ∃ w', lookup vm t key (w.pushed key) = .error f w')

section

variable (vm : VM) {w : World}

theorem getGlobal_looks_up (name : String) (alive : w.Alive) :
    LooksUp vm (.table w.heap.globals) (keyOf name) w (LowLevelLua.getGlobal vm .main name) w
      fun _ => ⟨⟩ := by
  refine LowLevelLua.ensures_getGlobal vm alive (P := fun _ => True) (.inr trivial) ?_ ?_ ?_
  · intro v r found _
    refine ⟨v, w.pushed (keyOf name), r, lookup_value vm ?_, rfl, ?_⟩
    · rwa [World.pushed_heap]
    · rw [World.answered_pushed]
  · intro e r found _
    exact ⟨w.pushed (keyOf name), lookup_fail vm (by rwa [World.pushed_heap])⟩
  · intro tm object found
    have called := lookup_call vm (w := w.pushed (keyOf name)) (by rwa [World.pushed_heap])
    refine ensures_mono (ensures_self _ _) ?_ ?_
    · intro results w' run r' _
      exact ⟨results.headD .nil, w', r', by rw [called, run], rfl, rfl⟩
    · intro f w' run
      exact ⟨w', by rw [called, run]⟩

theorem getFieldType_looks_up (key : String) {t : Value} {below : List Value} (alive : w.Alive)
    (top : w.main.slots = t :: below) :
    LooksUp vm t (keyOf key) (w.check (1 < w.main.top - w.main.func) .invalidIndex)
      (LuaTable.getFieldType vm ⟨.main, -1⟩ key) w LuaType.ofValue := by
  obtain ⟨r, checked, _⟩ := w.check_main (1 < w.main.top - w.main.func) .invalidIndex
    (fun _ => True) (.inr trivial)
  rw [checked]
  refine LuaTable.ensures_getFieldType vm alive top (P := fun _ => True) trivial (.inr trivial)
    ?_ ?_ ?_
  · intro v r' found _
    refine ⟨v, (w.withMain w.main.slots r).pushed (keyOf key), r', lookup_value vm ?_, rfl, ?_⟩
    · rwa [World.pushed_heap]
    · rw [World.answered_pushed]
      rfl
  · intro e r' found _
    exact ⟨_, lookup_fail vm (by rwa [World.pushed_heap])⟩
  · intro tm object found
    rw [checked]
    have called := lookup_call vm (w := (w.withMain w.main.slots r).pushed (keyOf key))
      (by rwa [World.pushed_heap])
    refine ensures_mono (ensures_self _ _) ?_ ?_
    · intro results w' run r' _
      exact ⟨results.headD .nil, w', r', by rw [called, run], rfl, rfl⟩
    · intro f w' run
      exact ⟨w', by rw [called, run]⟩

end

theorem World.pushed_sound (w : World) (v : Value) (sound : w.Sound) : (w.pushed v).Sound := by
  obtain ⟨r, same, _⟩ := w.pushed_eq v (fun _ => True) (.inr trivial)
  rw [same]
  exact sound

theorem lookup_sound {vm : VM} {insertkey : Heap → TableId → Value → Bool}
    (lawful : vm.Lawful insertkey) {t key v : Value} {w w' : World} (sound : w.Sound)
    (run : lookup vm t key w = .ok v w') : w'.Sound := by
  cases found : w.heap.access t key with
  | value u =>
    rw [lookup_value vm found] at run
    cases run
    exact sound
  | fail e =>
    rw [lookup_fail vm found] at run
    cases run
  | call tm object =>
    rw [lookup_call vm found] at run
    have kept := lawful.call tm [object, key] w sound
    unfold Ensures at kept
    cases ends : vm.call .main tm [object, key] w with
    | error f u => simp [ends] at run
    | ok results u =>
      simp only [ends] at run kept
      cases run
      exact kept.sound sound

end Luava
