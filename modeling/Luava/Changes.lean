import Luava.Machine

/-
What the natives change when they work on the main thread of an open state: the slots of its
stack, and the record. The checks that may fail on the way are kept as a predicate, so that
each use of a function can say which of them it tolerates.
-/
namespace Luava

open Effects LuaApi

/-- r' has the steps of r, and every check that failed since satisfies P. -/
structure Record.Gains (P : Violation → Prop) (r r' : Record) : Prop where
  steps : r'.steps = r.steps
  failed : ∃ new, r'.failed = new ++ r.failed ∧ ∀ v ∈ new, P v

namespace Record.Gains

variable {P Q : Violation → Prop} {r r₁ r₂ : Record}

theorem refl (P : Violation → Prop) (r : Record) : Gains P r r := ⟨rfl, [], rfl, by simp⟩

theorem trans (first : Gains P r r₁) (second : Gains P r₁ r₂) : Gains P r r₂ := by
  obtain ⟨steps, new, failed, all⟩ := first
  obtain ⟨steps', new', failed', all'⟩ := second
  refine ⟨steps'.trans steps, new' ++ new, by simp [failed', failed], ?_⟩
  intro v member
  rcases List.mem_append.mp member with later | earlier
  · exact all' v later
  · exact all v earlier

theorem mono (gains : Gains P r r₁) (imp : ∀ v, P v → Q v) : Gains Q r r₁ := by
  obtain ⟨steps, new, failed, all⟩ := gains
  exact ⟨steps, new, failed, fun v member => imp v (all v member)⟩

/- A failed check that P does not allow was there before. -/
theorem mem_of_failed (gains : Gains P r r₁) {v : Violation} (later : v ∈ r₁.failed)
    (other : ¬ P v) : v ∈ r.failed := by
  obtain ⟨_, new, failed, all⟩ := gains
  rcases List.mem_append.mp (failed ▸ later) with added | earlier
  · exact absurd (all v added) other
  · exact earlier

theorem lowered (P : Violation → Prop) (r : Record) (n : Nat) :
    Gains P r { r with low := n } := ⟨rfl, [], rfl, by simp⟩

theorem none (gains : Gains (fun _ => False) r r₁) : r₁.failed = r.failed := by
  obtain ⟨_, new, failed, all⟩ := gains
  rw [failed, List.eq_nil_iff_forall_not_mem.mpr all, List.nil_append]

/- No check failed. -/
theorem quiet (gains : Gains (fun _ => False) r r₁) : Gains P r r₁ :=
  gains.mono fun _ h => h.elim

end Record.Gains

namespace World

def withMain (w : World) (slots : List Value) (record : Record) : World :=
  { w with main := { w.main with slots := slots }, record := record }

section

variable (w : World) (slots slots' : List Value) (r r' : Record)

@[simp] theorem withMain_slots : (w.withMain slots r).main.slots = slots := rfl
@[simp] theorem withMain_func : (w.withMain slots r).main.func = w.main.func := rfl
@[simp] theorem withMain_ciTop : (w.withMain slots r).main.ciTop = w.main.ciTop := rfl
@[simp] theorem withMain_top : (w.withMain slots r).main.top = slots.length := rfl
@[simp] theorem withMain_heap : (w.withMain slots r).heap = w.heap := rfl
@[simp] theorem withMain_coroutine : (w.withMain slots r).coroutine = w.coroutine := rfl
@[simp] theorem withMain_callbacks : (w.withMain slots r).callbacks = w.callbacks := rfl
@[simp] theorem withMain_arenaOpen : (w.withMain slots r).arenaOpen = w.arenaOpen := rfl
@[simp] theorem withMain_status : (w.withMain slots r).status = w.status := rfl
@[simp] theorem withMain_calls : (w.withMain slots r).calls = w.calls := rfl
@[simp] theorem withMain_invocations : (w.withMain slots r).invocations = w.invocations := rfl
@[simp] theorem withMain_record : (w.withMain slots r).record = r := rfl
@[simp] theorem withMain_withMain :
    (w.withMain slots r).withMain slots' r' = w.withMain slots' r' := rfl

end

/- New callbacks are added behind the others. -/
def register (w : World) (callbacks : List Callback) : World :=
  { w with callbacks := w.callbacks ++ callbacks }

section

variable (w : World) (callbacks : List Callback)

@[simp] theorem register_nil : w.register [] = w := by simp [register]
@[simp] theorem register_main : (w.register callbacks).main = w.main := rfl
@[simp] theorem register_heap : (w.register callbacks).heap = w.heap := rfl
@[simp] theorem register_callbacks :
    (w.register callbacks).callbacks = w.callbacks ++ callbacks := rfl
@[simp] theorem register_record : (w.register callbacks).record = w.record := rfl
@[simp] theorem register_register (more : List Callback) :
    (w.register callbacks).register more = w.register (callbacks ++ more) := by
  simp [register]
@[simp] theorem withMain_register (slots : List Value) (r : Record) :
    (w.withMain slots r).register callbacks = (w.register callbacks).withMain slots r := rfl

end

/-- Neither lua_close nor Arena.close has been called. -/
structure Alive (w : World) : Prop where
  status : w.status ≠ .closed
  arena : w.arenaOpen = true

@[simp] theorem withMain_alive (w : World) (slots : List Value) (r : Record) :
    (w.withMain slots r).Alive ↔ w.Alive := ⟨fun h => ⟨h.status, h.arena⟩, fun h => ⟨h.1, h.2⟩⟩

@[simp] theorem register_alive (w : World) (callbacks : List Callback) :
    (w.register callbacks).Alive ↔ w.Alive := ⟨fun h => ⟨h.status, h.arena⟩, fun h => ⟨h.1, h.2⟩⟩

theorem setThread_main (w : World) (slots : List Value) (P : Violation → Prop) :
    ∃ r, w.setThread { w.main with slots := slots } .main = w.withMain slots r ∧
      w.record.Gains P r :=
  ⟨_, rfl, .lowered P _ _⟩

theorem check_main (w : World) (c : Prop) [Decidable c] (v : Violation)
    (P : Violation → Prop) (tolerated : c ∨ P v) :
    ∃ r, w.check c v = w.withMain w.main.slots r ∧ w.record.Gains P r := by
  by_cases h : c
  · exact ⟨w.record, if_pos h, .refl P _⟩
  · refine ⟨_, if_neg h, rfl, [v], rfl, ?_⟩
    simpa using tolerated.resolve_left h

@[simp] theorem main_check (w : World) (c : Prop) [Decidable c] (v : Violation) :
    (w.check c v).main = w.main := by
  by_cases h : c
  · rw [check, if_pos h]
  · rw [check, if_neg h]
    rfl

/- The end of a push. -/
def pushed (w : World) (v : Value) : World :=
  (w.setThread { w.main with slots := v :: w.main.slots } .main).check
    (w.main.top + 1 ≤ w.main.ciTop) .stackOverflow

theorem pushed_eq (w : World) (v : Value) (P : Violation → Prop)
    (room : w.main.top + 1 ≤ w.main.ciTop ∨ P .stackOverflow) :
    ∃ r, w.pushed v = w.withMain (v :: w.main.slots) r ∧ w.record.Gains P r := by
  obtain ⟨r₁, stored, gains₁⟩ := w.setThread_main (v :: w.main.slots) P
  obtain ⟨r₂, checked, gains₂⟩ := (w.withMain (v :: w.main.slots) r₁).check_main
    (w.main.top + 1 ≤ w.main.ciTop) .stackOverflow P room
  exact ⟨r₂, by rw [pushed, stored, checked]; rfl, gains₁.trans gains₂⟩

@[simp] theorem pushed_heap (w : World) (v : Value) : (w.pushed v).heap = w.heap := by
  obtain ⟨r, same, _⟩ := w.pushed_eq v (fun _ => True) (.inr trivial)
  rw [same, withMain_heap]

theorem pushed_alive {w : World} (alive : w.Alive) (v : Value) : (w.pushed v).Alive := by
  obtain ⟨r, same, _⟩ := w.pushed_eq v (fun _ => True) (.inr trivial)
  rw [same]
  exact (w.withMain_alive _ r).mpr alive

theorem pushed_slots (w : World) (v : Value) : (w.pushed v).main.slots = v :: w.main.slots := by
  obtain ⟨r, same, _⟩ := w.pushed_eq v (fun _ => True) (.inr trivial)
  rw [same, withMain_slots]

end World

namespace LuaApi

variable {w : World} {P : Violation → Prop}

theorem run_apiCheck (c : Prop) [Decidable c] (v : Violation) (tolerated : c ∨ P v) :
    ∃ r, apiCheck c v w = .ok ⟨⟩ (w.withMain w.main.slots r) ∧ w.record.Gains P r := by
  obtain ⟨r, checked, gains⟩ := w.check_main c v P tolerated
  exact ⟨r, by rw [apiCheck, run_modify, checked], gains⟩

theorem run_setThread (slots : List Value) :
    ∃ r, setThread { w.main with slots := slots } .main w = .ok ⟨⟩ (w.withMain slots r) ∧
      w.record.Gains P r := by
  obtain ⟨r, set, gains⟩ := w.setThread_main slots P
  exact ⟨r, by rw [setThread, run_modify, set], gains⟩

theorem run_getThread : getThread .main w = .ok w.main w := rfl

theorem enter_open (opened : w.status ≠ .closed) : enter w = .ok ⟨⟩ w := by
  simp [enter, run_bind, run_get, opened, run_pure]

theorem run_enter (alive : w.Alive) : enter w = .ok ⟨⟩ w := enter_open alive.status

theorem enter_closed (closed : w.status = .closed) :
    enter w = .error .undefined (w.fail .afterClose) := by
  simp [enter, fail, run_bind, run_get, closed, run_modify, run_throw]

theorem run_pushed (v : Value) : push .main v w = .ok ⟨⟩ (w.pushed v) := rfl

theorem run_push (v : Value) (room : w.main.top + 1 ≤ w.main.ciTop ∨ P .stackOverflow) :
    ∃ r, push .main v w = .ok ⟨⟩ (w.withMain (v :: w.main.slots) r) ∧ w.record.Gains P r := by
  obtain ⟨r, same, gains⟩ := w.pushed_eq v P room
  exact ⟨r, by rw [run_pushed, same], gains⟩

theorem run_drop (n : Nat) :
    ∃ r, drop .main n w = .ok ⟨⟩ (w.withMain (w.main.slots.drop n) r) ∧ w.record.Gains P r := by
  obtain ⟨r, stored, gains⟩ := run_setThread (w := w) (P := P) (w.main.slots.drop n)
  exact ⟨r, by rw [drop, bind_of_ok run_getThread, stored], gains⟩

/-- idx addresses the slot p below the top, and P allows the check of the index to fail where
   it does. -/
inductive Locates (P : Violation → Prop) (s : LuaState) : Int → Nat → Prop
  | negative (p : Nat) (inside : p < s.slots.length)
      (valid : p + 1 < s.top - s.func ∨ P .invalidIndex) : Locates P s (-(p : Int) - 1) p
  | positive (i : Nat) (nonzero : 0 < i) (inside : s.func + i < s.top)
      (valid : s.func + i < s.ciTop ∨ P .invalidIndex) : Locates P s i (s.top - 1 - (s.func + i))

theorem Locates.inside {s : LuaState} {idx : Int} {p : Nat} (located : Locates P s idx p) :
    p < s.slots.length := by
  cases located with
  | negative p inside valid => exact inside
  | positive i nonzero inside valid => simp only [LuaState.top] at inside ⊢; omega

theorem run_index2stack {idx : Int} {p : Nat} (located : Locates P w.main idx p) :
    ∃ r, index2stack .main idx w = .ok (some p) (w.withMain w.main.slots r) ∧
      w.record.Gains P r := by
  cases located with
  | negative p inside valid =>
    obtain ⟨r, checked, gains⟩ := run_apiCheck (w := w) (P := P)
      (-(p : Int) - 1 ≠ 0 ∧ (-(p : Int) - 1).natAbs < w.main.top - w.main.func) .invalidIndex
      (valid.imp_left fun h => by omega)
    refine ⟨r, ?_, gains⟩
    have abs : (-(p : Int) - 1).natAbs = p + 1 := by omega
    rw [index2stack, bind_of_ok run_getThread, if_neg (by omega), bind_of_ok checked,
      if_pos ⟨by omega, by simp only [LuaState.top]; omega⟩, abs]
    rfl
  | positive i nonzero inside valid =>
    obtain ⟨r, checked, gains⟩ := run_apiCheck (w := w) (P := P)
      (w.main.func + (i : Int).toNat < w.main.ciTop) .invalidIndex valid
    refine ⟨r, ?_, gains⟩
    rw [index2stack, bind_of_ok run_getThread, if_pos (by omega), bind_of_ok checked]
    simp only [Int.toNat_natCast, inside, ↓reduceIte]
    rfl

theorem run_index2value {idx : Int} {p : Nat} {v : Value} (located : Locates P w.main idx p)
    (slot : w.main.slots[p]? = some v) :
    ∃ r, index2value .main idx w = .ok (some v) (w.withMain w.main.slots r) ∧
      w.record.Gains P r := by
  obtain ⟨r, found, gains⟩ := run_index2stack located
  refine ⟨r, ?_, gains⟩
  rw [index2value, bind_of_ok found]
  simp only [bind_of_ok run_getThread, run_pure, World.withMain_slots, slot]

/- A negative index that leaves the stack. -/
theorem index2stack_outside {idx : Int} (negative : idx < 0)
    (outside : w.main.slots.length < idx.natAbs) (tolerant : P .invalidIndex) :
    ∃ r, index2stack .main idx w = .error .undefined (w.withMain w.main.slots r) ∧
      w.record.Gains P r := by
  obtain ⟨r, checked, gains⟩ := run_apiCheck (w := w) (P := P)
    (idx ≠ 0 ∧ idx.natAbs < w.main.top - w.main.func) .invalidIndex (.inr tolerant)
  refine ⟨r, ?_, gains⟩
  rw [index2stack, bind_of_ok run_getThread, if_neg (by omega), bind_of_ok checked,
    if_neg (by simp only [LuaState.top]; omega)]
  rfl

end LuaApi

end Luava
