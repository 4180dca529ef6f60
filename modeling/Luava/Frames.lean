import Luava.Direct

/-
The slots an operation finds on the main stack are out of its reach: it works on slots of its
own above them, and does what its reading without the stack does.
-/
namespace Luava

open Effects LuaApi

namespace World

section

variable (w : World)

@[simp] theorem store_withMain (slots : List Value) (r : Record) :
    (w.withMain slots r).store = w.store := rfl

@[simp] theorem store_setThread (s : LuaState) (L : ThreadId) :
    (w.setThread s L).store = w.store := by
  cases L <;> rfl

@[simp] theorem store_fail (v : Violation) : (w.fail v).store = w.store := rfl
@[simp] theorem store_addStep (s : Step) : (w.addStep s).store = w.store := rfl

@[simp] theorem store_check (c : Prop) [Decidable c] (v : Violation) :
    (w.check c v).store = w.store := by
  by_cases h : c
  · rw [check, if_pos h]
  · rw [check, if_neg h]
    rfl

@[simp] theorem store_pushed (v : Value) : (w.pushed v).store = w.store := by
  rw [pushed, store_check, store_setThread]

end

theorem Sound.of_store {w w' : World} (same : w'.store = w.store) (sound : w.Sound) :
    w'.Sound := by
  have status : w'.status = w.status := congrArg Store.status same
  have arena : w'.arenaOpen = w.arenaOpen := congrArg Store.arenaOpen same
  rw [Sound, status, arena]
  exact sound

end World

/-- The slots of w are those of w₀ with own on top. Since w₀ the stack has not been lower. -/
structure Above (w₀ : World) (own : List Value) (w : World) : Prop where
  slots : w.main.slots = own ++ w₀.main.slots
  func : w.main.func = w₀.main.func
  ciTop : w.main.ciTop = w₀.main.ciTop
  low : min w₀.record.low w₀.main.top ≤ w.record.low
  sound : w.Sound

/-- A jump leaves a frame above the slots of w₀. -/
structure Risen (w₀ w : World) : Prop where
  slots : ∃ own, w.main.slots = own ++ w₀.main.slots
  low : min w₀.record.low w₀.main.top ≤ w.record.low
  sound : w.Sound

/-- How a fault leaves the stack. Nothing is left of it when the process ends. -/
def Leaves (w₀ : World) : Fault → World → Prop
  | .exception _, w => ∃ own, Above w₀ own w
  | .luaError .main _, w => Risen w₀ w
  | _, _ => True

namespace Above

variable {w₀ w w' : World} {own own' : List Value}

theorem refl (sound : w.Sound) : Above w [] w := ⟨rfl, rfl, rfl, Nat.min_le_left _ _, sound⟩

theorem risen (above : Above w₀ own w) : Risen w₀ w := ⟨⟨own, above.slots⟩, above.low, above.sound⟩

theorem base_le (above : Above w₀ own w) (n : Nat) (few : n ≤ own.length) :
    min w₀.record.low w₀.main.top ≤ min w.record.low (w.main.top - n) := by
  have low := above.low
  have height : w.main.top = own.length + w₀.main.top := by
    simp only [LuaState.top, above.slots, List.length_append]
  omega

theorem trans (above : Above w₀ own w) (later : Above w own' w') : Above w₀ (own' ++ own) w' where
  slots := by rw [later.slots, above.slots, List.append_assoc]
  func := later.func.trans above.func
  ciTop := later.ciTop.trans above.ciTop
  low := (above.base_le 0 (Nat.zero_le _)).trans later.low
  sound := later.sound

theorem thenRisen (above : Above w₀ own w) (later : Risen w w') : Risen w₀ w' where
  slots := by
    obtain ⟨own', slots⟩ := later.slots
    exact ⟨own' ++ own, by rw [slots, above.slots, List.append_assoc]⟩
  low := (above.base_le 0 (Nat.zero_le _)).trans later.low
  sound := later.sound

theorem thenLeaves (above : Above w₀ own w) {f : Fault} (later : Leaves w f w') :
    Leaves w₀ f w' := by
  cases f with
  | exception e =>
    obtain ⟨own', later⟩ := later
    exact ⟨own' ++ own, above.trans later⟩
  | luaError L e =>
    cases L with
    | main => exact above.thenRisen later
    | coroutine id => trivial
  | _ => trivial

theorem withHeap (above : Above w₀ own w) (heap : Heap) : Above w₀ own (w.withHeap heap) :=
  ⟨above.slots, above.func, above.ciTop, above.low, above.sound⟩

theorem register (above : Above w₀ own w) (callbacks : List Callback) :
    Above w₀ own (w.register callbacks) :=
  ⟨above.slots, above.func, above.ciTop, above.low, above.sound⟩

theorem addStep (above : Above w₀ own w) (s : Step) : Above w₀ own (w.addStep s) :=
  ⟨above.slots, above.func, above.ciTop, above.low, above.sound⟩

theorem fail (above : Above w₀ own w) (v : Violation) : Above w₀ own (w.fail v) :=
  ⟨above.slots, above.func, above.ciTop, above.low, above.sound⟩

theorem check (above : Above w₀ own w) (c : Prop) [Decidable c] (v : Violation) :
    Above w₀ own (w.check c v) := by
  by_cases h : c
  · rwa [World.check, if_pos h]
  · rw [World.check, if_neg h]
    exact above.fail v

/- The slots a function of its own stores in the frame. -/
theorem stored (above : Above w₀ own w) (own' : List Value) :
    Above w₀ own' (w.setThread { w.main with slots := own' ++ w₀.main.slots } .main) where
  slots := rfl
  func := above.func
  ciTop := above.ciTop
  low := by
    have low := above.low
    show _ ≤ min w.record.low (own' ++ w₀.main.slots).length
    simp only [LuaState.top, List.length_append] at low ⊢
    omega
  sound := above.sound

theorem pushed (above : Above w₀ own w) (v : Value) : Above w₀ (v :: own) (w.pushed v) := by
  have slots : v :: w.main.slots = (v :: own) ++ w₀.main.slots := by
    rw [above.slots, List.cons_append]
  rw [World.pushed, slots]
  exact (above.stored (v :: own)).check _ _

/- The end of a function that lowers the stack by less than its own slots. -/
theorem settled (above : Above w₀ own w) {α : Type} {x : Wrapper α}
    {a : Except JavaException α} {slots : List Value} {r : Record} {n : Nat}
    (run : x w = (w.withMain slots r).settle a) (lowers : Lowers n x) (few : n ≤ own.length)
    (mine : slots = own' ++ w₀.main.slots) : Above w₀ own' (w.withMain slots r) where
  slots := mine
  func := above.func
  ciTop := above.ciTop
  low := by
    have ended : Machine.endOf x w = w.withMain slots r := by
      rw [Machine.endOf, run]
      cases a <;> rfl
    have low := (lowers w).low
    rw [ended] at low
    exact (above.base_le n few).trans low
  sound := above.sound

end Above

/-- x in w does what d does, and the slots below its own are not touched. -/
def Implements {α β : Type} (undefined : Fault → Prop) (w₀ : World) (x : Wrapper α) (d : Direct β)
    (w : World) (Q : α → β → List Value → Prop) : Prop :=
  Simulates undefined x d w w.store
    (fun a w' b s => w'.store = s ∧ ∃ own, Above w₀ own w' ∧ Q a b own)
    (fun f w' g s => f = g ∧ w'.store = s ∧ Leaves w₀ f w')

namespace Implements

variable {undefined : Fault → Prop} {w₀ u w w' : World} {α β α' β' : Type} {own : List Value}
  {x : Wrapper α} {d : Direct β}

theorem ends {Q : α → β → List Value → Prop} {a : α} {b : β} (above : Above w₀ own w)
    (post : Q a b own) : Implements undefined w₀ (pure a) (pure b) w Q :=
  .pure ⟨rfl, own, above, post⟩

theorem raises {Q : α → β → List Value → Prop} {f : Fault} (leaves : Leaves w₀ f w) :
    Implements undefined w₀ (throw f) (throw f) w Q :=
  .throws ⟨rfl, rfl, leaves⟩

theorem mono {Q R : α → β → List Value → Prop} (implements : Implements undefined w₀ x d w Q)
    (post : ∀ a b own, Q a b own → R a b own) : Implements undefined w₀ x d w R := by
  refine Simulates.mono implements ?_ fun _ _ _ _ h => h
  rintro a w' b s ⟨store, own, above, holds⟩
  exact ⟨store, own, above, post a b own holds⟩

theorem bind {f : α → Wrapper α'} {g : β → Direct β'} {Q : α → β → List Value → Prop}
    {R : α' → β' → List Value → Prop} (first : Implements undefined w₀ x d w Q)
    (rest : ∀ a b own w', Above w₀ own w' → Q a b own →
      Implements undefined w₀ (f a) (g b) w' R) :
    Implements undefined w₀ (x >>= f) (d >>= g) w R := by
  refine Simulates.bind (Simulates.mono first ?_ fun _ _ _ _ h => h)
  rintro a w' b s ⟨rfl, own, above, post⟩
  exact rest a b own w' above post

theorem map {f : α → α'} {g : β → β'} {R : α' → β' → List Value → Prop}
    (first : Implements undefined w₀ x d w fun a b own => R (f a) (g b) own) :
    Implements undefined w₀ (f <$> x) (g <$> d) w R :=
  bind first fun _ _ _ _ above post => ends above post

/- A step that leaves the store alone. -/
theorem step {f : α → Wrapper α'} {a : α} {Q : α' → β → List Value → Prop}
    (run : x w = .ok a w') (same : w'.store = w.store)
    (rest : Implements undefined w₀ (f a) d w' Q) : Implements undefined w₀ (x >>= f) d w Q := by
  unfold Implements at rest
  rw [same] at rest
  exact Simulates.step run rest

theorem spec_step {g : β → Direct β'} {b : β} {Q : α → β' → List Value → Prop}
    (run : d w.store = .ok b w.store) (rest : Implements undefined w₀ x (g b) w Q) :
    Implements undefined w₀ x (d >>= g) w Q :=
  Simulates.spec_step run rest

/- A computation whose end is known. -/
theorem settles {Q : α → α → List Value → Prop} {a : Except JavaException α}
    (run : x w = w'.settle a) (same : w'.store = w.store) (above : Above w₀ own w')
    (post : ∀ b, a = .ok b → Q b b own) : Implements undefined w₀ x (Direct.settle a) w Q := by
  cases a with
  | ok b => exact .ok b b w' w.store run rfl ⟨same, own, above, post b rfl⟩
  | error e => exact .error _ _ w' w.store run rfl ⟨rfl, same, own, above⟩

theorem faults {Q : α → β → List Value → Prop} {f : Fault} (run : x w = .error f w')
    (spec : d w.store = .error f w.store) (same : w'.store = w.store) (leaves : Leaves w₀ f w') :
    Implements undefined w₀ x d w Q :=
  .error f f w' w.store run spec ⟨rfl, same, leaves⟩

/- A computation counted from a higher base. -/
theorem rebase {Q : α → β → List Value → Prop} (above : Above w₀ own u)
    (implements : Implements undefined u x d w Q) :
    Implements undefined w₀ x d w fun a b own' => ∃ more, own' = more ++ own ∧ Q a b more := by
  refine Simulates.mono implements ?_ ?_
  · rintro a w' b s ⟨store, more, later, post⟩
    exact ⟨store, more ++ own, above.trans later, more, rfl, post⟩
  · rintro f w' g s ⟨same, store, leaves⟩
    exact ⟨same, store, above.thenLeaves leaves⟩

end Implements

end Luava
