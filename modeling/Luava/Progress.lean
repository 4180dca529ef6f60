import Luava.InterpreterLaws

/-
What every part of a run keeps: the steps taken so far, the slots below the current ones, and,
as long as the steps meet their conditions, the absence of certain failed checks.
-/
namespace Luava

open Effects LuaApi

namespace Violation

/- The stack-space preconditions. -/
def isSpace : Violation → Bool
  | stackOverflow | resultsOverflow | numberOfResults => true
  | _ => false

/- The uses of the state or of a stub after its end. -/
def isLifecycle : Violation → Bool
  | afterClose | deadStub => true
  | _ => false

end Violation

/- The objects pushObject takes. -/
def Object.isPushable : Object → Bool
  | .other .. => false
  | _ => true

namespace LuaFunction

/- The arguments that are pushed before the first one pushObject refuses. -/
def pushed (f : LuaFunction) : List Object := f.argumentValues.takeWhile Object.isPushable

def allPushable (f : LuaFunction) : Bool := f.argumentValues.all Object.isPushable

theorem images_length (stub : Nat) (os : List Object) :
    (imagesOf stub os).values.length = (os.takeWhile Object.isPushable).length := by
  induction os generalizing stub with
  | nil => rfl
  | cons o os ih =>
    cases o with
    | other className text => rfl
    | _ => exact congrArg (· + 1) (ih _)

theorem images_outcome (stub : Nat) (os : List Object) :
    (imagesOf stub os).outcome = .ok ⟨⟩ ↔ os.all Object.isPushable = true := by
  induction os generalizing stub with
  | nil => exact ⟨fun _ => rfl, fun _ => rfl⟩
  | cons o os ih =>
    cases o with
    | other className text => simp [imagesOf, LuaStack.imageOf, Object.isPushable]
    | _ => exact ih _

end LuaFunction

namespace Step

/- A step keeps its promise of results: no call asks for more than MAXRESULTS of them. -/
def Bounded : Step → Prop
  | .operation (.call f) .. => f.allPushable = true → f.resultTypes.length ≤ MAXRESULTS
  | _ => True

/- The slots an assignment to a global needs above its value. -/
def keySlots (insertkey : Heap → TableId → Value → Bool) (heap : Heap) (name : String) : Nat :=
  match heap.fastset insertkey (.table heap.globals) (keyOf name) with
  | some _ => 0
  | none => 1

/- The step finds the free slots it needs. -/
def Fits (insertkey : Heap → TableId → Value → Bool) : Step → Prop
  | .operation o before heap _ _ =>
    match o with
    | .setGlobalString name _ | .setGlobalInteger name _ | .setGlobalNumber name _
    | .setGlobalBoolean name _ | .setGlobalFunction name _ =>
      1 + keySlots insertkey heap name ≤ before.free
    | .call f =>
      1 + f.pushed.length ≤ before.free ∧ (f.allPushable = true →
        1 + f.resultTypes.length ≤ before.free ∧ f.resultTypes.length ≤ MAXRESULTS)
    | .close => True
    | _ => 1 ≤ before.free
  | .result o before => o.isPushable = true → 1 ≤ before.free

/-- The state is closed once, and not by a method that Lua called; and no operation that calls
   a native function before it allocates memory comes after. -/
def Orderly : Step → Prop
  | .operation o _ _ status calls =>
    match o with
    | .close => status = .opened ∧ calls = 0
    | .setGlobalInteger .. | .setGlobalNumber .. | .setGlobalBoolean .. => status ≠ .closed
    | _ => True
  | .result .. => True

instance (insertkey : Heap → TableId → Value → Bool) :
    (s : Step) → Decidable (s.Fits insertkey)
  | .operation o _ _ _ _ =>
    match o with
    | .setGlobalString .. | .setGlobalInteger .. | .setGlobalNumber .. | .setGlobalBoolean ..
    | .setGlobalFunction .. => inferInstanceAs (Decidable (_ ≤ _))
    | .call _ => inferInstanceAs (Decidable (_ ∧ (_ → _ ∧ _)))
    | .close => .isTrue trivial
    | .exec _ | .getGlobalString _ | .getGlobalInteger _ | .getGlobalNumber _
    | .getGlobalBoolean _ | .getGlobalTable _ | .getString .. | .getInteger .. | .getNumber ..
    | .getBoolean .. => inferInstanceAs (Decidable (_ ≤ _))
  | .result .. => inferInstanceAs (Decidable (_ → _))

instance : (s : Step) → Decidable s.Orderly
  | .operation o _ _ _ _ =>
    match o with
    | .close => inferInstanceAs (Decidable (_ ∧ _))
    | .setGlobalInteger .. | .setGlobalNumber .. | .setGlobalBoolean .. =>
      inferInstanceAs (Decidable (_ ≠ _))
    | .exec _ | .getGlobalString _ | .getGlobalInteger _ | .getGlobalNumber _
    | .getGlobalBoolean _ | .getGlobalTable _ | .setGlobalString .. | .setGlobalFunction ..
    | .call _ | .getString .. | .getInteger .. | .getNumber .. | .getBoolean .. => .isTrue trivial
  | .result .. => .isTrue trivial

theorem bounded_of_fits {insertkey : Heap → TableId → Value → Bool} {s : Step}
    (fits : s.Fits insertkey) : s.Bounded := by
  cases s with
  | result o before => trivial
  | operation o before heap status calls =>
    cases o with
    | call f => exact fun all => (fits.2 all).2
    | _ => trivial

end Step

namespace World

def AllFit (insertkey : Heap → TableId → Value → Bool) (w : World) : Prop :=
  ∀ s ∈ w.record.steps, s.Fits insertkey

def AllBounded (w : World) : Prop := ∀ s ∈ w.record.steps, s.Bounded

def AllOrderly (w : World) : Prop := ∀ s ∈ w.record.steps, s.Orderly

/- The arena and the state are closed together. -/
def Sound (w : World) : Prop := w.status = .closed ↔ w.arenaOpen = false

/- Lua code runs only in a state that is not closed. -/
def Guarded (inLua : Prop) (w : World) : Prop := inLua ∨ 0 < w.calls → w.status ≠ .closed

theorem Sound.alive {w : World} (sound : w.Sound) (opened : w.status ≠ .closed) : w.Alive :=
  ⟨opened, by cases h : w.arenaOpen <;> simp_all [Sound]⟩

end World

/- t has n slots above those of s, which reads may have rewritten. -/
def Over (n : Nat) (s t : List Value) : Prop := n ≤ t.length ∧ Retyped s (t.drop n)

namespace Over

variable {n m : Nat} {s t u : List Value}

theorem refl (s : List Value) : Over 0 s s := ⟨Nat.zero_le _, .refl s⟩

theorem length_eq (kept : Over n s t) : t.length = n + s.length := by
  have := kept.2.length_eq
  rw [List.length_drop] at this
  have := kept.1
  omega

theorem trans (first : Over n s t) (second : Over m t u) : Over (m + n) s u := by
  refine ⟨by have := first.1; have := second.length_eq; omega, ?_⟩
  rw [← List.drop_drop]
  exact first.2.trans (List.forall₂_drop n second.2)

theorem append (l : List Value) (kept : Over n s t) : Over (l.length + n) s (l ++ t) :=
  ⟨by rw [List.length_append]; exact Nat.add_le_add_left kept.1 _,
    by rw [← List.drop_drop, List.drop_left]; exact kept.2⟩

theorem cons (v : Value) (kept : Over n s t) : Over (n + 1) s (v :: t) :=
  ⟨Nat.succ_le_succ kept.1, kept.2⟩

theorem drop (kept : Over (n + m) s t) : Over n s (t.drop m) :=
  ⟨by rw [List.length_drop]; have := kept.1; omega,
    by rw [List.drop_drop, Nat.add_comm]; exact kept.2⟩

theorem tail {v : Value} (kept : Over (n + 1) s (v :: t)) : Over n s t := kept.drop

theorem retyped (kept : Over n s t) (change : Retyped t u) : Over n s u :=
  ⟨change.length_eq ▸ kept.1, kept.2.trans (List.forall₂_drop n change)⟩

/- The frame a jump goes back to. -/
theorem bottom (kept : Over n s t) : World.bottom s.length t = t.drop n := by
  rw [World.bottom, kept.length_eq, Nat.add_sub_cancel]

end Over

section

variable (insertkey : Heap → TableId → Value → Bool) (inLua : Prop)

/-- What holds between a world and every later one. -/
structure Notes (w w' : World) : Prop where
  steps : w.record.steps <:+ w'.record.steps
  space : w'.AllFit insertkey → ∀ v ∈ w'.record.failed, v.isSpace = true → v ∈ w.record.failed
  lifecycle : w'.AllOrderly → w.Guarded inLua →
    ∀ v ∈ w'.record.failed, v.isLifecycle = true → v ∈ w.record.failed

/-- What holds when a Lua error leaves a frame of the main thread. -/
structure Raised (w w' : World) : Prop extends Notes insertkey inLua w w' where
  sound : w.Sound → w'.Sound
  guarded : w'.AllOrderly → w.Guarded inLua → w'.Guarded inLua
  calls : w.calls ≤ w'.calls
  slots : w'.AllBounded → ∃ n, Over n w.main.slots w'.main.slots

/-- What holds of a computation that ends in the frame it started in, n slots higher. -/
structure Stage (n : Nat) (w w' : World) : Prop extends Notes insertkey inLua w w' where
  sound : w.Sound → w'.Sound
  guarded : w'.AllOrderly → w.Guarded inLua → w'.Guarded inLua
  calls : w'.calls = w.calls
  slots : w'.AllBounded → Over n w.main.slots w'.main.slots
  func : w'.main.func = w.main.func
  ciTop : w'.main.ciTop = w.main.ciTop

/-- What holds of Lua code on thread L that ends in a fault. An error on a coroutine leaves the
   frame of the main thread alone. -/
def LuaEscapes (L : ThreadId) (w : World) : Fault → World → Prop
  | .luaError .main _, w' => Raised insertkey inLua w w'
  | .luaError (.coroutine id) _, w' => L = .coroutine id ∧ ∃ n, Stage insertkey inLua n w w'
  | .exception _, _ => False
  | .jvmTerminated, w' | .undefined, w' => Notes insertkey inLua w w'

/- What holds of Java code that ends in a fault. -/
def Escapes (w : World) : Fault → World → Prop
  | .exception _, w' => ∃ n, Stage insertkey inLua n w w'
  | f, w' => LuaEscapes insertkey inLua .main w f w'

end

theorem all_of_suffix {p : Step → Prop} {w w' : World}
    (steps : w.record.steps <:+ w'.record.steps) (all : ∀ s ∈ w'.record.steps, p s) :
    ∀ s ∈ w.record.steps, p s := fun s member => all s (steps.subset member)

variable {insertkey : Heap → TableId → Value → Bool} {inLua : Prop} {n m : Nat}
  {w w₀ w₁ w₂ : World}

namespace Stage

theorem refl (w : World) : Stage insertkey inLua 0 w w where
  steps := List.suffix_refl _
  space := fun _ _ h _ => h
  lifecycle := fun _ _ _ h _ => h
  sound := id
  guarded := fun _ h => h
  calls := rfl
  slots := fun _ => .refl _
  func := rfl
  ciTop := rfl

theorem raised (stage : Stage insertkey inLua n w w₁) : Raised insertkey inLua w w₁ :=
  { stage with calls := stage.calls.ge, slots := fun all => ⟨n, stage.slots all⟩ }

theorem notes (stage : Stage insertkey inLua n w w₁) (later : Notes insertkey inLua w₁ w₂) :
    Notes insertkey inLua w w₂ where
  steps := stage.steps.trans later.steps
  space all v member space :=
    stage.space (all_of_suffix later.steps all) v (later.space all v member space) space
  lifecycle all guarded v member kind :=
    have earlier := all_of_suffix later.steps all
    stage.lifecycle earlier guarded v
      (later.lifecycle all (stage.guarded earlier guarded) v member kind) kind

theorem thenRaised (stage : Stage insertkey inLua n w w₁) (later : Raised insertkey inLua w₁ w₂) :
    Raised insertkey inLua w w₂ :=
  { stage.notes later.toNotes with
    sound := later.sound ∘ stage.sound
    guarded := fun all guarded =>
      later.guarded all (stage.guarded (all_of_suffix later.steps all) guarded)
    calls := stage.calls ▸ later.calls
    slots := fun all =>
      have ⟨m, kept⟩ := later.slots all
      ⟨m + n, (stage.slots (all_of_suffix later.steps all)).trans kept⟩ }

theorem trans (stage : Stage insertkey inLua n w w₁) (later : Stage insertkey inLua m w₁ w₂) :
    Stage insertkey inLua (m + n) w w₂ :=
  { stage.notes later.toNotes with
    sound := later.sound ∘ stage.sound
    guarded := fun all guarded =>
      later.guarded all (stage.guarded (all_of_suffix later.steps all) guarded)
    calls := later.calls.trans stage.calls
    slots := fun all => (stage.slots (all_of_suffix later.steps all)).trans (later.slots all)
    func := later.func.trans stage.func
    ciTop := later.ciTop.trans stage.ciTop }

theorem luaEscapes (stage : Stage insertkey inLua n w w₁) {L : ThreadId} {f : Fault}
    (later : LuaEscapes insertkey inLua L w₁ f w₂) : LuaEscapes insertkey inLua L w f w₂ := by
  cases f with
  | luaError L' e =>
    cases L' with
    | main => exact stage.thenRaised later
    | coroutine id => exact ⟨later.1, later.2.imp' (· + n) fun _ => stage.trans⟩
  | exception e => exact later
  | jvmTerminated => exact stage.notes later
  | undefined => exact stage.notes later

theorem escapes (stage : Stage insertkey inLua n w w₁) {f : Fault}
    (later : Escapes insertkey inLua w₁ f w₂) : Escapes insertkey inLua w f w₂ := by
  cases f with
  | exception e => exact later.imp' (· + n) fun _ => stage.trans
  | luaError L e => exact stage.luaEscapes (f := .luaError L e) later
  | jvmTerminated => exact stage.notes later
  | undefined => exact stage.notes later

end Stage

/-- The failed checks that do not break a note: the others, and those of the stack space when a
   step so far does not fit. -/
def Tolerated (insertkey : Heap → TableId → Value → Bool) (w : World) (v : Violation) : Prop :=
  v.isLifecycle = false ∧ (v.isSpace = true → ¬ w.AllFit insertkey)

theorem tolerated_of_room {v : Violation} {c : Prop} (kind : v.isLifecycle = false)
    (room : w.AllFit insertkey → c) : c ∨ Tolerated insertkey w v := by
  by_cases fits : w.AllFit insertkey
  · exact .inl (room fits)
  · exact .inr ⟨kind, fun _ => fits⟩

theorem tolerated_frame {v : Violation} (kind : v.isLifecycle = false) (space : v.isSpace = false) :
    Tolerated insertkey w v := ⟨kind, by simp [space]⟩

theorem notes_of_gains {r : Record} (gains : w.record.Gains (Tolerated insertkey w) r)
    {w' : World} (record : w'.record = r) : Notes insertkey inLua w w' where
  steps := by
    have same : w'.record.steps = w.record.steps := by rw [record, gains.steps]
    exact same ▸ List.suffix_refl _
  space all v member space := by
    refine gains.mem_of_failed (record ▸ member) fun tolerated => tolerated.2 space ?_
    rw [World.AllFit, record, gains.steps] at all
    exact all
  lifecycle _ _ v member kind := by
    refine gains.mem_of_failed (record ▸ member) fun tolerated => ?_
    rw [tolerated.1] at kind
    contradiction

namespace Stage

variable {slots : List Value} {r : Record}

theorem moved_bounded (stage : Stage insertkey inLua n w₀ w)
    (gains : w.record.Gains (Tolerated insertkey w) r)
    (kept : w.AllBounded → Over n w₀.main.slots w.main.slots → Over m w₀.main.slots slots) :
    Stage insertkey inLua m w₀ (w.withMain slots r) :=
  have earlier {p : Step → Prop} (all : ∀ s ∈ r.steps, p s) : ∀ s ∈ w.record.steps, p s :=
    fun s member => all s (gains.steps.symm ▸ member)
  { stage.notes (notes_of_gains gains rfl) with
    sound := stage.sound
    guarded := fun all => stage.guarded (earlier all)
    calls := stage.calls
    slots := fun all => kept (earlier all) (stage.slots (earlier all))
    func := stage.func
    ciTop := stage.ciTop }

theorem moved (stage : Stage insertkey inLua n w₀ w)
    (gains : w.record.Gains (Tolerated insertkey w) r)
    (kept : Over n w₀.main.slots w.main.slots → Over m w₀.main.slots slots) :
    Stage insertkey inLua m w₀ (w.withMain slots r) :=
  stage.moved_bounded gains fun _ => kept

/- The heap and the callbacks may change at will. -/
theorem withHeap (stage : Stage insertkey inLua n w₀ w) (heap : Heap) :
    Stage insertkey inLua n w₀ (w.withHeap heap) :=
  { steps := stage.steps, space := stage.space, lifecycle := stage.lifecycle
    sound := stage.sound, guarded := stage.guarded, calls := stage.calls, slots := stage.slots
    func := stage.func, ciTop := stage.ciTop }

theorem register (stage : Stage insertkey inLua n w₀ w) (callbacks : List Callback) :
    Stage insertkey inLua n w₀ (w.register callbacks) :=
  { steps := stage.steps, space := stage.space, lifecycle := stage.lifecycle
    sound := stage.sound, guarded := stage.guarded, calls := stage.calls, slots := stage.slots
    func := stage.func, ciTop := stage.ciTop }

/- Lua code that runs in an open state is part of any computation. -/
theorem ofLua (stage : Stage insertkey True n w w₁) (opened : w.status ≠ .closed) :
    Stage insertkey inLua n w w₁ :=
  { stage with
    lifecycle := fun all _ => stage.lifecycle all fun _ => opened
    guarded := fun all _ _ => stage.guarded all (fun _ => opened) (.inl trivial) }

end Stage

theorem Notes.ofLua (notes : Notes insertkey True w w₁) (opened : w.status ≠ .closed) :
    Notes insertkey inLua w w₁ :=
  { notes with lifecycle := fun all _ => notes.lifecycle all fun _ => opened }

theorem Raised.ofLua (raised : Raised insertkey True w w₁) (opened : w.status ≠ .closed) :
    Raised insertkey inLua w w₁ :=
  { raised with
    lifecycle := fun all _ => raised.lifecycle all fun _ => opened
    guarded := fun all _ _ => raised.guarded all (fun _ => opened) (.inl trivial) }

theorem escapes_of_lua {f : Fault} (escapes : LuaEscapes insertkey True .main w f w₁)
    (opened : w.status ≠ .closed) : Escapes insertkey inLua w f w₁ := by
  cases f with
  | luaError L e =>
    cases L with
    | main => exact Raised.ofLua escapes opened
    | coroutine id => exact absurd escapes.1 (by simp)
  | exception e => exact escapes.elim
  | jvmTerminated => exact Notes.ofLua escapes opened
  | undefined => exact Notes.ofLua escapes opened

/-- What Lua code run by a native function keeps. -/
structure VM.Lawful (insertkey : Heap → TableId → Value → Bool) (vm : VM) : Prop where
  inserts : vm.insertkey = insertkey
  call : ∀ f args w, w.Sound → Ensures (vm.call .main f args) w
    (fun _ w' => Stage insertkey True 0 w w') (LuaEscapes insertkey True .main w)
  finalize : ∀ w, w.Sound → Ensures vm.finalize w (fun _ w' => Stage insertkey True 0 w w')
    (fun f w' => (f = .jvmTerminated ∨ f = .undefined) ∧ Notes insertkey True w w')

end Luava
