import Luava.InterpreterLaws

/-
Functions that run no Lua code lower the main stack by a known number of slots at most, at
their end and at any moment before; and they take no failed check back.
-/
namespace Luava

open Effects LuaApi Machine

/-- w' is the end of a computation in w that lowers the stack by n slots at most. -/
structure World.Lowers (n : Nat) (w w' : World) : Prop where
  failed : w.record.failed <:+ w'.record.failed
  top : w.main.top - n ≤ w'.main.top
  low : min w.record.low (w.main.top - n) ≤ w'.record.low

namespace World.Lowers

variable {n m : Nat} {w w₁ w₂ : World}

theorem refl (w : World) : w.Lowers 0 w :=
  ⟨List.suffix_refl _, Nat.sub_le _ _, Nat.min_le_left _ _⟩

theorem trans (first : w.Lowers n w₁) (second : w₁.Lowers m w₂) : w.Lowers (n + m) w₂ where
  failed := first.failed.trans second.failed
  top := by
    have := first.top
    have := second.top
    omega
  low := by
    have := first.top
    have := first.low
    have := second.low
    omega

theorem mono (lowers : w.Lowers n w₁) (more : n ≤ m) : w.Lowers m w₁ where
  failed := lowers.failed
  top := by
    have := lowers.top
    omega
  low := by
    have := lowers.low
    omega

theorem fail (w : World) (v : Violation) : w.Lowers 0 (w.fail v) :=
  ⟨List.suffix_cons _ _, Nat.sub_le _ _, Nat.min_le_left _ _⟩

theorem check (w : World) (c : Prop) [Decidable c] (v : Violation) :
    w.Lowers 0 (w.check c v) := by
  by_cases h : c
  · rw [World.check, if_pos h]
    exact refl w
  · rw [World.check, if_neg h]
    exact fail w v

theorem setThread (w : World) (s : LuaState) (high : w.main.top - n ≤ s.top) :
    w.Lowers n (w.setThread s .main) where
  failed := List.suffix_refl _
  top := high
  low := by
    show _ ≤ min w.record.low s.top
    omega

end World.Lowers

/- x lowers the stack by n slots at most, whatever its end. -/
def Lowers {α : Type} (n : Nat) (x : Wrapper α) : Prop := ∀ w : World, w.Lowers n (endOf x w)

namespace Lowers

variable {α β : Type} {n m : Nat}

theorem pure (a : α) : Lowers 0 (pure a : Wrapper α) := fun w => .refl w

theorem throws (f : Fault) : Lowers 0 (throw f : Wrapper α) := fun w => .refl w

theorem get : Lowers 0 (MonadState.get : Wrapper World) := fun w => .refl w

theorem modify (f : World → World) (kept : ∀ w : World, w.Lowers n (f w)) :
    Lowers n (modify f : Wrapper Unit) := kept

theorem mono {x : Wrapper α} (lowers : Lowers n x) (more : n ≤ m) : Lowers m x :=
  fun w => (lowers w).mono more

theorem seq {x : Wrapper α} {f : α → Wrapper β} (first : Lowers n x)
    (rest : ∀ a, Lowers m (f a)) : Lowers (n + m) (x >>= f) := by
  intro w
  have early := first w
  unfold endOf at early ⊢
  rw [run_bind]
  cases run : x w with
  | error g w' =>
    simp only [run] at early
    exact early.mono (Nat.le_add_right n m)
  | ok a w' =>
    simp only [run] at early
    exact early.trans (rest a w')

theorem bind {x : Wrapper α} {f : α → Wrapper β} (first : Lowers 0 x)
    (rest : ∀ a, Lowers n (f a)) : Lowers n (x >>= f) := by
  have both := seq first rest
  rwa [Nat.zero_add] at both

theorem map {x : Wrapper α} (g : α → β) (first : Lowers n x) : Lowers n (g <$> x) :=
  seq first fun a => pure (g a)

/- The rule for a function that starts by reading its thread. -/
theorem thread {f : LuaState → Wrapper α} (rest : ∀ w : World, w.Lowers n (endOf (f w.main) w)) :
    Lowers n (getThread .main >>= f) := rest

end Lowers

section

variable (vm : VM) (idx : Int)

theorem lowers_throwJava {α : Type} (e : JavaException) : Lowers 0 (throwJava e : Wrapper α) :=
  .throws _

theorem lowers_allocate : Lowers 0 Arena.allocate :=
  Lowers.get.bind fun w => by
    split
    · exact lowers_throwJava _
    · exact .pure _

theorem lowers_check (c : Prop) [Decidable c] (v : Violation) : Lowers 0 (apiCheck c v) :=
  .modify _ fun w => .check w c v

theorem lowers_enter : Lowers 0 enter :=
  Lowers.get.bind fun w => by
    split
    · exact .bind (.modify _ fun w => .fail w _) fun _ => .throws _
    · exact .pure _

theorem lowers_getThread (L : ThreadId) : Lowers 0 (getThread L) := fun w => .refl w

theorem lowers_index2stack : Lowers 0 (index2stack .main idx) := by
  refine (lowers_getThread .main).bind fun s => ?_
  split
  · exact (lowers_check _ _).bind fun _ => .pure _
  · refine (lowers_check _ _).bind fun _ => ?_
    split
    · exact .pure _
    · exact .throws _

theorem lowers_index2value : Lowers 0 (index2value .main idx) := by
  refine (lowers_index2stack idx).bind fun position => ?_
  cases position with
  | none => exact .pure _
  | some i => exact (lowers_getThread .main).bind fun s => .pure _

theorem lowers_luaType : Lowers 0 (luaType .main idx) :=
  lowers_enter.bind fun _ => (lowers_index2value idx).bind fun v => by
    cases v <;> exact .pure _

theorem lowers_luaIsstring : Lowers 0 (luaIsstring .main idx) :=
  lowers_enter.bind fun _ => (lowers_index2value idx).bind fun v => by
    cases v <;> exact .pure _

theorem lowers_luaToboolean : Lowers 0 (luaToboolean .main idx) :=
  lowers_enter.bind fun _ => (lowers_index2value idx).bind fun v => by
    cases v <;> exact .pure _

theorem lowers_luaTonumberx : Lowers 0 (luaTonumberx vm .main idx) :=
  lowers_enter.bind fun _ => (lowers_index2value idx).bind fun v => by
    cases v <;> exact .pure _

theorem lowers_luaTointegerx : Lowers 0 (luaTointegerx vm .main idx) :=
  lowers_enter.bind fun _ => (lowers_index2value idx).bind fun v => by
    cases v <;> exact .pure _

theorem lowers_luaTolstring : Lowers 0 (luaTolstring vm .main idx) := by
  refine lowers_enter.bind fun _ => (lowers_index2stack idx).bind fun position => ?_
  cases position with
  | none => exact .pure _
  | some i =>
    refine .thread fun w => ?_
    split
    · exact .refl w
    · split
      · exact .setThread w _ (by simp [LuaState.top])
      · exact .refl w
    · exact .refl w

theorem lowers_getType : Lowers 0 (LuaStack.getType .main idx) :=
  (lowers_luaType idx).bind fun type => by
    split
    · exact .pure _
    · exact lowers_throwJava _

theorem lowers_string_read : Lowers 0 (do
    Arena.allocate
    match ← luaTolstring vm .main idx with
    | some bytes => return String.ofList (Utf8.decode (LuaStack.stripZero bytes))
    | none => throw .undefined : Wrapper String) :=
  lowers_allocate.bind fun _ => (lowers_luaTolstring vm idx).bind fun bytes => by
    cases bytes
    · exact .throws _
    · exact .pure _

theorem lowers_toString : Lowers 0 (LuaStack.toString vm .main idx) := by
  refine (lowers_luaIsstring idx).bind fun string => ?_
  split
  · exact (lowers_getType idx).bind fun type => (lowers_throwJava _).bind fun _ =>
      lowers_string_read vm idx
  · exact lowers_string_read vm idx

theorem lowers_toNumber : Lowers 0 (LuaStack.toNumber vm .main idx) :=
  lowers_allocate.bind fun _ => (lowers_luaTonumberx vm idx).bind fun value => by
    cases value
    · exact (lowers_getType idx).bind fun _ => lowers_throwJava _
    · exact .pure _

theorem lowers_toInteger : Lowers 0 (LuaStack.toInteger vm .main idx) :=
  lowers_allocate.bind fun _ => (lowers_luaTointegerx vm idx).bind fun value => by
    cases value
    · exact (lowers_getType idx).bind fun _ => lowers_throwJava _
    · exact .pure _

/- The conversion of a slot after its type was read. -/
def convert (vm : VM) (idx : Int) (expectedType : JavaClass) (type : LuaType) : Wrapper Object := do
  if type = .nil then return .null
  if expectedType = .boolean then return .boolean (← LuaStack.toBoolean .main idx)
  if expectedType = .long ∨ expectedType = .primitive .long then
    return .long (← LuaStack.toInteger vm .main idx)
  if expectedType = .double then return .double (← LuaStack.toNumber vm .main idx)
  if expectedType = .string then return .string (← LuaStack.toString vm .main idx)
  throwJava (.unsupportedOperation
    ("Unsupported Lua type " ++ expectedType.text ++ " / " ++ type.name))

theorem to_object_eq (c : JavaClass) :
    LuaStack.toObject vm .main idx c = LuaStack.getType .main idx >>= convert vm idx c := rfl

theorem lowers_convert (c : JavaClass) (type : LuaType) : Lowers 0 (convert vm idx c type) := by
  unfold convert
  split_ifs
  · exact .pure _
  · exact (lowers_luaToboolean idx).bind fun _ => .pure _
  · exact (lowers_toInteger vm idx).bind fun _ => .pure _
  · exact (lowers_toNumber vm idx).bind fun _ => .pure _
  · exact (lowers_toString vm idx).bind fun _ => .pure _
  · exact lowers_throwJava _

theorem lowers_toObject (c : JavaClass) : Lowers 0 (LuaStack.toObject vm .main idx c) := by
  rw [to_object_eq]
  exact (lowers_getType idx).bind (lowers_convert vm idx c)

theorem lowers_toObjects (n i : Nat) (types : List JavaClass) :
    Lowers 0 (LuaStack.toObjects vm .main n i types) := by
  induction types generalizing i with
  | nil => exact .pure _
  | cons type types ih =>
    exact (lowers_toObject vm _ type).bind fun _ => (ih (i + 1)).bind fun _ => .pure _

theorem lowers_format : Lowers 0 (LuaStack.format vm .main idx) := by
  refine (lowers_getType idx).bind fun type => ?_
  have ended {value : Wrapper String} (read : Lowers 0 value) (result : String) : Lowers 0 (do
      let value ← value
      return if value = "" then result else result ++ ": " ++ value) := read.bind fun _ => .pure _
  cases type with
  | string => exact ended (lowers_toString vm idx) _
  | number => exact ended ((lowers_toNumber vm idx).map _) _
  | boolean => exact ended ((lowers_luaToboolean idx).map _) _
  | _ => exact ended (.pure _) _

theorem lowers_printSlots (top : Int) (left i : Nat) (text : String) :
    Lowers 0 (LuaStack.printSlots vm .main top i left text) := by
  induction left generalizing i text with
  | zero => exact .pure _
  | succ left ih => exact (lowers_format vm i).bind fun slot => ih (i + 1) _

theorem lowers_printStack : Lowers 0 (LuaStack.printStack vm .main) :=
  .bind (lowers_enter.bind fun _ => (lowers_getThread .main).bind fun _ => .pure _)
    fun top => lowers_printSlots vm top top.toNat 1 _

theorem lowers_push (v : Value) : Lowers 0 (push .main v) := by
  intro w
  have stored : w.Lowers 0 (w.setThread { w.main with slots := v :: w.main.slots } .main) :=
    .setThread w _ (by simp [LuaState.top])
  exact stored.trans (.check _ _ _)

/- The end of a pop. -/
theorem lowers_pop : Lowers 1 (LuaStack.pop .main) := by
  refine lowers_enter.bind fun _ => .thread fun w => ?_
  have checked := World.Lowers.check w ((-2 : Int).natAbs ≤ w.main.top - w.main.func) .invalidTop
  have stored := checked.trans (.setThread (n := 1) _ { w.main with slots := w.main.slots.drop 1 }
    (by rw [World.main_check]; simp only [LuaState.top, List.length_drop]; exact Nat.le_refl _))
  rwa [Nat.zero_add] at stored

theorem lowers_popping {α : Type} {read : Wrapper α} (reads : Lowers 0 read) :
    Lowers 1 (do let x ← read; LuaStack.pop .main; return x) :=
  reads.bind fun x => lowers_pop.seq fun _ => .pure x

theorem lowers_kind_pop (k : Kind) : Lowers 1 (k.pop vm) := by
  cases k with
  | string => exact (lowers_popping (lowers_toString vm (-1))).seq fun _ => .pure _
  | integer => exact (lowers_popping (lowers_toInteger vm (-1))).seq fun _ => .pure _
  | number => exact (lowers_popping (lowers_toNumber vm (-1))).seq fun _ => .pure _
  | boolean => exact (lowers_popping (lowers_luaToboolean (-1))).seq fun _ => .pure _

theorem lowers_popObjects (types : List JavaClass) :
    Lowers types.length (types.mapM (LuaStack.popObject vm .main)) := by
  induction types with
  | nil =>
    rw [List.mapM_nil]
    exact .pure _
  | cons type types ih =>
    rw [List.mapM_cons, List.length_cons, Nat.add_comm]
    exact (lowers_popping (lowers_toObject vm (-1) type)).seq fun _ =>
      (ih.seq fun _ => .pure _ : Lowers (types.length + 0) _)

theorem lowers_table : Lowers 0 (LowLevelLua.table .main (-1)) := by
  have asserted : Lowers 0 (LowLevelLua.assertType .main (-1) .table) :=
    (lowers_getType (-1)).bind fun type => by
      split
      · exact lowers_throwJava _
      · exact .pure _
  exact asserted.bind fun _ => .pure _

theorem lowers_native_push (v : Value) : Lowers 0 (do enter; push .main v) :=
  lowers_enter.bind fun _ => lowers_push v

theorem lowers_pushString (text : String) : Lowers 0 (LuaStack.pushString .main text) :=
  (lowers_allocate.bind fun _ => .pure _ : Lowers 0 (Arena.allocateFrom text)).bind fun _ =>
    lowers_native_push _

theorem lowers_pushCFunction (fn : Callback) : Lowers 0 (LuaStack.pushCFunction .main fn) :=
  lowers_allocate.bind fun _ => Lowers.get.bind fun _ => Lowers.bind (.modify _ fun _ => {
    failed := List.suffix_refl _
    top := Nat.sub_le _ _
    low := Nat.min_le_left _ _ }) fun _ => lowers_native_push _

theorem lowers_pushObject (o : Object) : Lowers 0 (LuaStack.pushObject .main o) := by
  cases o with
  | string text => exact lowers_pushString text
  | function f => exact lowers_pushCFunction (.function f)
  | other className text => exact lowers_throwJava _
  | _ => exact lowers_native_push _

theorem lowers_setter_push (s : Setter) : Lowers 0 s.push := by
  cases s with
  | string text => exact lowers_pushString text
  | function method => exact lowers_pushCFunction (.method method)
  | _ => exact lowers_native_push _

end

end Luava
