import Luava.CallbackLaws

/-
Values that cross the boundary and come back. A string loses a zero at its end on the way to
Java, and the reader knows fewer classes than the writer.
-/
namespace Luava

open Effects LuaApi Machine

namespace Marshalling

/- What is left of a text when its encoding is read back. -/
def stripNul (text : List Char) : List Char :=
  if text.getLast? = some '\x00' then text.dropLast else text

theorem stripZero_encode (text : List Char) :
    LuaStack.stripZero (Utf8.encode text) = Utf8.encode (stripNul text) := by
  unfold LuaStack.stripZero stripNul
  by_cases nul : text.getLast? = some '\x00'
  · rw [if_pos ((Utf8.last_zero_iff text).mpr nul), if_pos nul]
    obtain ⟨init, rfl⟩ := List.getLast?_eq_some_iff.mp nul
    rw [Utf8.encode_append, List.dropLast_concat, Utf8.encode_cons, Utf8.encode_char_nul,
      Utf8.encode_nil, List.append_nil, List.dropLast_concat]
  · rw [if_neg fun zero => nul ((Utf8.last_zero_iff text).mp zero), if_neg nul]

theorem stripNul_eq_iff (text : List Char) :
    stripNul text = text ↔ text.getLast? ≠ some '\x00' := by
  unfold stripNul
  by_cases nul : text.getLast? = some '\x00'
  · rw [if_pos nul]
    refine iff_of_false ?_ (not_not.mpr nul)
    intro same
    have shorter := congrArg List.length same
    rw [List.length_dropLast] at shorter
    have nonempty : text.length ≠ 0 := by
      intro empty
      rw [List.length_eq_zero_iff.mp empty] at nul
      cases nul
    omega
  · rw [if_neg nul]
    exact iff_of_true rfl nul

/- The text of a Lua string that is valid UTF-8. -/
theorem stringOf_encode (libc : Libc) (idx : Int) (text : List Char) :
    LuaStack.stringOf libc idx (.string (Utf8.encode text)) =
      .ok (String.ofList (stripNul text)) := by
  have string : ((Value.string (Utf8.encode text)).isString ||
      (Value.string (Utf8.encode text)).isNumber) = true := rfl
  rw [LuaStack.stringOf, if_pos string, bytesOf, stripZero_encode, Utf8.decode_encode]

end Marshalling

open Marshalling

/-- pushString of s and then popString return s, and the stack is as before. -/
inductive JavaRoundTrip (vm : VM) (s : String) (w : World) : Prop
  | intro (r : Record)
      (run : (LuaStack.pushString .main s >>= fun _ => LuaStack.popString vm .main) w =
        .ok s (w.withMain w.main.slots r))

/-- popString of the Lua string on top and then pushString put the same bytes there. -/
inductive LuaRoundTrip (vm : VM) (bytes : List UInt8) (below : List Value) (w : World) : Prop
  | intro (r : Record)
      (run : (LuaStack.popString vm .main >>= LuaStack.pushString .main) w =
        .ok ⟨⟩ (w.withMain (.string bytes :: below) r))

theorem run_push_popString (vm : VM) {w : World} (alive : w.Alive) (s : String) :
    ∃ r, (LuaStack.pushString .main s >>= fun _ => LuaStack.popString vm .main) w =
      .ok (String.ofList (stripNul s.toList)) (w.withMain w.main.slots r) := by
  obtain ⟨r, pushed, _⟩ := LuaStack.run_pushString (P := fun _ => True) alive (.inr trivial) s
  obtain ⟨r', popped, _⟩ := LuaStack.run_popString vm (P := fun _ => True)
    ((w.withMain_alive _ r).mpr alive) rfl ⟨trivial, trivial⟩
  rw [stringOf_encode] at popped
  exact ⟨r', (bind_of_ok pushed _).trans popped⟩

theorem java_round_trip_iff (vm : VM) {w : World} (alive : w.Alive) (s : String) :
    JavaRoundTrip vm s w ↔ s.toList.getLast? ≠ some '\x00' := by
  obtain ⟨r, run⟩ := run_push_popString vm alive s
  rw [← stripNul_eq_iff]
  constructor
  · rintro ⟨r', same⟩
    have returned := (EStateM.Result.ok.inj (run.symm.trans same)).1
    rw [← String.toList_ofList (l := stripNul s.toList), returned]
  · intro same
    rw [same, String.ofList_toList] at run
    exact ⟨r, run⟩

theorem lua_round_trip_iff (vm : VM) {w : World} (alive : w.Alive) {bytes : List UInt8}
    {below : List Value} (valid : ∃ text, Utf8.encode text = bytes)
    (top : w.main.slots = .string bytes :: below) :
    LuaRoundTrip vm bytes below w ↔ bytes.getLast? ≠ some 0 := by
  obtain ⟨text, rfl⟩ := valid
  obtain ⟨r, popped, _⟩ := LuaStack.run_popString vm (P := fun _ => True) alive top
    ⟨trivial, trivial⟩
  rw [stringOf_encode] at popped
  obtain ⟨r', pushed, _⟩ := LuaStack.run_pushString (P := fun _ => True)
    ((w.withMain_alive below r).mpr alive) (.inr trivial) (String.ofList (stripNul text))
  rw [String.toList_ofList] at pushed
  have run := (bind_of_ok popped (LuaStack.pushString .main)).trans pushed
  rw [ne_eq, Utf8.last_zero_iff, ← ne_eq, ← stripNul_eq_iff]
  constructor
  · rintro ⟨r'', same⟩
    have ended := (EStateM.Result.ok.inj (run.symm.trans same)).2
    have slots := congrArg (fun w => w.main.slots) ended
    simp only [World.withMain_slots, List.cons.injEq, Value.string.injEq, and_true] at slots
    exact Utf8.encode_injective slots
  · intro same
    rw [same] at run
    exact ⟨r', run⟩

/-- Both directions lose exactly the strings that end with a zero. -/
theorem strings_round_trip_iff (vm : VM) {w : World} (alive : w.Alive) :
    (∀ s, JavaRoundTrip vm s w ↔ s.toList.getLast? ≠ some '\x00') ∧
    ∀ bytes below, (∃ text, Utf8.encode text = bytes) → w.main.slots = .string bytes :: below →
      (LuaRoundTrip vm bytes below w ↔ bytes.getLast? ≠ some 0) :=
  ⟨java_round_trip_iff vm alive, fun _ _ valid top => lua_round_trip_iff vm alive valid top⟩

theorem inner_nul_is_kept :
    JavaRoundTrip (vmAt .blank 0) "a\x00b" (.create .blank) ∧
    LuaRoundTrip (vmAt .blank 0) [97, 0, 98] [.nil]
      ((World.create .blank).withMain [.string [97, 0, 98], .nil] ⟨1, [], []⟩) :=
  ⟨((strings_round_trip_iff (vmAt .blank 0) ⟨by decide, rfl⟩).1 "a\x00b").mpr (by decide),
    ((strings_round_trip_iff (vmAt .blank 0) ⟨by decide, rfl⟩).2 [97, 0, 98] [.nil]
      ⟨"a\x00b".toList, by decide⟩ rfl).mpr (by decide)⟩

theorem trailing_nul_is_lost :
    ¬ JavaRoundTrip (vmAt .blank 0) "a\x00" (.create .blank) := by
  rintro ⟨r, run⟩
  have lost : outcomeOf (LuaStack.pushString .main "a\x00" >>= fun _ =>
      LuaStack.popString (vmAt .blank 0) .main) (.create .blank) = .ok "a" := by decide +kernel
  rw [outcomeOf, run] at lost
  exact absurd (Except.ok.inj lost) (by decide)

/- The classes of a scalar's values: its own and the primitive one. -/
def classesOf : Object → List JavaClass
  | .integer _ => [.integer, .primitive .int]
  | .long _ => [.long, .primitive .long]
  | .float _ => [.float, .primitive .float]
  | .double _ => [.double, .primitive .double]
  | .boolean _ => [.boolean, .primitive .boolean]
  | _ => []

/- The classes the reader knows. -/
def JavaClass.isDecoded : JavaClass → Bool
  | .boolean | .long | .primitive .long | .double | .string => true
  | _ => false

/-- pushObject of o and then popObject with c return o, and the stack is as before. -/
inductive ObjectRoundTrip (vm : VM) (o : Object) (c : JavaClass) (w : World) : Prop
  | intro (r : Record)
      (run : (LuaStack.pushObject .main o >>= fun _ => LuaStack.popObject vm .main c) w =
        .ok o (w.withMain w.main.slots r))

/-- popObject takes c for a class it cannot read. -/
inductive RejectsClass (vm : VM) (c : JavaClass) (w : World) : Prop
  | intro (message : String) (w' : World)
      (run : LuaStack.popObject vm .main c w =
        .error (.exception (.unsupportedOperation message)) w')

theorem map_error_iff {α β : Type} (g : α → β) (x : Except JavaException α) (e : JavaException) :
    g <$> x = .error e ↔ x = .error e := by
  cases x <;> simp [Functor.map, Except.map]

theorem objectOf_undecoded (libc : Libc) {c : JavaClass} {v : Value} (present : v ≠ .nil)
    (unknown : c.isDecoded = false) : LuaStack.objectOf libc (-1) c v =
      .error (.unsupportedOperation
        ("Unsupported Lua type " ++ c.text ++ " / " ++ (LuaType.ofValue v).name)) := by
  cases c with
  | primitive p => cases p <;> simp_all [LuaStack.objectOf, JavaClass.isDecoded]
  | _ => simp_all [LuaStack.objectOf, JavaClass.isDecoded]

theorem objectOf_decoded (libc : Libc) {c : JavaClass} (v : Value) (known : c.isDecoded = true)
    (message : String) :
    LuaStack.objectOf libc (-1) c v ≠ .error (.unsupportedOperation message) := by
  have integer : LuaStack.integerOf libc (-1) v ≠ .error (.unsupportedOperation message) := by
    unfold LuaStack.integerOf
    cases Coercions.tointeger libc v <;> simp
  have number : LuaStack.numberOf libc (-1) v ≠ .error (.unsupportedOperation message) := by
    unfold LuaStack.numberOf
    cases Coercions.tonumber libc v <;> simp
  have string : LuaStack.stringOf libc (-1) v ≠ .error (.unsupportedOperation message) := by
    unfold LuaStack.stringOf
    cases v.isString || v.isNumber <;> simp
  by_cases nil : v = .nil
  · simp [LuaStack.objectOf, nil]
  cases c with
  | boolean => simp [LuaStack.objectOf, nil]
  | long => simpa [LuaStack.objectOf, nil, map_error_iff] using integer
  | double => simpa [LuaStack.objectOf, nil, map_error_iff] using number
  | string => simpa [LuaStack.objectOf, nil, map_error_iff] using string
  | primitive p =>
    cases p with
    | long => simpa [LuaStack.objectOf, nil, map_error_iff] using integer
    | _ => cases known
  | _ => cases known

/- The two outcomes of a round trip: only a class the reader knows brings the object back. -/
theorem object_round_trip_iff (vm : VM) {w : World} (alive : w.Alive) {o : Object} {c : JavaClass}
    (own : c ∈ classesOf o) : ObjectRoundTrip vm o c w ↔ c.isDecoded = true := by
  have round (v : Value) (image : LuaStack.imageOf w.callbacks.length o = .ok v)
      (plain : LuaStack.callbacksOf o = []) :
      ∃ r, (LuaStack.pushObject .main o >>= fun _ => LuaStack.popObject vm .main c) w =
        (w.withMain (LuaStack.remaining (LuaStack.objectOf vm.libc (-1) c v) v w.main.slots)
          r).settle (LuaStack.objectOf vm.libc (-1) c v) := by
    obtain ⟨r, pushed, _⟩ := LuaStack.run_pushObject (P := fun _ => True) alive (.inr trivial) image
    rw [plain, World.register_nil] at pushed
    obtain ⟨r', popped, _⟩ := LuaStack.run_popObject vm (P := fun _ => True)
      ((w.withMain_alive _ r).mpr alive) rfl ⟨trivial, trivial⟩ c
    exact ⟨r', (bind_of_ok pushed _).trans popped⟩
  have refused (v : Value) (image : LuaStack.imageOf w.callbacks.length o = .ok v)
      (plain : LuaStack.callbacksOf o = []) (present : v ≠ .nil) (unknown : c.isDecoded = false) :
      ¬ ObjectRoundTrip vm o c w := by
    rintro ⟨r', same⟩
    obtain ⟨r, run⟩ := round v image plain
    rw [objectOf_undecoded vm.libc present unknown] at run
    cases run.symm.trans same
  have returned (v : Value) (image : LuaStack.imageOf w.callbacks.length o = .ok v)
      (plain : LuaStack.callbacksOf o = []) (same : LuaStack.objectOf vm.libc (-1) c v = .ok o) :
      ObjectRoundTrip vm o c w := by
    obtain ⟨r, run⟩ := round v image plain
    rw [same] at run
    exact ⟨r, run⟩
  cases o with
  | integer i =>
    simp only [classesOf, List.mem_cons, List.not_mem_nil, or_false] at own
    rcases own with rfl | rfl
    · exact iff_of_false (refused (.integer i.toInt64) rfl rfl (by simp) rfl) (by decide)
    · exact iff_of_false (refused (.integer i.toInt64) rfl rfl (by simp) rfl) (by decide)
  | long i =>
    simp only [classesOf, List.mem_cons, List.not_mem_nil, or_false] at own
    rcases own with rfl | rfl
    · exact iff_of_true (returned (.integer i) rfl rfl rfl) rfl
    · exact iff_of_true (returned (.integer i) rfl rfl rfl) rfl
  | float f =>
    simp only [classesOf, List.mem_cons, List.not_mem_nil, or_false] at own
    rcases own with rfl | rfl
    · exact iff_of_false (refused (.float f.toBinary64) rfl rfl (by simp) rfl) (by decide)
    · exact iff_of_false (refused (.float f.toBinary64) rfl rfl (by simp) rfl) (by decide)
  | double d =>
    simp only [classesOf, List.mem_cons, List.not_mem_nil, or_false] at own
    rcases own with rfl | rfl
    · exact iff_of_true (returned (.float d) rfl rfl rfl) rfl
    · exact iff_of_false (refused (.float d) rfl rfl (by simp) rfl) (by decide)
  | boolean b =>
    simp only [classesOf, List.mem_cons, List.not_mem_nil, or_false] at own
    rcases own with rfl | rfl
    · exact iff_of_true (returned (.boolean b) rfl rfl (by cases b <;> rfl)) rfl
    · exact iff_of_false (refused (.boolean b) rfl rfl (by simp) rfl) (by decide)
  | _ => cases own

theorem never_rejected_iff (vm : VM) {w : World} (alive : w.Alive) (c : JavaClass) :
    (∀ v r, ¬ RejectsClass vm c (w.withMain (v :: w.main.slots) r)) ↔ c.isDecoded = true := by
  have popped (v : Value) (r : Record) :
      ∃ r', LuaStack.popObject vm .main c (w.withMain (v :: w.main.slots) r) =
        (w.withMain (LuaStack.remaining (LuaStack.objectOf vm.libc (-1) c v) v w.main.slots)
          r').settle (LuaStack.objectOf vm.libc (-1) c v) := by
    obtain ⟨r', run, _⟩ := LuaStack.run_popObject vm (P := fun _ => True)
      ((w.withMain_alive _ r).mpr alive) rfl ⟨trivial, trivial⟩ c
    exact ⟨r', run⟩
  constructor
  · intro accepted
    by_contra unknown
    obtain ⟨r, run⟩ := popped (.boolean true) w.record
    rw [objectOf_undecoded vm.libc (by simp) (Bool.eq_false_iff.mpr unknown)] at run
    exact accepted (.boolean true) w.record ⟨_, _, run⟩
  · rintro known v r ⟨message, w', run⟩
    obtain ⟨r', run'⟩ := popped v r
    cases value : LuaStack.objectOf vm.libc (-1) c v with
    | ok o => rw [value] at run'; cases run'.symm.trans run
    | error e =>
      rw [value] at run'
      have thrown := (EStateM.Result.error.inj (run'.symm.trans run)).1
      exact objectOf_decoded vm.libc v known message (value.trans (by simpa using thrown))

/-- The reader accepts what the writer accepts for exactly the classes it knows. -/
theorem classes_agree_iff (vm : VM) {w : World} (alive : w.Alive) (c : JavaClass) :
    (∀ o, c ∈ classesOf o → (ObjectRoundTrip vm o c w ↔ c.isDecoded = true)) ∧
    ((∀ v r, ¬ RejectsClass vm c (w.withMain (v :: w.main.slots) r)) ↔ c.isDecoded = true) :=
  ⟨fun _ own => object_round_trip_iff vm alive own, never_rejected_iff vm alive c⟩

theorem long_agrees :
    ObjectRoundTrip (vmAt .blank 0) (.long 1) .long (.create .blank) ∧
    ∀ v r, ¬ RejectsClass (vmAt .blank 0) .long
      ((World.create .blank).withMain (v :: (World.create .blank).main.slots) r) :=
  have agrees := classes_agree_iff (vmAt .blank 0) (w := .create .blank) ⟨by decide, rfl⟩ .long
  ⟨(agrees.1 (.long 1) (by decide)).mpr rfl, agrees.2.mpr rfl⟩

theorem integer_does_not_return :
    ¬ ObjectRoundTrip (vmAt .blank 0) (.integer 1) .integer (.create .blank) := by
  rintro ⟨r, run⟩
  have rejected : outcomeOf (LuaStack.pushObject .main (.integer 1) >>= fun _ =>
      LuaStack.popObject (vmAt .blank 0) .main .integer) (.create .blank) =
      .error (.exception (.unsupportedOperation
        "Unsupported Lua type class java.lang.Integer / NUMBER")) := by decide +kernel
  rw [outcomeOf, run] at rejected
  cases rejected

end Luava
