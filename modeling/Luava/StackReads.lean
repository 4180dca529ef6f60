import Luava.CallbackLaws

/-
Reads that do not pop, and the printing of the stack. Only one of the conversions behind a read
writes to its slot: lua_tolstring of a number.
-/
namespace Luava

open Effects LuaApi Machine

/-- x leaves every slot as it was, and a later getValues gives what it would have given before. -/
structure LeavesStack {α : Type} (vm : VM) (x : Wrapper α) (w : World) : Prop where
  stack : (endOf x w).main = w.main
  again : ∀ types, outcomeOf (LuaStack.getValues vm .main types) (endOf x w) =
    outcomeOf (LuaStack.getValues vm .main types) w

/-- One of the reads is of a number as a String, and none before it is refused. -/
inductive Rewrites (libc : Libc) (n : Nat) : Nat → List JavaClass → List Value → Prop
  | here {i : Nat} {types : List JavaClass} {slots : List Value}
      (number : (slots.getD (n - 1 - i) .nil).isNumber = true) :
      Rewrites libc n i (.string :: types) slots
  | later {i : Nat} {type : JavaClass} {types : List JavaClass} {slots : List Value}
      (accepted : LuaStack.accepts libc type (slots.getD (n - 1 - i) .nil) = true)
      (rest : Rewrites libc n (i + 1) types slots) : Rewrites libc n i (type :: types) slots

namespace StackReads

theorem slot_after_eq_iff (libc : Libc) (c : JavaClass) (v : Value) :
    LuaStack.slotAfter libc c v = v ↔ ¬ (c = .string ∧ v.isNumber = true) := by
  unfold LuaStack.slotAfter textOf
  by_cases string : c = .string
  · cases v <;> simp [string, Value.isNumber]
  · simp [string]

theorem set_getD {slots : List Value} {p : Nat} (inside : p < slots.length) :
    slots.set p (slots.getD p .nil) = slots := by
  obtain ⟨_, there⟩ := List.getElem?_eq_some_iff.mp (LuaStack.getD_inside inside)
  exact there ▸ List.set_getElem_self inside

/- The later reads are of other slots. -/
theorem slot_read_before (libc : Libc) {n i : Nat} {types : List JavaClass} {slots : List Value}
    (enough : i + (types.length + 1) ≤ n) :
    (LuaStack.slotsRead libc n (i + 1) types slots)[n - 1 - i]? = slots[n - 1 - i]? := by
  have kept : (LuaStack.slotsRead libc n (i + 1) types slots).drop (n - (i + 1)) =
      slots.drop (n - (i + 1)) := LuaStack.drop_slots_read libc (by omega)
  have head := congrArg (fun l : List Value => l[0]?) kept
  simp only [List.getElem?_drop, Nat.add_zero] at head
  rwa [show n - 1 - i = n - (i + 1) by omega]

theorem slots_read_eq_iff (libc : Libc) {n i : Nat} {types : List JavaClass} {slots : List Value}
    (enough : i + types.length ≤ n) (inside : n ≤ slots.length) :
    LuaStack.slotsRead libc n i types slots = slots ↔ ¬ Rewrites libc n i types slots := by
  induction types generalizing i with
  | nil => exact iff_of_true rfl (by rintro ⟨⟩)
  | cons type types ih =>
    simp only [List.length_cons] at enough
    have position : n - 1 - i < slots.length := by omega
    rw [LuaStack.slotsRead]
    by_cases rewritten : type = .string ∧ (slots.getD (n - 1 - i) .nil).isNumber = true
    · obtain ⟨rfl, number⟩ := rewritten
      refine iff_of_false ?_ (not_not.mpr (.here number))
      intro same
      have accepted : LuaStack.accepts libc .string (slots.getD (n - 1 - i) .nil) = true := by
        simp only [LuaStack.accepts, number, Bool.or_true]
      rw [if_pos accepted] at same
      have read := congrArg (fun l : List Value => l[n - 1 - i]?) same
      simp only [slot_read_before libc enough, List.getElem?_set_self position,
        LuaStack.getD_inside position, Option.some.injEq] at read
      exact (slot_after_eq_iff libc .string _).mp read ⟨rfl, number⟩
    · rw [(slot_after_eq_iff libc type _).mpr rewritten, set_getD position]
      by_cases accepted : LuaStack.accepts libc type (slots.getD (n - 1 - i) .nil) = true
      · rw [if_pos accepted, ih (by omega)]
        refine not_congr ⟨.later accepted, ?_⟩
        rintro (number | ⟨_, rest⟩)
        · exact absurd ⟨rfl, number⟩ rewritten
        · exact rest
      · rw [if_neg accepted]
        refine iff_of_true rfl ?_
        rintro (number | ⟨accepts, _⟩)
        · exact rewritten ⟨rfl, number⟩
        · exact accepted accepts

/- The outcome of getValues is a function of the slots. -/
theorem outcome_getValues (vm : VM) {w : World} (alive : w.Alive) (types : List JavaClass) :
    outcomeOf (LuaStack.getValues vm .main types) w =
      if types.length ≤ w.main.slots.length then
        (LuaStack.objectsOf vm.libc types.length 0 types w.main.slots).mapError .exception
      else .error .undefined := by
  by_cases enough : types.length ≤ w.main.slots.length
  · obtain ⟨r, read, _⟩ := LuaStack.run_getValues vm alive enough (P := fun _ => True)
      (.inr trivial) (.inr trivial)
    rw [outcomeOf, read, if_pos enough]
    cases LuaStack.objectsOf vm.libc types.length 0 types w.main.slots <;> rfl
  · obtain ⟨r, read, _⟩ := LuaStack.getValues_outside vm alive (Nat.lt_of_not_le enough)
      (P := fun _ => True) trivial
    rw [outcomeOf, read, if_neg enough]

/- A read that ends with the given slots leaves the stack exactly when they are the old ones. -/
theorem leaves_stack_iff {α : Type} (vm : VM) {x : Wrapper α} {w : World} (alive : w.Alive)
    {slots : List Value} {r : Record} (ended : endOf x w = w.withMain slots r) :
    LeavesStack vm x w ↔ slots = w.main.slots := by
  constructor
  · rintro ⟨stack, _⟩
    rw [ended] at stack
    exact congrArg LuaState.slots stack
  · rintro rfl
    refine ⟨by rw [ended]; rfl, fun types => ?_⟩
    rw [ended, outcome_getValues vm ((w.withMain_alive _ r).mpr alive),
      outcome_getValues vm alive]
    rfl

end StackReads

open StackReads

theorem toObject_leaves_stack_iff (vm : VM) {w : World} (alive : w.Alive) {v : Value}
    {below : List Value} (top : w.main.slots = v :: below) (c : JavaClass) :
    LeavesStack vm (LuaStack.toObject vm .main (-1) c) w ↔ ¬ (c = .string ∧ v.isNumber = true) := by
  obtain ⟨r, read, _⟩ := LuaStack.run_toObject vm (v := v) alive
    (LuaStack.top_located top (P := fun _ => True) trivial) (by simp [top]) c
  have ended : endOf (LuaStack.toObject vm .main (-1) c) w =
      w.withMain (LuaStack.slotAfter vm.libc c v :: below) r := by
    rw [top, List.set_cons_zero] at read
    rw [endOf, read]
    cases LuaStack.objectOf vm.libc (-1) c v <;> rfl
  rw [leaves_stack_iff vm alive ended, top, List.cons_eq_cons, and_iff_left rfl,
    slot_after_eq_iff]

theorem getValues_leaves_stack_iff (vm : VM) {w : World} (alive : w.Alive)
    {types : List JavaClass} (enough : types.length ≤ w.main.slots.length) :
    LeavesStack vm (LuaStack.getValues vm .main types) w ↔
      ¬ Rewrites vm.libc types.length 0 types w.main.slots := by
  obtain ⟨r, read, _⟩ := LuaStack.run_getValues vm alive enough (P := fun _ => True)
    (.inr trivial) (.inr trivial)
  have ended : endOf (LuaStack.getValues vm .main types) w =
      w.withMain (LuaStack.slotsRead vm.libc types.length 0 types w.main.slots) r := by
    rw [endOf, read]
    cases LuaStack.objectsOf vm.libc types.length 0 types w.main.slots <;> rfl
  rw [leaves_stack_iff vm alive ended, slots_read_eq_iff vm.libc (Nat.zero_add _).le enough]

/-- The reads have no effect on the stack exactly when none of them is of a number as a String. -/
theorem reads_leave_stack_iff (vm : VM) {w : World} (alive : w.Alive) :
    (∀ c v below, w.main.slots = v :: below →
      (LeavesStack vm (LuaStack.toObject vm .main (-1) c) w ↔
        ¬ (c = .string ∧ v.isNumber = true))) ∧
    ∀ types, types.length ≤ w.main.slots.length →
      (LeavesStack vm (LuaStack.getValues vm .main types) w ↔
        ¬ Rewrites vm.libc types.length 0 types w.main.slots) :=
  ⟨fun c _ _ top => toObject_leaves_stack_iff vm alive top c,
    fun _ enough => getValues_leaves_stack_iff vm alive enough⟩

namespace StackReads

/- A frame with a value of each kind, an integer on top. -/
def mixed : World :=
  (World.create .blank).withMain [.integer 7, .float ⟨0x4004000000000000⟩, .boolean true,
    .literal "a", .nil, .table 1, .function (.closure 0), .nil] ⟨1, [], []⟩

end StackReads

theorem reads_of_mixed_frame_leave_stack :
    LeavesStack (vmAt .blank 0) (LuaStack.toObject (vmAt .blank 0) .main (-1) .double) mixed ∧
    LeavesStack (vmAt .blank 0) (LuaStack.getValues (vmAt .blank 0) .main
      [.long, .string, .boolean, .double, .long]) mixed := by
  have reads := reads_leave_stack_iff (vmAt .blank 0) (w := mixed) ⟨by decide, rfl⟩
  refine ⟨(reads.1 .double (.integer 7) _ rfl).mpr (by simp), ?_⟩
  refine (reads.2 [.long, .string, .boolean, .double, .long] (by decide)).mpr fun rewrites => ?_
  obtain _ | ⟨_, rewrites⟩ := rewrites
  obtain number | ⟨_, rewrites⟩ := rewrites
  · cases number
  obtain _ | ⟨_, _ | ⟨_, _ | ⟨_, rewrites⟩⟩⟩ := rewrites
  cases rewrites

/-- The integer 1, read as a String, is the string "1" afterwards. -/
theorem number_read_as_string_is_rewritten :
    ¬ LeavesStack (vmAt .blank 0) (LuaStack.getValues (vmAt .blank 0) .main [.string])
      ((World.create .blank).withMain [.integer 1, .nil] ⟨0, [], []⟩) := by
  rintro ⟨stack, _⟩
  have rewritten : (endOf (LuaStack.getValues (vmAt .blank 0) .main [.string])
      ((World.create .blank).withMain [.integer 1, .nil] ⟨0, [], []⟩)).main.slots =
      [.literal "1", .nil] := by decide +kernel
  rw [stack] at rewritten
  exact absurd rewritten (by decide)

/-- text names every slot of the frame once, from the lowest to the top. -/
inductive DescribesFrame (vm : VM) (s : LuaState) (text : String) : Prop
  | intro (texts : List String)
      (shown : text = "Stack size: " ++ toString ((s.top : Int) - (s.func + 1)) ++ ": " ++
        LuaStack.commaSeparated texts)
      (count : texts.length = s.top - (s.func + 1))
      (slot : ∀ i v, s.func + (i + 1) < s.top → s.slots[s.top - 1 - (s.func + (i + 1))]? = some v →
        texts[i]? = some (LuaStack.description vm (i + 1 : Nat) v))

/-- The two computations end alike, up to the record of failed checks. -/
structure SameEnd {α : Type} (x y : Wrapper α) (w : World) : Prop where
  outcome : outcomeOf x w = outcomeOf y w
  world : ∃ slots r r', endOf x w = w.withMain slots r ∧ endOf y w = w.withMain slots r'

theorem describes_frame (vm : VM) (s : LuaState) :
    DescribesFrame vm s ("Stack size: " ++ toString ((s.top : Int) - (s.func + 1)) ++ ": " ++
      LuaStack.commaSeparated (LuaStack.descriptions vm 1 (LuaStack.valuesFrom s 1))) := by
  refine ⟨_, rfl, ?_, ?_⟩
  · rw [LuaStack.descriptions, List.length_mapIdx, LuaStack.length_values_from]
  · intro i v inside slot
    have count : (s.slots.take (s.top - (s.func + 1))).length = s.top - (s.func + 1) := by
      rw [List.length_take, LuaState.top]
      omega
    have position : s.top - (s.func + 1) - 1 - i = s.top - 1 - (s.func + (i + 1)) := by omega
    have value : (LuaStack.valuesFrom s 1)[i]? = some v := by
      rw [LuaStack.valuesFrom, List.getElem?_reverse (by omega), count, position,
        List.getElem?_take_of_lt (by omega), slot]
    rw [LuaStack.descriptions, List.getElem?_mapIdx, value, Nat.add_comm 1 i]
    rfl

theorem getValues_same_end (vm : VM) {w : World} (alive : w.Alive) (types : List JavaClass) :
    SameEnd (LuaStack.getValues { vm with finest := true } .main types)
      (LuaStack.getValues { vm with finest := false } .main types) w := by
  refine ⟨by rw [outcome_getValues _ alive, outcome_getValues _ alive], ?_⟩
  by_cases enough : types.length ≤ w.main.slots.length
  · have ended (finest : Bool) : ∃ r,
        endOf (LuaStack.getValues { vm with finest := finest } .main types) w =
          w.withMain (LuaStack.slotsRead vm.libc types.length 0 types w.main.slots) r := by
      obtain ⟨r, read, _⟩ := LuaStack.run_getValues { vm with finest := finest } alive enough
        (P := fun _ => True) (.inr trivial) (.inr trivial)
      refine ⟨r, ?_⟩
      rw [endOf, read]
      cases LuaStack.objectsOf vm.libc types.length 0 types w.main.slots <;> rfl
    obtain ⟨r, logged⟩ := ended true
    obtain ⟨r', silent⟩ := ended false
    exact ⟨_, r, r', logged, silent⟩
  · have ended (finest : Bool) : ∃ r,
        endOf (LuaStack.getValues { vm with finest := finest } .main types) w =
          w.withMain w.main.slots r := by
      obtain ⟨r, read, _⟩ := LuaStack.getValues_outside { vm with finest := finest } alive
        (Nat.lt_of_not_le enough) (P := fun _ => True) trivial
      exact ⟨r, by rw [endOf, read]⟩
    obtain ⟨r, logged⟩ := ended true
    obtain ⟨r', silent⟩ := ended false
    exact ⟨_, r, r', logged, silent⟩

/-- Printing the stack describes it and leaves it alone, so logging makes no difference. Its strings
   are those that fit a Java array. -/
theorem diagnostics_change_nothing (vm : VM) {w : World} (alive : w.Alive) :
    (∃ text r, LuaStack.printStack vm .main w = .ok text (w.withMain w.main.slots r) ∧
      DescribesFrame vm w.main text) ∧
    ∀ types, SameEnd (LuaStack.getValues { vm with finest := true } .main types)
      (LuaStack.getValues { vm with finest := false } .main types) w := by
  refine ⟨?_, getValues_same_end vm alive⟩
  obtain ⟨r, printed, _⟩ := LuaStack.run_printStack vm alive (P := fun _ => True) (.inr trivial)
  exact ⟨_, r, printed, describes_frame vm w.main⟩

theorem diagnostics_of_mixed_frame_change_nothing :
    (∃ text r, LuaStack.printStack (vmAt .blank 0) .main mixed =
        .ok text (mixed.withMain mixed.main.slots r) ∧
      DescribesFrame (vmAt .blank 0) mixed.main text) ∧
    SameEnd
      (LuaStack.getValues { vmAt .blank 0 with finest := true } .main
        [.string, .boolean, .double, .long])
      (LuaStack.getValues { vmAt .blank 0 with finest := false } .main
        [.string, .boolean, .double, .long]) mixed ∧
    outcomeOf (LuaStack.getValues { vmAt .blank 0 with finest := true } .main
      [.string, .boolean, .double, .long]) mixed =
        .ok [.string "a", .boolean true, .double ⟨0x4004000000000000⟩, .long 7] := by
  have nothing := diagnostics_change_nothing (vmAt .blank 0) (w := mixed) ⟨by decide, rfl⟩
  exact ⟨nothing.1, nothing.2 _, by decide +kernel⟩

end Luava
