import Luava.TableMap

/-
luaH_next under assignments. While a traversal goes on, fields that are there may be assigned to
and cleared: no key is visited twice, the key of the loop is never an invalid one, and at the end
every field that is left has been visited.
-/
namespace Luava.Ltable

open HashPart

namespace Table

variable {hs : Hashes} {t t' : Table} {key value : Value}

/- The slots of a table in the order of a traversal: the array part, then the nodes. -/
def slots (t : Table) : Nat := t.asize + t.hash.sizenode

def valueAt (t : Table) (i : Nat) : Value :=
  if i < t.asize then t.array.getD i .nil else (t.hash.node (i - t.asize)).val

def keyAt (t : Table) (i : Nat) : Value :=
  if i < t.asize then .integer (Int64.ofNat i + 1) else (t.hash.node (i - t.asize)).key.value

/-- The first slot from c on that is in use. -/
def FirstFrom (t : Table) (c : Nat) : Option (Value × Value) → Prop
  | none => ∀ i, c ≤ i → i < t.slots → t.valueAt i = .nil
  | some (k, v) => ∃ i, c ≤ i ∧ i < t.slots ∧ t.keyAt i = k ∧ t.valueAt i = v ∧ v ≠ .nil ∧
      ∀ j, c ≤ j → j < i → t.valueAt j = .nil

theorem FirstFrom.after {c : Nat} {entry : Option (Value × Value)} (empty : t.valueAt c = .nil)
    (first : t.FirstFrom (c + 1) entry) : t.FirstFrom c entry := by
  have skip (i : Nat) (from' : c ≤ i) : i = c ∨ c + 1 ≤ i := by omega
  cases entry with
  | none =>
    intro i from' inside
    rcases skip i from' with rfl | later
    · exact empty
    · exact first i later inside
  | some entry =>
    obtain ⟨i, from', inside, key, value, present, before⟩ := first
    refine ⟨i, by omega, inside, key, value, present, fun j from' below => ?_⟩
    rcases skip j from' with rfl | later
    · exact empty
    · exact before j later below

theorem FirstFrom.here {c : Nat} (inside : c < t.slots) (present : t.valueAt c ≠ .nil) :
    t.FirstFrom c (some (t.keyAt c, t.valueAt c)) :=
  ⟨c, Nat.le_refl c, inside, rfl, rfl, present, fun j from' below => by omega⟩

theorem nextInHash_first (t : Table) (left i : Nat) (size : left + i = t.hash.sizenode) :
    t.FirstFrom (t.asize + i) (t.nextInHash left i) := by
  induction left generalizing i with
  | zero =>
    intro j from' inside
    simp only [slots] at inside
    omega
  | succ left ih =>
    have there : ¬ t.asize + i < t.asize := by omega
    have value : t.valueAt (t.asize + i) = (t.hash.node i).val := by
      rw [valueAt, if_neg there, Nat.add_sub_cancel_left]
    have key : t.keyAt (t.asize + i) = (t.hash.node i).key.value := by
      rw [keyAt, if_neg there, Nat.add_sub_cancel_left]
    rw [nextInHash]
    by_cases nil : (t.hash.node i).val = .nil
    · rw [if_pos (value_of_isNil.mpr nil)]
      exact .after (value.trans nil) (ih (i + 1) (by omega))
    · rw [if_neg fun isNil => nil (value_of_isNil.mp isNil), ← key, ← value]
      exact .here (by simp only [slots]; omega) (value ▸ nil)

theorem nextInArray_first (left i : Nat) (size : left + i = t.asize)
    {entry : Option (Value × Value)} (rest : t.FirstFrom t.asize entry) :
    t.FirstFrom i ((t.nextInArray left i).or entry) := by
  induction left generalizing i with
  | zero =>
    rw [Nat.zero_add] at size
    rw [nextInArray, size]
    exact rest
  | succ left ih =>
    have there : i < t.asize := by omega
    have value : t.valueAt i = t.array.getD i .nil := if_pos there
    have key : t.keyAt i = .integer (Int64.ofNat i + 1) := if_pos there
    rw [nextInArray, ← value, ← key]
    by_cases nil : t.valueAt i = .nil
    · rw [if_pos (value_of_isNil.mpr nil)]
      exact .after nil (ih (i + 1) (by omega))
    · rw [if_neg fun isNil => nil (value_of_isNil.mp isNil)]
      exact .here (by simp only [slots]; omega) nil

theorem luaHNext_first {c : Nat} (found : t.findindex hs key = .ok c) (bound : c ≤ t.slots) :
    ∃ entry, t.luaHNext hs key = .ok entry ∧ t.FirstFrom c entry := by
  simp only [luaHNext, found, bind, Except.bind, pure, Except.pure]
  by_cases inArray : c ≤ t.asize
  · have hash := t.nextInHash_first t.hash.sizenode 0 (Nat.add_zero _)
    have first := nextInArray_first (t.asize - c) c (by omega) hash
    rw [Nat.max_eq_right inArray, Nat.sub_self, Nat.sub_zero]
    cases array : t.nextInArray (t.asize - c) c with
    | none =>
      rw [array, Option.none_or] at first
      exact ⟨_, rfl, first⟩
    | some entry =>
      rw [array, Option.some_or] at first
      exact ⟨_, rfl, first⟩
  · simp only [slots] at bound
    have hash := t.nextInHash_first (t.hash.sizenode - (c - t.asize)) (c - t.asize) (by omega)
    rw [show t.asize + (c - t.asize) = c by omega] at hash
    rw [Nat.max_eq_left (by omega), Nat.sub_eq_zero_of_le (by omega), nextInArray]
    exact ⟨_, rfl, hash⟩

/- A slot in use. -/
def Used (t : Table) (i : Nat) : Prop := i < t.slots ∧ t.valueAt i ≠ .nil

theorem small_index (valid : t.Valid hs) {i : Nat} (inArray : i < t.asize) :
    index (Int64.ofNat i + 1) = i + 1 := by
  have size := valid.size
  simp only [MAXASIZE, MAXABITS] at size
  exact index_succ (by omega)

theorem inArray_keyAt (valid : t.Valid hs) {i : Nat} (inArray : i < t.asize) :
    InArray t.asize (t.keyAt i) ∧ arrayIndexOf (t.keyAt i) = i + 1 := by
  have position := small_index valid inArray
  rw [keyAt, if_pos inArray]
  exact ⟨⟨by omega, by omega⟩, position⟩

/- The key of a node in use. -/
theorem Used.owner (valid : t.Valid hs) {i : Nat} (used : t.Used i) (inHash : ¬ i < t.asize) :
    i - t.asize < t.hash.sizenode ∧ (t.hash.node (i - t.asize)).key = .key (t.keyAt i) ∧
      ¬ InArray t.asize (t.keyAt i) := by
  obtain ⟨inside, present⟩ := used
  simp only [slots] at inside
  rw [valueAt, if_neg inHash] at present
  have bound : i - t.asize < t.hash.sizenode := by omega
  have key : t.keyAt i = (t.hash.node (i - t.asize)).key.value := if_neg inHash
  cases owner : (t.hash.node (i - t.asize)).key with
  | key k =>
    rw [owner, NodeKey.value] at key
    rw [key]
    exact ⟨bound, rfl, valid.apart k _ present ⟨_, bound, owner, rfl⟩⟩
  | _ => exact absurd (valid.hash.empty _ bound (by simp [owner])) present

theorem Used.has (valid : t.Valid hs) {i : Nat} (used : t.Used i) :
    Storable (t.keyAt i) ∧ t.Has (t.keyAt i) (t.valueAt i) := by
  by_cases there : i < t.asize
  · obtain ⟨inArray, position⟩ := inArray_keyAt valid there
    refine ⟨by rw [keyAt, if_pos there]; trivial, ?_⟩
    rw [Has, if_pos inArray, position, valueAt, if_pos there]
    rfl
  · obtain ⟨bound, owner, outside'⟩ := used.owner valid there
    refine ⟨valid.hash.storable _ bound _ owner, ?_⟩
    rw [Has, if_neg outside', valueAt, if_neg there]
    exact ⟨_, bound, owner, rfl⟩

theorem Used.reads (valid : t.Valid hs) {i : Nat} (used : t.Used i) :
    t.luaHGet hs (t.keyAt i) = t.valueAt i := by
  obtain ⟨storable, holds⟩ := used.has valid
  exact (luaHGet_iff valid storable used.2).mpr holds

/- Two slots in use have different keys. -/
theorem Used.distinct (valid : t.Valid hs) {i j : Nat} (one : t.Used i) (two : t.Used j)
    (same : t.keyAt i = t.keyAt j) : i = j := by
  by_cases inArray : i < t.asize
  · obtain ⟨low, position⟩ := inArray_keyAt valid inArray
    by_cases inArray' : j < t.asize
    · have position' := (inArray_keyAt valid inArray').2
      rw [← same, position] at position'
      omega
    · exact absurd (same ▸ low) (two.owner valid inArray').2.2
  · obtain ⟨bound, owner, outside'⟩ := one.owner valid inArray
    by_cases inArray' : j < t.asize
    · exact absurd (same ▸ (inArray_keyAt valid inArray').1) outside'
    · obtain ⟨bound', owner', _⟩ := two.owner valid inArray'
      have := valid.hash.distinct _ bound _ bound' _ owner (same ▸ owner')
      omega

/- Every key with a value has a slot in use. -/
theorem used_of_luaHGet (valid : t.Valid hs) (present : t.luaHGet hs key ≠ .nil) :
    ∃ i, t.Used i ∧ t.keyAt i = normal key ∧ t.valueAt i = t.luaHGet hs key := by
  have storable : Storable (normal key) := by
    by_contra unstorable
    exact present (luaHGet_unstorable unstorable)
  rw [← luaHGet_normal] at present ⊢
  have holds := (luaHGet_iff valid storable present).mp rfl
  rw [Has] at holds
  by_cases inArray : InArray t.asize (normal key)
  · obtain ⟨low, high⟩ := inArray.bounds
    have there : arrayIndexOf (normal key) - 1 < t.asize := by omega
    obtain ⟨inArray', position⟩ := inArray_keyAt valid there
    have value : t.valueAt (arrayIndexOf (normal key) - 1) = t.luaHGet hs (normal key) := by
      rw [if_pos inArray] at holds
      rw [← holds, valueAt, if_pos there]
      rfl
    refine ⟨_, ⟨by simp only [slots]; omega, value ▸ present⟩, ?_, value⟩
    exact inArray'.unique inArray (by omega)
  · rw [if_neg inArray] at holds
    obtain ⟨n, bound, owner, value⟩ := holds
    have outside' : ¬ t.asize + n < t.asize := by omega
    have value' : t.valueAt (t.asize + n) = t.luaHGet hs (normal key) := by
      rw [valueAt, if_neg outside', Nat.add_sub_cancel_left, value]
    refine ⟨t.asize + n, ⟨by simp only [slots]; omega, value' ▸ present⟩, ?_, value'⟩
    rw [keyAt, if_neg outside', Nat.add_sub_cancel_left, owner, NodeKey.value]

/-- The slots of t' have the keys of those of t, and no value where t has none. -/
structure SameLayout (t t' : Table) : Prop extends SameShape t.hash t'.hash where
  asize : t'.asize = t.asize
  keys : ∀ i, (t'.hash.node i).key = (t.hash.node i).key
  empty : ∀ i, t.valueAt i = .nil → t'.valueAt i = .nil

theorem SameLayout.refl (t : Table) : t.SameLayout t := ⟨⟨rfl, rfl⟩, rfl, fun _ => rfl, fun _ => id⟩

theorem SameLayout.trans {t₁ t₂ : Table} (first : t.SameLayout t₁) (second : t₁.SameLayout t₂) :
    t.SameLayout t₂ :=
  ⟨⟨second.lsizenode.trans first.lsizenode, second.isdummy.trans first.isdummy⟩,
    second.asize.trans first.asize, fun i => (second.keys i).trans (first.keys i),
    fun i nil => second.empty i (first.empty i nil)⟩

theorem SameLayout.slots (same : t.SameLayout t') : t'.slots = t.slots := by
  rw [Table.slots, Table.slots, same.asize, same.toSameShape.sizenode]

theorem SameLayout.keyAt (same : t.SameLayout t') (i : Nat) : t'.keyAt i = t.keyAt i := by
  rw [Table.keyAt, Table.keyAt, same.asize, same.keys]

theorem SameLayout.used (same : t.SameLayout t') {i : Nat} (used : t'.Used i) : t.Used i :=
  ⟨same.slots ▸ used.1, fun nil => used.2 (same.empty i nil)⟩

/- The key of a slot that is in use at the start is found where it was. -/
theorem SameLayout.findindex (same : t.SameLayout t') (valid : t.Valid hs) (valid' : t'.Valid hs)
    {i : Nat} (used : t.Used i) : t'.findindex hs (t.keyAt i) = .ok (i + 1) := by
  obtain ⟨storable, _⟩ := used.has valid
  have some : (t.keyAt i).isNil = false := by
    cases key : t.keyAt i <;> first | rfl | exact (key ▸ storable : Storable .nil).elim
  rw [Table.findindex, some, keyinarray_eq valid'.size, same.asize]
  by_cases there : i < t.asize
  · obtain ⟨inArray, position⟩ := inArray_keyAt valid there
    simp [if_pos inArray, position]
  · obtain ⟨bound, owner, outside'⟩ := used.owner valid there
    have found := (getgeneric_iff valid'.hash _ storable (i - t.asize)).mpr
      ⟨same.toSameShape.sizenode ▸ bound, (same.keys _).trans owner⟩
    simp only [if_neg outside', found]
    simp
    omega

/- A new value in a slot that is in use, or nil. -/
theorem setVal_layout {n : Nat} (fills : (t.hash.node n).val ≠ .nil ∨ value = .nil) :
    t.SameLayout (t.setVal n value) := by
  refine ⟨⟨rfl, rfl⟩, rfl, fun i => ?_, fun i nil => ?_⟩
  · by_cases same : i = n
    · rw [same]
      simp [setVal, HashPart.setVal, setNode]
    · simp [setVal, HashPart.setVal, setNode, same]
  · unfold valueAt at nil ⊢
    show (if i < t.asize then t.array.getD i .nil
      else ((t.hash.setVal n value).node (i - t.asize)).val) = .nil
    by_cases inArray : i < t.asize
    · rwa [if_pos inArray] at nil ⊢
    · rw [if_neg inArray] at nil ⊢
      by_cases same : i - t.asize = n
      · rw [same] at nil ⊢
        simpa [HashPart.setVal, setNode] using fills.resolve_left fun present => present nil
      · simpa [HashPart.setVal, setNode, same] using nil

theorem setArray_layout {n : Nat} (fills : t.array.getD n .nil ≠ .nil ∨ value = .nil) :
    t.SameLayout (t.setArray n value) := by
  have size : (t.setArray n value).asize = t.asize := List.length_set ..
  refine ⟨⟨rfl, rfl⟩, size, fun _ => rfl, fun i nil => ?_⟩
  unfold valueAt at nil ⊢
  rw [size]
  by_cases inArray : i < t.asize
  · rw [if_pos inArray] at nil ⊢
    simp only [asize] at inArray
    simp only [setArray, List.getD_eq_getElem?_getD] at nil fills ⊢
    by_cases same : n = i
    · subst same
      rw [List.getElem?_set_self inArray]
      exact fills.resolve_left fun present => present nil
    · rwa [List.getElem?_set_ne same]
  · rwa [if_neg inArray] at nil ⊢

/- What pset does when the field is there or the value is nil. -/
def Stays (t : Table) (value : Value) : Hres → Table → Prop
  | .ok, t' => t.SameLayout t'
  | .notFound, t' => t' = t ∧ value = .nil
  | .node n, t' => t' = t ∧ ((t.hash.node n).val ≠ .nil ∨ value = .nil)
  | .array i, t' => t' = t ∧ (t.array.getD i .nil ≠ .nil ∨ value = .nil)

theorem finishnodeset_stays {slot : Option Nat} (fills : t.nodeValue slot ≠ .nil ∨ value = .nil) :
    Stays t value (t.finishnodeset slot value).1 (t.finishnodeset slot value).2 := by
  cases slot with
  | none => exact ⟨rfl, fills.resolve_left fun present => present rfl⟩
  | some n =>
    unfold finishnodeset
    dsimp only
    split_ifs
    · exact ⟨rfl, fills⟩
    · exact setVal_layout fills

theorem psetint_stays (noTM : Bool) (valid : t.Valid hs) (k : Int64)
    (fills : t.luaHGetint k ≠ .nil ∨ value = .nil) :
    Stays t value (t.psetint noTM k value).1 (t.psetint noTM k value).2 := by
  have position := keyinarray_eq valid.size (.integer k)
  rw [keyinarray] at position
  rw [luaHGetint, position] at fills
  unfold psetint
  dsimp only
  by_cases inside : (k.toUInt64 - 1).toNat < t.asize
  · have inArray := (before_lt_iff valid.size).mp inside
    have low : 0 < arrayIndexOf (.integer k) := inArray.bounds.1
    rw [if_pos inArray, if_pos low] at fills
    rw [if_pos inside, before_inArray inArray]
    split_ifs
    · exact setArray_layout fills
    · exact ⟨rfl, fills⟩
  · have outside' : ¬ InArray t.asize (.integer k) :=
      fun inArray => inside ((before_lt_iff valid.size).mpr inArray)
    rw [if_neg outside', if_neg (Nat.lt_irrefl 0)] at fills
    rw [if_neg inside]
    exact finishnodeset_stays fills

theorem luaHPsetshortstr_stays (noTM barrier : Bool) {k : List UInt8}
    (fills : t.nodeValue (t.hash.luaHHgetshortstr hs k) ≠ .nil ∨ value = .nil) :
    Stays t value (t.luaHPsetshortstr hs noTM barrier k value).1
      (t.luaHPsetshortstr hs noTM barrier k value).2 := by
  unfold luaHPsetshortstr
  dsimp only
  cases slot : t.hash.luaHHgetshortstr hs k with
  | some n =>
    rw [slot] at fills
    split_ifs
    · exact setVal_layout fills
    · exact .refl t
    · simp at *
    · exact ⟨rfl, fills⟩
  | none =>
    rw [slot] at fills
    have nil : value = .nil := fills.resolve_left fun present => present rfl
    subst nil
    cases noTM with
    | true => exact .refl t
    | false => exact ⟨rfl, rfl⟩

theorem luaHPset_stays (noTM barrier : Bool) (valid : t.Valid hs)
    (fills : t.luaHGet hs key ≠ .nil ∨ value = .nil) :
    Stays t value (t.luaHPset hs noTM barrier key value).1
      (t.luaHPset hs noTM barrier key value).2 := by
  cases key with
  | nil => exact ⟨rfl, fills.resolve_left fun present => present rfl⟩
  | string s =>
    have own : t.luaHGet hs (.string s) = t.luaHGetstr hs s := rfl
    rw [own, luaHGetstr, Hgetstr] at fills
    unfold luaHPset
    dsimp only
    by_cases short : s.length ≤ LUAI_MAXSHORTLEN
    · rw [if_pos short] at fills ⊢
      exact luaHPsetshortstr_stays noTM barrier fills
    · rw [if_neg short] at fills ⊢
      exact finishnodeset_stays fills
  | integer k => exact psetint_stays noTM valid k fills
  | float n =>
    unfold luaHGet at fills
    unfold luaHPset
    cases integral : n.flttointeger with
    | some k =>
      simp only [integral] at fills ⊢
      exact psetint_stays noTM valid k fills
    | none =>
      simp only [integral] at fills ⊢
      exact finishnodeset_stays fills
  | _ => exact finishnodeset_stays fills

/-- An assignment to a field that is there, or of nil, leaves the layout. -/
theorem luaHSet_layout (noTM barrier : Bool) (valid : t.Valid hs)
    (fills : t.luaHGet hs key ≠ .nil ∨ value = .nil)
    (done : t.luaHSet hs noTM barrier key value = .ok t') : t.SameLayout t' := by
  have storable := (luaHSet_sets noTM barrier valid done).1
  have stays := luaHPset_stays noTM barrier valid fills
  rw [luaHSet] at done
  cases code : t.luaHPset hs noTM barrier key value with
  | mk hres t₁ =>
    rw [code] at stays done
    cases hres with
    | ok =>
      cases done
      exact stays
    | notFound =>
      obtain ⟨rfl, rfl⟩ := stays
      dsimp only at done
      rw [luaHFinishset_notFound storable] at done
      cases done
      exact .refl _
    | node n =>
      obtain ⟨rfl, fills⟩ := stays
      cases done
      exact setVal_layout fills
    | array i =>
      obtain ⟨rfl, fills⟩ := stays
      cases done
      exact setArray_layout fills

/-- The turns of a loop over a table: the keys it has visited, the last one first, and the table.
   Between two calls of luaH_next the loop assigns to fields that are there. -/
inductive Turns (hs : Hashes) (t : Table) : List Value → Table → Prop
  | start : Turns hs t [] t
  | assign {visited : List Value} {t₁ t₂ : Table} {noTM barrier : Bool} {key value : Value} :
      Turns hs t visited t₁ → t₁.luaHGet hs key ≠ .nil ∨ value = .nil →
      t₁.luaHSet hs noTM barrier key value = .ok t₂ → Turns hs t visited t₂
  | next {visited : List Value} {t₁ : Table} {key value : Value} :
      Turns hs t visited t₁ →
      t₁.luaHNext hs (visited.headD .nil) = .ok (some (key, value)) →
      Turns hs t (key :: visited) t₁

/- The loop stands before slot c: it has visited what is in use below, and nothing above. -/
structure Before (hs : Hashes) (t : Table) (visited : List Value) (t' : Table) (c : Nat) :
    Prop where
  valid : t'.Valid hs
  layout : t.SameLayout t'
  bound : c ≤ t.slots
  position : t'.findindex hs (visited.headD .nil) = .ok c
  below : ∀ k ∈ visited, ∃ i < c, t.Used i ∧ t.keyAt i = k
  complete : ∀ i < c, t'.Used i → t.keyAt i ∈ visited
  distinct : visited.Nodup

theorem Turns.before (valid : t.Valid hs) {visited : List Value} (turns : Turns hs t visited t') :
    ∃ c, Before hs t visited t' c := by
  induction turns with
  | start =>
    exact ⟨0, valid, .refl t, Nat.zero_le _, rfl, nofun, nofun, List.nodup_nil⟩
  | @assign visited t₁ t₂ noTM barrier key value _ fills done ih =>
    obtain ⟨c, before⟩ := ih
    have layout := luaHSet_layout noTM barrier before.valid fills done
    have sets := (luaHSet_sets noTM barrier before.valid done).2
    refine ⟨c, sets.valid, before.layout.trans layout, before.bound, ?_, before.below,
      fun i inside used => before.complete i inside (layout.used used), before.distinct⟩
    cases visited with
    | nil => exact before.position
    | cons k visited =>
      obtain ⟨i, _, used, key⟩ := before.below k List.mem_cons_self
      have old := before.layout.findindex valid before.valid used
      have new := (before.layout.trans layout).findindex valid sets.valid used
      have position := before.position
      rw [List.headD_cons, ← key] at position ⊢
      rw [new, ← old, position]
  | @next visited t₁ key value _ found ih =>
    obtain ⟨c, before⟩ := ih
    obtain ⟨entry, same, first⟩ := luaHNext_first before.position
      (before.layout.slots ▸ before.bound)
    cases Except.ok.inj (found.symm.trans same)
    obtain ⟨i, from', inside, rfl, rfl, present, between⟩ := first
    have used : t.Used i := before.layout.used ⟨inside, present⟩
    rw [before.layout.slots] at inside
    rw [before.layout.keyAt]
    refine ⟨i + 1, before.valid, before.layout, inside, ?_, ?_, ?_, ?_⟩
    · exact before.layout.findindex valid before.valid used
    · intro k member
      rcases List.mem_cons.mp member with rfl | earlier
      · exact ⟨i, Nat.lt_succ_self i, used, rfl⟩
      · obtain ⟨j, below, used', key⟩ := before.below k earlier
        exact ⟨j, by omega, used', key⟩
    · intro j below used'
      by_cases here : j = i
      · rw [here]
        exact List.mem_cons_self
      · by_cases passed : j < c
        · exact List.mem_cons_of_mem _ (before.complete j passed used')
        · exact absurd (between j (by omega) (by omega)) used'.2
    · refine List.nodup_cons.mpr ⟨fun member => ?_, before.distinct⟩
      obtain ⟨j, below, used', key⟩ := before.below _ member
      have := used'.distinct valid used key
      omega

/-- At every turn of such a loop luaH_next accepts the last key. It ends the loop when every field
   left has been visited, or gives a field that was there from the start and has not been. -/
theorem traversal_complete (valid : t.Valid hs) {visited : List Value}
    (turns : Turns hs t visited t') :
    visited.Nodup ∧ visited.length ≤ t.asize + t.hash.sizenode ∧
      ((t'.luaHNext hs (visited.headD .nil) = .ok none ∧
          ∀ k, t'.luaHGet hs k ≠ .nil → normal k ∈ visited) ∨
        ∃ k v, t'.luaHNext hs (visited.headD .nil) = .ok (some (k, v)) ∧ k ∉ visited ∧
          t.luaHGet hs k ≠ .nil ∧ t'.luaHGet hs k = v ∧ v ≠ .nil) := by
  obtain ⟨c, before⟩ := turns.before valid
  obtain ⟨entry, found, first⟩ := luaHNext_first before.position
    (before.layout.slots ▸ before.bound)
  refine ⟨before.distinct, ?_, ?_⟩
  · have keys : visited ⊆ (List.range t.slots).map t.keyAt := by
      intro k member
      obtain ⟨i, below, used, key⟩ := before.below k member
      exact List.mem_map.mpr ⟨i, List.mem_range.mpr used.1, key⟩
    have := before.distinct.length_le_of_subset keys
    rwa [List.length_map, List.length_range] at this
  · cases entry with
    | none =>
      refine .inl ⟨found, fun k present => ?_⟩
      obtain ⟨i, used, key, _⟩ := used_of_luaHGet before.valid present
      rw [before.layout.keyAt] at key
      rw [← key]
      refine before.complete i ?_ used
      by_contra above
      exact used.2 (first i (by omega) used.1)
    | some entry =>
      obtain ⟨i, from', inside, key, value, present, _⟩ := first
      have used' : t'.Used i := ⟨inside, value ▸ present⟩
      have used := before.layout.used used'
      have reads := used'.reads before.valid
      rw [key, value] at reads
      rw [before.layout.keyAt] at key
      refine .inr ⟨entry.1, entry.2, found, fun member => ?_, ?_, reads, present⟩
      · obtain ⟨j, below, used'', same⟩ := before.below _ member
        have := used''.distinct valid used (same.trans key.symm)
        omega
      · rw [← key, used.reads valid]
        exact used.2

/- The first key of the table is visited and cleared. -/
def clearedTable : Table :=
  result (collidingTable.luaHSet colliding true false (.integer 1) .nil)

theorem cleared_traversal_complete :
    [Value.integer 1].Nodup ∧
      1 ≤ collidingTable.asize + collidingTable.hash.sizenode ∧
      ((clearedTable.luaHNext colliding (.integer 1) = .ok none ∧
          ∀ k, clearedTable.luaHGet colliding k ≠ .nil → normal k ∈ [.integer 1]) ∨
        ∃ k v, clearedTable.luaHNext colliding (.integer 1) = .ok (some (k, v)) ∧
          k ∉ [.integer 1] ∧ collidingTable.luaHGet colliding k ≠ .nil ∧
          clearedTable.luaHGet colliding k = v ∧ v ≠ .nil) := by
  have found : collidingTable.luaHNext colliding .nil =
      .ok (some (.integer 1, .boolean true)) := by
    decide +kernel
  have cleared : collidingTable.luaHSet colliding true false (.integer 1) .nil =
      .ok clearedTable :=
    eq_ok_result (by decide +kernel)
  exact traversal_complete valid_colliding (.assign (.next .start found) (.inr rfl) cleared)

end Table

end Luava.Ltable
