import Luava.TableCounters

/-
A table is the map of what was set last. This holds over every run of luaH_set from an empty
table, whatever the hashes, the collisions and the rehashes on the way.
-/
namespace Luava.Ltable

open HashPart Counters

namespace Table

variable {hs : Hashes} {t t' : Table} {key value : Value}

section Rehash

variable {n : Nat}

theorem taken_append (c d : List Nat) (m : Nat) : taken (c ++ d) m = taken c m + taken d m :=
  List.countP_append ..

theorem taken_candidate (small : n ≤ MAXASIZE) (k : Value) :
    taken (candidate k) n = if InArray n k then 1 else 0 := by
  unfold candidate
  by_cases possible : InArray MAXASIZE k
  · obtain ⟨low, high⟩ := possible.bounds
    have position : InArray n k ↔ arrayIndexOf k ≤ n := by
      cases k with
      | integer k => exact ⟨fun inside => inside.2, fun below => ⟨low, below⟩⟩
      | _ => exact possible.elim
    by_cases below : arrayIndexOf k ≤ n
    · rw [if_pos possible, if_pos (position.mpr below)]
      simp [taken, below]
    · rw [if_pos possible, if_neg fun inside => below (position.mp inside)]
      simp [taken, below]
  · have outside : ¬ InArray n k := by
      intro inside
      refine possible ?_
      cases k with
      | integer k => exact ⟨inside.1, by have := inside.2; omega⟩
      | _ => exact inside
    rw [if_neg possible, if_neg outside]
    rfl

/- The entries that go to the hash part are those that are not taken by the array part. -/
theorem outside_entries (small : n ≤ MAXASIZE) (l : List (Value × Value)) :
    outside n l + taken (l.flatMap fun p => candidate p.1) n = l.length := by
  induction l with
  | nil => rfl
  | cons p l ih =>
    have first := taken_candidate small p.1
    rw [List.flatMap_cons, taken_append, first]
    unfold outside at ih ⊢
    rw [List.countP_cons, List.length_cons]
    by_cases inside : InArray n p.1
    · rw [if_pos inside, if_neg (by simpa using inside)]
      omega
    · rw [if_neg inside, if_pos (by simpa using inside)]
      omega

theorem taken_used (array : List Value) (n : Nat) :
    taken (usedUpTo array array.length) n + (sliceEntries (array.drop n) n).length =
      (usedUpTo array array.length).length := by
  have low (m : Nat) (below : m ≤ n) : taken (usedUpTo array m) n = (usedUpTo array m).length := by
    refine List.countP_eq_length.mpr fun k member => ?_
    obtain ⟨j, inside, rfl⟩ := List.mem_map.mp member
    have := List.mem_range.mp (List.mem_filter.mp inside).1
    simp
    omega
  by_cases fits : n ≤ array.length
  · have high : taken (newlyUsed array n array.length) n = 0 := by
      refine List.countP_eq_zero.mpr fun k member => ?_
      have := mem_newlyUsed member
      simp
      omega
    have length := length_newlyUsed array (i := n) (Nat.le_refl array.length)
    rw [slice, List.take_length] at length
    rw [usedUpTo_append array fits, taken_append, low n (Nat.le_refl n), high,
      length_sliceEntries, List.length_append, length]
    rfl
  · rw [low _ (by omega), List.drop_eq_nil_of_le (by omega)]
    rfl

theorem positive_candidate {k : Value} : ∀ i ∈ candidate k, 1 ≤ i := by
  intro i member
  unfold candidate at member
  split_ifs at member with possible
  · rw [List.mem_singleton] at member
    exact member ▸ possible.bounds.1
  · cases member

theorem positive_used {array : List Value} {m : Nat} : ∀ i ∈ usedUpTo array m, 1 ≤ i := by
  intro i member
  obtain ⟨j, _, rfl⟩ := List.mem_map.mp member
  omega

/- The indices that a rehash counts. -/
def countedIndices (t : Table) (key : Value) : List Nat :=
  usedUpTo t.array t.array.length ++
    ((entries t.hash t.hash.sizenode 0).flatMap (fun p => candidate p.1) ++ candidate key)

theorem positive_counted (t : Table) (key : Value) : ∀ i ∈ t.countedIndices key, 1 ≤ i := by
  intro i member
  rcases List.mem_append.mp member with used | member
  · exact positive_used i used
  · rcases List.mem_append.mp member with entry | extra
    · obtain ⟨p, _, member⟩ := List.mem_flatMap.mp entry
      exact positive_candidate i member
    · exact positive_candidate i extra

theorem counted_counts (t : Table) (key : Value) :
    (t.counted key).Counts (1 + (entries t.hash t.hash.sizenode 0).length)
      ((entries t.hash t.hash.sizenode 0).flatMap (fun p => candidate p.1) ++ candidate key) := by
  have start : Counts ⟨1, 0, false, fun _ => 0⟩ 1 [] := ⟨rfl, rfl, fun _ => rfl⟩
  refine numusehash_counts t.hash t.hash.sizenode ?_
  cases key with
  | integer k => simpa using countint_counts start k
  | _ => exact start

/- The nodes for n keys: a quarter more where there are deleted ones. -/
def nodesFor (deleted : Bool) (n : Nat) : Nat := if deleted then n + n / 4 else n

/-- The sizes that a rehash computes. The array part keeps its size when no index was counted
   outside of it; else it gets the best one, and the keys it takes need no node. -/
theorem newSizes_spec (valid : t.Valid hs) (key : Value) :
    ∃ deleted,
      ((t.counted key).na = 0 ∧ t.newSizes key =
        (t.asize, nodesFor deleted (1 + (entries t.hash t.hash.sizenode 0).length))) ∨
      (t.counted key).na ≠ 0 ∧ ∃ na,
        Best (t.countedIndices key) (MAXABITS + 1) na (t.newSizes key).1 ∧
        (t.newSizes key).2 = nodesFor deleted (1 + (entries t.hash t.hash.sizenode 0).length +
          (usedUpTo t.array t.array.length).length - na) := by
  have counts := counted_counts t key
  unfold newSizes
  dsimp only
  by_cases none : (t.counted key).na = 0
  · refine ⟨(t.counted key).deleted, .inl ⟨none, ?_⟩⟩
    simp only [none, if_true, Nat.sub_zero, counts.total, nodesFor]
  · have counts' := numusearray_counts t.array valid.size counts
    have best := computesizes_best counts' (positive_counted t key)
    simp only [none, if_false, counts'.total]
    exact ⟨(numusearray t.array (t.counted key)).deleted, .inr ⟨none, _, best, rfl⟩⟩

/- The computed sizes leave a node for every key that does not go to the array part, the new one
   included. -/
theorem newSizes_room (valid : t.Valid hs) (absent : ¬ InArray t.asize key) :
    outside (t.newSizes key).1 (t.kept (t.newSizes key).1) +
      (if InArray (t.newSizes key).1 key then 0 else 1) ≤ (t.newSizes key).2 := by
  -- deleted entries only add to the room
  have enough (deleted : Bool) (n : Nat) : n ≤ nodesFor deleted n := by
    cases deleted with
    | true => exact Nat.le_add_right _ _
    | false => exact Nat.le_refl n
  have split (asize : Nat) : outside asize (t.kept asize) ≤
      (sliceEntries (t.array.drop asize) asize).length +
        outside asize (entries t.hash t.hash.sizenode 0) := by
    unfold outside kept
    rw [List.countP_append]
    exact Nat.add_le_add_right List.countP_le_length _
  obtain ⟨deleted, ⟨_, sizes⟩ | ⟨_, na, best, nodes⟩⟩ := newSizes_spec valid key
  · rw [sizes]
    dsimp only
    refine le_trans ?_ (enough deleted _)
    have rest := split t.asize
    have bound : outside t.asize (entries t.hash t.hash.sizenode 0) ≤
        (entries t.hash t.hash.sizenode 0).length := List.countP_le_length
    have whole : t.array.drop t.asize = [] := List.drop_eq_nil_of_le (Nat.le_refl _)
    rw [whole] at rest
    rw [if_neg absent]
    simp only [sliceEntries, List.length_nil] at rest
    omega
  · rw [nodes]
    refine le_trans ?_ (enough deleted _)
    generalize (t.newSizes key).1 = asize at best
    have small : asize ≤ MAXASIZE := best.size_le
    have moves := best.moves
    rw [countedIndices, taken_append, taken_append, taken_candidate small] at moves
    have entries' := outside_entries small (entries t.hash t.hash.sizenode 0)
    have used := taken_used t.array asize
    have rest := split asize
    rw [moves]
    split_ifs <;> omega

/- They are at most those that all keys and the new one need, and a quarter more. -/
theorem newSizes_bounded (valid : t.Valid hs) (key : Value) :
    (t.newSizes key).1 ≤ MAXASIZE ∧
      (t.newSizes key).2 ≤ ((t.kept 0).length + 1) + ((t.kept 0).length + 1) / 4 := by
  have all : (t.kept 0).length = (sliceEntries (t.array.drop 0) 0).length +
      (entries t.hash t.hash.sizenode 0).length := List.length_append
  have used := taken_used t.array 0
  have none : taken (usedUpTo t.array t.array.length) 0 = 0 := by
    refine List.countP_eq_zero.mpr fun k member => ?_
    have := positive_used k member
    simp
    omega
  have most (deleted : Bool) (n : Nat) (bound : n ≤ (t.kept 0).length + 1) :
      nodesFor deleted n ≤ ((t.kept 0).length + 1) + ((t.kept 0).length + 1) / 4 := by
    unfold nodesFor
    split_ifs <;> omega
  obtain ⟨deleted, ⟨_, sizes⟩ | ⟨_, na, best, nodes⟩⟩ := newSizes_spec valid key
  · rw [sizes]
    exact ⟨valid.size, most deleted _ (by omega)⟩
  · rw [nodes]
    exact ⟨best.size_le, most deleted _ (by omega)⟩

/-- A rehash keeps the content, and there is a place for the new key afterwards. -/
theorem rehash_spec (valid : t.Valid hs) (outside' : ¬ InArray t.asize key)
    (absent : ∀ v, ¬ t.hash.Holds key v) (rehashed : t.rehash hs key = .ok t') :
    t'.Valid hs ∧ t.SameContent t' ∧
      (InArray t'.asize key ∨ (∀ v, ¬ t'.hash.Holds key v) ∧ 0 < t'.hash.free.card) := by
  have room := newSizes_room valid outside'
  obtain ⟨valid', size, content, keys, free⟩ := luaHResize_spec valid (by omega) rehashed
  refine ⟨valid', content, ?_⟩
  by_cases inArray : InArray t'.asize key
  · exact .inl inArray
  · rw [size] at inArray
    rw [if_neg inArray] at room
    refine .inr ⟨?_, by omega⟩
    refine (keys key).resolve_right ?_
    rintro ⟨v, _, holds⟩
    rw [Has, if_neg outside'] at holds
    exact absent v holds

end Rehash

theorem SameContent.refl (t : Table) : t.SameContent t := fun _ _ _ => Iff.rfl

/- A change of a table with the same content. -/
theorem Sets.of_same {t₁ : Table} (same : t.SameContent t₁) (sets : Sets hs t₁ key value t') :
    Sets hs t key value t' :=
  ⟨sets.valid, sets.own, fun k v other present =>
    (sets.others k v other present).trans (same k v present)⟩

/- Nothing has to be done for nil where there is nothing. -/
theorem sets_nothing (valid : t.Valid hs) (empty : ∀ v, v ≠ .nil → ¬ t.Has key v) :
    Sets hs t key .nil t :=
  ⟨valid, .inr ⟨rfl, empty⟩, fun _ _ _ _ => Iff.rfl⟩

theorem not_has_of_absent (outside' : ¬ InArray t.asize key) (absent : ∀ v, ¬ t.hash.Holds key v)
    (v : Value) : ¬ t.Has key v := by
  rw [Has, if_neg outside']
  exact absent v

/- A hash part that only moved its lastfree. -/
theorem same_nodes (valid : t.Valid hs) {h : HashPart} (hash : h.Valid hs)
    (nodes : h.node = t.hash.node) (shape : SameShape t.hash h) :
    ({ t with hash := h } : Table).Valid hs ∧ t.SameContent { t with hash := h } ∧
      ∀ k v, h.Holds k v ↔ t.hash.Holds k v := by
  have holds (k v : Value) : h.Holds k v ↔ t.hash.Holds k v := by
    unfold Holds
    rw [shape.sizenode, nodes]
  refine ⟨⟨hash, valid.size, fun k v present found =>
    valid.apart k v present ((holds k v).mp found)⟩, fun k v _ => ?_, holds⟩
  unfold Has
  show (if InArray t.asize k then t.arrayEntry (arrayIndexOf k) = v else h.Holds k v) ↔ _
  by_cases inArray : InArray t.asize k
  · rw [if_pos inArray, if_pos inArray]
  · rw [if_neg inArray, if_neg inArray]
    exact holds k v

theorem luaHNewkey_sets (valid : t.Valid hs) (storable : Storable key)
    (outside' : ¬ InArray t.asize key) (absent : ∀ v, ¬ t.hash.Holds key v)
    (done : t.luaHNewkey hs key value = .ok t') : Sets hs t key value t' := by
  unfold luaHNewkey at done
  by_cases nil : value = .nil
  · rw [if_pos (value_of_isNil.mpr nil)] at done
    cases done
    rw [nil]
    exact sets_nothing valid fun v _ => not_has_of_absent outside' absent v
  · rw [if_neg fun isNil => nil (value_of_isNil.mp isNil)] at done
    have unused : ∀ i < t.hash.sizenode, (t.hash.node i).key ≠ .key key :=
      fun i inside owner => absent _ ⟨i, inside, owner, rfl⟩
    cases insertion : t.hash.insertkey hs key value with
    | mk success h =>
      rw [insertion] at done
      cases success with
      | true =>
        cases done
        exact sets_inserted valid outside' (insertkey_inserted valid.hash storable unused insertion)
      | false =>
        obtain ⟨_, hash, nodes, shape⟩ := insertkey_full valid.hash insertion
        obtain ⟨valid₁, same₁, holds₁⟩ := same_nodes valid hash nodes shape
        dsimp only at done
        cases grown : ({ t with hash := h } : Table).rehash hs key with
        | error e =>
          rw [grown] at done
          cases done
        | ok t₂ =>
          rw [grown] at done
          cases done
          obtain ⟨valid₂, same₂, fits⟩ := rehash_spec (t := { t with hash := h }) valid₁ outside'
            (fun v found => absent v ((holds₁ key v).mp found)) grown
          have checked := newcheckedkey_checked value valid₂ storable fits
          exact (checked.toSets.of_same same₂).of_same same₁

/-- What a code of pset says about the place of key. -/
def Placed (hs : Hashes) (t : Table) (key value : Value) : Hres → Table → Prop
  | .ok, t' => Sets hs t key value t'
  | .notFound, t' =>
    t'.Valid hs ∧ t.SameContent t' ∧ ¬ InArray t'.asize key ∧ ∀ v, ¬ t'.hash.Holds key v
  | .node n, t' =>
    t'.Valid hs ∧ t.SameContent t' ∧ ¬ InArray t'.asize key ∧ n < t'.hash.sizenode ∧
      (t'.hash.node n).key = .key key
  | .array i, t' =>
    t'.Valid hs ∧ t.SameContent t' ∧ InArray t'.asize key ∧ i = arrayIndexOf key - 1

theorem absent_of_search {h : HashPart} {slot : Option Nat}
    (finds : ∀ i, slot = some i ↔ i < h.sizenode ∧ (h.node i).key = .key key)
    (none : slot = none) : ∀ v, ¬ h.Holds key v := by
  rintro v ⟨i, inside, owner, _⟩
  cases none.symm.trans ((finds i).mpr ⟨inside, owner⟩)

theorem retpsetcode_placed (value : Value) (valid : t.Valid hs) (outside' : ¬ InArray t.asize key)
    {slot : Option Nat}
    (finds : ∀ i, slot = some i ↔ i < t.hash.sizenode ∧ (t.hash.node i).key = .key key) :
    Placed hs t key value (retpsetcode slot) t := by
  cases found : slot with
  | none => exact ⟨valid, .refl t, outside', absent_of_search finds found⟩
  | some n =>
    obtain ⟨inside, owner⟩ := (finds n).mp found
    exact ⟨valid, .refl t, outside', inside, owner⟩

theorem finishnodeset_placed (valid : t.Valid hs) (outside' : ¬ InArray t.asize key)
    {slot : Option Nat}
    (finds : ∀ i, slot = some i ↔ i < t.hash.sizenode ∧ (t.hash.node i).key = .key key) :
    Placed hs t key value (t.finishnodeset slot value).1 (t.finishnodeset slot value).2 := by
  have code := retpsetcode_placed value valid outside' finds
  cases found : slot with
  | none => rwa [found] at code
  | some n =>
    obtain ⟨inside, owner⟩ := (finds n).mp found
    unfold finishnodeset
    dsimp only
    by_cases nil : (t.hash.node n).val.isNil = true
    · rw [if_pos nil]
      rwa [found] at code
    · rw [if_neg nil]
      exact sets_node valid outside' inside owner

theorem psetint_placed (noTM : Bool) (valid : t.Valid hs) (k : Int64) :
    Placed hs t (.integer k) value (t.psetint noTM k value).1 (t.psetint noTM k value).2 := by
  unfold psetint
  dsimp only
  by_cases inside : (k.toUInt64 - 1).toNat < t.asize
  · have inArray := (before_lt_iff valid.size).mp inside
    rw [if_pos inside, before_inArray inArray]
    split_ifs
    · exact sets_array valid inArray
    · exact ⟨valid, .refl t, inArray, rfl⟩
  · have outside' : ¬ InArray t.asize (.integer k) :=
      fun inArray => inside ((before_lt_iff valid.size).mpr inArray)
    rw [if_neg inside]
    exact finishnodeset_placed valid outside' fun i => getintfromhash_iff valid.hash k i

theorem luaHPsetshortstr_placed (noTM barrier : Bool) (valid : t.Valid hs) (k : List UInt8) :
    Placed hs t (.string k) value (t.luaHPsetshortstr hs noTM barrier k value).1
      (t.luaHPsetshortstr hs noTM barrier k value).2 := by
  have outside' : ¬ InArray t.asize (.string k) := fun inArray => inArray
  have finds (i : Nat) : t.hash.luaHHgetshortstr hs k = some i ↔
      i < t.hash.sizenode ∧ (t.hash.node i).key = .key (.string k) :=
    searchChain_iff valid.hash (.string k) (fun i _ => by simp) i
  have code := retpsetcode_placed value valid outside' finds
  unfold luaHPsetshortstr
  dsimp only
  cases found : t.hash.luaHHgetshortstr hs k with
  | some n =>
    obtain ⟨inside, owner⟩ := (finds n).mp found
    rw [found] at code
    by_cases nil : (t.hash.node n).val = .nil
    · by_cases skip : (noTM && value.isNil) = true
      · rw [if_neg (by simp [nodeValue, nil, Value.isNil]), if_pos skip]
        have none := value_of_isNil.mp (Bool.and_eq_true_iff.mp skip).2
        rw [none]
        refine sets_nothing valid fun v present holds => ?_
        rw [Has, if_neg outside'] at holds
        exact present (HashPart.Holds.unique valid.hash holds ⟨n, inside, owner, nil⟩)
      · rw [if_neg (by simp [nodeValue, nil, Value.isNil]), if_neg skip, if_neg (by simp)]
        exact code
    · rw [if_pos (by simpa [nodeValue, value_of_isNil, Bool.eq_false_iff] using nil)]
      exact sets_node valid outside' inside owner
  | none =>
    have absent := absent_of_search finds found
    rw [found] at code
    rw [if_neg (by simp [nodeValue, Value.isNil])]
    by_cases skip : (noTM && value.isNil) = true
    · rw [if_pos skip]
      have none := value_of_isNil.mp (Bool.and_eq_true_iff.mp skip).2
      rw [none]
      exact sets_nothing valid fun v _ => not_has_of_absent outside' absent v
    · rw [if_neg skip]
      split_ifs
      · cases insertion : t.hash.insertkey hs (.string k) value with
        | mk success h =>
          cases success with
          | true =>
            exact (sets_inserted valid outside' (insertkey_inserted valid.hash trivial
              (fun i inside owner => absent _ ⟨i, inside, owner, rfl⟩) insertion)).invalidate
          | false =>
            obtain ⟨_, hash, nodes, shape⟩ := insertkey_full valid.hash insertion
            obtain ⟨valid₁, same₁, holds₁⟩ := same_nodes valid hash nodes shape
            exact ⟨valid₁, same₁, outside', fun v found => absent v ((holds₁ _ v).mp found)⟩
      · exact code

theorem luaHPset_placed (noTM barrier : Bool) (valid : t.Valid hs)
    (storable : Storable (normal key)) :
    Placed hs t (normal key) value (t.luaHPset hs noTM barrier key value).1
      (t.luaHPset hs noTM barrier key value).2 := by
  have generic (k : Value) (legal : Storable k) (outside' : ¬ InArray t.asize k) :
      Placed hs t k value (t.finishnodeset (t.hash.getgeneric hs k) value).1
        (t.finishnodeset (t.hash.getgeneric hs k) value).2 :=
    finishnodeset_placed valid outside' fun i => getgeneric_iff valid.hash _ legal i
  cases key with
  | nil => exact storable.elim
  | string s =>
    unfold luaHPset
    dsimp only
    split_ifs
    · exact luaHPsetshortstr_placed noTM barrier valid s
    · exact generic (.string s) trivial fun inArray => inArray
  | integer k => exact psetint_placed noTM valid k
  | float n =>
    rcases normal_float n with ⟨k, integral, same⟩ | ⟨integral, same⟩
    · rw [same]
      unfold luaHPset
      simp only [integral]
      exact psetint_placed noTM valid k
    · rw [same] at storable ⊢
      unfold luaHPset
      simp only [integral]
      exact generic (.float n) storable fun inArray => inArray
  | _ => exact generic _ trivial fun inArray => inArray

/- Where pset found nothing, the key is a new one. -/
theorem luaHFinishset_notFound (storable : Storable (normal key)) :
    t.luaHFinishset hs key value .notFound = t.luaHNewkey hs (normal key) value := by
  cases key with
  | nil => exact storable.elim
  | float n =>
    rcases normal_float n with ⟨k, integral, same⟩ | ⟨integral, same⟩
    · rw [same, luaHFinishset]
      simp only [integral]
    · rw [same] at storable ⊢
      rw [luaHFinishset]
      simp [integral, storable.2]
  | _ => rfl

theorem luaHFinishset_sets {t₁ : Table} {hres : Hres} (storable : Storable (normal key))
    (placed : Placed hs t (normal key) value hres t₁)
    (finished : t₁.luaHFinishset hs key value hres = .ok t') :
    Sets hs t (normal key) value t' := by
  cases hres with
  | ok =>
    cases finished
    exact placed
  | notFound =>
    obtain ⟨valid, same, outside', absent⟩ := placed
    rw [luaHFinishset_notFound storable] at finished
    exact (luaHNewkey_sets valid storable outside' absent finished).of_same same
  | node n =>
    obtain ⟨valid, same, outside', inside, owner⟩ := placed
    cases finished
    exact (sets_node valid outside' inside owner).of_same same
  | array i =>
    obtain ⟨valid, same, inArray, rfl⟩ := placed
    cases finished
    exact (sets_array valid inArray).of_same same

/- nil and NaN are refused. -/
theorem luaHSet_unstorable (noTM barrier : Bool) (unstorable : ¬ Storable (normal key)) :
    t.luaHSet hs noTM barrier key value =
      .error (if key = .nil then "table index is nil" else "table index is NaN") := by
  cases key with
  | nil => rfl
  | float n =>
    rcases normal_float n with ⟨k, integral, same⟩ | ⟨integral, same⟩
    · rw [same] at unstorable
      exact absurd trivial unstorable
    · rw [same] at unstorable
      have nan : n.isNaN = true := by
        by_contra number
        exact unstorable ⟨integral, by simpa using number⟩
      have search : t.hash.getgeneric hs (.float n) = none := search_nan nan _ _
      have missed : t.luaHPset hs noTM barrier (.float n) value = (.notFound, t) := by
        unfold luaHPset
        simp only [integral]
        rw [search, finishnodeset]
      rw [luaHSet, missed, if_neg nofun]
      simp [luaHFinishset, integral, nan]
  | _ => exact absurd trivial unstorable

/-- A set that succeeds is a set of the map the table is. -/
theorem luaHSet_sets (noTM barrier : Bool) (valid : t.Valid hs)
    (done : t.luaHSet hs noTM barrier key value = .ok t') :
    Storable (normal key) ∧ Sets hs t (normal key) value t' := by
  by_cases storable : Storable (normal key)
  · exact ⟨storable, luaHFinishset_sets storable
      (luaHPset_placed noTM barrier valid storable) done⟩
  · rw [luaHSet_unstorable noTM barrier storable] at done
    cases done

/-- t has so many keys that with a new one they may need a hash part that is too large: when there
   are deleted nodes, a quarter is added to what they need. -/
def Crowded (t : Table) : Prop :=
  ∃ keys : List Value, keys.Nodup ∧ (∀ k ∈ keys, Storable k ∧ ∃ v, v ≠ .nil ∧ t.Has k v) ∧
    MAXHSIZE < (keys.length + 1) + (keys.length + 1) / 4

theorem Crowded.of_same (same : t.SameContent t') (crowded : t'.Crowded) : t.Crowded := by
  obtain ⟨keys, distinct, has, large⟩ := crowded
  refine ⟨keys, distinct, fun k member => ?_, large⟩
  obtain ⟨storable, v, present, has⟩ := has k member
  exact ⟨storable, v, present, (same k v present).mp has⟩

theorem setnodevector_error {s : Nat} {e : String} (failed : setnodevector s = .error e) :
    e = tableOverflow ∧ MAXHSIZE < s := by
  unfold setnodevector at failed
  dsimp only at failed
  split_ifs at failed with zero large
  refine ⟨(Except.error.inj failed).symm, ?_⟩
  by_contra small
  have log : luaOCeillog2 s ≤ MAXHBITS :=
    Nat.clog_le_of_le_pow (Nat.le_of_not_lt small)
  rcases large with bits | size
  · omega
  · exact Nat.not_lt.mpr (Nat.pow_le_pow_right (by decide) log) size

theorem luaHResize_error {newasize nhsize : Nat} {e : String}
    (failed : t.luaHResize hs newasize nhsize = .error e) :
    e = tableOverflow ∧ (MAXASIZE < newasize ∨ MAXHSIZE < nhsize) := by
  unfold luaHResize at failed
  by_cases large : MAXASIZE < newasize
  · rw [if_pos large] at failed
    exact ⟨(Except.error.inj failed).symm, .inl large⟩
  · rw [if_neg large] at failed
    cases vector : setnodevector nhsize with
    | ok h =>
      rw [vector] at failed
      cases failed
    | error e' =>
      rw [vector] at failed
      cases Except.error.inj failed
      obtain ⟨overflow, size⟩ := setnodevector_error vector
      exact ⟨overflow, .inr size⟩

/- The only failure of a rehash is a hash part that would be too large. -/
theorem rehash_error (valid : t.Valid hs) {e : String} (failed : t.rehash hs key = .error e) :
    e = tableOverflow ∧ t.Crowded := by
  obtain ⟨overflow, large⟩ := luaHResize_error failed
  obtain ⟨asize, hsize⟩ := newSizes_bounded valid key
  refine ⟨overflow, (t.kept 0).map Prod.fst, distinct_kept valid 0, fun k member => ?_, ?_⟩
  · obtain ⟨v, member⟩ := key_kept member
    obtain ⟨present, has, _⟩ := (mem_kept valid 0 k v).mp member
    exact ⟨storable_kept valid 0 (k, v) member, v, present, has⟩
  · rw [List.length_map]
    omega

/-- When a set may overflow: for a new key that gets a value. -/
structure Overflows (t : Table) (key value : Value) : Prop where
  new : ∀ v, v ≠ .nil → ¬ t.Has key v
  value : value ≠ .nil
  crowded : t.Crowded

theorem luaHNewkey_error (valid : t.Valid hs) (outside' : ¬ InArray t.asize key)
    (absent : ∀ v, ¬ t.hash.Holds key v) {e : String}
    (failed : t.luaHNewkey hs key value = .error e) :
    e = tableOverflow ∧ t.Overflows key value := by
  unfold luaHNewkey at failed
  split_ifs at failed with nil
  cases insertion : t.hash.insertkey hs key value with
  | mk success h =>
    rw [insertion] at failed
    cases success with
    | true => cases failed
    | false =>
      obtain ⟨_, hash, nodes, shape⟩ := insertkey_full valid.hash insertion
      obtain ⟨valid₁, same₁, _⟩ := same_nodes valid hash nodes shape
      dsimp only at failed
      cases grown : ({ t with hash := h } : Table).rehash hs key with
      | ok t₂ =>
        rw [grown] at failed
        cases failed
      | error e' =>
        rw [grown] at failed
        cases Except.error.inj failed
        obtain ⟨overflow, crowded⟩ := rehash_error valid₁ grown
        exact ⟨overflow, fun v _ => not_has_of_absent outside' absent v,
          fun same => nil (value_of_isNil.mpr same), crowded.of_same same₁⟩

theorem luaHFinishset_error {t₁ : Table} {hres : Hres} (storable : Storable (normal key))
    (placed : Placed hs t (normal key) value hres t₁) {e : String}
    (failed : t₁.luaHFinishset hs key value hres = .error e) :
    e = tableOverflow ∧ t.Overflows (normal key) value := by
  cases hres with
  | notFound =>
    obtain ⟨valid, same, outside', absent⟩ := placed
    rw [luaHFinishset_notFound storable] at failed
    obtain ⟨overflow, new, some, crowded⟩ := luaHNewkey_error valid outside' absent failed
    exact ⟨overflow, fun v present has => new v present ((same _ v present).mpr has), some,
      crowded.of_same same⟩
  | _ => cases failed

/-- Why a set fails. -/
theorem luaHSet_error (noTM barrier : Bool) (valid : t.Valid hs) {e : String}
    (failed : t.luaHSet hs noTM barrier key value = .error e) :
    ¬ Storable (normal key) ∨ e = tableOverflow ∧ t.Overflows (normal key) value := by
  by_cases storable : Storable (normal key)
  · exact .inr (luaHFinishset_error storable (luaHPset_placed noTM barrier valid storable) failed)
  · exact .inl storable

theorem valid_new (hs : Hashes) : luaHNew.Valid hs := by
  obtain ⟨hash, empty, _⟩ := setnodevector_spec hs (s := 0) (h := luaHNew.hash) rfl
  exact ⟨hash, Nat.zero_le _, fun k v _ found => absurd found (empty k v)⟩

theorem luaHGet_new (hs : Hashes) (k : Value) : luaHNew.luaHGet hs k = .nil := by
  by_cases storable : Storable (normal k)
  · rw [← luaHGet_normal]
    by_contra present
    have holds := (luaHGet_iff (valid_new hs) storable present).mp rfl
    have none : ¬ InArray luaHNew.asize (normal k) := fun inArray => by
      have : arrayIndexOf (normal k) ≤ 0 := inArray.bounds.2
      have := inArray.bounds.1
      omega
    rw [Has, if_neg none] at holds
    exact (setnodevector_spec hs (s := 0) (h := luaHNew.hash) rfl).2.1 _ _ holds
  · exact luaHGet_unstorable storable

end Table

/-- A set with what the table is told of its metatable and of the collector. -/
structure Write where
  noTM : Bool
  barrier : Bool
  key : Value
  value : Value

def setAll (hs : Hashes) (t : Table) (writes : List Write) : Except String Table :=
  writes.foldlM (fun t w => t.luaHSet hs w.noTM w.barrier w.key w.value) t

/- A set of the map. -/
def put (m : Value → Value) (w : Write) : Value → Value :=
  Function.update m (Table.normal w.key) w.value

theorem setAll_spec {hs : Hashes} {t t' : Table} {m : Value → Value} (valid : t.Valid hs)
    (reads : ∀ k, t.luaHGet hs k = m (Table.normal k)) (writes : List Write)
    (run : setAll hs t writes = .ok t') :
    t'.Valid hs ∧ ∀ k, t'.luaHGet hs k = writes.foldl put m (Table.normal k) := by
  induction writes generalizing t m with
  | nil =>
    cases run
    exact ⟨valid, reads⟩
  | cons w writes ih =>
    rw [setAll, List.foldlM_cons] at run
    cases first : t.luaHSet hs w.noTM w.barrier w.key w.value with
    | error e =>
      rw [first] at run
      cases run
    | ok t₁ =>
      rw [first] at run
      obtain ⟨storable, sets⟩ := Table.luaHSet_sets w.noTM w.barrier valid first
      refine ih sets.valid (fun k => ?_) run
      rw [sets.luaHGet valid storable k, put, Function.update_apply, reads k]

/-- After any sets on a new table, every key reads as the map of the last values has it. -/
theorem reads_are_last_writes (hs : Hashes) (writes : List Write) {t : Table}
    (run : setAll hs Table.luaHNew writes = .ok t) (k : Value) :
    t.luaHGet hs k = writes.foldl put (fun _ => .nil) (Table.normal k) :=
  (setAll_spec (Table.valid_new hs) (Table.luaHGet_new hs) writes run).2 k

/- Hashes that send all strings to one node. -/
def colliding : Hashes := ⟨fun _ => 0, fun _ => 0, fun _ => 0⟩

/- Three names that collide, one of them deleted again, and two array indices. -/
def collidingWrites : List Write :=
  [⟨true, false, .string [97], .integer 1⟩, ⟨true, true, .string [98], .integer 2⟩,
    ⟨false, false, .integer 1, .boolean true⟩, ⟨true, false, .integer 2, .boolean false⟩,
    ⟨true, false, .string [97], .nil⟩, ⟨true, false, .string [99], .integer 3⟩]

/- The table of a run that succeeds. -/
def result : Except String Table → Table
  | .ok t => t
  | .error _ => Table.luaHNew

theorem eq_ok_result {run : Except String Table} (succeeds : run.toBool = true) :
    run = .ok (result run) := by
  cases run with
  | ok t => rfl
  | error e => cases succeeds

def collidingTable : Table := result (setAll colliding Table.luaHNew collidingWrites)

theorem colliding_run : setAll colliding Table.luaHNew collidingWrites = .ok collidingTable :=
  eq_ok_result (by decide +kernel)

theorem valid_colliding : collidingTable.Valid colliding :=
  (setAll_spec (Table.valid_new colliding) (m := fun _ => .nil) (Table.luaHGet_new colliding)
    collidingWrites colliding_run).1

theorem colliding_reads_are_last_writes :
    collidingTable.luaHGet colliding (.string [98]) = .integer 2 :=
  (reads_are_last_writes colliding collidingWrites colliding_run _).trans (by decide +kernel)

end Luava.Ltable
