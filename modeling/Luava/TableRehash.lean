import Luava.TableContents
import Mathlib.Data.Nat.Log

/-
A rehash gives a table new sizes and puts every entry into its new place. The counts it makes
beforehand are those of the entries there are, so that the new hash part has room for all of them
and for the key that made it necessary.
-/
namespace Luava.Ltable

open HashPart

namespace Table

variable {hs : Hashes} {t t' : Table} {key value : Value}

/- insertkey of a new key where there is a free place. -/
theorem insertkey_with_room (value : Value) (valid : t.hash.Valid hs) (storable : Storable key)
    (absent : ∀ v, ¬ t.hash.Holds key v) (room : 0 < t.hash.free.card) :
    Inserted hs t.hash key value (t.hash.insertkey hs key value).2 := by
  cases outcome : t.hash.insertkey hs key value with
  | mk done h =>
    cases done with
    | true =>
      exact insertkey_inserted valid storable
        (fun i inside owner => absent _ ⟨i, inside, owner, rfl⟩)
        outcome
    | false =>
      rw [(insertkey_full valid outcome).1] at room
      cases room

/-- What newcheckedkey leaves. -/
structure Checked (hs : Hashes) (t : Table) (key value : Value) (t' : Table) : Prop
    extends Sets hs t key value t' where
  asize : t'.asize = t.asize
  keys : ∀ k v, t'.hash.Holds k v → k = key ∨ ∃ v, t.hash.Holds k v
  room : t.hash.free.card ≤ t'.hash.free.card + if InArray t.asize key then 0 else 1

theorem newcheckedkey_checked (value : Value) (valid : t.Valid hs) (storable : Storable key)
    (fits : InArray t.asize key ∨ (∀ v, ¬ t.hash.Holds key v) ∧ 0 < t.hash.free.card) :
    Checked hs t key value (t.newcheckedkey hs key value) := by
  have position := keyinarray_eq valid.size key
  unfold newcheckedkey
  by_cases inArray : InArray t.asize key
  · have := inArray.bounds
    rw [if_pos inArray] at position
    rw [position, if_pos (by omega)]
    refine ⟨sets_array valid inArray, List.length_set .., fun k v found => .inr ⟨v, found⟩, ?_⟩
    exact Nat.le_add_right _ _
  · obtain ⟨absent, room⟩ := fits.resolve_left inArray
    rw [if_neg inArray] at position
    rw [position, if_neg (Nat.lt_irrefl 0)]
    have inserted := insertkey_with_room value valid.hash storable absent room
    refine ⟨sets_inserted valid inArray inserted, rfl, inserted.keys, ?_⟩
    rw [if_neg inArray]
    exact inserted.room

/- The entries of l put into t one after the other. -/
def putAll (hs : Hashes) (l : List (Value × Value)) (t : Table) : Table :=
  l.foldl (fun t p => t.newcheckedkey hs p.1 p.2) t

/- How many of them go to the hash part. -/
def outside (n : Nat) (l : List (Value × Value)) : Nat := l.countP fun p => ¬ InArray n p.1

theorem putAll_spec {l : List (Value × Value)} (valid : t.Valid hs)
    (storable : ∀ p ∈ l, Storable p.1) (distinct : (l.map Prod.fst).Nodup)
    (absent : ∀ p ∈ l, ∀ v, ¬ t.hash.Holds p.1 v) (room : outside t.asize l ≤ t.hash.free.card) :
    (putAll hs l t).Valid hs ∧ (putAll hs l t).asize = t.asize ∧
      (∀ k v, (putAll hs l t).hash.Holds k v → k ∈ l.map Prod.fst ∨ ∃ v, t.hash.Holds k v) ∧
      t.hash.free.card ≤ (putAll hs l t).hash.free.card + outside t.asize l ∧
      ∀ k v, v ≠ .nil →
        ((putAll hs l t).Has k v ↔ (k, v) ∈ l ∨ k ∉ l.map Prod.fst ∧ t.Has k v) := by
  induction l generalizing t with
  | nil => exact ⟨valid, rfl, fun k v found => .inr ⟨v, found⟩, Nat.le_refl _, by simp [putAll]⟩
  | cons p l ih =>
    obtain ⟨fresh, distinct'⟩ := List.nodup_cons.mp distinct
    have fits : InArray t.asize p.1 ∨
        (∀ v, ¬ t.hash.Holds p.1 v) ∧ 0 < t.hash.free.card := by
      by_cases inArray : InArray t.asize p.1
      · exact .inl inArray
      · refine .inr ⟨absent p List.mem_cons_self, ?_⟩
        simp only [outside, List.countP_cons, decide_not, inArray, decide_false, Bool.not_false,
          ↓reduceIte] at room
        omega
    have checked := newcheckedkey_checked p.2 valid (storable p List.mem_cons_self) fits
    set t₁ := t.newcheckedkey hs p.1 p.2 with def_t₁
    have counted : outside t.asize (p :: l) =
        outside t.asize l + if InArray t.asize p.1 then 0 else 1 := by
      by_cases inArray : InArray t.asize p.1 <;> simp [outside, inArray]
    have room' : outside t₁.asize l ≤ t₁.hash.free.card := by
      have := checked.room
      rw [checked.asize]
      omega
    have absent' (q : Value × Value) (member : q ∈ l) (v : Value) : ¬ t₁.hash.Holds q.1 v := by
      intro found
      rcases checked.keys _ _ found with same | ⟨v', before⟩
      · exact fresh (same ▸ List.mem_map.mpr ⟨q, member, rfl⟩)
      · exact absent q (List.mem_cons_of_mem _ member) v' before
    obtain ⟨valid', size', keys', room'', has'⟩ := ih checked.valid
      (fun q member => storable q (List.mem_cons_of_mem _ member)) distinct' absent' room'
    have whole : putAll hs (p :: l) t = putAll hs l t₁ := rfl
    rw [whole]
    refine ⟨valid', size'.trans checked.asize, ?_, ?_, ?_⟩
    · intro k v found
      rcases keys' k v found with later | ⟨v', before⟩
      · exact .inl (List.mem_cons_of_mem _ later)
      · rcases checked.keys k v' before with rfl | earlier
        · exact .inl List.mem_cons_self
        · exact .inr earlier
    · have := checked.room
      rw [checked.asize] at room''
      omega
    · intro k v present
      rw [has' k v present]
      by_cases same : k = p.1
      · subst same
        have own : t₁.Has p.1 v ↔ v = p.2 := by
          rcases checked.own with holds | ⟨nil, none⟩
          · refine ⟨fun found => found.unique checked.valid holds, ?_⟩
            rintro rfl
            exact holds
          · exact iff_of_false (none v present) fun same => present (same.trans nil)
        have notin : (p.1, v) ∉ l := fun member => fresh (List.mem_map.mpr ⟨_, member, rfl⟩)
        simp [own, notin, fresh, Prod.ext_iff]
      · have other : (k, v) ≠ p := fun equal => same (congrArg Prod.fst equal)
        rw [checked.others k v same present]
        simp [same, other]

end Table

/-- The entries in the nodes from j on. -/
def entries (h : HashPart) (left j : Nat) : List (Value × Value) :=
  ((List.range' j left).filter fun i => !(h.node i).val.isNil).map fun i =>
    ((h.node i).key.value, (h.node i).val)

/-- The entries of an array part from index i on. -/
def sliceEntries : List Value → Nat → List (Value × Value)
  | [], _ => []
  | v :: vanishing, i =>
    if v.isNil then sliceEntries vanishing (i + 1)
    else (.integer (Int64.ofNat i + 1), v) :: sliceEntries vanishing (i + 1)

section Entries

variable {hs : Hashes} {h : HashPart} {k v : Value}

theorem mem_entries (valid : h.Valid hs) :
    (k, v) ∈ entries h h.sizenode 0 ↔ v ≠ .nil ∧ h.Holds k v := by
  simp only [entries, List.mem_map, List.mem_filter, List.mem_range'_1, Prod.mk.injEq,
    Bool.not_eq_true', Nat.zero_add, Nat.zero_le, true_and]
  constructor
  · rintro ⟨i, ⟨inside, live⟩, rfl, rfl⟩
    have present : (h.node i).val ≠ .nil := by
      intro nil
      simp [nil, Value.isNil] at live
    refine ⟨present, i, inside, ?_, rfl⟩
    cases owner : (h.node i).key with
    | key k => rfl
    | _ => exact absurd (valid.empty i inside fun k owner' => by simp [owner] at owner') present
  · rintro ⟨present, i, inside, owner, rfl⟩
    refine ⟨i, ⟨inside, ?_⟩, by rw [owner, NodeKey.value], rfl⟩
    cases same : (h.node i).val <;> first | rfl | exact absurd same present

theorem distinct_entries (valid : h.Valid hs) :
    ((entries h h.sizenode 0).map Prod.fst).Nodup := by
  rw [entries, List.map_map]
  refine List.Nodup.map_on ?_ ((List.nodup_range' ..).filter _)
  intro i left j right same
  simp only [List.mem_filter, List.mem_range'_1, Bool.not_eq_true', Nat.zero_add, Nat.zero_le,
    true_and] at left right
  have owner (i : Nat) (inside : i < h.sizenode) (live : (h.node i).val.isNil = false) :
      (h.node i).key = .key (h.node i).key.value := by
    cases owner : (h.node i).key with
    | key k => rfl
    | _ =>
      rw [valid.empty i inside fun k owner' => by simp [owner] at owner'] at live
      cases live
  simp only [Function.comp_apply] at same
  exact valid.distinct i left.1 j right.1 _ (owner i left.1 left.2)
    (same ▸ owner j right.1 right.2)

theorem mem_sliceEntries {array : List Value} {i : Nat} (small : i + array.length ≤ 2 ^ 32) :
    (k, v) ∈ sliceEntries array i ↔ v ≠ .nil ∧ ∃ j, array[j]? = some v ∧
      k = .integer (Int64.ofNat (i + j) + 1) := by
  induction array generalizing i with
  | nil => simp [sliceEntries]
  | cons w array ih =>
    rw [List.length_cons] at small
    have later := ih (i := i + 1) (by omega)
    have split : (∃ j, (w :: array)[j]? = some v ∧ k = .integer (Int64.ofNat (i + j) + 1)) ↔
        w = v ∧ k = .integer (Int64.ofNat i + 1) ∨
          ∃ j, array[j]? = some v ∧ k = .integer (Int64.ofNat (i + 1 + j) + 1) := by
      constructor
      · rintro ⟨j, found, rfl⟩
        cases j with
        | zero => exact .inl ⟨by simpa using found, rfl⟩
        | succ j =>
          refine .inr ⟨j, by simpa using found, ?_⟩
          rw [show i + (j + 1) = i + 1 + j by omega]
      · rintro (⟨rfl, rfl⟩ | ⟨j, found, rfl⟩)
        · exact ⟨0, rfl, rfl⟩
        · exact ⟨j + 1, by simpa using found, by rw [show i + (j + 1) = i + 1 + j by omega]⟩
    rw [sliceEntries, split]
    by_cases nil : w = .nil
    · rw [if_pos (value_of_isNil.mpr nil), later]
      constructor
      · rintro ⟨present, rest⟩
        exact ⟨present, .inr rest⟩
      · rintro ⟨present, ⟨rfl, _⟩ | rest⟩
        · exact absurd nil present
        · exact ⟨present, rest⟩
    · rw [if_neg fun isNil => nil (value_of_isNil.mp isNil), List.mem_cons, later]
      constructor
      · rintro (same | ⟨present, rest⟩)
        · obtain ⟨rfl, rfl⟩ := Prod.mk.inj same
          exact ⟨nil, .inl ⟨rfl, rfl⟩⟩
        · exact ⟨present, .inr rest⟩
      · rintro ⟨present, ⟨rfl, rfl⟩ | rest⟩
        · exact .inl rfl
        · exact .inr ⟨present, rest⟩

theorem index_of_sliceEntry {array : List Value} {i : Nat} (small : i + array.length ≤ 2 ^ 32)
    (member : (k, v) ∈ sliceEntries array i) :
    InArray (i + array.length) k ∧ i < arrayIndexOf k ∧
      array[arrayIndexOf k - 1 - i]? = some v := by
  obtain ⟨_, j, found, rfl⟩ := (mem_sliceEntries small).mp member
  obtain ⟨inside, _⟩ := List.getElem?_eq_some_iff.mp found
  have position : index (Int64.ofNat (i + j) + 1) = i + j + 1 := index_succ (by omega)
  simp only [InArray, arrayIndexOf, position]
  refine ⟨by omega, by omega, ?_⟩
  rw [show i + j + 1 - 1 - i = j by omega, found]

theorem distinct_sliceEntries {array : List Value} {i : Nat} (small : i + array.length ≤ 2 ^ 32) :
    ((sliceEntries array i).map Prod.fst).Nodup := by
  induction array generalizing i with
  | nil => exact List.nodup_nil
  | cons w array ih =>
    rw [List.length_cons] at small
    have later := ih (i := i + 1) (by omega)
    rw [sliceEntries]
    split_ifs
    · exact later
    · rw [List.map_cons, List.nodup_cons]
      refine ⟨fun member => ?_, later⟩
      obtain ⟨⟨k, v⟩, member, same⟩ := List.mem_map.mp member
      have above := (index_of_sliceEntry (by omega) member).2.1
      have first : arrayIndexOf k = i + 1 := by
        rw [show k = _ from same]
        exact index_succ (by omega)
      omega

theorem length_sliceEntries (array : List Value) (i : Nat) :
    (sliceEntries array i).length = array.countP fun v => !v.isNil := by
  induction array generalizing i with
  | nil => rfl
  | cons w array ih =>
    rw [sliceEntries, List.countP_cons]
    by_cases nil : w.isNil = true <;> simp [nil, ih]

end Entries

namespace Table

variable {hs : Hashes} {t t' : Table}

/- The loops of a resize put entries into the table one after the other. -/
theorem reinserthash_eq (old : HashPart) (left j : Nat) (t : Table) :
    reinserthash hs old left j t = putAll hs (entries old left j) t := by
  induction left generalizing j t with
  | zero => rfl
  | succ left ih =>
    rw [reinserthash, ih, entries, entries, List.range'_succ, List.filter_cons]
    by_cases nil : (old.node j).val.isNil = true <;> simp [nil, putAll]

theorem reinsertOldSlice_eq (vanishing : List Value) (i : Nat) (h : HashPart) :
    reinsertOldSlice hs vanishing i h =
      (sliceEntries vanishing i).foldl (fun h p => (h.insertkey hs p.1 p.2).2) h := by
  induction vanishing generalizing i h with
  | nil => rfl
  | cons v vanishing ih =>
    rw [reinsertOldSlice, ih, sliceEntries]
    by_cases nil : v.isNil = true <;> simp [nil]

theorem putAll_outside {l : List (Value × Value)} (size : t.asize ≤ MAXASIZE)
    (out : ∀ p ∈ l, ¬ InArray t.asize p.1) :
    putAll hs l t =
      { t with hash := l.foldl (fun h p => (h.insertkey hs p.1 p.2).2) t.hash } := by
  induction l generalizing t with
  | nil => rfl
  | cons p l ih =>
    have put : t.newcheckedkey hs p.1 p.2 =
        { t with hash := (t.hash.insertkey hs p.1 p.2).2 } := by
      rw [newcheckedkey, keyinarray_eq size, if_neg (out p List.mem_cons_self),
        if_neg (Nat.lt_irrefl 0)]
    have whole : putAll hs (p :: l) t = putAll hs l (t.newcheckedkey hs p.1 p.2) := rfl
    rw [whole, put]
    exact ih (t := { t with hash := (t.hash.insertkey hs p.1 p.2).2 }) size
      fun q member => out q (List.mem_cons_of_mem _ member)

/- What luaH_resize puts back, and what it puts it into. -/
def kept (t : Table) (newasize : Nat) : List (Value × Value) :=
  sliceEntries (t.array.drop newasize) newasize ++ entries t.hash t.hash.sizenode 0

def emptied (t : Table) (newasize : Nat) (h : HashPart) : Table :=
  { t with
    array := t.array.take newasize ++ List.replicate (newasize - t.asize) .nil
    lenhint := newasize / 2
    hash := h }

theorem asize_emptied (t : Table) (newasize : Nat) (h : HashPart) :
    (t.emptied newasize h).asize = newasize := by
  simp only [emptied, asize, List.length_append, List.length_take, List.length_replicate]
  omega

theorem luaHResize_eq {newasize nhsize : Nat} (size : t.asize ≤ MAXASIZE)
    (resized : t.luaHResize hs newasize nhsize = .ok t') :
    newasize ≤ MAXASIZE ∧ ∃ h, setnodevector nhsize = .ok h ∧
      t' = putAll hs (t.kept newasize) (t.emptied newasize h) := by
  unfold luaHResize at resized
  by_cases large : MAXASIZE < newasize
  · rw [if_pos large] at resized
    cases resized
  · rw [if_neg large] at resized
    cases vector : setnodevector nhsize with
    | error e =>
      rw [vector] at resized
      cases resized
    | ok h =>
      rw [vector] at resized
      refine ⟨by omega, h, rfl, ?_⟩
      have out : ∀ p ∈ sliceEntries (t.array.drop newasize) newasize,
          ¬ InArray (t.emptied newasize h).asize p.1 := by
        rintro ⟨k, v⟩ member inArray
        rw [asize_emptied] at inArray
        have below : arrayIndexOf k ≤ newasize := inArray.bounds.2
        have above :=
          (index_of_sliceEntry (by simp [asize, MAXASIZE, MAXABITS] at *; omega) member).2.1
        omega
      have slice : putAll hs (sliceEntries (t.array.drop newasize) newasize)
          (t.emptied newasize h) =
          t.emptied newasize (reinsertOldSlice hs (t.array.drop newasize) newasize h) := by
        rw [putAll_outside (by rw [asize_emptied]; omega) out, reinsertOldSlice_eq]
        rfl
      have whole : putAll hs (t.kept newasize) (t.emptied newasize h) =
          putAll hs (entries t.hash t.hash.sizenode 0)
            (putAll hs (sliceEntries (t.array.drop newasize) newasize) (t.emptied newasize h)) :=
        List.foldl_append
      rw [whole, slice, ← reinserthash_eq]
      exact (Except.ok.inj resized).symm

/- The new hash part is empty and large enough. -/
theorem setnodevector_spec (hs : Hashes) {s : Nat} {h : HashPart}
    (made : setnodevector s = .ok h) :
    h.Valid hs ∧ (∀ k v, ¬ h.Holds k v) ∧ s ≤ h.free.card := by
  have empty (h : HashPart) (node : ∀ i, (h.node i).next = 0 ∧ (h.node i).val = .nil ∧
      ∀ k, (h.node i).key ≠ .key k)
      (used : h.haslastfree = true → h.lastfree = h.sizenode)
      (dummy : h.isdummy = true → h.lsizenode = 0)
      (dead : ∀ i < h.sizenode, (h.node i).key = .dead ↔ h.isdummy = true) :
      h.Valid hs ∧ ∀ k v, ¬ h.Holds k v := by
    have links : h.link = fun _ => none := by
      funext i
      simp [link, (node i).1]
    have homes : h.home hs = fun _ => none := by
      funext i
      unfold home
      cases key : (h.node i).key with
      | key k => exact absurd key ((node i).2.2 k)
      | _ => exact ite_self _
    refine ⟨⟨?_, ?_, ?_, ?_, ?_, ?_, dummy, dead⟩, ?_⟩
    · rw [links, homes]
      refine ⟨fun a => ⟨[a], .last rfl⟩, ?_, ?_, ?_, ?_⟩
      all_goals
        intros
        contradiction
    · intro i inside
      rw [(node i).1]
      omega
    · exact fun i _ _ _ k owner => absurd owner ((node i).2.2 k)
    · exact fun i _ k owner => absurd owner ((node i).2.2 k)
    · exact fun i _ _ => (node i).2.1
    · intro has
      rw [used has]
      exact ⟨Nat.le_refl _, fun i inside above => by omega⟩
    · rintro k v ⟨i, _, owner, _⟩
      exact (node i).2.2 k owner
  by_cases zero : s = 0
  · subst zero
    cases made
    have dummy := empty ⟨0, fun _ => dummynode, 0, true⟩
      (fun _ => ⟨rfl, rfl, fun _ owner => by cases owner⟩) (fun has => by cases has)
      (fun _ => rfl) fun _ _ => iff_of_true rfl rfl
    exact ⟨dummy.1, dummy.2, Nat.zero_le _⟩
  · rw [setnodevector, if_neg zero] at made
    dsimp only at made
    by_cases large : MAXHBITS < luaOCeillog2 s ∨ MAXHSIZE < 2 ^ luaOCeillog2 s
    · rw [if_pos large] at made
      cases made
    · rw [if_neg large] at made
      cases made
      have vector := empty
        ⟨luaOCeillog2 s, fun _ => ⟨.nil, .nil, 0⟩, 2 ^ luaOCeillog2 s, false⟩
        (fun _ => ⟨rfl, rfl, fun _ owner => by cases owner⟩) (fun _ => rfl)
        (fun isdummy => by cases isdummy) fun _ _ => by simp
      refine ⟨vector.1, vector.2, ?_⟩
      simp only [free, sizenode, Finset.filter_true, Finset.card_range]
      exact Nat.le_pow_clog (by decide) s

/-- t' holds what t holds. -/
def SameContent (t t' : Table) : Prop := ∀ k v, v ≠ .nil → (t'.Has k v ↔ t.Has k v)

theorem drop_small (valid : t.Valid hs) {newasize : Nat} (fits : newasize ≤ t.asize) :
    newasize + (t.array.drop newasize).length ≤ 2 ^ 32 := by
  have := valid.size
  simp only [asize, MAXASIZE, MAXABITS, List.length_drop] at *
  omega

theorem mem_slice (valid : t.Valid hs) {newasize : Nat} {k v : Value} :
    (k, v) ∈ sliceEntries (t.array.drop newasize) newasize ↔
      v ≠ .nil ∧ InArray t.asize k ∧ ¬ InArray newasize k ∧ t.arrayEntry (arrayIndexOf k) = v := by
  by_cases fits : newasize ≤ t.asize
  · have small := drop_small valid fits
    have size : newasize + (t.array.drop newasize).length = t.asize := by
      simp only [asize] at *
      rw [List.length_drop]
      omega
    constructor
    · intro member
      have present := ((mem_sliceEntries small).mp member).1
      obtain ⟨inArray, above, found⟩ := index_of_sliceEntry small member
      rw [size] at inArray
      refine ⟨present, inArray, fun inNew => ?_, ?_⟩
      · have := inNew.bounds
        omega
      · rw [List.getElem?_drop] at found
        rw [arrayEntry, List.getD_eq_getElem?_getD,
          show arrayIndexOf k - 1 = newasize + (arrayIndexOf k - 1 - newasize) by omega, found]
        rfl
    · rintro ⟨present, inArray, outside, rfl⟩
      refine (mem_sliceEntries small).mpr ⟨present, ?_⟩
      cases k with
      | integer k =>
        have low : 1 ≤ index k := inArray.1
        have high : index k ≤ t.asize := inArray.2
        have above : newasize < index k := by
          by_contra below
          exact outside ⟨low, by omega⟩
        refine ⟨index k - 1 - newasize, ?_, ?_⟩
        · rw [List.getElem?_drop,
            show newasize + (index k - 1 - newasize) = index k - 1 by omega]
          simp only [asize] at high
          have bound : index k - 1 < t.array.length := by omega
          simp only [arrayEntry, arrayIndexOf, List.getD_eq_getElem?_getD,
            List.getElem?_eq_getElem bound, Option.getD_some]
        · rw [Value.integer.injEq, ← index_inj, index_succ]
          · omega
          · have := valid.size
            simp only [MAXASIZE, MAXABITS] at this
            omega
      | _ => exact inArray.elim
  · rw [List.drop_eq_nil_of_le (by simp only [asize] at fits; omega)]
    refine iff_of_false (List.not_mem_nil) ?_
    rintro ⟨_, inArray, outside, _⟩
    have := inArray.bounds
    refine outside ?_
    cases k with
    | integer k => exact ⟨inArray.1, by have := inArray.2; omega⟩
    | _ => exact inArray

theorem mem_kept (valid : t.Valid hs) (newasize : Nat) (k v : Value) :
    (k, v) ∈ t.kept newasize ↔ v ≠ .nil ∧ t.Has k v ∧
      ¬ (InArray t.asize k ∧ InArray newasize k) := by
  rw [kept, List.mem_append, mem_slice valid, mem_entries valid.hash, Has]
  by_cases inArray : InArray t.asize k
  · have absent (present : v ≠ .nil) : ¬ t.hash.Holds k v := fun found =>
      valid.apart k v present found inArray
    simp only [inArray, true_and, if_true]
    constructor
    · rintro (⟨present, outside, same⟩ | ⟨present, found⟩)
      · exact ⟨present, same, outside⟩
      · exact absurd found (absent present)
    · rintro ⟨present, same, outside⟩
      exact .inl ⟨present, outside, same⟩
  · simp only [inArray, false_and, and_false, false_or, if_false, not_false_eq_true, and_true]

theorem distinct_kept (valid : t.Valid hs) (newasize : Nat) :
    ((t.kept newasize).map Prod.fst).Nodup := by
  have slice : ((sliceEntries (t.array.drop newasize) newasize).map Prod.fst).Nodup := by
    by_cases fits : newasize ≤ t.asize
    · exact distinct_sliceEntries (drop_small valid fits)
    · rw [List.drop_eq_nil_of_le (by simp only [asize] at fits; omega)]
      exact List.nodup_nil
  rw [kept, List.map_append]
  refine slice.append (distinct_entries valid.hash) ?_
  intro k left right
  obtain ⟨⟨k, v⟩, member, rfl⟩ := List.mem_map.mp left
  obtain ⟨⟨k', v'⟩, member', same⟩ := List.mem_map.mp right
  have same : k' = k := same
  subst same
  obtain ⟨present, found⟩ := (mem_entries valid.hash).mp member'
  exact valid.apart _ _ present found ((mem_slice valid).mp member).2.1

theorem storable_kept (valid : t.Valid hs) (newasize : Nat) :
    ∀ p ∈ t.kept newasize, Storable p.1 := by
  rintro ⟨k, v⟩ member
  obtain ⟨_, holds, _⟩ := (mem_kept valid _ _ _).mp member
  unfold Has at holds
  split_ifs at holds with inArray
  · cases k <;> first | exact trivial | exact inArray.elim
  · obtain ⟨i, inside, owner, _⟩ := holds
    exact valid.hash.storable i inside k owner

theorem key_kept {newasize : Nat} {k : Value} (member : k ∈ (t.kept newasize).map Prod.fst) :
    ∃ v, (k, v) ∈ t.kept newasize := by
  obtain ⟨⟨k', v⟩, member, same⟩ := List.mem_map.mp member
  have same : k' = k := same
  exact ⟨v, same ▸ member⟩

theorem arrayEntry_emptied {newasize i : Nat} (h : HashPart) (low : 1 ≤ i) (high : i ≤ newasize) :
    (t.emptied newasize h).arrayEntry i = if i ≤ t.asize then t.arrayEntry i else .nil := by
  simp only [arrayEntry, emptied, asize, List.getD_eq_getElem?_getD]
  split_ifs with old
  · rw [List.getElem?_append_left (by rw [List.length_take]; omega),
      List.getElem?_take_of_lt (by omega)]
  · rw [List.getElem?_append_right (by rw [List.length_take]; omega), List.length_take,
      List.getElem?_replicate, if_pos (by omega)]
    rfl

/- Before anything is put back, the table has what stays in the array part. -/
theorem has_emptied {newasize : Nat} {h : HashPart} (empty : ∀ k v, ¬ h.Holds k v) {k v : Value}
    (present : v ≠ .nil) :
    (t.emptied newasize h).Has k v ↔
      InArray t.asize k ∧ InArray newasize k ∧ t.arrayEntry (arrayIndexOf k) = v := by
  rw [Has, asize_emptied]
  by_cases inNew : InArray newasize k
  · obtain ⟨low, high⟩ := inNew.bounds
    have position : InArray t.asize k ↔ arrayIndexOf k ≤ t.asize := by
      cases k with
      | integer k => exact ⟨fun inOld => inOld.2, fun below => ⟨low, below⟩⟩
      | _ => exact inNew.elim
    rw [if_pos inNew, arrayEntry_emptied h low high, position]
    by_cases inOld : arrayIndexOf k ≤ t.asize
    · simp [inOld, inNew]
    · simp [inOld, present.symm]
  · rw [if_neg inNew]
    exact iff_of_false (empty k v) fun both => inNew both.2.1

/-- A resize to a hash part with room for what does not fit into the array part keeps the content,
   and leaves the room that is not needed. -/
theorem luaHResize_spec (valid : t.Valid hs) {newasize nhsize : Nat}
    (room : outside newasize (t.kept newasize) ≤ nhsize)
    (resized : t.luaHResize hs newasize nhsize = .ok t') :
    t'.Valid hs ∧ t'.asize = newasize ∧ t.SameContent t' ∧
      (∀ k, (∀ v, ¬ t'.hash.Holds k v) ∨ ∃ v, v ≠ .nil ∧ t.Has k v) ∧
      nhsize ≤ t'.hash.free.card + outside newasize (t.kept newasize) := by
  obtain ⟨small, h, made, rfl⟩ := luaHResize_eq valid.size resized
  obtain ⟨hash, empty, free⟩ := setnodevector_spec hs made
  have size := asize_emptied t newasize h
  have start : (t.emptied newasize h).Valid hs :=
    ⟨hash, by rwa [size], fun k v _ found => absurd found (empty k v)⟩
  obtain ⟨valid', size', keys, room', content⟩ := putAll_spec start
    (storable_kept valid newasize) (distinct_kept valid newasize)
    (fun p _ v => empty p.1 v) (by rw [size]; exact room.trans free)
  refine ⟨valid', size'.trans size, ?_, ?_, ?_⟩
  · intro k v present
    have mem := mem_kept valid newasize k v
    rw [content k v present, has_emptied empty present, mem]
    constructor
    · rintro (⟨_, holds, _⟩ | ⟨_, inOld, _, same⟩)
      · exact holds
      · rwa [Has, if_pos inOld]
    · intro holds
      by_cases both : InArray t.asize k ∧ InArray newasize k
      · have entry : t.arrayEntry (arrayIndexOf k) = v := by rwa [Has, if_pos both.1] at holds
        refine .inr ⟨fun member => ?_, both.1, both.2, entry⟩
        obtain ⟨v', member⟩ := key_kept member
        exact ((mem_kept valid _ _ _).mp member).2.2 both
      · exact .inl ⟨present, holds, both⟩
  · intro k
    by_cases absent : ∀ v, ¬ (putAll hs (t.kept newasize) (t.emptied newasize h)).hash.Holds k v
    · exact .inl absent
    · obtain ⟨v, found⟩ := not_forall_not.mp absent
      rcases keys k v found with member | ⟨v', before⟩
      · obtain ⟨v', member⟩ := key_kept member
        obtain ⟨present, holds, _⟩ := (mem_kept valid _ _ _).mp member
        exact .inr ⟨v', present, holds⟩
      · exact absurd before (empty k v')
  · rw [size] at room'
    exact Nat.le_trans free room'

end Table

end Luava.Ltable
