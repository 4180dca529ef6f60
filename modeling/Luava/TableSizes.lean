import Luava.TableBorder
import Mathlib.Order.Interval.Finset.Nat

/-
What a rehash makes of the array part. Its new size is the power of 2 that takes the most integer
keys, among those of which more than a third would be filled.
-/
namespace Luava.Ltable

open HashPart Counters

namespace Table

variable {hs : Hashes} {t t' : Table} {key : Value}

/- The key of an index. -/
def indexKey (i : Nat) : Value := .integer (Int64.ofNat i)

theorem inArray_indexKey {n i : Nat} (small : i < 2 ^ 64) :
    InArray n (indexKey i) ↔ 1 ≤ i ∧ i ≤ n := by
  rw [indexKey, InArray, index_ofNat small]

theorem eq_indexKey {n : Nat} {k : Value} (inArray : InArray n k) :
    k = indexKey (arrayIndexOf k) := by
  cases k with
  | integer k =>
    have same : index (Int64.ofNat (index k)) = index k := index_ofNat (index_lt k)
    rw [arrayIndexOf, indexKey, index_inj.mp same]
  | _ => exact inArray.elim

/-- How many of the indices up to n have a value, when key gets one. -/
def filled (t : Table) (key : Value) (n : Nat) : Nat :=
  ((Finset.Icc 1 n).filter fun i => t.geti i ≠ .nil ∨ key = indexKey i).card

theorem mem_candidate {i : Nat} {k : Value} :
    i ∈ candidate k ↔ 1 ≤ i ∧ i ≤ MAXASIZE ∧ k = indexKey i := by
  unfold candidate
  by_cases inArray : InArray MAXASIZE k
  · rw [if_pos inArray, List.mem_singleton]
    constructor
    · rintro rfl
      exact ⟨inArray.bounds.1, inArray.bounds.2, eq_indexKey inArray⟩
    · rintro ⟨low, high, rfl⟩
      exact (index_ofNat (by simp only [MAXASIZE, MAXABITS] at high; omega)).symm
  · rw [if_neg inArray]
    refine iff_of_false List.not_mem_nil ?_
    rintro ⟨low, high, rfl⟩
    refine inArray ((inArray_indexKey ?_).mpr ⟨low, high⟩)
    simp only [MAXASIZE, MAXABITS] at high
    omega

theorem mem_usedUpTo (size : t.asize ≤ MAXASIZE) {i : Nat} :
    i ∈ usedUpTo t.array t.array.length ↔ 1 ≤ i ∧ i ≤ t.asize ∧ t.geti i ≠ .nil := by
  simp only [usedUpTo, List.mem_map, List.mem_filter, List.mem_range]
  constructor
  · rintro ⟨j, ⟨inside, used⟩, rfl⟩
    have empty := arraykeyisempty_iff size (i := j + 1) (by omega) inside
    refine ⟨by omega, inside, fun nil => ?_⟩
    have unused := empty.mpr nil
    rw [arraykeyisempty, arrayEntry, Nat.add_sub_cancel] at unused
    rw [unused] at used
    cases used
  · rintro ⟨low, high, present⟩
    have empty := arraykeyisempty_iff size low high
    refine ⟨i - 1, ⟨by simp only [asize] at high; omega, ?_⟩, by omega⟩
    by_contra unused
    refine present (empty.mp ?_)
    rw [arraykeyisempty, arrayEntry]
    simpa using unused

/- The integer keys of the hash part. -/
theorem mem_entryIndices (valid : t.Valid hs) {i : Nat} :
    i ∈ (entries t.hash t.hash.sizenode 0).flatMap (fun p => candidate p.1) ↔
      t.asize < i ∧ i ≤ MAXASIZE ∧ t.geti i ≠ .nil := by
  have reads (small : i < 2 ^ 64) (v : Value) (present : v ≠ .nil) :
      t.geti i = v ↔ t.Has (indexKey i) v :=
    luaHGet_iff (k := indexKey i) valid trivial present
  simp only [List.mem_flatMap, mem_candidate]
  constructor
  · rintro ⟨⟨k, v⟩, member, low, high, rfl⟩
    have small : i < 2 ^ 64 := by
      simp only [MAXASIZE, MAXABITS] at high
      omega
    obtain ⟨present, holds⟩ := (mem_entries valid.hash).mp member
    have outside' := valid.apart _ _ present holds
    have has : t.Has (indexKey i) v := by rwa [Has, if_neg outside']
    rw [inArray_indexKey small] at outside'
    exact ⟨by omega, high, ((reads small v present).mpr has).symm ▸ present⟩
  · rintro ⟨above, high, present⟩
    have small : i < 2 ^ 64 := by
      simp only [MAXASIZE, MAXABITS] at high
      omega
    have has := (reads small _ present).mp rfl
    have outside' : ¬ InArray t.asize (indexKey i) := by
      rw [inArray_indexKey small]
      omega
    rw [Has, if_neg outside'] at has
    exact ⟨(indexKey i, t.geti i), (mem_entries valid.hash).mpr ⟨present, has⟩, by omega, high, rfl⟩

theorem nodup_entryIndices (valid : t.Valid hs) :
    ((entries t.hash t.hash.sizenode 0).flatMap fun p => candidate p.1).Nodup := by
  refine List.nodup_flatMap.mpr ⟨fun p _ => ?_, ?_⟩
  · unfold candidate
    split_ifs
    · exact List.nodup_singleton _
    · exact List.nodup_nil
  · refine (List.pairwise_map.mp (distinct_entries valid.hash)).imp fun {p q} apart => ?_
    intro i one two
    exact apart ((mem_candidate.mp one).2.2.trans (mem_candidate.mp two).2.2.symm)

/- The counts are those of the indices that have a value afterwards. -/
theorem taken_counted (valid : t.Valid hs) (absent : t.luaHGet hs key = .nil) {n : Nat}
    (small : n ≤ MAXASIZE) : taken (t.countedIndices key) n = t.filled key n := by
  have member (i : Nat) : i ∈ t.countedIndices key ↔
      1 ≤ i ∧ i ≤ MAXASIZE ∧ (t.geti i ≠ .nil ∨ key = indexKey i) := by
    have size := valid.size
    rw [countedIndices, List.mem_append, List.mem_append, mem_usedUpTo size,
      mem_entryIndices valid, mem_candidate]
    have split : i ≤ t.asize ∨ t.asize < i := by omega
    grind
  have distinct : (t.countedIndices key).Nodup := by
    have used : (usedUpTo t.array t.array.length).Nodup :=
      (List.nodup_range.filter _).map fun _ _ same => Nat.succ.inj same
    have unused (i : Nat) (same : i ∈ candidate key) : t.geti i = .nil := by
      rw [(mem_candidate.mp same).2.2] at absent
      exact absent
    have extra : (candidate key).Nodup := by
      unfold candidate
      split_ifs
      · exact List.nodup_singleton _
      · exact List.nodup_nil
    refine List.nodup_append'.mpr ⟨used, List.nodup_append'.mpr ⟨nodup_entryIndices valid, extra,
      fun i entry same => ((mem_entryIndices valid).mp entry).2.2 (unused i same)⟩, ?_⟩
    intro i one two
    obtain ⟨_, inside, present⟩ := (mem_usedUpTo valid.size).mp one
    rcases List.mem_append.mp two with entry | same
    · have := ((mem_entryIndices valid).mp entry).1
      omega
    · exact present (unused i same)
  rw [taken, List.countP_eq_length_filter, filled,
    ← List.toFinset_card_of_nodup (distinct.filter _)]
  congr 1
  ext i
  simp only [List.mem_toFinset, List.mem_filter, member, decide_eq_true_eq, Finset.mem_filter,
    Finset.mem_Icc]
  constructor
  · rintro ⟨⟨low, _, value⟩, below⟩
    exact ⟨⟨low, below⟩, value⟩
  · rintro ⟨⟨low, below⟩, value⟩
    exact ⟨⟨low, below.trans small, value⟩, below⟩

/- An index that could enter the array part: that of a key behind it, or of the new key. -/
def Enters (t : Table) (key : Value) (i : Nat) : Prop :=
  t.asize < i ∧ i ≤ MAXASIZE ∧ (t.geti i ≠ .nil ∨ key = indexKey i)

/- Such indices are what is counted before the array part is. -/
theorem na_counted_iff (valid : t.Valid hs) (outside' : ¬ InArray t.asize key) :
    (t.counted key).na = 0 ↔ ∀ i, ¬ t.Enters key i := by
  have member (i : Nat) : i ∈ (entries t.hash t.hash.sizenode 0).flatMap
      (fun p => candidate p.1) ++ candidate key ↔ t.Enters key i := by
    rw [List.mem_append, mem_entryIndices valid, mem_candidate]
    constructor
    · rintro (⟨above, high, present⟩ | ⟨low, high, rfl⟩)
      · exact ⟨above, high, .inl present⟩
      · refine ⟨?_, high, .inr rfl⟩
        rw [inArray_indexKey (by simp only [MAXASIZE, MAXABITS] at high; omega)] at outside'
        omega
    · rintro ⟨above, high, present | same⟩
      · exact .inl ⟨above, high, present⟩
      · exact .inr ⟨by omega, high, same⟩
  rw [(counted_counts t key).na, List.length_eq_zero_iff, List.eq_nil_iff_forall_not_mem]
  exact forall_congr' fun i => not_congr (member i)

/-- A rehash keeps the size of the array part when no index could enter it. Else the new size is 0
   or a power of 2 that is filled by a third, and no such power takes more keys. -/
theorem rehash_optimal (valid : t.Valid hs) (outside' : ¬ InArray t.asize key)
    (absent : t.luaHGet hs key = .nil) (rehashed : t.rehash hs key = .ok t') :
    ((∀ i, ¬ t.Enters key i) → t'.asize = t.asize) ∧
      ((∃ i, t.Enters key i) →
        (t'.asize = 0 ∨ ∃ j ≤ MAXABITS, t'.asize = 2 ^ j ∧ 2 ^ j ≤ t.filled key (2 ^ j) * 3) ∧
          ∀ j ≤ MAXABITS, 2 ^ j ≤ t.filled key (2 ^ j) * 3 →
            t.filled key (2 ^ j) ≤ t.filled key t'.asize) := by
  have enters := na_counted_iff valid outside'
  obtain ⟨_, size, _⟩ := luaHResize_spec valid (Nat.le_of_add_right_le
    (newSizes_room valid outside')) rehashed
  rw [size]
  obtain ⟨_, ⟨none, sizes⟩ | ⟨some, na, best, _⟩⟩ := newSizes_spec valid key
  · rw [sizes]
    refine ⟨fun _ => rfl, ?_⟩
    rintro ⟨i, enters'⟩
    exact absurd enters' (enters.mp none i)
  · refine ⟨fun out => absurd (enters.mpr out) some, fun _ => ?_⟩
    have counted (j : Nat) (small : j ≤ MAXABITS) :
        taken (t.countedIndices key) (2 ^ j) = t.filled key (2 ^ j) :=
      taken_counted valid absent (Nat.pow_le_pow_right (by decide) small)
    have moves : na = t.filled key (t.newSizes key).1 :=
      best.moves.trans (taken_counted valid absent best.size_le)
    refine ⟨?_, fun j small worth => ?_⟩
    · rcases best.size with zero | ⟨j, small, power, worth⟩
      · exact .inl zero
      · rw [Worthwhile, counted j (by omega)] at worth
        exact .inr ⟨j, by omega, power, worth⟩
    · have most := best.most j (by omega)
      rw [Worthwhile, counted j small, moves] at most
      exact most worth

/- A third entry makes the array part grow to 4. -/
def grownTable : Table := result (collidingTable.rehash colliding (.integer 3))

/- An array part of size 4 whose entries are gone again stays when a name makes a rehash. -/
def drainingWrites : List Write :=
  collidingWrites ++ [⟨true, false, .integer 3, .boolean true⟩, ⟨true, false, .integer 1, .nil⟩,
    ⟨true, false, .integer 2, .nil⟩, ⟨true, false, .integer 3, .nil⟩]

def drainedTable : Table := result (setAll colliding luaHNew drainingWrites)

theorem valid_drained : drainedTable.Valid colliding :=
  (setAll_spec (valid_new colliding) (m := fun _ => .nil) (luaHGet_new colliding) drainingWrites
    (eq_ok_result (by decide +kernel))).1

def keptTable : Table := result (drainedTable.rehash colliding (.string [100]))

theorem grown_rehash_optimal :
    ((grownTable.asize = 0 ∨ ∃ j ≤ MAXABITS, grownTable.asize = 2 ^ j ∧
          2 ^ j ≤ collidingTable.filled (.integer 3) (2 ^ j) * 3) ∧
        ∀ j ≤ MAXABITS, 2 ^ j ≤ collidingTable.filled (.integer 3) (2 ^ j) * 3 →
          collidingTable.filled (.integer 3) (2 ^ j) ≤
            collidingTable.filled (.integer 3) grownTable.asize) ∧
      keptTable.asize = drainedTable.asize ∧ drainedTable.asize = 4 := by
  refine ⟨(rehash_optimal valid_colliding (by decide +kernel) (by decide +kernel)
    (eq_ok_result (by decide +kernel))).2 ⟨3, ?_⟩,
    (rehash_optimal valid_drained (by decide +kernel) (by decide +kernel)
      (eq_ok_result (by decide +kernel))).1 ?_, by decide +kernel⟩
  · exact ⟨by decide +kernel, by decide, .inr rfl⟩
  · exact (na_counted_iff valid_drained (by decide +kernel)).mp (by decide +kernel)

end Table

end Luava.Ltable
