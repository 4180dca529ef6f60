import Luava.TableRehash

/-
The counts of a rehash, and the array size that is computed from them.
-/
namespace Luava.Ltable

open HashPart

/- The index of a key that could go to an array part. -/
def candidate (k : Value) : List Nat := if InArray MAXASIZE k then [arrayIndexOf k] else []

/- The used entries of an array part up to i. -/
def usedUpTo (array : List Value) (i : Nat) : List Nat :=
  ((List.range i).filter fun j => !(array.getD j .nil).isNil).map (· + 1)

namespace Counters

/-- The counters have counted n keys, among them those with the array indices c. -/
structure Counts (ct : Counters) (n : Nat) (c : List Nat) : Prop where
  total : ct.total = n
  na : ct.na = c.length
  nums : ∀ lg, ct.nums lg = c.countP fun k => luaOCeillog2 k = lg

variable {ct : Counters} {n : Nat} {c : List Nat}

theorem countint_counts (counts : ct.Counts n c) (k : Int64) :
    (countint k ct).Counts n (candidate (.integer k) ++ c) := by
  have position : arrayindex k = if InArray MAXASIZE (.integer k) then index k else 0 :=
    checkrange_eq (Nat.le_refl _)
  unfold countint candidate
  by_cases inArray : InArray MAXASIZE (.integer k)
  · have low : 1 ≤ index k := inArray.1
    rw [position, if_pos inArray, if_pos inArray]
    dsimp only
    rw [if_pos (by omega)]
    refine ⟨counts.total, ?_, fun lg => ?_⟩
    · simp [counts.na]
    · simp only [List.cons_append, List.nil_append, List.countP_cons, arrayIndexOf, ← counts.nums]
      by_cases same : luaOCeillog2 (index k) = lg
      · simp [same]
      · simp [same, Function.update_of_ne (Ne.symm same)]
  · rw [position, if_neg inArray, if_neg inArray]
    exact counts

theorem numusehash_counts (h : HashPart) (i : Nat) (counts : ct.Counts n c) :
    (numusehash h i ct).Counts (n + (entries h i 0).length)
      ((entries h i 0).flatMap (fun p => candidate p.1) ++ c) := by
  induction i generalizing ct n c with
  | zero => exact counts
  | succ i ih =>
    have last : entries h (i + 1) 0 = entries h i 0 ++
        if (h.node i).val.isNil then [] else [((h.node i).key.value, (h.node i).val)] := by
      rw [entries, entries, List.range'_1_concat, List.filter_append, List.map_append]
      by_cases nil : (h.node i).val.isNil = true <;> simp [nil]
    rw [numusehash, last]
    dsimp only
    by_cases nil : (h.node i).val.isNil = true
    · rw [if_pos nil, if_pos nil, List.append_nil]
      exact ih ⟨counts.total, counts.na, counts.nums⟩
    · rw [if_neg nil, if_neg nil, List.length_append, List.flatMap_append, List.append_assoc,
        List.length_singleton, List.flatMap_singleton, ← Nat.add_assoc, Nat.add_right_comm]
      have counted : Counts { ct with total := ct.total + 1 } (n + 1) c :=
        ⟨congrArg (· + 1) counts.total, counts.na, counts.nums⟩
      split
      · next k owner =>
        rw [owner, NodeKey.value]
        exact ih (countint_counts counted k)
      · next other =>
        have none : candidate (h.node i).key.value = [] := by
          unfold candidate
          rw [if_neg]
          intro inArray
          cases owner : (h.node i).key with
          | key k =>
            rw [owner] at inArray
            cases k with
            | integer k => exact other k owner
            | _ => exact inArray.elim
          | _ =>
            rw [owner] at inArray
            exact inArray.elim
        rw [none, List.nil_append]
        exact ih counted

theorem slice_eq (array : List Value) {i lim : Nat} (bound : lim ≤ array.length) :
    slice array i lim = (List.range' i (lim - i)).map fun j => array.getD j .nil := by
  refine List.ext_getElem ?_ fun j left right => ?_
  · simp [slice, bound]
  · simp only [slice, List.length_drop, List.length_take] at left
    have inside : i + j < array.length := by omega
    simp [slice, List.getD_eq_getElem?_getD, List.getElem?_eq_getElem inside]

/- The entries of one more slice. -/
def newlyUsed (array : List Value) (i lim : Nat) : List Nat :=
  ((List.range' i (lim - i)).filter fun j => !(array.getD j .nil).isNil).map (· + 1)

theorem usedUpTo_append (array : List Value) {i lim : Nat} (order : i ≤ lim) :
    usedUpTo array lim = usedUpTo array i ++ newlyUsed array i lim := by
  rw [usedUpTo, usedUpTo, newlyUsed, ← List.map_append, ← List.filter_append,
    List.range_eq_range', List.range_eq_range']
  have joined : List.range' 0 i ++ List.range' (0 + i) (lim - i) = List.range' 0 (i + (lim - i)) :=
    List.range'_append_1
  rw [Nat.zero_add, Nat.add_sub_cancel' order] at joined
  rw [joined]

theorem length_newlyUsed (array : List Value) {i lim : Nat} (bound : lim ≤ array.length) :
    (newlyUsed array i lim).length = (slice array i lim).countP (!·.isNil) := by
  rw [newlyUsed, List.length_map, slice_eq array bound, List.countP_map,
    List.countP_eq_length_filter]
  rfl

theorem mem_newlyUsed {array : List Value} {i lim k : Nat} (member : k ∈ newlyUsed array i lim) :
    i < k ∧ k ≤ lim := by
  obtain ⟨j, inside, rfl⟩ := List.mem_map.mp member
  have := (List.mem_filter.mp inside).1
  rw [List.mem_range'_1] at this
  omega

/- The array indices between two powers of 2. -/
theorem ceillog2_eq_iff {k : Nat} (lg : Nat) (positive : 1 ≤ k) :
    luaOCeillog2 k = lg ↔ 2 ^ lg / 2 < k ∧ k ≤ 2 ^ lg := by
  unfold luaOCeillog2
  have below (m : Nat) : Nat.clog 2 k ≤ m ↔ k ≤ 2 ^ m :=
    Nat.clog_le_iff_le_pow (by decide)
  cases lg with
  | zero =>
    rw [← Nat.le_zero, below]
    omega
  | succ lg =>
    have := below lg
    have := below (lg + 1)
    have : 2 ^ (lg + 1) / 2 = 2 ^ lg := by
      rw [Nat.pow_succ]
      omega
    omega

/- The slices that were counted end at i, the next one is lg. -/
theorem numuseslices_counts {array : List Value} (small : array.length ≤ MAXASIZE)
    {slices lg i : Nat} (left : slices + lg = MAXABITS + 1)
    (reached : i = min (2 ^ lg / 2) array.length)
    (counts : ct.Counts (n + (usedUpTo array i).length) (usedUpTo array i ++ c)) :
    (numuseslices array slices lg i ct).Counts (n + (usedUpTo array array.length).length)
      (usedUpTo array array.length ++ c) := by
  induction slices generalizing lg i ct with
  | zero =>
    have last : lg = MAXABITS + 1 := by omega
    subst last
    have whole : i = array.length := by
      simp only [MAXASIZE, MAXABITS] at *
      omega
    exact whole ▸ counts
  | succ slices ih =>
    have half : 2 ^ (lg + 1) / 2 = 2 ^ lg := by
      rw [Nat.pow_succ]
      omega
    rw [numuseslices]
    dsimp only
    by_cases done : array.length ≤ i ∧ array.length < 2 ^ lg
    · rw [if_pos done]
      have whole : i = array.length := by omega
      exact whole ▸ counts
    · rw [if_neg done]
      set lim := min (2 ^ lg) array.length with def_lim
      have order : i ≤ lim := by omega
      have bound : lim ≤ array.length := by omega
      rw [max_eq_right order]
      refine ih (by omega) (by rw [half]) ⟨?_, ?_, fun lg' => ?_⟩
      · dsimp only
        rw [counts.total, usedUpTo_append array order, List.length_append,
          length_newlyUsed array bound]
        omega
      · dsimp only
        rw [counts.na, usedUpTo_append array order, List.length_append, List.length_append,
          List.length_append, length_newlyUsed array bound]
        omega
      · have new : (newlyUsed array i lim).countP (fun k => luaOCeillog2 k = lg') =
            if lg' = lg then (slice array i lim).countP (!·.isNil) else 0 := by
          have of_slice (k : Nat) (member : k ∈ newlyUsed array i lim) : luaOCeillog2 k = lg := by
            have := mem_newlyUsed member
            exact (ceillog2_eq_iff _ (by omega)).mpr (by omega)
          split_ifs with same
          · rw [← length_newlyUsed array bound, List.countP_eq_length]
            intro k member
            simpa [same] using of_slice k member
          · rw [List.countP_eq_zero]
            intro k member
            simpa [of_slice k member] using Ne.symm same
        dsimp only
        rw [usedUpTo_append array order, List.countP_append, List.countP_append, new]
        have before := counts.nums lg'
        rw [List.countP_append] at before
        by_cases same : lg' = lg
        · subst same
          rw [Function.update_self, if_pos rfl, before]
          omega
        · rw [Function.update_of_ne same, if_neg same, before]
          omega

theorem numusearray_counts (array : List Value) (small : array.length ≤ MAXASIZE)
    (counts : ct.Counts n c) :
    (numusearray array ct).Counts (n + (usedUpTo array array.length).length)
      (usedUpTo array array.length ++ c) :=
  numuseslices_counts small rfl (by simp) (by simpa [usedUpTo] using counts)

/- How many of the indices an array part of size m would take. -/
def taken (c : List Nat) (m : Nat) : Nat := c.countP fun k => k ≤ m

theorem taken_mono (c : List Nat) {m m' : Nat} (order : m ≤ m') : taken c m ≤ taken c m' :=
  List.countP_mono_left fun k _ below => by
    simp only [decide_eq_true_eq] at below ⊢
    omega

theorem taken_le_length (c : List Nat) (m : Nat) : taken c m ≤ c.length := List.countP_le_length

theorem taken_slice (positive : ∀ k ∈ c, 1 ≤ k) (lg : Nat) :
    taken c (2 ^ lg) = taken c (2 ^ lg / 2) + c.countP fun k => luaOCeillog2 k = lg := by
  induction c with
  | nil => rfl
  | cons k c ih =>
    have later := ih fun k member => positive k (List.mem_cons_of_mem _ member)
    have slice := ceillog2_eq_iff lg (positive k List.mem_cons_self)
    simp only [taken, List.countP_cons, decide_eq_true_eq] at later ⊢
    rw [later]
    by_cases below : k ≤ 2 ^ lg / 2
    · have other : luaOCeillog2 k ≠ lg := fun same => by
        have := slice.mp same
        omega
      have : k ≤ 2 ^ lg := by omega
      simp only [below, this, other, if_true, if_false]
      omega
    · by_cases inside : k ≤ 2 ^ lg
      · have here : luaOCeillog2 k = lg := slice.mpr ⟨by omega, inside⟩
        simp only [below, inside, here, if_true, if_false]
        omega
      · have other : luaOCeillog2 k ≠ lg := fun same => inside (slice.mp same).2
        simp only [below, inside, other, if_false]
        omega

/-- A power of 2 is worth being the size of the array part when the keys it takes would need more
   memory as nodes. -/
def Worthwhile (c : List Nat) (i : Nat) : Prop := 2 ^ i ≤ taken c (2 ^ i) * 3

/-- Sizes na and optimal, of those below 2 ^ i the best. -/
structure Best (c : List Nat) (i na optimal : Nat) : Prop where
  moves : na = taken c optimal
  size : optimal = 0 ∨ ∃ j < i, optimal = 2 ^ j ∧ Worthwhile c j
  most : ∀ j < i, Worthwhile c j → taken c (2 ^ j) ≤ na

theorem sizesFrom_best (counts : ct.Counts n c) (positive : ∀ k ∈ c, 1 ≤ k)
    {slices i na optimal : Nat} (left : slices + i = MAXABITS + 1) (best : Best c i na optimal) :
    Best c (MAXABITS + 1) (ct.sizesFrom slices i (taken c (2 ^ i / 2)) na optimal).1
      (ct.sizesFrom slices i (taken c (2 ^ i / 2)) na optimal).2 := by
  induction slices generalizing i na optimal with
  | zero =>
    have last : i = MAXABITS + 1 := by omega
    exact last ▸ best
  | succ slices ih =>
    have half : 2 ^ (i + 1) / 2 = 2 ^ i := by
      rw [Nat.pow_succ]
      omega
    have sum : taken c (2 ^ i / 2) + ct.nums i = taken c (2 ^ i) := by
      rw [taken_slice positive, counts.nums]
    have next (na optimal : Nat) (best : Best c (i + 1) na optimal) :=
      ih (i := i + 1) (by omega) best
    rw [half] at next
    rw [sizesFrom]
    dsimp only
    rw [sum]
    by_cases more : arrayXhash (2 ^ i) ct.na = true
    · rw [if_pos more]
      by_cases grows : 0 < ct.nums i ∧ arrayXhash (2 ^ i) (taken c (2 ^ i)) = true
      · rw [if_pos grows]
        have worthwhile : Worthwhile c i := by
          simpa [arrayXhash, Worthwhile] using grows.2
        refine next _ _ ⟨rfl, .inr ⟨i, Nat.lt_succ_self _, rfl, worthwhile⟩, fun j below _ => ?_⟩
        exact taken_mono c (Nat.pow_le_pow_right (by decide) (by omega))
      · rw [if_neg grows]
        refine next _ _ ⟨best.moves, best.size.imp_right ?_, fun j below worthwhile => ?_⟩
        · rintro ⟨j, below, rest⟩
          exact ⟨j, by omega, rest⟩
        · by_cases earlier : j < i
          · exact best.most j earlier worthwhile
          · have same : j = i := by omega
            subst same
            have empty : ct.nums j = 0 := by
              by_contra some_key
              exact grows ⟨by omega, by simpa [arrayXhash, Worthwhile] using worthwhile⟩
            -- the slice brings no key, so half the size does as well
            rw [empty, Nat.add_zero] at sum
            unfold Worthwhile at worthwhile
            rw [← sum] at worthwhile ⊢
            cases j with
            | zero =>
              have none : taken c (2 ^ 0 / 2) = 0 := by
                refine List.countP_eq_zero.mpr fun k member => ?_
                have := positive k member
                simp
                omega
              omega
            | succ j =>
              have half' : 2 ^ (j + 1) / 2 = 2 ^ j := by
                rw [Nat.pow_succ]
                omega
              rw [half'] at worthwhile ⊢
              have smaller : 2 ^ j ≤ 2 ^ (j + 1) := Nat.pow_le_pow_right (by decide) (by omega)
              exact best.most j (Nat.lt_succ_self _) (smaller.trans worthwhile)
    · rw [if_neg more]
      have short : c.length * 3 < 2 ^ i := by simpa [arrayXhash, counts.na] using more
      refine ⟨best.moves, best.size.imp_right ?_, fun j below worthwhile => ?_⟩
      · rintro ⟨j, below, rest⟩
        exact ⟨j, by omega, rest⟩
      · by_cases earlier : j < i
        · exact best.most j earlier worthwhile
        · have larger : 2 ^ i ≤ 2 ^ j := Nat.pow_le_pow_right (by decide) (by omega)
          have := taken_le_length c (2 ^ j)
          unfold Worthwhile at worthwhile
          omega

/-- computesizes chooses the size that takes most keys, among the powers of 2 that are worth it. -/
theorem computesizes_best (counts : ct.Counts n c) (positive : ∀ k ∈ c, 1 ≤ k) :
    Best c (MAXABITS + 1) ct.computesizes.1 ct.computesizes.2 := by
  have none : taken c 0 = 0 := by
    refine List.countP_eq_zero.mpr fun k member => ?_
    have := positive k member
    simp
    omega
  have initial : Best c 0 0 0 := ⟨none.symm, .inl rfl, nofun⟩
  have start := sizesFrom_best counts positive (Nat.add_zero (MAXABITS + 1)) initial
  rw [show 2 ^ 0 / 2 = 0 from rfl, none] at start
  exact start

theorem Best.size_le {i na optimal : Nat} (best : Best c (i + 1) na optimal) :
    optimal ≤ 2 ^ i := by
  rcases best.size with rfl | ⟨j, below, rfl, _⟩
  · exact Nat.zero_le _
  · exact Nat.pow_le_pow_right (by decide) (by omega)

end Counters

end Luava.Ltable
