import Luava.TableMap

/-
The length operator. luaH_getn looks near its hint, then in the array part, then in the hash part
by doubling; wherever it stops it is at a border, and a wrong hint costs time only.
-/
namespace Luava.Ltable

open HashPart

namespace Table

variable {hs : Hashes} {t t' : Table} {key value : Value}

theorem index_ofNat {i : Nat} (small : i < 2 ^ 64) : index (Int64.ofNat i) = i := by
  have bits : (Int64.ofNat i).toUInt64 = UInt64.ofNat i := rfl
  rw [index, bits, UInt64.toNat_ofNat']
  exact Nat.mod_eq_of_lt small

/- The value of an index. -/
def geti (t : Table) (i : Nat) : Value := t.luaHGetint (Int64.ofNat i)

/-- n is a border: its value is there, or it is 0, and that of n + 1 is not, unless n is the
   largest integer. -/
def Border (values : Nat → Value) (n : Nat) : Prop :=
  (n = 0 ∨ values n ≠ .nil) ∧ (n = LUA_MAXINTEGER ∨ values (n + 1) = .nil) ∧ n ≤ LUA_MAXINTEGER

theorem arraykeyisempty_iff (size : t.asize ≤ MAXASIZE) {i : Nat} (low : 1 ≤ i)
    (high : i ≤ t.asize) : t.arraykeyisempty i = true ↔ t.geti i = .nil := by
  have small : i < 2 ^ 64 := by
    simp only [MAXASIZE, MAXABITS] at size
    omega
  have position := keyinarray_eq size (.integer (Int64.ofNat i))
  have same : arrayIndexOf (.integer (Int64.ofNat i)) = i := index_ofNat small
  have inArray : InArray t.asize (.integer (Int64.ofNat i)) := by
    rw [InArray, index_ofNat small]
    exact ⟨low, high⟩
  rw [keyinarray, if_pos inArray, same] at position
  rw [geti, luaHGetint, position, if_pos (Nat.lt_of_lt_of_le Nat.zero_lt_one low),
    arraykeyisempty, value_of_isNil]

theorem hashkeyisempty_iff (size : t.asize ≤ MAXASIZE) (i : Nat) (above : t.asize < i)
    (small : i ≤ LUA_MAXINTEGER) : t.hashkeyisempty i = true ↔ t.geti i = .nil := by
  have position := keyinarray_eq size (.integer (Int64.ofNat i))
  have outside' : ¬ InArray t.asize (.integer (Int64.ofNat i)) := by
    simp only [LUA_MAXINTEGER] at small
    rw [InArray, index_ofNat (by omega)]
    omega
  rw [keyinarray, if_neg outside'] at position
  rw [geti, luaHGetint, position, if_neg (Nat.lt_irrefl 0), hashkeyisempty, value_of_isNil]

/-- A binary search ends between a used index and an unused one. -/
theorem binarySearch_between {isempty : Nat → Bool} {steps i j : Nat} (gap : j - i ≤ 2 ^ steps)
    (order : i < j) (unused : isempty j = true) :
    (binarySearch isempty steps i j = i ∨ isempty (binarySearch isempty steps i j) = false) ∧
      isempty (binarySearch isempty steps i j + 1) = true ∧
      i ≤ binarySearch isempty steps i j ∧ binarySearch isempty steps i j < j := by
  have next (apart : ¬ 1 < j - i) : isempty (i + 1) = true := by
    rwa [show i + 1 = j by omega]
  induction steps generalizing i j with
  | zero => exact ⟨.inl rfl, next (by omega), Nat.le_refl i, order⟩
  | succ steps ih =>
    rw [binarySearch]
    by_cases apart : 1 < j - i
    · rw [if_pos apart]
      dsimp only
      rw [Nat.pow_succ] at gap
      cases empty : isempty ((i + j) / 2) with
      | true =>
        have gap' : (i + j) / 2 - i ≤ 2 ^ steps := by omega
        have next' (close : ¬ 1 < (i + j) / 2 - i) : isempty (i + 1) = true := by
          rwa [show i + 1 = (i + j) / 2 by omega]
        rw [if_pos rfl]
        obtain ⟨used, unused', low, high⟩ := ih gap' (by omega) empty next'
        exact ⟨used, unused', low, by omega⟩
      | false =>
        have gap' : j - (i + j) / 2 ≤ 2 ^ steps := by omega
        have next' (close : ¬ 1 < j - (i + j) / 2) : isempty ((i + j) / 2 + 1) = true := by
          rwa [show (i + j) / 2 + 1 = j by omega]
        rw [if_neg Bool.false_ne_true]
        obtain ⟨used, unused', low, high⟩ := ih gap' (by omega) unused next'
        refine ⟨.inr ?_, unused', by omega, high⟩
        rcases used with same | used
        · rwa [same]
        · exact used
    · rw [if_neg apart]
      exact ⟨.inl rfl, next apart, Nat.le_refl i, order⟩

/- Where the doubling stops: at the largest integer, or between a used index and an unused one. -/
def Stops (t : Table) (i : Nat) : Nat ⊕ (Nat × Nat) → Prop
  | .inl border => border = LUA_MAXINTEGER ∧ t.geti border ≠ .nil
  | .inr (i', j) => i ≤ i' ∧ i' < j ∧ j ≤ LUA_MAXINTEGER ∧ t.geti i' ≠ .nil ∧ t.geti j = .nil

theorem Stops.weaken {i k : Nat} {stop : Nat ⊕ (Nat × Nat)} (below : k ≤ i)
    (stops : t.Stops i stop) : t.Stops k stop := by
  cases stop with
  | inl border => exact stops
  | inr pair => exact ⟨below.trans stops.1, stops.2⟩

/-- The doubling stops within the width of an integer. -/
theorem doubling_stops (size : t.asize ≤ MAXASIZE) {i : Nat} (steps j rnd : Nat)
    (enough : 2 ^ 64 ≤ j * 2 ^ steps) (above : t.asize < i) (order : i < j)
    (small : j ≤ LUA_MAXINTEGER) (used : t.geti i ≠ .nil) :
    t.Stops i (t.doubling steps i j rnd) := by
  induction steps generalizing i j rnd with
  | zero =>
    simp only [LUA_MAXINTEGER] at small
    omega
  | succ steps ih =>
    have empty := hashkeyisempty_iff size j (above.trans order) small
    rw [doubling]
    by_cases unused : t.hashkeyisempty j = true
    · rw [if_pos unused]
      exact ⟨Nat.le_refl i, order, small, used, empty.mp unused⟩
    · have used' : t.geti j ≠ .nil := fun nil => unused (empty.mpr nil)
      rw [if_neg unused]
      by_cases room : j ≤ LUA_MAXINTEGER / 2 - 1
      · rw [if_pos room]
        have more : 2 ^ 64 ≤ (j * 2 + rnd % 2) * 2 ^ steps := by
          calc 2 ^ 64 ≤ j * 2 ^ (steps + 1) := enough
            _ = j * 2 * 2 ^ steps := by rw [Nat.pow_succ, Nat.mul_assoc, Nat.mul_comm 2]
            _ ≤ (j * 2 + rnd % 2) * 2 ^ steps := Nat.mul_le_mul_right _ (Nat.le_add_right _ _)
        simp only [LUA_MAXINTEGER] at room small
        refine (ih _ _ more (by omega) (by omega) ?_ used').weaken order.le
        simp only [LUA_MAXINTEGER]
        omega
      · have whole := hashkeyisempty_iff size LUA_MAXINTEGER (by omega) (Nat.le_refl _)
        rw [if_neg room]
        by_cases last : t.hashkeyisempty LUA_MAXINTEGER = true
        · have unused' := whole.mp last
          have apart : j ≠ LUA_MAXINTEGER := fun same => used' (same ▸ unused')
          rw [if_pos last]
          exact ⟨order.le, by omega, Nat.le_refl _, used', unused'⟩
        · rw [if_neg last]
          exact ⟨rfl, fun nil => last (whole.mpr nil)⟩

theorem hashSearch_border (seed : Nat) (size : t.asize ≤ MAXASIZE)
    (used : t.geti (t.asize + 1) ≠ .nil) : Border t.geti (t.hashSearch seed) := by
  unfold hashSearch
  dsimp only
  generalize (if 0 < t.asize then luaOCeillog2 t.asize else 0) = n
  have limit := size
  simp only [MAXASIZE, MAXABITS] at limit
  have incr := Nat.zero_le (seed % 2 ^ n)
  generalize first : (if seed % 2 ^ n + 1 ≤ LUA_MAXINTEGER - (t.asize + 1)
    then t.asize + 1 + (seed % 2 ^ n + 1) else t.asize + 1 + 1) = j
  have order : t.asize + 1 < j ∧ j ≤ LUA_MAXINTEGER := by
    unfold LUA_MAXINTEGER at first ⊢
    split_ifs at first
    · omega
    · omega
  have stops := doubling_stops size 64 j (seed / 2 ^ n) (by omega) (Nat.lt_succ_self _)
    order.1 order.2 used
  cases stop : t.doubling 64 (t.asize + 1) j (seed / 2 ^ n) with
  | inl border =>
    rw [stop] at stops
    obtain ⟨rfl, present⟩ := stops
    exact ⟨.inr present, .inl rfl, Nat.le_refl _⟩
  | inr pair =>
    obtain ⟨i, j⟩ := pair
    rw [stop] at stops
    obtain ⟨above, order, small, used, unused⟩ := stops
    have empty (k : Nat) (later : t.asize < k) (below : k ≤ j) :=
      hashkeyisempty_iff size k later (below.trans small)
    have gap : j - i ≤ 2 ^ 64 := by
      simp only [LUA_MAXINTEGER] at small
      omega
    obtain ⟨used', unused', low, high⟩ :=
      binarySearch_between gap order ((empty j (by omega) (Nat.le_refl j)).mpr unused)
    dsimp only
    generalize binarySearch t.hashkeyisempty 64 i j = b at used' unused' low high ⊢
    refine ⟨.inr ?_, .inr ((empty _ (by omega) (by omega)).mp unused'), by omega⟩
    rcases used' with rfl | used'
    · exact used
    · intro nil
      rw [(empty b (by omega) (by omega)).mpr nil] at used'
      cases used'

/- Where the search near the hint stops, down to low or up from it. -/
theorem vicinityBelow_stops (size : t.asize ≤ MAXASIZE) (steps limit : Nat) (low : 1 ≤ limit)
    (high : limit ≤ t.asize) (unused : t.geti limit = .nil) :
    (∃ border, t.vicinityBelow steps limit = .inl border ∧ border < limit ∧
        t.geti border ≠ .nil ∧ t.geti (border + 1) = .nil) ∨
      ∃ limit', t.vicinityBelow steps limit = .inr limit' ∧ 1 ≤ limit' ∧ limit' ≤ limit ∧
        t.geti limit' = .nil := by
  induction steps generalizing limit with
  | zero => exact .inr ⟨limit, rfl, low, Nat.le_refl _, unused⟩
  | succ steps ih =>
    rw [vicinityBelow]
    by_cases more : 1 < limit
    · have empty := arraykeyisempty_iff size (i := limit - 1) (by omega) (by omega)
      rw [if_pos more]
      by_cases nil : t.arraykeyisempty (limit - 1) = true
      · rw [if_pos nil]
        rcases ih (limit - 1) (by omega) (by omega) (empty.mp nil) with
          ⟨border, stop, below, rest⟩ | ⟨limit', stop, low', below, rest⟩
        · exact .inl ⟨border, stop, by omega, rest⟩
        · exact .inr ⟨limit', stop, low', by omega, rest⟩
      · rw [if_neg nil]
        refine .inl ⟨limit - 1, rfl, by omega, fun absent => nil (empty.mpr absent), ?_⟩
        rwa [Nat.sub_add_cancel low]
    · rw [if_neg more]
      exact .inr ⟨limit, rfl, low, Nat.le_refl _, unused⟩

theorem vicinityAbove_stops (size : t.asize ≤ MAXASIZE) (steps limit : Nat) (low : 1 ≤ limit)
    (high : limit ≤ t.asize) (used : t.geti limit ≠ .nil) :
    (∃ border, t.vicinityAbove steps limit = .inl border ∧ border < t.asize ∧
        t.geti border ≠ .nil ∧ t.geti (border + 1) = .nil) ∨
      ∃ limit', t.vicinityAbove steps limit = .inr limit' ∧ 1 ≤ limit' ∧ limit' ≤ t.asize ∧
        t.geti limit' ≠ .nil := by
  induction steps generalizing limit with
  | zero => exact .inr ⟨limit, rfl, low, high, used⟩
  | succ steps ih =>
    rw [vicinityAbove]
    by_cases more : limit < t.asize
    · have empty := arraykeyisempty_iff size (i := limit + 1) (by omega) (by omega)
      rw [if_pos more]
      by_cases nil : t.arraykeyisempty (limit + 1) = true
      · rw [if_pos nil]
        exact .inl ⟨limit, rfl, more, used, empty.mp nil⟩
      · rw [if_neg nil]
        exact ih (limit + 1) (by omega) more fun absent => nil (empty.mpr absent)
    · rw [if_neg more]
      exact .inr ⟨limit, rfl, low, high, used⟩

/- A binary search in the array part. -/
theorem binsearch_border (size : t.asize ≤ MAXASIZE) {i j : Nat} (order : i < j)
    (high : j ≤ t.asize) (used : i = 0 ∨ t.geti i ≠ .nil) (unused : t.geti j = .nil) :
    Border t.geti (t.binsearch i j) ∧ t.binsearch i j ≤ t.asize := by
  simp only [MAXASIZE, MAXABITS] at size
  have empty (k : Nat) (low : 1 ≤ k) (high' : k ≤ t.asize) :=
    arraykeyisempty_iff size low high'
  have gap : j - i ≤ 2 ^ 32 := by omega
  obtain ⟨used', unused', low, below⟩ :=
    binarySearch_between gap order ((empty j (by omega) high).mpr unused)
  rw [binsearch]
  generalize binarySearch t.arraykeyisempty 32 i j = b at used' unused' low below ⊢
  refine ⟨⟨?_, .inr ((empty _ (by omega) (by omega)).mp unused'), ?_⟩, by omega⟩
  · rcases used' with rfl | used'
    · exact used
    · by_cases zero : b = 0
      · exact .inl zero
      · refine .inr fun nil => ?_
        rw [(empty b (by omega) (by omega)).mpr nil] at used'
        cases used'
  · simp only [LUA_MAXINTEGER]
    omega

theorem getnFromHash_border (seed : Nat) (size : t.asize ≤ MAXASIZE)
    (empty : t.hash.isdummy = true → t.geti (t.asize + 1) = .nil)
    (used : t.asize = 0 ∨ t.geti t.asize ≠ .nil) :
    Border t.geti (t.getnFromHash seed).1 ∧ (t.getnFromHash seed).2 = t := by
  have limit := size
  simp only [MAXASIZE, MAXABITS] at limit
  have next := hashkeyisempty_iff size (t.asize + 1) (Nat.lt_succ_self _)
    (by simp only [LUA_MAXINTEGER]; omega)
  unfold getnFromHash
  by_cases last : (t.hash.isdummy || t.hashkeyisempty (t.asize + 1)) = true
  · rw [if_pos last]
    refine ⟨⟨used, .inr ?_, by simp only [LUA_MAXINTEGER]; omega⟩, rfl⟩
    rcases Bool.or_eq_true_iff.mp last with dummy | unused
    · exact empty dummy
    · exact next.mp unused
  · rw [if_neg last]
    refine ⟨hashSearch_border seed size fun nil => last ?_, rfl⟩
    rw [next.mpr nil, Bool.or_true]

/- A dummy hash part has no value. -/
theorem geti_dummy (valid : t.Valid hs) (dummy : t.hash.isdummy = true) :
    t.geti (t.asize + 1) = .nil := by
  have size := valid.size
  simp only [MAXASIZE, MAXABITS] at size
  have outside' : ¬ InArray t.asize (.integer (Int64.ofNat (t.asize + 1))) := by
    rw [InArray, index_ofNat (by omega)]
    omega
  by_contra present
  have holds :=
    (luaHGet_iff (k := .integer (Int64.ofNat (t.asize + 1))) valid trivial present).mp rfl
  rw [Has, if_neg outside'] at holds
  obtain ⟨i, inside, owner, _⟩ := holds
  have dead := (valid.hash.dead i inside).mpr dummy
  rw [owner] at dead
  cases dead

/-- luaH_getn gives a border, whatever the hint is, and changes nothing but the hint. -/
theorem luaHGetn_border (seed : Nat) (valid : t.Valid hs) (hint : t.lenhint ≤ t.asize) :
    Border t.geti (t.luaHGetn seed).1 ∧
      ∃ hint', (t.luaHGetn seed).2 = { t with lenhint := hint' } ∧ hint' ≤ t.asize := by
  have size := valid.size
  have dummy := geti_dummy valid
  have bound (n : Nat) (below : n ≤ t.asize) : n ≤ LUA_MAXINTEGER := by
    simp only [MAXASIZE, MAXABITS] at size
    simp only [LUA_MAXINTEGER]
    omega
  unfold luaHGetn
  dsimp only
  by_cases some : 0 < t.asize
  · rw [if_pos some]
    generalize start : (if t.lenhint = 0 then 1 else t.lenhint) = limit
    have inside : 1 ≤ limit ∧ limit ≤ t.asize := by split_ifs at start <;> omega
    have empty := arraykeyisempty_iff size inside.1 inside.2
    by_cases unused : t.arraykeyisempty limit = true
    · rw [if_pos unused]
      rcases vicinityBelow_stops size 4 limit inside.1 inside.2 (empty.mp unused) with
        ⟨border, stop, below, present, absent⟩ | ⟨limit', stop, low, below, unused'⟩
      · rw [stop]
        exact ⟨⟨.inr present, .inr absent, bound border (by omega)⟩, border, rfl, by omega⟩
      · rw [stop]
        obtain ⟨border, inside'⟩ :=
          binsearch_border size low (below.trans inside.2) (.inl rfl) unused'
        exact ⟨border, _, rfl, inside'⟩
    · rw [if_neg unused]
      rcases vicinityAbove_stops size 4 limit inside.1 inside.2
        (fun nil => unused (empty.mpr nil)) with
        ⟨border, stop, below, present, absent⟩ | ⟨limit', stop, low, below, used⟩
      · rw [stop]
        exact ⟨⟨.inr present, .inr absent, bound border (by omega)⟩, border, rfl, by omega⟩
      · rw [stop]
        have last := arraykeyisempty_iff size some (Nat.le_refl t.asize)
        dsimp only
        by_cases unused' : t.arraykeyisempty t.asize = true
        · have apart : limit' ≠ t.asize := fun same => used (same ▸ last.mp unused')
          rw [if_pos unused']
          obtain ⟨border, inside'⟩ := binsearch_border size (i := limit') (by omega)
            (Nat.le_refl _) (.inr used) (last.mp unused')
          exact ⟨border, _, rfl, inside'⟩
        · rw [if_neg unused']
          have found := getnFromHash_border (t := { t with lenhint := t.asize }) seed size dummy
            (.inr fun nil => unused' (last.mpr nil))
          exact ⟨found.1, t.asize, found.2, Nat.le_refl _⟩
  · rw [if_neg some]
    have found := getnFromHash_border seed size dummy (.inl (by omega))
    exact ⟨found.1, t.lenhint, found.2, hint⟩

/- A change that leaves the size of the array part, the hint and the metatable. -/
structure SameHeader (t t' : Table) : Prop where
  asize : t'.asize = t.asize
  lenhint : t'.lenhint = t.lenhint
  metatable : t'.metatable = t.metatable

theorem sameHeader_setArray (t : Table) (i : Nat) (v : Value) : t.SameHeader (t.setArray i v) :=
  ⟨List.length_set .., rfl, rfl⟩

theorem newcheckedkey_header (hs : Hashes) (t : Table) (key value : Value) :
    t.SameHeader (t.newcheckedkey hs key value) := by
  unfold newcheckedkey
  dsimp only
  split_ifs
  · exact t.sameHeader_setArray _ _
  · exact ⟨rfl, rfl, rfl⟩

theorem reinserthash_header (hs : Hashes) (old : HashPart) (left j : Nat) (t : Table) :
    t.SameHeader (reinserthash hs old left j t) := by
  induction left generalizing j t with
  | zero => exact ⟨rfl, rfl, rfl⟩
  | succ left ih =>
    rw [reinserthash]
    split_ifs
    · exact ih (j + 1) t
    · have first := newcheckedkey_header hs t (old.node j).key.value (old.node j).val
      have rest := ih (j + 1) (t.newcheckedkey hs (old.node j).key.value (old.node j).val)
      exact ⟨rest.asize.trans first.asize, rest.lenhint.trans first.lenhint,
        rest.metatable.trans first.metatable⟩

theorem luaHResize_hint {newasize nhsize : Nat}
    (resized : t.luaHResize hs newasize nhsize = .ok t') :
    t'.lenhint ≤ t'.asize ∧ t'.metatable = t.metatable := by
  unfold luaHResize at resized
  by_cases large : MAXASIZE < newasize
  · rw [if_pos large] at resized
    cases resized
  · rw [if_neg large] at resized
    cases vector : setnodevector nhsize with
    | error e =>
      rw [vector] at resized
      cases resized
    | ok h =>
      rw [vector] at resized
      cases resized
      obtain ⟨size, hint, metatable⟩ := reinserthash_header hs t.hash t.hash.sizenode 0
        { t with
          array := t.array.take newasize ++ List.replicate (newasize - t.asize) .nil
          lenhint := newasize / 2
          hash := reinsertOldSlice hs (t.array.drop newasize) newasize h }
      refine ⟨?_, metatable⟩
      rw [size, hint]
      simp only [asize, List.length_append, List.length_take, List.length_replicate]
      omega

theorem luaHNewkey_hint (hint : t.lenhint ≤ t.asize)
    (done : t.luaHNewkey hs key value = .ok t') :
    t'.lenhint ≤ t'.asize ∧ t'.metatable = t.metatable := by
  unfold luaHNewkey at done
  split_ifs at done
  · cases done
    exact ⟨hint, rfl⟩
  · cases insertion : t.hash.insertkey hs key value with
    | mk success h =>
      rw [insertion] at done
      cases success with
      | true =>
        cases done
        exact ⟨hint, rfl⟩
      | false =>
        dsimp only at done
        cases grown : ({ t with hash := h } : Table).rehash hs key with
        | error e =>
          rw [grown] at done
          cases done
        | ok t₂ =>
          rw [grown] at done
          cases done
          obtain ⟨hint', metatable⟩ := luaHResize_hint grown
          have added := newcheckedkey_header hs t₂ key value
          rw [added.asize, added.lenhint, added.metatable]
          exact ⟨hint', metatable⟩

theorem finishnodeset_header (slot : Option Nat) : t.SameHeader (t.finishnodeset slot value).2 := by
  cases slot with
  | none => exact ⟨rfl, rfl, rfl⟩
  | some n =>
    unfold finishnodeset
    dsimp only
    split_ifs <;> exact ⟨rfl, rfl, rfl⟩

theorem psetint_header (noTM : Bool) (k : Int64) : t.SameHeader (t.psetint noTM k value).2 := by
  unfold psetint
  dsimp only
  split_ifs
  · exact t.sameHeader_setArray _ _
  · exact ⟨rfl, rfl, rfl⟩
  · exact finishnodeset_header _

theorem luaHPsetshortstr_header (noTM barrier : Bool) (k : List UInt8) :
    t.SameHeader (t.luaHPsetshortstr hs noTM barrier k value).2 := by
  unfold luaHPsetshortstr
  dsimp only
  split_ifs
  · cases t.hash.luaHHgetshortstr hs k <;> exact ⟨rfl, rfl, rfl⟩
  · exact ⟨rfl, rfl, rfl⟩
  · cases t.hash.insertkey hs (.string k) value with
    | mk success h => cases success <;> exact ⟨rfl, rfl, rfl⟩
  · exact ⟨rfl, rfl, rfl⟩

theorem luaHPset_header (hs : Hashes) (noTM barrier : Bool) (key value : Value) :
    t.SameHeader (t.luaHPset hs noTM barrier key value).2 := by
  cases key with
  | nil => exact ⟨rfl, rfl, rfl⟩
  | string s =>
    unfold luaHPset
    dsimp only
    split_ifs
    · exact luaHPsetshortstr_header noTM barrier s
    · exact finishnodeset_header _
  | integer k => exact psetint_header noTM k
  | float n =>
    unfold luaHPset
    cases integral : n.flttointeger with
    | some k =>
      simp only [integral]
      exact psetint_header noTM k
    | none =>
      simp only [integral]
      exact finishnodeset_header _
  | _ => exact finishnodeset_header _

theorem luaHFinishset_hint {hres : Hres} (hint : t.lenhint ≤ t.asize)
    (storable : Storable (normal key)) (done : t.luaHFinishset hs key value hres = .ok t') :
    t'.lenhint ≤ t'.asize ∧ t'.metatable = t.metatable := by
  cases hres with
  | ok =>
    cases done
    exact ⟨hint, rfl⟩
  | notFound =>
    rw [luaHFinishset_notFound storable] at done
    exact luaHNewkey_hint hint done
  | node n =>
    cases done
    exact ⟨hint, rfl⟩
  | array i =>
    cases done
    have same := t.sameHeader_setArray i value
    rw [same.asize, same.lenhint, same.metatable]
    exact ⟨hint, rfl⟩

theorem luaHSet_hint (noTM barrier : Bool) (hint : t.lenhint ≤ t.asize)
    (done : t.luaHSet hs noTM barrier key value = .ok t') :
    t'.lenhint ≤ t'.asize ∧ t'.metatable = t.metatable := by
  have storable : Storable (normal key) := by
    by_contra unstorable
    rw [luaHSet_unstorable noTM barrier unstorable] at done
    cases done
  have placed := t.luaHPset_header hs noTM barrier key value
  rw [luaHSet] at done
  cases code : t.luaHPset hs noTM barrier key value with
  | mk hres t₁ =>
    rw [code] at placed done
    have hint₁ : t₁.lenhint ≤ t₁.asize := by rwa [placed.asize, placed.lenhint]
    obtain ⟨hint', metatable⟩ := luaHFinishset_hint hint₁ storable done
    exact ⟨hint', metatable.trans placed.metatable⟩

end Table

/- A set of a field, or the length operator under a seed. -/
inductive Op where
  | set (w : Write)
  | len (seed : Nat)

def runOp (hs : Hashes) (t : Table) : Op → Except String Table
  | .set w => t.luaHSet hs w.noTM w.barrier w.key w.value
  | .len seed => .ok (t.luaHGetn seed).2

def Op.put (m : Value → Value) : Op → Value → Value
  | .set w => Ltable.put m w
  | .len _ => m

theorem runOps_spec {hs : Hashes} {t t' : Table} {m : Value → Value} (valid : t.Valid hs)
    (hint : t.lenhint ≤ t.asize) (reads : ∀ k, t.luaHGet hs k = m (Table.normal k))
    (ops : List Op) (run : ops.foldlM (runOp hs) t = .ok t') :
    t'.Valid hs ∧ t'.lenhint ≤ t'.asize ∧
      ∀ k, t'.luaHGet hs k = ops.foldl Op.put m (Table.normal k) := by
  induction ops generalizing t m with
  | nil =>
    cases run
    exact ⟨valid, hint, reads⟩
  | cons op ops ih =>
    rw [List.foldlM_cons] at run
    cases op with
    | set w =>
      cases first : runOp hs t (.set w) with
      | error e =>
        rw [first] at run
        cases run
      | ok t₁ =>
        rw [first] at run
        obtain ⟨storable, sets⟩ := Table.luaHSet_sets w.noTM w.barrier valid first
        refine ih sets.valid (Table.luaHSet_hint w.noTM w.barrier hint first).1 (fun k => ?_) run
        rw [sets.luaHGet valid storable k, Op.put, Ltable.put, Function.update_apply, reads k]
    | len seed =>
      obtain ⟨_, hint', same, inside⟩ := Table.luaHGetn_border seed valid hint
      have first : runOp hs t (.len seed) = .ok { t with lenhint := hint' } := congrArg _ same
      rw [first] at run
      exact ih (t := { t with lenhint := hint' }) ⟨valid.hash, valid.size, valid.apart⟩ inside
        reads run

/-- In every run of sets and lengths, a length is a border of the last values. -/
theorem lengths_are_borders (hs : Hashes) (ops : List Op) {t : Table}
    (run : ops.foldlM (runOp hs) Table.luaHNew = .ok t) (seed : Nat) :
    Table.Border (fun i => ops.foldl Op.put (fun _ => .nil) (.integer (Int64.ofNat i)))
      (t.luaHGetn seed).1 := by
  obtain ⟨valid, hint, reads⟩ :=
    runOps_spec (m := fun _ => .nil) (Table.valid_new hs) (Nat.le_refl 0) (Table.luaHGet_new hs)
      ops run
  have border := (Table.luaHGetn_border seed valid hint).1
  have same : t.geti = fun i => ops.foldl Op.put (fun _ => .nil) (.integer (Int64.ofNat i)) :=
    funext fun i => reads (.integer (Int64.ofNat i))
  rwa [same] at border

/- A list whose last entry is cleared after its length was taken. -/
def listOps : List Op :=
  [.set ⟨true, false, .integer 1, .boolean true⟩, .set ⟨true, false, .integer 2, .boolean true⟩,
    .set ⟨true, false, .integer 3, .boolean true⟩, .len 5,
    .set ⟨true, false, .integer 3, .nil⟩]

theorem cleared_lengths_are_borders :
    Table.Border (fun i => listOps.foldl Op.put (fun _ => .nil) (.integer (Int64.ofNat i)))
      ((result (listOps.foldlM (runOp colliding) Table.luaHNew)).luaHGetn 7).1 :=
  lengths_are_borders colliding listOps (eq_ok_result (by decide +kernel)) 7

end Luava.Ltable
