import Luava.HashInsertion

/-
The content of a table: the map from keys to values that its two parts hold together, and what a
change of one entry makes of it.
-/
namespace Luava.Ltable

open HashPart

/- An integer key as the array part counts it. -/
def index (k : Int64) : Nat := k.toUInt64.toNat

theorem index_lt (k : Int64) : index k < 2 ^ 64 := k.toUInt64.toNat_lt

theorem index_inj {k k' : Int64} : index k = index k' ↔ k = k' := by
  refine ⟨fun same => ?_, fun same => congrArg index same⟩
  have bits : k.toUInt64 = k'.toUInt64 := UInt64.toNat_inj.mp same
  cases k
  cases k'
  exact congrArg Int64.ofUInt64 bits

theorem index_succ {i : Nat} (small : i < 2 ^ 32) : index (Int64.ofNat i + 1) = i + 1 := by
  have bits : (Int64.ofNat i + 1).toUInt64 = UInt64.ofNat i + 1 := rfl
  rw [index, bits, UInt64.toNat_add, UInt64.toNat_ofNat]
  simp
  omega

/- The key belongs to an array part of n entries. -/
def InArray (n : Nat) : Value → Prop
  | .integer k => 1 ≤ index k ∧ index k ≤ n
  | _ => False

instance (n : Nat) (key : Value) : Decidable (InArray n key) := by
  cases key <;> unfold InArray <;> infer_instance

def arrayIndexOf : Value → Nat
  | .integer k => index k
  | _ => 0

theorem InArray.bounds {n : Nat} {key : Value} (inArray : InArray n key) :
    1 ≤ arrayIndexOf key ∧ arrayIndexOf key ≤ n := by
  cases key <;> first | exact inArray | exact inArray.elim

theorem InArray.unique {n m : Nat} {key key' : Value} (one : InArray n key)
    (two : InArray m key') (same : arrayIndexOf key = arrayIndexOf key') : key = key' := by
  cases key with
  | integer k =>
    cases key' with
    | integer k' => rw [index_inj.mp same]
    | _ => exact two.elim
  | _ => exact one.elim

/- The place of an index in the array, as the code computes it. -/
theorem before_eq (k : Int64) : (k.toUInt64 - 1).toNat = (2 ^ 64 - 1 + index k) % 2 ^ 64 := by
  rw [UInt64.toNat_sub]
  rfl

theorem before_lt_iff {k : Int64} {n : Nat} (small : n ≤ MAXASIZE) :
    (k.toUInt64 - 1).toNat < n ↔ InArray n (.integer k) := by
  have bound := index_lt k
  unfold MAXASIZE MAXABITS at small
  rw [before_eq, InArray]
  omega

theorem before_inArray {k : Int64} {n : Nat} (inArray : InArray n (.integer k)) :
    (k.toUInt64 - 1).toNat = arrayIndexOf (.integer k) - 1 := by
  have bound := index_lt k
  have low : 1 ≤ index k := inArray.1
  rw [before_eq, arrayIndexOf]
  omega

theorem checkrange_eq {k : Int64} {limit : Nat} (small : limit ≤ MAXASIZE) :
    checkrange k limit = if InArray limit (.integer k) then index k else 0 := by
  have low : k.toUInt64.toUInt32.toNat = index k % 2 ^ 32 := by
    rw [UInt64.toNat_toUInt32]
    rfl
  rw [checkrange, low]
  by_cases inArray : InArray limit (.integer k)
  · have high : index k ≤ limit := inArray.2
    unfold MAXASIZE MAXABITS at small
    rw [if_pos inArray, if_pos ((before_lt_iff small).mpr inArray)]
    omega
  · rw [if_neg inArray, if_neg fun inside => inArray ((before_lt_iff small).mp inside)]

namespace Table

variable {hs : Hashes} {t t' : Table} {key value : Value}

/-- No value is in the hash part under a key of the array part. -/
structure Valid (hs : Hashes) (t : Table) : Prop where
  hash : t.hash.Valid hs
  size : t.asize ≤ MAXASIZE
  apart : ∀ k v, v ≠ .nil → t.hash.Holds k v → ¬ InArray t.asize k

theorem keyinarray_eq (size : t.asize ≤ MAXASIZE) (key : Value) :
    t.keyinarray key = if InArray t.asize key then arrayIndexOf key else 0 := by
  cases key with
  | integer k => exact checkrange_eq size
  | _ => simp [keyinarray, InArray]

/-- The table holds v under k. -/
def Has (t : Table) (k v : Value) : Prop :=
  if InArray t.asize k then t.arrayEntry (arrayIndexOf k) = v else t.hash.Holds k v

theorem Has.unique (valid : t.Valid hs) {k v v' : Value} (one : t.Has k v) (two : t.Has k v') :
    v = v' := by
  unfold Has at one two
  split_ifs at one two
  · exact one.symm.trans two
  · exact HashPart.Holds.unique valid.hash one two

/- A search that finds the node of a key gives its value. -/
theorem nodeValue_iff {slot : Option Nat} {k v : Value} (present : v ≠ .nil)
    (finds : ∀ i, slot = some i ↔ i < t.hash.sizenode ∧ (t.hash.node i).key = .key k) :
    t.nodeValue slot = v ↔ t.hash.Holds k v := by
  cases slot with
  | none =>
    refine iff_of_false (fun absent => present absent.symm) ?_
    rintro ⟨i, inside, owner, _⟩
    cases (finds i).mpr ⟨inside, owner⟩
  | some i =>
    obtain ⟨inside, owner⟩ := (finds i).mp rfl
    constructor
    · rintro rfl
      exact ⟨i, inside, owner, rfl⟩
    · rintro ⟨j, inside', owner', rfl⟩
      cases (finds j).mpr ⟨inside', owner'⟩
      rfl

theorem luaHGet_integral {n : Binary64} {k : Int64} (integral : n.flttointeger = some k) :
    t.luaHGet hs (.float n) = t.luaHGetint k := by
  unfold luaHGet
  simp only [integral]

theorem luaHGet_fractional {n : Binary64} (fractional : n.flttointeger = none) :
    t.luaHGet hs (.float n) = t.nodeValue (t.hash.getgeneric hs (.float n)) := by
  unfold luaHGet
  simp only [fractional]

/-- luaH_get gives the value the table holds. -/
theorem luaHGet_iff (valid : t.Valid hs) {k v : Value} (storable : Storable k)
    (present : v ≠ .nil) : t.luaHGet hs k = v ↔ t.Has k v := by
  have generic (other : ¬ InArray t.asize k) :
      t.nodeValue (t.hash.getgeneric hs k) = v ↔ t.Has k v := by
    rw [Has, if_neg other]
    exact nodeValue_iff present fun i => getgeneric_iff valid.hash _ storable i
  cases k with
  | nil => exact storable.elim
  | string s =>
    have outside : ¬ InArray t.asize (.string s) := fun inArray => inArray
    rw [Has, if_neg outside]
    exact nodeValue_iff present fun i => hgetstr_iff valid.hash s i
  | integer k =>
    have position := keyinarray_eq valid.size (.integer k)
    have own : t.luaHGet hs (.integer k) = t.luaHGetint k := rfl
    rw [own, luaHGetint]
    rw [keyinarray] at position
    by_cases inArray : InArray t.asize (.integer k)
    · have := inArray.bounds
      rw [if_pos inArray] at position
      rw [Has, if_pos inArray, position, if_pos (by omega)]
    · rw [if_neg inArray] at position
      rw [Has, if_neg inArray, position, if_neg (Nat.lt_irrefl 0)]
      exact nodeValue_iff present fun i => getintfromhash_iff valid.hash k i
  | float n =>
    rw [luaHGet_fractional storable.1]
    exact generic fun inArray => inArray
  | _ => exact generic fun inArray => inArray

/- The key luaH_set stores under. -/
def normal : Value → Value
  | .float n =>
    match n.flttointeger with
    | some k => .integer k
    | none => .float n
  | k => k

theorem normal_float (n : Binary64) :
    (∃ k, n.flttointeger = some k ∧ normal (.float n) = .integer k) ∨
      n.flttointeger = none ∧ normal (.float n) = .float n := by
  cases integral : n.flttointeger with
  | some k => exact .inl ⟨k, rfl, by simp [normal, integral]⟩
  | none => exact .inr ⟨rfl, by simp [normal, integral]⟩

theorem normal_storable {k : Value} (storable : Storable k) : normal k = k := by
  cases k with
  | float n =>
    obtain ⟨integral, _⟩ := storable
    simp [normal, integral]
  | _ => rfl

theorem luaHGet_normal (hs : Hashes) (t : Table) (k : Value) :
    t.luaHGet hs (normal k) = t.luaHGet hs k := by
  cases k with
  | float n =>
    rcases normal_float n with ⟨i, integral, same⟩ | ⟨_, same⟩
    · rw [same, luaHGet_integral integral]
      rfl
    · rw [same]
  | _ => rfl

/- NaN is equal to no key, so a search for it finds nothing. -/
theorem search_nan {h : HashPart} {n : Binary64} (nan : n.isNaN = true) (steps i : Nat) :
    h.searchChain (equalkey (.float n)) steps i = none := by
  have refused (m : Node) : equalkey (.float n) m = false := by
    cases owner : m.key with
    | key k => cases k <;> simp [equalkey, owner, Binary64.eq, nan]
    | _ => simp [equalkey, owner]
  induction steps generalizing i with
  | zero => rfl
  | succ steps ih =>
    rw [searchChain, refused]
    simp [ih]

/- No value is found under nil or NaN. -/
theorem luaHGet_unstorable {k : Value} (unstorable : ¬ Storable (normal k)) :
    t.luaHGet hs k = .nil := by
  cases k with
  | nil => rfl
  | float n =>
    rcases normal_float n with ⟨i, integral, same⟩ | ⟨integral, same⟩
    · rw [same] at unstorable
      exact absurd trivial unstorable
    · rw [same] at unstorable
      have nan : n.isNaN = true := by
        by_contra number
        exact unstorable ⟨integral, by simpa using number⟩
      rw [luaHGet_fractional integral, getgeneric, search_nan nan]
      rfl
  | _ => exact absurd trivial unstorable

/-- t' is t with value under key. -/
structure Sets (hs : Hashes) (t : Table) (key value : Value) (t' : Table) : Prop where
  valid : t'.Valid hs
  own : t'.Has key value ∨ value = .nil ∧ ∀ v, v ≠ .nil → ¬ t'.Has key v
  others : ∀ k v, k ≠ key → v ≠ .nil → (t'.Has k v ↔ t.Has k v)

/-- Reading after a change reads the change. -/
theorem Sets.luaHGet (sets : Sets hs t key value t') (valid : t.Valid hs)
    (storable : Storable key) (k : Value) :
    t'.luaHGet hs k = if normal k = key then value else t.luaHGet hs k := by
  by_cases legal : Storable (normal k)
  · rw [← luaHGet_normal hs t' k, ← luaHGet_normal hs t k]
    by_cases same : normal k = key
    · rw [if_pos same, same]
      by_cases present : t'.luaHGet hs key = .nil
      · rcases sets.own with holds | ⟨nil, _⟩
        · by_cases nil : value = .nil
          · rw [present, nil]
          · exact (luaHGet_iff sets.valid storable nil).mpr holds
        · rw [present, nil]
      · have found := (luaHGet_iff sets.valid storable present).mp rfl
        rcases sets.own with holds | ⟨_, absent⟩
        · exact found.unique sets.valid holds
        · exact absurd found (absent _ present)
    · rw [if_neg same]
      by_cases present : t.luaHGet hs (normal k) = .nil
      · by_contra different
        rw [present] at different
        have found := (luaHGet_iff sets.valid legal different).mp rfl
        have before := (luaHGet_iff valid legal different).mpr
          ((sets.others _ _ same different).mp found)
        exact different (before.symm.trans present)
      · have found := (luaHGet_iff valid legal present).mp rfl
        exact (luaHGet_iff sets.valid legal present).mpr ((sets.others _ _ same present).mpr found)
  · have other : normal k ≠ key := fun same => legal (same ▸ storable)
    rw [if_neg other, luaHGet_unstorable legal, luaHGet_unstorable legal]

/- A new value in the node of a key. -/
theorem sets_node (valid : t.Valid hs) (outside : ¬ InArray t.asize key) {n : Nat}
    (inside : n < t.hash.sizenode) (owner : (t.hash.node n).key = .key key) :
    Sets hs t key value (t.setVal n value) := by
  have node (i : Nat) : ((t.hash.setVal n value).node i).key = (t.hash.node i).key ∧
      ((t.hash.setVal n value).node i).next = (t.hash.node i).next ∧
      ((t.hash.setVal n value).node i).val = if i = n then value else (t.hash.node i).val := by
    by_cases at_n : i = n
    · subst at_n
      simp [HashPart.setVal, setNode]
    · simp [HashPart.setVal, setNode, at_n]
  have holds (k v : Value) (other : k ≠ key) :
      (t.hash.setVal n value).Holds k v ↔ t.hash.Holds k v := by
    refine exists_congr fun i => and_congr_right fun _ => ?_
    rw [(node i).1, (node i).2.2]
    refine and_congr_right fun owner' => ?_
    rw [if_neg]
    rintro rfl
    exact other (NodeKey.key.inj (owner'.symm.trans owner))
  refine ⟨⟨?_, valid.size, ?_⟩, .inl ?_, ?_⟩
  · have links : (t.hash.setVal n value).link = t.hash.link := by
      funext i
      rw [link, link, (node i).2.1]
      rfl
    have homes : (t.hash.setVal n value).home hs = t.hash.home hs := by
      funext i
      rw [home, home, (node i).1]
      rfl
    have hash := valid.hash
    refine ⟨by rw [setVal, links, homes]; exact hash.scattered, ?_, ?_, ?_, ?_, ?_, hash.dummy, ?_⟩
    · intro i bound
      rw [setVal, (node i).2.1]
      exact hash.inside i bound
    · intro i bound j bound' k one two
      rw [setVal, (node _).1] at one two
      exact hash.distinct i bound j bound' k one two
    · intro i bound k owned
      rw [setVal, (node i).1] at owned
      exact hash.storable i bound k owned
    · intro i bound unowned
      rw [setVal, (node i).2.2, if_neg]
      · exact hash.empty i bound fun k owned => unowned k ((node i).1.trans owned)
      · rintro rfl
        exact unowned key ((node i).1.trans owner)
    · intro has
      refine ⟨(hash.used has).1, fun i bound above => ?_⟩
      rw [setVal, (node i).1]
      exact (hash.used has).2 i bound above
    · intro i bound
      rw [setVal, (node i).1]
      exact hash.dead i bound
  · intro k v present found
    by_cases other : k = key
    · exact other ▸ outside
    · exact valid.apart k v present ((holds k v other).mp found)
  · have outside' : ¬ InArray (t.setVal n value).asize key := outside
    rw [Has, if_neg outside']
    exact ⟨n, inside, (node n).1.trans owner, by rw [setVal, (node n).2.2, if_pos rfl]⟩
  · intro k v other _
    unfold Has
    by_cases inArray : InArray t.asize k
    · have inArray' : InArray (t.setVal n value).asize k := inArray
      rw [if_pos inArray, if_pos inArray']
      rfl
    · have inArray' : ¬ InArray (t.setVal n value).asize k := inArray
      rw [if_neg inArray, if_neg inArray']
      exact holds k v other

/- A new value in the array part. -/
theorem sets_array (valid : t.Valid hs) (inArray : InArray t.asize key) :
    Sets hs t key value (t.setArray (arrayIndexOf key - 1) value) := by
  obtain ⟨low, high⟩ := inArray.bounds
  have size : (t.setArray (arrayIndexOf key - 1) value).asize = t.asize := List.length_set ..
  refine ⟨⟨valid.hash, size ▸ valid.size, ?_⟩, .inl ?_, ?_⟩
  · rw [size]
    exact valid.apart
  · rw [Has, size, if_pos inArray]
    simp only [asize] at high
    simp only [arrayEntry, setArray, List.getD_eq_getElem?_getD]
    rw [List.getElem?_set_self (by omega)]
    rfl
  · intro k v other _
    unfold Has
    rw [size]
    by_cases inArray' : InArray t.asize k
    · have apart : arrayIndexOf key - 1 ≠ arrayIndexOf k - 1 := by
        intro same
        have := inArray'.bounds
        exact other (inArray'.unique inArray (by omega))
      rw [if_pos inArray', if_pos inArray']
      simp only [arrayEntry, setArray, List.getD_eq_getElem?_getD]
      rw [List.getElem?_set_ne apart]
    · rw [if_neg inArray', if_neg inArray']
      rfl

/- A new key in the hash part. -/
theorem sets_inserted (valid : t.Valid hs) (outside : ¬ InArray t.asize key) {h : HashPart}
    (inserted : Inserted hs t.hash key value h) : Sets hs t key value { t with hash := h } := by
  refine ⟨⟨inserted.valid, valid.size, ?_⟩, .inl ?_, ?_⟩
  · intro k v present found
    by_cases other : k = key
    · exact other ▸ outside
    · exact valid.apart k v present ((inserted.others k v other present).mp found)
  · have outside' : ¬ InArray ({ t with hash := h } : Table).asize key := outside
    rw [Has, if_neg outside']
    exact inserted.holds
  · intro k v other present
    unfold Has
    by_cases inArray : InArray t.asize k
    · have inArray' : InArray ({ t with hash := h } : Table).asize k := inArray
      rw [if_pos inArray, if_pos inArray']
      rfl
    · have inArray' : ¬ InArray ({ t with hash := h } : Table).asize k := inArray
      rw [if_neg inArray, if_neg inArray']
      exact inserted.others k v other present

/- The cached events are no content. -/
theorem Sets.invalidate (sets : Sets hs t key value t') :
    Sets hs t key value t'.invalidateTMcache :=
  ⟨⟨sets.valid.hash, sets.valid.size, sets.valid.apart⟩, sets.own, sets.others⟩

end Table

end Luava.Ltable
