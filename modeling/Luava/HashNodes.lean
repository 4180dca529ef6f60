import Luava.Chains
import Luava.Ltable
import Mathlib.Data.Finset.Card
import Mathlib.Data.Finset.Range

/-
The hash part of a table. Its nodes are a chained scatter table with the main positions as homes,
so that a search finds the node of a key whatever keys came before and collided with it.
-/
namespace Luava.Ltable

open Chains

/-- The keys a node can hold: no nil, no NaN, and no float that is an integer. -/
def Storable : Value → Prop
  | .nil => False
  | .float n => n.flttointeger = none ∧ n.isNaN = false
  | _ => True

theorem zero_is_integral {n : Binary64} (zero : n.isZero = true) : n.flttointeger = some 0 := by
  simp only [Binary64.isZero, Bool.and_eq_true, beq_iff_eq] at zero
  have integral : n.integral? = some 0 := by
    simp [Binary64.integral?, Binary64.significand, zero.1, zero.2]
  rw [Binary64.flttointeger, integral]
  cases n.negative <;> rfl

namespace HashPart

variable {hs : Hashes} {h h' : HashPart}

theorem sizenode_pos (h : HashPart) : 0 < h.sizenode := Nat.two_pow_pos _

theorem hashpow2_lt (h : HashPart) (n : Nat) : h.hashpow2 n < h.sizenode := by
  have := h.sizenode_pos
  have := @Nat.and_le_right n (h.sizenode - 1)
  rw [hashpow2]
  omega

theorem odd_size_le (h : HashPart) :
    0 < (h.sizenode - 1) ||| 1 ∧ (h.sizenode - 1) ||| 1 ≤ h.sizenode := by
  unfold sizenode
  cases size : h.lsizenode with
  | zero => decide
  | succ k =>
    have same : (2 ^ (k + 1) - 1) ||| 1 = 2 ^ (k + 1) - 1 := by
      refine Nat.eq_of_testBit_eq fun i => ?_
      rw [Nat.testBit_or, Nat.testBit_two_pow_sub_one]
      cases i <;> simp [Nat.testBit_succ]
    have := Nat.two_pow_pos k
    rw [same, Nat.pow_succ]
    omega

theorem hashmod_lt (h : HashPart) (n : Nat) : n % ((h.sizenode - 1) ||| 1) < h.sizenode :=
  Nat.lt_of_lt_of_le (Nat.mod_lt _ h.odd_size_le.1) h.odd_size_le.2

theorem hashint_lt (h : HashPart) (i : Int64) : h.hashint i < h.sizenode := by
  unfold hashint hashmod
  simp only [ite_self]
  exact h.hashmod_lt _

theorem mainposition_lt (hs : Hashes) (h : HashPart) (key : Value) :
    h.mainpositionTV hs key < h.sizenode := by
  cases key <;> first | exact h.hashint_lt _ | exact h.hashpow2_lt _ | exact h.hashmod_lt _

theorem mainposition_congr (same : h'.lsizenode = h.lsizenode) (key : Value) :
    h'.mainpositionTV hs key = h.mainpositionTV hs key := by
  cases key <;> simp [mainpositionTV, hashint, hashpow2, hashmod, sizenode, same]

/-- The next node of the chain, none at its end. -/
def link (h : HashPart) (i : Nat) : Option Nat :=
  if i < h.sizenode ∧ (h.node i).next ≠ 0 then some ((i : Int) + (h.node i).next).toNat else none

/-- The main position of the key in a node. -/
def home (hs : Hashes) (h : HashPart) (i : Nat) : Option Nat :=
  if i < h.sizenode then
    match (h.node i).key with
    | .key k => some (h.mainpositionTV hs k)
    | _ => none
  else none

structure Valid (hs : Hashes) (h : HashPart) : Prop where
  scattered : Scattered h.link (h.home hs)
  inside : ∀ i < h.sizenode,
    0 ≤ (i : Int) + (h.node i).next ∧ (i : Int) + (h.node i).next < h.sizenode
  distinct : ∀ i < h.sizenode, ∀ j < h.sizenode, ∀ k,
    (h.node i).key = .key k → (h.node j).key = .key k → i = j
  storable : ∀ i < h.sizenode, ∀ k, (h.node i).key = .key k → Storable k
  empty : ∀ i < h.sizenode, (∀ k, (h.node i).key ≠ .key k) → (h.node i).val = .nil
  used : h.haslastfree = true →
    h.lastfree ≤ h.sizenode ∧ ∀ i < h.sizenode, h.lastfree ≤ i → (h.node i).key ≠ .nil
  dummy : h.isdummy = true → h.lsizenode = 0
  dead : ∀ i < h.sizenode, (h.node i).key = .dead ↔ h.isdummy = true

theorem link_eq (valid : h.Valid hs) {i j : Nat} (inside : i < h.sizenode) :
    h.link i = some j ↔ (h.node i).next ≠ 0 ∧ (j : Int) = (i : Int) + (h.node i).next := by
  have := (valid.inside i inside).1
  simp only [link, inside, true_and]
  split_ifs with linked
  · rw [Option.some.injEq]
    constructor
    · rintro rfl
      exact ⟨linked, by omega⟩
    · rintro ⟨_, same⟩
      omega
  · simp only [false_iff, not_and]
    exact fun linked' => absurd linked' linked

theorem link_lt (valid : h.Valid hs) {i j : Nat} (linked : h.link i = some j) :
    i < h.sizenode ∧ j < h.sizenode := by
  have inside : i < h.sizenode := by
    by_contra outside
    simp [link, outside] at linked
  have := (link_eq valid inside).mp linked
  have := (valid.inside i inside).2
  exact ⟨inside, by omega⟩

theorem home_key {i : Nat} {k : Value} (inside : i < h.sizenode)
    (key : (h.node i).key = .key k) : h.home hs i = some (h.mainpositionTV hs k) := by
  rw [home, if_pos inside, key]

theorem home_some {i p : Nat} (homed : h.home hs i = some p) :
    i < h.sizenode ∧ ∃ k, (h.node i).key = .key k ∧ h.mainpositionTV hs k = p := by
  unfold home at homed
  split_ifs at homed with inside
  refine ⟨inside, ?_⟩
  cases key : (h.node i).key with
  | key k =>
    rw [key, Option.some.injEq] at homed
    exact ⟨k, rfl, homed⟩
  | _ => simp [key] at homed

theorem chain_inside (valid : h.Valid hs) {i : Nat} {l : List Nat} (inside : i < h.sizenode)
    (chain : Chain h.link i l) : ∀ j ∈ l, j < h.sizenode := by
  intro j member
  rcases chain.linked_or_head member with rfl | ⟨c, linked⟩
  · exact inside
  · exact (link_lt valid linked).2

theorem chain_length (valid : h.Valid hs) {i : Nat} {l : List Nat} (inside : i < h.sizenode)
    (chain : Chain h.link i l) : l.length ≤ h.sizenode := by
  have within : l ⊆ List.range h.sizenode := fun j member =>
    List.mem_range.mpr (chain_inside valid inside chain j member)
  simpa using chain.nodup.length_le_of_subset within

/- A search goes through the chain and stops at the first node it accepts. -/
theorem searchChain_eq_find (valid : h.Valid hs) (accepts : Node → Bool) {i : Nat} {l : List Nat}
    (chain : Chain h.link i l) (inside : i < h.sizenode) {steps : Nat}
    (enough : l.length ≤ steps) :
    h.searchChain accepts steps i = l.find? fun j => accepts (h.node j) := by
  induction chain generalizing steps with
  | @last i none =>
    obtain _ | steps := steps
    · simp at enough
    · have unlinked : (h.node i).next = 0 := by simpa [link, inside] using none
      rw [searchChain, List.find?_cons, List.find?_nil]
      cases accepts (h.node i) <;> simp [unlinked]
  | @step i j l linked rest ih =>
    obtain _ | steps := steps
    · simp at enough
    · rw [List.length_cons, Nat.add_le_add_iff_right] at enough
      have next := (link_eq valid inside).mp linked
      have later := ih (link_lt valid linked).2 enough
      rw [searchChain, List.find?_cons]
      cases accepts (h.node i) with
      | true => rfl
      | false => simp [next.1, ← next.2, later]

/- A search from the main position of a key finds its node. -/
theorem searchChain_iff (valid : h.Valid hs) {accepts : Node → Bool} (key : Value)
    (exact' : ∀ i < h.sizenode, accepts (h.node i) = true ↔ (h.node i).key = .key key)
    (i : Nat) :
    h.searchChain accepts h.sizenode (h.mainpositionTV hs key) = some i ↔
      i < h.sizenode ∧ (h.node i).key = .key key := by
  have start := h.mainposition_lt hs key
  obtain ⟨l, chain⟩ := valid.scattered.ends (h.mainpositionTV hs key)
  have within := chain_inside valid start chain
  rw [searchChain_eq_find valid accepts chain start (chain_length valid start chain)]
  constructor
  · intro found
    have member := within i (List.mem_of_find?_eq_some found)
    have accepted : accepts (h.node i) = true := by simpa using List.find?_some found
    exact ⟨member, (exact' i member).mp accepted⟩
  · rintro ⟨inside, owner⟩
    obtain ⟨l', chain', passed⟩ := valid.scattered.reached i _ (home_key inside owner)
    rw [← chain.unique chain'] at passed
    cases found : l.find? fun j => accepts (h.node j) with
    | none =>
      have refused := List.find?_eq_none.mp found i passed
      exact absurd ((exact' i inside).mpr owner) refused
    | some j =>
      have there := within j (List.mem_of_find?_eq_some found)
      have accepted : accepts (h.node j) = true := by simpa using List.find?_some found
      rw [valid.distinct j there i inside key ((exact' j there).mp accepted) owner]

theorem equalkey_iff {key : Value} (storable : Storable key) {n : Node}
    (legal : ∀ k, n.key = .key k → Storable k) :
    equalkey key n = true ↔ n.key = .key key := by
  unfold equalkey
  cases owner : n.key with
  | nil => cases key <;> simp
  | dead => cases key <;> simp
  | key k =>
    by_cases floats : ∃ x y, key = .float x ∧ k = .float y
    · obtain ⟨x, y, rfl, rfl⟩ := floats
      have nonzero (z : Binary64) (integral : z.flttointeger = none) : z.isZero = false := by
        by_contra zero
        rw [Bool.not_eq_false] at zero
        cases (zero_is_integral zero).symm.trans integral
      obtain ⟨integral, notNaN⟩ := storable
      obtain ⟨_, notNaN'⟩ := legal _ owner
      simp only [Binary64.eq, notNaN, notNaN', nonzero _ integral, Bool.not_false, Bool.true_and,
        Bool.false_and, Bool.or_false, beq_iff_eq, NodeKey.key.injEq, Value.float.injEq]
      exact eq_comm
    · split
      · next x y same =>
        exact absurd ⟨x, y, rfl, NodeKey.key.inj same⟩ floats
      · next k' _ same =>
        cases same
        rw [beq_iff_eq, NodeKey.key.injEq]
        exact eq_comm
      · next other _ => exact absurd rfl (other k)

theorem getgeneric_iff (valid : h.Valid hs) (key : Value) (storable : Storable key) (i : Nat) :
    h.getgeneric hs key = some i ↔ i < h.sizenode ∧ (h.node i).key = .key key :=
  searchChain_iff valid key (fun i inside => equalkey_iff storable (valid.storable i inside)) i

theorem getintfromhash_iff (valid : h.Valid hs) (key : Int64) (i : Nat) :
    h.getintfromhash key = some i ↔ i < h.sizenode ∧ (h.node i).key = .key (.integer key) :=
  searchChain_iff valid (.integer key) (fun i _ => by simp) i

theorem hgetstr_iff (valid : h.Valid hs) (key : List UInt8) (i : Nat) :
    h.Hgetstr hs key = some i ↔ i < h.sizenode ∧ (h.node i).key = .key (.string key) := by
  unfold Hgetstr
  split_ifs
  · exact searchChain_iff valid (.string key) (fun i _ => by simp) i
  · exact getgeneric_iff valid (.string key) trivial i

/-- Key k has value v in the hash part. -/
def Holds (h : HashPart) (k v : Value) : Prop :=
  ∃ i < h.sizenode, (h.node i).key = .key k ∧ (h.node i).val = v

theorem Holds.unique (valid : h.Valid hs) {k v v' : Value} (one : h.Holds k v)
    (two : h.Holds k v') : v = v' := by
  obtain ⟨i, inside, key, rfl⟩ := one
  obtain ⟨j, inside', key', rfl⟩ := two
  rw [valid.distinct i inside j inside' k key key']

/-- A free node has a nil key. -/
def free (h : HashPart) : Finset Nat :=
  (Finset.range h.sizenode).filter fun i => (h.node i).key = .nil

theorem mem_free {i : Nat} : i ∈ h.free ↔ i < h.sizenode ∧ (h.node i).key = .nil := by
  simp [free]

theorem home_free (hs : Hashes) {f : Nat} (free : f ∈ h.free) : h.home hs f = none := by
  obtain ⟨inside, key⟩ := mem_free.mp free
  rw [home, if_pos inside, key]

end HashPart

end Luava.Ltable
