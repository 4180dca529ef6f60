import Luava.LinkedLists
import Luava.Lstring
import Mathlib.Data.Finset.Card

/-
Interning. In every run of the string functions and of the collector, whatever rehashes and
failed reallocations happen on the way, a short string has one object, and asking for it gives
that object: comparing addresses compares contents.
-/
namespace Luava.Lstring

open LinkedLists

namespace Strings

variable {S S' : Strings} {lists : Nat → List Addr} {n : Nat}

/-- The lists of the table under a size n: they have the short strings, each one where its hash
   tells. -/
structure Table (S : Strings) (n : Nat) (lists : Nat → List Addr) : Prop where
  buckets : Buckets S.hnext S.hash lists
  members : ∀ a, (∃ i, a ∈ lists i) ↔ ∃ t, S.mem a = some t ∧ t.short = true
  placed : ∀ i, ∀ a ∈ lists i, lmod (S.hashOf a) n = i

/-- What the functions of the table leave alone. -/
structure SameObjects (S S' : Strings) : Prop where
  mem : S'.mem = S.mem
  nuse : S'.nuse = S.nuse
  seed : S'.seed = S.seed
  strcache : S'.strcache = S.strcache
  memerrmsg : S'.memerrmsg = S.memerrmsg

theorem SameObjects.refl (S : Strings) : SameObjects S S := ⟨rfl, rfl, rfl, rfl, rfl⟩

theorem SameObjects.trans {S₁ S₂ : Strings} (first : SameObjects S S₁)
    (second : SameObjects S₁ S₂) : SameObjects S S₂ :=
  ⟨second.mem.trans first.mem, second.nuse.trans first.nuse, second.seed.trans first.seed,
    second.strcache.trans first.strcache, second.memerrmsg.trans first.memerrmsg⟩

theorem SameObjects.hashOf (same : SameObjects S S') (a : Addr) : S'.hashOf a = S.hashOf a := by
  rw [Strings.hashOf, Strings.hashOf, same.mem]

/- The strings of a list go where they belong under the new size. -/
theorem rehashList_spec (nsize : Nat) {p : Option Addr} {l : List Addr} (steps : Nat)
    (enough : l.length ≤ steps) (linked : Linked S.hnext p l)
    (buckets : Buckets S.hnext S.hash lists) (apart : ∀ a ∈ l, ∀ i, a ∉ lists i) :
    ∃ lists', Buckets (rehashList nsize steps p S).hnext (rehashList nsize steps p S).hash lists' ∧
      (∀ i a, a ∈ lists' i ↔ a ∈ lists i ∨ a ∈ l ∧ lmod (S.hashOf a) nsize = i) ∧
      SameObjects S (rehashList nsize steps p S) ∧ (rehashList nsize steps p S).size = S.size := by
  induction l generalizing S p lists steps with
  | nil =>
    rw [Linked.nil_iff] at linked
    subst linked
    have unchanged : rehashList nsize steps none S = S := by cases steps <;> rfl
    rw [unchanged]
    exact ⟨lists, buckets, fun i a => by simp, .refl S, rfl⟩
  | cons a l ih =>
    obtain ⟨rfl, rest⟩ := Linked.cons_iff.mp linked
    obtain _ | steps := steps
    · simp at enough
    · have fresh := (List.nodup_cons.mp linked.nodup).1
      have pushed := buckets.push (apart a List.mem_cons_self) (lmod (S.hashOf a) nsize)
      rw [rehashList]
      generalize place : lmod (S.hashOf a) nsize = h at pushed ⊢
      have added (i : Nat) (b : Addr) : b ∈ Function.update lists h (a :: lists h) i ↔
          b ∈ lists i ∨ b = a ∧ h = i := by
        by_cases same : i = h
        · subst same
          rw [Function.update_self, List.mem_cons]
          tauto
        · rw [Function.update_of_ne same]
          have other : h ≠ i := fun eq => same eq.symm
          tauto
      have rest' : Linked (Function.update S.hnext a (S.hash h)) (S.hnext a) l :=
        rest.congr fun b member =>
          Function.update_of_ne (fun same : b = a => fresh (same ▸ member)) ..
      have apart' (b : Addr) (member : b ∈ l) (i : Nat) :
          b ∉ Function.update lists h (a :: lists h) i := by
        rw [added]
        rintro (old | ⟨rfl, _⟩)
        · exact apart b (List.mem_cons_of_mem a member) i old
        · exact fresh member
      obtain ⟨lists', buckets', members, same, size⟩ :=
        ih (S := { S with
          hnext := Function.update S.hnext a (S.hash h)
          hash := Function.update S.hash h (some a) }) steps (by simpa using enough) rest' pushed
          apart'
      refine ⟨lists', buckets', fun i b => ?_, ⟨same.mem, same.nuse, same.seed, same.strcache,
        same.memerrmsg⟩, size⟩
      rw [members, added, List.mem_cons]
      have hashes : lmod (Strings.hashOf { S with
          hnext := Function.update S.hnext a (S.hash h)
          hash := Function.update S.hash h (some a) } b) nsize = lmod (S.hashOf b) nsize := rfl
      rw [hashes]
      constructor
      · rintro ((old | ⟨rfl, rfl⟩) | ⟨member, here⟩)
        · exact .inl old
        · exact .inr ⟨.inl rfl, place⟩
        · exact .inr ⟨.inr member, here⟩
      · rintro (old | ⟨rfl | member, here⟩)
        · exact .inl (.inl old)
        · exact .inl (.inr ⟨rfl, place.symm.trans here⟩)
        · exact .inr ⟨member, here⟩

/- The lists from i on are still to be rehashed; the others are in place. -/
theorem rehashFrom_spec (osize nsize left i : Nat) (range : i + left = osize)
    (buckets : Buckets S.hnext S.hash lists)
    (placed : ∀ j, ∀ a ∈ lists j, i ≤ j ∧ j < osize ∨ lmod (S.hashOf a) nsize = j)
    (bound : ∀ l : List Addr, l.Nodup → (∀ a ∈ l, ∃ i, a ∈ lists i) → l.length ≤ S.nuse) :
    ∃ lists', Buckets (rehashFrom nsize left i S).hnext (rehashFrom nsize left i S).hash lists' ∧
      (∀ a, (∃ i, a ∈ lists' i) ↔ ∃ i, a ∈ lists i) ∧
      (∀ j, ∀ a ∈ lists' j, lmod (S.hashOf a) nsize = j) ∧
      SameObjects S (rehashFrom nsize left i S) ∧ (rehashFrom nsize left i S).size = S.size := by
  induction left generalizing S i lists with
  | zero =>
    refine ⟨lists, buckets, fun _ => Iff.rfl, fun j a member => ?_, .refl S, rfl⟩
    exact (placed j a member).resolve_left (by omega)
  | succ left ih =>
    rw [rehashFrom]
    have detached := buckets.detach i
    have apart (a : Addr) (member : a ∈ lists i) (j : Nat) :
        a ∉ Function.update lists i [] j := by
      by_cases same : j = i
      · rw [same, Function.update_self]
        exact List.not_mem_nil
      · rw [Function.update_of_ne same]
        exact fun other => same (buckets.apart j i a other member)
    have small := bound (lists i) (buckets.linked i).nodup fun a member => ⟨i, member⟩
    obtain ⟨lists₁, buckets₁, members₁, same₁, size₁⟩ :=
      rehashList_spec (S := { S with hash := Function.update S.hash i none }) nsize S.nuse
        small (buckets.linked i) detached apart
    generalize rehashList nsize S.nuse (S.hash i)
      { S with hash := Function.update S.hash i none } = S₁ at *
    have same : SameObjects S S₁ :=
      ⟨same₁.mem, same₁.nuse, same₁.seed, same₁.strcache, same₁.memerrmsg⟩
    have split (j : Nat) (a : Addr) :
        a ∈ lists₁ j ↔ j ≠ i ∧ a ∈ lists j ∨ a ∈ lists i ∧ lmod (S.hashOf a) nsize = j := by
      rw [members₁]
      refine or_congr ?_ Iff.rfl
      by_cases here : j = i
      · subst here
        simp
      · rw [Function.update_of_ne here]
        exact (and_iff_right here).symm
    have all (a : Addr) : (∃ j, a ∈ lists₁ j) ↔ ∃ j, a ∈ lists j := by
      constructor
      · rintro ⟨j, member⟩
        rcases (split j a).mp member with ⟨_, old⟩ | ⟨old, _⟩
        · exact ⟨j, old⟩
        · exact ⟨i, old⟩
      · rintro ⟨j, member⟩
        by_cases here : j = i
        · subst here
          exact ⟨_, (split _ a).mpr (.inr ⟨member, rfl⟩)⟩
        · exact ⟨j, (split j a).mpr (.inl ⟨here, member⟩)⟩
    obtain ⟨lists₂, buckets₂, members₂, placed₂, same₂, size₂⟩ :=
      ih (S := S₁) (i + 1) (by omega) buckets₁
        (fun j a member => by
          rw [same.hashOf]
          rcases (split j a).mp member with ⟨here, old⟩ | ⟨_, there⟩
          · exact (placed j a old).imp_left fun range => ⟨by omega, range.2⟩
          · exact .inr there)
        (fun l distinct inside => by
          rw [same.nuse]
          exact bound l distinct fun a member => (all a).mp (inside a member))
    refine ⟨lists₂, buckets₂, fun a => (members₂ a).trans (all a), fun j a member => ?_,
      same.trans same₂, size₂.trans size₁⟩
    rw [← same.hashOf]
    exact placed₂ j a member

/- nuse is the number of short strings. -/
def Counted (S : Strings) : Prop :=
  ∃ strings : Finset Addr, (∀ a, a ∈ strings ↔ ∃ t, S.mem a = some t ∧ t.short = true) ∧
    strings.card = S.nuse

theorem Table.bound (table : Table S n lists) (counted : S.Counted) (l : List Addr)
    (distinct : l.Nodup) (inside : ∀ a ∈ l, ∃ i, a ∈ lists i) : l.length ≤ S.nuse := by
  obtain ⟨strings, members, card⟩ := counted
  rw [← card, ← List.toFinset_card_of_nodup distinct]
  refine Finset.card_le_card fun a member => ?_
  exact (members a).mpr ((table.members a).mp (inside a (List.mem_toFinset.mp member)))

theorem lmod_lt (h : UInt32) (positive : 0 < n) : lmod h n < n := by
  have := @Nat.and_le_right h.toNat (n - 1)
  rw [lmod]
  omega

/-- tablerehash makes a table for the new size. -/
theorem tablerehash_spec {osize : Nat} (nsize : Nat) (positive : 0 < osize)
    (table : Table S osize lists) (counted : S.Counted) :
    ∃ lists', Table (S.tablerehash osize nsize) nsize lists' ∧
      SameObjects S (S.tablerehash osize nsize) ∧ (S.tablerehash osize nsize).size = S.size := by
  have below (i : Nat) (a : Addr) (member : a ∈ lists i) : i < osize := by
    rw [← table.placed i a member]
    exact lmod_lt _ positive
  have cleared : (fun i => if osize ≤ i ∧ i < nsize then none else S.hash i) = S.hash := by
    funext i
    split_ifs with new
    · have empty : lists i = [] := List.eq_nil_iff_forall_not_mem.mpr fun a member => by
        have := below i a member
        omega
      have linked := table.buckets.linked i
      rw [empty, Linked.nil_iff] at linked
      exact linked.symm
    · rfl
  rw [tablerehash, cleared]
  obtain ⟨lists', buckets, members, placed, same, size⟩ :=
    rehashFrom_spec osize nsize osize 0 (Nat.zero_add _) table.buckets
      (fun j a member => .inl ⟨Nat.zero_le j, below j a member⟩) (table.bound counted)
  refine ⟨lists', ⟨buckets, fun a => ?_, fun i a member => ?_⟩, same, size⟩
  · rw [members, table.members, same.mem]
  · rw [same.hashOf]
    exact placed i a member

theorem Table.resized (table : Table S n lists) (size : Nat) :
    Table { S with size := size } n lists := ⟨table.buckets, table.members, table.placed⟩

theorem SameObjects.counted (same : SameObjects S S') (counted : S.Counted) : S'.Counted := by
  obtain ⟨strings, members, card⟩ := counted
  exact ⟨strings, fun a => by rw [members, same.mem], card.trans same.nuse.symm⟩

/-- luaS_resize keeps the table, under one of the two sizes. -/
theorem luaSResize_spec {nsize : Nat} (allocated : Bool) (old : 0 < S.size) (new : 0 < nsize)
    (table : Table S S.size lists) (counted : S.Counted) :
    ∃ lists', Table (S.luaSResize nsize allocated) (S.luaSResize nsize allocated).size lists' ∧
      SameObjects S (S.luaSResize nsize allocated) ∧ 0 < (S.luaSResize nsize allocated).size := by
  obtain ⟨lists₁, table₁, same₁, size₁⟩ := tablerehash_spec nsize old table counted
  unfold luaSResize
  dsimp only
  by_cases shrinking : nsize < S.size
  · rw [if_pos shrinking]
    cases allocated with
    | true =>
      rw [if_pos rfl, if_neg (by omega)]
      exact ⟨lists₁, table₁.resized nsize, ⟨same₁.mem, same₁.nuse, same₁.seed, same₁.strcache,
        same₁.memerrmsg⟩, new⟩
    | false =>
      obtain ⟨lists₂, table₂, same₂, size₂⟩ :=
        tablerehash_spec S.size new table₁ (same₁.counted counted)
      have size : ((S.tablerehash S.size nsize).tablerehash nsize S.size).size = S.size :=
        size₂.trans size₁
      rw [if_neg Bool.false_ne_true, if_pos shrinking, size]
      exact ⟨lists₂, table₂, same₁.trans same₂, old⟩
  · rw [if_neg shrinking]
    cases allocated with
    | false =>
      rw [if_neg Bool.false_ne_true, if_neg shrinking]
      exact ⟨lists, table, .refl S, old⟩
    | true =>
      rw [if_pos rfl]
      by_cases growing : S.size < nsize
      · obtain ⟨lists₂, table₂, same₂, size₂⟩ :=
          tablerehash_spec nsize old (table.resized nsize) counted
        rw [if_pos growing, size₂]
        exact ⟨lists₂, table₂, ⟨same₂.mem, same₂.nuse, same₂.seed, same₂.strcache,
          same₂.memerrmsg⟩, new⟩
      · have same : nsize = S.size := by omega
        rw [if_neg growing]
        exact ⟨lists, same ▸ table.resized nsize, ⟨rfl, rfl, rfl, rfl, rfl⟩, new⟩

/- What the string table promises. -/
structure Interned (S : Strings) : Prop where
  table : ∃ lists, Table S S.size lists
  counted : S.Counted
  size : 0 < S.size
  hashes : ∀ a t, S.mem a = some t → t.short = true → t.hash = luaSHash t.bytes S.seed
  unique : ∀ a b t u, S.mem a = some t → S.mem b = some u → t.short = true → u.short = true →
    t.bytes = u.bytes → a = b

/- A live object with the bytes str, of the kind luaS_newlstr gives it. -/
def Holds (S : Strings) (a : Addr) (str : List UInt8) : Prop :=
  ∃ t, S.mem a = some t ∧ t.bytes = str ∧ t.dead = false ∧
    (t.short = true ↔ str.length ≤ LUAI_MAXSHORTLEN)

/- What the cache may have: the object of a C string. -/
def HoldsText (S : Strings) (a : Addr) : Prop := ∃ str, 0 ∉ str ∧ S.Holds a str

/-- The invariant of a run. -/
structure Valid (S : Strings) : Prop extends Interned S where
  cache : ∀ i < STRCACHE_N, ∀ j < STRCACHE_M, S.HoldsText (S.strcache i j)
  message : S.HoldsText S.memerrmsg

theorem findshrstr_eq (str : List UInt8) {p : Option Addr} {l : List Addr} (steps : Nat)
    (enough : l.length ≤ steps) (linked : Linked S.hnext p l) :
    S.findshrstr str steps p = l.find? fun a => S.contents a = str := by
  induction l generalizing p steps with
  | nil =>
    rw [Linked.nil_iff] at linked
    subst linked
    cases steps <;> rfl
  | cons a l ih =>
    obtain ⟨rfl, rest⟩ := Linked.cons_iff.mp linked
    obtain _ | steps := steps
    · simp at enough
    · rw [findshrstr, List.find?_cons]
      by_cases here : S.contents a = str
      · simp [here]
      · simp only [here, if_false, decide_false]
        exact ih steps (by simpa using enough) rest

theorem contents_of_mem {a : Addr} {t : TString} (object : S.mem a = some t) :
    S.contents a = t.bytes ∧ S.hashOf a = t.hash := by
  rw [contents, hashOf, object]
  exact ⟨rfl, rfl⟩

/-- A search in the table finds the short string with the bytes, if there is one. -/
theorem Interned.find (interned : S.Interned) (str : List UInt8) (a : Addr) :
    S.findshrstr str S.nuse (S.hash (lmod (luaSHash str S.seed) S.size)) = some a ↔
      ∃ t, S.mem a = some t ∧ t.short = true ∧ t.bytes = str := by
  obtain ⟨lists, table⟩ := interned.table
  generalize place : lmod (luaSHash str S.seed) S.size = i
  have linked := table.buckets.linked i
  have small := table.bound interned.counted (lists i) linked.nodup fun b member => ⟨i, member⟩
  rw [findshrstr_eq str S.nuse small linked]
  have sound (b : Addr) (found : (lists i).find? (fun c => S.contents c = str) = some b) :
      ∃ t, S.mem b = some t ∧ t.short = true ∧ t.bytes = str := by
    obtain ⟨t, object, short⟩ := (table.members b).mp ⟨i, List.mem_of_find?_eq_some found⟩
    have same : S.contents b = str := by simpa using List.find?_some found
    exact ⟨t, object, short, (contents_of_mem object).1.symm.trans same⟩
  refine ⟨sound a, ?_⟩
  rintro ⟨t, object, short, bytes⟩
  obtain ⟨j, member⟩ := (table.members a).mpr ⟨t, object, short⟩
  have here : j = i := by
    rw [← table.placed j a member, (contents_of_mem object).2, interned.hashes a t object short,
      bytes, place]
  cases found : (lists i).find? fun c => S.contents c = str with
  | none =>
    have refused := List.find?_eq_none.mp found a (here ▸ member)
    exact absurd ((contents_of_mem object).1.trans bytes) (by simpa using refused)
  | some b =>
    obtain ⟨u, object', short', bytes'⟩ := sound b found
    rw [interned.unique b a u t object' object short' short (bytes'.trans bytes.symm)]

/- An object keeps its bytes and its kind, and does not die. -/
def Keeps (S S' : Strings) : Prop :=
  ∀ a t, S.mem a = some t → ∃ t', S'.mem a = some t' ∧ t'.bytes = t.bytes ∧ t'.short = t.short ∧
    (t.dead = false → t'.dead = false)

theorem Keeps.refl (S : Strings) : Keeps S S := fun _ t object => ⟨t, object, rfl, rfl, id⟩

theorem Keeps.trans {S₁ S₂ : Strings} (first : Keeps S S₁) (second : Keeps S₁ S₂) :
    Keeps S S₂ := by
  intro a t object
  obtain ⟨t₁, object₁, bytes₁, short₁, live₁⟩ := first a t object
  obtain ⟨t₂, object₂, bytes₂, short₂, live₂⟩ := second a t₁ object₁
  exact ⟨t₂, object₂, bytes₂.trans bytes₁, short₂.trans short₁, live₂ ∘ live₁⟩

theorem Keeps.holds {a : Addr} {str : List UInt8} (keeps : Keeps S S') (holds : S.Holds a str) :
    S'.Holds a str := by
  obtain ⟨t, object, bytes, live, kind⟩ := holds
  obtain ⟨t', object', bytes', short, lives⟩ := keeps a t object
  exact ⟨t', object', bytes'.trans bytes, lives live, short ▸ kind⟩

theorem Keeps.holdsText {a : Addr} (keeps : Keeps S S') (holds : S.HoldsText a) :
    S'.HoldsText a := by
  obtain ⟨str, text, holds⟩ := holds
  exact ⟨str, text, keeps.holds holds⟩

/- The cache and the message follow the objects. -/
theorem Valid.kept (valid : S.Valid) (interned : S'.Interned) (keeps : Keeps S S')
    (cache : S'.strcache = S.strcache) (message : S'.memerrmsg = S.memerrmsg) : S'.Valid := by
  refine ⟨interned, fun i low j low' => ?_, ?_⟩
  · rw [cache]
    exact keeps.holdsText (valid.cache i low j low')
  · rw [message]
    exact keeps.holdsText valid.message

/- Another table for the same objects. -/
theorem Interned.rebuilt (interned : S.Interned) (same : SameObjects S S')
    (table : ∃ lists, Table S' S'.size lists) (size : 0 < S'.size) : S'.Interned := by
  refine ⟨table, same.counted interned.counted, size, ?_, ?_⟩
  · rw [same.mem, same.seed]
    exact interned.hashes
  · rw [same.mem]
    exact interned.unique

theorem SameObjects.keeps (same : SameObjects S S') : Keeps S S' := by
  intro a t object
  rw [same.mem]
  exact ⟨t, object, rfl, rfl, id⟩

theorem Interned.luaSResize (interned : S.Interned) {nsize : Nat} (new : 0 < nsize)
    (allocated : Bool) :
    (S.luaSResize nsize allocated).Interned ∧ SameObjects S (S.luaSResize nsize allocated) := by
  obtain ⟨lists, table⟩ := interned.table
  obtain ⟨lists', table', same, size⟩ :=
    luaSResize_spec allocated interned.size new table interned.counted
  exact ⟨interned.rebuilt same ⟨lists', table'⟩ size, same⟩

/- Only the marks of objects change. -/
theorem Interned.marked (interned : S.Interned) (mark : Addr → TString → Bool) :
    Interned { S with mem := fun a => (S.mem a).map fun t => { t with dead := mark a t } } := by
  have back {a : Addr} {t : TString}
      (object : ((S.mem a).map fun t => { t with dead := mark a t }) = some t) :
      ∃ u, S.mem a = some u ∧ t.bytes = u.bytes ∧ t.short = u.short ∧ t.hash = u.hash := by
    obtain ⟨u, object', rfl⟩ := Option.map_eq_some_iff.mp object
    exact ⟨u, object', rfl, rfl, rfl⟩
  have hashOf (a : Addr) : Strings.hashOf
      { S with mem := fun a => (S.mem a).map fun t => { t with dead := mark a t } } a =
        S.hashOf a := by
    simp only [Strings.hashOf]
    cases S.mem a <;> rfl
  have members (a : Addr) :
      (∃ t, ((S.mem a).map fun t => { t with dead := mark a t }) = some t ∧ t.short = true) ↔
        ∃ t, S.mem a = some t ∧ t.short = true := by
    cases S.mem a <;> simp
  obtain ⟨lists, table⟩ := interned.table
  obtain ⟨strings, all, card⟩ := interned.counted
  refine ⟨⟨lists, table.buckets, fun a => (table.members a).trans (members a).symm,
    fun i a member => (hashOf a) ▸ table.placed i a member⟩,
    ⟨strings, fun a => (all a).trans (members a).symm, card⟩, interned.size, ?_, ?_⟩
  · intro a t object isShort
    obtain ⟨u, object', bytes, short, hash⟩ := back object
    rw [hash, bytes]
    exact interned.hashes a u object' (short ▸ isShort)
  · intro a b t u one two short short' same
    obtain ⟨t', one', bytes, kind, _⟩ := back one
    obtain ⟨u', two', bytes', kind', _⟩ := back two
    exact interned.unique a b t' u' one' two' (kind ▸ short) (kind' ▸ short')
      (bytes.symm.trans (same.trans bytes'))

/-- What a function that makes a string gives: an object with the bytes, beside what was there. -/
structure Gives (S : Strings) (str : List UInt8) (a : Addr) (S' : Strings) : Prop where
  interned : S'.Interned
  object : S'.Holds a str
  keeps : Keeps S S'
  strcache : S'.strcache = S.strcache
  memerrmsg : S'.memerrmsg = S.memerrmsg

theorem Interned.changewhite (interned : S.Interned) {a : Addr} {t : TString}
    (object : S.mem a = some t) (short : t.short = true)
    (small : t.bytes.length ≤ LUAI_MAXSHORTLEN) : Gives S t.bytes a (S.changewhite a) := by
  have marks : S.changewhite a = { S with mem := fun b => (S.mem b).map fun t =>
      { t with dead := if b = a then false else t.dead } } := by
    unfold Strings.changewhite
    congr 1
    funext b
    by_cases same : b = a
    · subst same
      simp
    · rw [Function.update_of_ne same]
      simp [same]
  rw [marks]
  refine ⟨interned.marked _, ?_, fun b u object' => ?_, rfl, rfl⟩
  · exact ⟨{ t with dead := false }, by simp [object], rfl, rfl, iff_of_true short small⟩
  · exact ⟨{ u with dead := if b = a then false else u.dead }, by simp [object'], rfl, rfl,
      fun live => by rw [live, ite_self]⟩

/- A new short string goes to the front of its list. -/
theorem Interned.push (interned : S.Interned) {str : List UInt8} {fresh : Addr}
    (unused : S.mem fresh = none) (small : str.length ≤ LUAI_MAXSHORTLEN)
    (absent : ∀ a t, S.mem a = some t → t.short = true → t.bytes ≠ str) :
    Gives S str fresh { S with
      mem := Function.update S.mem fresh (some ⟨str, true, luaSHash str S.seed, false⟩)
      hnext := Function.update S.hnext fresh (S.hash (lmod (luaSHash str S.seed) S.size))
      hash := Function.update S.hash (lmod (luaSHash str S.seed) S.size) (some fresh)
      nuse := S.nuse + 1 } := by
  obtain ⟨lists, table⟩ := interned.table
  obtain ⟨strings, all, card⟩ := interned.counted
  generalize hash : luaSHash str S.seed = h
  generalize place : lmod h S.size = i
  have outside {a : Addr} {t : TString} (object : S.mem a = some t) : a ≠ fresh := by
    rintro rfl
    rw [unused] at object
    cases object
  have new (j : Nat) : fresh ∉ lists j := fun member => by
    obtain ⟨t, object, _⟩ := (table.members fresh).mp ⟨j, member⟩
    exact outside object rfl
  have cases_object {a : Addr} {t : TString}
      (object : Function.update S.mem fresh (some ⟨str, true, h, false⟩) a = some t) :
      a = fresh ∧ t = ⟨str, true, h, false⟩ ∨ S.mem a = some t := by
    by_cases same : a = fresh
    · subst same
      rw [Function.update_self] at object
      exact .inl ⟨rfl, (Option.some.inj object).symm⟩
    · rw [Function.update_of_ne same] at object
      exact .inr object
  have old {a : Addr} {t : TString} (object : S.mem a = some t) :
      Function.update S.mem fresh (some ⟨str, true, h, false⟩) a = some t := by
    rw [Function.update_of_ne (outside object), object]
  have members (a : Addr) : (∃ t, Function.update S.mem fresh (some ⟨str, true, h, false⟩) a =
      some t ∧ t.short = true) ↔ a = fresh ∨ ∃ t, S.mem a = some t ∧ t.short = true := by
    constructor
    · rintro ⟨t, object, short⟩
      exact (cases_object object).imp And.left fun object => ⟨t, object, short⟩
    · rintro (rfl | ⟨t, object, short⟩)
      · exact ⟨_, Function.update_self .., rfl⟩
      · exact ⟨t, old object, short⟩
  have listed (j : Nat) (a : Addr) : a ∈ Function.update lists i (fresh :: lists i) j ↔
      a = fresh ∧ j = i ∨ a ∈ lists j := by
    by_cases same : j = i
    · subst same
      rw [Function.update_self, List.mem_cons, and_iff_left rfl]
    · rw [Function.update_of_ne same]
      exact (or_iff_right fun here => same here.2).symm
  refine ⟨⟨⟨Function.update lists i (fresh :: lists i), table.buckets.push new i, fun a => ?_,
    fun j a member => ?_⟩, ⟨insert fresh strings, fun a => ?_, ?_⟩, interned.size, ?_, ?_⟩,
    ?_, fun a t object => ⟨t, old object, rfl, rfl, id⟩, rfl, rfl⟩
  · rw [members, ← table.members]
    simp only [listed, exists_or, exists_and_left, exists_eq, and_true]
  · rcases (listed j a).mp member with ⟨rfl, rfl⟩ | member
    · rw [(contents_of_mem (Function.update_self ..)).2, place]
    · obtain ⟨t, object, _⟩ := (table.members a).mp ⟨j, member⟩
      rw [(contents_of_mem (old object)).2, ← (contents_of_mem object).2]
      exact table.placed j a member
  · rw [members, ← all, Finset.mem_insert]
  · rw [Finset.card_insert_of_notMem, card]
    rw [all]
    rintro ⟨t, object, _⟩
    exact outside object rfl
  · intro a t object short
    rcases cases_object object with ⟨_, rfl⟩ | object
    · exact hash.symm
    · exact interned.hashes a t object short
  · intro a b t u one two short short' same
    rcases cases_object one with ⟨rfl, rfl⟩ | one'
    · rcases cases_object two with ⟨rfl, _⟩ | two'
      · rfl
      · exact absurd same.symm (absent b u two' short')
    · rcases cases_object two with ⟨rfl, rfl⟩ | two'
      · exact absurd same (absent a t one' short)
      · exact interned.unique a b t u one' two' short short' same
  · exact ⟨_, Function.update_self .., rfl, rfl, iff_of_true rfl small⟩

theorem Interned.internshrstr (interned : S.Interned) {str : List UInt8} {fresh a : Addr}
    (unused : S.mem fresh = none) (small : str.length ≤ LUAI_MAXSHORTLEN) (allocated : Bool)
    (result : S.internshrstr str fresh allocated = some (a, S')) : Gives S str a S' := by
  unfold Strings.internshrstr at result
  dsimp only at result
  cases found : S.findshrstr str S.nuse (S.hash (lmod (luaSHash str S.seed) S.size)) with
  | some b =>
    obtain ⟨t, object, short, rfl⟩ := (interned.find str b).mp found
    rw [found] at result
    cases result
    exact interned.changewhite object short small
  | none =>
    rw [found] at result
    have absent {S₁ : Strings} (same : SameObjects S S₁) (b : Addr) (t : TString)
        (object : S₁.mem b = some t) (short : t.short = true) : t.bytes ≠ str := by
      intro bytes
      rw [same.mem] at object
      rw [(interned.find str b).mpr ⟨t, object, short, bytes⟩] at found
      cases found
    have pushed {S₁ : Strings} (interned₁ : S₁.Interned) (same : SameObjects S S₁)
        (result : (some (fresh, { S₁ with
          mem := Function.update S₁.mem fresh (some ⟨str, true, luaSHash str S.seed, false⟩)
          hnext := Function.update S₁.hnext fresh (S₁.hash (lmod (luaSHash str S.seed) S₁.size))
          hash := Function.update S₁.hash (lmod (luaSHash str S.seed) S₁.size) (some fresh)
          nuse := S₁.nuse + 1 }) : Option (Addr × Strings)) = some (a, S')) :
        Gives S str a S' := by
      rw [← same.seed] at result
      cases result
      have gives := interned₁.push (same.mem ▸ unused) small (absent same)
      exact ⟨gives.interned, gives.object, same.keeps.trans gives.keeps,
        gives.strcache.trans same.strcache, gives.memerrmsg.trans same.memerrmsg⟩
    by_cases full : S.size ≤ S.nuse
    · simp only [if_pos full] at result
      obtain ⟨S₁, grown, result⟩ := Option.bind_eq_some_iff.mp result
      unfold growstrtab at grown
      split_ifs at grown with most large
      · cases grown
        have twice : 0 < S.size * 2 := by have := interned.size; omega
        have resized := interned.luaSResize twice allocated
        exact pushed resized.1 resized.2 result
      · cases grown
        exact pushed interned (.refl S) result
    · simp only [if_neg full] at result
      exact pushed interned (.refl S) result

/- The only failure is the memory error of a table with too many strings. -/
theorem internshrstr_none {str : List UInt8} {fresh : Addr} {allocated : Bool}
    (failed : S.internshrstr str fresh allocated = none) : S.nuse = INT_MAX := by
  unfold Strings.internshrstr at failed
  dsimp only at failed
  cases found : S.findshrstr str S.nuse (S.hash (lmod (luaSHash str S.seed) S.size)) with
  | some b =>
    rw [found] at failed
    cases failed
  | none =>
    rw [found] at failed
    by_contra few
    by_cases full : S.size ≤ S.nuse
    · by_cases large : S.size ≤ MAXSTRTB / 2 <;> simp [full, growstrtab, few, large] at failed
    · simp [full] at failed

/- A long string has an object of its own. -/
theorem Interned.createlngstr (interned : S.Interned) {fresh : Addr}
    (unused : S.mem fresh = none) (str : List UInt8) :
    (S.createlngstr str fresh).2.Interned ∧ Keeps S (S.createlngstr str fresh).2 := by
  have outside {a : Addr} {t : TString} (object : S.mem a = some t) : a ≠ fresh := by
    rintro rfl
    rw [unused] at object
    cases object
  have old {a : Addr} {t : TString} (object : S.mem a = some t) :
      Function.update S.mem fresh (some ⟨str, false, S.seed, false⟩) a = some t := by
    rw [Function.update_of_ne (outside object), object]
  have short_object {a : Addr} {t : TString}
      (object : Function.update S.mem fresh (some ⟨str, false, S.seed, false⟩) a = some t)
      (short : t.short = true) : S.mem a = some t := by
    by_cases same : a = fresh
    · subst same
      rw [Function.update_self] at object
      cases object
      cases short
    · rwa [Function.update_of_ne same] at object
  have members (a : Addr) : (∃ t, Function.update S.mem fresh (some ⟨str, false, S.seed, false⟩) a =
      some t ∧ t.short = true) ↔ ∃ t, S.mem a = some t ∧ t.short = true := by
    constructor
    · rintro ⟨t, object, short⟩
      exact ⟨t, short_object object short, short⟩
    · rintro ⟨t, object, short⟩
      exact ⟨t, old object, short⟩
  obtain ⟨lists, table⟩ := interned.table
  obtain ⟨strings, all, card⟩ := interned.counted
  refine ⟨⟨⟨lists, table.buckets, fun a => (table.members a).trans (members a).symm,
    fun i a member => ?_⟩, ⟨strings, fun a => (all a).trans (members a).symm, card⟩,
    interned.size, ?_, ?_⟩, fun a t object => ⟨t, old object, rfl, rfl, id⟩⟩
  · obtain ⟨t, object, _⟩ := (table.members a).mp ⟨i, member⟩
    rw [(contents_of_mem (old object)).2, ← (contents_of_mem object).2]
    exact table.placed i a member
  · intro a t object short
    exact interned.hashes a t (short_object object short) short
  · intro a b t u one two short short' same
    exact interned.unique a b t u (short_object one short) (short_object two short') short short'
      same

theorem Interned.luaSNewlstr (interned : S.Interned) {str : List UInt8} {fresh a : Addr}
    (unused : S.mem fresh = none) (allocated : Bool)
    (result : S.luaSNewlstr str fresh allocated = some (a, S')) : Gives S str a S' := by
  unfold Strings.luaSNewlstr at result
  split_ifs at result with small
  · exact interned.internshrstr unused small allocated result
  · cases result
    have created := interned.createlngstr unused str
    exact ⟨created.1, ⟨_, Function.update_self .., rfl, rfl, iff_of_false Bool.false_ne_true small⟩,
      created.2, rfl, rfl⟩

theorem cacheHit_some {str : List UInt8} {i : Nat} {a : Addr} (left j : Nat)
    (hit : S.cacheHit str i left j = some a) :
    ∃ k, j ≤ k ∧ k < j + left ∧ a = S.strcache i k ∧ Utf8.cString (S.contents a) = str := by
  induction left generalizing j with
  | zero => cases hit
  | succ left ih =>
    rw [cacheHit] at hit
    split_ifs at hit with here
    · cases hit
      exact ⟨j, le_rfl, by omega, rfl, here⟩
    · obtain ⟨k, low, high, eq⟩ := ih (j + 1) hit
      exact ⟨k, by omega, by omega, eq⟩

theorem Holds.contents {a : Addr} {str : List UInt8} (holds : S.Holds a str) :
    S.contents a = str := by
  obtain ⟨t, object, bytes, _⟩ := holds
  exact (contents_of_mem object).1.trans bytes

theorem cString_of_text {str : List UInt8} (text : 0 ∉ str) : Utf8.cString str = str := by
  have whole := Utf8.cString_append_of_ne_zero (fun b member => ne_of_mem_of_not_mem member text) []
  simpa [Utf8.cString] using whole

/-- What holds of a string function from a valid state. -/
structure Makes (S : Strings) (str : List UInt8) (a : Addr) (S' : Strings) : Prop where
  valid : S'.Valid
  object : S'.Holds a str
  keeps : Keeps S S'

theorem Valid.luaSNewlstr (valid : S.Valid) {str : List UInt8} {fresh a : Addr}
    (unused : S.mem fresh = none) (allocated : Bool)
    (result : S.luaSNewlstr str fresh allocated = some (a, S')) : Makes S str a S' := by
  have gives := valid.toInterned.luaSNewlstr unused allocated result
  exact ⟨valid.kept gives.interned gives.keeps gives.strcache gives.memerrmsg, gives.object,
    gives.keeps⟩

theorem Valid.cached (valid : S.Valid) (cache : Nat → Nat → Addr)
    (held : ∀ i < STRCACHE_N, ∀ j < STRCACHE_M, S.HoldsText (cache i j)) :
    Valid { S with strcache := cache } := by
  obtain ⟨lists, table⟩ := valid.table
  exact ⟨⟨⟨lists, table.buckets, table.members, table.placed⟩, valid.counted, valid.size,
    valid.hashes, valid.unique⟩, held, valid.message⟩

theorem Valid.luaSNew (valid : S.Valid) (point : Nat) {str : List UInt8} (text : 0 ∉ str)
    {fresh a : Addr} (unused : S.mem fresh = none) (allocated : Bool)
    (result : S.luaSNew point str fresh allocated = some (a, S')) : Makes S str a S' := by
  unfold Strings.luaSNew at result
  dsimp only at result
  have low : point % STRCACHE_N < STRCACHE_N := Nat.mod_lt _ (by decide)
  generalize point % STRCACHE_N = i at result low
  cases hit : S.cacheHit str i STRCACHE_M 0 with
  | some b =>
    rw [hit] at result
    cases result
    obtain ⟨j, _, low', rfl, same⟩ := cacheHit_some STRCACHE_M 0 hit
    obtain ⟨str', text', holds⟩ := valid.cache i low j (by omega)
    rw [holds.contents, cString_of_text text'] at same
    exact ⟨valid, same ▸ holds, .refl S⟩
  | none =>
    rw [hit] at result
    obtain ⟨⟨b, S₁⟩, made, result⟩ := Option.bind_eq_some_iff.mp result
    cases result
    have moved := valid.cached (Function.update S.strcache i fun j =>
        if j = 0 then S.strcache i 0 else S.strcache i (j - 1)) fun k low' j low'' => by
      by_cases same : k = i
      · subst same
        rw [Function.update_self]
        split_ifs
        · exact valid.cache k low' 0 (by decide)
        · exact valid.cache k low' (j - 1) (by omega)
      · rw [Function.update_of_ne same]
        exact valid.cache k low' j low''
    have makes := moved.luaSNewlstr unused allocated made
    refine ⟨makes.valid.cached _ fun k low' j low'' => ?_, makes.object, makes.keeps⟩
    have there := makes.valid.cache k low' j low''
    by_cases same : k = i
    · subst same
      rw [Function.update_self]
      by_cases first : j = 0
      · rw [first, Function.update_self]
        exact ⟨str, text, makes.object⟩
      · rwa [Function.update_of_ne first]
    · rwa [Function.update_of_ne same]

/- The state luaS_init leaves. -/
theorem Valid.luaSInit {seed : UInt32} {fresh : Addr} (result : luaSInit seed fresh = some S) :
    S.Valid := by
  unfold Strings.luaSInit at result
  obtain ⟨⟨a, S₁⟩, made, result⟩ := Option.bind_eq_some_iff.mp result
  cases result
  have start : Interned
      { mem := fun _ => none
        hnext := fun _ => none
        hash := fun _ => none
        size := MINSTRTABSIZE
        nuse := 0
        seed := seed
        strcache := fun _ _ => fresh
        memerrmsg := fresh } := by
    refine ⟨⟨fun _ => [], ⟨fun _ => .nil, fun _ _ _ one => by cases one⟩, fun a => ?_,
      fun _ _ member => by cases member⟩, ⟨∅, fun a => ?_, rfl⟩,
      (by decide : 0 < MINSTRTABSIZE), ?_, ?_⟩
    · simp
    · simp
    · intro a t object
      cases object
    · intro a b t u one
      cases one
  have gives := start.luaSNewlstr rfl true made
  obtain ⟨lists, table⟩ := gives.interned.table
  have message : S₁.HoldsText a := ⟨MEMERRMSG, by decide, gives.object⟩
  exact ⟨⟨⟨lists, table.buckets, table.members, table.placed⟩, gives.interned.counted,
    gives.interned.size, gives.interned.hashes, gives.interned.unique⟩, fun _ _ _ _ => message,
    message⟩

/- The cycle ends: what has not been marked is dead, but nothing that the cache has. -/
theorem Valid.atomic (valid : S.Valid) {dead : Addr → Bool}
    (fixed : dead S.memerrmsg = false) : (S.atomic dead).Valid := by
  obtain ⟨lists, table⟩ := (valid.toInterned.marked fun a _ => dead a).table
  have marked := valid.toInterned.marked fun a _ => dead a
  have held {a : Addr} (live : dead a = false) (holds : S.HoldsText a) :
      (S.atomic dead).HoldsText a := by
    obtain ⟨str, text, t, object, bytes, _, kind⟩ := holds
    exact ⟨str, text, { t with dead := dead a }, by simp [Strings.atomic, object], bytes, live,
      kind⟩
  refine ⟨⟨⟨lists, table.buckets, table.members, table.placed⟩, marked.counted, valid.size,
    marked.hashes, marked.unique⟩, fun i low j low' => ?_, held fixed valid.message⟩
  show (S.atomic dead).HoldsText (if i < STRCACHE_N ∧ j < STRCACHE_M ∧ dead (S.strcache i j)
    then S.memerrmsg else S.strcache i j)
  split_ifs with unmarked
  · exact held fixed valid.message
  · refine held ?_ (valid.cache i low j low')
    simpa [low, low'] using unmarked

theorem removeAfter_eq {ts b : Addr} {l₁ l₂ : List Addr} {p : Addr} (steps : Nat)
    (enough : l₁.length < steps) (linked : Linked S.hnext (some p) (l₁ ++ b :: ts :: l₂)) :
    S.removeAfter ts steps p = { S with hnext := Function.update S.hnext b (S.hnext ts) } := by
  induction l₁ generalizing p steps with
  | nil =>
    obtain ⟨first, rest⟩ := Linked.cons_iff.mp linked
    cases first
    obtain ⟨next, _⟩ := Linked.cons_iff.mp rest
    obtain _ | steps := steps
    · simp at enough
    · rw [removeAfter, if_pos next]
  | cons c l₁ ih =>
    obtain ⟨first, rest⟩ := Linked.cons_iff.mp linked
    cases first
    obtain _ | steps := steps
    · simp at enough
    · have distinct := rest.nodup
      have later : S.hnext c ≠ some ts := by
        intro next
        rw [next] at rest
        cases l₁ with
        | nil =>
          obtain ⟨same, _⟩ := Linked.cons_iff.mp rest
          cases same
          simp at distinct
        | cons d l₁ =>
          obtain ⟨same, _⟩ := Linked.cons_iff.mp rest
          cases same
          simp at distinct
      rw [removeAfter, if_neg later]
      cases next : S.hnext c with
      | none =>
        rw [next] at rest
        cases l₁ <;> cases (Linked.cons_iff.mp rest).1
      | some q => exact ih steps (by simpa using enough) (next ▸ rest)

/-- luaS_remove takes a string out of its list. -/
theorem Interned.luaSRemove (interned : S.Interned) {ts : Addr} {t : TString}
    (object : S.mem ts = some t) (short : t.short = true) :
    ∃ hnext hash lists, S.luaSRemove ts =
        { S with hnext := hnext, hash := hash, nuse := S.nuse - 1 } ∧
      Buckets hnext hash lists ∧ (∀ a, (∃ i, a ∈ lists i) ↔ a ≠ ts ∧
        ∃ t, S.mem a = some t ∧ t.short = true) ∧
      ∀ i, ∀ a ∈ lists i, lmod (S.hashOf a) S.size = i := by
  obtain ⟨lists, table⟩ := interned.table
  obtain ⟨i, member⟩ := (table.members ts).mpr ⟨t, object, short⟩
  have place := table.placed i ts member
  have linked := table.buckets.linked i
  have small := table.bound interned.counted (lists i) linked.nodup fun b inside => ⟨i, inside⟩
  have only (j : Nat) (here : ts ∈ lists j) : j = i := table.buckets.apart j i ts here member
  -- the other lists stay, and this one loses ts
  have taken {l : List Addr} (split : ∀ a, a ∈ l ↔ a ∈ lists i ∧ a ≠ ts) :
      (∀ a, (∃ j, a ∈ Function.update lists i l j) ↔
        a ≠ ts ∧ ∃ t, S.mem a = some t ∧ t.short = true) ∧
      ∀ j, ∀ a ∈ Function.update lists i l j, lmod (S.hashOf a) S.size = j := by
    have members (j : Nat) (a : Addr) :
        a ∈ Function.update lists i l j ↔ a ∈ lists j ∧ a ≠ ts := by
      by_cases same : j = i
      · subst same
        rw [Function.update_self]
        exact split a
      · rw [Function.update_of_ne same]
        refine (and_iff_left_of_imp fun inside => ?_).symm
        rintro rfl
        exact same (only j inside)
    refine ⟨fun a => ?_, fun j a inside => table.placed j a ((members j a).mp inside).1⟩
    rw [← table.members a]
    simp only [members, exists_and_right]
    exact and_comm
  unfold Strings.luaSRemove
  dsimp only
  rw [place]
  obtain ⟨l₁, l₂, at_i⟩ := List.append_of_mem member
  have distinct := linked.nodup
  rw [at_i] at linked distinct small
  cases l₁ using List.reverseRecOn with
  | nil =>
    have first := (Linked.cons_iff.mp linked).1
    rw [if_pos first]
    refine ⟨S.hnext, _, _, rfl, table.buckets.pop at_i, taken fun a => ?_⟩
    rw [at_i, List.nil_append, List.mem_cons]
    have outside : ts ∉ l₂ := (List.nodup_cons.mp distinct).1
    have apart : a ∈ l₂ → a ≠ ts := fun inside same => outside (same ▸ inside)
    tauto
  | append_singleton l₁ b _ =>
    rw [List.append_assoc, List.singleton_append] at at_i linked distinct small
    have outside : ts ∉ l₁ ++ b :: l₂ := by
      have := List.nodup_middle.mp (List.append_cons l₁ b _ ▸ distinct)
      simpa using (List.nodup_cons.mp this).1
    cases first : S.hash i with
    | none =>
      rw [first] at linked
      cases l₁ <;> cases (Linked.cons_iff.mp linked).1
    | some p =>
      rw [first] at linked
      have later : some p ≠ some ts := by
        rintro ⟨⟩
        cases l₁ with
        | nil =>
          obtain ⟨same, _⟩ := Linked.cons_iff.mp linked
          cases same
          simp at outside
        | cons d l₁ =>
          obtain ⟨same, _⟩ := Linked.cons_iff.mp linked
          cases same
          simp at outside
      have enough : l₁.length < S.nuse := by
        simp only [List.length_append, List.length_cons] at small
        omega
      rw [if_neg later]
      simp only [removeAfter_eq S.nuse enough linked]
      refine ⟨_, S.hash, _, rfl, table.buckets.unlink at_i, taken fun a => ?_⟩
      rw [at_i]
      have apart : a ∈ l₁ ++ b :: l₂ → a ≠ ts := fun inside same => outside (same ▸ inside)
      simp only [List.mem_append, List.mem_cons] at apart ⊢
      tauto

/-- Freeing a dead object. -/
theorem Valid.freeobj (valid : S.Valid) {ts : Addr} {t : TString} (object : S.mem ts = some t)
    (dead : t.dead = true) : (S.freeobj ts).Valid := by
  have others {a : Addr} {str : List UInt8} (holds : S.Holds a str) : a ≠ ts := by
    rintro rfl
    obtain ⟨u, object', _, live, _⟩ := holds
    cases object.symm.trans object'
    rw [dead] at live
    cases live
  have back {a : Addr} {u : TString} (object' : Function.update S.mem ts none a = some u) :
      a ≠ ts ∧ S.mem a = some u := by
    by_cases same : a = ts
    · subst same
      rw [Function.update_self] at object'
      cases object'
    · rw [Function.update_of_ne same] at object'
      exact ⟨same, object'⟩
  have texts {S' : Strings} (mem : S'.mem = Function.update S.mem ts none) {a : Addr}
      (holds : S.HoldsText a) : S'.HoldsText a := by
    obtain ⟨str, text, holds⟩ := holds
    have kept := others holds
    obtain ⟨u, object', rest⟩ := holds
    exact ⟨str, text, u, by rw [mem, Function.update_of_ne kept, object'], rest⟩
  obtain ⟨strings, all, card⟩ := valid.counted
  cases short : t.short with
  | false =>
    have unchanged : S.freeobj ts = { S with mem := Function.update S.mem ts none } := by
      simp [Strings.freeobj, object, short]
    have members (a : Addr) : (∃ t, Function.update S.mem ts none a = some t ∧ t.short = true) ↔
        ∃ t, S.mem a = some t ∧ t.short = true := by
      constructor
      · rintro ⟨u, object', short'⟩
        exact ⟨u, (back object').2, short'⟩
      · rintro ⟨u, object', short'⟩
        refine ⟨u, ?_, short'⟩
        rw [Function.update_of_ne ?_, object']
        rintro rfl
        cases object.symm.trans object'
        rw [short] at short'
        cases short'
    obtain ⟨lists, table⟩ := valid.table
    rw [unchanged]
    refine ⟨⟨⟨lists, table.buckets, fun a => (table.members a).trans (members a).symm,
      fun i a member => ?_⟩, ⟨strings, fun a => (all a).trans (members a).symm, card⟩, valid.size,
      ?_, ?_⟩, ?_, ?_⟩
    · obtain ⟨u, object', short'⟩ := (members a).mpr ((table.members a).mp ⟨i, member⟩)
      rw [(contents_of_mem object').2, ← (contents_of_mem (back object').2).2]
      exact table.placed i a member
    · exact fun a u object' => valid.hashes a u (back object').2
    · exact fun a b u v one two => valid.unique a b u v (back one).2 (back two).2
    · exact fun i low j low' => texts rfl (valid.cache i low j low')
    · exact texts rfl valid.message
  | true =>
    obtain ⟨hnext, hash, lists, removed, buckets, members, placed⟩ :=
      valid.toInterned.luaSRemove object short
    have unchanged : S.freeobj ts = { S with
        mem := Function.update S.mem ts none, hnext := hnext, hash := hash,
        nuse := S.nuse - 1 } := by
      simp [Strings.freeobj, object, short, removed]
    have left (a : Addr) : (∃ t, Function.update S.mem ts none a = some t ∧ t.short = true) ↔
        a ≠ ts ∧ ∃ t, S.mem a = some t ∧ t.short = true := by
      constructor
      · rintro ⟨u, object', short'⟩
        exact ⟨(back object').1, u, (back object').2, short'⟩
      · rintro ⟨other, u, object', short'⟩
        exact ⟨u, by rw [Function.update_of_ne other, object'], short'⟩
    rw [unchanged]
    refine ⟨⟨⟨lists, buckets, fun a => (members a).trans (left a).symm, fun i a member => ?_⟩,
      ⟨strings.erase ts, fun a => ?_, ?_⟩, valid.size, ?_, ?_⟩, ?_, ?_⟩
    · obtain ⟨u, object', _⟩ := (left a).mpr ((members a).mp ⟨i, member⟩)
      rw [(contents_of_mem object').2, ← (contents_of_mem (back object').2).2]
      exact placed i a member
    · rw [left, ← all, Finset.mem_erase]
    · rw [Finset.card_erase_of_mem ((all ts).mpr ⟨t, object, short⟩), card]
    · exact fun a u object' => valid.hashes a u (back object').2
    · exact fun a b u v one two => valid.unique a b u v (back one).2 (back two).2
    · exact fun i low j low' => texts rfl (valid.cache i low j low')
    · exact texts rfl valid.message

theorem Valid.checkSizes (valid : S.Valid) (allocated : Bool) : (S.checkSizes allocated).Valid := by
  unfold Strings.checkSizes
  split_ifs with few
  · have half : 0 < S.size / 2 := by omega
    have resized := valid.toInterned.luaSResize half allocated
    exact valid.kept resized.1 resized.2.keeps resized.2.strcache resized.2.memerrmsg
  · exact valid

/-- The states of a run, whatever the program asks for, the collector marks and the allocator
    refuses. -/
inductive Reachable : Strings → Prop
  | init {seed : UInt32} {fresh : Addr} {S : Strings} (start : luaSInit seed fresh = some S) :
      Reachable S
  | newlstr {S S' : Strings} {str : List UInt8} {fresh a : Addr} {allocated : Bool}
      (before : Reachable S) (unused : S.mem fresh = none)
      (result : S.luaSNewlstr str fresh allocated = some (a, S')) : Reachable S'
  | new {S S' : Strings} {point : Nat} {str : List UInt8} {fresh a : Addr} {allocated : Bool}
      (before : Reachable S) (text : 0 ∉ str) (unused : S.mem fresh = none)
      (result : S.luaSNew point str fresh allocated = some (a, S')) : Reachable S'
  | newextlstr {S : Strings} {str : List UInt8} {fresh : Addr} (before : Reachable S)
      (unused : S.mem fresh = none) : Reachable (S.luaSNewextlstr str fresh).2
  | atomic {S : Strings} {dead : Addr → Bool} (before : Reachable S)
      (fixed : dead S.memerrmsg = false) : Reachable (S.atomic dead)
  | freeobj {S : Strings} {ts : Addr} {t : TString} (before : Reachable S)
      (object : S.mem ts = some t) (dead : t.dead = true) : Reachable (S.freeobj ts)
  | checkSizes {S : Strings} {allocated : Bool} (before : Reachable S) :
      Reachable (S.checkSizes allocated)

theorem Reachable.valid (reachable : Reachable S) : S.Valid := by
  induction reachable with
  | init start => exact .luaSInit start
  | newlstr _ unused result valid => exact (valid.luaSNewlstr unused _ result).valid
  | new _ text unused result valid => exact (valid.luaSNew _ text unused _ result).valid
  | @newextlstr _ str _ _ unused valid =>
    have created := valid.toInterned.createlngstr unused str
    exact valid.kept created.1 created.2 rfl rfl
  | atomic _ fixed valid => exact valid.atomic fixed
  | freeobj _ object dead valid => exact valid.freeobj object dead
  | checkSizes _ valid => exact valid.checkSizes _

/- The memory error, or an object with the bytes: the one there is, if it is short. -/
def Answers (S : Strings) (str : List UInt8) : Option (Addr × Strings) → Prop
  | none => S.nuse = INT_MAX
  | some (a, S') => S'.Holds a str ∧ Keeps S S' ∧ (str.length ≤ LUAI_MAXSHORTLEN →
      ∀ b t, S.mem b = some t → t.short = true → t.bytes = str → b = a)

theorem Makes.answers {str : List UInt8} {a : Addr} (makes : Makes S str a S') :
    S.Answers str (some (a, S')) := by
  refine ⟨makes.object, makes.keeps, fun small b t object short bytes => ?_⟩
  obtain ⟨t', object', bytes', short', _⟩ := makes.keeps b t object
  obtain ⟨u, object'', bytes'', _, kind⟩ := makes.object
  exact makes.valid.unique b a t' u object' object'' (short'.trans short) (kind.mpr small)
    (bytes'.trans (bytes.trans bytes''.symm))

theorem luaSNewlstr_none {str : List UInt8} {fresh : Addr} {allocated : Bool}
    (failed : S.luaSNewlstr str fresh allocated = none) : S.nuse = INT_MAX := by
  unfold Strings.luaSNewlstr at failed
  split_ifs at failed with small
  exact internshrstr_none failed

theorem luaSNew_none {point : Nat} {str : List UInt8} {fresh : Addr} {allocated : Bool}
    (failed : S.luaSNew point str fresh allocated = none) : S.nuse = INT_MAX := by
  unfold Strings.luaSNew at failed
  dsimp only at failed
  cases hit : S.cacheHit str (point % STRCACHE_N) STRCACHE_M 0 with
  | some b =>
    rw [hit] at failed
    cases failed
  | none =>
    rw [hit] at failed
    have refused := Option.bind_eq_none_iff.mp failed
    have unmade := Option.eq_none_iff_forall_ne_some.mpr fun pair made =>
      Option.some_ne_none _ (refused pair made)
    have few := luaSNewlstr_none unmade
    exact few

/-- What the rest of the interpreter relies on: equal short strings are one object, and asking for
    a string by its bytes or as a C string gives that object. -/
structure Interning (S : Strings) : Prop where
  one_object : ∀ a b t u, S.mem a = some t → S.mem b = some u → t.short = true →
    u.short = true → t.bytes = u.bytes → a = b
  newlstr : ∀ str fresh allocated, S.mem fresh = none →
    S.Answers str (S.luaSNewlstr str fresh allocated)
  new : ∀ point str fresh allocated, 0 ∉ str → S.mem fresh = none →
    S.Answers str (S.luaSNew point str fresh allocated)

/-- In every state of every run the strings are interned. -/
theorem Reachable.interning (reachable : Reachable S) : S.Interning := by
  refine ⟨reachable.valid.unique, fun str fresh allocated unused => ?_,
    fun point str fresh allocated text unused => ?_⟩
  · cases result : S.luaSNewlstr str fresh allocated with
    | none => exact luaSNewlstr_none result
    | some made => exact (reachable.valid.luaSNewlstr unused allocated result).answers
  · cases result : S.luaSNew point str fresh allocated with
    | none => exact luaSNew_none result
    | some made => exact (reachable.valid.luaSNew point text unused allocated result).answers

/- A string that the collector has found dead, before its object is freed. -/
def forgotten : Option Strings := do
  let S ← luaSInit 7 0
  let (a, S) ← S.luaSNew 1000 [107] 1 true
  return S.atomic (· == a)

/- Asked for once more, it is the same object. -/
theorem forgotten_interning : ∃ S, forgotten = some S ∧ S.Interning ∧
    (S.luaSNewlstr [107] 2 true).map Prod.fst = some 1 := by
  have again : (forgotten.bind fun S => S.luaSNewlstr [107] 2 true).map Prod.fst = some 1 := by
    decide +kernel
  cases run : forgotten with
  | none =>
    rw [run] at again
    cases again
  | some S =>
    refine ⟨S, rfl, ?_, by rwa [run] at again⟩
    have empty : (luaSInit 7 0).all fun S => (S.mem 1).isNone := by decide +kernel
    have other : ((luaSInit 7 0).bind fun S => S.luaSNew 1000 [107] 1 true).all
        fun made => made.2.memerrmsg != made.1 := by decide +kernel
    unfold forgotten at run
    obtain ⟨S₀, start, run⟩ := Option.bind_eq_some_iff.mp run
    obtain ⟨⟨a, S₁⟩, made, run⟩ := Option.bind_eq_some_iff.mp run
    have unused : S₀.mem 1 = none := by simpa [start] using empty
    have fixed : S₁.memerrmsg ≠ a := by simpa [start, made] using other
    cases run
    exact Reachable.interning
      (.atomic (.new (.init start) (by decide) unused made) (by simpa using fixed))

end Strings

end Luava.Lstring
