import Mathlib.Data.List.Nodup
import Mathlib.Logic.Function.Basic

/-
Singly linked lists in general, and arrays of them. Every cell has one link, so a cell is in at
most one list, and lists that do not share cells can be changed one by one.
-/
namespace LinkedLists

variable {α : Type}

/-- The cells of l are linked from p on. -/
inductive Linked (next : α → Option α) : Option α → List α → Prop
  | nil : Linked next none []
  | cons {a : α} {l : List α} (rest : Linked next (next a) l) : Linked next (some a) (a :: l)

namespace Linked

variable {next next' : α → Option α} {p : Option α} {a b : α} {l m : List α}

theorem nil_iff : Linked next p [] ↔ p = none := by
  constructor
  · intro linked
    cases linked
    rfl
  · rintro rfl
    exact .nil

theorem cons_iff : Linked next p (a :: l) ↔ p = some a ∧ Linked next (next a) l := by
  constructor
  · intro linked
    cases linked with
    | cons rest => exact ⟨rfl, rest⟩
  · rintro ⟨rfl, rest⟩
    exact .cons rest

theorem unique (one : Linked next p l) (two : Linked next p m) : l = m := by
  induction one generalizing m with
  | nil =>
    cases two
    rfl
  | cons rest ih =>
    cases two with
    | cons rest' => rw [ih rest']

/- The list from a cell on is the end of the list. -/
theorem from_mem (linked : Linked next p l) (member : a ∈ l) :
    ∃ m, Linked next (some a) (a :: m) ∧ m.length < l.length := by
  induction linked with
  | nil => cases member
  | @cons b l rest ih =>
    rcases List.mem_cons.mp member with rfl | later
    · exact ⟨l, .cons rest, Nat.lt_succ_self _⟩
    · obtain ⟨m, linked, shorter⟩ := ih later
      exact ⟨m, linked, Nat.lt_succ_of_lt shorter⟩

theorem nodup (linked : Linked next p l) : l.Nodup := by
  induction linked with
  | nil => exact List.nodup_nil
  | @cons b l rest ih =>
    refine List.nodup_cons.mpr ⟨fun member => ?_, ih⟩
    obtain ⟨m, again, shorter⟩ := rest.from_mem member
    have same := again.unique (.cons rest)
    rw [(List.cons.inj same).2] at shorter
    exact Nat.lt_irrefl _ shorter

/- The links of other cells do not matter. -/
theorem congr (linked : Linked next p l) (same : ∀ b ∈ l, next' b = next b) :
    Linked next' p l := by
  induction linked with
  | nil => exact .nil
  | @cons b l rest ih =>
    have here : next' b = next b := same b List.mem_cons_self
    exact .cons (here ▸ ih fun c member => same c (List.mem_cons_of_mem _ member))

variable [DecidableEq α]

theorem push (linked : Linked next p l) (new : a ∉ l) :
    Linked (Function.update next a p) (some a) (a :: l) := by
  refine .cons ?_
  rw [Function.update_self]
  exact linked.congr fun b member =>
    Function.update_of_ne (fun same : b = a => new (same ▸ member)) ..

/- A cell is taken out by linking the one before it to the one behind it. -/
theorem unlink {l₁ l₂ : List α} (linked : Linked next p (l₁ ++ b :: a :: l₂)) :
    Linked (Function.update next b (next a)) p (l₁ ++ b :: l₂) := by
  have distinct := linked.nodup
  induction l₁ generalizing p with
  | nil =>
    obtain ⟨rfl, rest⟩ := cons_iff.mp linked
    obtain ⟨_, rest'⟩ := cons_iff.mp rest
    have other : b ∉ l₂ := fun member =>
      (List.nodup_cons.mp distinct).1 (List.mem_cons_of_mem a member)
    refine .cons ?_
    rw [Function.update_self]
    exact rest'.congr fun c member =>
      Function.update_of_ne (fun same : c = b => other (same ▸ member)) ..
  | cons c l₁ ih =>
    obtain ⟨rfl, rest⟩ := cons_iff.mp linked
    obtain ⟨apart, distinct'⟩ := List.nodup_cons.mp distinct
    have other : c ≠ b := by
      rintro rfl
      exact apart (List.mem_append_right l₁ List.mem_cons_self)
    refine .cons ?_
    rw [Function.update_of_ne other]
    exact ih rest distinct'

end Linked

/-- An array of lists that share no cell. -/
structure Buckets (next : α → Option α) (head : Nat → Option α) (lists : Nat → List α) :
    Prop where
  linked : ∀ i, Linked next (head i) (lists i)
  apart : ∀ i j a, a ∈ lists i → a ∈ lists j → i = j

namespace Buckets

variable {next : α → Option α} {head : Nat → Option α} {lists : Nat → List α} {a b : α} {i : Nat}

/- Lists of some of the cells share no cell either. -/
theorem apart_of_sub (buckets : Buckets next head lists) {lists' : Nat → List α}
    (sub : ∀ i, ∀ a ∈ lists' i, a ∈ lists i) (i j : Nat) (a : α) (one : a ∈ lists' i)
    (two : a ∈ lists' j) : i = j :=
  buckets.apart i j a (sub i a one) (sub j a two)

theorem detach (buckets : Buckets next head lists) (i : Nat) :
    Buckets next (Function.update head i none) (Function.update lists i []) := by
  refine ⟨fun j => ?_, buckets.apart_of_sub fun j a member => ?_⟩
  · by_cases same : j = i
    · subst same
      rw [Function.update_self, Function.update_self]
      exact .nil
    · rw [Function.update_of_ne same, Function.update_of_ne same]
      exact buckets.linked j
  · by_cases same : j = i
    · subst same
      rw [Function.update_self] at member
      cases member
    · rwa [Function.update_of_ne same] at member

theorem pop (buckets : Buckets next head lists) {l : List α} (first : lists i = a :: l) :
    Buckets next (Function.update head i (next a)) (Function.update lists i l) := by
  have linked := buckets.linked i
  rw [first, Linked.cons_iff] at linked
  refine ⟨fun j => ?_, buckets.apart_of_sub fun j b member => ?_⟩
  · by_cases same : j = i
    · subst same
      rw [Function.update_self, Function.update_self]
      exact linked.2
    · rw [Function.update_of_ne same, Function.update_of_ne same]
      exact buckets.linked j
  · by_cases same : j = i
    · subst same
      rw [Function.update_self] at member
      exact first ▸ List.mem_cons_of_mem a member
    · rwa [Function.update_of_ne same] at member

variable [DecidableEq α]

theorem push (buckets : Buckets next head lists) (new : ∀ i, a ∉ lists i) (i : Nat) :
    Buckets (Function.update next a (head i)) (Function.update head i (some a))
      (Function.update lists i (a :: lists i)) := by
  have other (j : Nat) : Linked (Function.update next a (head i)) (head j) (lists j) :=
    (buckets.linked j).congr fun b member =>
      Function.update_of_ne (fun same : b = a => new j (same ▸ member)) ..
  refine ⟨fun j => ?_, fun j k b one two => ?_⟩
  · by_cases same : j = i
    · subst same
      rw [Function.update_self, Function.update_self]
      exact (buckets.linked j).push (new j)
    · rw [Function.update_of_ne same, Function.update_of_ne same]
      exact other j
  · have split (m : Nat) (member : b ∈ Function.update lists i (a :: lists i) m) :
        b = a ∧ m = i ∨ b ∈ lists m := by
      by_cases same : m = i
      · subst same
        rw [Function.update_self, List.mem_cons] at member
        exact member.imp_left fun new => ⟨new, rfl⟩
      · rw [Function.update_of_ne same] at member
        exact .inr member
    rcases split j one with ⟨rfl, rfl⟩ | old
    · rcases split k two with ⟨_, rfl⟩ | old
      · rfl
      · exact absurd old (new k)
    · rcases split k two with ⟨rfl, rfl⟩ | old'
      · exact absurd old (new j)
      · exact buckets.apart j k b old old'

theorem unlink (buckets : Buckets next head lists) {l₁ l₂ : List α}
    (at_i : lists i = l₁ ++ b :: a :: l₂) :
    Buckets (Function.update next b (next a)) head
      (Function.update lists i (l₁ ++ b :: l₂)) := by
  have inside : b ∈ lists i := by
    rw [at_i]
    exact List.mem_append_right l₁ List.mem_cons_self
  refine ⟨fun j => ?_, buckets.apart_of_sub fun j c member => ?_⟩
  · by_cases same : j = i
    · subst same
      rw [Function.update_self]
      have linked := buckets.linked j
      rw [at_i] at linked
      exact linked.unlink
    · rw [Function.update_of_ne same]
      exact (buckets.linked j).congr fun c member =>
        Function.update_of_ne (fun here : c = b =>
          same (buckets.apart j i c member (here ▸ inside))) ..
  · by_cases same : j = i
    · subst same
      rw [Function.update_self, List.mem_append, List.mem_cons] at member
      rw [at_i, List.mem_append, List.mem_cons, List.mem_cons]
      tauto
    · rwa [Function.update_of_ne same] at member

end Buckets

end LinkedLists
