import Mathlib.Data.List.Nodup
import Mathlib.Logic.Function.Basic
import Mathlib.Logic.Equiv.Basic

/-
Chained scatter tables in general. The positions of a table are linked into chains, and an
element is found by following the chain from its home position. An element that is away from home
never takes the home of another one for good: it is moved when the element that lives there comes.
-/
namespace Chains

variable {α : Type}

/-- Following the links from a passes the positions of l, and ends. -/
inductive Chain (link : α → Option α) : α → List α → Prop
  | last {a : α} (none : link a = none) : Chain link a [a]
  | step {a b : α} {l : List α} (linked : link a = some b) (rest : Chain link b l) :
      Chain link a (a :: l)

namespace Chain

variable {link : α → Option α} {a b : α} {l m : List α}

theorem unique (one : Chain link a l) (two : Chain link a m) : l = m := by
  induction one generalizing m with
  | last none =>
    cases two with
    | last _ => rfl
    | step linked _ => cases none.symm.trans linked
  | step linked rest ih =>
    cases two with
    | last none => cases none.symm.trans linked
    | step linked' rest' =>
      cases linked.symm.trans linked'
      rw [ih rest']

theorem head_mem (chain : Chain link a l) : a ∈ l := by
  cases chain with
  | last _ => exact List.mem_singleton_self a
  | step _ _ => exact List.mem_cons_self

/- The chain from a position that was passed is the end of the chain. -/
theorem from_mem (chain : Chain link a l) (member : b ∈ l) :
    ∃ m, Chain link b m ∧ m.length ≤ l.length ∧ ∀ c ∈ m, c ∈ l := by
  induction chain with
  | last none =>
    rw [List.mem_singleton] at member
    subst member
    exact ⟨_, .last none, Nat.le_refl _, fun _ h => h⟩
  | @step a c l linked rest ih =>
    rcases List.mem_cons.mp member with rfl | later
    · exact ⟨_, .step linked rest, Nat.le_refl _, fun _ h => h⟩
    · obtain ⟨m, chain, shorter, sub⟩ := ih later
      exact ⟨m, chain, Nat.le_succ_of_le shorter, fun x h => List.mem_cons_of_mem _ (sub x h)⟩

theorem nodup (chain : Chain link a l) : l.Nodup := by
  induction chain with
  | last _ => exact List.nodup_singleton _
  | @step a b l linked rest ih =>
    refine List.nodup_cons.mpr ⟨fun member => ?_, ih⟩
    obtain ⟨m, chain, shorter, _⟩ := rest.from_mem member
    have longer := congrArg List.length (chain.unique (.step linked rest))
    rw [List.length_cons] at longer
    omega

/- Renaming the positions renames the chain. -/
theorem rename (σ : Equiv.Perm α) (chain : Chain link a l) :
    Chain (fun x => (link (σ.symm x)).map σ) (σ a) (l.map σ) := by
  induction chain with
  | last none => exact .last (by simp [none])
  | step linked rest ih => exact .step (by simp [linked]) ih

/- Links out of positions that are not passed do not matter. -/
theorem congr {link' : α → Option α} (chain : Chain link a l)
    (same : ∀ b ∈ l, link' b = link b) : Chain link' a l := by
  induction chain with
  | last none => exact .last ((same _ (List.mem_singleton_self _)).trans none)
  | step linked rest ih =>
    exact .step ((same _ List.mem_cons_self).trans linked)
      (ih fun b member => same b (List.mem_cons_of_mem _ member))

/- Every position of a chain but its first one is linked to. -/
theorem linked_or_head (chain : Chain link a l) (member : b ∈ l) :
    b = a ∨ ∃ c, link c = some b := by
  induction chain with
  | last _ => exact .inl (List.mem_singleton.mp member)
  | @step a c l linked rest ih =>
    rcases List.mem_cons.mp member with rfl | later
    · exact .inl rfl
    · rcases ih later with rfl | linked'
      · exact .inr ⟨a, linked⟩
      · exact .inr linked'

end Chain

/-- b is passed on the way from a. -/
def Reaches (link : α → Option α) (a b : α) : Prop := ∃ l, Chain link a l ∧ b ∈ l

/-- home gives the home position of the element at a position, none where there is no element. -/
structure Scattered (link home : α → Option α) : Prop where
  ends : ∀ a, ∃ l, Chain link a l
  injective : ∀ a b c, link a = some c → link b = some c → a = b
  linked : ∀ a b, link a = some b → (home a).isSome ∧ (home b).isSome
  reached : ∀ a h, home a = some h → Reaches link h a
  rooted : ∀ a h, home a = some h → home h = some h

namespace Scattered

variable {link home : α → Option α} {m f g : α}

theorem reaches_self (scattered : Scattered link home) (a : α) : Reaches link a a := by
  obtain ⟨l, chain⟩ := scattered.ends a
  exact ⟨l, chain, chain.head_mem⟩

/- A position without an element is on no chain but its own. -/
theorem alone (scattered : Scattered link home) (free : home f = none) : link f = none := by
  cases linked : link f with
  | none => rfl
  | some b =>
    have inhabited := (scattered.linked f b linked).1
    simp [free] at inhabited

theorem unlinked (scattered : Scattered link home) (free : home f = none) (a : α) :
    link a ≠ some f := by
  intro linked
  have inhabited := (scattered.linked a f linked).2
  simp [free] at inhabited

variable [DecidableEq α]

/- An element at home, in place of none or of another one. -/
theorem place (scattered : Scattered link home) (m : α)
    (isolated : home m = none → link m = none) :
    Scattered link (Function.update home m (some m)) where
  ends := scattered.ends
  injective := scattered.injective
  linked a b linked := by
    obtain ⟨left, right⟩ := scattered.linked a b linked
    by_cases atA : a = m <;> by_cases atB : b = m <;> simp [atA, atB, left, right]
  reached a h at_home := by
    by_cases same : a = m
    · subst same
      rw [Function.update_self, Option.some.injEq] at at_home
      exact at_home ▸ scattered.reaches_self a
    · rw [Function.update_of_ne same] at at_home
      exact scattered.reached a h at_home
  rooted a h at_home := by
    by_cases same : h = m
    · rw [same, Function.update_self]
    · rw [Function.update_of_ne same]
      by_cases new : a = m
      · subst new
        rw [Function.update_self, Option.some.injEq] at at_home
        exact absurd at_home.symm same
      · rw [Function.update_of_ne new] at at_home
        exact scattered.rooted a h at_home

/-- The links after f was put behind m. -/
def behind (link : α → Option α) (m f : α) : α → Option α :=
  Function.update (Function.update link f (link m)) m (some f)

section Behind

omit [DecidableEq α] in
theorem behind_ne (free : home f = none) (at_home : home m = some m) : m ≠ f := by
  rintro rfl
  cases free.symm.trans at_home

variable (scattered : Scattered link home) (free : home f = none) (at_home : home m = some m)

include scattered free at_home

/- The positions passed before are still passed, with f behind m. -/
theorem chain_behind {a : α} {l : List α} (chain : Chain link a l) (other : a ≠ f) :
    ∃ l', Chain (behind link m f) a l' ∧ ∀ b ∈ l, b ∈ l' := by
  have distinct := behind_ne free at_home
  induction chain with
  | @last a none =>
    by_cases same : a = m
    · subst same
      refine ⟨[a, f], .step (by simp [behind]) (.last ?_), by simp⟩
      simp [behind, distinct.symm, none]
    · exact ⟨[a], .last (by simp [behind, same, other, none]), fun _ h => h⟩
  | @step a b l linked rest ih =>
    have next : b ≠ f := fun h => scattered.unlinked free a (h ▸ linked)
    obtain ⟨l', later, sub⟩ := ih next
    by_cases same : a = m
    · subst same
      refine ⟨a :: f :: l', .step (by simp [behind]) (.step (b := b) ?_ later), ?_⟩
      · simp [behind, distinct.symm, linked]
      · intro c member
        rcases List.mem_cons.mp member with rfl | later
        · simp
        · simp [sub c later]
    · refine ⟨a :: l', .step (by simp [behind, same, other, linked]) later, ?_⟩
      intro c member
      rcases List.mem_cons.mp member with rfl | later
      · simp
      · simp [sub c later]

theorem chain_from_new : ∃ l, Chain (behind link m f) f l := by
  have distinct := behind_ne free at_home
  obtain ⟨l, chain⟩ := scattered.ends m
  obtain ⟨l', chain', _⟩ := scattered.chain_behind free at_home chain distinct
  cases chain' with
  | last none => simp [behind] at none
  | step linked rest =>
    rw [behind, Function.update_self, Option.some.injEq] at linked
    subst linked
    exact ⟨_, rest⟩

/- A new element behind the one at its home. -/
theorem append : Scattered (behind link m f) (Function.update home f (some m)) := by
  have distinct := behind_ne free at_home
  have extends_chain (a b : α) (reaches : Reaches link a b) (other : a ≠ f) :
      Reaches (behind link m f) a b := by
    obtain ⟨l, chain, member⟩ := reaches
    obtain ⟨l', chain', sub⟩ := scattered.chain_behind free at_home chain other
    exact ⟨l', chain', sub b member⟩
  have inhabited (a : α) (element : (home a).isSome) :
      (Function.update home f (some m) a).isSome := by
    by_cases new : a = f
    · simp [new]
    · simpa [new] using element
  refine ⟨?_, ?_, ?_, ?_, ?_⟩
  · intro a
    by_cases new : a = f
    · subst new
      exact scattered.chain_from_new free at_home
    · obtain ⟨l, chain⟩ := scattered.ends a
      obtain ⟨l', chain', _⟩ := scattered.chain_behind free at_home chain new
      exact ⟨l', chain'⟩
  · -- f is linked to from m alone, and what m was linked to from f alone
    have target (a c : α) (linked : behind link m f a = some c) :
        (a = m ∧ c = f) ∨ (a = f ∧ link m = some c) ∨ (a ≠ m ∧ a ≠ f ∧ link a = some c) := by
      by_cases at_m : a = m
      · subst at_m
        rw [behind, Function.update_self, Option.some.injEq] at linked
        exact .inl ⟨rfl, linked.symm⟩
      · by_cases at_f : a = f
        · subst at_f
          rw [behind, Function.update_of_ne at_m, Function.update_self] at linked
          exact .inr (.inl ⟨rfl, linked⟩)
        · rw [behind, Function.update_of_ne at_m, Function.update_of_ne at_f] at linked
          exact .inr (.inr ⟨at_m, at_f, linked⟩)
    intro a b c left right
    have never := scattered.unlinked free
    rcases target a c left with ⟨am, new⟩ | ⟨af, before⟩ | ⟨am, af, before⟩ <;>
      rcases target b c right with ⟨bm, new'⟩ | ⟨bf, before'⟩ | ⟨bm, bf, before'⟩
    · exact am.trans bm.symm
    · exact absurd (new ▸ before') (never _)
    · exact absurd (new ▸ before') (never _)
    · exact absurd (new' ▸ before) (never _)
    · exact af.trans bf.symm
    · exact absurd (scattered.injective _ _ _ before' before) bm
    · exact absurd (new' ▸ before) (never _)
    · exact absurd (scattered.injective _ _ _ before before') am
    · exact scattered.injective _ _ _ before before'
  · intro a b linked
    by_cases at_m : a = m
    · subst at_m
      rw [behind, Function.update_self, Option.some.injEq] at linked
      exact ⟨inhabited _ (by simp [at_home]), by simp [← linked]⟩
    · by_cases at_f : a = f
      · subst at_f
        rw [behind, Function.update_of_ne at_m, Function.update_self] at linked
        exact ⟨by simp, inhabited b (scattered.linked m b linked).2⟩
      · rw [behind, Function.update_of_ne at_m, Function.update_of_ne at_f] at linked
        obtain ⟨left, right⟩ := scattered.linked a b linked
        exact ⟨inhabited a left, inhabited b right⟩
  · intro a h homed
    by_cases new : a = f
    · subst new
      rw [Function.update_self, Option.some.injEq] at homed
      subst homed
      obtain ⟨l, chain⟩ := scattered.chain_from_new free at_home
      exact ⟨m :: l, .step (by simp [behind]) chain, List.mem_cons_of_mem _ chain.head_mem⟩
    · rw [Function.update_of_ne new] at homed
      refine extends_chain h a (scattered.reached a h homed) ?_
      rintro rfl
      cases free.symm.trans (scattered.rooted a h homed)
  · intro a h homed
    have not_free : h ≠ f ∧ home h = some h := by
      by_cases new : a = f
      · subst new
        rw [Function.update_self, Option.some.injEq] at homed
        subst homed
        exact ⟨distinct, at_home⟩
      · rw [Function.update_of_ne new] at homed
        have rooted := scattered.rooted a h homed
        refine ⟨?_, rooted⟩
        rintro rfl
        cases free.symm.trans rooted
    rw [Function.update_of_ne not_free.1]
    exact not_free.2

end Behind

/-- The links after the element at m moved to f. -/
def moved (link : α → Option α) (m f : α) : α → Option α :=
  fun x => (link (Equiv.swap m f x)).map (Equiv.swap m f)

omit [DecidableEq α] in
/- No position is linked to itself. -/
theorem no_loop (scattered : Scattered link home) (a : α) : link a ≠ some a := by
  intro loop
  obtain ⟨l, chain⟩ := scattered.ends a
  have longer := congrArg List.length (chain.unique (.step loop chain))
  rw [List.length_cons] at longer
  omega

/- An element away from home moves to a free position, and its place goes to one at home there. -/
theorem move (scattered : Scattered link home) (free : home f = none) (away : home m = some g)
    (other : g ≠ m) :
    Scattered (moved link m f) (Function.update (home ∘ Equiv.swap m f) m (some m)) := by
  let σ := Equiv.swap m f
  -- no element has its home at m or f
  have fixed (a h : α) (homed : home a = some h) : σ h = h := by
    have rooted := scattered.rooted a h homed
    refine Equiv.swap_apply_of_ne_of_ne ?_ ?_
    · rintro rfl
      exact other (Option.some.inj (away.symm.trans rooted))
    · rintro rfl
      cases free.symm.trans rooted
  have swapped : Scattered (moved link m f) (home ∘ σ) := by
    refine ⟨?_, ?_, ?_, ?_, ?_⟩
    · intro a
      obtain ⟨l, chain⟩ := scattered.ends (σ a)
      have := chain.rename σ
      rw [Equiv.swap_apply_self] at this
      exact ⟨l.map σ, this⟩
    · intro a b c left right
      simp only [moved, Option.map_eq_some_iff] at left right
      obtain ⟨x, linked, rfl⟩ := left
      obtain ⟨y, linked', same⟩ := right
      rw [σ.injective same] at linked'
      exact σ.injective (scattered.injective _ _ _ linked linked')
    · intro a b linked
      simp only [moved, Option.map_eq_some_iff] at linked
      obtain ⟨x, linked, rfl⟩ := linked
      have := scattered.linked _ _ linked
      simpa [σ] using this
    · intro a h homed
      obtain ⟨l, chain, member⟩ := scattered.reached (σ a) h homed
      refine ⟨l.map σ, ?_, ?_⟩
      · have := chain.rename σ
        rw [fixed _ h homed] at this
        exact this
      · exact List.mem_map.mpr ⟨σ a, member, Equiv.swap_apply_self ..⟩
    · intro a h homed
      rw [Function.comp_apply, fixed _ h homed]
      exact scattered.rooted _ h homed
  exact swapped.place m fun _ => by simp [moved, scattered.alone free]

end Scattered

end Chains
