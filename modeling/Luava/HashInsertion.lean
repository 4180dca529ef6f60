import Luava.HashNodes

/-
insertkey keeps the hash part a scatter table, adds the new key and changes no other. Its three
ways to place the key are the three operations of such tables.
-/
namespace Luava.Ltable

open Chains

namespace HashPart

variable {hs : Hashes} {h h' : HashPart} {key value : Value} {mp f : Nat}

/- Nothing but the nodes is different. -/
structure SameShape (h h' : HashPart) : Prop where
  lsizenode : h'.lsizenode = h.lsizenode
  isdummy : h'.isdummy = h.isdummy

theorem SameShape.sizenode (same : SameShape h h') : h'.sizenode = h.sizenode := by
  rw [HashPart.sizenode, HashPart.sizenode, same.lsizenode]

theorem freeBelow_some {n i : Nat} (found : h.freeBelow n = some i) :
    i < n ∧ (h.node i).key = .nil ∧ ∀ j, i < j → j < n → (h.node j).key ≠ .nil := by
  induction n with
  | zero => cases found
  | succ n ih =>
    rw [freeBelow] at found
    split_ifs at found with free
    · cases found
      exact ⟨Nat.lt_succ_self _, free, fun j above below => by omega⟩
    · obtain ⟨below, nil, above⟩ := ih found
      refine ⟨by omega, nil, fun j after before => ?_⟩
      by_cases last : j = n
      · exact last ▸ free
      · exact above j after (by omega)

theorem freeBelow_none {n : Nat} (full : h.freeBelow n = none) :
    ∀ i < n, (h.node i).key ≠ .nil := by
  induction n with
  | zero => exact fun i below => absurd below (Nat.not_lt_zero i)
  | succ n ih =>
    rw [freeBelow] at full
    split_ifs at full with free
    intro i below
    by_cases last : i = n
    · exact last ▸ free
    · exact ih full i (by omega)

/- What getfreepos leaves: the nodes as they were, and a lastfree that passed no free place. -/
theorem getfreepos_some (valid : h.Valid hs) (found : h.getfreepos = (some f, h')) :
    f ∈ h.free ∧ h'.node = h.node ∧ SameShape h h' ∧
      (h'.haslastfree = true → h'.lastfree = f) ∧
      (h'.haslastfree = true → ∀ i < h.sizenode, f < i → (h.node i).key ≠ .nil) := by
  unfold getfreepos at found
  split_ifs at found with last
  · cases search : h.freeBelow h.lastfree with
    | none => simp [search] at found
    | some free =>
      obtain ⟨below, nil, above⟩ := freeBelow_some search
      obtain ⟨bound, used⟩ := valid.used last
      simp only [search, Prod.mk.injEq, Option.some.injEq] at found
      obtain ⟨rfl, rfl⟩ := found
      refine ⟨mem_free.mpr ⟨by omega, nil⟩, rfl, ⟨rfl, rfl⟩, fun _ => rfl,
        fun _ i inside after => ?_⟩
      by_cases before : i < h.lastfree
      · exact above i after before
      · exact used i inside (by omega)
  · obtain ⟨search, rfl⟩ := Prod.mk.inj found
    obtain ⟨below, nil, _⟩ := freeBelow_some search
    exact ⟨mem_free.mpr ⟨below, nil⟩, rfl, ⟨rfl, rfl⟩, fun has => absurd has last,
      fun has => absurd has last⟩

theorem getfreepos_none (valid : h.Valid hs) (full : h.getfreepos = (none, h')) :
    h.free = ∅ ∧ h'.Valid hs ∧ h'.node = h.node ∧ SameShape h h' := by
  unfold getfreepos at full
  split_ifs at full with last
  · cases search : h.freeBelow h.lastfree with
    | some free => simp [search] at full
    | none =>
      have below := freeBelow_none search
      obtain ⟨bound, used⟩ := valid.used last
      simp only [search, Prod.mk.injEq, true_and] at full
      subst full
      have none_free : ∀ i < h.sizenode, (h.node i).key ≠ .nil := by
        intro i inside
        by_cases before : i < h.lastfree
        · exact below i before
        · exact used i inside (by omega)
      refine ⟨?_, ?_, rfl, rfl, rfl⟩
      · refine Finset.eq_empty_of_forall_notMem fun i member => ?_
        exact none_free i (mem_free.mp member).1 (mem_free.mp member).2
      · exact { valid with used := fun _ => ⟨Nat.zero_le _, fun i inside _ => none_free i inside⟩ }
  · obtain ⟨search, rfl⟩ := Prod.mk.inj full
    refine ⟨Finset.eq_empty_of_forall_notMem fun i member => ?_, valid, rfl, rfl, rfl⟩
    exact freeBelow_none search i (mem_free.mp member).1 (mem_free.mp member).2

/-- What an insertion of a new key has to leave. -/
structure Inserted (hs : Hashes) (h : HashPart) (key value : Value) (h' : HashPart) : Prop
    extends SameShape h h' where
  valid : h'.Valid hs
  holds : h'.Holds key value
  others : ∀ k v, k ≠ key → v ≠ .nil → (h'.Holds k v ↔ h.Holds k v)
  keys : ∀ k v, h'.Holds k v → k = key ∨ ∃ v, h.Holds k v
  room : h.free.card ≤ h'.free.card + 1


/- The loop that looks for the node before mp finds the one that is linked to it. -/
theorem findPrevious_linked (valid : h.Valid hs) {a : Nat} {l : List Nat}
    (chain : Chain h.link a l) (inside : a < h.sizenode) (passed : mp ∈ l) (other : mp ≠ a)
    {steps : Nat} (enough : l.length ≤ steps) :
    h.link (h.findPrevious mp steps a) = some mp := by
  induction chain generalizing steps with
  | last _ => exact absurd (List.mem_singleton.mp passed) other
  | @step a b l linked rest ih =>
    obtain _ | steps := steps
    · simp at enough
    · have next := (link_eq valid inside).mp linked
      rw [findPrevious, ← next.2, Int.toNat_natCast]
      by_cases here : b = mp
      · rw [if_pos here]
        exact here ▸ linked
      · rw [if_neg here]
        rw [List.length_cons, Nat.add_le_add_iff_right] at enough
        exact ih (link_lt valid linked).2 ((List.mem_cons.mp passed).resolve_left other)
          (Ne.symm here) enough

section Moved

/- The new key is at p; the other nodes are what σ says they were, without a value that is lost. -/
variable (valid : h.Valid hs) (storable : Storable key)
  (absent : ∀ i < h.sizenode, (h.node i).key ≠ .key key) (shape : SameShape h h')
  (real : h.isdummy = false) (σ : Equiv.Perm Nat)
  (within : ∀ i, σ i < h.sizenode ↔ i < h.sizenode) {p : Nat} (inside : p < h.sizenode)
  (gone : (h.node (σ p)).val = .nil) (new : (h'.node p).key = .key key)
  (val : (h'.node p).val = value)
  (rest : ∀ i < h.sizenode, i ≠ p →
    (h'.node i).key = (h.node (σ i)).key ∧ (h'.node i).val = (h.node (σ i)).val)

include shape within inside new rest in
theorem home_moved :
    h'.home hs = Function.update (h.home hs ∘ σ) p (some (h.mainpositionTV hs key)) := by
  funext i
  by_cases at_p : i = p
  · subst at_p
    rw [Function.update_self, home_key (shape.sizenode ▸ inside) new,
      mainposition_congr shape.lsizenode]
  · rw [Function.update_of_ne at_p, Function.comp_apply, home, home, shape.sizenode]
    by_cases bound : i < h.sizenode
    · rw [if_pos bound, if_pos ((within i).mpr bound), (rest i bound at_p).1]
      cases (h.node (σ i)).key <;> simp [mainposition_congr shape.lsizenode]
    · rw [if_neg bound, if_neg fun h => bound ((within i).mp h)]

include valid storable absent shape real within inside gone new val rest in
theorem inserted_of_moved (scattered : Scattered h'.link (h'.home hs))
    (bounds : ∀ i < h.sizenode,
      0 ≤ (i : Int) + (h'.node i).next ∧ (i : Int) + (h'.node i).next < h.sizenode)
    (used : h'.haslastfree = true →
      h'.lastfree ≤ h.sizenode ∧ ∀ i < h.sizenode, h'.lastfree ≤ i → (h'.node i).key ≠ .nil) :
    Inserted hs h key value h' := by
  have was (i : Nat) (bound : i < h.sizenode) (k : Value) (owner : (h'.node i).key = .key k) :
      i = p ∧ k = key ∨ i ≠ p ∧ (h.node (σ i)).key = .key k ∧ k ≠ key := by
    by_cases at_p : i = p
    · subst at_p
      exact .inl ⟨rfl, (NodeKey.key.inj (new.symm.trans owner)).symm⟩
    · have before := (rest i bound at_p).1.symm.trans owner
      refine .inr ⟨at_p, before, ?_⟩
      rintro rfl
      exact absent _ ((within i).mpr bound) before
  have size := shape.sizenode
  refine ⟨shape, ?_, ?_, ?_, ?_, ?_⟩
  · refine ⟨scattered, size ▸ bounds, ?_, ?_, ?_, size ▸ used, ?_, ?_⟩
    · rw [size]
      intro i bound j bound' k owner owner'
      rcases was i bound k owner with ⟨rfl, rfl⟩ | ⟨_, before, other⟩
      · rcases was j bound' k owner' with ⟨rfl, _⟩ | ⟨_, _, other⟩
        · rfl
        · exact absurd rfl other
      · rcases was j bound' k owner' with ⟨_, rfl⟩ | ⟨_, before', _⟩
        · exact absurd rfl other
        · exact σ.injective (valid.distinct _ ((within i).mpr bound) _ ((within j).mpr bound') k
            before before')
    · rw [size]
      intro i bound k owner
      rcases was i bound k owner with ⟨_, rfl⟩ | ⟨_, before, _⟩
      · exact storable
      · exact valid.storable _ ((within i).mpr bound) k before
    · rw [size]
      intro i bound unowned
      have at_p : i ≠ p := by
        rintro rfl
        exact unowned key new
      rw [(rest i bound at_p).2]
      refine valid.empty _ ((within i).mpr bound) fun k owner => ?_
      exact unowned k ((rest i bound at_p).1.trans owner)
    · intro dummy
      rw [shape.isdummy, real] at dummy
      cases dummy
    · rw [size, shape.isdummy, real]
      intro i bound
      by_cases at_p : i = p
      · subst at_p
        simp [new]
      · rw [(rest i bound at_p).1, valid.dead _ ((within i).mpr bound), real]
  · exact ⟨p, size ▸ inside, new, val⟩
  · intro k v other some_value
    constructor
    · rintro ⟨i, bound, owner, rfl⟩
      rw [size] at bound
      rcases was i bound k owner with ⟨_, rfl⟩ | ⟨at_p, before, _⟩
      · exact absurd rfl other
      · exact ⟨σ i, (within i).mpr bound, before, (rest i bound at_p).2.symm⟩
    · rintro ⟨j, bound, owner, rfl⟩
      have bound' : σ.symm j < h.sizenode := (within _).mp (by rwa [σ.apply_symm_apply])
      have at_p : σ.symm j ≠ p := by
        rintro rfl
        rw [σ.apply_symm_apply] at gone
        exact some_value gone
      obtain ⟨same, same'⟩ := rest _ bound' at_p
      rw [σ.apply_symm_apply] at same same'
      exact ⟨σ.symm j, size ▸ bound', same.trans owner, same'⟩
  · rintro k v ⟨i, bound, owner, _⟩
    rw [size] at bound
    rcases was i bound k owner with ⟨_, same⟩ | ⟨_, before, _⟩
    · exact .inl same
    · exact .inr ⟨_, σ i, (within i).mpr bound, before, rfl⟩
  · have kept : (h.free.image σ.symm).erase p ⊆ h'.free := by
      intro i member
      obtain ⟨at_p, member⟩ := Finset.mem_erase.mp member
      obtain ⟨j, free, rfl⟩ := Finset.mem_image.mp member
      obtain ⟨bound, nil⟩ := mem_free.mp free
      have bound' : σ.symm j < h.sizenode := (within _).mp (by rwa [σ.apply_symm_apply])
      refine mem_free.mpr ⟨size ▸ bound', ?_⟩
      rw [(rest _ bound' at_p).1, σ.apply_symm_apply, nil]
    have image : (h.free.image σ.symm).card = h.free.card :=
      Finset.card_image_of_injective _ σ.symm.injective
    have erased := Finset.pred_card_le_card_erase (s := h.free.image σ.symm) (a := p)
    have := Finset.card_le_card kept
    omega

end Moved


/- The main position is free: the key goes there, and keeps the links of a deleted node. -/
theorem inserted_at_home (valid : h.Valid hs) (storable : Storable key)
    (absent : ∀ i < h.sizenode, (h.node i).key ≠ .key key) (real : h.isdummy = false)
    (place : h.mainpositionTV hs key = mp) (gone : (h.node mp).val = .nil) :
    Inserted hs h key value ((h.setNodekey mp key).setVal mp value) := by
  have inside : mp < h.sizenode := place ▸ h.mainposition_lt hs key
  have shape : SameShape h ((h.setNodekey mp key).setVal mp value) := ⟨rfl, rfl⟩
  have node (i : Nat) : ((h.setNodekey mp key).setVal mp value).node i =
      if i = mp then ⟨value, .key key, (h.node mp).next⟩ else h.node i := by
    by_cases at_mp : i = mp
    · subst at_mp
      simp [setVal, setNodekey, setNode]
    · simp [setVal, setNodekey, setNode, at_mp]
  have next (i : Nat) :
      (((h.setNodekey mp key).setVal mp value).node i).next = (h.node i).next := by
    rw [node]
    split_ifs with at_mp
    · rw [at_mp]
    · rfl
  have rest (i : Nat) (_ : i < h.sizenode) (other : i ≠ mp) :
      (((h.setNodekey mp key).setVal mp value).node i).key =
          (h.node (Equiv.refl Nat i)).key ∧
        (((h.setNodekey mp key).setVal mp value).node i).val =
          (h.node (Equiv.refl Nat i)).val := by
    rw [node, if_neg other]
    exact ⟨rfl, rfl⟩
  have new : (((h.setNodekey mp key).setVal mp value).node mp).key = .key key := by
    rw [node, if_pos rfl]
  have links : ((h.setNodekey mp key).setVal mp value).link = h.link := by
    funext i
    rw [link, link, next, shape.sizenode]
  refine inserted_of_moved valid storable absent shape real (Equiv.refl Nat) (fun _ => Iff.rfl)
    inside gone new (by rw [node, if_pos rfl]) rest ?_ ?_ ?_
  · rw [links, home_moved shape (Equiv.refl Nat) (fun _ => Iff.rfl) inside new rest, place]
    exact valid.scattered.place mp valid.scattered.alone
  · intro i bound
    rw [next]
    exact valid.inside i bound
  · intro has
    obtain ⟨last, used⟩ := valid.used has
    refine ⟨last, fun i bound above => ?_⟩
    rw [node]
    split_ifs with at_mp
    · simp
    · exact used i bound above

section Collision

variable {h₁ : HashPart} (valid : h.Valid hs) (storable : Storable key)
  (absent : ∀ i < h.sizenode, (h.node i).key ≠ .key key)
  (found : h.getfreepos = (some f, h₁)) (place : h.mainpositionTV hs key = mp)

/- The colliding node is at home: the key goes to the free place, behind it. -/
include valid storable absent found place in
theorem inserted_behind (at_home : h.home hs mp = some mp) :
    Inserted hs h key value
      ((((if (h₁.node mp).next ≠ 0 then h₁.setNext f ((mp : Int) + (h₁.node mp).next - f)
        else h₁).setNext mp ((f : Int) - mp)).setNodekey f key).setVal f value) := by
  obtain ⟨free, nodes, shape, last, used⟩ := getfreepos_some valid found
  obtain ⟨bound, nil⟩ := mem_free.mp free
  have alone := home_free hs free
  have distinct : mp ≠ f := Scattered.behind_ne alone at_home
  have inside : mp < h.sizenode := place ▸ h.mainposition_lt hs key
  have unlinked : (h.node f).next = 0 := by
    have := valid.scattered.alone alone
    simpa [link, bound] using this
  have real : h.isdummy = false := by
    by_contra dummy
    rw [Bool.not_eq_false] at dummy
    have := (valid.dead f bound).mpr dummy
    rw [nil] at this
    cases this
  set result := (((if (h₁.node mp).next ≠ 0 then
    h₁.setNext f ((mp : Int) + (h₁.node mp).next - f) else h₁).setNext mp
      ((f : Int) - mp)).setNodekey f key).setVal f value with def_result
  have shape' : SameShape h result := by
    rw [def_result]
    split_ifs <;> exact ⟨shape.lsizenode, shape.isdummy⟩
  have lastfree : result.lastfree = h₁.lastfree := by
    rw [def_result]
    split_ifs <;> rfl
  have node (i : Nat) : result.node i =
      if i = f then
        ⟨value, .key key, if (h.node mp).next ≠ 0 then (mp : Int) + (h.node mp).next - f else 0⟩
      else if i = mp then ⟨(h.node mp).val, (h.node mp).key, (f : Int) - mp⟩
      else h.node i := by
    by_cases at_f : i = f
    · subst at_f
      rw [def_result]
      by_cases linked : (h.node mp).next = 0 <;>
        simp [setVal, setNodekey, setNext, setNode, nodes, linked, distinct.symm, unlinked]
    · rw [def_result]
      by_cases at_mp : i = mp
      · subst at_mp
        by_cases linked : (h.node i).next = 0 <;>
          simp [setVal, setNodekey, setNext, setNode, nodes, linked, distinct]
      · by_cases linked : (h.node mp).next = 0 <;>
          simp [setVal, setNodekey, setNext, setNode, nodes, linked, at_mp, at_f]
  have rest (i : Nat) (_ : i < h.sizenode) (other : i ≠ f) :
      (result.node i).key = (h.node (Equiv.refl Nat i)).key ∧
        (result.node i).val = (h.node (Equiv.refl Nat i)).val := by
    rw [node, if_neg other]
    split_ifs with at_mp
    · rw [at_mp]
      exact ⟨rfl, rfl⟩
    · exact ⟨rfl, rfl⟩
  have new : (result.node f).key = .key key := by rw [node, if_pos rfl]
  have bounds := valid.inside mp inside
  have links : result.link = Scattered.behind h.link mp f := by
    funext i
    by_cases at_mp : i = mp
    · subst at_mp
      have away : (f : Int) - i ≠ 0 := by omega
      have target : ((i : Int) + ((f : Int) - i)).toNat = f := by omega
      rw [Scattered.behind, Function.update_self, link, shape'.sizenode, node, if_neg distinct,
        if_pos rfl]
      simp only [inside, true_and]
      rw [if_pos away, target]
    · by_cases at_f : i = f
      · subst at_f
        rw [Scattered.behind, Function.update_of_ne at_mp, Function.update_self, link, link,
          shape'.sizenode, node, if_pos rfl]
        simp only [bound, inside, true_and]
        by_cases linked : (h.node mp).next = 0
        · simp [linked]
        · have away : ((mp : Int) + (h.node mp).next - i) ≠ 0 := by
            intro same
            refine valid.scattered.unlinked alone mp ((link_eq valid inside).mpr ⟨linked, ?_⟩)
            omega
          have target : ((i : Int) + ((mp : Int) + (h.node mp).next - i)).toNat =
              ((mp : Int) + (h.node mp).next).toNat := by
            congr 1
            omega
          rw [if_pos linked, if_pos away, if_pos linked, target]
      · rw [Scattered.behind, Function.update_of_ne at_mp, Function.update_of_ne at_f, link, link,
          shape'.sizenode, node, if_neg at_f, if_neg at_mp]
  refine inserted_of_moved valid storable absent shape' real (Equiv.refl Nat) (fun _ => Iff.rfl)
    bound ?_ new (by rw [node, if_pos rfl]) rest ?_ ?_ ?_
  · exact valid.empty f bound fun k owner => by simp [nil] at owner
  · rw [links, home_moved shape' (Equiv.refl Nat) (fun _ => Iff.rfl) bound new rest, place]
    exact valid.scattered.append alone at_home
  · intro i within
    have before := valid.inside i within
    rw [node]
    split_ifs
    · dsimp only
      omega
    · dsimp only
      omega
    · dsimp only
      omega
    · exact before
  · intro has
    have has' : h₁.haslastfree = true := by
      rwa [haslastfree, shape'.lsizenode, ← shape.lsizenode] at has
    rw [lastfree, last has']
    refine ⟨bound.le, fun i within above => ?_⟩
    by_cases at_f : i = f
    · rw [at_f, new]
      intro same
      cases same
    · rw [(rest i within at_f).1]
      exact used has' i within (by omega)

/- The colliding node is away from home: it moves to the free place, and the key takes its own. -/
include valid storable absent found place in
theorem inserted_for_moved {othern : Nat} (away : h.home hs mp = some othern)
    (other : othern ≠ mp) (previous : Nat) (before : h.link previous = some mp) :
    let h₂ := h₁.setNext previous ((f : Int) - previous)
    let h₃ := h₂.setNode f (h₂.node mp)
    let h₄ :=
      if (h₃.node mp).next ≠ 0 then
        (h₃.setNext f ((h₃.node f).next + ((mp : Int) - f))).setNext mp 0
      else h₃
    Inserted hs h key value (((h₄.setVal mp .nil).setNodekey mp key).setVal mp value) := by
  intro h₂ h₃ h₄
  obtain ⟨free, nodes, shape, last, used⟩ := getfreepos_some valid found
  obtain ⟨bound, nil⟩ := mem_free.mp free
  have alone := home_free hs free
  have inside : mp < h.sizenode := place ▸ h.mainposition_lt hs key
  obtain ⟨_, owner, owned, _⟩ := home_some away
  have distinct : mp ≠ f := by
    rintro rfl
    cases alone.symm.trans away
  have previous_inside := (link_lt valid before).1
  have before' := (link_eq valid previous_inside).mp before
  have not_mp : previous ≠ mp := by
    rintro rfl
    exact valid.scattered.no_loop _ before
  have not_f : previous ≠ f := by
    rintro rfl
    cases (valid.scattered.alone alone).symm.trans before
  have real : h.isdummy = false := by
    by_contra dummy
    rw [Bool.not_eq_false] at dummy
    have := (valid.dead f bound).mpr dummy
    rw [nil] at this
    cases this
  set result := ((h₄.setVal mp .nil).setNodekey mp key).setVal mp value with def_result
  have nodes₃ (i : Nat) : h₃.node i =
      if i = f then h.node mp
      else if i = previous then ⟨(h.node i).val, (h.node i).key, (f : Int) - previous⟩
      else h.node i := by
    by_cases at_f : i = f
    · subst at_f
      simp [h₃, h₂, setNode, setNext, nodes, not_mp.symm]
    · by_cases at_previous : i = previous
      · subst at_previous
        simp [h₃, h₂, setNode, setNext, nodes, not_f]
      · simp [h₃, h₂, setNode, setNext, nodes, at_f, at_previous]
  have node (i : Nat) : result.node i =
      if i = mp then ⟨value, .key key, 0⟩
      else if i = f then
        ⟨(h.node mp).val, (h.node mp).key,
          if (h.node mp).next ≠ 0 then (h.node mp).next + ((mp : Int) - f) else 0⟩
      else if i = previous then ⟨(h.node i).val, (h.node i).key, (f : Int) - previous⟩
      else h.node i := by
    have at_mp := nodes₃ mp
    rw [if_neg distinct, if_neg not_mp.symm] at at_mp
    have at_f := nodes₃ f
    rw [if_pos rfl] at at_f
    by_cases linked : (h.node mp).next = 0
    · have same : h₄ = h₃ := if_neg (by rw [at_mp, linked]; exact not_not.mpr rfl)
      by_cases here : i = mp
      · subst here
        simp [def_result, same, setVal, setNodekey, setNode, at_mp, linked]
      · by_cases there : i = f
        · subst there
          have last_node : h.node mp = ⟨(h.node mp).val, (h.node mp).key, 0⟩ := by rw [← linked]
          rw [if_neg here, if_pos rfl, if_neg (not_not.mpr linked), ← last_node, ← at_f]
          simp [def_result, same, setVal, setNodekey, setNode, here]
        · simp [def_result, same, setVal, setNodekey, setNode, here, there, nodes₃]
    · have same : h₄ = (h₃.setNext f ((h₃.node f).next + ((mp : Int) - f))).setNext mp 0 :=
        if_pos (by rwa [at_mp])
      by_cases here : i = mp
      · subst here
        simp [def_result, same, setVal, setNodekey, setNode, setNext]
      · by_cases there : i = f
        · subst there
          simp [def_result, same, setVal, setNodekey, setNode, setNext, here, at_f, linked]
        · simp [def_result, same, setVal, setNodekey, setNode, setNext, here, there, nodes₃]
  have shape' : SameShape h result := by
    rw [def_result]
    by_cases linked : (h₃.node mp).next ≠ 0
    · simp only [h₄, if_pos linked]
      exact ⟨shape.lsizenode, shape.isdummy⟩
    · simp only [h₄, if_neg linked]
      exact ⟨shape.lsizenode, shape.isdummy⟩
  have lastfree : result.lastfree = h₁.lastfree := by
    rw [def_result]
    by_cases linked : (h₃.node mp).next ≠ 0
    · simp only [h₄, if_pos linked]
      rfl
    · simp only [h₄, if_neg linked]
      rfl
  have within (i : Nat) : Equiv.swap mp f i < h.sizenode ↔ i < h.sizenode := by
    rw [Equiv.swap_apply_def]
    split_ifs with here there
    · simp [here, bound, inside]
    · simp [there, bound, inside]
    · rfl
  have rest (i : Nat) (_ : i < h.sizenode) (other : i ≠ mp) :
      (result.node i).key = (h.node (Equiv.swap mp f i)).key ∧
        (result.node i).val = (h.node (Equiv.swap mp f i)).val := by
    rw [node, if_neg other, Equiv.swap_apply_def, if_neg other]
    split_ifs <;> exact ⟨rfl, rfl⟩
  have new : (result.node mp).key = .key key := by rw [node, if_pos rfl]
  have bounds := valid.inside mp inside
  have links : result.link = Scattered.moved h.link mp f := by
    funext i
    by_cases here : i = mp
    · subst here
      rw [Scattered.moved, Equiv.swap_apply_left, valid.scattered.alone alone, link, node,
        if_pos rfl]
      simp
    · by_cases there : i = f
      · subst there
        rw [Scattered.moved, Equiv.swap_apply_right, link, shape'.sizenode, node, if_neg here,
          if_pos rfl, link]
        simp only [bound, inside, true_and]
        by_cases linked : (h.node mp).next = 0
        · simp [linked]
        · have onward : h.link mp = some ((mp : Int) + (h.node mp).next).toNat := by
            simp [link, inside, linked]
          have apart : ((mp : Int) + (h.node mp).next).toNat ≠ i := fun same =>
            valid.scattered.unlinked alone mp (same ▸ onward)
          have apart' : ((mp : Int) + (h.node mp).next).toNat ≠ mp := fun same =>
            valid.scattered.no_loop mp (onward.trans (congrArg some same))
          have away' : (h.node mp).next + ((mp : Int) - i) ≠ 0 := by omega
          have target : ((i : Int) + ((h.node mp).next + ((mp : Int) - i))).toNat =
              ((mp : Int) + (h.node mp).next).toNat := by
            congr 1
            omega
          rw [if_pos linked, if_pos away', if_pos linked, target, Option.map_some,
            Equiv.swap_apply_of_ne_of_ne apart' apart]
      · have fixed := Equiv.swap_apply_of_ne_of_ne here there
        rw [Scattered.moved, fixed]
        by_cases earlier : i = previous
        · subst earlier
          have away' : (f : Int) - i ≠ 0 := by omega
          have target : ((i : Int) + ((f : Int) - i)).toNat = f := by omega
          rw [before, Option.map_some, Equiv.swap_apply_left, link, shape'.sizenode, node,
            if_neg here, if_neg there, if_pos rfl, if_pos ⟨previous_inside, away'⟩, target]
        · have same : result.link i = h.link i := by
            rw [link, link, shape'.sizenode, node, if_neg here, if_neg there, if_neg earlier]
          rw [same]
          cases onward : h.link i with
          | none => rfl
          | some j =>
            have apart : j ≠ f := fun same => valid.scattered.unlinked alone i (same ▸ onward)
            have apart' : j ≠ mp := fun same =>
              earlier (valid.scattered.injective _ _ _ (same ▸ onward) before)
            rw [Option.map_some, Equiv.swap_apply_of_ne_of_ne apart' apart]
  refine inserted_of_moved valid storable absent shape' real (Equiv.swap mp f) within inside ?_ new
    (by rw [node, if_pos rfl]) rest ?_ ?_ ?_
  · rw [Equiv.swap_apply_left]
    exact valid.empty f bound fun k owner => by simp [nil] at owner
  · rw [links, home_moved shape' (Equiv.swap mp f) within inside new rest, place]
    exact valid.scattered.move alone away other
  · intro i inside'
    have before'' := valid.inside i inside'
    rw [node]
    split_ifs
    · dsimp only
      omega
    · dsimp only
      omega
    · dsimp only
      omega
    · dsimp only
      omega
    · exact before''
  · intro has
    have has' : h₁.haslastfree = true := by
      rwa [haslastfree, shape'.lsizenode, ← shape.lsizenode] at has
    rw [lastfree, last has']
    refine ⟨bound.le, fun i inside' above => ?_⟩
    by_cases here : i = mp
    · rw [here, new]
      intro same
      cases same
    · rw [(rest i inside' here).1, Equiv.swap_apply_def, if_neg here]
      split_ifs with there
      · rw [owned]
        intro same
        cases same
      · exact used has' i inside' (by omega)

end Collision

/- A main position that is taken holds a key. -/
theorem home_of_taken (valid : h.Valid hs) (inside : mp < h.sizenode)
    (taken : (h.node mp).val ≠ .nil) : h.home hs mp = some (h.mainpositionfromnode hs mp) := by
  have owned : ∃ k, (h.node mp).key = .key k := by
    by_contra unowned
    exact taken (valid.empty mp inside fun k owner => unowned ⟨k, owner⟩)
  obtain ⟨k, owner⟩ := owned
  rw [home_key inside owner, mainpositionfromnode, owner, NodeKey.value]

theorem value_of_isNil {v : Value} : v.isNil = true ↔ v = .nil := by
  cases v <;> simp [Value.isNil]

section Insertkey

variable (valid : h.Valid hs)

include valid

/-- insertkey of a key that is not there, when it finds a place. -/
theorem insertkey_inserted (storable : Storable key)
    (absent : ∀ i < h.sizenode, (h.node i).key ≠ .key key)
    (done : h.insertkey hs key value = (true, h')) : Inserted hs h key value h' := by
  have inside := h.mainposition_lt hs key
  rw [insertkey] at done
  dsimp only at done
  split_ifs at done with taken
  · split at done
    · cases done
    · next f h₁ found =>
      obtain ⟨free, nodes, shape, _⟩ := getfreepos_some valid found
      obtain ⟨bound, nil⟩ := mem_free.mp free
      have real : h.isdummy ≠ true := by
        intro dummy
        have := (valid.dead f bound).mpr dummy
        rw [nil] at this
        cases this
      have used : (h.node (h.mainpositionTV hs key)).val ≠ .nil := by
        intro nil
        simp [nil, Value.isNil, real] at taken
      have homed := home_of_taken valid inside used
      have same : h₁.mainpositionfromnode hs (h.mainpositionTV hs key) =
          h.mainpositionfromnode hs (h.mainpositionTV hs key) := by
        rw [mainpositionfromnode, mainpositionfromnode, nodes, mainposition_congr shape.lsizenode]
      rw [same] at done
      by_cases away : h.mainpositionfromnode hs (h.mainpositionTV hs key) ≠
          h.mainpositionTV hs key
      · rw [if_pos away] at done
        obtain ⟨l, chain, passed⟩ := valid.scattered.reached _ _ homed
        have start := (home_some homed).2
        obtain ⟨k, _, start⟩ := start
        have start' := start ▸ h.mainposition_lt hs k
        have search (steps a : Nat) : h₁.findPrevious (h.mainpositionTV hs key) steps a =
            h.findPrevious (h.mainpositionTV hs key) steps a := by
          induction steps generalizing a with
          | zero => rfl
          | succ steps ih => rw [findPrevious, findPrevious, nodes, ih]
        have before := findPrevious_linked valid chain start' passed (Ne.symm away)
          (chain_length valid start' chain)
        rw [← search, ← shape.sizenode] at before
        obtain ⟨_, rfl⟩ := Prod.mk.inj done
        exact inserted_for_moved valid storable absent found rfl homed away _ before
      · rw [if_neg away] at done
        rw [not_not] at away
        obtain ⟨_, rfl⟩ := Prod.mk.inj done
        exact inserted_behind valid storable absent found rfl (homed.trans (congrArg some away))
  · rw [Bool.or_eq_true, Bool.not_eq_true', not_or, Bool.not_eq_false, value_of_isNil,
      Bool.not_eq_true] at taken
    obtain ⟨_, rfl⟩ := Prod.mk.inj done
    exact inserted_at_home valid storable absent taken.2 rfl taken.1

/-- insertkey fails only when no place is left, and changes no node then. -/
theorem insertkey_full (full : h.insertkey hs key value = (false, h')) :
    h.free = ∅ ∧ h'.Valid hs ∧ h'.node = h.node ∧ SameShape h h' := by
  rw [insertkey] at full
  dsimp only at full
  split_ifs at full
  · split at full
    · next h₁ found =>
      obtain ⟨_, rfl⟩ := Prod.mk.inj full
      exact getfreepos_none valid found
    · split_ifs at full <;> cases (Prod.mk.inj full).1
  · cases (Prod.mk.inj full).1

end Insertkey

end HashPart

end Luava.Ltable
