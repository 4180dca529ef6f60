import Luava.Lvm
import Luava.TableBorder

/-
The heap of the wrapper's model is what the tables of ltable.c implement. Accesses to the stored
tables, with their fast paths, rehashes and cached absent events, end as they do on the maps of
the heap and keep the representation; a table overflow is the only additional end.
-/
namespace Luava.Lvm

open Ltable Ltable.Table Ltable.HashPart

section Fields

variable {hs : Hashes} {t : Ltable.Table} {k : List UInt8} {val : Value} (noTM barrier : Bool)

/- What a fast set of a string key does beside the set itself. -/
structure FastSet (hs : Hashes) (noTM : Bool) (t : Ltable.Table) (k : List UInt8) (val : Value)
    (hres : Hres) (t' : Ltable.Table) : Prop where
  present : t.luaHGet hs (.string k) ≠ .nil → hres = .ok
  allowed : hres = .ok → t.luaHGet hs (.string k) = .nil → noTM = true
  kept : hres ≠ .ok → noTM = false → t' = t
  flags : t'.flags = t.flags ∧ (hres = .ok → t.luaHGet hs (.string k) ≠ .nil ∨ val = .nil) ∨
    t'.flags = fun _ => false
  metatable : t'.metatable = t.metatable

theorem finishnodeset_fastSet {slot : Option Nat} (found : t.luaHGet hs (.string k) =
    t.nodeValue slot) :
    FastSet hs noTM t k val (t.finishnodeset slot val).1 (t.finishnodeset slot val).2 := by
  cases slot with
  | none =>
    exact ⟨fun present => absurd found present, nofun, fun _ _ => rfl, .inl ⟨rfl, nofun⟩, rfl⟩
  | some n =>
    unfold finishnodeset
    dsimp only
    by_cases nil : (t.hash.node n).val.isNil = true
    · rw [if_pos nil]
      exact ⟨fun present => absurd (found.trans (value_of_isNil.mp nil)) present, nofun,
        fun _ _ => rfl, .inl ⟨rfl, nofun⟩, rfl⟩
    · rw [if_neg nil]
      have present : t.luaHGet hs (.string k) ≠ .nil := fun absent =>
        nil (value_of_isNil.mpr (found.symm.trans absent))
      exact ⟨fun _ => rfl, fun _ absent => absurd absent present, fun other => absurd rfl other,
        .inl ⟨rfl, fun _ => .inl present⟩, rfl⟩

theorem luaHPsetshortstr_fastSet (found : t.luaHGet hs (.string k) =
    t.nodeValue (t.hash.luaHHgetshortstr hs k)) :
    FastSet hs noTM t k val (t.luaHPsetshortstr hs noTM barrier k val).1
      (t.luaHPsetshortstr hs noTM barrier k val).2 := by
  have other (slot : Option Nat) (absent : t.luaHGet hs (.string k) = .nil)
      (h : HashPart) (only : noTM = true ∨ h = t.hash) :
      FastSet hs noTM t k val (retpsetcode slot) { t with hash := h } := by
    have code : retpsetcode slot ≠ .ok := by cases slot <;> nofun
    refine ⟨fun present => absurd absent present, fun ok => absurd ok code, fun _ off => ?_,
      .inl ⟨rfl, fun ok => absurd ok code⟩, rfl⟩
    rcases only with on | rfl
    · cases on.symm.trans off
    · rfl
  unfold luaHPsetshortstr
  dsimp only
  rw [← found]
  by_cases absent : t.luaHGet hs (.string k) = .nil
  · rw [absent]
    have stays := other (t.hash.luaHHgetshortstr hs k) absent t.hash (.inr rfl)
    by_cases skip : (noTM && val.isNil) = true
    · obtain ⟨on, nil⟩ := Bool.and_eq_true_iff.mp skip
      rw [if_neg (by simp [Value.isNil]), if_pos skip]
      exact ⟨fun _ => rfl, fun _ _ => on, fun other => absurd rfl other,
        .inl ⟨rfl, fun _ => .inr (value_of_isNil.mp nil)⟩, rfl⟩
    · rw [if_neg (by simp [Value.isNil]), if_neg skip]
      by_cases insert : (noTM && (t.hash.luaHHgetshortstr hs k).isNone && !barrier) = true
      · have on : noTM = true := by simp only [Bool.and_eq_true] at insert; exact insert.1.1
        rw [if_pos insert]
        cases insertion : t.hash.insertkey hs (.string k) val with
        | mk success h =>
          cases success with
          | true =>
            exact ⟨fun _ => rfl, fun _ _ => on, fun other => absurd rfl other, .inr rfl, rfl⟩
          | false => exact other _ absent h (.inl on)
      · rw [if_neg insert]
        exact stays
  · have some : (!(t.luaHGet hs (.string k)).isNil) = true := by
      simpa [value_of_isNil, Bool.eq_false_iff] using absent
    rw [if_pos some]
    cases slot : t.hash.luaHHgetshortstr hs k with
    | none =>
      rw [slot] at found
      exact absurd found absent
    | some n =>
      exact ⟨fun _ => rfl, fun _ nil => absurd nil absent, fun other => absurd rfl other,
        .inl ⟨rfl, fun _ => .inl absent⟩, rfl⟩

theorem luaHPset_fastSet (hs : Hashes) (t : Ltable.Table) (k : List UInt8) (val : Value) :
    FastSet hs noTM t k val (t.luaHPset hs noTM barrier (.string k) val).1
      (t.luaHPset hs noTM barrier (.string k) val).2 := by
  have found : t.luaHGet hs (.string k) = t.nodeValue (t.hash.Hgetstr hs k) := rfl
  rw [Ltable.HashPart.Hgetstr] at found
  unfold luaHPset
  dsimp only
  by_cases short : k.length ≤ LUAI_MAXSHORTLEN
  · rw [if_pos short] at found ⊢
    exact luaHPsetshortstr_fastSet noTM barrier found
  · rw [if_neg short] at found ⊢
    exact finishnodeset_fastSet noTM found

end Fields

/-- The heap that a store of tables stands for. A flag is only set where the event is absent. -/
structure Represents (g : Global) (S : Store) (h : Heap) : Prop where
  valid : ∀ id, (S.table id).Valid g.hashes
  hint : ∀ id, (S.table id).lenhint ≤ (S.table id).asize
  content : ∀ id k, (S.table id).luaHGet g.hashes k = h.rawget id (normal k)
  metatable : ∀ id, (S.table id).metatable = (h.table id).metatable
  flags : ∀ id event, (S.table id).flags event = true →
    h.rawget id (Value.literal event.tmname) = .nil
  globals : S.globals = h.globals
  userdataMetatable : S.userdataMetatable = h.userdataMetatable
  typeMetatable : S.typeMetatable = h.typeMetatable

/- The error object of a fault. -/
def Fault.error (h : Heap) : Fault → LuaError
  | .typeerror o op => h.typeerror o op
  | .runerror message => .run message

def Read.access (h : Heap) : Read → Heap.Access
  | .value v => .value v
  | .call tm object => .call tm object
  | .fail e => .fail (e.error h)

variable {g : Global} {S : Store} {h : Heap}

theorem Represents.metatable_eq (rep : Represents g S h) (v : Value) :
    S.metatable v = h.metatable v := by
  cases v with
  | table id => exact rep.metatable id
  | userdata u => exact congrFun rep.userdataMetatable u
  | _ => exact congrFun rep.typeMetatable _

theorem Represents.eventField (rep : Represents g S h) (mt : TableId) (event : TMS) :
    Store.eventField g (S.table mt) event = h.rawget mt (Value.literal event.tmname) := by
  refine Eq.trans ?_ (rep.content mt (Value.literal event.tmname))
  cases event <;> rfl

theorem Represents.gettmbyobj (rep : Represents g S h) (t : Value) (event : TMS) :
    S.luaTGettmbyobj g t event = h.gettmbyobj t event.tmname := by
  rw [Store.luaTGettmbyobj, rep.metatable_eq, Heap.gettmbyobj]
  cases h.metatable t with
  | none => rfl
  | some mt => exact rep.eventField mt event

theorem Represents.fastget (rep : Represents g S h) (t : Value) (k : List UInt8) :
    S.luaVFastget g t (.string k) = h.fastget t (.string k) := by
  cases t with
  | table id =>
    rw [Store.luaVFastget, Heap.fastget, rep.content]
    rfl
  | _ => rfl

/- Nothing of a table's content depends on its flags. -/
theorem valid_flags {hs : Hashes} {t : Ltable.Table} (valid : t.Valid hs) (f : TMS → Bool) :
    ({ t with flags := f } : Ltable.Table).Valid hs :=
  ⟨valid.hash, valid.size, valid.apart⟩

theorem placed_flags {hs : Hashes} {t t' : Ltable.Table} {key val : Value} {hres : Hres}
    (placed : Placed hs t key val hres t') (f : TMS → Bool) :
    Placed hs t key val hres { t' with flags := f } := by
  cases hres with
  | ok => exact ⟨valid_flags placed.valid f, placed.own, placed.others⟩
  | _ => exact ⟨valid_flags placed.1 f, placed.2⟩

/- The flag of an event that is absent. -/
theorem Represents.cache (rep : Represents g S h) {mt : TableId} {event : TMS}
    (absent : h.rawget mt (Value.literal event.tmname) = .nil) :
    Represents g (S.setTable mt
      { S.table mt with flags := Function.update (S.table mt).flags event true }) h := by
  have table (id : TableId) : ∃ f, (S.setTable mt
      { S.table mt with flags := Function.update (S.table mt).flags event true }).table id =
        { S.table id with flags := f } ∧
      ∀ e, f e = true → (S.table id).flags e = true ∨ id = mt ∧ e = event := by
    by_cases same : id = mt
    · subst same
      refine ⟨Function.update (S.table id).flags event true, by simp [Store.setTable], ?_⟩
      intro e set
      by_cases here : e = event
      · exact .inr ⟨rfl, here⟩
      · rw [Function.update_of_ne here] at set
        exact .inl set
    · exact ⟨(S.table id).flags, by simp [Store.setTable, same], fun e => .inl⟩
  refine ⟨fun id => ?_, fun id => ?_, fun id k => ?_, fun id => ?_, fun id e set => ?_,
    rep.globals, rep.userdataMetatable, rep.typeMetatable⟩
  all_goals obtain ⟨f, same, sets⟩ := table id
  · rw [same]
    exact valid_flags (rep.valid id) f
  · rw [same]
    exact rep.hint id
  · rw [same]
    exact rep.content id k
  · rw [same]
    exact rep.metatable id
  · rw [same] at set
    rcases sets e set with before | ⟨rfl, rfl⟩
    · exact rep.flags id e before
    · exact absent

/-- The handler of a value is the one of the heap. A flag may be set only when there is none. -/
theorem Represents.handler (rep : Represents g S h) (t : Value) (event : TMS) :
    (S.handler g t event).1 = h.gettmbyobj t event.tmname ∧
      Represents g (S.handler g t event).2 h ∧
      ((S.handler g t event).2 = S ∨ h.gettmbyobj t event.tmname = .nil ∧
        ∃ mt f, (S.handler g t event).2 = S.setTable mt { S.table mt with flags := f }) := by
  cases t with
  | table id =>
    have metatable := rep.metatable id
    unfold Store.handler Store.fasttm Heap.gettmbyobj Heap.metatable
    dsimp only
    rw [← metatable]
    cases (S.table id).metatable with
    | none => exact ⟨rfl, rep, .inl rfl⟩
    | some mt =>
      have field := rep.eventField mt event
      dsimp only
      by_cases set : (S.table mt).flags event = true
      · rw [if_pos set]
        exact ⟨(rep.flags mt event set).symm, rep, .inl rfl⟩
      · rw [if_neg set, Store.luaTGettm, field]
        by_cases absent : h.rawget mt (Value.literal event.tmname) = .nil
        · rw [if_pos (value_of_isNil.mpr absent)]
          exact ⟨absent.symm, rep.cache absent, .inr ⟨absent, mt, _, rfl⟩⟩
        · rw [if_neg fun isNil => absent (value_of_isNil.mp isNil)]
          exact ⟨rfl, rep, .inl rfl⟩
  | _ => exact ⟨rep.gettmbyobj _ event, rep, .inl rfl⟩

/-- luaV_finishget ends as on the heap. -/
theorem Represents.finishget (rep : Represents g S h) (k : List UInt8) (loop : Nat) (t : Value) :
    h.finishget (.string k) loop t = (S.luaVFinishget g (.string k) loop t).1.access h ∧
      Represents g (S.luaVFinishget g (.string k) loop t).2 h := by
  induction loop generalizing S t with
  | zero => exact ⟨rfl, rep⟩
  | succ loop ih =>
    obtain ⟨same, rep', _⟩ := rep.handler t .index
    unfold Heap.finishget Store.luaVFinishget
    cases found : S.handler g t .index with
    | mk tm S' =>
      rw [found] at same rep'
      have event : tm = h.gettmbyobj t "__index" := same
      rw [← event]
      have next : h.fastget tm (.string k) = S'.luaVFastget g tm (.string k) :=
        (rep'.fastget tm k).symm
      have rest := ih rep' tm
      cases tm with
      | nil => cases t <;> exact ⟨rfl, rep'⟩
      | function f => exact ⟨rfl, rep'⟩
      | _ =>
        dsimp only
        rw [next]
        cases S'.luaVFastget g _ (.string k) with
        | some v => exact ⟨rfl, rep'⟩
        | none => exact rest

/-- A read of a field ends as on the heap, and the tables still stand for it. -/
theorem Represents.auxgetstr (rep : Represents g S h) (t : Value) (k : List UInt8) :
    h.access t (.string k) = (S.auxgetstr g t k).1.access h ∧
      Represents g (S.auxgetstr g t k).2 h := by
  rw [Heap.access, Store.auxgetstr, rep.fastget]
  cases h.fastget t (.string k) with
  | some v => exact ⟨rfl, rep⟩
  | none => exact rep.finishget k Heap.MAXTAGLOOP t

/- Tables with the same content read the same. -/
theorem luaHGet_same {hs : Hashes} {t t' : Ltable.Table} (valid : t.Valid hs)
    (valid' : t'.Valid hs) (same : t.SameContent t') (k : Value) :
    t'.luaHGet hs k = t.luaHGet hs k := by
  by_cases storable : Storable (normal k)
  · rw [← luaHGet_normal hs t' k, ← luaHGet_normal hs t k]
    by_cases present : t.luaHGet hs (normal k) = .nil
    · by_contra different
      rw [present] at different
      have has := (luaHGet_iff valid' storable different).mp rfl
      have before := (luaHGet_iff valid storable different).mpr ((same _ _ different).mp has)
      exact different (before.symm.trans present)
    · have has := (luaHGet_iff valid storable present).mp rfl
      exact (luaHGet_iff valid' storable present).mpr ((same _ _ present).mpr has)
  · rw [luaHGet_unstorable storable, luaHGet_unstorable storable]

/- One table is changed, and the heap accordingly. -/
theorem Represents.setTable (rep : Represents g S h) {id : TableId} {t' : Ltable.Table} {h' : Heap}
    (valid : t'.Valid g.hashes) (hint : t'.lenhint ≤ t'.asize)
    (content : ∀ k, t'.luaHGet g.hashes k = h'.rawget id (normal k))
    (metatable : t'.metatable = (h'.table id).metatable)
    (flags : ∀ event, t'.flags event = true →
      h'.rawget id (Value.literal event.tmname) = .nil)
    (others : ∀ u, u ≠ id → h'.table u = h.table u) (globals : h'.globals = h.globals)
    (userdataMetatable : h'.userdataMetatable = h.userdataMetatable)
    (typeMetatable : h'.typeMetatable = h.typeMetatable) :
    Represents g (S.setTable id t') h' := by
  have own : (S.setTable id t').table id = t' := by simp [Store.setTable]
  have other (u : TableId) (apart : u ≠ id) : (S.setTable id t').table u = S.table u := by
    simp [Store.setTable, apart]
  have split (P : TableId → Prop) (here : P id) (elsewhere : ∀ u, u ≠ id → P u) (u : TableId) :
      P u := by
    by_cases same : u = id
    · exact same ▸ here
    · exact elsewhere u same
  refine ⟨split _ ?_ ?_, split _ ?_ ?_, split _ ?_ ?_, split _ ?_ ?_, split _ ?_ ?_,
    rep.globals.trans globals.symm, rep.userdataMetatable.trans userdataMetatable.symm,
    rep.typeMetatable.trans typeMetatable.symm⟩
  · rwa [own]
  · intro u apart
    rw [other u apart]
    exact rep.valid u
  · rwa [own]
  · intro u apart
    rw [other u apart]
    exact rep.hint u
  · rwa [own]
  · intro u apart k
    rw [other u apart, Heap.rawget, others u apart]
    exact rep.content u k
  · rwa [own]
  · intro u apart
    rw [other u apart, others u apart]
    exact rep.metatable u
  · rwa [own]
  · intro u apart event set
    rw [other u apart] at set
    rw [Heap.rawget, others u apart]
    exact rep.flags u event set

theorem Represents.unchanged (rep : Represents g S h) {id : TableId} {t' : Ltable.Table}
    (valid : t'.Valid g.hashes) (same : (S.table id).SameContent t')
    (header : (S.table id).SameHeader t')
    (flags : t'.flags = (S.table id).flags ∨ t'.flags = fun _ => false) :
    Represents g (S.setTable id t') h := by
  refine rep.setTable valid ?_ (fun k => ?_) (header.metatable.trans (rep.metatable id)) ?_
    (fun _ _ => rfl) rfl rfl rfl
  · rw [header.lenhint, header.asize]
    exact rep.hint id
  · exact (luaHGet_same (rep.valid id) valid same k).trans (rep.content id k)
  · intro event set
    rcases flags with kept | cleared
    · exact rep.flags id event (kept ▸ set)
    · rw [cleared] at set
      cases set

/- A set of a key is a raw set of the heap. -/
theorem Represents.rawset (rep : Represents g S h) {id : TableId} {t' : Ltable.Table}
    {key val : Value} (sets : Sets g.hashes (S.table id) key val t') (storable : Storable key)
    (hint : t'.lenhint ≤ t'.asize) (metatable : t'.metatable = (S.table id).metatable)
    (flags : t'.flags = (S.table id).flags ∧
        ((S.table id).luaHGet g.hashes key ≠ .nil ∨ val = .nil) ∨
      t'.flags = fun _ => false) :
    Represents g (S.setTable id t') (h.rawset id key val) := by
  have reads (k : Value) : (h.rawset id key val).rawget id k =
      if k = key then val else h.rawget id k := by
    simp [Heap.rawget, Heap.rawset, Function.update_apply]
  refine rep.setTable sets.valid hint (fun k => ?_) ?_ (fun event set => ?_)
    (fun u apart => by simp [Heap.rawset, apart]) rfl rfl rfl
  · rw [sets.luaHGet (rep.valid id) storable, reads, rep.content]
  · rw [metatable, rep.metatable]
    simp [Heap.rawset]
  · rw [reads]
    rcases flags with ⟨kept, filled⟩ | cleared
    · rw [kept] at set
      have absent := rep.flags id event set
      by_cases same : Value.literal event.tmname = key
      · rw [if_pos same]
        refine filled.resolve_left fun present => present ?_
        rw [← same, rep.content]
        exact absent
      · rw [if_neg same]
        exact absent
    · rw [cleared] at set
      cases set

/-- The fast path of a set takes what the heap's does: a key that is there, or a new one where no
   handler intervenes. -/
structure FastRefines (g : Global) (S : Store) (h : Heap) (id : TableId) (k : List UInt8)
    (val : Value) (hres : Hres) (S' : Store) : Prop where
  stored : hres = .ok → Represents g S' (h.rawset id (.string k) val)
  kept : hres ≠ .ok → Represents g S' h
  placed : Placed g.hashes (S.table id) (.string k) val hres (S'.table id)
  metatable : (S'.table id).metatable = (S.table id).metatable
  present : h.rawget id (.string k) ≠ .nil → hres = .ok
  allowed : hres = .ok → h.rawget id (.string k) ≠ .nil ∨
    h.gettmbyobj (.table id) "__newindex" = .nil
  stays : hres ≠ .ok → S' = S ∨ h.gettmbyobj (.table id) "__newindex" = .nil

theorem Represents.fastset (rep : Represents g S h) (id : TableId) (k : List UInt8) (val : Value) :
    ∃ hres S', Store.luaVFastset g (.table id) (.string k) val S = (some hres, S') ∧
      FastRefines g S h id k val hres S' := by
  have free (off : S.checknoTM (S.table id).metatable .newindex = true) :
      h.gettmbyobj (.table id) "__newindex" = .nil := by
    rw [Heap.gettmbyobj, Heap.metatable, ← rep.metatable]
    cases metatable : (S.table id).metatable with
    | none => rfl
    | some mt =>
      rw [metatable] at off
      exact rep.flags mt .newindex off
  have content : (S.table id).luaHGet g.hashes (.string k) = h.rawget id (.string k) :=
    rep.content id (.string k)
  unfold Store.luaVFastset Store.fastset
  dsimp only
  generalize S.checknoTM (S.table id).metatable .newindex = noTM at free
  generalize g.barrier id (.string k) = barrier
  have fast := luaHPset_fastSet noTM barrier g.hashes (S.table id) k val
  have placed : Placed g.hashes (S.table id) (.string k) val
      ((S.table id).luaHPset g.hashes noTM barrier (.string k) val).1
      ((S.table id).luaHPset g.hashes noTM barrier (.string k) val).2 :=
    luaHPset_placed noTM barrier (rep.valid id) trivial
  have header := (S.table id).luaHPset_header g.hashes noTM barrier (.string k) val
  cases code : (S.table id).luaHPset g.hashes noTM barrier (.string k) val with
  | mk hres t' =>
    rw [code] at fast placed header
    have hint : t'.lenhint ≤ t'.asize := by
      rw [header.lenhint, header.asize]
      exact rep.hint id
    have own : (S.setTable id t').table id = t' := by simp [Store.setTable]
    refine ⟨hres, S.setTable id t', rfl, ?_, ?_, ?_, ?_, ?_, ?_, ?_⟩
    · rintro rfl
      refine rep.rawset placed trivial hint header.metatable ?_
      rcases fast.flags with ⟨kept, filled⟩ | cleared
      · exact .inl ⟨kept, filled rfl⟩
      · exact .inr cleared
    · intro other
      have same : t'.Valid g.hashes ∧ (S.table id).SameContent t' := by
        cases hres with
        | ok => exact absurd rfl other
        | _ => exact ⟨placed.1, placed.2.1⟩
      exact rep.unchanged same.1 same.2 header (fast.flags.imp And.left fun cleared => cleared)
    · rw [own]
      exact placed
    · rw [own]
      exact header.metatable
    · rw [← content]
      exact fast.present
    · intro ok
      by_cases absent : h.rawget id (.string k) = .nil
      · exact .inr (free (fast.allowed ok (content.trans absent)))
      · exact .inl absent
    · intro other
      cases noTM with
      | true => exact .inr (free rfl)
      | false =>
        have same : t' = S.table id := fast.kept other rfl
        left
        rw [same]
        simp [Store.setTable]

/- Whether the fast path of a set takes the key, as the heap is told. -/
def fastTakes (g : Global) (S : Store) (val : Value) : Heap → TableId → Value → Bool :=
  fun _ id key => (Store.luaVFastset g (.table id) key val S).1 == some .ok

theorem Represents.fastset_eq (rep : Represents g S h) {id : TableId} {k : List UInt8}
    {val : Value} {hres : Hres} {S' : Store}
    (code : Store.luaVFastset g (.table id) (.string k) val S = (some hres, S')) :
    h.fastset (fastTakes g S val) (.table id) (.string k) =
      if hres = .ok then some id else none := by
  obtain ⟨_, _, code', fast⟩ := rep.fastset id k val
  cases code.symm.trans code'
  have takes : fastTakes g S val h id (.string k) = decide (hres = .ok) := by
    rw [fastTakes, code]
    cases hres <;> rfl
  rw [Heap.fastset, takes]
  by_cases ok : hres = .ok
  · rw [if_pos ok]
    rcases fast.allowed ok with present | free
    · simp [Bool.eq_false_iff.mpr fun nil => present (value_of_isNil.mp nil)]
    · simp [free, ok, Value.isNil]
  · have absent : h.rawget id (.string k) = .nil := by
      by_contra present
      exact ok (fast.present present)
    simp [absent, ok, Value.isNil]

/-- When a set may overflow: for a new key that gets a value, in a table whose keys and the new one,
   with a quarter more, do not fit into a hash part. -/
structure MayOverflow (h : Heap) (id : TableId) (key val : Value) : Prop where
  new : h.rawget id key = .nil
  value : val ≠ .nil
  crowded : ∃ keys : List Value, keys.Nodup ∧ (∀ k ∈ keys, h.rawget id k ≠ .nil) ∧
    MAXHSIZE < (keys.length + 1) + (keys.length + 1) / 4

theorem Represents.reads (rep : Represents g S h) (id : TableId) {k v : Value}
    (storable : Storable k) (present : v ≠ .nil) :
    (S.table id).Has k v ↔ h.rawget id k = v := by
  rw [← luaHGet_iff (rep.valid id) storable present, rep.content, normal_storable storable]

theorem Represents.overflows (rep : Represents g S h) {id : TableId} {key val : Value}
    (storable : Storable key) (overflows : (S.table id).Overflows key val) :
    MayOverflow h id key val := by
  obtain ⟨new, some, keys, distinct, has, large⟩ := overflows
  refine ⟨?_, some, keys, distinct, fun k member => ?_, large⟩
  · by_contra present
    exact new _ present ((rep.reads id storable present).mpr rfl)
  · obtain ⟨legal, v, present, has⟩ := has k member
    rwa [(rep.reads id legal present).mp has]

/-- What a write on the tables makes of the end that the heap has for it. -/
def Refines (g : Global) (h : Heap) (k : List UInt8) (val : Value) (out : Written × Store) :
    Heap.Assignment → Prop
  | .store id =>
    out.1 = .done ∧ Represents g out.2 (h.rawset id (.string k) val) ∨
      out.1 = .fail (.runerror tableOverflow) ∧ MayOverflow h id (.string k) val ∧
        Represents g out.2 h
  | .call tm object => out.1 = .call tm object ∧ Represents g out.2 h
  | .fail e => (∃ f, out.1 = .fail f ∧ f.error h = e) ∧ Represents g out.2 h

/- A code that is not the final one does not depend on the table before. -/
theorem placed_self {hs : Hashes} {t t' : Ltable.Table} {key val : Value} {hres : Hres}
    (placed : Placed hs t key val hres t') (other : hres ≠ .ok) :
    Placed hs t' key val hres t' := by
  cases hres with
  | ok => exact absurd rfl other
  | notFound => exact ⟨placed.1, .refl t', placed.2.2⟩
  | node n => exact ⟨placed.1, .refl t', placed.2.2⟩
  | array i => exact ⟨placed.1, .refl t', placed.2.2⟩

/- The end of luaV_finishset on a table without a handler. -/
theorem Represents.finish_store (rep : Represents g S h) {id : TableId} {k : List UInt8}
    {val : Value} {hres : Hres}
    (placed : Placed g.hashes (S.table id) (.string k) val hres (S.table id)) :
    (∃ content, (S.table id).luaHFinishset g.hashes (.string k) val hres = .ok content ∧
        Represents g (S.setTable id content.invalidateTMcache) (h.rawset id (.string k) val)) ∨
      (S.table id).luaHFinishset g.hashes (.string k) val hres = .error tableOverflow ∧
        MayOverflow h id (.string k) val := by
  have storable : Storable (normal (.string k)) := trivial
  cases finished : (S.table id).luaHFinishset g.hashes (.string k) val hres with
  | ok content =>
    have sets : Sets g.hashes (S.table id) (.string k) val content :=
      luaHFinishset_sets storable placed finished
    obtain ⟨hint, metatable⟩ := luaHFinishset_hint (rep.hint id) storable finished
    exact .inl ⟨content, rfl, rep.rawset sets.invalidate trivial hint metatable (.inr rfl)⟩
  | error e =>
    obtain ⟨rfl, overflows⟩ := luaHFinishset_error storable placed finished
    exact .inr ⟨rfl, rep.overflows trivial overflows⟩

/-- luaV_finishset ends as on the heap. -/
theorem Represents.finishset (rep : Represents g S h) (k : List UInt8) (val : Value) (loop : Nat)
    {t : Value} {hres : Option Hres} {S₁ : Store}
    (code : Store.luaVFastset g t (.string k) val S = (hres, S₁)) (other : hres ≠ some .ok) :
    Refines g h k val (S₁.luaVFinishset g (.string k) val loop t hres)
      (h.finishset (fastTakes g S val) (.string k) loop t) := by
  induction loop generalizing t hres S₁ with
  | zero =>
    have rep₁ : Represents g S₁ h := by
      cases t with
      | table id =>
        obtain ⟨_, _, code', fast⟩ := rep.fastset id k val
        cases code.symm.trans code'
        exact fast.kept fun ok => other (congrArg some ok)
      | _ =>
        cases code
        exact rep
    exact ⟨⟨_, rfl, rfl⟩, rep₁⟩
  | succ loop ih =>
    have before : Represents g S₁ h ∧ (S₁ = S ∨ h.gettmbyobj t "__newindex" = .nil) := by
      cases t with
      | table id =>
        obtain ⟨_, _, code', fast⟩ := rep.fastset id k val
        cases code.symm.trans code'
        have notOk := fun ok => other (congrArg some ok)
        exact ⟨fast.kept notOk, fast.stays notOk⟩
      | _ =>
        cases code
        exact ⟨rep, .inl rfl⟩
    obtain ⟨rep₁, stays⟩ := before
    obtain ⟨same, rep₂, flagged⟩ := rep₁.handler t .newindex
    unfold Heap.finishset Store.luaVFinishset
    cases found : S₁.handler g t .newindex with
    | mk tm S₂ =>
      rw [found] at same rep₂ flagged
      have event : tm = h.gettmbyobj t "__newindex" := same
      have flagged' : S₂ = S₁ ∨ tm = .nil ∧
          ∃ mt f, S₂ = S₁.setTable mt { S₁.table mt with flags := f } :=
        event ▸ flagged
      rw [← event] at stays ⊢
      have next (apart : tm ≠ .nil) : S₂ = S := by
        rw [flagged'.resolve_right fun nil => apart nil.1,
          stays.resolve_right fun nil => apart nil]
      cases tm with
      | nil =>
        cases t with
        | table id =>
          obtain ⟨hres', _, code', fast⟩ := rep.fastset id k val
          cases code.symm.trans code'
          have notOk := fun ok => other (congrArg some ok)
          have placed : Placed g.hashes (S₂.table id) (.string k) val hres' (S₂.table id) := by
            have own := placed_self fast.placed notOk
            rcases flagged' with rfl | ⟨_, mt, f, rfl⟩
            · exact own
            · by_cases self : id = mt
              · subst self
                simp only [Store.setTable, Function.update_self]
                exact placed_self (placed_flags own f) notOk
              · simp only [Store.setTable, Function.update_of_ne self]
                exact own
          dsimp only
          rcases rep₂.finish_store placed with ⟨content, finished, rep₃⟩ | ⟨overflow, may⟩
          · rw [finished]
            exact .inl ⟨rfl, rep₃⟩
          · rw [overflow]
            exact .inr ⟨rfl, may, rep₂⟩
        | _ => exact ⟨⟨_, rfl, rfl⟩, rep₂⟩
      | function f => exact ⟨rfl, rep₂⟩
      | table id' =>
        obtain ⟨hres', S₃, code', fast⟩ := rep.fastset id' k val
        have rest := fun notOk => ih code' notOk
        rw [next (fun nil => by cases nil)]
        dsimp only
        rw [code', rep.fastset_eq code']
        cases hres' with
        | ok => exact .inl ⟨rfl, fast.stored rfl⟩
        | _ => exact rest (fun ok => by cases ok)
      | _ =>
        rw [next (fun nil => by cases nil)]
        exact ih rfl (fun ok => by cases ok)

/- Where the heap has a write end, from its fast path on. -/
def assignment (insertkey : Heap → TableId → Value → Bool) (h : Heap) (t key : Value) :
    Heap.Assignment :=
  match h.fastset insertkey t key with
  | some id => .store id
  | none => h.finishset insertkey key Heap.MAXTAGLOOP t

/- The set for strings does what the general one does with a string. -/
theorem luaVFastsetstr_eq (t : Value) (k : List UInt8) (val : Value) (S : Store) :
    Store.luaVFastsetstr g t k val S = Store.luaVFastset g t (.string k) val S := by
  cases t <;> rfl

/-- A write of a field ends as on the heap, or with a table overflow in place of the store. -/
theorem Represents.auxsetstr (rep : Represents g S h) (t : Value) (k : List UInt8) (val : Value) :
    Refines g h k val (S.auxsetstr g t k val) (assignment (fastTakes g S val) h t (.string k)) := by
  unfold Store.auxsetstr assignment
  rw [luaVFastsetstr_eq]
  cases t with
  | table id =>
    obtain ⟨hres, S', code, fast⟩ := rep.fastset id k val
    have rest := fun other => rep.finishset k val Heap.MAXTAGLOOP code other
    rw [code, rep.fastset_eq code]
    cases hres with
    | ok => exact .inl ⟨rfl, fast.stored rfl⟩
    | _ => exact rest nofun
  | _ => exact rep.finishset k val Heap.MAXTAGLOOP rfl nofun

/-- An operation on the tables of a state. -/
inductive Op where
  | newtable (id : TableId)
  | setmetatable (obj : Value) (mt : Option TableId)
  | rawget (id : TableId) (key : Value)
  | rawset (id : TableId) (key val : Value)
  | rawlen (id : TableId) (seed : Nat)
  | getfield (t : Value) (k : List UInt8)
  | setfield (t : Value) (k : List UInt8) (val : Value)

def Op.run (g : Global) : Op → Store → (Read ⊕ Written) × Store
  | .newtable id, S => (.inr .done, S.setTable id luaHNew)
  | .setmetatable obj mt, S => (.inr .done, S.setmetatable obj mt)
  | .rawget id key, S => (.inl (.value ((S.table id).luaHGet g.hashes key)), S)
  | .rawset id key val, S =>
    match S.auxRawset g id key val with
    | (w, S) => (.inr w, S)
  | .rawlen id seed, S =>
    match (S.table id).luaHGetn seed with
    | (n, t) => (.inl (.value (.integer (Int64.ofNat n))), S.setTable id t)
  | .getfield t k, S =>
    match S.auxgetstr g t k with
    | (r, S) => (.inl r, S)
  | .setfield t k val, S =>
    match S.auxsetstr g t k val with
    | (w, S) => (.inr w, S)

def setMetatable (h : Heap) (obj : Value) (mt : Option TableId) : Heap :=
  match obj with
  | .table id => { h with table := Function.update h.table id { h.table id with metatable := mt } }
  | .userdata u => { h with userdataMetatable := Function.update h.userdataMetatable u mt }
  | v => { h with typeMetatable := Function.update h.typeMetatable (LuaType.ofValue v) mt }

/-- The same operations on a heap, with their ends. A key that is nil or NaN is refused, a length
   is some border, and every set may find room without a rehash or not. -/
inductive Op.Spec (h : Heap) : Op → Read ⊕ Written → Heap → Prop
  | newtable (id : TableId) :
    Spec h (.newtable id) (.inr .done)
      { h with table := Function.update h.table id ⟨fun _ => .nil, none⟩ }
  | setmetatable (obj : Value) (mt : Option TableId) :
    Spec h (.setmetatable obj mt) (.inr .done) (setMetatable h obj mt)
  | rawget (id : TableId) (key : Value) :
    Spec h (.rawget id key) (.inl (.value (h.rawget id (normal key)))) h
  | rawset {id : TableId} {key : Value} (val : Value) :
    Storable (normal key) →
      Spec h (.rawset id key val) (.inr .done) (h.rawset id (normal key) val)
  | rawsetOverflow {id : TableId} {key : Value} (val : Value) :
    Storable (normal key) → MayOverflow h id (normal key) val →
      Spec h (.rawset id key val) (.inr (.fail (.runerror tableOverflow))) h
  | refused {id : TableId} {key : Value} (val : Value) :
    ¬ Storable (normal key) →
      Spec h (.rawset id key val) (.inr (.fail (.runerror
        (if key = .nil then "table index is nil" else "table index is NaN")))) h
  | rawlen {id : TableId} {n : Nat} (seed : Nat) :
    Border (fun i => h.rawget id (.integer (Int64.ofNat i))) n →
      Spec h (.rawlen id seed) (.inl (.value (.integer (Int64.ofNat n)))) h
  | getfield {t : Value} {k : List UInt8} {r : Read} :
    h.access t (.string k) = r.access h → Spec h (.getfield t k) (.inl r) h
  | store {t : Value} {k : List UInt8} {val : Value} {id : TableId}
      {insertkey : Heap → TableId → Value → Bool} :
    assignment insertkey h t (.string k) = .store id →
      Spec h (.setfield t k val) (.inr .done) (h.rawset id (.string k) val)
  | overflow {t : Value} {k : List UInt8} {val : Value} {id : TableId}
      {insertkey : Heap → TableId → Value → Bool} :
    assignment insertkey h t (.string k) = .store id → MayOverflow h id (.string k) val →
      Spec h (.setfield t k val) (.inr (.fail (.runerror tableOverflow))) h
  | call {t : Value} {k : List UInt8} {val tm object : Value}
      {insertkey : Heap → TableId → Value → Bool} :
    assignment insertkey h t (.string k) = .call tm object →
      Spec h (.setfield t k val) (.inr (.call tm object)) h
  | fail {t : Value} {k : List UInt8} {val : Value} {f : Fault}
      {insertkey : Heap → TableId → Value → Bool} :
    assignment insertkey h t (.string k) = .fail (f.error h) →
      Spec h (.setfield t k val) (.inr (.fail f)) h

theorem Represents.setmetatable (rep : Represents g S h) (obj : Value) (mt : Option TableId) :
    Represents g (S.setmetatable obj mt) (setMetatable h obj mt) := by
  cases obj with
  | table id =>
    have valid := rep.valid id
    refine rep.setTable ⟨valid.hash, valid.size, valid.apart⟩ (rep.hint id) (fun k => ?_) ?_
      (fun event set => ?_) (fun u apart => ?_) rfl rfl rfl
    · have same : ({ S.table id with metatable := mt } : Ltable.Table).luaHGet g.hashes k =
          h.rawget id (normal k) := rep.content id k
      simpa [setMetatable, Heap.rawget] using same
    · simp [setMetatable]
    · have absent := rep.flags id event set
      simpa [setMetatable, Heap.rawget] using absent
    · simp [setMetatable, apart]
  | userdata u =>
    exact ⟨rep.valid, rep.hint, rep.content, rep.metatable, rep.flags, rep.globals,
      by simp only [Store.setmetatable, setMetatable, rep.userdataMetatable], rep.typeMetatable⟩
  | _ =>
    exact ⟨rep.valid, rep.hint, rep.content, rep.metatable, rep.flags, rep.globals,
      rep.userdataMetatable, by simp only [Store.setmetatable, setMetatable, rep.typeMetatable]⟩

/-- A raw set is refused, overflows or is one of the heap. -/
theorem Represents.auxRawset (rep : Represents g S h) (id : TableId) (key val : Value) :
    ∃ h', Op.Spec h (.rawset id key val) (.inr (S.auxRawset g id key val).1) h' ∧
      Represents g (S.auxRawset g id key val).2 h' := by
  unfold Store.auxRawset
  dsimp only
  generalize S.checknoTM (S.table id).metatable .newindex = noTM
  generalize g.barrier id key = barrier
  cases done : (S.table id).luaHSet g.hashes noTM barrier key val with
  | ok content =>
    obtain ⟨storable, sets⟩ := luaHSet_sets noTM barrier (rep.valid id) done
    obtain ⟨hint, metatable⟩ := luaHSet_hint noTM barrier (rep.hint id) done
    exact ⟨_, .rawset val storable,
      rep.rawset sets.invalidate storable hint metatable (.inr rfl)⟩
  | error e =>
    by_cases storable : Storable (normal key)
    · obtain ⟨rfl, overflows⟩ :=
        (luaHSet_error noTM barrier (rep.valid id) done).resolve_left fun not => not storable
      exact ⟨h, .rawsetOverflow val storable (rep.overflows storable overflows), rep⟩
    · rw [luaHSet_unstorable noTM barrier storable] at done
      cases done
      exact ⟨h, .refused val storable, rep⟩

theorem Represents.rawlen (rep : Represents g S h) (id : TableId) (seed : Nat) :
    Border (fun i => h.rawget id (.integer (Int64.ofNat i))) ((S.table id).luaHGetn seed).1 ∧
      Represents g (S.setTable id ((S.table id).luaHGetn seed).2) h := by
  obtain ⟨border, hint', same, inside⟩ := luaHGetn_border seed (rep.valid id) (rep.hint id)
  have reads : (S.table id).geti = fun i => h.rawget id (.integer (Int64.ofNat i)) :=
    funext fun i => rep.content id (.integer (Int64.ofNat i))
  have valid := rep.valid id
  rw [reads] at border
  rw [same]
  exact ⟨border, rep.setTable ⟨valid.hash, valid.size, valid.apart⟩ inside (rep.content id)
    (rep.metatable id) (rep.flags id) (fun _ _ => rfl) rfl rfl rfl⟩

theorem Represents.run (rep : Represents g S h) (op : Op) :
    ∃ h', Op.Spec h op (op.run g S).1 h' ∧ Represents g (op.run g S).2 h' := by
  cases op with
  | newtable id =>
    refine ⟨_, .newtable id, rep.setTable (valid_new g.hashes) (Nat.le_refl 0) (fun k => ?_)
      ?_ (fun event _ => ?_) (fun u apart => ?_) rfl rfl rfl⟩
    · rw [luaHGet_new]
      simp [Heap.rawget]
    · simp [luaHNew]
    · simp [Heap.rawget]
    · simp [apart]
  | setmetatable obj mt => exact ⟨_, .setmetatable obj mt, rep.setmetatable obj mt⟩
  | rawget id key =>
    refine ⟨h, ?_, rep⟩
    rw [Op.run, rep.content]
    exact .rawget id key
  | rawset id key val => exact rep.auxRawset id key val
  | rawlen id seed =>
    obtain ⟨border, rep'⟩ := rep.rawlen id seed
    exact ⟨h, .rawlen seed border, rep'⟩
  | getfield t k =>
    obtain ⟨same, rep'⟩ := rep.auxgetstr t k
    exact ⟨h, .getfield same, rep'⟩
  | setfield t k val =>
    have refines := rep.auxsetstr t k val
    have ends (w : Written) (end' : (S.auxsetstr g t k val).1 = w) :
        ((Op.setfield t k val).run g S).1 = .inr w := congrArg Sum.inr end'
    cases heap : assignment (fastTakes g S val) h t (.string k) with
    | store id =>
      rw [heap] at refines
      rcases refines with ⟨done, rep'⟩ | ⟨failed, may, rep'⟩
      · rw [ends _ done]
        exact ⟨_, .store heap, rep'⟩
      · rw [ends _ failed]
        exact ⟨_, .overflow heap may, rep'⟩
    | call tm object =>
      rw [heap] at refines
      rw [ends _ refines.1]
      exact ⟨_, .call heap, refines.2⟩
    | fail e =>
      rw [heap] at refines
      obtain ⟨⟨f, failed, rfl⟩, rep'⟩ := refines
      rw [ends _ failed]
      exact ⟨_, .fail heap, rep'⟩

/- A run of operations, with their ends. -/
def runAll (g : Global) : List Op → Store → List (Read ⊕ Written) × Store
  | [], S => ([], S)
  | op :: ops, S =>
    let first := op.run g S
    let rest := runAll g ops first.2
    (first.1 :: rest.1, rest.2)

inductive SpecAll : Heap → List Op → List (Read ⊕ Written) → Heap → Prop
  | nil (h : Heap) : SpecAll h [] [] h
  | cons {h h₁ h₂ : Heap} {op : Op} {ops : List Op} {end' : Read ⊕ Written}
      {ends : List (Read ⊕ Written)} :
    op.Spec h end' h₁ → SpecAll h₁ ops ends h₂ → SpecAll h (op :: ops) (end' :: ends) h₂

theorem Represents.runAll (rep : Represents g S h) (ops : List Op) :
    ∃ h', SpecAll h ops (runAll g ops S).1 h' ∧ Represents g (Lvm.runAll g ops S).2 h' := by
  induction ops generalizing S h with
  | nil => exact ⟨h, .nil h, rep⟩
  | cons op ops ih =>
    obtain ⟨h₁, spec, rep₁⟩ := rep.run op
    obtain ⟨h₂, specs, rep₂⟩ := ih rep₁
    exact ⟨h₂, .cons spec specs, rep₂⟩

/- A state whose tables are all new. -/
def Store.new : Store where
  table := fun _ => luaHNew
  globals := 0
  userdataMetatable := fun _ => none
  typeMetatable := fun _ => none

def emptyHeap : Heap where
  table := fun _ => ⟨fun _ => .nil, none⟩
  globals := 0
  userdataMetatable := fun _ => none
  typeMetatable := fun _ => none

/-- Every run of table operations is a run on the heap: the ends are the same, and afterwards the
   tables hold what the heap holds. -/
theorem tables_refine_heap (g : Global) (ops : List Op) :
    ∃ h, SpecAll emptyHeap ops (runAll g ops Store.new).1 h ∧
      ∀ id k,
        ((runAll g ops Store.new).2.table id).luaHGet g.hashes k = h.rawget id (normal k) := by
  have start : Represents g Store.new emptyHeap :=
    ⟨fun _ => valid_new g.hashes, fun _ => Nat.le_refl 0, fun _ k => luaHGet_new g.hashes k,
      fun _ => rfl, fun _ _ _ => rfl, rfl, rfl, rfl⟩
  obtain ⟨h, specs, rep⟩ := start.runAll ops
  exact ⟨h, specs, rep.content⟩

/- All strings hash alike. -/
def collidingState : Global := ⟨colliding, fun _ _ => false⟩

/- Table 1 gets the metatable 2, whose __index is table 3. Its first fields make rehashes, and so
   does the array part that it gets; later a handler takes new fields. -/
def storedOps : List Op :=
  [.newtable 1, .newtable 2, .newtable 3,
    .setfield (.table 3) [120] (.integer 7),
    .setfield (.table 2) (Utf8.encode "__index".toList) (.table 3),
    .setmetatable (.table 1) (some 2),
    .setfield (.table 1) [97] (.integer 1), .setfield (.table 1) [98] (.boolean true),
    .setfield (.table 1) [99] (.string [99]), .setfield (.table 1) [98] .nil,
    .rawset 1 (.integer 1) (.integer 10), .rawset 1 (.integer 2) (.integer 20),
    .rawset 1 (.integer 3) (.integer 30), .rawlen 1 5, .rawset 1 .nil (.integer 0),
    .getfield (.table 1) [120], .getfield (.table 1) [98], .getfield .nil [120],
    .setfield (.table 2) (Utf8.encode "__newindex".toList) (.function (.closure 9)),
    .setfield (.table 1) [98] (.integer 2), .setfield (.table 1) [97] (.integer 5),
    .getfield (.table 1) [97], .rawget 1 (.integer 3)]

def storedEnds : List (Read ⊕ Written) :=
  [.inr .done, .inr .done, .inr .done, .inr .done, .inr .done, .inr .done, .inr .done, .inr .done,
    .inr .done, .inr .done, .inr .done, .inr .done, .inr .done, .inl (.value (.integer 3)),
    .inr (.fail (.runerror "table index is nil")), .inl (.value (.integer 7)),
    .inl (.value .nil), .inl (.fail (.typeerror .nil "index")), .inr .done,
    .inr (.call (.function (.closure 9)) (.table 1)), .inr .done, .inl (.value (.integer 5)),
    .inl (.value (.integer 30))]

theorem stored_run_refines_heap : (∃ h, SpecAll emptyHeap storedOps storedEnds h ∧
      h.rawget 1 (.string [97]) = .integer 5 ∧ h.rawget 1 (.integer 2) = .integer 20) ∧
    ((runAll collidingState storedOps Store.new).2.table 1).asize = 4 := by
  have ends : (runAll collidingState storedOps Store.new).1 = storedEnds := by decide +kernel
  obtain ⟨h, specs, content⟩ := tables_refine_heap collidingState storedOps
  have name := content 1 (.string [97])
  have entry := content 1 (.integer 2)
  have reads : ((runAll collidingState storedOps Store.new).2.table 1).luaHGet colliding
      (.string [97]) = .integer 5 ∧
      ((runAll collidingState storedOps Store.new).2.table 1).luaHGet colliding
        (.integer 2) = .integer 20 := by decide +kernel
  refine ⟨⟨h, ends ▸ specs, ?_, ?_⟩, by decide +kernel⟩
  · exact name.symm.trans reads.1
  · exact entry.symm.trans reads.2

end Luava.Lvm
