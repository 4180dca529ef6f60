import Luava.ChunkLoaders

/-
Round trip of precompiled chunks. What luaU_dump writes loads as the same prototype, however the
stream is cut into blocks, and no proper front of it loads.
-/
namespace Luava.Lundump

open Lstring Readers

def Named (ts : Option TString) : Prop := ∀ s, ts = some s → s.length < MAX_SIZE

/- What the C types hold of a prototype. -/
structure Proto.Sizes (f : Proto) : Prop where
  linedefined : f.linedefined ≤ INT_MAX
  lastlinedefined : f.lastlinedefined ≤ INT_MAX
  code : f.code.length ≤ INT_MAX
  k : f.k.length ≤ INT_MAX
  p : f.p.length ≤ INT_MAX
  upvalues : f.upvalues.length ≤ INT_MAX
  lineinfo : f.lineinfo.length ≤ INT_MAX
  abslineinfo : f.abslineinfo.length ≤ INT_MAX
  locvars : f.locvars.length ≤ INT_MAX
  constants : ∀ s, .str s ∈ f.k → s.length < MAX_SIZE
  names : ∀ u ∈ f.upvalues, Named u.name
  scopes : ∀ v ∈ f.locvars, Named v.varname ∧ v.startpc ≤ INT_MAX ∧ v.endpc ≤ INT_MAX
  source : Named f.source

/-- A prototype that exists in memory, with the ones inside it. -/
inductive Proto.Fits : Proto → Prop
  | intro {f : Proto} (sizes : f.Sizes) (inner : ∀ g ∈ f.p, g.Fits) : f.Fits

mutual

def Proto.depth : Proto → Nat
  | ⟨_, _, _, _, _, _, _, p, _, _, _, _, _⟩ => depths p + 1

def depths : List Proto → Nat
  | [] => 0
  | f :: rest => max f.depth (depths rest)

end

mutual

/-- What is left of a prototype behind a dump. -/
def Proto.loaded (strip fixed : Bool) : Proto → Proto
  | ⟨numparams, flag, maxstacksize, linedefined, lastlinedefined, k, code, p, upvalues, lineinfo,
      abslineinfo, locvars, source⟩ =>
    { numparams := numparams
      flag := flag &&& ~~~PF_FIXED ||| if fixed then PF_FIXED else 0
      maxstacksize := maxstacksize
      linedefined := linedefined
      lastlinedefined := lastlinedefined
      k := k
      code := code
      p := loadeds strip fixed p
      upvalues := if strip then upvalues.map fun u => { u with name := none } else upvalues
      lineinfo := if strip then [] else lineinfo
      abslineinfo := if strip then [] else abslineinfo
      locvars := if strip then [] else locvars
      source := if strip then none else source }

def loadeds (strip fixed : Bool) : List Proto → List Proto
  | [] => []
  | f :: rest => f.loaded strip fixed :: loadeds strip fixed rest

end

theorem loadeds_eq_map (strip fixed : Bool) (p : List Proto) :
    loadeds strip fixed p = p.map (Proto.loaded strip fixed) := by
  induction p with
  | nil => rfl
  | cons f rest ih => rw [loadeds, ih, List.map_cons]

theorem dumpProtos_eq_foldl (p : List Proto) (D : DumpState) :
    DumpState.dumpProtos p D = p.foldl (fun D f => DumpState.dumpFunction f D) D := by
  induction p generalizing D with
  | nil => rfl
  | cons f rest ih => rw [DumpState.dumpProtos, ih, List.foldl_cons]

theorem depth_le {f : Proto} {p : List Proto} (member : f ∈ p) : f.depth ≤ depths p := by
  induction p with
  | nil => cases member
  | cons g rest ih =>
    rw [depths]
    rcases List.mem_cons.mp member with rfl | later
    · exact Nat.le_max_left _ _
    · exact (ih later).trans (Nat.le_max_right _ _)

variable {need : List UInt8 → Prop} {E : Setting} {D : DumpState}

theorem inverse_code (f : Proto) (few : f.code.length ≤ INT_MAX) :
    Inverse E (fun rest => rest ≠ []) 0 D (D.dumpCode f) loadCode f.code := by
  unfold DumpState.dumpCode loadCode
  refine (inverse_int D few).next ?_
  refine (inverse_align _ 4).next ?_
  have length := length_flatMap_words 4 f.code (fun i => leBytes 4 i.toNat)
    fun i => length_leBytes 4 i.toNat
  have words := words_flatMap 4 UInt32.toNat f.code (fun i => leBytes 4 i.toNat)
    (fun i => length_leBytes 4 i.toNat) fun i => ofLeBytes_leBytes 4 _ i.toNat_lt
  have vector := inverse_vector_of (E := E) ((D.dumpInt f.code.length).dumpAlign 4)
    (f.code.flatMap fun i => leBytes 4 i.toNat)
  rw [length] at vector
  have mapped := vector.map fun b => (Lundump.words 4 f.code.length b).map UInt32.ofNat
  have back : (f.code.map UInt32.toNat).map UInt32.ofNat = f.code := by
    rw [List.map_map]
    exact List.map_id'' (fun i => UInt32.ofNat_toNat) f.code
  rw [words, back] at mapped
  exact mapped.weaken (fun rest more empty => more (List.append_eq_nil_iff.mp empty).2)
    (Nat.zero_le _)

theorem inverse_constant (D : DumpState) (o : Constant)
    (fits : ∀ s, o = .str s → s.length < MAX_SIZE) :
    Inverse E Any 0 D (D.dumpConstant o) loadConstant o := by
  unfold DumpState.dumpConstant loadConstant
  refine (inverse_byte D o.ttypetag).next ?_
  cases o with
  | nil => exact Inverse.pure Any _ Constant.nil
  | boolean b =>
    cases b with
    | false => exact Inverse.pure Any _ (Constant.boolean false)
    | true => exact Inverse.pure Any _ (Constant.boolean true)
  | flt n => exact (inverse_number _ n).map Constant.flt
  | int i => exact (inverse_integer _ i).map Constant.int
  | str s =>
    have named : Named (some s) := by
      intro s' same
      cases same
      exact fits s rfl
    have string := inverse_string (E := E) (D.dumpByte (Constant.str s).ttypetag) (some s) named
    have tag : (Constant.str s).ttypetag = LUA_VSHRSTR ∨
        (Constant.str s).ttypetag = LUA_VLNGSTR := by
      unfold Constant.ttypetag
      dsimp only
      split_ifs
      · exact .inl rfl
      · exact .inr rfl
    generalize (Constant.str s).ttypetag = t at string tag ⊢
    rcases tag with rfl | rfl
    · refine string.next ?_
      exact Inverse.pure Any _ (Constant.str s)
    · refine string.next ?_
      exact Inverse.pure Any _ (Constant.str s)

theorem inverse_constants (f : Proto) (few : f.k.length ≤ INT_MAX)
    (fits : ∀ s, .str s ∈ f.k → s.length < MAX_SIZE) :
    Inverse E Any 1 D (D.dumpConstants f) loadConstants f.k := by
  have each (o : Constant) (member : o ∈ f.k) (D : DumpState) :
      Inverse E Any 0 D (D.dumpConstant o) loadConstant (id o) :=
    inverse_constant D o fun s same => fits s (same ▸ member)
  have array := Inverse.array D f.k few each
  rwa [List.map_id] at array

theorem inverse_upvalues (f : Proto) (few : f.upvalues.length ≤ INT_MAX) :
    Inverse E Any 1 D (D.dumpUpvalues f) loadUpvalues
      (f.upvalues.map fun u => { u with name := none }) := by
  refine Inverse.array D f.upvalues few fun u _ D => ?_
  unfold DumpState.dumpUpvalue loadUpvalue
  refine (inverse_byte D u.instack).next ?_
  refine (inverse_byte _ u.idx).next ?_
  refine (inverse_byte _ u.kind).next ?_
  exact Inverse.pure _ _ _

theorem few_kept {α : Type} (strip : Bool) {xs : List α} (few : xs.length ≤ INT_MAX) :
    (if strip then [] else xs).length ≤ INT_MAX := by
  split_ifs
  · exact Nat.zero_le _
  · exact few

theorem inverse_lineinfo (f : Proto) (few : f.lineinfo.length ≤ INT_MAX) :
    Inverse E (fun rest => rest ≠ []) 0 D (D.dumpLineinfo f) loadLineinfo
      (if E.strip then [] else f.lineinfo) := by
  refine Inverse.of_strip fun same => ?_
  have few' := few_kept E.strip few
  have none (empty : f.lineinfo = []) : (if E.strip = true then [] else f.lineinfo) = [] := by
    rw [empty, ite_self]
  unfold DumpState.dumpLineinfo loadLineinfo
  rw [same]
  dsimp only
  generalize (if E.strip = true then [] else f.lineinfo) = lineinfo at few' none ⊢
  refine (inverse_int D few').next ?_
  split_ifs with pointer
  · exact (inverse_vector_of _ lineinfo).weaken
      (fun rest more empty => more (List.append_eq_nil_iff.mp empty).2) (Nat.zero_le _)
  · rw [none (not_not.mp fun some => pointer (.inl some))]
    exact inverse_vector_nil _

theorem ofLeBytes_append (a b : List UInt8) :
    ofLeBytes (a ++ b) = ofLeBytes a + 256 ^ a.length * ofLeBytes b := by
  induction a with
  | nil => rw [List.nil_append, ofLeBytes, List.length_nil, Nat.pow_zero, Nat.one_mul, Nat.zero_add]
  | cons c a ih =>
    rw [List.cons_append, ofLeBytes, ih, ofLeBytes, List.length_cons, Nat.pow_succ, Nat.mul_add,
      Nat.mul_comm (256 ^ _) 256, Nat.mul_assoc, Nat.add_assoc]

/- The two ints of an entry. -/
def pair (i : AbsLineInfo) : Nat := i.pc.toNat + 2 ^ 32 * i.line.toNat

theorem unpair_pair (i : AbsLineInfo) : unpair (pair i) = i := by
  have low : pair i % 2 ^ 32 = i.pc.toNat := by
    have := i.pc.toNat_lt
    unfold pair
    omega
  have high : pair i / 2 ^ 32 = i.line.toNat := by
    have := i.pc.toNat_lt
    unfold pair
    omega
  have pc : UInt32.ofNat (pair i) = i.pc := by
    apply UInt32.toNat_inj.mp
    rw [UInt32.toNat_ofNat']
    exact low
  rw [unpair, pc, high, UInt32.ofNat_toNat]

theorem inverse_abslineinfo (f : Proto) (few : f.abslineinfo.length ≤ INT_MAX) :
    Inverse E Any 1 D (D.dumpAbslineinfo f) loadAbslineinfo
      (if E.strip then [] else f.abslineinfo) := by
  refine Inverse.of_strip fun same => ?_
  have few' := few_kept E.strip few
  unfold DumpState.dumpAbslineinfo loadAbslineinfo
  rw [same]
  dsimp only
  generalize (if E.strip = true then [] else f.abslineinfo) = abslineinfo at few' ⊢
  refine (inverse_int D few').first ?_
  by_cases some : 0 < abslineinfo.length
  · rw [if_pos some, if_pos some]
    refine (inverse_align _ 4).next ?_
    have width (i : AbsLineInfo) :
        (leBytes 4 i.pc.toNat ++ leBytes 4 i.line.toNat).length = 8 := by
      rw [List.length_append, length_leBytes, length_leBytes]
    have value (i : AbsLineInfo) :
        ofLeBytes (leBytes 4 i.pc.toNat ++ leBytes 4 i.line.toNat) = pair i := by
      rw [ofLeBytes_append, ofLeBytes_leBytes 4 _ i.pc.toNat_lt,
        ofLeBytes_leBytes 4 _ i.line.toNat_lt, length_leBytes]
      rfl
    have length := length_flatMap_words 8 abslineinfo _ width
    have words := words_flatMap 8 pair abslineinfo _ width value
    have full : (abslineinfo.flatMap fun i =>
        leBytes 4 i.pc.toNat ++ leBytes 4 i.line.toNat) ≠ [] := by
      apply List.ne_nil_of_length_pos
      omega
    have vector := inverse_vector (E := E) (DumpState.dumpAlign 4 (D.dumpInt abslineinfo.length))
      full
    rw [length] at vector
    have mapped := vector.map fun b => (Lundump.words 8 abslineinfo.length b).map unpair
    have back : (abslineinfo.map pair).map unpair = abslineinfo := by
      rw [List.map_map]
      exact List.map_id'' unpair_pair abslineinfo
    rw [words, back] at mapped
    exact mapped.weaken (fun _ => id) (Nat.zero_le _)
  · rw [if_neg some, if_neg some]
    have none : abslineinfo = [] := List.length_eq_zero_iff.mp (by omega)
    rw [none]
    exact Inverse.pure Any _ []

theorem inverse_locvars (f : Proto) (few : f.locvars.length ≤ INT_MAX)
    (scopes : ∀ v ∈ f.locvars, Named v.varname ∧ v.startpc ≤ INT_MAX ∧ v.endpc ≤ INT_MAX) :
    Inverse E Any 1 D (D.dumpLocvars f) loadLocvars (if E.strip then [] else f.locvars) := by
  refine Inverse.of_strip fun same => ?_
  have few' := few_kept E.strip few
  have inside (v : LocVar) (member : v ∈ if E.strip = true then [] else f.locvars) :
      v ∈ f.locvars := by
    split_ifs at member
    · cases member
    · exact member
  unfold DumpState.dumpLocvars loadLocvars
  rw [same]
  dsimp only
  generalize (if E.strip = true then [] else f.locvars) = locvars at few' inside ⊢
  have each (v : LocVar) (member : v ∈ locvars) (D : DumpState) :
      Inverse E Any 0 D (D.dumpLocVar v) loadLocVar (id v) := by
    obtain ⟨varname, startpc, endpc⟩ := scopes v (inside v member)
    unfold DumpState.dumpLocVar loadLocVar
    refine (inverse_string D v.varname varname).next ?_
    refine (inverse_int _ startpc).next ?_
    refine (inverse_int _ endpc).next ?_
    exact Inverse.pure _ _ v
  have array := Inverse.array D locvars few' each
  rwa [List.map_id] at array

/- The names go back into the upvalues. -/
theorem inverse_upvalueNames (f : Proto) (few : f.upvalues.length ≤ INT_MAX)
    (names : ∀ u ∈ f.upvalues, Named u.name) :
    Inverse E Any 1 D (D.dumpUpvalueNames f)
      (loadUpvalueNames (f.upvalues.map fun u => { u with name := none }))
      (if E.strip then f.upvalues.map fun u => { u with name := none } else f.upvalues) := by
  refine Inverse.of_strip fun same => ?_
  unfold DumpState.dumpUpvalueNames loadUpvalueNames
  rw [same]
  cases E.strip with
  | true =>
    dsimp only
    rw [if_pos rfl, if_pos rfl]
    have length : Inverse E Any 1 D (D.dumpInt 0) loadInt 0 := inverse_int D (Nat.zero_le _)
    refine length.first ?_
    exact Inverse.pure _ _ _
  | false =>
    dsimp only
    rw [if_neg Bool.false_ne_true, if_neg Bool.false_ne_true]
    have each (u : Upvaldesc) (member : u ∈ f.upvalues) (D : DumpState) :
        Inverse E Any 0 D (D.dumpString u.name) loadString u.name :=
      (inverse_string D u.name (names u member)).weaken (fun _ => id) (Nat.zero_le _)
    have strings := Inverse.times f.upvalues each (D.dumpInt f.upvalues.length)
    refine (inverse_int D few).first ?_
    by_cases some : f.upvalues.length ≠ 0
    · rw [if_pos some, List.length_map]
      have mapped := strings.map fun names => List.zipWith
        (fun name (u : Upvaldesc) => { u with name := name }) names
        (f.upvalues.map fun u => { u with name := none })
      have back : List.zipWith (fun name (u : Upvaldesc) => { u with name := name })
          (f.upvalues.map fun u => u.name) (f.upvalues.map fun u => { u with name := none }) =
            f.upvalues := by
        rw [List.zipWith_map, List.zipWith_self]
        exact List.map_id'' (fun u => rfl) f.upvalues
      rw [back] at mapped
      simp only [if_pos some]
      exact mapped
    · have none : f.upvalues = [] := List.length_eq_zero_iff.mp (not_not.mp some)
      rw [none]
      exact Inverse.pure _ _ []

theorem inverse_flag (D : DumpState) (flag : UInt8) :
    Inverse E Any 1 D (D.dumpByte flag) loadFlag
      (flag &&& ~~~PF_FIXED ||| if E.fixed then PF_FIXED else 0) := by
  suffices block : Inverse E Any [flag].length D (D.dumpBlock [flag]) loadFlag _ from block
  refine Inverse.block fun _ T matched => ?_
  have byte := takes_loadByte T flag
  have lent (S : LoadState) (before : At T S) : S.fixed = E.fixed := by
    rw [before]
    exact matched.fixed
  constructor
  · intro S rest before stream
    unfold loadFlag
    rw [lent S before]
    refine (byte.whole S rest before stream).imp ?_ ?_
    · rintro ⟨S', made, after⟩
      exact ⟨S', by rw [made]; rfl, after⟩
    · rintro ⟨lacking, e, failed, short⟩
      exact ⟨lacking, e, by rw [failed]; rfl, short⟩
  · intro S front back before split more stream
    obtain ⟨e, failed, short⟩ := byte.cut S front back before split more stream
    exact ⟨e, by unfold loadFlag; rw [failed]; rfl, short⟩

/- A function takes at least one byte for every level of nesting. -/
theorem dumpProtos_reaches {depth : Nat} (p : List Proto)
    (each : ∀ f ∈ p, ∀ D : DumpState, Inverse E (fun _ => f.depth ≤ depth) f.depth D
      (DumpState.dumpFunction f D) (loadFunction depth) (f.loaded E.strip E.fixed))
    (D : DumpState) (same : D.strip = E.strip) (done : (DumpState.dumpProtos p D).status = 0) :
    D.status = 0 ∧ D.offset + depths p ≤ (DumpState.dumpProtos p D).offset := by
  induction p generalizing D with
  | nil => exact ⟨done, le_rfl⟩
  | cons f rest ih =>
    have first := each f List.mem_cons_self D
    rw [DumpState.dumpProtos] at done ⊢
    obtain ⟨between, far⟩ := ih (fun g later => each g (List.mem_cons_of_mem f later))
      (DumpState.dumpFunction f D) (first.strip same) done
    obtain ⟨before, near⟩ := first.reaches same between
    rw [depths]
    exact ⟨before, by omega⟩

theorem inverse_protos {depth : Nat} (p : List Proto) (few : p.length ≤ INT_MAX)
    (each : ∀ f ∈ p, ∀ D : DumpState, Inverse E (fun _ => f.depth ≤ depth) f.depth D
      (DumpState.dumpFunction f D) (loadFunction depth) (f.loaded E.strip E.fixed)) :
    Inverse E (fun _ => depths p ≤ depth) (depths p) D
      (DumpState.dumpProtos p (D.dumpInt p.length)) (loadArray (loadFunction depth))
      (loadeds E.strip E.fixed p) := by
  have enough (f : Proto) (member : f ∈ p) (D : DumpState) :
      Inverse E (fun _ => depths p ≤ depth) 0 D (DumpState.dumpFunction f D)
        (loadFunction depth) (f.loaded E.strip E.fixed) :=
    (each f member D).weaken (fun _ => (depth_le member).trans) (Nat.zero_le _)
  have array := Inverse.array D p few enough
  rw [← dumpProtos_eq_foldl, ← loadeds_eq_map] at array
  refine array.resize fun same done => ?_
  have length : Inverse E Any 1 D (D.dumpInt p.length) loadInt p.length := inverse_int D few
  obtain ⟨between, far⟩ :=
    dumpProtos_reaches p each (D.dumpInt p.length) (length.strip same) done
  have := (length.reaches same between).2
  omega

/- The parts of a function behind the ones inside it. -/
theorem inverse_rest {f : Proto} (sizes : f.Sizes) {α : Type} (make : Option TString →
      List UInt8 → List AbsLineInfo → List LocVar → List Upvaldesc → α) :
    Inverse E Any 0 D
      ((D.dumpString (if D.strip then none else f.source)).dumpDebug f)
      (do
        let source ← loadString
        let lineinfo ← loadLineinfo
        let abslineinfo ← loadAbslineinfo
        let locvars ← loadLocvars
        let upvalues ← loadUpvalueNames (f.upvalues.map fun u => { u with name := none })
        return make source lineinfo abslineinfo locvars upvalues)
      (make (if E.strip then none else f.source) (if E.strip then [] else f.lineinfo)
        (if E.strip then [] else f.abslineinfo) (if E.strip then [] else f.locvars)
        (if E.strip then f.upvalues.map fun u => { u with name := none } else f.upvalues)) := by
  refine Inverse.of_strip fun same => ?_
  rw [same]
  have named : Named (if E.strip then none else f.source) := by
    split_ifs
    · intro s some
      cases some
    · exact sizes.source
  unfold DumpState.dumpDebug
  refine (inverse_string D _ named).next ?_
  refine Inverse.weaken ?_ (fun _ => id) (Nat.zero_le (0 + 1))
  refine (inverse_lineinfo f sizes.lineinfo).before ?_
  refine (inverse_abslineinfo f sizes.abslineinfo).count ?_
  refine (inverse_locvars f sizes.locvars sizes.scopes).next ?_
  refine Inverse.weaken ?_ (fun _ => id) (Nat.zero_le 1)
  exact (inverse_upvalueNames f sizes.upvalues sizes.names).map fun upvalues =>
    make _ _ _ _ upvalues

/-- A prototype is read back, when the depth is enough for it. -/
theorem inverse_function {f : Proto} (fits : f.Fits) (depth : Nat) (D : DumpState) :
    Inverse E (fun _ => f.depth ≤ depth) f.depth D (DumpState.dumpFunction f D)
      (loadFunction depth) (f.loaded E.strip E.fixed) := by
  induction fits generalizing depth D with
  | @intro f sizes inner ih =>
    have step (depth : Nat) : Inverse E (fun _ => f.depth ≤ depth + 1) f.depth D
        (DumpState.dumpFunction f D) (loadFunction (depth + 1)) (f.loaded E.strip E.fixed) := by
      have rest (D : DumpState) {α : Type} (make : _ → _ → _ → _ → _ → α) :=
        inverse_rest (D := D) (E := E) sizes make
      have protos (D : DumpState) := inverse_protos (D := D) f.p sizes.p
        fun g member D => ih g member depth D
      have code (D : DumpState) := inverse_code (D := D) (E := E) f sizes.code
      have constants (D : DumpState) :=
        inverse_constants (D := D) (E := E) f sizes.k sizes.constants
      have upvalues (D : DumpState) := inverse_upvalues (D := D) (E := E) f sizes.upvalues
      obtain ⟨numparams, flag, maxstacksize, linedefined, lastlinedefined, k, code, p, upvalues,
        lineinfo, abslineinfo, locvars, source⟩ := f
      rw [DumpState.dumpFunction, loadFunction, Proto.loaded, Proto.depth]
      dsimp only at *
      refine (inverse_int D sizes.linedefined).next ?_
      refine (inverse_int _ sizes.lastlinedefined).next ?_
      refine (inverse_byte _ numparams).next ?_
      refine (inverse_flag _ flag).next ?_
      refine (inverse_byte _ maxstacksize).next ?_
      refine (code _).before ?_
      refine (constants _).count ?_
      refine (upvalues _).next ?_
      have deep (rest : List UInt8) (enough : depths p + 1 ≤ depth + 1) : depths p ≤ depth :=
        Nat.le_of_succ_le_succ enough
      refine ((protos _).weaken deep le_rfl).inner ?_ fun _ _ => id
      exact rest _ _
    cases depth with
    | succ depth => exact step depth
    | zero =>
      rw [loadFunction]
      refine (step 0).ended _ fun _ => ?_
      obtain ⟨_, _, _, _, _, _, _, _, _, _, _, _, _⟩ := f
      rw [Proto.depth]
      omega

/-- The input is as deep as it is long at most. -/
theorem inverse_main {f : Proto} (fits : f.Fits) (D : DumpState) :
    Inverse E Any 0 D (DumpState.dumpFunction f D) loadMain (f.loaded E.strip E.fixed) := by
  have function (depth : Nat) := inverse_function (E := E) fits depth D
  refine ⟨(function 0).strip, fun same done => ?_⟩
  obtain ⟨before, bytes, written, offset, long, _⟩ := (function 0).reads same done
  refine ⟨before, bytes, written, offset, Nat.zero_le _, fun small => ?_⟩
  have reads (depth : Nat) : Reads Stream (Truncated E.name) (fun _ => f.depth ≤ depth)
      (Matched E D) (loadFunction depth) bytes (f.loaded E.strip E.fixed)
      (Matched E (DumpState.dumpFunction f D)) := by
    obtain ⟨_, bytes', written', _, _, reads⟩ := (function depth).reads same done
    rw [List.append_cancel_left (written.symm.trans written')]
    exact reads small
  constructor
  · intro S rest matched stream
    refine ((reads (S.Z.contents.length + 1)).whole S rest matched stream).imp_right ?_
    rintro ⟨few, _⟩
    rw [stream.contents, List.length_append] at few
    omega
  · intro S
    exact (reads (S.Z.contents.length + 1)).cut S

theorem takes_checkliteral (T : LoadState) (s msg : List UInt8) :
    Takes Any T (checkliteral s msg) s () := by
  refine (takes_loadBlock T s).ends ?_
  rw [if_neg (fun differs => differs rfl)]
  exact Takes.pure _ _ ()

theorem inverse_numInfo (D : DumpState) (size value : Nat) (eq : Nat → Bool)
    (tname : List UInt8) (fits : value < 256 ^ size) (same : eq value = true) :
    Inverse E Any 0 D (D.dumpNumInfo size value) (checknum size eq tname) () := by
  unfold DumpState.dumpNumInfo checknum
  refine (inverse_byte D (UInt8.ofNat size)).next ?_
  rw [if_neg (fun differs => differs rfl)]
  have block (T : LoadState) := takes_loadBlock T (leBytes size value)
  rw [length_leBytes] at block
  refine Inverse.weaken (.block fun _ T _ => (block T).ends ?_) (fun _ => id) (Nat.zero_le _)
  rw [ofLeBytes_leBytes size value fits, same, if_neg (fun differs => by cases differs)]
  exact Takes.pure _ _ ()

/- The header behind the signature. -/
def formatted (D : DumpState) : DumpState :=
  D |>.dumpByte LUAC_VERSION
    |>.dumpByte LUAC_FORMAT
    |>.dumpBlock LUAC_DATA
    |>.dumpNumInfo 4 LUAC_INT32
    |>.dumpNumInfo 4 LUAC_INST
    |>.dumpNumInfo 8 LUAC_INT64
    |>.dumpNumInfo 8 LUAC_NUM.bits.toNat

theorem inverse_format (D : DumpState) : Inverse E Any 0 D (formatted D) checkFormat () := by
  unfold formatted checkFormat
  refine (inverse_byte D LUAC_VERSION).next ?_
  rw [if_neg (fun differs => differs rfl)]
  refine (inverse_byte _ LUAC_FORMAT).next ?_
  rw [if_neg (fun differs => differs rfl)]
  refine Inverse.next (.block fun _ T _ => takes_checkliteral T LUAC_DATA _) ?_
  have int (D : DumpState) := inverse_numInfo (E := E) D 4 LUAC_INT32 (· == LUAC_INT32)
    (text "int") (by decide) (by decide)
  have instruction (D : DumpState) := inverse_numInfo (E := E) D 4 LUAC_INST (· == LUAC_INST)
    (text "instruction") (by decide) (by decide)
  have integer (D : DumpState) := inverse_numInfo (E := E) D 8 LUAC_INT64 (· == LUAC_INT64)
    (text "Lua integer") (by decide) (by decide)
  have number (D : DumpState) := inverse_numInfo (E := E) D 8 LUAC_NUM.bits.toNat
    (fun i => Binary64.eq ⟨UInt64.ofNat i⟩ LUAC_NUM) (text "Lua number") (by decide) (by decide)
  refine (int _).next ?_
  refine (instruction _).next ?_
  refine (integer _).next ?_
  exact number _

theorem upvalues_loaded (f : Proto) (strip fixed : Bool) :
    (f.loaded strip fixed).upvalues.length = f.upvalues.length := by
  obtain ⟨_, _, _, _, _, _, _, _, upvalues, _, _, _, _⟩ := f
  rw [Proto.loaded]
  dsimp only
  split_ifs
  · exact List.length_map _
  · rfl

/- The chunk behind its header. -/
def bodied (f : Proto) (D : DumpState) : DumpState :=
  DumpState.dumpBlock []
    (DumpState.dumpFunction f (D.dumpByte (UInt8.ofNat f.upvalues.length)))

theorem inverse_body {f : Proto} (fits : f.Fits) (few : f.upvalues.length ≤ 255)
    (D : DumpState) : Inverse E Any 0 D (bodied f D)
      (do
        let nupvalues ← loadByte
        let p ← loadMain
        if nupvalues.toNat ≠ p.upvalues.length then error (text "corrupted chunk")
        else return LClosure.mk nupvalues.toNat p)
      (LClosure.mk f.upvalues.length (f.loaded E.strip E.fixed)) := by
  have byte : (UInt8.ofNat f.upvalues.length).toNat = f.upvalues.length := by
    rw [UInt8.toNat_ofNat']
    omega
  refine (inverse_byte D (UInt8.ofNat f.upvalues.length)).next ?_
  refine (inverse_main fits _).next ?_
  rw [byte, upvalues_loaded, if_neg (fun differs => differs rfl)]
  have ended := Inverse.block (D := DumpState.dumpFunction f
    (D.dumpByte (UInt8.ofNat f.upvalues.length))) (E := E) fun _ T _ =>
      Takes.pure Any T (LClosure.mk f.upvalues.length (f.loaded E.strip E.fixed))
  exact ended

/- The load behind the first byte takes the rest of the dump. -/
theorem loadChunk_reads {f : Proto} (fits : f.Fits) (few : f.upvalues.length ≤ 255)
    (writer : List (List UInt8) → List UInt8 → Int) (E : Setting)
    (done : (luaUDump f writer E.strip).status = 0)
    (small : (luaUDump f writer E.strip).offset < 2 ^ 64) :
    ∃ bytes, (luaUDump f writer E.strip).written.flatten = 0x1B :: bytes ∧
      ∀ Z, Reads Stream (Truncated E.name) Any (At ⟨Z, E.name, fun _ => none, 1, 0, E.fixed⟩)
        loadChunk bytes (LClosure.mk f.upvalues.length (f.loaded E.strip E.fixed))
        (Matched E (luaUDump f writer E.strip)) := by
  let D : DumpState :=
    { writer := writer, written := [LUA_SIGNATURE], offset := 4, strip := E.strip
      status := writer [] LUA_SIGNATURE, h := fun _ => none, nstr := 0 }
  have dumped : luaUDump f writer E.strip = bodied f (formatted D) := rfl
  rw [dumped] at done small ⊢
  have format := inverse_format (E := E) D
  have body := inverse_body (E := E) fits few (formatted D)
  have strip : (formatted D).strip = E.strip := format.strip rfl
  obtain ⟨between, rest, written, offset, _, reads⟩ := body.reads strip done
  obtain ⟨_, numbers, written', _, _, reads'⟩ := format.reads rfl between
  refine ⟨LUA_SIGNATURE.tail ++ numbers ++ rest, ?_, fun Z => ?_⟩
  · rw [written, written']
    rfl
  · have near : (formatted D).offset < 2 ^ 64 := by omega
    have literal : Reads Stream (Truncated E.name) Any
        (At ⟨Z, E.name, fun _ => none, 1, 0, E.fixed⟩)
        (checkliteral LUA_SIGNATURE.tail (text "not a binary chunk")) LUA_SIGNATURE.tail () _ :=
      takes_checkliteral ⟨Z, E.name, fun _ => none, 1, 0, E.fixed⟩ _ _
    have matched (S : LoadState) (before : At (LoadState.advance
        ⟨Z, E.name, fun _ => none, 1, 0, E.fixed⟩ LUA_SIGNATURE.tail.length) S) :
        Matched E D S := by
      rw [before]
      exact ⟨rfl, rfl, rfl, rfl, Nat.zero_le _, fun s i found => by cases found⟩
    have header : Reads Stream (Truncated E.name) Any
        (At ⟨Z, E.name, fun _ => none, 1, 0, E.fixed⟩) checkHeader
        (LUA_SIGNATURE.tail ++ numbers) () (Matched E (formatted D)) :=
      literal.bind_of ((reads' near).starting matched) fun _ _ => trivial
    exact header.bind_of (reads small) fun _ _ => trivial

/- The mode of a load allows binary chunks. -/
def binary (mode : Option (List UInt8)) : Prop :=
  66 ∈ mode.getD (text "bt") ∨ 98 ∈ mode.getD (text "bt")

/- A fixed buffer stays, and is one block. -/
def lent (mode : Option (List UInt8)) : Bool := (mode.getD (text "bt")).contains 66

theorem fParser_binary (luaYParser : Zio → Option UInt8 → Except (List UInt8) (LClosure × Zio))
    {mode : Option (List UInt8)} (name : List UInt8) (allowed : binary mode) {z z' : Zio}
    (first : z.zgetc = some (0x1B, z')) :
    fParser luaYParser mode name z = luaUUndump z' name (lent mode) := by
  have entered : fParser luaYParser mode name z =
      if (mode.getD (text "bt")).contains 66 then luaUUndump z' name true
      else checkmode (mode.getD (text "bt")) (text "binary") >>= fun _ =>
        luaUUndump z' name false := by
    unfold fParser
    simp only [first]
  rw [entered, lent]
  cases fixed : (mode.getD (text "bt")).contains 66 with
  | true => rw [if_pos rfl]
  | false =>
    have binary : 98 ∈ mode.getD (text "bt") := by
      refine allowed.resolve_left fun member => ?_
      rw [List.contains_iff_mem.mpr member] at fixed
      cases fixed
    have passes : checkmode (mode.getD (text "bt")) (text "binary") = .ok () :=
      if_pos (List.contains_iff_mem.mpr binary)
    rw [if_neg Bool.false_ne_true, passes]
    rfl

/-- A finished dump loads as the prototype, whatever the blocks of the stream and whatever follows
    it; a proper front of it does not load. -/
theorem luaUDump_loads {f : Proto} (fits : f.Fits) (few : f.upvalues.length ≤ 255)
    (writer : List (List UInt8) → List UInt8 → Int) (strip : Bool)
    (done : (luaUDump f writer strip).status = 0)
    (small : (luaUDump f writer strip).offset < 2 ^ 64)
    (luaYParser : Zio → Option UInt8 → Except (List UInt8) (LClosure × Zio))
    {mode : Option (List UInt8)} (allowed : binary mode) (name : List UInt8)
    (blocks : List (List UInt8)) (whole : lent mode = true → blocks.length ≤ 1) :
    (∀ rest, Zio.given blocks = (luaUDump f writer strip).written.flatten ++ rest →
      ∃ z, fParser luaYParser mode name ⟨[], blocks⟩ =
        .ok (⟨f.upvalues.length, f.loaded strip (lent mode)⟩, z) ∧ z.contents = rest) ∧
    ∀ front back, front ++ back = (luaUDump f writer strip).written.flatten → front ≠ [] →
      back ≠ [] → Zio.given blocks = front →
        ∃ e, fParser luaYParser mode name ⟨[], blocks⟩ = .error e ∧
          Truncated (chunkName name) e := by
  obtain ⟨bytes, written, reads⟩ :=
    loadChunk_reads fits few writer ⟨chunkName name, lent mode, strip⟩ done small
  have opened {contents : List UInt8} (given : Zio.given blocks = 0x1B :: contents) :
      ∃ Z, fParser luaYParser mode name ⟨[], blocks⟩ = luaUUndump Z name (lent mode) ∧
        Stream ⟨Z, chunkName name, fun _ => none, 1, 0, lent mode⟩ contents := by
    cases blocks with
    | nil => cases given
    | cons block blocks =>
      cases block with
      | nil => cases given
      | cons b buffer =>
        obtain ⟨rfl, rfl⟩ := List.cons.inj given
        refine ⟨⟨buffer, blocks⟩, fParser_binary luaYParser name allowed rfl, rfl, fun fixed => ?_⟩
        exact List.length_eq_zero_iff.mp (Nat.le_zero.mp (Nat.le_of_succ_le_succ (whole fixed)))
  dsimp only at written
  rw [written]
  constructor
  · intro rest given
    obtain ⟨Z, parsed, stream⟩ := opened given
    rcases (reads Z).whole ⟨Z, chunkName name, fun _ => none, 1, 0, lent mode⟩ rest rfl stream with
      ⟨S, made, _, stream'⟩ | ⟨lacking, _⟩
    · refine ⟨S.Z, ?_, stream'.contents⟩
      rw [parsed, luaUUndump, made]
      rfl
    · exact absurd trivial lacking
  · intro front back split some more given
    cases front with
    | nil => exact absurd rfl some
    | cons b front =>
      obtain ⟨rfl, split'⟩ := List.cons.inj split
      obtain ⟨Z, parsed, stream⟩ := opened given
      obtain ⟨e, failed, short⟩ := (reads Z).cut
        ⟨Z, chunkName name, fun _ => none, 1, 0, lent mode⟩ front back rfl split' more stream
      refine ⟨e, ?_, short⟩
      rw [parsed, luaUUndump, failed]
      rfl

/- A function that counts up its upvalue, and the chunk around it. -/
def counter : Proto :=
  { numparams := 0, flag := 0, maxstacksize := 2, linedefined := 2, lastlinedefined := 5
    k := [.str (text "n")], code := [0x8000000B, 0x0002000B, 0x01000047], p := []
    upvalues := [⟨some (text "n"), 1, 0, 0⟩], lineinfo := [1, 1, 1], abslineinfo := [⟨2, 4⟩]
    locvars := [⟨some (text "k"), 0, 3⟩], source := none }

def counting : Proto :=
  { numparams := 0, flag := 1, maxstacksize := 2, linedefined := 0, lastlinedefined := 0
    k := [.nil, .boolean true, .int (-7), .flt LUAC_NUM, .str (text "n")], code := [0x80000051]
    p := [counter], upvalues := [⟨some (text "_ENV"), 1, 0, 0⟩], lineinfo := [0]
    abslineinfo := [], locvars := [], source := some (text "@n") }

theorem counting_fits : counting.Fits := by
  have named {s t : TString} (same : some t = some s) (small : t.length < MAX_SIZE) :
      s.length < MAX_SIZE := by
    cases same
    exact small
  refine .intro ⟨by decide, by decide, by decide, by decide, by decide, by decide, by decide,
    by decide, by decide, ?_, ?_, ?_, fun s same => named same (by decide)⟩ ?_
  · intro s member
    simp [counting] at member
    subst member
    decide
  · intro u member s same
    simp [counting] at member
    subst member
    exact named same (by decide)
  · intro v member
    cases member
  · intro g member
    simp [counting] at member
    subst member
    refine .intro ⟨by decide, by decide, by decide, by decide, by decide, by decide, by decide,
      by decide, by decide, ?_, ?_, ?_, fun s same => by cases same⟩ ?_
    · intro s member
      simp [counter] at member
      subst member
      decide
    · intro u member s same
      simp [counter] at member
      subst member
      exact named same (by decide)
    · intro v member
      simp [counter] at member
      subst member
      exact ⟨fun s same => named same (by decide), by decide, by decide⟩
    · intro g member
      cases member

theorem counting_loads : ∃ z, fParser (fun _ _ => .error []) (some [66]) (text "@n")
      ⟨[], [(luaUDump counting (fun _ _ => 0) false).written.flatten ++ [7]]⟩ =
        .ok (⟨1, counting.loaded false true⟩, z) ∧ z.contents = [7] :=
  (luaUDump_loads counting_fits (by decide) (fun _ _ => 0) false (by decide +kernel)
    (by decide +kernel) (fun _ _ => .error []) (show binary (some [66]) from .inl (by decide))
    (text "@n")
    [(luaUDump counting (fun _ _ => 0) false).written.flatten ++ [7]] (fun _ => le_rfl)).1 [7]
    (by decide +kernel)
end Luava.Lundump
