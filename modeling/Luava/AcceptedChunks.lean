import Luava.ChunkRoundTrip

/-
What luaU_undump accepts. The prototype of a chunk that loads is one that can be dumped, and the
dump of it loads as that prototype.
-/
namespace Luava.Lundump

open Lstring Readers

/- What holds at every point of a load. -/
structure Loading (fixed : Bool) (S : LoadState) : Prop where
  fixed : S.fixed = fixed
  saved : ∀ i s, S.h i = some s → s.length < MAX_SIZE

/-- The flag of a fixed buffer is on a prototype, and on those inside it, when it stays there. -/
inductive Proto.Flagged (fixed : Bool) : Proto → Prop
  | intro {f : Proto} (flag : f.flag &&& PF_FIXED = if fixed then PF_FIXED else 0)
      (inner : ∀ g ∈ f.p, g.Flagged fixed) : f.Flagged fixed

theorem flag_kept (flag : UInt8) : flag &&& ~~~PF_FIXED ||| flag &&& PF_FIXED = flag := by
  have all : ∀ b : BitVec 8, UInt8.ofBitVec b &&& ~~~PF_FIXED ||| UInt8.ofBitVec b &&& PF_FIXED =
      UInt8.ofBitVec b := by decide
  exact all flag.toBitVec

theorem flag_set (flag : UInt8) (fixed : Bool) :
    (flag &&& ~~~PF_FIXED ||| if fixed then PF_FIXED else 0) &&& PF_FIXED =
      if fixed then PF_FIXED else 0 := by
  have all : ∀ (b : BitVec 8) (fixed : Bool),
      (UInt8.ofBitVec b &&& ~~~PF_FIXED ||| if fixed then PF_FIXED else 0) &&& PF_FIXED =
        if fixed then PF_FIXED else 0 := by decide
  exact all flag.toBitVec fixed

theorem Proto.Flagged.loaded {f : Proto} {fixed : Bool} (flagged : f.Flagged fixed) :
    f.loaded false fixed = f := by
  induction flagged with
  | @intro f flag inner ih =>
    obtain ⟨numparams, flags, maxstacksize, linedefined, lastlinedefined, k, code, p, upvalues,
      lineinfo, abslineinfo, locvars, source⟩ := f
    dsimp only at flag ih
    have same : p.map (Proto.loaded false fixed) = p :=
      (List.map_congr_left ih).trans (List.map_id p)
    rw [Proto.loaded, loadeds_eq_map, same, ← flag, flag_kept]
    rfl

section Loaders

variable {fixed : Bool} {α : Type}

theorem yields_error {why : List UInt8} {P : α → Prop} :
    Yields (Loading fixed) (error why) P := by
  intro S a S' _ made
  cases made

/- What only moves on in the stream. -/
theorem Loading.moved {S : LoadState} (loading : Loading fixed S) (Z : Zio) (offset : Nat) :
    Loading fixed { S with Z := Z, offset := offset } := ⟨loading.fixed, loading.saved⟩

theorem yields_loadByte : Yields (Loading fixed) loadByte fun _ => True := by
  intro S b S' before made
  unfold loadByte at made
  cases read : S.Z.zgetc with
  | none =>
    simp only [read] at made
    cases made
  | some result =>
    simp only [read] at made
    cases made
    exact ⟨trivial, before.moved _ _⟩

theorem yields_loadBlock (size : Nat) :
    Yields (Loading fixed) (loadBlock size) fun b => b.length = size := by
  intro S b S' before made
  obtain ⟨Z, read, _⟩ := Zio.luaZReadLoop_spec (z := S.Z) size size le_rfl
  unfold loadBlock Zio.luaZRead at made
  rw [read] at made
  dsimp only at made
  split_ifs at made with missing
  · cases made
  · cases made
    have length : (S.Z.contents.take size).length = size := by
      rw [List.length_take]
      omega
    exact ⟨length, before.moved _ _⟩

theorem yields_loadAlign (align : Nat) :
    Yields (Loading fixed) (loadAlign align) fun _ => True := by
  intro S u S' before made
  unfold loadAlign at made
  dsimp only at made
  split_ifs at made
  · generalize align - S.offset % align = padding at made
    cases read : loadBlock padding S with
    | error e =>
      rw [read] at made
      cases made
    | ok result =>
      rw [read] at made
      cases made
      exact ⟨trivial, (yields_loadBlock padding S result.1 result.2 before read).2⟩
  · cases made
    exact ⟨trivial, before⟩

theorem yields_getaddr (size : Nat) :
    Yields (Loading fixed) (getaddr size) fun b => b.length = size := by
  intro S b S' before made
  unfold getaddr Zio.luaZGetaddr at made
  cases checked : S.Z.checkbuffer with
  | none =>
    simp only [checked] at made
    cases made
  | some z =>
    simp only [checked] at made
    split_ifs at made with few
    · cases made
    · cases made
      have length : (z.buffer.take size).length = size := by
        rw [List.length_take]
        omega
      exact ⟨length, before.moved _ _⟩

theorem yields_loadVector (size : Nat) :
    Yields (Loading fixed) (loadVector size) fun b => b.length = size := by
  intro S b S' before made
  unfold loadVector at made
  split_ifs at made
  · exact yields_getaddr size S b S' before made
  · exact yields_loadBlock size S b S' before made

/- The check of the limit comes before the last seven bits. -/
theorem yields_loadVarintLoop {limit : Nat} (full : limit % 128 = 127) (turns x : Nat) :
    Yields (Loading fixed) (loadVarintLoop (limit >>> 7) turns x) (· ≤ limit) := by
  induction turns generalizing x with
  | zero => exact yields_error
  | succ turns ih =>
    rw [loadVarintLoop]
    refine yields_loadByte.bind fun b _ => ?_
    by_cases overflow : limit >>> 7 < x
    · rw [if_pos overflow]
      exact yields_error
    · rw [if_neg overflow]
      dsimp only
      split_ifs
      · exact ih _
      · have digit : (b &&& 0x7F).toNat < 2 ^ 7 := by
          have low : (b &&& 0x7F).toNat = b.toNat % 2 ^ 7 :=
            Nat.and_two_pow_sub_one_eq_mod b.toNat 7
          rw [low]
          exact Nat.mod_lt _ (by decide)
        refine Yields.pure ?_
        rw [← Nat.shiftLeft_add_eq_or_of_lt digit, Nat.shiftLeft_eq]
        rw [Nat.shiftRight_eq_div_pow] at overflow
        omega

theorem yields_loadVarint {limit : Nat} (full : limit % 128 = 127) :
    Yields (Loading fixed) (loadVarint limit) (· ≤ limit) :=
  fun S => yields_loadVarintLoop full (S.Z.contents.length + 1) 0 S

theorem yields_loadInt : Yields (Loading fixed) loadInt (· ≤ INT_MAX) :=
  yields_loadVarint (by decide)

theorem yields_savedString (idx : Nat) :
    Yields (Loading fixed) (savedString idx) fun s => s.length < MAX_SIZE := by
  intro S s S' before made
  unfold savedString at made
  cases found : S.h idx with
  | none =>
    simp only [found] at made
    cases made
  | some ts =>
    simp only [found] at made
    cases made
    exact ⟨before.saved idx s found, before⟩

theorem named_some {s : TString} (small : s.length < MAX_SIZE) : Named (some s) := by
  intro s' same
  cases same
  exact small

theorem yields_saveString {s : TString} (small : s.length < MAX_SIZE) :
    Yields (Loading fixed) (saveString s) Named := by
  intro S ts S' before made
  cases made
  refine ⟨named_some small, before.fixed, fun i s' found => ?_⟩
  dsimp only at found
  by_cases same : i = S.nstr + 1
  · rw [same, Function.update_self] at found
    cases found
    exact small
  · rw [Function.update_of_ne same] at found
    exact before.saved i s' found

theorem yields_loadString : Yields (Loading fixed) loadString Named := by
  unfold loadString
  refine (yields_loadVarint (by decide)).bind fun size within => ?_
  by_cases zero : size = 0
  · rw [if_pos zero]
    refine (yields_loadVarint (by decide)).bind fun idx _ => ?_
    split_ifs
    · exact Yields.pure fun s same => by cases same
    · exact (yields_savedString idx).bind fun s small => Yields.pure (named_some small)
  · rw [if_neg zero]
    have save (b : List UInt8) (length : b.length = size) :
        Yields (Loading fixed) (saveString (b.take (size - 1))) Named := by
      apply yields_saveString
      rw [List.length_take]
      omega
    dsimp only
    split_ifs
    · exact (yields_loadBlock size).bind save
    · exact (yields_loadVector size).bind save

theorem yields_loadArray {load : Load α} {P : α → Prop} (yields : Yields (Loading fixed) load P) :
    Yields (Loading fixed) (loadArray load) fun xs => xs.length ≤ INT_MAX ∧ ∀ x ∈ xs, P x := by
  refine yields_loadInt.bind fun n few => ?_
  refine (yields.times n).weaken ?_
  rintro xs ⟨rfl, all⟩
  exact ⟨few, all⟩

theorem length_words (w n : Nat) (bytes : List UInt8) : (words w n bytes).length = n := by
  induction n generalizing bytes with
  | zero => rfl
  | succ n ih => rw [words, List.length_cons, ih]

theorem yields_loadCode : Yields (Loading fixed) loadCode fun code => code.length ≤ INT_MAX := by
  refine yields_loadInt.bind fun n few => (yields_loadAlign 4).bind fun _ _ => ?_
  refine (yields_loadVector _).bind fun b _ => Yields.pure ?_
  rw [List.length_map, length_words]
  exact few

theorem yields_loadConstants : Yields (Loading fixed) loadConstants fun k =>
    k.length ≤ INT_MAX ∧ ∀ s, .str s ∈ k → s.length < MAX_SIZE := by
  have constant : Yields (Loading fixed) loadConstant fun o =>
      ∀ s, o = .str s → s.length < MAX_SIZE := by
    refine yields_loadByte.bind fun t _ => ?_
    unfold loadConstantOf
    split_ifs
    · exact Yields.pure fun s same => by cases same
    · exact Yields.pure fun s same => by cases same
    · exact Yields.pure fun s same => by cases same
    · refine Yields.bind (P := fun _ => True) ?_ fun n _ => Yields.pure fun s same => by cases same
      exact (yields_loadBlock 8).bind fun b _ => Yields.pure trivial
    · refine Yields.bind (P := fun _ => True) ?_ fun i _ => Yields.pure fun s same => by cases same
      exact (yields_loadVarint (by decide)).bind fun cx _ => Yields.pure trivial
    · refine yields_loadString.bind fun ts named => ?_
      cases ts with
      | none => exact yields_error
      | some s =>
        refine Yields.pure fun s' same => ?_
        cases same
        exact named s rfl
    · exact yields_error
  refine (yields_loadArray constant).weaken ?_
  rintro k ⟨few, all⟩
  exact ⟨few, fun s member => all _ member s rfl⟩

theorem yields_loadUpvalues : Yields (Loading fixed) loadUpvalues fun upvalues =>
    upvalues.length ≤ INT_MAX ∧ ∀ u ∈ upvalues, u.name = none := by
  refine yields_loadArray (yields_loadByte.bind fun instack _ => ?_)
  refine yields_loadByte.bind fun idx _ => yields_loadByte.bind fun kind _ => ?_
  exact Yields.pure rfl

theorem yields_loadLineinfo :
    Yields (Loading fixed) loadLineinfo fun lineinfo => lineinfo.length ≤ INT_MAX := by
  refine yields_loadInt.bind fun n few => (yields_loadVector n).weaken ?_
  rintro b rfl
  exact few

theorem yields_loadAbslineinfo : Yields (Loading fixed) loadAbslineinfo fun abslineinfo =>
    abslineinfo.length ≤ INT_MAX := by
  refine yields_loadInt.bind fun n few => ?_
  split_ifs
  · refine (yields_loadAlign 4).bind fun _ _ => (yields_loadVector _).bind fun b _ => ?_
    refine Yields.pure ?_
    rw [List.length_map, length_words]
    exact few
  · exact Yields.pure (Nat.zero_le _)

theorem yields_loadLocvars : Yields (Loading fixed) loadLocvars fun locvars =>
    locvars.length ≤ INT_MAX ∧
      ∀ v ∈ locvars, Named v.varname ∧ v.startpc ≤ INT_MAX ∧ v.endpc ≤ INT_MAX := by
  refine yields_loadArray (yields_loadString.bind fun varname named => ?_)
  refine yields_loadInt.bind fun startpc start => yields_loadInt.bind fun endpc last => ?_
  exact Yields.pure ⟨named, start, last⟩

theorem names_zipWith {names : List (Option TString)} {upvalues : List Upvaldesc}
    (named : ∀ name ∈ names, Named name) :
    ∀ u ∈ List.zipWith (fun name (u : Upvaldesc) => { u with name := name }) names upvalues,
      Named u.name := by
  induction names generalizing upvalues with
  | nil =>
    intro u member
    cases member
  | cons name names ih =>
    cases upvalues with
    | nil =>
      intro u member
      cases member
    | cons v upvalues =>
      obtain ⟨first, rest⟩ := List.forall_mem_cons.mp named
      rw [List.zipWith_cons_cons]
      exact List.forall_mem_cons.mpr ⟨first, ih rest⟩

theorem yields_loadUpvalueNames {upvalues : List Upvaldesc} (few : upvalues.length ≤ INT_MAX)
    (unnamed : ∀ u ∈ upvalues, u.name = none) :
    Yields (Loading fixed) (loadUpvalueNames upvalues) fun upvalues =>
      upvalues.length ≤ INT_MAX ∧ ∀ u ∈ upvalues, Named u.name := by
  refine yields_loadInt.bind fun n _ => ?_
  refine (yields_loadString.times _).bind fun names all => Yields.pure ?_
  split_ifs with some
  · refine ⟨?_, names_zipWith all.2⟩
    rw [List.length_zipWith]
    exact (Nat.min_le_right _ _).trans few
  · refine ⟨few, fun u member s same => ?_⟩
    rw [unnamed u member] at same
    cases same

theorem yields_loadFlag : Yields (Loading fixed) loadFlag fun flag =>
    flag &&& PF_FIXED = if fixed then PF_FIXED else 0 := by
  intro S flag S' before made
  unfold loadFlag at made
  cases read : loadByte S with
  | error e =>
    rw [read] at made
    cases made
  | ok result =>
    rw [read] at made
    cases made
    refine ⟨?_, (yields_loadByte S result.1 result.2 before read).2⟩
    rw [before.fixed]
    exact flag_set result.1 fixed

/-- A prototype that loads is one that can be dumped. -/
theorem yields_loadFunction (depth : Nat) :
    Yields (Loading fixed) (loadFunction depth) fun f => f.Fits ∧ f.Flagged fixed := by
  induction depth with
  | zero =>
    rw [loadFunction]
    exact yields_error
  | succ depth ih =>
    rw [loadFunction]
    refine yields_loadInt.bind fun linedefined first => ?_
    refine yields_loadInt.bind fun lastlinedefined last => ?_
    refine yields_loadByte.bind fun numparams _ => ?_
    refine yields_loadFlag.bind fun flag flagged => ?_
    refine yields_loadByte.bind fun maxstacksize _ => ?_
    refine yields_loadCode.bind fun code fewCode => ?_
    refine yields_loadConstants.bind fun k constants => ?_
    refine yields_loadUpvalues.bind fun upvalues unnamed => ?_
    refine (yields_loadArray ih).bind fun p protos => ?_
    refine yields_loadString.bind fun source named => ?_
    refine yields_loadLineinfo.bind fun lineinfo fewLines => ?_
    refine yields_loadAbslineinfo.bind fun abslineinfo fewAbs => ?_
    refine yields_loadLocvars.bind fun locvars scopes => ?_
    refine (yields_loadUpvalueNames unnamed.1 unnamed.2).bind fun upvalues names => ?_
    refine Yields.pure ⟨.intro ?_ fun g member => (protos.2 g member).1,
      .intro flagged fun g member => (protos.2 g member).2⟩
    exact ⟨first, last, fewCode, constants.1, protos.1, names.1, fewLines, fewAbs, scopes.1,
      constants.2, names.2, scopes.2, named⟩

theorem yields_checkliteral (s msg : List UInt8) :
    Yields (Loading fixed) (checkliteral s msg) fun _ => True := by
  refine (yields_loadBlock s.length).bind fun buff _ => ?_
  split_ifs
  · exact yields_error
  · exact Yields.pure trivial

theorem yields_checknum (size : Nat) (eq : Nat → Bool) (tname : List UInt8) :
    Yields (Loading fixed) (checknum size eq tname) fun _ => True := by
  refine yields_loadByte.bind fun b _ => ?_
  split_ifs
  · exact yields_error
  · refine (yields_loadBlock size).bind fun i _ => ?_
    split_ifs
    · exact yields_error
    · exact Yields.pure trivial

theorem yields_checkHeader : Yields (Loading fixed) checkHeader fun _ => True := by
  refine (yields_checkliteral _ _).bind fun _ _ => yields_loadByte.bind fun version _ => ?_
  split_ifs
  · exact yields_error
  refine yields_loadByte.bind fun format _ => ?_
  split_ifs
  · exact yields_error
  refine (yields_checkliteral _ _).bind fun _ _ => ?_
  refine (yields_checknum _ _ _).bind fun _ _ => (yields_checknum _ _ _).bind fun _ _ => ?_
  exact (yields_checknum _ _ _).bind fun _ _ => yields_checknum _ _ _

/- The upvalues are counted in one byte. -/
theorem yields_loadChunk : Yields (Loading fixed) loadChunk fun cl => cl.p.Fits ∧
    cl.p.Flagged fixed ∧ cl.nupvalues = cl.p.upvalues.length ∧ cl.nupvalues ≤ 255 := by
  refine yields_checkHeader.bind fun _ _ => yields_loadByte.bind fun nupvalues _ => ?_
  have main : Yields (Loading fixed) loadMain fun p => p.Fits ∧ p.Flagged fixed :=
    fun S => yields_loadFunction (S.Z.contents.length + 1) S
  refine main.bind fun p whole => ?_
  split_ifs with counted
  · exact yields_error
  · exact Yields.pure ⟨whole.1, whole.2, not_not.mp counted, Nat.le_of_lt_succ nupvalues.toNat_lt⟩

end Loaders

/-- What loads can be dumped again, and its dump loads as the same closure. -/
theorem luaUUndump_again {Z Z' : Zio} {name : List UInt8} {fixed : Bool} {cl : LClosure}
    (accepted : luaUUndump Z name fixed = .ok (cl, Z')) :
    cl.nupvalues = cl.p.upvalues.length ∧ cl.nupvalues ≤ 255 ∧ cl.p.Fits ∧
      ∀ writer, (luaUDump cl.p writer false).status = 0 →
        (luaUDump cl.p writer false).offset < 2 ^ 64 →
        ∀ luaYParser mode, binary mode → lent mode = fixed → ∀ name' blocks rest,
          (fixed = true → blocks.length ≤ 1) →
          Zio.given blocks = (luaUDump cl.p writer false).written.flatten ++ rest →
            ∃ z, fParser luaYParser mode name' ⟨[], blocks⟩ = .ok (cl, z) ∧ z.contents = rest := by
  have made : ∃ S, loadChunk ⟨Z, chunkName name, fun _ => none, 1, 0, fixed⟩ = .ok (cl, S) := by
    unfold luaUUndump at accepted
    cases loaded : loadChunk ⟨Z, chunkName name, fun _ => none, 1, 0, fixed⟩ with
    | error e =>
      rw [loaded] at accepted
      cases accepted
    | ok result =>
      rw [loaded] at accepted
      cases accepted
      exact ⟨result.2, rfl⟩
  obtain ⟨S, loaded⟩ := made
  obtain ⟨⟨fits, flagged, counted, few⟩, _⟩ :=
    yields_loadChunk _ cl S ⟨rfl, fun i s found => by cases found⟩ loaded
  refine ⟨counted, few, fits, ?_⟩
  rintro writer done small luaYParser mode allowed rfl name' blocks rest whole given
  have loads := luaUDump_loads fits (counted ▸ few) writer false done small luaYParser allowed
    name' blocks whole
  obtain ⟨z, parsed, contents⟩ := loads.1 rest given
  rw [flagged.loaded, ← counted] at parsed
  exact ⟨z, parsed, contents⟩

theorem counting_accepted : ∃ Z, luaUUndump
    ⟨(luaUDump counting (fun _ _ => 0) true).written.flatten.tail, []⟩ (text "=counting") true =
      .ok (⟨1, counting.loaded true true⟩, Z) := by
  let E : Setting := ⟨chunkName (text "=counting"), true, true⟩
  obtain ⟨bytes, written, reads⟩ := loadChunk_reads counting_fits (by decide) (fun _ _ => 0) E
    (by decide +kernel) (by decide +kernel)
  let S : LoadState := ⟨⟨bytes, []⟩, E.name, fun _ => none, 1, 0, E.fixed⟩
  rcases (reads S.Z).whole S [] rfl ⟨rfl, fun _ => rfl⟩ with ⟨S', made, _⟩ | ⟨lacking, _⟩
  · refine ⟨S'.Z, ?_⟩
    rw [show (luaUDump counting (fun _ _ => 0) true).written.flatten = _ from written]
    show (loadChunk S).map _ = _
    rw [made]
    rfl
  · exact absurd trivial lacking

/- A chunk in a fixed buffer that was stripped. -/
theorem counting_again : ∃ z, fParser (fun _ _ => .error []) (some [66]) (text "=again")
    ⟨[], [(luaUDump (counting.loaded true true) (fun _ _ => 0) false).written.flatten]⟩ =
      .ok (⟨1, counting.loaded true true⟩, z) ∧ z.contents = [] := by
  obtain ⟨Z, accepted⟩ := counting_accepted
  exact (luaUUndump_again accepted).2.2.2 (fun _ _ => 0) (by decide +kernel) (by decide +kernel)
    (fun _ _ => .error []) (some [66]) (.inl (by decide)) (by decide) (text "=again") _ []
    (fun _ => le_rfl) (by decide +kernel)

end Luava.Lundump
