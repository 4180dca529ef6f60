import Luava.Lundump

/-
The loaders of lundump.c against the dumpers of ldump.c: each one takes exactly what the other
wrote, through streams that are cut into any blocks, and fails on every proper front of it.
-/
namespace Luava.Lundump

open Lstring Readers

@[simp] theorem length_leBytes (w n : Nat) : (leBytes w n).length = w := by
  induction w generalizing n with
  | zero => rfl
  | succ w ih => rw [leBytes, List.length_cons, ih]

theorem ofLeBytes_leBytes (w n : Nat) (fits : n < 256 ^ w) : ofLeBytes (leBytes w n) = n := by
  induction w generalizing n with
  | zero => exact (Nat.lt_one_iff.mp fits).symm
  | succ w ih =>
    have rest : n / 256 < 256 ^ w := by
      rw [Nat.div_lt_iff_lt_mul (by decide), ← Nat.pow_succ]
      exact fits
    rw [leBytes, ofLeBytes, ih _ rest, UInt8.toNat_ofNat']
    omega

theorem words_flatMap {α : Type} (w : Nat) (image : α → Nat) (xs : List α)
    (bytes : α → List UInt8) (length : ∀ x, (bytes x).length = w)
    (value : ∀ x, ofLeBytes (bytes x) = image x) :
    words w xs.length (xs.flatMap bytes) = xs.map image := by
  induction xs with
  | nil => rfl
  | cons x xs ih =>
    rw [List.length_cons, words, List.flatMap_cons, List.take_left' (length x),
      List.drop_left' (length x), value, ih, List.map_cons]

theorem length_flatMap_words {α : Type} (w : Nat) (xs : List α) (bytes : α → List UInt8)
    (length : ∀ x, (bytes x).length = w) : (xs.flatMap bytes).length = xs.length * w := by
  induction xs with
  | nil => exact (Nat.zero_mul w).symm
  | cons x xs ih =>
    rw [List.flatMap_cons, List.length_append, length, ih, List.length_cons, Nat.succ_mul,
      Nat.add_comm]

namespace Zio

variable {z : Zio} {b : UInt8} {rest : List UInt8}

theorem contents_cons (buffer : List UInt8) (blocks : List (List UInt8)) :
    contents ⟨b :: buffer, blocks⟩ = b :: contents ⟨buffer, blocks⟩ := rfl

theorem luaZFill_some (filled : given z.blocks = b :: rest) :
    ∃ z', z.luaZFill = some (b, z') ∧ z'.contents = rest := by
  unfold luaZFill
  cases blocks : z.blocks with
  | nil =>
    rw [blocks] at filled
    cases filled
  | cons block blocks' =>
    rw [blocks] at filled
    cases block with
    | nil => cases filled
    | cons c buffer =>
      obtain ⟨rfl, rfl⟩ := List.cons.inj filled
      exact ⟨_, rfl, rfl⟩

theorem luaZFill_none (ended : given z.blocks = []) : z.luaZFill = none := by
  unfold luaZFill
  cases blocks : z.blocks with
  | nil => rfl
  | cons block blocks' =>
    rw [blocks] at ended
    cases block with
    | nil => rfl
    | cons c buffer => cases ended

theorem zgetc_some (more : z.contents = b :: rest) :
    ∃ z', z.zgetc = some (b, z') ∧ z'.contents = rest ∧ (z.blocks = [] → z'.blocks = []) := by
  unfold zgetc
  cases buffer : z.buffer with
  | nil =>
    rw [contents, buffer, List.nil_append] at more
    obtain ⟨z', filled, contents'⟩ := luaZFill_some more
    refine ⟨z', filled, contents', fun last => ?_⟩
    rw [last] at more
    cases more
  | cons c buffer' =>
    rw [contents, buffer] at more
    obtain ⟨rfl, rfl⟩ := List.cons.inj more
    exact ⟨_, rfl, rfl, id⟩

theorem zgetc_none (ended : z.contents = []) : z.zgetc = none := by
  obtain ⟨buffer, blocks⟩ := List.append_eq_nil_iff.mp ended
  unfold zgetc
  rw [buffer]
  exact luaZFill_none blocks

theorem checkbuffer_some (more : z.contents ≠ []) :
    ∃ z', z.checkbuffer = some z' ∧ z'.contents = z.contents ∧ 0 < z'.buffer.length ∧
      (z.blocks = [] → z' = z) := by
  unfold checkbuffer
  cases buffer : z.buffer with
  | nil =>
    cases filling : given z.blocks with
    | nil => exact absurd (by rw [contents, buffer, filling]; rfl) more
    | cons b rest =>
      obtain ⟨z', filled, contents'⟩ := luaZFill_some filling
      refine ⟨⟨b :: z'.buffer, z'.blocks⟩, by rw [filled]; rfl, ?_, Nat.succ_pos _, ?_⟩
      · rw [contents_cons, contents.eq_1 z, buffer, filling]
        exact congrArg (b :: ·) contents'
      · intro last
        rw [last] at filling
        cases filling
  | cons c buffer' =>
    refine ⟨z, rfl, rfl, ?_, fun _ => rfl⟩
    rw [buffer]
    exact Nat.succ_pos _

theorem checkbuffer_none (ended : z.contents = []) : z.checkbuffer = none := by
  obtain ⟨buffer, blocks⟩ := List.append_eq_nil_iff.mp ended
  unfold checkbuffer
  rw [buffer]
  dsimp only
  rw [luaZFill_none blocks, Option.map_none]

theorem contents_drop {m : Nat} (within : m ≤ z.buffer.length) :
    contents { z with buffer := z.buffer.drop m } = z.contents.drop m := by
  rw [contents, contents, List.drop_append_of_le_length within]

theorem take_contents {m : Nat} (within : m ≤ z.buffer.length) :
    z.contents.take m = z.buffer.take m := by
  rw [contents, List.take_append_of_le_length within]

/-- luaZ_read gives the next n bytes, or what there is when there are fewer. -/
theorem luaZReadLoop_spec (steps n : Nat) (enough : n ≤ steps) :
    ∃ z', luaZReadLoop steps n z = (n - z.contents.length, z.contents.take n, z') ∧
      z'.contents = z.contents.drop n ∧ (z.blocks = [] → z'.blocks = []) := by
  induction steps generalizing n z with
  | zero =>
    obtain rfl := Nat.le_zero.mp enough
    exact ⟨z, by rw [luaZReadLoop, Nat.zero_sub, List.take_zero], rfl, id⟩
  | succ steps ih =>
    rw [luaZReadLoop]
    by_cases zero : n = 0
    · subst zero
      exact ⟨z, by rw [if_pos rfl, Nat.zero_sub, List.take_zero], rfl, id⟩
    · rw [if_neg zero]
      by_cases ended : z.contents = []
      · rw [checkbuffer_none ended, ended]
        exact ⟨z, by rw [List.length_nil, List.take_nil, Nat.sub_zero],
          ended.trans List.drop_nil.symm, id⟩
      · obtain ⟨z₁, checked, same, full, last⟩ := checkbuffer_some ended
        rw [checked]
        dsimp only
        generalize chosen : (if n ≤ z₁.buffer.length then n else z₁.buffer.length) = m
        have within : m ≤ z₁.buffer.length ∧ m ≤ n ∧ 0 < m := by
          split_ifs at chosen <;> omega
        have inside : z₁.buffer.length ≤ z.contents.length := by
          rw [← same, contents, List.length_append]
          exact Nat.le_add_right _ _
        obtain ⟨z', read, contents', last'⟩ :=
          ih (z := { z₁ with buffer := z₁.buffer.drop m }) (n - m) (by omega)
        rw [contents_drop within.1, same] at read contents'
        rw [read]
        refine ⟨z', ?_, ?_, fun none => last' ?_⟩
        · have missing : n - m - (z.contents.drop m).length = n - z.contents.length := by
            rw [List.length_drop]
            omega
          have taken : z₁.buffer.take m ++ (z.contents.drop m).take (n - m) =
              z.contents.take n := by
            rw [← take_contents within.1, same, ← List.take_add]
            congr 1
            omega
          rw [missing, taken]
        · rw [contents', List.drop_drop]
          congr 1
          omega
        · rw [last none]
          exact none

theorem luaZGetaddr_some {front : List UInt8} (last : z.blocks = []) (more : front ++ rest ≠ [])
    (has : z.contents = front ++ rest) :
    ∃ z', z.luaZGetaddr front.length = some (front, z') ∧ z'.contents = rest ∧
      z'.blocks = [] := by
  have whole : z.buffer = front ++ rest := by
    rw [← has, contents, last]
    exact (List.append_nil _).symm
  obtain ⟨z₁, checked, _, _, same⟩ := checkbuffer_some (has ▸ more)
  rw [same last] at checked
  unfold luaZGetaddr
  rw [checked]
  dsimp only
  have enough : ¬ (front ++ rest).length < front.length := by
    rw [List.length_append]
    omega
  rw [whole, if_neg enough, List.take_left, List.drop_left]
  refine ⟨_, rfl, ?_, last⟩
  rw [contents, last]
  exact List.append_nil rest

theorem luaZGetaddr_none {n : Nat} (last : z.blocks = [])
    (few : z.contents.length < n ∨ z.contents = []) : z.luaZGetaddr n = none := by
  have whole : z.buffer = z.contents := by
    rw [contents, last]
    exact (List.append_nil _).symm
  unfold luaZGetaddr
  by_cases ended : z.contents = []
  · rw [checkbuffer_none ended]
  · obtain ⟨z₁, checked, _, _, same⟩ := checkbuffer_some ended
    rw [same last] at checked
    rw [checked]
    dsimp only
    rw [whole, if_pos (few.resolve_right ended)]

end Zio

/- The bytes to come. A fixed buffer is one block. -/
structure Stream (S : LoadState) (bytes : List UInt8) : Prop where
  contents : S.Z.contents = bytes
  last : S.fixed = true → S.Z.blocks = []

/- The errors of a stream that ends too early. -/
def Truncated (name e : List UInt8) : Prop :=
  e = errorMessage name truncatedChunk ∨ e = errorMessage name truncatedFixedBuffer

/- S is T but for the stream. -/
def At (T S : LoadState) : Prop := S = { T with Z := S.Z }

def LoadState.advance (T : LoadState) (n : Nat) : LoadState := { T with offset := T.offset + n }

/-- l takes the bytes and gives a, and changes nothing but the offset. -/
def Takes (need : List UInt8 → Prop) (T : LoadState) {α : Type} (l : Load α)
    (bytes : List UInt8) (a : α) : Prop :=
  Reads Stream (Truncated T.name) need (At T) l bytes a (At (T.advance bytes.length))

/- What needs nothing of the rest. -/
def Any : List UInt8 → Prop := fun _ => True

section Loaders

variable {α β : Type} {need need' : List UInt8 → Prop} {T : LoadState} {l : Load α}
  {f : α → Load β} {bytes bytes' : List UInt8} {a : α} {b : β}

theorem Takes.weaken (takes : Takes Any T l bytes a) (need : List UInt8 → Prop) :
    Takes need T l bytes a := Reads.weaken takes fun _ _ => trivial

theorem Takes.pure (need : List UInt8 → Prop) (T : LoadState) (a : α) :
    Takes need T (pure a : Load α) [] a := Reads.pure need (At T) a

theorem Takes.bind_of (first : Takes need' T l bytes a)
    (second : Takes need (T.advance bytes.length) (f a) bytes' b)
    (enough : ∀ rest, need rest → need' (bytes' ++ rest)) :
    Takes need T (l >>= f) (bytes ++ bytes') b := by
  have both := Reads.bind_of first second enough
  have sum : (T.advance bytes.length).advance bytes'.length =
      T.advance (bytes ++ bytes').length := by
    simp only [LoadState.advance, List.length_append, Nat.add_assoc]
  rw [sum] at both
  exact both

theorem Takes.bind (first : Takes Any T l bytes a)
    (second : Takes need (T.advance bytes.length) (f a) bytes' b) :
    Takes need T (l >>= f) (bytes ++ bytes') b :=
  first.bind_of second fun _ _ => trivial

/- A last step that reads nothing. -/
theorem Takes.ends (first : Takes Any T l bytes a)
    (second : Takes need (T.advance bytes.length) (f a) [] b) :
    Takes need T (l >>= f) bytes b := by
  have both := first.bind second
  rwa [List.append_nil] at both

theorem Takes.map (takes : Takes need T l bytes a) (g : α → β) :
    Takes need T (l >>= fun a => Pure.pure (g a)) bytes (g a) := by
  have last := Takes.pure need (T.advance bytes.length) (g a)
  have both : Takes need T (l >>= fun a => Pure.pure (g a)) (bytes ++ []) (g a) :=
    takes.bind_of last fun _ enough => enough
  rwa [List.append_nil] at both

theorem takes_loadByte (T : LoadState) (b : UInt8) : Takes Any T loadByte [b] b := by
  constructor
  · intro S rest before stream
    obtain ⟨Z, read, contents, last⟩ := Zio.zgetc_some stream.contents
    refine .inl ⟨{ S with Z := Z, offset := S.offset + 1 }, ?_, ?_, contents,
      fun fixed => last (stream.last fixed)⟩
    · unfold loadByte
      rw [read]
    · rw [At] at before ⊢
      rw [before]
      rfl
  · intro S front back before split more stream
    have none : front = [] := by
      cases front with
      | nil => rfl
      | cons c front =>
        rw [List.cons_append, List.cons.injEq] at split
        exact absurd (List.append_eq_nil_iff.mp split.2).2 more
    subst none
    refine ⟨_, ?_, .inl rfl⟩
    unfold loadByte
    rw [Zio.zgetc_none stream.contents, before]
    rfl

theorem takes_loadBlock (T : LoadState) (b : List UInt8) :
    Takes Any T (loadBlock b.length) b b := by
  constructor
  · intro S rest before stream
    obtain ⟨Z, read, contents, last⟩ :=
      Zio.luaZReadLoop_spec (z := S.Z) b.length b.length le_rfl
    rw [stream.contents] at read contents
    rw [List.length_append, Nat.sub_add_eq, Nat.sub_self, Nat.zero_sub, List.take_left] at read
    rw [List.drop_left] at contents
    refine .inl ⟨{ S with Z := Z, offset := S.offset + b.length }, ?_, ?_, contents,
      fun fixed => last (stream.last fixed)⟩
    · unfold loadBlock Zio.luaZRead
      rw [read]
      rfl
    · rw [At] at before ⊢
      rw [before]
      rfl
  · intro S front back before split more stream
    obtain ⟨Z, read, _, _⟩ := Zio.luaZReadLoop_spec (z := S.Z) b.length b.length le_rfl
    have few : b.length - S.Z.contents.length ≠ 0 := by
      have := List.length_pos_iff.mpr more
      rw [stream.contents, ← split, List.length_append]
      omega
    refine ⟨errorMessage T.name truncatedChunk, ?_, .inl rfl⟩
    unfold loadBlock Zio.luaZRead
    rw [read]
    dsimp only
    rw [if_pos few, before]
    rfl

/- A fixed buffer lends an empty vector only in front of something. -/
theorem takes_loadVector_of (T : LoadState) (b : List UInt8) :
    Takes (fun rest => b ++ rest ≠ []) T (loadVector b.length) b b := by
  have block := (takes_loadBlock T b).weaken fun rest => b ++ rest ≠ []
  constructor
  · intro S rest before stream
    cases fixed : S.fixed with
    | false =>
      have plain : loadVector b.length S = loadBlock b.length S := by
        unfold loadVector
        rw [fixed]
        rfl
      rw [plain]
      exact block.whole S rest before stream
    | true =>
      have lent : loadVector b.length S = getaddr b.length S := by
        unfold loadVector
        rw [fixed]
        rfl
      rw [lent]
      unfold getaddr
      by_cases empty : b ++ rest = []
      · have refused := Zio.luaZGetaddr_none (n := b.length) (stream.last fixed)
          (.inr (stream.contents.trans empty))
        rw [refused]
        refine .inr ⟨fun more => more empty, errorMessage T.name truncatedFixedBuffer, ?_, .inr rfl⟩
        rw [before]
        rfl
      · obtain ⟨Z, read, contents, last⟩ :=
          Zio.luaZGetaddr_some (stream.last fixed) empty stream.contents
        rw [read]
        refine .inl ⟨_, rfl, ?_, contents, fun _ => last⟩
        rw [At] at before ⊢
        rw [before]
        rfl
  · intro S front back before split more stream
    cases fixed : S.fixed with
    | false =>
      have plain : loadVector b.length S = loadBlock b.length S := by
        unfold loadVector
        rw [fixed]
        rfl
      rw [plain]
      exact block.cut S front back before split more stream
    | true =>
      have few : S.Z.contents.length < b.length := by
        have := List.length_pos_iff.mpr more
        rw [stream.contents, ← split, List.length_append]
        omega
      refine ⟨errorMessage T.name truncatedFixedBuffer, ?_, .inr rfl⟩
      unfold loadVector
      rw [fixed, if_pos rfl]
      unfold getaddr
      rw [Zio.luaZGetaddr_none (stream.last fixed) (.inl few), before]
      rfl

theorem takes_loadVector (T : LoadState) {b : List UInt8} (some : b ≠ []) :
    Takes Any T (loadVector b.length) b b :=
  Reads.weaken (takes_loadVector_of T b) fun _ _ empty => some (List.append_eq_nil_iff.mp empty).1

/- Loops are given more turns than there are bytes, so that a stream ends first. -/
theorem takes_ended (T : LoadState) (a : α) (never : ∀ rest, ¬ need rest) :
    Takes need T (error truncatedChunk) bytes a := by
  have failure (S : LoadState) (before : At T S) :
      ∃ e, (error truncatedChunk : Load α) S = .error e ∧ Truncated T.name e := by
    refine ⟨_, rfl, .inl ?_⟩
    rw [before]
  constructor
  · intro S rest before _
    exact .inr ⟨never rest, failure S before⟩
  · intro S front back before _ _ _
    exact failure S before

theorem septet (x : Nat) : x &&& 0x7F < 128 ∧ (x >>> 7) <<< 7 ||| (x &&& 0x7F) = x := by
  have low : x &&& 0x7F = x % 2 ^ 7 := Nat.and_two_pow_sub_one_eq_mod x 7
  rw [low]
  have small : x % 2 ^ 7 < 2 ^ 7 := Nat.mod_lt _ (by decide)
  rw [← Nat.shiftLeft_add_eq_or_of_lt small, Nat.shiftRight_eq_div_pow, Nat.shiftLeft_eq]
  omega

theorem middle_byte {m : Nat} (small : m < 128) :
    UInt8.ofNat (m ||| 0x80) &&& 0x80 ≠ 0 ∧ (UInt8.ofNat (m ||| 0x80) &&& 0x7F).toNat = m := by
  have all : ∀ m < 128, UInt8.ofNat (m ||| 0x80) &&& 0x80 ≠ 0 ∧
      (UInt8.ofNat (m ||| 0x80) &&& 0x7F).toNat = m := by decide
  exact all m small

theorem last_byte {m : Nat} (small : m < 128) :
    UInt8.ofNat m &&& 0x80 = 0 ∧ (UInt8.ofNat m &&& 0x7F).toNat = m := by
  have all : ∀ m < 128, UInt8.ofNat m &&& 0x80 = 0 ∧
      (UInt8.ofNat m &&& 0x7F).toNat = m := by decide
  exact all m small

theorem takes_varintFront (limit steps x : Nat) (buff : List UInt8) (a : Nat)
    (bits : x >>> 7 < 128 ^ steps) (small : x >>> 7 ≤ limit)
    (last : ∀ T turns, Takes (fun _ => buff.length ≤ turns) T
      (loadVarintLoop limit turns (x >>> 7)) buff a) (T : LoadState) (turns : Nat) :
    Takes (fun _ => (varintFront steps x buff).length ≤ turns) T (loadVarintLoop limit turns 0)
      (varintFront steps x buff) a := by
  induction steps generalizing x buff with
  | zero =>
    have zero : x >>> 7 = 0 := Nat.lt_one_iff.mp bits
    rw [zero] at last
    exact last T turns
  | succ steps ih =>
    rw [varintFront]
    by_cases zero : x >>> 7 = 0
    · rw [if_pos zero]
      rw [zero] at last
      exact last T turns
    · rw [if_neg zero]
      generalize x >>> 7 = y at *
      have less : y >>> 7 ≤ y := by
        rw [Nat.shiftRight_eq_div_pow]
        exact Nat.div_le_self _ _
      have bits' : y >>> 7 < 128 ^ steps := by
        rw [Nat.shiftRight_eq_div_pow, Nat.div_lt_iff_lt_mul (by decide)]
        rwa [Nat.pow_succ] at bits
      apply ih y _ bits' (less.trans small)
      intro T turns
      cases turns with
      | zero => exact takes_ended T a fun _ => by simp
      | succ turns =>
        obtain ⟨low, value⟩ := septet y
        obtain ⟨continues, digit⟩ := middle_byte low
        rw [loadVarintLoop]
        refine (takes_loadByte T _).bind ?_
        dsimp only
        rw [if_neg (Nat.not_lt.mpr (less.trans small)), digit, value, if_pos continues]
        exact Reads.weaken (last (T.advance 1) turns) fun _ => Nat.le_of_succ_le_succ

/-- A varint within the limit is read back. -/
theorem takes_loadVarint (T : LoadState) {limit x : Nat} (bits : x < 2 ^ 64) (small : x ≤ limit) :
    Takes Any T (loadVarint limit) (varint x) x := by
  have septets : x >>> 7 < 128 ^ 9 := by
    rw [Nat.shiftRight_eq_div_pow]
    omega
  have within : x >>> 7 ≤ limit >>> 7 := by
    rw [Nat.shiftRight_eq_div_pow, Nat.shiftRight_eq_div_pow]
    exact Nat.div_le_div_right small
  have front := takes_varintFront (limit >>> 7) 9 x [UInt8.ofNat (x &&& 0x7F)] x septets within
    (fun T turns => by
      cases turns with
      | zero => exact takes_ended T x fun _ => by simp
      | succ turns =>
        obtain ⟨low, value⟩ := septet x
        obtain ⟨ends, digit⟩ := last_byte low
        rw [loadVarintLoop]
        refine (takes_loadByte T _).bind ?_
        dsimp only
        rw [if_neg (Nat.not_lt.mpr within), digit, value, if_neg (fun more => more ends)]
        exact Takes.pure _ _ x)
  constructor
  · intro S rest before stream
    refine ((front T (S.Z.contents.length + 1)).whole S rest before stream).imp_right ?_
    rintro ⟨few, _⟩
    rw [stream.contents, List.length_append] at few
    exact absurd (Nat.le_add_right_of_le (Nat.le_add_right _ _)) few
  · exact fun S => (front T (S.Z.contents.length + 1)).cut S

theorem varint_ne_nil (x : Nat) : varint x ≠ [] := by
  have grows (steps x : Nat) (buff : List UInt8) (some : buff ≠ []) :
      varintFront steps x buff ≠ [] := by
    induction steps generalizing x buff with
    | zero => exact some
    | succ steps ih =>
      rw [varintFront]
      split_ifs
      · exact some
      · exact ih _ _ (List.cons_ne_nil _ _)
  exact grows 9 x _ (List.cons_ne_nil _ _)

theorem takes_loadNumber (T : LoadState) (x : Binary64) :
    Takes Any T loadNumber (leBytes 8 x.bits.toNat) x := by
  have block := takes_loadBlock T (leBytes 8 x.bits.toNat)
  rw [length_leBytes] at block
  have back := block.map fun b => Binary64.mk (UInt64.ofNat (ofLeBytes b))
  rw [ofLeBytes_leBytes 8 _ x.bits.toNat_lt, UInt64.ofNat_toNat] at back
  exact back

/- The coding that keeps small values small. -/
def coded (x : Int64) : UInt64 := if 0 ≤ x then 2 * x.toUInt64 else 2 * ~~~x.toUInt64 + 1

theorem nonneg_iff (x : Int64) : 0 ≤ x ↔ x.toUInt64.toNat < 2 ^ 63 := by
  have bits : x.toInt = x.toUInt64.toBitVec.toInt := rfl
  have nat : x.toUInt64.toBitVec.toNat = x.toUInt64.toNat := rfl
  have zero : (0 : Int64).toInt = 0 := rfl
  have := x.toUInt64.toNat_lt
  rw [Int64.le_iff_toInt_le, bits, BitVec.toInt_eq_toNat_cond, nat, zero]
  split_ifs <;> omega

theorem halve_even {u : UInt64} (small : u.toNat < 2 ^ 63) :
    (2 * u) &&& 1 = 0 ∧ (2 * u) >>> 1 = u := by
  constructor <;> apply UInt64.toNat_inj.mp
  · simp [UInt64.toNat_and, UInt64.toNat_mul]
  · simp [UInt64.toNat_shiftRight, UInt64.toNat_mul, Nat.shiftRight_eq_div_pow]
    omega

theorem halve_odd {u : UInt64} (small : u.toNat < 2 ^ 63) :
    (2 * u + 1) &&& 1 ≠ 0 ∧ (2 * u + 1) >>> 1 = u := by
  constructor
  · intro even
    have := congrArg UInt64.toNat even
    simp [UInt64.toNat_and, UInt64.toNat_mul, UInt64.toNat_add] at this
  · apply UInt64.toNat_inj.mp
    simp [UInt64.toNat_shiftRight, UInt64.toNat_mul, Nat.shiftRight_eq_div_pow, UInt64.toNat_add]
    omega

theorem decoded (x : Int64) :
    (if coded x &&& 1 ≠ 0 then (~~~(coded x >>> 1)).toInt64 else (coded x >>> 1).toInt64) = x := by
  unfold coded
  by_cases sign : 0 ≤ x
  · obtain ⟨even, half⟩ := halve_even ((nonneg_iff x).mp sign)
    rw [if_pos sign, if_neg (fun odd => odd even), half, Int64.toInt64_toUInt64]
  · have large := (not_congr (nonneg_iff x)).mp sign
    have small : (~~~x.toUInt64).toNat < 2 ^ 63 := by
      have size : UInt64.size = 2 ^ 64 := rfl
      rw [UInt64.toNat_not, size]
      omega
    obtain ⟨odd, half⟩ := halve_odd small
    rw [if_neg sign, if_pos odd, half, UInt64.not_not, Int64.toInt64_toUInt64]

theorem takes_loadInteger (T : LoadState) (x : Int64) :
    Takes Any T loadInteger (varint (coded x).toNat) x := by
  have bits := (coded x).toNat_lt
  have small : (coded x).toNat ≤ LUA_MAXUNSIGNED := by
    unfold LUA_MAXUNSIGNED
    omega
  have back := (takes_loadVarint T bits small).map fun cx =>
      if UInt64.ofNat cx &&& 1 ≠ 0 then (~~~(UInt64.ofNat cx >>> 1)).toInt64
      else (UInt64.ofNat cx >>> 1).toInt64
  rw [UInt64.ofNat_toNat, decoded] at back
  exact back

end Loaders

/- What stays the same in a dump and its load. -/
structure Setting where
  name : List UInt8
  fixed : Bool
  strip : Bool

/- The load is where the dump was, and has its strings. -/
structure Matched (E : Setting) (D : DumpState) (T : LoadState) : Prop where
  name : T.name = E.name
  fixed : T.fixed = E.fixed
  offset : T.offset = D.offset
  nstr : T.nstr = D.nstr
  bound : D.nstr ≤ D.offset
  saved : ∀ s i, D.h s = some i → 0 < i ∧ i ≤ D.nstr ∧ T.h i = some s

/-- The loader l reads what the dump wrote from D to D', of at least the given size, and gives
   a. -/
structure Inverse (E : Setting) (need : List UInt8 → Prop) (size : Nat) (D D' : DumpState)
    {α : Type} (l : Load α) (a : α) : Prop where
  strip : D.strip = E.strip → D'.strip = E.strip
  reads : D.strip = E.strip → D'.status = 0 → D.status = 0 ∧ ∃ bytes,
    D'.written.flatten = D.written.flatten ++ bytes ∧ D'.offset = D.offset + bytes.length ∧
      size ≤ bytes.length ∧
        (D'.offset < 2 ^ 64 → Reads Stream (Truncated E.name) need (Matched E D) l bytes a
          (Matched E D'))

section Inverses

variable {α β : Type} {need need' : List UInt8 → Prop} {E : Setting}
  {size size' : Nat} {D D₁ D' : DumpState} {l : Load α} {f : α → Load β} {a : α} {b : β}

theorem Inverse.weaken (inverse : Inverse E need size D D' l a)
    (enough : ∀ rest, need' rest → need rest) (smaller : size' ≤ size) :
    Inverse E need' size' D D' l a := by
  refine ⟨inverse.strip, fun same done => ?_⟩
  obtain ⟨before, bytes, written, offset, long, reads⟩ := inverse.reads same done
  exact ⟨before, bytes, written, offset, smaller.trans long,
    fun small => (reads small).weaken enough⟩

theorem Inverse.reaches (inverse : Inverse E need size D D' l a)
    (same : D.strip = E.strip) (done : D'.status = 0) :
    D.status = 0 ∧ D.offset + size ≤ D'.offset := by
  obtain ⟨before, bytes, _, offset, long, _⟩ := inverse.reads same done
  exact ⟨before, by omega⟩

theorem Inverse.resize (inverse : Inverse E need size D D' l a)
    (large : D.strip = E.strip → D'.status = 0 → D.offset + size' ≤ D'.offset) :
    Inverse E need size' D D' l a := by
  refine ⟨inverse.strip, fun same done => ?_⟩
  obtain ⟨before, bytes, written, offset, _, reads⟩ := inverse.reads same done
  have := large same done
  exact ⟨before, bytes, written, offset, by omega, reads⟩

/- A loop that is out of turns fails, as on a stream that ends too early. -/
theorem Inverse.ended (inverse : Inverse E need size D D' l a) (b : β)
    (never : ∀ rest, ¬ need' rest) :
    Inverse E need' size D D' (error truncatedChunk : Load β) b := by
  refine ⟨inverse.strip, fun same done => ?_⟩
  obtain ⟨before, bytes, written, offset, long, _⟩ := inverse.reads same done
  refine ⟨before, bytes, written, offset, long, fun _ => ?_⟩
  have failure (S : LoadState) (matched : Matched E D S) :
      ∃ e, (error truncatedChunk : Load β) S = .error e ∧ Truncated E.name e :=
    ⟨_, rfl, .inl (by rw [matched.name])⟩
  exact ⟨fun S rest matched _ => .inr ⟨never rest, failure S matched⟩,
    fun S _ _ matched _ _ _ => failure S matched⟩

theorem Inverse.pure (need : List UInt8 → Prop) (D : DumpState) (a : α) :
    Inverse E need 0 D D (pure a : Load α) a := by
  refine ⟨id, fun _ done => ⟨done, [], (List.append_nil _).symm, rfl, Nat.le_refl 0, fun _ => ?_⟩⟩
  exact Reads.pure need _ a

/-- A dump behind another; the first loader may need what the second one takes. -/
theorem Inverse.bind_of (first : Inverse E need' size D D₁ l a)
    (second : Inverse E need size' D₁ D' (f a) b)
    (enough : ∀ bytes rest, size' ≤ bytes.length → need rest → need' (bytes ++ rest)) :
    Inverse E need (size + size') D D' (l >>= f) b := by
  refine ⟨second.strip ∘ first.strip, fun same done => ?_⟩
  obtain ⟨between, bytes₂, written₂, offset₂, long₂, reads₂⟩ :=
    second.reads (first.strip same) done
  obtain ⟨before, bytes₁, written₁, offset₁, long₁, reads₁⟩ := first.reads same between
  refine ⟨before, bytes₁ ++ bytes₂, ?_, ?_, ?_, fun small => ?_⟩
  · rw [written₂, written₁, List.append_assoc]
  · rw [offset₂, offset₁, List.length_append, Nat.add_assoc]
  · rw [List.length_append]
    omega
  · exact (reads₁ (by omega)).bind_of (reads₂ small) fun rest => enough bytes₂ rest long₂

/- Both need the same. -/
theorem Inverse.bind {c : Prop} (first : Inverse E (fun _ => c) size D D₁ l a)
    (second : Inverse E (fun _ => c) size' D₁ D' (f a) b) :
    Inverse E (fun _ => c) (size + size') D D' (l >>= f) b :=
  first.bind_of second fun _ _ _ holds => holds

/- The first one needs nothing, and is what matters for the size. -/
theorem Inverse.first (first : Inverse E Any size D D₁ l a)
    (second : Inverse E need 0 D₁ D' (f a) b) :
    Inverse E need size D D' (l >>= f) b :=
  first.bind_of second fun _ _ _ _ => trivial

theorem Inverse.count (first : Inverse E Any 1 D D₁ l a)
    (second : Inverse E need size D₁ D' (f a) b) : Inverse E need (size + 1) D D' (l >>= f) b :=
  (first.bind_of second fun _ _ _ _ => trivial).weaken (fun _ => id) (by omega)

/- The first one is what the need and the size are about. -/
theorem Inverse.inner (first : Inverse E need size D D₁ l a)
    (second : Inverse E Any 0 D₁ D' (f a) b) (stable : ∀ bytes rest, need rest →
      need (bytes ++ rest)) : Inverse E need size D D' (l >>= f) b :=
  first.bind_of (second.weaken (fun _ _ => trivial) le_rfl) fun bytes rest _ => stable bytes rest

/- The first one needs something behind it. -/
theorem Inverse.before (first : Inverse E (fun rest => rest ≠ []) 0 D D₁ l a)
    (second : Inverse E need (size + 1) D₁ D' (f a) b) :
    Inverse E need (size + 1) D D' (l >>= f) b := by
  have both := first.bind_of second fun bytes rest long _ empty => by
    rw [(List.append_eq_nil_iff.mp empty).1] at long
    exact Nat.not_succ_le_zero _ long
  exact both.weaken (fun _ => id) (by omega)

/- The first one needs nothing, and does not matter for the size. -/
theorem Inverse.next (first : Inverse E Any size D D₁ l a)
    (second : Inverse E need size' D₁ D' (f a) b) :
    Inverse E need size' D D' (l >>= f) b :=
  (first.bind_of second fun _ _ _ _ => trivial).weaken (fun _ => id) (Nat.le_add_left _ _)

theorem Inverse.map (inverse : Inverse E need size D D' l a) (g : α → β) :
    Inverse E need size D D' (l >>= fun a => Pure.pure (g a)) (g a) := by
  refine ⟨inverse.strip, fun same done => ?_⟩
  obtain ⟨before, bytes, written, offset, long, reads⟩ := inverse.reads same done
  refine ⟨before, bytes, written, offset, long, fun small => ?_⟩
  have last : Reads Stream (Truncated E.name) need (Matched E D') (Pure.pure (g a) : Load β) []
      (g a) (Matched E D') := Reads.pure need _ (g a)
  have both : Reads Stream (Truncated E.name) need (Matched E D)
      (l >>= fun a => Pure.pure (g a)) (bytes ++ []) (g a) (Matched E D') :=
    (reads small).bind_of last fun _ enough => enough
  rwa [List.append_nil] at both

theorem dumpBlock_going {bytes : List UInt8} (done : (D.dumpBlock bytes).status = 0) :
    D.status = 0 ∧ D.dumpBlock bytes = { D with
      written := D.written ++ [bytes]
      status := D.writer D.written bytes
      offset := D.offset + bytes.length } := by
  by_cases going : D.status = 0
  · exact ⟨going, if_pos going⟩
  · have stopped : D.dumpBlock bytes = D := if_neg going
    rw [stopped] at done
    exact absurd done going

/-- One block, and a loader that takes it. -/
theorem Inverse.block {bytes : List UInt8} (takes : (D.dumpBlock bytes).offset < 2 ^ 64 →
      ∀ T, Matched E D T → Takes need T l bytes a) :
    Inverse E need bytes.length D (D.dumpBlock bytes) l a := by
  constructor
  · unfold DumpState.dumpBlock
    split_ifs <;> exact id
  · intro _ done
    obtain ⟨going, dumped⟩ := dumpBlock_going done
    refine ⟨going, bytes, ?_, ?_, le_rfl, fun small =>
      ⟨fun S rest before stream => ?_, fun S front back before split more stream => ?_⟩⟩
    · rw [dumped, List.flatten_append, List.flatten_singleton]
    · rw [dumped]
    · have takes' := (takes small S before).whole S rest rfl stream
      rw [before.name] at takes'
      refine takes'.imp_left ?_
      rintro ⟨S', made, after, stream'⟩
      refine ⟨S', made, ?_, stream'⟩
      rw [dumped, after]
      exact ⟨before.name, before.fixed, congrArg (· + bytes.length) before.offset, before.nstr,
        before.bound.trans (Nat.le_add_right _ _), before.saved⟩
    · have cut := (takes small S before).cut S front back rfl split more stream
      rwa [before.name] at cut

theorem inverse_byte (D : DumpState) (x : UInt8) :
    Inverse E Any 1 D (D.dumpByte x) loadByte x :=
  .block fun _ T _ => takes_loadByte T x

theorem inverse_varint (D : DumpState) {limit x : Nat} (bits : x < 2 ^ 64) (small : x ≤ limit) :
    Inverse E Any 1 D (D.dumpVarint x) (loadVarint limit) x :=
  Inverse.weaken (.block fun _ T _ => takes_loadVarint T bits small) (fun _ => id)
    (List.length_pos_iff.mpr (varint_ne_nil x))

theorem inverse_int (D : DumpState) {x : Nat} (small : x ≤ INT_MAX) :
    Inverse E Any 1 D (D.dumpInt x) loadInt x :=
  inverse_varint D (small.trans_lt (by decide)) small

theorem inverse_align (D : DumpState) (align : Nat) :
    Inverse E Any 0 D (D.dumpAlign align) (loadAlign align) () := by
  unfold DumpState.dumpAlign
  dsimp only
  split_ifs with padded
  · refine Inverse.weaken (.block fun _ T matched => ?_) (fun _ => id) (Nat.zero_le _)
    generalize size : align - D.offset % align = padding at padded ⊢
    have block := takes_loadBlock T (List.replicate padding 0)
    rw [List.length_replicate] at block
    have same (S : LoadState) (before : At T S) :
        loadAlign align S = (loadBlock padding S).map fun made => ((), made.2) := by
      have offset : S.offset = D.offset := by
        rw [before]
        exact matched.offset
      unfold loadAlign
      dsimp only
      rw [offset, size, if_pos padded]
    constructor
    · intro S rest before stream
      rw [same S before]
      refine (block.whole S rest before stream).imp ?_ ?_
      · rintro ⟨S', made, after⟩
        exact ⟨S', by rw [made]; rfl, after⟩
      · rintro ⟨lacking, e, failed, short⟩
        exact ⟨lacking, e, by rw [failed]; rfl, short⟩
    · intro S front back before split more stream
      obtain ⟨e, failed, short⟩ := block.cut S front back before split more stream
      rw [same S before]
      exact ⟨e, by rw [failed]; rfl, short⟩
  · refine ⟨id, fun _ done => ⟨done, [], (List.append_nil _).symm, rfl, le_rfl, fun _ => ?_⟩⟩
    constructor
    · intro S rest before stream
      refine .inl ⟨S, ?_, before, stream⟩
      unfold loadAlign
      dsimp only
      rw [before.offset, if_neg padded]
    · intro S front back _ split more _
      exact absurd (List.append_eq_nil_iff.mp split).2 more

/- A vector of a fixed buffer must not be the end of it. -/
theorem inverse_vector_of (D : DumpState) (b : List UInt8) :
    Inverse E (fun rest => b ++ rest ≠ []) b.length D (D.dumpBlock b)
      (loadVector b.length) b :=
  .block fun _ T _ => takes_loadVector_of T b

/- An empty vector that is not dumped. -/
theorem inverse_vector_nil (D : DumpState) :
    Inverse E (fun rest => rest ≠ []) 0 D D (loadVector 0) [] := by
  refine ⟨id, fun _ done => ⟨done, [], (List.append_nil _).symm, rfl, le_rfl, fun _ => ?_⟩⟩
  constructor
  · intro S rest before stream
    have takes := (takes_loadVector_of S []).whole S rest rfl stream
    rw [before.name] at takes
    refine takes.imp_left ?_
    rintro ⟨S', made, after, stream'⟩
    refine ⟨S', made, ?_, stream'⟩
    rw [after]
    exact ⟨before.name, before.fixed, before.offset, before.nstr, before.bound, before.saved⟩
  · intro S front back _ split more _
    exact absurd (List.append_eq_nil_iff.mp split).2 more

theorem inverse_vector (D : DumpState) {b : List UInt8} (some : b ≠ []) :
    Inverse E Any b.length D (D.dumpBlock b) (loadVector b.length) b :=
  .block fun _ T _ => takes_loadVector T some

theorem Inverse.of_strip (inverse : D.strip = E.strip → Inverse E need size D D' l a) :
    Inverse E need size D D' l a :=
  ⟨fun same => (inverse same).strip same, fun same => (inverse same).reads same⟩

/-- The loop over an array. -/
theorem Inverse.times {c : Prop} {d : β → DumpState → DumpState} {l : Load α} {g : β → α}
    (xs : List β)
    (each : ∀ x ∈ xs, ∀ D, Inverse E (fun _ => c) 0 D (d x D) l (g x)) (D : DumpState) :
    Inverse E (fun _ => c) 0 D (xs.foldl (fun D x => d x D) D) (Readers.times l xs.length)
      (xs.map g) := by
  induction xs generalizing D with
  | nil => exact Inverse.pure _ D []
  | cons x xs ih =>
    have first := each x List.mem_cons_self D
    have rest := ih (fun y member => each y (List.mem_cons_of_mem x member)) (d x D)
    have both : Inverse E (fun _ => c) (0 + 0) D _
        (l >>= fun a => Readers.times l xs.length >>= fun rest => Pure.pure (a :: rest))
        (g x :: xs.map g) := first.bind (rest.map (g x :: ·))
    exact both

/-- An array behind its length. -/
theorem Inverse.array {c : Prop} {d : β → DumpState → DumpState} {l : Load α} {g : β → α}
    (D : DumpState) (xs : List β) (few : xs.length ≤ INT_MAX)
    (each : ∀ x ∈ xs, ∀ D, Inverse E (fun _ => c) 0 D (d x D) l (g x)) :
    Inverse E (fun _ => c) 1 D (xs.foldl (fun D x => d x D) (D.dumpInt xs.length))
      (loadArray l) (xs.map g) := by
  have length := inverse_int (E := E) D few
  have rest := Inverse.times xs each (D.dumpInt xs.length)
  exact length.first rest

theorem inverse_number (D : DumpState) (x : Binary64) :
    Inverse E Any 0 D (D.dumpNumber x) loadNumber x :=
  Inverse.weaken (.block fun _ T _ => takes_loadNumber T x) (fun _ => id) (Nat.zero_le _)

theorem inverse_integer (D : DumpState) (x : Int64) :
    Inverse E Any 0 D (D.dumpInteger x) loadInteger x :=
  Inverse.weaken (.block fun _ T _ => takes_loadInteger T x) (fun _ => id) (Nat.zero_le _)

/- The string at an index that the dump has. -/
theorem inverse_savedString {s : TString} {idx : Nat} (saved : D.h s = some idx) :
    Inverse E Any 0 D D (if idx = 0 then Pure.pure none
      else savedString idx >>= fun ts => Pure.pure (some ts)) (some s) := by
  refine ⟨id, fun _ done => ⟨done, [], (List.append_nil _).symm, rfl, le_rfl, fun _ => ?_⟩⟩
  constructor
  · intro S rest before stream
    obtain ⟨positive, _, stored⟩ := before.saved s idx saved
    have found : savedString idx S = .ok (s, S) := by
      unfold savedString
      rw [stored]
    refine .inl ⟨S, ?_, before, stream⟩
    rw [if_neg (Nat.pos_iff_ne_zero.mp positive)]
    show (savedString idx S >>= fun made =>
      (Pure.pure (some made.1) : Load (Option TString)) made.2) = _
    rw [found]
    rfl
  · intro S front back _ split more _
    exact absurd (List.append_eq_nil_iff.mp split).2 more

/-- A new string gets the next index on both sides. -/
theorem inverse_newString {load : Load (List UInt8)} {s : TString}
    (takes : ∀ T, Takes Any T load (s ++ [0]) (s ++ [0])) :
    Inverse E Any 0 D
      { D.dumpBlock (s ++ [0]) with
        nstr := (D.dumpBlock (s ++ [0])).nstr + 1
        h := Function.update (D.dumpBlock (s ++ [0])).h s
          (some ((D.dumpBlock (s ++ [0])).nstr + 1)) }
      (load >>= fun b => saveString (b.take s.length)) (some s) := by
  have block : Inverse E Any (s ++ [0]).length D (D.dumpBlock (s ++ [0])) load (s ++ [0]) :=
    .block fun _ T _ => takes T
  refine ⟨block.strip, fun same done => ?_⟩
  obtain ⟨going, bytes, written, offset, long, reads⟩ := block.reads same done
  obtain ⟨_, dumped⟩ := dumpBlock_going done
  rw [dumped] at written offset reads ⊢
  refine ⟨going, bytes, written, offset, Nat.zero_le _, fun small => ?_⟩
  have grown (S : LoadState) (before : Matched E D S) :
      D.nstr + 1 ≤ D.offset + (s ++ [0]).length := by
    have := before.bound
    rw [List.length_append, List.length_singleton]
    omega
  have room := (reads small).keep grown
  have taken : (s ++ [0]).take s.length = s := List.take_left
  have save : Reads Stream (Truncated E.name) Any
      (fun S => Matched E { D with
        written := D.written ++ [s ++ [0]]
        status := D.writer D.written (s ++ [0])
        offset := D.offset + (s ++ [0]).length } S ∧
          D.nstr + 1 ≤ D.offset + (s ++ [0]).length)
      (saveString ((s ++ [0]).take s.length)) [] (some s)
      (Matched E { D with
        written := D.written ++ [s ++ [0]]
        status := D.writer D.written (s ++ [0])
        offset := D.offset + (s ++ [0]).length
        nstr := D.nstr + 1
        h := Function.update D.h s (some (D.nstr + 1)) }) := by
    rw [taken]
    constructor
    · rintro S rest ⟨before, room⟩ stream
      refine .inl ⟨_, rfl, ?_, stream.contents, stream.last⟩
      refine ⟨before.name, before.fixed, before.offset, congrArg (· + 1) before.nstr, room, ?_⟩
      have next : S.nstr = D.nstr := before.nstr
      intro s' i found
      dsimp only at found ⊢
      rw [next]
      by_cases same : s' = s
      · subst same
        rw [Function.update_self] at found
        cases found
        exact ⟨Nat.succ_pos _, le_rfl, Function.update_self ..⟩
      · rw [Function.update_of_ne same] at found
        obtain ⟨positive, below, stored⟩ := before.saved s' i found
        have other : i ≠ D.nstr + 1 := Nat.ne_of_lt (Nat.lt_succ_of_le below)
        exact ⟨positive, Nat.le_succ_of_le below, by rw [Function.update_of_ne other, stored]⟩
    · intro S front back _ split more _
      exact absurd (List.append_eq_nil_iff.mp split).2 more
  have both : Reads Stream (Truncated E.name) Any (Matched E D)
      (load >>= fun b => saveString (b.take s.length)) (bytes ++ []) (some s) _ :=
    room.bind_of save fun _ _ => trivial
  rwa [List.append_nil] at both

theorem dumpBlock_offset (D : DumpState) (b : List UInt8) :
    D.offset ≤ (D.dumpBlock b).offset ∧ (D.dumpBlock b).h = D.h ∧
      (D.dumpBlock b).nstr = D.nstr := by
  unfold DumpState.dumpBlock
  split_ifs
  · exact ⟨Nat.le_add_right _ _, rfl, rfl⟩
  · exact ⟨le_rfl, rfl, rfl⟩

/-- Strings are read back, whether they are written out or refer to an earlier one. -/
theorem inverse_string (D : DumpState) (ts : Option TString)
    (fits : ∀ s, ts = some s → s.length < MAX_SIZE) :
    Inverse E Any 1 D (D.dumpString ts) loadString ts := by
  have zero : (0 : Nat) ≤ MAX_SIZE := Nat.zero_le _
  have head := inverse_varint (E := E) D (x := 0) (by decide) zero
  cases ts with
  | none =>
    refine head.first ?_
    rw [if_pos rfl]
    exact (inverse_varint _ (x := 0) (by decide) (Nat.zero_le _)).next (Inverse.pure Any _ none)
  | some s =>
    unfold DumpState.dumpString
    dsimp only
    cases saved : D.h s with
    | some idx =>
      dsimp only
      refine head.first ?_
      rw [if_pos rfl]
      have kept : (D.dumpVarint 0).h s = some idx := by
        rw [← saved]
        exact congrFun (dumpBlock_offset D _).2.1 s
      have index : Inverse E Any 0 (D.dumpVarint 0) ((D.dumpVarint 0).dumpVarint idx)
          (loadVarint LUA_MAXUNSIGNED) idx := by
        refine Inverse.weaken (.block fun small T matched => ?_) (fun _ => id) (Nat.zero_le _)
        have := (matched.saved s idx kept).2.1
        have := matched.bound
        have := (dumpBlock_offset (D.dumpVarint 0) (varint idx)).1
        exact takes_loadVarint T (by omega) (by unfold LUA_MAXUNSIGNED; omega)
      exact index.next (inverse_savedString ((congrFun (dumpBlock_offset _ _).2.1 s).trans kept))
    | none =>
      dsimp only
      have long := fits s rfl
      have within : s.length + 1 ≤ MAX_SIZE := long
      have size := inverse_varint (E := E) D (within.trans_lt (by decide)) within
      refine size.first ?_
      rw [if_neg (Nat.succ_ne_zero _), Nat.add_sub_cancel]
      have length : s.length + 1 = (s ++ [0]).length := by
        rw [List.length_append, List.length_singleton]
      have some : s ++ [0] ≠ [] := List.append_ne_nil_of_right_ne_nil _ (List.cons_ne_nil _ _)
      dsimp only
      split_ifs
      · rw [length]
        exact inverse_newString fun T => takes_loadBlock T _
      · rw [length]
        exact inverse_newString fun T => takes_loadVector T some

end Inverses

end Luava.Lundump
