import Mathlib.Data.List.TakeWhile
import Mathlib.Data.List.Basic

/-
UTF-8 text as byte lists, and the part of it a reader of NUL-terminated strings sees.
A text is a list of Unicode scalar values, so it never holds an unpaired surrogate.
-/
namespace Utf8

def encode (text : List Char) : List UInt8 := text.flatMap String.utf8EncodeChar

/- The bytes before the first zero byte: what strlen delimits. -/
def cString (bytes : List UInt8) : List UInt8 := bytes.takeWhile (· != 0)

def replacement : Char := Char.ofNat 0xFFFD

def continuation (b : UInt8) : Bool := b &&& 0xC0 == 0x80

def overlong3 (b1 b2 : UInt8) : Bool := b1 == 0xE0 && b2 &&& 0xE0 == 0x80

/- The second byte rules out every four-byte sequence that starts with b1. -/
def malformed4 (b1 b2 : UInt8) : Bool :=
  b1 == 0xF0 && (b2 < 0x90 || 0xBF < b2) || b1 == 0xF4 && b2 &&& 0xF0 != 0x80 ||
    !continuation b2

def scalar2 (b1 b2 : UInt8) : Nat := b1.toNat % 32 * 64 + b2.toNat % 64
def scalar3 (b1 b2 b3 : UInt8) : Nat :=
  b1.toNat % 16 * 4096 + b2.toNat % 64 * 64 + b3.toNat % 64
def scalar4 (b1 b2 b3 b4 : UInt8) : Nat :=
  b1.toNat % 8 * 262144 + b2.toNat % 64 * 4096 + b3.toNat % 64 * 64 + b4.toNat % 64

/-- Decoding that never fails: each malformed sequence becomes one replacement character,
   and decoding goes on after the bytes that could not be continued. -/
def decode : List UInt8 → List Char
  | [] => []
  | b1 :: rest =>
    if b1 < 0x80 then Char.ofNat b1.toNat :: decode rest
    else if 0xC2 ≤ b1 ∧ b1 < 0xE0 then
      match rest with
      | [] => [replacement]
      | b2 :: tail =>
        if continuation b2 then Char.ofNat (scalar2 b1 b2) :: decode tail
        else replacement :: decode (b2 :: tail)
    else if 0xE0 ≤ b1 ∧ b1 < 0xF0 then
      match rest with
      | [] => [replacement]
      | [b2] =>
        if overlong3 b1 b2 || !continuation b2 then replacement :: decode [b2]
        else [replacement]
      | b2 :: b3 :: tail =>
        if overlong3 b1 b2 || !continuation b2 then replacement :: decode (b2 :: b3 :: tail)
        else if !continuation b3 then replacement :: decode (b3 :: tail)
        else if 0xD800 ≤ scalar3 b1 b2 b3 ∧ scalar3 b1 b2 b3 < 0xE000 then
          replacement :: decode tail
        else Char.ofNat (scalar3 b1 b2 b3) :: decode tail
    else if 0xF0 ≤ b1 ∧ b1 ≤ 0xF4 then
      match rest with
      | [] => [replacement]
      | [b2] => if malformed4 b1 b2 then replacement :: decode [b2] else [replacement]
      | [b2, b3] =>
        if malformed4 b1 b2 then replacement :: decode [b2, b3]
        else if !continuation b3 then replacement :: decode [b3]
        else [replacement]
      | b2 :: b3 :: b4 :: tail =>
        if malformed4 b1 b2 then replacement :: decode (b2 :: b3 :: b4 :: tail)
        else if !continuation b3 then replacement :: decode (b3 :: b4 :: tail)
        else if !continuation b4 then replacement :: decode (b4 :: tail)
        else Char.ofNat (scalar4 b1 b2 b3 b4) :: decode tail
    else replacement :: decode rest

theorem encode_nil : encode [] = [] := rfl

theorem encode_cons (c : Char) (text : List Char) :
    encode (c :: text) = String.utf8EncodeChar c ++ encode text := rfl

theorem encode_char_nul : String.utf8EncodeChar '\x00' = [0] := by decide

/- No byte of another character's encoding is zero. -/
theorem encode_char_ne_zero {c : Char} (h : c ≠ '\x00') :
    ∀ b ∈ String.utf8EncodeChar c, b ≠ 0 := by
  have positive : 0 < c.toNat := by
    rcases Nat.eq_zero_or_pos c.toNat with zero | positive
    · exact absurd (Char.toNat_inj.mp zero) h
    · exact positive
  have nonzero : ∀ n, 0 < n → n < 256 → UInt8.ofNat n ≠ 0 := by
    intro n low high zero
    have := congrArg UInt8.toNat zero
    simp only [UInt8.toNat_ofNat', UInt8.toNat_zero] at this
    omega
  intro b member
  have value : c.val.toNat = c.toNat := rfl
  simp only [String.utf8EncodeChar, value] at member
  split at member
  · simp only [List.mem_singleton] at member
    subst member
    exact nonzero _ positive (by omega)
  split at member
  · simp only [List.mem_cons, List.not_mem_nil, or_false] at member
    rcases member with rfl | rfl <;> exact nonzero _ (by omega) (by omega)
  split at member
  · simp only [List.mem_cons, List.not_mem_nil, or_false] at member
    rcases member with rfl | rfl | rfl <;> exact nonzero _ (by omega) (by omega)
  · simp only [List.mem_cons, List.not_mem_nil, or_false] at member
    rcases member with rfl | rfl | rfl | rfl <;> exact nonzero _ (by omega) (by omega)

theorem cString_append_of_ne_zero {front : List UInt8} (h : ∀ b ∈ front, b ≠ 0)
    (back : List UInt8) : cString (front ++ back) = front ++ cString back := by
  simp only [cString]
  exact List.takeWhile_append_of_pos (by simpa using h)

theorem cString_terminated (bytes : List UInt8) : cString (bytes ++ [0]) = cString bytes := by
  induction bytes with
  | nil => rfl
  | cons b bytes ih =>
    by_cases zero : b = 0
    · simp [cString, zero]
    · simpa [cString, zero] using ih

/- Cutting the bytes at the first zero byte cuts the text at its first NUL. -/
theorem cString_encode (text : List Char) :
    cString (encode text) = encode (text.takeWhile (· != '\x00')) := by
  induction text with
  | nil => rfl
  | cons c text ih =>
    by_cases nul : c = '\x00'
    · subst nul
      simp [encode_cons, encode_char_nul, cString, encode_nil]
    · rw [encode_cons, cString_append_of_ne_zero (encode_char_ne_zero nul), ih]
      simp [nul, encode_cons]

theorem encode_injective {a b : List Char} (h : encode a = encode b) : a = b := by
  have bytes : (String.ofList a).toByteArray = (String.ofList b).toByteArray := by
    simp only [String.toByteArray_ofList, List.utf8Encode]
    exact congrArg List.toByteArray h
  exact String.ofList_injective (String.toByteArray_inj.mp bytes)

theorem cString_encode_inj {a b : List Char} :
    cString (encode a) = cString (encode b) ↔
      a.takeWhile (· != '\x00') = b.takeWhile (· != '\x00') := by
  rw [cString_encode, cString_encode]
  exact ⟨encode_injective, congrArg encode⟩

theorem cString_encode_eq_iff (text : List Char) :
    cString (encode text) = encode text ↔ '\x00' ∉ text := by
  rw [cString_encode]
  constructor
  · intro same nul
    have whole := encode_injective same
    have nonzero := List.takeWhile_eq_self_iff.mp whole '\x00' nul
    simp at nonzero
  · intro free
    have whole : text.takeWhile (· != '\x00') = text := by
      refine List.takeWhile_eq_self_iff.mpr fun c member => ?_
      have other : c ≠ '\x00' := fun nul => free (nul ▸ member)
      simpa using other
    rw [whole]

theorem toNat_byte {n : Nat} (small : n < 256) : (UInt8.ofNat n).toNat = n := by
  rw [UInt8.toNat_ofNat', Nat.mod_eq_of_lt small]

theorem continuation_byte {n : Nat} (small : n < 64) :
    continuation (UInt8.ofNat (n + 0x80)) = true := by
  have all : ∀ n < 64, continuation (UInt8.ofNat (n + 0x80)) = true := by decide
  exact all n small

theorem overlong3_bytes {a n : Nat} (first : a < 16) (small : n < 64) :
    overlong3 (UInt8.ofNat (a + 0xE0)) (UInt8.ofNat (n + 0x80)) = decide (a = 0 ∧ n < 32) := by
  have all : ∀ a < 16, ∀ n < 64, overlong3 (UInt8.ofNat (a + 0xE0)) (UInt8.ofNat (n + 0x80)) =
      decide (a = 0 ∧ n < 32) := by decide +kernel
  exact all a first n small

theorem malformed4_bytes {a n : Nat} (first : a < 5) (small : n < 64) :
    malformed4 (UInt8.ofNat (a + 0xF0)) (UInt8.ofNat (n + 0x80)) =
      decide (a = 0 ∧ n < 16 ∨ a = 4 ∧ 16 ≤ n) := by
  have all : ∀ a < 5, ∀ n < 64, malformed4 (UInt8.ofNat (a + 0xF0)) (UInt8.ofNat (n + 0x80)) =
      decide (a = 0 ∧ n < 16 ∨ a = 4 ∧ 16 ≤ n) := by decide +kernel
  exact all a first n small

theorem decode_one {n : Nat} (rest : List UInt8) (small : n < 0x80) :
    decode (UInt8.ofNat n :: rest) = Char.ofNat n :: decode rest := by
  have value := toNat_byte (show n < 256 by omega)
  have ascii : UInt8.ofNat n < 0x80 := UInt8.lt_iff_toNat_lt.mpr (by rw [value]; exact small)
  rw [decode.eq_def]
  simp only [ascii, ↓reduceIte, value]

theorem decode_two {a n : Nat} (rest : List UInt8) (low : 2 ≤ a) (high : a < 32) (small : n < 64) :
    decode (UInt8.ofNat (a + 0xC0) :: UInt8.ofNat (n + 0x80) :: rest) =
      Char.ofNat (a * 64 + n) :: decode rest := by
  have first := toNat_byte (show a + 0xC0 < 256 by omega)
  have second := toNat_byte (show n + 0x80 < 256 by omega)
  have ascii : ¬ UInt8.ofNat (a + 0xC0) < 0x80 := by
    rw [UInt8.lt_iff_toNat_lt, first]
    exact Nat.not_lt.mpr (Nat.le_trans (by decide) (Nat.le_add_left 0xC0 a))
  have leads : 0xC2 ≤ UInt8.ofNat (a + 0xC0) ∧ UInt8.ofNat (a + 0xC0) < 0xE0 := by
    rw [UInt8.le_iff_toNat_le, UInt8.lt_iff_toNat_lt, first]
    exact ⟨show 0xC2 ≤ a + 0xC0 by omega, show a + 0xC0 < 0xE0 by omega⟩
  have scalar : scalar2 (UInt8.ofNat (a + 0xC0)) (UInt8.ofNat (n + 0x80)) = a * 64 + n := by
    rw [scalar2, first, second]
    omega
  rw [decode.eq_def]
  simp only [ascii, ↓reduceIte, leads, and_self, continuation_byte small, scalar]

theorem decode_three {a m n : Nat} (rest : List UInt8) (first : a < 16) (second : m < 64)
    (third : n < 64) (shortest : ¬ (a = 0 ∧ m < 32)) (scalar : ¬ (a = 13 ∧ 32 ≤ m)) :
    decode (UInt8.ofNat (a + 0xE0) :: UInt8.ofNat (m + 0x80) :: UInt8.ofNat (n + 0x80) :: rest) =
      Char.ofNat (a * 4096 + m * 64 + n) :: decode rest := by
  have byte1 := toNat_byte (show a + 0xE0 < 256 by omega)
  have byte2 := toNat_byte (show m + 0x80 < 256 by omega)
  have byte3 := toNat_byte (show n + 0x80 < 256 by omega)
  have ascii : ¬ UInt8.ofNat (a + 0xE0) < 0x80 := by
    rw [UInt8.lt_iff_toNat_lt, byte1]
    exact Nat.not_lt.mpr (Nat.le_trans (by decide) (Nat.le_add_left 0xE0 a))
  have two : ¬ (0xC2 ≤ UInt8.ofNat (a + 0xE0) ∧ UInt8.ofNat (a + 0xE0) < 0xE0) := by
    rw [UInt8.lt_iff_toNat_lt, byte1]
    exact fun leads => Nat.not_lt.mpr (Nat.le_add_left 0xE0 a) leads.2
  have leads : 0xE0 ≤ UInt8.ofNat (a + 0xE0) ∧ UInt8.ofNat (a + 0xE0) < 0xF0 := by
    rw [UInt8.le_iff_toNat_le, UInt8.lt_iff_toNat_lt, byte1]
    exact ⟨Nat.le_add_left 0xE0 a, show a + 0xE0 < 0xF0 by omega⟩
  have long : overlong3 (UInt8.ofNat (a + 0xE0)) (UInt8.ofNat (m + 0x80)) = false := by
    rw [overlong3_bytes first second, decide_eq_false shortest]
  have value : scalar3 (UInt8.ofNat (a + 0xE0)) (UInt8.ofNat (m + 0x80)) (UInt8.ofNat (n + 0x80)) =
      a * 4096 + m * 64 + n := by
    rw [scalar3, byte1, byte2, byte3]
    omega
  have surrogate : ¬ (0xD800 ≤ a * 4096 + m * 64 + n ∧ a * 4096 + m * 64 + n < 0xE000) := by omega
  rw [decode.eq_def]
  simp only [ascii, two, leads, ↓reduceIte, and_self, long, continuation_byte second,
    continuation_byte third, Bool.not_true, Bool.or_self, Bool.false_eq_true, value, surrogate]

theorem decode_four {a l m n : Nat} (rest : List UInt8) (first : a < 5) (second : l < 64)
    (third : m < 64) (fourth : n < 64) (range : ¬ (a = 0 ∧ l < 16 ∨ a = 4 ∧ 16 ≤ l)) :
    decode (UInt8.ofNat (a + 0xF0) :: UInt8.ofNat (l + 0x80) :: UInt8.ofNat (m + 0x80) ::
        UInt8.ofNat (n + 0x80) :: rest) =
      Char.ofNat (a * 262144 + l * 4096 + m * 64 + n) :: decode rest := by
  have byte1 := toNat_byte (show a + 0xF0 < 256 by omega)
  have byte2 := toNat_byte (show l + 0x80 < 256 by omega)
  have byte3 := toNat_byte (show m + 0x80 < 256 by omega)
  have byte4 := toNat_byte (show n + 0x80 < 256 by omega)
  have ascii : ¬ UInt8.ofNat (a + 0xF0) < 0x80 := by
    rw [UInt8.lt_iff_toNat_lt, byte1]
    exact Nat.not_lt.mpr (Nat.le_trans (by decide) (Nat.le_add_left 0xF0 a))
  have two : ¬ (0xC2 ≤ UInt8.ofNat (a + 0xF0) ∧ UInt8.ofNat (a + 0xF0) < 0xE0) := by
    rw [UInt8.lt_iff_toNat_lt, byte1]
    exact fun leads => Nat.not_lt.mpr (Nat.le_trans (by decide) (Nat.le_add_left 0xF0 a)) leads.2
  have three : ¬ (0xE0 ≤ UInt8.ofNat (a + 0xF0) ∧ UInt8.ofNat (a + 0xF0) < 0xF0) := by
    rw [UInt8.lt_iff_toNat_lt, byte1]
    exact fun leads => Nat.not_lt.mpr (Nat.le_add_left 0xF0 a) leads.2
  have leads : 0xF0 ≤ UInt8.ofNat (a + 0xF0) ∧ UInt8.ofNat (a + 0xF0) ≤ 0xF4 := by
    rw [UInt8.le_iff_toNat_le, UInt8.le_iff_toNat_le, byte1]
    exact ⟨Nat.le_add_left 0xF0 a, show a + 0xF0 ≤ 0xF4 by omega⟩
  have formed : malformed4 (UInt8.ofNat (a + 0xF0)) (UInt8.ofNat (l + 0x80)) = false := by
    rw [malformed4_bytes first second, decide_eq_false range]
  have value : scalar4 (UInt8.ofNat (a + 0xF0)) (UInt8.ofNat (l + 0x80)) (UInt8.ofNat (m + 0x80))
      (UInt8.ofNat (n + 0x80)) = a * 262144 + l * 4096 + m * 64 + n := by
    rw [scalar4, byte1, byte2, byte3, byte4]
    omega
  rw [decode.eq_def]
  simp only [ascii, two, three, leads, ↓reduceIte, and_self, formed, continuation_byte third,
    continuation_byte fourth, Bool.not_true, Bool.false_eq_true, value]

/- The encoding of a character is decoded before anything that follows it is looked at. -/
theorem decode_char (c : Char) (rest : List UInt8) :
    decode (String.utf8EncodeChar c ++ rest) = c :: decode rest := by
  have value : c.val.toNat = c.toNat := rfl
  have scalar : c.toNat < 0xD800 ∨ 0xDFFF < c.toNat ∧ c.toNat < 0x110000 := c.valid
  have same : Char.ofNat c.toNat = c := Char.ofNat_toNat c
  rw [String.utf8EncodeChar]
  simp only [value]
  split
  · rw [List.cons_append, List.nil_append, decode_one rest (by omega), same]
  split
  · rw [List.cons_append, List.cons_append, List.nil_append,
      decode_two rest (by omega) (by omega) (by omega)]
    have joined : c.toNat / 64 % 32 * 64 + c.toNat % 64 = c.toNat := by omega
    rw [joined, same]
  split
  · rw [List.cons_append, List.cons_append, List.cons_append, List.nil_append,
      decode_three rest (by omega) (by omega) (by omega) (by omega) (by omega)]
    have joined : c.toNat / 4096 % 16 * 4096 + c.toNat / 64 % 64 * 64 + c.toNat % 64 =
        c.toNat := by omega
    rw [joined, same]
  · rw [List.cons_append, List.cons_append, List.cons_append, List.cons_append, List.nil_append,
      decode_four rest (by omega) (by omega) (by omega) (by omega) (by omega)]
    have joined : c.toNat / 262144 % 8 * 262144 + c.toNat / 4096 % 64 * 4096 +
        c.toNat / 64 % 64 * 64 + c.toNat % 64 = c.toNat := by omega
    rw [joined, same]

theorem decode_encode (text : List Char) : decode (encode text) = text := by
  induction text with
  | nil => rfl
  | cons c text ih => rw [encode_cons, decode_char, ih]

theorem encode_append (a b : List Char) : encode (a ++ b) = encode a ++ encode b :=
  List.flatMap_append

/- The encoding ends with a zero byte when the text ends with NUL. -/
theorem last_zero_iff (text : List Char) :
    (encode text).getLast? = some 0 ↔ text.getLast? = some '\x00' := by
  rcases List.eq_nil_or_concat text with rfl | ⟨text, c, rfl⟩
  · simp [encode]
  · rw [List.concat_eq_append, encode_append, encode_cons, encode_nil, List.append_nil,
      List.getLast?_append, List.getLast?_concat]
    obtain ⟨b, last⟩ := Option.ne_none_iff_exists'.mp fun none =>
      String.utf8EncodeChar_ne_nil (c := c) (List.getLast?_eq_none_iff.mp none)
    rw [last, Option.some_or, Option.some.injEq, Option.some.injEq]
    constructor
    · rintro rfl
      by_contra other
      exact encode_char_ne_zero other 0 (List.mem_of_getLast? last) rfl
    · rintro rfl
      rw [encode_char_nul] at last
      exact (Option.some.inj last).symm

example : decode (encode "zero\x00 öä€𝄞".toList) = "zero\x00 öä€𝄞".toList := by decide +kernel

end Utf8
