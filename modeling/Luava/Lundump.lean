import Luava.Lstring
import Luava.Numbers
import Luava.Readers

/-
Precompiled chunks: ldump.c, which writes a prototype block by block, and lundump.c, which reads
it back through the buffered streams of lzio.c. Arrays of machine words are little-endian.
-/
namespace Luava.Lundump

open Lstring Readers

def MAX_SIZE : Nat := 2 ^ 63 - 1
def LUA_MAXUNSIGNED : Nat := 2 ^ 64 - 1

def text (s : String) : List UInt8 := Utf8.encode s.toList

def LUA_SIGNATURE : List UInt8 := 0x1B :: text "Lua"
def LUAC_VERSION : UInt8 := 5 * 16 + 5
def LUAC_FORMAT : UInt8 := 0
def LUAC_DATA : List UInt8 := [0x19, 0x93, 13, 10, 0x1A, 10]
def LUAC_INST : Nat := 0x12345678
def LUAC_NUM : Binary64 := ⟨0xC077280000000000⟩

/- LUAC_INT is -0x5678, as an int and as a lua_Integer. -/
def LUAC_INT32 : Nat := 2 ^ 32 - 0x5678
def LUAC_INT64 : Nat := 2 ^ 64 - 0x5678

def LUA_VNIL : UInt8 := 0
def LUA_VFALSE : UInt8 := 1
def LUA_VTRUE : UInt8 := 17
def LUA_VNUMINT : UInt8 := 3
def LUA_VNUMFLT : UInt8 := 19
def LUA_VSHRSTR : UInt8 := 4
def LUA_VLNGSTR : UInt8 := 20

def PF_FIXED : UInt8 := 4

/- The w low bytes of a number in memory. -/
def leBytes : Nat → Nat → List UInt8
  | 0, _ => []
  | w + 1, n => UInt8.ofNat n :: leBytes w (n / 256)

def ofLeBytes : List UInt8 → Nat
  | [] => 0
  | b :: rest => b.toNat + 256 * ofLeBytes rest

/- The first n words of w bytes. -/
def words (w : Nat) : Nat → List UInt8 → List Nat
  | 0, _ => []
  | n + 1, bytes => ofLeBytes (bytes.take w) :: words w n (bytes.drop w)

abbrev TString := List UInt8

inductive Constant
  | nil
  | boolean (b : Bool)
  | flt (n : Binary64)
  | int (i : Int64)
  | str (s : TString)
  deriving DecidableEq, Repr

def Constant.ttypetag : Constant → UInt8
  | nil => LUA_VNIL
  | boolean b => if b then LUA_VTRUE else LUA_VFALSE
  | flt _ => LUA_VNUMFLT
  | int _ => LUA_VNUMINT
  | str s => if s.length ≤ LUAI_MAXSHORTLEN then LUA_VSHRSTR else LUA_VLNGSTR

structure Upvaldesc where
  name : Option TString
  instack : UInt8
  idx : UInt8
  kind : UInt8
  deriving DecidableEq, Repr

structure LocVar where
  varname : Option TString
  startpc : Nat
  endpc : Nat
  deriving DecidableEq, Repr

structure AbsLineInfo where
  pc : UInt32
  line : UInt32
  deriving DecidableEq, Repr

/- The entry in eight bytes of memory. -/
def unpair (i : Nat) : AbsLineInfo := ⟨UInt32.ofNat i, UInt32.ofNat (i / 2 ^ 32)⟩

/-- A prototype. -/
structure Proto where
  numparams : UInt8
  flag : UInt8
  maxstacksize : UInt8
  linedefined : Nat
  lastlinedefined : Nat
  k : List Constant
  code : List UInt32
  p : List Proto
  upvalues : List Upvaldesc
  lineinfo : List UInt8
  abslineinfo : List AbsLineInfo
  locvars : List LocVar
  source : Option TString

/-- The state of a dump. The writer gives the status for a block after the blocks it had before. -/
structure DumpState where
  writer : List (List UInt8) → List UInt8 → Int
  written : List (List UInt8)
  offset : Nat
  strip : Bool
  status : Int
  h : TString → Option Nat
  nstr : Nat

/- The loop of dumpVarint for the bytes before the last one. x has 64 bits, so there are at most
   ten bytes. -/
def varintFront : Nat → Nat → List UInt8 → List UInt8
  | 0, _, buff => buff
  | steps + 1, x, buff =>
    let x := x >>> 7
    if x = 0 then buff else varintFront steps x (UInt8.ofNat (x &&& 0x7F ||| 0x80) :: buff)

def varint (x : Nat) : List UInt8 := varintFront 9 x [UInt8.ofNat (x &&& 0x7F)]

namespace DumpState

def dumpBlock (b : List UInt8) (D : DumpState) : DumpState :=
  if D.status = 0 then
    { D with
      written := D.written ++ [b]
      status := D.writer D.written b
      offset := D.offset + b.length }
  else D

def dumpAlign (align : Nat) (D : DumpState) : DumpState :=
  let padding := align - D.offset % align
  if padding < align then D.dumpBlock (List.replicate padding 0) else D

def dumpByte (x : UInt8) (D : DumpState) : DumpState := D.dumpBlock [x]

def dumpVarint (x : Nat) (D : DumpState) : DumpState := D.dumpBlock (varint x)

def dumpSize (sz : Nat) (D : DumpState) : DumpState := D.dumpVarint sz

def dumpInt (x : Nat) (D : DumpState) : DumpState := D.dumpVarint x

def dumpNumber (x : Binary64) (D : DumpState) : DumpState :=
  D.dumpBlock (leBytes 8 x.bits.toNat)

def dumpInteger (x : Int64) (D : DumpState) : DumpState :=
  D.dumpVarint (if 0 ≤ x then 2 * x.toUInt64 else 2 * ~~~x.toUInt64 + 1).toNat

def dumpString (ts : Option TString) (D : DumpState) : DumpState :=
  match ts with
  | none => D |>.dumpVarint 0 |>.dumpVarint 0
  | some s =>
    match D.h s with
    | some idx => D |>.dumpVarint 0 |>.dumpVarint idx
    | none =>
      let D := D |>.dumpSize (s.length + 1) |>.dumpBlock (s ++ [0])
      { D with nstr := D.nstr + 1, h := Function.update D.h s (some (D.nstr + 1)) }

def dumpCode (f : Proto) (D : DumpState) : DumpState :=
  D |>.dumpInt f.code.length
    |>.dumpAlign 4
    |>.dumpBlock (f.code.flatMap fun i => leBytes 4 i.toNat)

/- The body of the loop of dumpConstants. -/
def dumpConstant (o : Constant) (D : DumpState) : DumpState :=
  let D := D.dumpByte o.ttypetag
  match o with
  | .flt n => D.dumpNumber n
  | .int i => D.dumpInteger i
  | .str s => D.dumpString (some s)
  | _ => D

def dumpConstants (f : Proto) (D : DumpState) : DumpState :=
  f.k.foldl (fun D o => D.dumpConstant o) (D.dumpInt f.k.length)

def dumpUpvalue (u : Upvaldesc) (D : DumpState) : DumpState :=
  D |>.dumpByte u.instack |>.dumpByte u.idx |>.dumpByte u.kind

def dumpUpvalues (f : Proto) (D : DumpState) : DumpState :=
  f.upvalues.foldl (fun D u => D.dumpUpvalue u) (D.dumpInt f.upvalues.length)

def dumpLocVar (v : LocVar) (D : DumpState) : DumpState :=
  D |>.dumpString v.varname |>.dumpInt v.startpc |>.dumpInt v.endpc

/- An empty lineinfo is a null pointer, but for one in a fixed buffer. -/
def dumpLineinfo (f : Proto) (D : DumpState) : DumpState :=
  let lineinfo := if D.strip then [] else f.lineinfo
  let D := D.dumpInt lineinfo.length
  if f.lineinfo ≠ [] ∨ f.flag &&& PF_FIXED ≠ 0 then D.dumpBlock lineinfo else D

def dumpAbslineinfo (f : Proto) (D : DumpState) : DumpState :=
  let abslineinfo := if D.strip then [] else f.abslineinfo
  let D := D.dumpInt abslineinfo.length
  if 0 < abslineinfo.length then
    D |>.dumpAlign 4
      |>.dumpBlock (abslineinfo.flatMap fun i => leBytes 4 i.pc.toNat ++ leBytes 4 i.line.toNat)
  else D

def dumpLocvars (f : Proto) (D : DumpState) : DumpState :=
  let locvars := if D.strip then [] else f.locvars
  locvars.foldl (fun D v => D.dumpLocVar v) (D.dumpInt locvars.length)

def dumpUpvalueNames (f : Proto) (D : DumpState) : DumpState :=
  let upvalues := if D.strip then [] else f.upvalues
  upvalues.foldl (fun D u => D.dumpString u.name) (D.dumpInt upvalues.length)

def dumpDebug (f : Proto) (D : DumpState) : DumpState :=
  D |>.dumpLineinfo f |>.dumpAbslineinfo f |>.dumpLocvars f |>.dumpUpvalueNames f

mutual

def dumpFunction : Proto → DumpState → DumpState
  | f@⟨_, _, _, _, _, _, _, p, _, _, _, _, _⟩, D =>
    let D := D
      |>.dumpInt f.linedefined
      |>.dumpInt f.lastlinedefined
      |>.dumpByte f.numparams
      |>.dumpByte f.flag
      |>.dumpByte f.maxstacksize
      |>.dumpCode f
      |>.dumpConstants f
      |>.dumpUpvalues f
    let D := dumpProtos p (D.dumpInt f.p.length)
    D |>.dumpString (if D.strip then none else f.source) |>.dumpDebug f

/- The loop of dumpProtos. -/
def dumpProtos : List Proto → DumpState → DumpState
  | [], D => D
  | f :: rest, D => dumpProtos rest (dumpFunction f D)

end

/- dumpNumInfo. -/
def dumpNumInfo (size : Nat) (value : Nat) (D : DumpState) : DumpState :=
  D |>.dumpByte (UInt8.ofNat size) |>.dumpBlock (leBytes size value)

def dumpHeader (D : DumpState) : DumpState :=
  D |>.dumpBlock LUA_SIGNATURE
    |>.dumpByte LUAC_VERSION
    |>.dumpByte LUAC_FORMAT
    |>.dumpBlock LUAC_DATA
    |>.dumpNumInfo 4 LUAC_INT32
    |>.dumpNumInfo 4 LUAC_INST
    |>.dumpNumInfo 8 LUAC_INT64
    |>.dumpNumInfo 8 LUAC_NUM.bits.toNat

end DumpState

/-- luaU_dump; the state at the end tells the blocks and the status. -/
def luaUDump (f : Proto) (writer : List (List UInt8) → List UInt8 → Int) (strip : Bool) :
    DumpState :=
  let D : DumpState :=
    { writer := writer, written := [], offset := 0, strip := strip, status := 0
      h := fun _ => none, nstr := 0 }
  D |>.dumpHeader
    |>.dumpByte (UInt8.ofNat f.upvalues.length)
    |>.dumpFunction f
    |>.dumpBlock []

/-- A buffered stream: the bytes of the current block, and the blocks the reader has yet to
    give. -/
structure Zio where
  buffer : List UInt8
  blocks : List (List UInt8)
  deriving DecidableEq, Repr

namespace Zio

/- What the reader gives up to its end. -/
def given : List (List UInt8) → List UInt8
  | [] => []
  | [] :: _ => []
  | block :: blocks => block ++ given blocks

def contents (z : Zio) : List UInt8 := z.buffer ++ given z.blocks

/-- luaZ_fill; none is EOZ. -/
def luaZFill (z : Zio) : Option (UInt8 × Zio) :=
  match z.blocks with
  | (b :: buffer) :: blocks => some (b, ⟨buffer, blocks⟩)
  | _ => none

def zgetc (z : Zio) : Option (UInt8 × Zio) :=
  match z.buffer with
  | b :: buffer => some (b, { z with buffer := buffer })
  | [] => z.luaZFill

def checkbuffer (z : Zio) : Option Zio :=
  match z.buffer with
  | [] => z.luaZFill.map fun filled => { filled.2 with buffer := filled.1 :: filled.2.buffer }
  | _ => some z

/- The loop of luaZ_read, which copies at least one byte a turn: the number of missing bytes, and
   what it has read. -/
def luaZReadLoop : Nat → Nat → Zio → Nat × List UInt8 × Zio
  | 0, n, z => (n, [], z)
  | steps + 1, n, z =>
    if n = 0 then (0, [], z)
    else
      match z.checkbuffer with
      | none => (n, [], z)
      | some z =>
        let m := if n ≤ z.buffer.length then n else z.buffer.length
        let (missing, rest, z') :=
          luaZReadLoop steps (n - m) { z with buffer := z.buffer.drop m }
        (missing, z.buffer.take m ++ rest, z')

def luaZRead (n : Nat) (z : Zio) : Nat × List UInt8 × Zio := luaZReadLoop n n z

def luaZGetaddr (n : Nat) (z : Zio) : Option (List UInt8 × Zio) :=
  match z.checkbuffer with
  | none => none
  | some z =>
    if z.buffer.length < n then none
    else some (z.buffer.take n, { z with buffer := z.buffer.drop n })

end Zio

structure LoadState where
  Z : Zio
  name : List UInt8
  h : Nat → Option TString
  offset : Nat
  nstr : Nat
  fixed : Bool

/-- The loader; an error is its message. -/
abbrev Load := StateT LoadState (Except (List UInt8))

def errorMessage (name why : List UInt8) : List UInt8 :=
  name ++ text ": bad binary format (" ++ why ++ text ")"

def error {α : Type} (why : List UInt8) : Load α :=
  fun S => .error (errorMessage S.name why)

def truncatedChunk : List UInt8 := text "truncated chunk"
def truncatedFixedBuffer : List UInt8 := text "truncated fixed buffer"

def loadBlock (size : Nat) : Load (List UInt8) := fun S =>
  let (missing, b, Z) := S.Z.luaZRead size
  if missing ≠ 0 then error truncatedChunk S
  else .ok (b, { S with Z := Z, offset := S.offset + size })

def loadAlign (align : Nat) : Load Unit := fun S =>
  let padding := align - S.offset % align
  if padding < align then (loadBlock padding S).map fun made => ((), made.2)
  else .ok ((), S)

/-- getaddr_ -/
def getaddr (size : Nat) : Load (List UInt8) := fun S =>
  match S.Z.luaZGetaddr size with
  | none => error truncatedFixedBuffer S
  | some (block, Z) => .ok (block, { S with Z := Z, offset := S.offset + size })

/- A vector, whose memory a fixed buffer lends. -/
def loadVector (size : Nat) : Load (List UInt8) := fun S =>
  if S.fixed then getaddr size S else loadBlock size S

def loadByte : Load UInt8 := fun S =>
  match S.Z.zgetc with
  | none => error truncatedChunk S
  | some (b, Z) => .ok (b, { S with Z := Z, offset := S.offset + 1 })

/- The loop of loadVarint. The input ends before the turns do. -/
def loadVarintLoop (limit : Nat) : Nat → Nat → Load Nat
  | 0, _ => error truncatedChunk
  | turns + 1, x => do
    let b ← loadByte
    if limit < x then error (text "integer overflow")
    else
      let x := x <<< 7 ||| (b &&& 0x7F).toNat
      if b &&& 0x80 ≠ 0 then loadVarintLoop limit turns x else return x

def loadVarint (limit : Nat) : Load Nat := fun S =>
  loadVarintLoop (limit >>> 7) (S.Z.contents.length + 1) 0 S

def loadSize : Load Nat := loadVarint MAX_SIZE

def loadInt : Load Nat := loadVarint INT_MAX

def loadNumber : Load Binary64 := do
  let b ← loadBlock 8
  return ⟨UInt64.ofNat (ofLeBytes b)⟩

def loadInteger : Load Int64 := do
  let cx ← loadVarint LUA_MAXUNSIGNED
  return if UInt64.ofNat cx &&& 1 ≠ 0 then (~~~(UInt64.ofNat cx >>> 1)).toInt64
    else (UInt64.ofNat cx >>> 1).toInt64

/- A new string joins the list of saved strings. -/
def saveString (ts : TString) : Load (Option TString) := fun S =>
  .ok (some ts, { S with nstr := S.nstr + 1, h := Function.update S.h (S.nstr + 1) (some ts) })

/- The string of the list at an index. -/
def savedString (idx : Nat) : Load TString := fun S =>
  match S.h idx with
  | none => error (text "invalid string index") S
  | some ts => .ok (ts, S)

def loadString : Load (Option TString) := do
  let size ← loadSize
  if size = 0 then
    let idx ← loadVarint LUA_MAXUNSIGNED
    if idx = 0 then return none
    else
      let ts ← savedString idx
      return some ts
  else
    let b ← if size - 1 ≤ LUAI_MAXSHORTLEN then loadBlock size else loadVector size
    saveString (b.take (size - 1))

def loadCode : Load (List UInt32) := do
  let n ← loadInt
  loadAlign 4
  let b ← loadVector (n * 4)
  return (words 4 n b).map UInt32.ofNat

/- A constant of type t. -/
def loadConstantOf (t : UInt8) : Load Constant :=
  if t = LUA_VNIL then return .nil
  else if t = LUA_VFALSE then return .boolean false
  else if t = LUA_VTRUE then return .boolean true
  else if t = LUA_VNUMFLT then do
    let n ← loadNumber
    return .flt n
  else if t = LUA_VNUMINT then do
    let i ← loadInteger
    return .int i
  else if t = LUA_VSHRSTR ∨ t = LUA_VLNGSTR then do
    match ← loadString with
    | none => error (text "bad format for constant string")
    | some s => return .str s
  else error (text "invalid constant")

/- The body of the loop of loadConstants. -/
def loadConstant : Load Constant := do
  let t ← loadByte
  loadConstantOf t

/- An array behind its length. -/
def loadArray {α : Type} (load : Load α) : Load (List α) := do
  let n ← loadInt
  times load n

def loadConstants : Load (List Constant) := loadArray loadConstant

def loadUpvalue : Load Upvaldesc := do
  let instack ← loadByte
  let idx ← loadByte
  let kind ← loadByte
  return ⟨none, instack, idx, kind⟩

def loadUpvalues : Load (List Upvaldesc) := loadArray loadUpvalue

def loadLineinfo : Load (List UInt8) := do
  let n ← loadInt
  loadVector n

def loadAbslineinfo : Load (List AbsLineInfo) := do
  let n ← loadInt
  if 0 < n then
    loadAlign 4
    let b ← loadVector (n * 8)
    return (words 8 n b).map unpair
  else return []

def loadLocVar : Load LocVar := do
  let varname ← loadString
  let startpc ← loadInt
  let endpc ← loadInt
  return ⟨varname, startpc, endpc⟩

def loadLocvars : Load (List LocVar) := loadArray loadLocVar

/- The names of the upvalues, if there are any. -/
def loadUpvalueNames (upvalues : List Upvaldesc) : Load (List Upvaldesc) := do
  let n ← loadInt
  let names ← times loadString (if n ≠ 0 then upvalues.length else 0)
  return if n ≠ 0 then List.zipWith (fun name u => { u with name := name }) names upvalues
    else upvalues

def loadFlag : Load UInt8 := fun S =>
  (loadByte S).map fun made =>
    ((made.1 &&& ~~~PF_FIXED) ||| (if S.fixed then PF_FIXED else 0), made.2)

/- The functions inside a function begin further on in the input, so that it ends before the
   depth does. -/
def loadFunction : Nat → Load Proto
  | 0 => error truncatedChunk
  | depth + 1 => do
    let linedefined ← loadInt
    let lastlinedefined ← loadInt
    let numparams ← loadByte
    let flag ← loadFlag
    let maxstacksize ← loadByte
    let code ← loadCode
    let k ← loadConstants
    let upvalues ← loadUpvalues
    let p ← loadArray (loadFunction depth)
    let source ← loadString
    let lineinfo ← loadLineinfo
    let abslineinfo ← loadAbslineinfo
    let locvars ← loadLocvars
    let upvalues ← loadUpvalueNames upvalues
    return ⟨numparams, flag, maxstacksize, linedefined, lastlinedefined, k, code, p, upvalues,
      lineinfo, abslineinfo, locvars, source⟩

def checkliteral (s msg : List UInt8) : Load Unit := do
  let buff ← loadBlock s.length
  if buff ≠ s then error msg else return

def numerror {α : Type} (what tname : List UInt8) : Load α :=
  error (tname ++ text " " ++ what ++ text " mismatch")

/- checknum for a type of the given size; eq compares the value that is read. -/
def checknum (size : Nat) (eq : Nat → Bool) (tname : List UInt8) : Load Unit := do
  let b ← loadByte
  if b ≠ UInt8.ofNat size then numerror (text "size") tname
  else
    let i ← loadBlock size
    if eq (ofLeBytes i) = false then numerror (text "format") tname else return

/- checkHeader behind the signature. -/
def checkFormat : Load Unit := do
  let version ← loadByte
  if version ≠ LUAC_VERSION then error (text "version mismatch")
  else
    let format ← loadByte
    if format ≠ LUAC_FORMAT then error (text "format mismatch")
    else
      checkliteral LUAC_DATA (text "corrupted chunk")
      checknum 4 (· == LUAC_INT32) (text "int")
      checknum 4 (· == LUAC_INST) (text "instruction")
      checknum 8 (· == LUAC_INT64) (text "Lua integer")
      checknum 8 (fun i => Binary64.eq ⟨UInt64.ofNat i⟩ LUAC_NUM) (text "Lua number")

def checkHeader : Load Unit := do
  checkliteral LUA_SIGNATURE.tail (text "not a binary chunk")
  checkFormat

structure LClosure where
  nupvalues : Nat
  p : Proto

/- The name of a chunk in its errors. -/
def chunkName : List UInt8 → List UInt8
  | [] => []
  | c :: rest =>
    if c = 64 ∨ c = 61 then rest
    else if c = 0x1B then text "binary string"
    else c :: rest

/- The main function. -/
def loadMain : Load Proto := fun S => loadFunction (S.Z.contents.length + 1) S

/- luaU_undump behind its first byte. -/
def loadChunk : Load LClosure := do
  checkHeader
  let nupvalues ← loadByte
  let p ← loadMain
  if nupvalues.toNat ≠ p.upvalues.length then error (text "corrupted chunk")
  else return ⟨nupvalues.toNat, p⟩

def luaUUndump (Z : Zio) (name : List UInt8) (fixed : Bool) :
    Except (List UInt8) (LClosure × Zio) :=
  (loadChunk ⟨Z, chunkName name, fun _ => none, 1, 0, fixed⟩).map fun made => (made.1, made.2.Z)

/- checkmode; true when the mode allows the kind of chunk x. -/
def checkmode (mode x : List UInt8) : Except (List UInt8) Unit :=
  if x.head?.any (mode.contains ·) then .ok ()
  else .error (text "attempt to load a " ++ x ++ text " chunk (mode is '" ++ mode ++ text "')")

/-- f_parser, over the compiler for chunks in text, which gets the first byte. -/
def fParser (luaYParser : Zio → Option UInt8 → Except (List UInt8) (LClosure × Zio))
    (mode : Option (List UInt8)) (name : List UInt8) (z : Zio) :
    Except (List UInt8) (LClosure × Zio) :=
  let mode := mode.getD (text "bt")
  match z.zgetc with
  | some (0x1B, z) =>
    if mode.contains 66 then luaUUndump z name true
    else do
      checkmode mode (text "binary")
      luaUUndump z name false
  | some (c, z) => do
    checkmode mode (text "text")
    luaYParser z (some c)
  | none => do
    checkmode mode (text "text")
    luaYParser z none

end Luava.Lundump
