import Luava.Utf8
import Mathlib.Algebra.Group.Nat.Defs
import Mathlib.Logic.Function.Basic

/-
The strings of a state (lstring.c): the table that keeps one object for every short string, the
cache for the C strings of the API, and what the collector does to both.
-/
namespace Luava.Lstring

def LUAI_MAXSHORTLEN : Nat := 40
def INT_MAX : Nat := 2 ^ 31 - 1
def MAXSTRTB : Nat := INT_MAX
def MINSTRTABSIZE : Nat := 128
def STRCACHE_N : Nat := 53
def STRCACHE_M : Nat := 2
def MEMERRMSG : List UInt8 := Utf8.encode "not enough memory".toList

abbrev Addr := Nat

/-- A string object. dead tells that it has the white of the last cycle. -/
structure TString where
  bytes : List UInt8
  short : Bool
  hash : UInt32
  dead : Bool

/-- mem are the objects that have not been freed; hnext is the link of the short ones, and hash,
   size and nuse are the string table. -/
structure Strings where
  mem : Addr → Option TString
  hnext : Addr → Option Addr
  hash : Nat → Option Addr
  size : Nat
  nuse : Nat
  seed : UInt32
  strcache : Nat → Nat → Addr
  memerrmsg : Addr

def luaSHash (str : List UInt8) (seed : UInt32) : UInt32 :=
  str.foldr (fun c h => h ^^^ ((h <<< 5) + (h >>> 2) + c.toUInt32)) (seed ^^^ str.length.toUInt32)

def lmod (s : UInt32) (size : Nat) : Nat := s.toNat &&& (size - 1)

namespace Strings

def contents (S : Strings) (ts : Addr) : List UInt8 :=
  match S.mem ts with
  | some t => t.bytes
  | none => []

def hashOf (S : Strings) (ts : Addr) : UInt32 :=
  match S.mem ts with
  | some t => t.hash
  | none => 0

/- The inner loop of tablerehash. A list has no more strings than the table. -/
def rehashList (nsize : Nat) : Nat → Option Addr → Strings → Strings
  | 0, _, S => S
  | _, none, S => S
  | steps + 1, some p, S =>
    let h := lmod (S.hashOf p) nsize
    rehashList nsize steps (S.hnext p)
      { S with
        hnext := Function.update S.hnext p (S.hash h)
        hash := Function.update S.hash h (some p) }

/- The lists from i on. -/
def rehashFrom (nsize : Nat) : Nat → Nat → Strings → Strings
  | 0, _, S => S
  | left + 1, i, S =>
    rehashFrom nsize left (i + 1)
      (rehashList nsize S.nuse (S.hash i) { S with hash := Function.update S.hash i none })

def tablerehash (osize nsize : Nat) (S : Strings) : Strings :=
  rehashFrom nsize osize 0
    { S with hash := fun i => if osize ≤ i ∧ i < nsize then none else S.hash i }

/-- luaS_resize; allocated tells whether the reallocation succeeded. -/
def luaSResize (nsize : Nat) (allocated : Bool) (S : Strings) : Strings :=
  let osize := S.size
  let S := if nsize < osize then S.tablerehash osize nsize else S
  if allocated then
    let S := { S with size := nsize }
    if osize < nsize then S.tablerehash osize nsize else S
  else if nsize < osize then S.tablerehash nsize osize
  else S

/- growstrtab; none is its memory error. The full collection it tries first consists of steps of
   the collector. -/
def growstrtab (allocated : Bool) (S : Strings) : Option Strings :=
  if S.nuse = INT_MAX then none
  else if S.size ≤ MAXSTRTB / 2 then some (S.luaSResize (S.size * 2) allocated)
  else some S

/- The loop of internshrstr. -/
def findshrstr (S : Strings) (str : List UInt8) : Nat → Option Addr → Option Addr
  | 0, _ => none
  | _, none => none
  | steps + 1, some ts =>
    if S.contents ts = str then some ts else findshrstr S str steps (S.hnext ts)

def changewhite (S : Strings) (ts : Addr) : Strings :=
  { S with mem := Function.update S.mem ts ((S.mem ts).map fun t => { t with dead := false }) }

/-- internshrstr; fresh is the address of a new object. -/
def internshrstr (str : List UInt8) (fresh : Addr) (allocated : Bool) (S : Strings) :
    Option (Addr × Strings) :=
  let h := luaSHash str S.seed
  match S.findshrstr str S.nuse (S.hash (lmod h S.size)) with
  | some ts => some (ts, S.changewhite ts)
  | none => do
    let S ← if S.size ≤ S.nuse then S.growstrtab allocated else some S
    let list := lmod h S.size
    return (fresh, { S with
      mem := Function.update S.mem fresh (some ⟨str, true, h, false⟩)
      hnext := Function.update S.hnext fresh (S.hash list)
      hash := Function.update S.hash list (some fresh)
      nuse := S.nuse + 1 })

/- luaS_createlngstrobj with the bytes, whose hash is the seed until it is asked for. -/
def createlngstr (str : List UInt8) (fresh : Addr) (S : Strings) : Addr × Strings :=
  (fresh, { S with mem := Function.update S.mem fresh (some ⟨str, false, S.seed, false⟩) })

/-- luaS_newextlstr: an external string is a long one, whatever its length. -/
def luaSNewextlstr (str : List UInt8) (fresh : Addr) (S : Strings) : Addr × Strings :=
  S.createlngstr str fresh

def luaSNewlstr (str : List UInt8) (fresh : Addr) (allocated : Bool) (S : Strings) :
    Option (Addr × Strings) :=
  if str.length ≤ LUAI_MAXSHORTLEN then S.internshrstr str fresh allocated
  else some (S.createlngstr str fresh)

/- The first entry of a set of the cache, from j on, whose C string is str. -/
def cacheHit (S : Strings) (str : List UInt8) (i : Nat) : Nat → Nat → Option Addr
  | 0, _ => none
  | left + 1, j =>
    if Utf8.cString (S.contents (S.strcache i j)) = str then some (S.strcache i j)
    else cacheHit S str i left (j + 1)

/-- luaS_new for a C string at address point. -/
def luaSNew (point : Nat) (str : List UInt8) (fresh : Addr) (allocated : Bool) (S : Strings) :
    Option (Addr × Strings) :=
  let i := point % STRCACHE_N
  match S.cacheHit str i STRCACHE_M 0 with
  | some ts => some (ts, S)
  | none => do
    let moved := fun j => if j = 0 then S.strcache i 0 else S.strcache i (j - 1)
    let (ts, S) ← { S with strcache := Function.update S.strcache i moved }.luaSNewlstr
      str fresh allocated
    return (ts, { S with
      strcache := Function.update S.strcache i (Function.update (S.strcache i) 0 ts) })

/- luaS_init for the seed of the state, with its message at address fresh. -/
def luaSInit (seed : UInt32) (fresh : Addr) : Option Strings := do
  let S : Strings :=
    { mem := fun _ => none
      hnext := fun _ => none
      hash := fun _ => none
      size := MINSTRTABSIZE
      nuse := 0
      seed := seed
      strcache := fun _ _ => fresh
      memerrmsg := fresh }
  let (memerrmsg, S) ← S.luaSNewlstr MEMERRMSG fresh true
  return { S with memerrmsg := memerrmsg, strcache := fun _ _ => memerrmsg }

/-- luaS_clearcache and the flip of the white at the end of the atomic phase: dead tells which
   objects have not been marked. -/
def atomic (dead : Addr → Bool) (S : Strings) : Strings :=
  { S with
    strcache := fun i j =>
      if i < STRCACHE_N ∧ j < STRCACHE_M ∧ dead (S.strcache i j) then S.memerrmsg
      else S.strcache i j
    mem := fun a => (S.mem a).map fun t => { t with dead := dead a } }

/- The loop of luaS_remove behind the first string of the list. -/
def removeAfter (ts : Addr) : Nat → Addr → Strings → Strings
  | 0, _, S => S
  | steps + 1, p, S =>
    if S.hnext p = some ts then { S with hnext := Function.update S.hnext p (S.hnext ts) }
    else
      match S.hnext p with
      | some q => removeAfter ts steps q S
      | none => S

def luaSRemove (ts : Addr) (S : Strings) : Strings :=
  let i := lmod (S.hashOf ts) S.size
  let S :=
    if S.hash i = some ts then { S with hash := Function.update S.hash i (S.hnext ts) }
    else
      match S.hash i with
      | some p => S.removeAfter ts S.nuse p
      | none => S
  { S with nuse := S.nuse - 1 }

/- freeobj of a string. -/
def freeobj (ts : Addr) (S : Strings) : Strings :=
  let S := if (S.mem ts).any (·.short) then S.luaSRemove ts else S
  { S with mem := Function.update S.mem ts none }

/- checkSizes. -/
def checkSizes (allocated : Bool) (S : Strings) : Strings :=
  if S.nuse < S.size / 4 then S.luaSResize (S.size / 2) allocated else S

end Strings

end Luava.Lstring
