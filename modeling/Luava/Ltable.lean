import Luava.Value
import Mathlib.Logic.Function.Basic

/-
Lua tables as ltable.c stores them: an array part for the keys 1, 2, ... and a hash part whose
nodes are chained by the distance to the next one. Nothing is collected, so the only dead key is
the one of the dummy node.
-/
namespace Luava.Ltable

def LIMFORLAST : Nat := 3
def MAXABITS : Nat := 31
def MAXASIZE : Nat := 2 ^ MAXABITS
def MAXHBITS : Nat := MAXABITS - 1
def MAXHSIZE : Nat := 2 ^ MAXHBITS
def INT_MAX : Nat := 2 ^ 31 - 1
def LUAI_MAXSHORTLEN : Nat := 40

/-- What a key is hashed by: l_hashfloat, the hash of a string under the seed of the state, and
   the low bits of an address. -/
structure Hashes where
  float : Binary64 → Nat
  string : List UInt8 → Nat
  pointer : Value → Nat

/-- The type and value of a node's key. -/
inductive NodeKey where
  | nil
  | dead
  | key (k : Value)
  deriving DecidableEq

/- getnodekey. -/
def NodeKey.value : NodeKey → Value
  | .key k => k
  | _ => .nil

/-- next is the distance to the next node of the chain, 0 at its end. -/
structure Node where
  val : Value
  key : NodeKey
  next : Int

def dummynode : Node := ⟨.nil, .dead, 0⟩

/-- The hash part of a table, with its bit BITDUMMY. A part below 2 ^ LIMFORLAST has no
   lastfree. -/
structure HashPart where
  lsizenode : Nat
  node : Nat → Node
  lastfree : Nat
  isdummy : Bool

namespace HashPart

def sizenode (h : HashPart) : Nat := 2 ^ h.lsizenode
def haslastfree (h : HashPart) : Bool := decide (LIMFORLAST ≤ h.lsizenode)

def hashpow2 (h : HashPart) (n : Nat) : Nat := n &&& (h.sizenode - 1)
def hashmod (h : HashPart) (n : Nat) : Nat := n % ((h.sizenode - 1) ||| 1)

def hashint (h : HashPart) (i : Int64) : Nat :=
  let ui := i.toUInt64.toNat
  if ui ≤ INT_MAX then ui % ((h.sizenode - 1) ||| 1) else h.hashmod ui

def mainpositionTV (hs : Hashes) (h : HashPart) : Value → Nat
  | .integer i => h.hashint i
  | .float n => h.hashmod (hs.float n)
  | .string s => h.hashpow2 (hs.string s)
  | .boolean b => h.hashpow2 (if b then 1 else 0)
  | v => h.hashmod (hs.pointer v)

def mainpositionfromnode (hs : Hashes) (h : HashPart) (nd : Nat) : Nat :=
  h.mainpositionTV hs (h.node nd).key.value

/- equalkey: floats are compared as numbers, other variants by identity. -/
def equalkey (k1 : Value) (n2 : Node) : Bool :=
  match k1, n2.key with
  | .float n, .key (.float m) => n.eq m
  | k, .key k' => k == k'
  | _, _ => false

/-- The loop of every search: from node n on, the first one of the chain that is accepted. A chain
   passes no node twice, so it ends within sizenode steps. -/
def searchChain (h : HashPart) (accepts : Node → Bool) : Nat → Nat → Option Nat
  | 0, _ => none
  | steps + 1, n =>
    if accepts (h.node n) then some n
    else
      let nx := (h.node n).next
      if nx = 0 then none else searchChain h accepts steps ((n : Int) + nx).toNat

def getgeneric (hs : Hashes) (h : HashPart) (key : Value) : Option Nat :=
  h.searchChain (equalkey key) h.sizenode (h.mainpositionTV hs key)

def getintfromhash (h : HashPart) (key : Int64) : Option Nat :=
  h.searchChain (fun n => n.key == .key (.integer key)) h.sizenode (h.hashint key)

def luaHHgetshortstr (hs : Hashes) (h : HashPart) (key : List UInt8) : Option Nat :=
  h.searchChain (fun n => n.key == .key (.string key)) h.sizenode (h.hashpow2 (hs.string key))

def Hgetstr (hs : Hashes) (h : HashPart) (key : List UInt8) : Option Nat :=
  if key.length ≤ LUAI_MAXSHORTLEN then h.luaHHgetshortstr hs key
  else h.getgeneric hs (.string key)

def setNode (h : HashPart) (i : Nat) (n : Node) : HashPart :=
  { h with node := Function.update h.node i n }

def setVal (h : HashPart) (i : Nat) (v : Value) : HashPart :=
  h.setNode i { h.node i with val := v }

def setNodekey (h : HashPart) (i : Nat) (k : Value) : HashPart :=
  h.setNode i { h.node i with key := .key k }

def setNext (h : HashPart) (i : Nat) (distance : Int) : HashPart :=
  h.setNode i { h.node i with next := distance }

/- The last node below i whose key is nil. -/
def freeBelow (h : HashPart) : Nat → Option Nat
  | 0 => none
  | i + 1 => if (h.node i).key = .nil then some i else freeBelow h i

def getfreepos (h : HashPart) : Option Nat × HashPart :=
  if h.haslastfree then
    match h.freeBelow h.lastfree with
    | some free => (some free, { h with lastfree := free })
    | none => (none, { h with lastfree := 0 })
  else (h.freeBelow h.sizenode, h)

/- The node before mp on the chain that starts at othern. -/
def findPrevious (h : HashPart) (mp : Nat) : Nat → Nat → Nat
  | 0, othern => othern
  | steps + 1, othern =>
    let next := ((othern : Int) + (h.node othern).next).toNat
    if next = mp then othern else findPrevious h mp steps next

/-- insertkey: false when there was no free place. -/
def insertkey (hs : Hashes) (h : HashPart) (key value : Value) : Bool × HashPart :=
  let mp := h.mainpositionTV hs key
  if !(h.node mp).val.isNil || h.isdummy then
    match h.getfreepos with
    | (none, h) => (false, h)
    | (some f, h) =>
      let othern := h.mainpositionfromnode hs mp
      if othern ≠ mp then
        -- the colliding node moves to the free place
        let previous := h.findPrevious mp h.sizenode othern
        let h := h.setNext previous ((f : Int) - previous)
        let h := h.setNode f (h.node mp)
        let h :=
          if (h.node mp).next ≠ 0 then
            (h.setNext f ((h.node f).next + ((mp : Int) - f))).setNext mp 0
          else h
        let h := h.setVal mp .nil
        (true, (h.setNodekey mp key).setVal mp value)
      else
        -- the new node goes to the free place
        let h :=
          if (h.node mp).next ≠ 0 then h.setNext f ((mp : Int) + (h.node mp).next - f) else h
        let h := h.setNext mp ((f : Int) - mp)
        (true, (h.setNodekey f key).setVal f value)
  else (true, (h.setNodekey mp key).setVal mp value)

end HashPart

def luaOCeillog2 (x : Nat) : Nat := Nat.clog 2 x

def tableOverflow : String := "table overflow"

/- setnodevector; without elements it is the dummy node. -/
def setnodevector (size : Nat) : Except String HashPart :=
  if size = 0 then .ok ⟨0, fun _ => dummynode, 0, true⟩
  else
    let lsize := luaOCeillog2 size
    if MAXHBITS < lsize ∨ MAXHSIZE < 2 ^ lsize then .error tableOverflow
    else .ok ⟨lsize, fun _ => ⟨.nil, .nil, 0⟩, 2 ^ lsize, false⟩

/-- The events with fast access, those up to TM_EQ. -/
inductive TMS where
  | index | newindex | gc | mode | len | eq
  deriving DecidableEq

def TMS.tmname : TMS → String
  | index => "__index"
  | newindex => "__newindex"
  | gc => "__gc"
  | mode => "__mode"
  | len => "__len"
  | eq => "__eq"

/-- flags tells which events are known to have no field in the table, when it is a metatable.
   array holds the values of the keys 1, 2, ..., with nil for an empty entry, and lenhint is the
   hint for the length operator that is kept beside it. -/
structure Table where
  flags : TMS → Bool
  array : List Value
  lenhint : Nat
  hash : HashPart
  metatable : Option TableId

def checkrange (k : Int64) (limit : Nat) : Nat :=
  if (k.toUInt64 - 1).toNat < limit then k.toUInt64.toUInt32.toNat else 0

def arrayindex (k : Int64) : Nat := checkrange k MAXASIZE

/-- The counts of a rehash: all keys, the array indices, whether there are deleted nodes, and how
   many array indices are in each slice between two powers of 2. -/
structure Counters where
  total : Nat
  na : Nat
  deleted : Bool
  nums : Nat → Nat

namespace Counters

def arrayXhash (na nh : Nat) : Bool := decide (na ≤ nh * 3)

/- The loop of computesizes from slice i on. twotoi, an unsigned int, overflows to 0 after the
   last of its bits, which ends the loop. -/
def sizesFrom (ct : Counters) : Nat → Nat → Nat → Nat → Nat → Nat × Nat
  | 0, _, _, na, optimal => (na, optimal)
  | slices + 1, i, a, na, optimal =>
    let twotoi := 2 ^ i
    if arrayXhash twotoi ct.na then
      let a := a + ct.nums i
      if 0 < ct.nums i ∧ arrayXhash twotoi a then sizesFrom ct slices (i + 1) a a twotoi
      else sizesFrom ct slices (i + 1) a na optimal
    else (na, optimal)

/-- computesizes: the number of keys that go to the array part, and its size. -/
def computesizes (ct : Counters) : Nat × Nat := ct.sizesFrom (MAXABITS + 1) 0 0 0 0

def countint (key : Int64) (ct : Counters) : Counters :=
  let k := arrayindex key
  if k ≠ 0 then
    { ct with
      nums := Function.update ct.nums (luaOCeillog2 k) (ct.nums (luaOCeillog2 k) + 1)
      na := ct.na + 1 }
  else ct

/- numusehash: the nodes below i are left. -/
def numusehash (h : HashPart) : Nat → Counters → Counters
  | 0, ct => ct
  | i + 1, ct =>
    let n := h.node i
    if n.val.isNil then numusehash h i { ct with deleted := true }
    else
      let ct := { ct with total := ct.total + 1 }
      match n.key with
      | .key (.integer k) => numusehash h i (ct.countint k)
      | _ => numusehash h i ct

/- The entries of the slice that starts after from and ends with lim. -/
def slice (array : List Value) (from' lim : Nat) : List Value := (array.take lim).drop from'

/- numusearray from slice lg on, whose entries start after i. -/
def numuseslices (array : List Value) : Nat → Nat → Nat → Counters → Counters
  | 0, _, _, ct => ct
  | slices + 1, lg, i, ct =>
    let lim := min (2 ^ lg) array.length
    if array.length ≤ i ∧ array.length < 2 ^ lg then ct
    else
      let lc := (slice array i lim).countP (!·.isNil)
      numuseslices array slices (lg + 1) (max i lim)
        { ct with
          nums := Function.update ct.nums lg (ct.nums lg + lc)
          total := ct.total + lc
          na := ct.na + lc }

def numusearray (array : List Value) (ct : Counters) : Counters :=
  numuseslices array (MAXABITS + 1) 0 0 ct

end Counters

namespace Table

def asize (t : Table) : Nat := t.array.length

def ikeyinarray (t : Table) (k : Int64) : Nat := checkrange k t.asize

def keyinarray (t : Table) : Value → Nat
  | .integer i => t.ikeyinarray i
  | _ => 0

/- The tag and value of entry k of the array, which is a valid one. -/
def arrayEntry (t : Table) (k : Nat) : Value := t.array.getD (k - 1) .nil

def arraykeyisempty (t : Table) (k : Nat) : Bool := (t.arrayEntry k).isNil

/- The value of the node a search found, nil for the absent key. -/
def nodeValue (t : Table) : Option Nat → Value
  | some n => (t.hash.node n).val
  | none => .nil

def luaHGetint (t : Table) (key : Int64) : Value :=
  let k := t.ikeyinarray key
  if 0 < k then t.arrayEntry k else t.nodeValue (t.hash.getintfromhash key)

def luaHGetstr (hs : Hashes) (t : Table) (key : List UInt8) : Value :=
  t.nodeValue (t.hash.Hgetstr hs key)

def luaHGet (hs : Hashes) (t : Table) : Value → Value
  | .string s => t.luaHGetstr hs s
  | .integer i => t.luaHGetint i
  | .nil => .nil
  | .float n =>
    match n.flttointeger with
    | some k => t.luaHGetint k
    | none => t.nodeValue (t.hash.getgeneric hs (.float n))
  | key => t.nodeValue (t.hash.getgeneric hs key)

/- obj2arr at a C index. -/
def setArray (t : Table) (i : Nat) (v : Value) : Table := { t with array := t.array.set i v }

def setVal (t : Table) (n : Nat) (v : Value) : Table := { t with hash := t.hash.setVal n v }

/- Insert a key in a table where there is space for it. -/
def newcheckedkey (hs : Hashes) (t : Table) (key value : Value) : Table :=
  let i := t.keyinarray key
  if 0 < i then t.setArray (i - 1) value
  else { t with hash := (t.hash.insertkey hs key value).2 }

/- reinserthash: the nodes of the old part from j on. -/
def reinserthash (hs : Hashes) (old : HashPart) : Nat → Nat → Table → Table
  | 0, _, t => t
  | left + 1, j, t =>
    let n := old.node j
    reinserthash hs old left (j + 1)
      (if n.val.isNil then t else t.newcheckedkey hs n.key.value n.val)

/- reinsertOldSlice: the entries of the array from i on go to the new hash part. -/
def reinsertOldSlice (hs : Hashes) : List Value → Nat → HashPart → HashPart
  | [], _, h => h
  | v :: vanishing, i, h =>
    reinsertOldSlice hs vanishing (i + 1)
      (if v.isNil then h else (h.insertkey hs (.integer (Int64.ofNat i + 1)) v).2)

def luaHResize (hs : Hashes) (t : Table) (newasize nhsize : Nat) : Except String Table := do
  if MAXASIZE < newasize then throw tableOverflow
  let newt ← setnodevector nhsize
  let newt := reinsertOldSlice hs (t.array.drop newasize) newasize newt
  let resized : Table :=
    { t with
      array := t.array.take newasize ++ List.replicate (newasize - t.asize) .nil
      lenhint := newasize / 2
      hash := newt }
  return reinserthash hs t.hash t.hash.sizenode 0 resized

/- The counters of rehash when the extra key and the hash part are counted. -/
def counted (t : Table) (ek : Value) : Counters :=
  let ct : Counters := ⟨1, 0, false, fun _ => 0⟩
  let ct := match ek with
    | .integer k => ct.countint k
    | _ => ct
  ct.numusehash t.hash t.hash.sizenode

/-- The sizes of the array part and of the hash part that rehash computes. -/
def newSizes (t : Table) (ek : Value) : Nat × Nat :=
  let ct := t.counted ek
  let (ct, asize) :=
    if ct.na = 0 then (ct, t.asize)
    else
      let ct := ct.numusearray t.array
      ({ ct with na := ct.computesizes.1 }, ct.computesizes.2)
  let nsize := ct.total - ct.na
  (asize, if ct.deleted then nsize + nsize / 4 else nsize)

def rehash (hs : Hashes) (t : Table) (ek : Value) : Except String Table :=
  t.luaHResize hs (t.newSizes ek).1 (t.newSizes ek).2

/- luaH_new: a table without fields has no event. -/
def luaHNew : Table where
  flags := fun _ => true
  array := []
  lenhint := 0
  hash := ⟨0, fun _ => dummynode, 0, true⟩
  metatable := none

def invalidateTMcache (t : Table) : Table := { t with flags := fun _ => false }

def luaHNewkey (hs : Hashes) (t : Table) (key value : Value) : Except String Table :=
  if value.isNil then .ok t
  else
    match t.hash.insertkey hs key value with
    | (true, h) => .ok { t with hash := h }
    | (false, h) => do
      let t ← { t with hash := h }.rehash hs key
      return t.newcheckedkey hs key value

end Table

/-- The codes of pset: the value was set, or where it has to go. -/
inductive Hres where
  | ok
  | notFound
  | node (n : Nat)
  | array (i : Nat)
  deriving DecidableEq

namespace Table

def retpsetcode : Option Nat → Hres
  | none => .notFound
  | some n => .node n

def finishnodeset (t : Table) (slot : Option Nat) (val : Value) : Hres × Table :=
  match slot with
  | some n => if (t.hash.node n).val.isNil then (.node n, t) else (.ok, t.setVal n val)
  | none => (.notFound, t)

/- luaH_fastseti with luaH_psetint. noTM tells that no handler intervenes. -/
def psetint (noTM : Bool) (t : Table) (key : Int64) (val : Value) : Hres × Table :=
  let u := (key.toUInt64 - 1).toNat
  if u < t.asize then
    if noTM || !(t.array.getD u .nil).isNil then (.ok, t.setArray u val) else (.array u, t)
  else t.finishnodeset (t.hash.getintfromhash key) val

/- barrier tells that the collector has to know of a new key. -/
def luaHPsetshortstr (hs : Hashes) (noTM barrier : Bool) (t : Table) (key : List UInt8)
    (val : Value) : Hres × Table :=
  let slot := t.hash.luaHHgetshortstr hs key
  if !(t.nodeValue slot).isNil then
    match slot with
    | some n => (.ok, t.setVal n val)
    | none => (.notFound, t)
  else if noTM && val.isNil then (.ok, t)
  else if noTM && slot.isNone && !barrier then
    match t.hash.insertkey hs (.string key) val with
    | (true, h) => (.ok, { t with hash := h }.invalidateTMcache)
    | (false, h) => (retpsetcode slot, { t with hash := h })
  else (retpsetcode slot, t)

def luaHPsetstr (hs : Hashes) (noTM barrier : Bool) (t : Table) (key : List UInt8)
    (val : Value) : Hres × Table :=
  if key.length ≤ LUAI_MAXSHORTLEN then t.luaHPsetshortstr hs noTM barrier key val
  else t.finishnodeset (t.hash.getgeneric hs (.string key)) val

def luaHPset (hs : Hashes) (noTM barrier : Bool) (t : Table) (key val : Value) : Hres × Table :=
  match key with
  | .string s =>
    if s.length ≤ LUAI_MAXSHORTLEN then t.luaHPsetshortstr hs noTM barrier s val
    else t.finishnodeset (t.hash.getgeneric hs (.string s)) val
  | .integer i => t.psetint noTM i val
  | .nil => (.notFound, t)
  | .float n =>
    match n.flttointeger with
    | some k => t.psetint noTM k val
    | none => t.finishnodeset (t.hash.getgeneric hs (.float n)) val
  | key => t.finishnodeset (t.hash.getgeneric hs key) val

def luaHFinishset (hs : Hashes) (t : Table) (key value : Value) : Hres → Except String Table
  | .ok => .ok t
  | .notFound =>
    match key with
    | .nil => .error "table index is nil"
    | .float f =>
      match f.flttointeger with
      | some k => t.luaHNewkey hs (.integer k) value
      | none => if f.isNaN then .error "table index is NaN" else t.luaHNewkey hs (.float f) value
    | key => t.luaHNewkey hs key value
  | .node n => .ok (t.setVal n value)
  | .array i => .ok (t.setArray i value)

def luaHSet (hs : Hashes) (noTM barrier : Bool) (t : Table) (key value : Value) :
    Except String Table :=
  match t.luaHPset hs noTM barrier key value with
  | (hres, t) => t.luaHFinishset hs key value hres

/- The index in a traversal after the entry of a key. -/
def findindex (hs : Hashes) (t : Table) (key : Value) : Except String Nat :=
  if key.isNil then .ok 0
  else
    let i := t.keyinarray key
    if i ≠ 0 then .ok i
    else
      match t.hash.getgeneric hs key with
      | none => .error "invalid key to 'next'"
      | some n => .ok (n + 1 + t.asize)

/- The loops of luaH_next over the two parts: entries left, index. -/
def nextInArray (t : Table) : Nat → Nat → Option (Value × Value)
  | 0, _ => none
  | left + 1, i =>
    let v := t.array.getD i .nil
    if v.isNil then nextInArray t left (i + 1) else some (.integer (Int64.ofNat i + 1), v)

def nextInHash (t : Table) : Nat → Nat → Option (Value × Value)
  | 0, _ => none
  | left + 1, i =>
    let n := t.hash.node i
    if n.val.isNil then nextInHash t left (i + 1) else some (n.key.value, n.val)

/-- luaH_next: the entry after a key, none after the last. -/
def luaHNext (hs : Hashes) (t : Table) (key : Value) : Except String (Option (Value × Value)) := do
  let i ← t.findindex hs key
  match t.nextInArray (t.asize - i) i with
  | some entry => return some entry
  | none =>
    let i := max i t.asize - t.asize
    return t.nextInHash (t.hash.sizenode - i) i

def hashkeyisempty (t : Table) (key : Nat) : Bool :=
  (t.nodeValue (t.hash.getintfromhash (Int64.ofNat key))).isNil

/- The binary searches for a border between a used index i and an unused one j. -/
def binarySearch (isempty : Nat → Bool) : Nat → Nat → Nat → Nat
  | 0, i, _ => i
  | steps + 1, i, j =>
    if 1 < j - i then
      let m := (i + j) / 2
      if isempty m then binarySearch isempty steps i m else binarySearch isempty steps m j
    else i

def LUA_MAXINTEGER : Nat := 2 ^ 63 - 1

/- The loop of hash_search that doubles j until it is unused: the last used index and an unused
   one, or the border at LUA_MAXINTEGER. -/
def doubling (t : Table) : Nat → Nat → Nat → Nat → Nat ⊕ (Nat × Nat)
  | 0, i, j, _ => .inr (i, j)
  | steps + 1, i, j, rnd =>
    if t.hashkeyisempty j then .inr (i, j)
    else if j ≤ LUA_MAXINTEGER / 2 - 1 then doubling t steps j (j * 2 + rnd % 2) (rnd / 2)
    else if t.hashkeyisempty LUA_MAXINTEGER then .inr (j, LUA_MAXINTEGER)
    else .inl LUA_MAXINTEGER

/-- hash_search; seed is the seed of the state. -/
def hashSearch (seed : Nat) (t : Table) : Nat :=
  let i := t.asize + 1
  let n := if 0 < t.asize then luaOCeillog2 t.asize else 0
  let incr := seed % 2 ^ n + 1
  let j := if incr ≤ LUA_MAXINTEGER - i then i + incr else i + 1
  match t.doubling 64 i j (seed / 2 ^ n) with
  | .inl border => border
  | .inr (i, j) => binarySearch t.hashkeyisempty 64 i j

def binsearch (t : Table) (i j : Nat) : Nat := binarySearch t.arraykeyisempty 32 i j

/- The loops that look for a border near the hint, down from limit and up from it. -/
def vicinityBelow (t : Table) : Nat → Nat → Nat ⊕ Nat
  | 0, limit => .inr limit
  | steps + 1, limit =>
    if 1 < limit then
      if t.arraykeyisempty (limit - 1) then vicinityBelow t steps (limit - 1)
      else .inl (limit - 1)
    else .inr limit

def vicinityAbove (t : Table) : Nat → Nat → Nat ⊕ Nat
  | 0, limit => .inr limit
  | steps + 1, limit =>
    if limit < t.asize then
      if t.arraykeyisempty (limit + 1) then .inl limit else vicinityAbove t steps (limit + 1)
    else .inr limit

def newhint (t : Table) (hint : Nat) : Nat × Table := (hint, { t with lenhint := hint })

/- The end of luaH_getn, when the array part has no border. -/
def getnFromHash (seed : Nat) (t : Table) : Nat × Table :=
  if t.hash.isdummy || t.hashkeyisempty (t.asize + 1) then (t.asize, t) else (t.hashSearch seed, t)

/-- luaH_getn: a border, and the table with a new hint. -/
def luaHGetn (seed : Nat) (t : Table) : Nat × Table :=
  let maxvicinity := 4
  if 0 < t.asize then
    let limit := if t.lenhint = 0 then 1 else t.lenhint
    if t.arraykeyisempty limit then
      match t.vicinityBelow maxvicinity limit with
      | .inl border => t.newhint border
      | .inr limit => t.newhint (t.binsearch 0 limit)
    else
      match t.vicinityAbove maxvicinity limit with
      | .inl border => t.newhint border
      | .inr limit =>
        if t.arraykeyisempty t.asize then t.newhint (t.binsearch limit t.asize)
        else { t with lenhint := t.asize }.getnFromHash seed
  else t.getnFromHash seed

end Table

end Luava.Ltable
