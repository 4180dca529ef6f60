import Luava.Heap
import Luava.Ltable

/-
Field accesses on the tables of ltable.c: the fast paths, the loops of luaV_finishget and
luaV_finishset over the handlers, and the cache of absent events that both consult. An access goes
on until a handler function has to be called.
-/
namespace Luava.Lvm

open Ltable

/-- What the tables of a state depend on: the hashes, and whether the collector has to be told of
   a key that is new in a table. -/
structure Global where
  hashes : Hashes
  barrier : TableId → Value → Bool

structure Store where
  table : TableId → Ltable.Table
  globals : TableId
  userdataMetatable : Nat → Option TableId
  typeMetatable : LuaType → Option TableId

/-- The errors of an access: luaG_typeerror of a value and luaG_runerror. -/
inductive Fault where
  | typeerror (o : Value) (op : String)
  | runerror (message : String)
  deriving DecidableEq

/-- Where a read ends. -/
inductive Read where
  | value (v : Value)
  | call (tm object : Value)
  | fail (e : Fault)
  deriving DecidableEq

/-- Where a write ends. -/
inductive Written where
  | done
  | call (tm object : Value)
  | fail (e : Fault)
  deriving DecidableEq

namespace Store

def setTable (S : Store) (id : TableId) (t : Ltable.Table) : Store :=
  { S with table := Function.update S.table id t }

def metatable (S : Store) : Value → Option TableId
  | .table id => (S.table id).metatable
  | .userdata u => S.userdataMetatable u
  | v => S.typeMetatable (LuaType.ofValue v)

/- luaH_Hgetshortstr for the name of an event. -/
def eventField (g : Global) (events : Ltable.Table) (event : TMS) : Value :=
  events.nodeValue (events.hash.luaHHgetshortstr g.hashes (Utf8.encode event.tmname.toList))

def luaTGettmbyobj (g : Global) (S : Store) (o : Value) (event : TMS) : Value :=
  match S.metatable o with
  | some mt => eventField g (S.table mt) event
  | none => .nil

/-- luaT_gettm: the absence of an event is noted in the flags. -/
def luaTGettm (g : Global) (S : Store) (mt : TableId) (event : TMS) : Value × Store :=
  let events := S.table mt
  let tm := eventField g events event
  if tm.isNil then
    (.nil, S.setTable mt { events with flags := Function.update events.flags event true })
  else (tm, S)

def checknoTM (S : Store) (mt : Option TableId) (event : TMS) : Bool :=
  match mt with
  | none => true
  | some mt => (S.table mt).flags event

/- fasttm; nil stands for its NULL. -/
def fasttm (g : Global) (S : Store) (mt : Option TableId) (event : TMS) : Value × Store :=
  match mt with
  | none => (.nil, S)
  | some mt => if (S.table mt).flags event then (.nil, S) else S.luaTGettm g mt event

/- The handler of a table or of another value. -/
def handler (g : Global) (S : Store) (t : Value) (event : TMS) : Value × Store :=
  match t with
  | .table id => S.fasttm g (S.table id).metatable event
  | _ => (S.luaTGettmbyobj g t event, S)

/- luaV_fastget with luaH_get: none for LUA_VNOTABLE and for an empty value. -/
def luaVFastget (g : Global) (S : Store) (t key : Value) : Option Value :=
  match t with
  | .table id =>
    let v := (S.table id).luaHGet g.hashes key
    if v.isNil then none else some v
  | _ => none

/-- luaV_finishget: iterations left, object. -/
def luaVFinishget (g : Global) (key : Value) : Nat → Value → Store → Read × Store
  | 0, _, S => (.fail (.runerror "'__index' chain too long; possible loop"), S)
  | loop + 1, t, S =>
    match S.handler g t .index with
    | (.nil, S) =>
      match t with
      | .table _ => (.value .nil, S)
      | _ => (.fail (.typeerror t "index"), S)
    | (.function f, S) => (.call (.function f) t, S)
    | (tm, S) =>
      match S.luaVFastget g tm key with
      | some v => (.value v, S)
      | none => luaVFinishget g key loop tm S

def auxgetstr (g : Global) (t : Value) (k : List UInt8) (S : Store) : Read × Store :=
  match S.luaVFastget g t (.string k) with
  | some v => (.value v, S)
  | none => S.luaVFinishget g (.string k) Heap.MAXTAGLOOP t

/- luaV_fastset over one of the functions that set the value of a key; none for HNOTATABLE. -/
def fastset (g : Global) (pset : Bool → Bool → Ltable.Table → Hres × Ltable.Table) (t key : Value)
    (S : Store) : Option Hres × Store :=
  match t with
  | .table id =>
    let noTM := S.checknoTM (S.table id).metatable .newindex
    match pset noTM (g.barrier id key) (S.table id) with
    | (hres, content) => (some hres, S.setTable id content)
  | _ => (none, S)

/- luaV_fastset with luaH_pset. -/
def luaVFastset (g : Global) (t key val : Value) : Store → Option Hres × Store :=
  fastset g (fun noTM barrier content => content.luaHPset g.hashes noTM barrier key val) t key

/- luaV_fastset with luaH_psetstr. -/
def luaVFastsetstr (g : Global) (t : Value) (k : List UInt8) (val : Value) :
    Store → Option Hres × Store :=
  fastset g (fun noTM barrier content => content.luaHPsetstr g.hashes noTM barrier k val) t
    (.string k)

/-- luaV_finishset: iterations left, object, code of its fast set. -/
def luaVFinishset (g : Global) (key val : Value) :
    Nat → Value → Option Hres → Store → Written × Store
  | 0, _, _, S => (.fail (.runerror "'__newindex' chain too long; possible loop"), S)
  | loop + 1, t, hres, S =>
    match S.handler g t .newindex with
    | (.nil, S) =>
      match t, hres with
      | .table id, some hres =>
        match (S.table id).luaHFinishset g.hashes key val hres with
        | .ok content => (.done, S.setTable id content.invalidateTMcache)
        | .error message => (.fail (.runerror message), S)
      | _, _ => (.fail (.typeerror t "index"), S)
    | (.function f, S) => (.call (.function f) t, S)
    | (tm, S) =>
      match luaVFastset g tm key val S with
      | (some .ok, S) => (.done, S)
      | (hres, S) => luaVFinishset g key val loop tm hres S

def auxsetstr (g : Global) (t : Value) (k : List UInt8) (val : Value) (S : Store) :
    Written × Store :=
  match luaVFastsetstr g t k val S with
  | (some .ok, S) => (.done, S)
  | (hres, S) => S.luaVFinishset g (.string k) val Heap.MAXTAGLOOP t hres

def setmetatable (S : Store) (obj : Value) (mt : Option TableId) : Store :=
  match obj with
  | .table id => S.setTable id { S.table id with metatable := mt }
  | .userdata u => { S with userdataMetatable := Function.update S.userdataMetatable u mt }
  | v => { S with typeMetatable := Function.update S.typeMetatable (LuaType.ofValue v) mt }

/- aux_rawset on a table. -/
def auxRawset (g : Global) (id : TableId) (key val : Value) (S : Store) : Written × Store :=
  let noTM := S.checknoTM (S.table id).metatable .newindex
  match (S.table id).luaHSet g.hashes noTM (g.barrier id key) key val with
  | .ok content => (.done, S.setTable id content.invalidateTMcache)
  | .error message => (.fail (.runerror message), S)

end Store

end Luava.Lvm
