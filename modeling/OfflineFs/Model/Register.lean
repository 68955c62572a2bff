import OfflineFs.Model.Effects

/-!
# Registers

The operations of `Database<uint64_t>::Register` and `createregister`, and the
reading operations of the media registers.
-/

namespace OfflineFs

open OfflineFs.Effect
open OfflineFs.Effect.Program (perform)

namespace Register

/-- The value of an attribute. -/
def getattrv (table : Table) (id : UInt64) (name : Bytes) : FsProg Bytes := do
  match ← perform (.get table id name) with
  | some value => pure value
  | none => .throw .attrNotFound

/-- Store the value of an attribute. -/
def setattrv (table : Table) (id : UInt64) (name value : Bytes) : FsProg Unit :=
  perform (.put table id name value)

/-- The value of an attribute as a `T`. -/
def getattr (T : Type) [HostInt T] (table : Table) (id : UInt64) (name : Bytes) :
    FsProg T := do
  let b ← getattrv table id name
  match dbToHost T b with
  | some value => pure value
  | none => .throw .runtime

/-- Store a `T` as the value of an attribute. -/
def setattr {T : Type} [HostInt T] (table : Table) (id : UInt64) (name : Bytes) (value : T) :
    FsProg Unit :=
  setattrv table id name (hostToDb value)

/-- Erase an attribute, which must be there. -/
def delattr (table : Table) (id : UInt64) (name : Bytes) : FsProg Unit := do
  match ← perform (.get table id name) with
  | some _ => perform (.del table id name)
  | none => .throw .attrNotFound

/-- The names of the attributes. -/
def getattrs (table : Table) (id : UInt64) : FsProg (List Bytes) :=
  perform (.scan table id)

/-- How many named attributes there are. -/
def countattrs (table : Table) (id : UInt64) : FsProg Nat := do
  let names ← perform (.scan table id)
  pure names.length

/-- The loop of `remove`. -/
def delattrs (table : Table) (id : UInt64) : List Bytes → FsProg Unit
  | [] => pure ()
  | name :: rest => do
      delattr table id name
      delattrs table id rest

/-- Erase all attributes, the one without a name included. -/
def remove (table : Table) (id : UInt64) : FsProg Unit := do
  let names ← getattrs table id
  delattrs table id names
  (delattr table id []).catching fun e =>
    match e with
    | .attrNotFound => pure ()
    | e => .throw e

end Register

/-- Reserve the id after the last one with a dummy attribute. -/
def createregister (table : Table) : FsProg UInt64 := do
  perform (.lockCreate table)
  let last ← perform (.last table)
  let id := match last with
    | none => 0
    | some id => id + 1
  perform (.put table id [] [])
  perform (.unlockCreate table)
  pure id

/-! ## Node attributes

A `Node` is a register of the nodes database. -/

namespace Node

/-- The value of an attribute of a node. -/
def getattrv (id : UInt64) (name : Bytes) : FsProg Bytes :=
  Register.getattrv .nodes id name

/-- Store the value of an attribute of a node. -/
def setattrv (id : UInt64) (name value : Bytes) : FsProg Unit :=
  Register.setattrv .nodes id name value

/-- The value of an attribute of a node as a `T`. -/
def getattr (T : Type) [HostInt T] (id : UInt64) (attr : Attr) : FsProg T :=
  Register.getattr T .nodes id attr.name

/-- Store a `T` as the value of an attribute of a node. -/
def setattr {T : Type} [HostInt T] (id : UInt64) (attr : Attr) (value : T) : FsProg Unit :=
  Register.setattr .nodes id attr.name value

/-- `setattr<off::time_t>(attr, time(NULL))`. -/
def setTime (id : UInt64) (attr : Attr) : FsProg Unit := do
  let now ← perform .time
  setattr id attr now

end Node

end OfflineFs
