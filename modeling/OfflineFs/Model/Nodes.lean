import OfflineFs.Model.Source

/-!
# Nodes

A node object is the id of a register of the nodes database together with the
class it was instantiated as, which decides what its virtual `remove` does.  A
directory also has the register of its id in the directories database, which
maps the names of its children to their ids.  Only `getchild` reads these ids back,
so an entry stands for the number, whatever the order of its bytes.
-/

namespace OfflineFs

open OfflineFs.Effect
open OfflineFs.Effect.Program (perform)

/-- A caller's credentials. -/
structure SContext where
  uid : UInt32
  gid : UInt32
  groups : List UInt32
  deriving DecidableEq, Repr

/-- A `Node` or an object of a class derived from it. -/
structure NodeRef where
  id : UInt64
  kind : NodeKind
  deriving DecidableEq, Repr

/-- The `int` that a 32-bit unsigned value is converted to. -/
def UInt32.toCInt (value : UInt32) : Int :=
  if value.toNat < 2 ^ 31 then value.toNat else (value.toNat : Int) - 2 ^ 32

/-- The class instantiated for a mode. -/
def kindOfMode (mode : UInt32) : NodeKind :=
  if sIsreg mode then .file
  else if sIsdir mode then .directory
  else if sIslnk mode then .symlink
  else .node

namespace Node

/-- Initialize a neutral node. -/
def create : FsProg NodeRef := do
  let id ← createregister .nodes
  setattr id .dev (0 : UInt64)
  setattr id .nlink (0 : UInt32)
  setattr id .size (0 : UInt64)
  setTime id .atime
  setTime id .mtime
  setTime id .ctime
  pure ⟨id, .node⟩

/-- Increment the link count. -/
def link (n : NodeRef) : FsProg Unit := do
  let nlink ← getattr UInt32 n.id .nlink
  setattr n.id .nlink (1 + nlink)

/-- The virtual `remove`.  `File::remove` frees the storage first and swallows
every exception, `Directory::remove` erases the children first. -/
def remove (n : NodeRef) : FsProg Unit :=
  match n.kind with
  | .file => do
      (Source.remove n.id).catching fun _ => pure ()
      Register.remove .nodes n.id
  | .directory => do
      Register.remove .directories n.id
      Register.remove .nodes n.id
  | .node | .symlink => Register.remove .nodes n.id

/-- Decrement the link count and remove the node when it has reached zero. -/
def unlink (n : NodeRef) : FsProg Unit := do
  let nlink ← getattr UInt32 n.id .nlink
  if UInt32.toCInt (nlink - 1) ≤ 0 then remove n else setattr n.id .nlink (nlink - 1)

/-- Instantiate the node of an id. -/
def getnode (id : UInt64) : FsProg NodeRef :=
  (do
    let m ← getattr UInt32 id .mode
    pure ⟨id, kindOfMode m⟩ : FsProg NodeRef).catching fun e =>
      match e with
      | .attrNotFound => .throw .notFound
      | e => .throw e

/-- `Node::cast<T>`. -/
def cast (target : NodeKind) (n : NodeRef) : FsProg NodeRef :=
  if n.kind = target then pure n else .throw (.badCast target)

/-- Throw unless the caller has the requested permissions. -/
def access (n : NodeRef) (sctx : SContext) (mode : UInt32) : FsProg Unit :=
  if sctx.uid ≠ 0 then do
    let fmode ← getattr UInt32 n.id .mode
    let uid ← getattr UInt32 n.id .uid
    let granted ← (
      if sctx.uid = uid then
        pure ((fmode >>> 6) &&& 0o7)
      else do
        let gid ← getattr UInt32 n.id .gid
        pure (if gid ∈ sctx.groups then (fmode >>> 3) &&& 0o7 else fmode &&& 0o7) :
        FsProg UInt32)
    if mode &&& ~~~granted ≠ 0 then .throw .access else pure ()
  else
    pure ()

end Node

namespace Directory

/-- Link a node at a name. -/
def addchild (d : NodeRef) (name : Bytes) (n : NodeRef) : FsProg Unit := do
  Node.link n
  let insert : FsProg Unit := do
    let _ ← Register.getattrv .directories d.id name
    .throw .exists
  let insert := insert.catching fun e =>
    match e with
    | .attrNotFound => Register.setattr .directories d.id name n.id
    | e => .throw e
  insert.catching fun e => do
    Node.unlink n
    .throw e

/-- The child of a name. -/
def getchild (d : NodeRef) (name : Bytes) : FsProg NodeRef :=
  (do
    let id ← Register.getattr UInt64 .directories d.id name
    Node.getnode id : FsProg NodeRef).catching fun e =>
      match e with
      | .attrNotFound => .throw .notFound
      | e => .throw e

/-- Erase the entry of a name and unlink its node. -/
def delchild (d : NodeRef) (name : Bytes) : FsProg Unit := do
  let child ← getchild d name
  Register.delattr .directories d.id name
  Node.unlink child

/-- The names of the entries. -/
def getchildren (d : NodeRef) : FsProg (List Bytes) :=
  Register.getattrs .directories d.id

/-- The number of entries, the own ones included. -/
def countchildren (d : NodeRef) : FsProg Nat :=
  Register.countattrs .directories d.id

/-- Initialize an empty directory. -/
def create : FsProg NodeRef := do
  let base ← Node.create
  let n : NodeRef := ⟨base.id, .directory⟩
  Node.setattr n.id .mode sIfdir
  addchild n (str ".") n
  pure n

end Directory

/-- `File::create`. -/
def File.create : FsProg NodeRef := do
  let base ← Node.create
  let n : NodeRef := ⟨base.id, .file⟩
  Node.setattr n.id .mode sIfreg
  pure n

/-- `Symlink::create`. -/
def Symlink.create : FsProg NodeRef := do
  let base ← Node.create
  let n : NodeRef := ⟨base.id, .symlink⟩
  Node.setattr n.id .mode sIflnk
  Node.setattrv n.id Attr.symlink.name []
  pure n

/-- `FsDb::rebuild` on erased databases: initialize the root directory. -/
def FsDb.rebuild (getuid getgid : UInt32) : FsProg Unit :=
  fsTxn do
    let root ← Directory.create
    Node.setattr root.id .mode (sIfdir ||| 0o755)
    Node.setattr root.id .uid getuid
    Node.setattr root.id .gid getgid
    Directory.addchild root (str "..") root

end OfflineFs
