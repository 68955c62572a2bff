import OfflineFs.Model.Format
import OfflineFs.Model.Fs

/-!
# Importing

What `offimport` does with one line of its input.  Each line is a transaction of its
own, which is undone when the line is in error; the process stops there.
-/

namespace OfflineFs

open OfflineFs.Effect
open OfflineFs.Effect.Program (perform)

namespace Offimport

/-- The format strings that are known. -/
def fpar : FParser :=
  FParser.add {} { tok := str "u", fmapval := some .user }
    |>.add { tok := str "U", fmapval := some .numuser }
    |>.add { tok := str "g", fmapval := some .group }
    |>.add { tok := str "G", fmapval := some .numgroup }
    |>.add { tok := str "l", fmapval := some .link }
    |>.add { tok := str "m", fmapval := some .perms }
    |>.add { tok := str "p", fmapval := some .path }
    |>.add { tok := str "P", fmapval := some .path2 }
    |>.add { tok := str "y", fmapval := some .type }
    |>.add { tok := str "A@", fmapval := some .atime }
    |>.add { tok := str "C@", fmapval := some .ctime }
    |>.add { tok := str "T@", fmapval := some .mtime }
    |>.add { tok := str "s", fmapval := some .size }
    |>.add { tok := str "z", fmapparams := some .z }
    |>.add { tok := str "x8", fmapparams := some .x8 }
    |>.add { tok := str "x16", fmapparams := some .x16 }
    |>.add { tok := str "x32", fmapparams := some .x32 }
    |>.add { tok := str "x64", fmapparams := some .x64 }

/-- The command line and the process that runs it. -/
structure Settings where
  format : Format
  pathPrefix : Bytes
  allowModify : Bool
  allowCreate : Bool
  medium : Option Medium
  getuid : UInt32
  getgid : UInt32
  umask : UInt32

/-- The value of `--prefix`, or the default. -/
def prefixOf : Option Bytes → Bytes
  | none => [slash]
  | some given => if given.head? = some slash then given else slash :: given

/-- The lookups in the account files. -/
structure Accounts where
  getgrnam : Bytes → Option UInt32
  getpwnam : Bytes → Option UInt32

/-- The superuser, without groups. -/
def superuser : SContext :=
  ⟨0, 0, []⟩

/-- The type that a line names, or zero. -/
def resolveType (type : Bytes) : FsProg UInt32 :=
  if type = [] then pure 0
  else if type = str "f" then pure sIfreg
  else if type = str "d" then pure sIfdir
  else if type = str "l" then pure sIflnk
  else if type = str "c" then pure sIfchr
  else if type = str "b" then pure sIfblk
  else if type = str "p" then pure sIfifo
  else if type = str "s" then pure sIfsock
  else .throw .runtime

/-- Tie a new file to the medium. -/
def addToMedium (n : NodeRef) (path : Bytes) : Option Medium → FsProg Unit
  | none => pure ()
  | some medium => do
      medium.addfile path
      Node.setattrv n.id Attr.source.name (str "single")
      let order ← perform .byteOrder
      Node.setattr n.id .mediumid (order.inMemory medium.id)
      Node.setattrv n.id Attr.phid.name path

/-- Create the node of a line, with the class of its type. -/
def createAt (p : Path) (s : Settings) (nodetype : UInt32) (path : Bytes) : FsProg NodeRef :=
  if nodetype = sIfreg then do
    let n ← p.create superuser File.create
    addToMedium n path s.medium
    pure n
  else if nodetype = sIfdir then do
    let d ← p.create superuser Directory.create
    Directory.addchild d (str "..") p.parent
    pure d
  else if nodetype = sIflnk then
    p.create superuser Symlink.create
  else
    p.create superuser Node.create

/-- Create the node of a line, if that is allowed and the path is free. -/
def createNode (pcache : PathCache) (s : Settings) (nodetype : UInt32) (path : Bytes) :
    FsProg NodeRef := do
  let p ← Path.resolve pcache superuser (s.pathPrefix ++ path)
  createAt p s nodetype path

/-! ## Attributes -/

/-- The type of a node, when the line names none. -/
def knownType (n : NodeRef) (nodetype : UInt32) : FsProg UInt32 :=
  if nodetype = 0 then do
    let mode ← Node.getattr UInt32 n.id .mode
    pure (mode &&& sIfmt)
  else
    pure nodetype

/-- `parse<T>`, which throws when the text is no number. -/
def parse {T : Type} (read : Bytes → Option T) (text : Bytes) : FsProg T :=
  match read text with
  | some value => pure value
  | none => .throw .runtime

/-- Store the target of a symbolic link. -/
def setLink (n : NodeRef) (nodetype : UInt32) (link : Bytes) : FsProg UInt32 :=
  if link ≠ [] then do
    let nodetype ← knownType n nodetype
    if nodetype = sIflnk then do
      Node.setattrv n.id Attr.symlink.name link
      pure nodetype
    else
      pure nodetype
  else
    pure nodetype

/-- Store the group of a node, by number or by name. -/
def setGroup (s : Settings) (a : Accounts) (n : NodeRef) (creating : Bool) (m : FMap) :
    FsProg Unit :=
  if m.numgroup ≠ [] then do
    let gid ← parse (readUnsigned UInt32 10) m.numgroup
    Node.setattr n.id .gid gid
  else if m.group ≠ [] then
    match readUnsigned UInt32 10 m.group with
    | some gid => Node.setattr n.id .gid gid
    | none =>
        match a.getgrnam m.group with
        | none => .throw .runtime
        | some gid => Node.setattr n.id .gid gid
  else if creating then
    Node.setattr n.id .gid s.getgid
  else
    pure ()

/-- The user that is looked up by name is not stored. -/
def setUser (s : Settings) (a : Accounts) (n : NodeRef) (creating : Bool) (m : FMap) :
    FsProg Unit :=
  if m.numuser ≠ [] then do
    let uid ← parse (readUnsigned UInt32 10) m.numuser
    Node.setattr n.id .uid uid
  else if m.user ≠ [] then
    match readUnsigned UInt32 10 m.user with
    | some uid => Node.setattr n.id .uid uid
    | none =>
        match a.getpwnam m.user with
        | none => .throw .runtime
        | some _ => pure ()
  else if creating then
    Node.setattr n.id .uid s.getuid
  else
    pure ()

/-- One of the times. -/
def setStamp (n : NodeRef) (creating : Bool) (attr : Attr) (text : Bytes) : FsProg Unit :=
  if text ≠ [] then do
    let time ← parse readSigned text
    Node.setattr n.id attr time
  else if creating then
    Node.setTime n.id attr
  else
    pure ()

/-- The permissions of a new node. -/
def defaultPerms (s : Settings) (nodetype : UInt32) : UInt32 :=
  if nodetype = sIfdir then ~~~s.umask &&& 0o777
  else if nodetype = sIflnk then 0
  else ~~~s.umask &&& 0o666

/-- Store the permission bits of a node. -/
def setPerms (s : Settings) (n : NodeRef) (creating : Bool) (nodetype : UInt32) (perms : Bytes) :
    FsProg UInt32 :=
  if perms ≠ [] then do
    let perms ← parse (readUnsigned UInt32 8) perms
    let nodetype ← knownType n nodetype
    Node.setattr n.id .mode (nodetype ||| (~~~sIfmt &&& perms))
    pure nodetype
  else if creating then do
    Node.setattr n.id .mode (nodetype ||| defaultPerms s nodetype)
    pure nodetype
  else if nodetype ≠ 0 then do
    let mode ← Node.getattr UInt32 n.id .mode
    Node.setattr n.id .mode (nodetype ||| (mode &&& ~~~sIfmt))
    pure nodetype
  else
    pure nodetype

/-- Store the size of a node. -/
def setSize (n : NodeRef) (nodetype : UInt32) (size : Bytes) : FsProg Unit :=
  if size ≠ [] then do
    let nodetype ← knownType n nodetype
    if nodetype = sIfreg then do
      let size ← parse readSigned size
      Node.setattr n.id .size size
    else
      pure ()
  else
    pure ()

/-- The loop that sets the extended attributes of one width. -/
def setXattrs (n : NodeRef) (encode : Bytes → Option Bytes) : List (Bytes × Bytes) → FsProg Unit
  | [] => pure ()
  | (name, text) :: rest => do
      let value ← parse encode text
      Node.setattrv n.id name value
      setXattrs n encode rest

/-- Set the specified attributes. -/
def setAttributes (s : Settings) (a : Accounts) (n : NodeRef) (creating : Bool)
    (nodetype : UInt32) (m : FMap) : FsProg Unit := do
  let nodetype ← setLink n nodetype m.link
  setGroup s a n creating m
  setUser s a n creating m
  setStamp n creating .atime m.atime
  setStamp n creating .mtime m.mtime
  setStamp n creating .ctime m.ctime
  let nodetype ← setPerms s n creating nodetype m.perms
  setSize n nodetype m.size
  setXattrs n some m.z
  setXattrs n (fun text => (readChar text).map hostToDb) m.x8
  setXattrs n (fun text => (readUnsigned UInt16 10 text).map hostToDb) m.x16
  setXattrs n (fun text => (readUnsigned UInt32 10 text).map hostToDb) m.x32
  setXattrs n (fun text => (readUnsigned UInt64 10 text).map hostToDb) m.x64

/-! ## Lines -/

/-- The path that a line names. -/
def pathOf (m : FMap) : Bytes :=
  if m.path ≠ [] then m.path else m.path2

/-- The node to modify, or none when there is no such file. -/
def findNode (pcache : PathCache) (s : Settings) (path : Bytes) : FsProg (Option NodeRef) :=
  if s.allowModify then
    (do
      let n ← pcache.getnode superuser (s.pathPrefix ++ path)
      pure (some n) : FsProg (Option NodeRef)).catching fun e =>
        match e with
        | .notFound => pure none
        | e => .throw e
  else
    pure none

/-- The type of a new node. -/
def typeToCreate (nodetype : UInt32) : UInt32 :=
  if nodetype = 0 then sIfreg else nodetype

/-- The node that was created, or none when its name is taken. -/
def tryCreate (pcache : PathCache) (s : Settings) (nodetype : UInt32) (path : Bytes) :
    FsProg (Option NodeRef) :=
  (do
    let n ← createNode pcache s nodetype path
    pure (some n) : FsProg (Option NodeRef)).catching fun e =>
      match e with
      | .exists => pure none
      | e => .throw e

/-- What is done with the node that was found, if any. -/
def importNode (pcache : PathCache) (s : Settings) (a : Accounts) (m : FMap) (nodetype : UInt32) :
    Option NodeRef → FsProg Unit
  | some n => setAttributes s a n false nodetype m
  | none =>
      if s.allowCreate then do
        match ← tryCreate pcache s (typeToCreate nodetype) (pathOf m) with
        | none => pure ()
        | some n => setAttributes s a n true (typeToCreate nodetype) m
      else
        .throw .runtime

/-- The body of the main loop, on the fields of a line. -/
def importFields (pcache : PathCache) (s : Settings) (a : Accounts) (m : FMap) : FsProg Unit := do
  let nodetype ← resolveType m.type
  if pathOf m = [] then
    .throw .runtime
  else do
    let found ← findNode pcache s (pathOf m)
    importNode pcache s a m nodetype found

/-- Import one line. -/
def importLine (pcache : PathCache) (s : Settings) (a : Accounts) (line : Bytes) : FsProg Unit :=
  match s.format.matchText {} (line ++ [10]) with
  | none => .throw .runtime
  | some m => importFields pcache s a m

/-- A round of the main loop, for a line that is not empty. -/
def round (pcache : PathCache) (s : Settings) (a : Accounts) (line : Bytes) : FsProg Unit := do
  importLine pcache s a line
  perform (.commit .media)
  perform (.commit .directories)
  perform (.commit .nodes)

end Offimport

end OfflineFs
