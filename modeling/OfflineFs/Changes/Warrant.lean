import OfflineFs.Changes.Kinds
import OfflineFs.Run.Permissions
import OfflineFs.Run.Quiet

/-!
# What a request may change

A request looks at the databases before it changes anything.  What it found then,
its caller and its arguments are a warrant for its changes: each is of one of a few
kinds, and comes with what the code has checked.
-/

namespace OfflineFs

open OfflineFs.Effect

/-! ## The sticky bit -/

/-- `FS::check_sticky_bit` as a function of the contents. -/
def Dbs.checkStickyBit (dbs : Dbs) (sctx : SContext) (parent n : UInt64) : Except Err Unit :=
  match dbs.attr UInt32 parent .mode with
  | .error e => .error e
  | .ok mode =>
      if mode &&& sIsvtx ≠ 0 ∧ sctx.uid ≠ 0 then
        match dbs.attr UInt32 parent .uid with
        | .error e => .error e
        | .ok owner =>
            if sctx.uid ≠ owner then
              match dbs.attr UInt32 n .uid with
              | .error e => .error e
              | .ok uid => if sctx.uid ≠ uid then .error .access else .ok ()
            else
              .ok ()
      else
        .ok ()

/-- The test of the sticky bit as a function of the contents. -/
theorem exec_checkStickyBit (sctx : SContext) (parent n : NodeRef) (world : World) :
    exec (checkStickyBit sctx parent n) world =
      (.ofExcept (world.dbs.checkStickyBit sctx parent.id n.id), world) := by
  simp only [checkStickyBit, Dbs.checkStickyBit, exec_bind, Node.exec_getattr]
  cases world.dbs.attr UInt32 parent.id .mode with
  | error e => rfl
  | ok mode =>
      simp only [Outcome.ofExcept_ok, Outcome.andThen_ok]
      split
      · simp only [exec_bind, Node.exec_getattr]
        cases world.dbs.attr UInt32 parent.id .uid with
        | error e => rfl
        | ok owner =>
            simp only [Outcome.ofExcept_ok, Outcome.andThen_ok]
            split
            · simp only [exec_bind, Node.exec_getattr]
              cases world.dbs.attr UInt32 n.id .uid with
              | error e => rfl
              | ok uid =>
                  simp only [Outcome.ofExcept_ok, Outcome.andThen_ok]
                  split <;> rfl
            · rfl
      · rfl

/-! ## The names of a request -/

/-- The last component of a path. -/
def leafOf (path : Bytes) : Bytes :=
  (splitPath path).2

namespace Request

/-- The names that a request gives to nodes. -/
def adds : Request → List Bytes
  | mknod path _ _ | mkdir path _ | symlink _ path | link _ path | rename _ path => [leafOf path]
  | _ => []

/-- The path of the directory in which a request makes a name, when that is the
first path it looks up. -/
def newParent : Request → Option Bytes
  | mknod path _ _ | mkdir path _ | symlink _ path | link _ path => some (splitPath path).1
  | _ => none

/-- The names that a request takes from nodes. -/
def takes : Request → List Bytes
  | unlink path | rmdir path => [leafOf path]
  | rename oldpath newpath => [leafOf oldpath, leafOf newpath]
  | _ => []

/-- The permissions that a request asks for before it adds a name. -/
def asks : Request → UInt32
  | link _ _ => wOk
  | _ => wOk ||| xOk

/-- The requests that make a node. -/
def Births : Request → Prop
  | mknod _ _ _ | mkdir _ _ | symlink _ _ => True
  | _ => False

/-- The reserved attributes that a request names itself. -/
def Reserved : Request → Prop
  | setxattr _ name _ _ | removexattr _ name => reservedPrefix.isPrefixOf name = true
  | _ => False

end Request

/-! ## Warrants -/

/-- The credentials of a caller, without groups when they cannot be read. -/
def Context.caller (ctx : Context) : SContext :=
  ctx.sctx.getD ⟨ctx.uid, ctx.gid, []⟩

theorem Context.caller_uid (ctx : Context) : ctx.caller.uid = ctx.uid := by
  unfold Context.caller Context.sctx
  cases ctx.groups <;> rfl

/-- A request of a caller, the databases that it finds, and the directories that it
may find as the one for the new name.  An import changes nodes as no request does. -/
structure Warrant where
  start : Dbs
  sctx : SContext
  req : Request
  target : UInt64 → Prop
  importing : Prop

/-- The attributes that a new node gets after it was made. -/
abbrev birthAttrs : List Attr :=
  [.uid, .gid, .mode, .dev, .symlink]

/-- The attributes that decide who may do what. -/
abbrev guarded : List Attr :=
  [.uid, .gid, .mode]

/-- The width of an attribute that is a number. -/
def Attr.width : Attr → Option Nat
  | .dev | .size | .atime | .mtime | .ctime => some 8
  | .nlink | .mode | .uid | .gid | .mediumid => some 4
  | .symlink | .source | .phid => none

/-- A stored value has the width of the attribute. -/
def Attr.Fits (attr : Attr) (value : Bytes) : Prop :=
  ∀ width, attr.width = some width → value.length = width

theorem Attr.fits_hostToDb {T : Type} [HostInt T] {attr : Attr}
    (sized : attr.width = some (HostInt.size T)) (value : T) : attr.Fits (hostToDb value) := by
  intro width isWidth
  rw [length_hostToDb]
  exact Option.some.inj (sized.symm.trans isWidth)

namespace Warrant

variable (w : Warrant)

/-- The id of the node that a request makes. -/
def fresh : UInt64 :=
  w.start.nodes.nextId

/-- The superuser names a reserved attribute. -/
def Unlocked : Prop :=
  w.sctx.uid = 0 ∧ w.req.Reserved

/-- The entries that the request may add. -/
structure Enters (d : UInt64) (name : Bytes) (n : UInt64) : Prop where
  directory : w.start.getnode d = .ok ⟨d, .directory⟩
  target : w.target d
  access : w.start.access d w.sctx w.req.asks = .ok ()
  listed : name ∈ w.req.adds
  node : n = w.fresh ∨ ∃ kind, w.start.getnode n = .ok ⟨n, kind⟩

/-- The entries that the request may take away. -/
structure Leaves (d : UInt64) (name : Bytes) : Prop where
  directory : w.start.getnode d = .ok ⟨d, .directory⟩
  access : w.start.access d w.sctx (wOk ||| xOk) = .ok ()
  listed : name ∈ w.req.takes
  child : ∃ n, w.start.getchild d name = .ok n ∧ w.start.checkStickyBit w.sctx d n.id = .ok ()

/-- A directory that counts as empty. -/
def Empty (d : UInt64) : Prop :=
  (w.start.directories.attrs d).length ≤ 2

/-- A directory that holds nothing but the entries for itself and its parent. -/
def Bare (d : UInt64) : Prop :=
  ∀ name, w.start.get .directories d name ≠ none → name = [] ∨ name = str "." ∨ name = str ".."

/-- The node has the owner, group and mode that it had at the start. -/
def Untouched (now : Dbs) (id : UInt64) : Prop :=
  ∀ attr ∈ guarded, now.get .nodes id attr.name = w.start.get .nodes id attr.name

/-- The caller owns the node, or is the superuser. -/
def Owns (now : Dbs) (id : UInt64) : Prop :=
  w.sctx.uid ≠ 0 → now.attr UInt32 id .uid = .ok w.sctx.uid

/-- What the code checks before it changes a guarded attribute of a node. -/
inductive Guards (now : Dbs) (id : UInt64) : Attr → Bytes → Prop
  /-- `chmod`: the type stays, and the set-group-ID bit is for groups of the caller. -/
  | chmod {mode old : UInt32} (owns : w.Owns now id) (untouched : w.Untouched now id)
      (isOld : now.attr UInt32 id .mode = .ok old)
      (member : w.sctx.uid ≠ 0 → mode &&& sIsgid ≠ 0 →
        ∃ gid, now.attr UInt32 id .gid = .ok gid ∧ gid ∈ w.sctx.groups) :
      Guards now id .mode (hostToDb ((mode &&& ~~~sIfmt) ||| (old &&& sIfmt)))
  /-- `chown` to another group, before the group is set. -/
  | clear {old : UInt32} (owns : w.Owns now id) (isOld : now.attr UInt32 id .mode = .ok old)
      (cleared : UInt32) (isCleared : cleared = old &&& ~~~sIsuid ∨
        cleared = old &&& ~~~sIsuid &&& ~~~sIsgid) :
      Guards now id .mode (hostToDb cleared)
  | group {gid : UInt32} (owns : w.Owns now id) (member : w.sctx.uid ≠ 0 → gid ∈ w.sctx.groups)
      (cleared : w.sctx.uid ≠ 0 → ∃ mode, now.attr UInt32 id .mode = .ok mode ∧
        (mode &&& sIfreg ≠ 0 → mode &&& sIsuid = 0)) :
      Guards now id .gid (hostToDb gid)
  | owner {uid : UInt32} (root : w.sctx.uid = 0) : Guards now id .uid (hostToDb uid)

/-- The entries that are added: of a new directory for itself, of a directory for
the one it comes into, and those of the request. -/
inductive Entering : UInt64 → Bytes → UInt64 → Prop
  | self : Entering w.fresh (str ".") w.fresh
  | parent {d n : UInt64} {name : Bytes} (enters : w.Enters n name d) : Entering d (str "..") n
  | named {d n : UInt64} {name : Bytes} (enters : w.Enters d name n) : Entering d name n

/-- The entries that are taken away: of an empty directory for itself and for its
parent, of a moved one for its parent, and those of the request.  A directory that
loses a name is bare, or has another name. -/
inductive Leaving (now : Dbs) : UInt64 → Bytes → NodeRef → Prop
  | self {d : UInt64} {n : NodeRef} (empty : w.Empty d) : Leaving now d (str ".") n
  | parent {d : UInt64} {n : NodeRef} (empty : w.Empty d) : Leaving now d (str "..") n
  | moved {d target : UInt64} {name : Bytes} {n : NodeRef} (enters : w.Enters target name d) :
      Leaving now d (str "..") n
  | named {d : UInt64} {name : Bytes} {n : NodeRef} (leaves : w.Leaves d name)
      (whole : n.kind = .directory → w.Bare n.id ∨
        ∃ target other, (target ≠ d ∨ other ≠ name) ∧ w.Enters target other n.id ∧
          now.get .directories target other = some (hostToDb n.id)) : Leaving now d name n

/-- The changes that the code makes. -/
inductive Permits (now : Dbs) : Change → Prop
  | stamp {attr : Attr} (listed : attr ∈ stamps) (id value : UInt64) :
      Permits now (.put id attr.name (hostToDb value))
  | place {attr : Attr} (listed : attr ∈ placing) (id : UInt64) (value : Bytes) :
      Permits now (.put id attr.name value)
  | mark {name : Bytes} (free : reservedPrefix.isPrefixOf name = true → w.Unlocked)
      (id : UInt64) (value : Bytes) : Permits now (.put id name value)
  | unmark {name : Bytes} (free : reservedPrefix.isPrefixOf name = true → w.Unlocked)
      (id : UInt64) : Permits now (.del id name)
  | imported {attr : Attr} {value : Bytes} {id : UInt64} (importing : w.importing)
      (listed : attr ∈ birthAttrs) (fits : attr.Fits value)
      (present : now.get .nodes id Attr.mode.name ≠ none) :
      Permits now (.put id attr.name value)
  | create (first : now = w.start) (births : w.req.Births) (atime mtime ctime : UInt64) :
      Permits now (.create w.fresh atime mtime ctime)
  | own {attr : Attr} {value : Bytes} (listed : attr ∈ birthAttrs) (fits : attr.Fits value)
      (alive : now.get .nodes w.fresh Attr.nlink.name ≠ none) :
      Permits now (.put w.fresh attr.name value)
  | guarded {attr : Attr} {value : Bytes} {id : UInt64} (guards : w.Guards now id attr value) :
      Permits now (.put id attr.name value)
  | enter {d n : UInt64} {name : Bytes} {nlink : UInt32}
      (absent : now.get .directories d name = none)
      (counted : now.attr UInt32 n .nlink = .ok nlink) (entering : w.Entering d name n) :
      Permits now (.enter d name n nlink)
  | leave {d : UInt64} {name : Bytes} {n : NodeRef} {nlink : UInt32}
      (child : now.getchild d name = .ok n) (counted : now.attr UInt32 n.id .nlink = .ok nlink)
      (leaving : w.Leaving now d name n) : Permits now (.leave d name n nlink)
  | strip {d : UInt64} {name : Bytes} {n : NodeRef} {e : Err}
      (child : now.getchild d name = .ok n) (uncounted : now.attr UInt32 n.id .nlink = .error e)
      (leaving : w.Leaving now d name n) : Permits now (.strip d name)
  | unused {n : NodeRef} {nlink : UInt32} (counted : now.attr UInt32 n.id .nlink = .ok nlink)
      (last : UInt32.toCInt nlink ≤ 0) : Permits now (.discard n)
  | abandon {n : NodeRef} (isFresh : n.id = w.fresh)
      (enclosed : ∀ d name, d ≠ w.fresh ∨ n.kind ≠ .directory →
        now.get .directories d name = w.start.get .directories d name) : Permits now (.discard n)

/-- The databases after changes that the warrant permits, with the number of
entries that were added. -/
inductive Written : Nat → Dbs → Prop
  | start : Written 0 w.start
  | change {added : Nat} {now : Dbs} {change : Change} (written : Written added now)
      (permits : w.Permits now change) : Written (added + change.added) (change.apply now)

end Warrant

end OfflineFs
