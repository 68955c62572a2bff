import OfflineFs.Effect.Program
import OfflineFs.Model.Nodes

/-!
# Credentials

A caller's groups come from the account files.  `SContextCache` keeps the
credentials it built, drops all of them when one of the files is newer than its
last clearing, and drops the least recently used one when it is full.
-/

namespace OfflineFs

open OfflineFs.Effect

/-! ## The account files -/

/-- What the system library answers from `/etc/passwd` and `/etc/group`.  A file
time is missing when `stat` fails. -/
structure Accounts where
  passwdTime : Option Int
  groupTime : Option Int
  /-- The login name that `getpwuid` finds. -/
  getpwuid : UInt32 → Option Bytes
  /-- The groups of a login name with a primary group, if `getgrouplist` succeeds. -/
  getgrouplist : Bytes → UInt32 → Option (List UInt32)

/-- The constructor of `SContext`.  The set of groups is the list of what was
inserted into it. -/
def SContext.construct (accounts : Accounts) (uid gid : UInt32) : Except Err SContext :=
  match accounts.getpwuid uid with
  | none => .ok ⟨uid, gid, [gid]⟩
  | some name =>
      match accounts.getgrouplist name gid with
      | none => .error .runtime
      | some groups => .ok ⟨uid, gid, groups ++ [gid]⟩

/-! ## The cache -/

/-- `SContextCache::CKey`. -/
structure CKey where
  uid : UInt32
  gid : UInt32
  deriving DecidableEq, Repr

/-- `SContextCache::CElem`, with the address of its map node. -/
structure CElem where
  sctx : SContext
  qit : Nat
  node : Nat
  deriving DecidableEq, Repr

/-- A map iterator: the key and the address of the node it points at. -/
structure CacheIt where
  key : CKey
  node : Nat
  deriving DecidableEq, Repr

/-- The members of an `SContextCache`.  A queue element is an iterator, which
stays valid when others are erased, with the key it refers to. -/
structure SContextCache where
  cache : CKey → Option CElem
  queue : List (Nat × CKey)
  nelems : Int
  checktime : Int
  nextIt : Nat
  nextNode : Nat

/-- The limit of the cache. -/
def scontextcacheMaxElems : Int := 40

/-- The test of `uptodate` on the times of the files. -/
def Accounts.changedSince (accounts : Accounts) (checktime : Int) : Bool :=
  let changed (mtime : Option Int) : Bool :=
    match mtime with
    | none => true
    | some mtime => mtime > checktime
  changed accounts.passwdTime || changed accounts.groupTime

namespace SContextCache

/-- `cache.clear()` and `queue.clear()`, with the time it happened. -/
def cleared (c : SContextCache) (now : Int) : SContextCache :=
  { c with cache := fun _ => none, queue := [], nelems := 0, checktime := now }

/-- Clean the cache if one of the files has changed. -/
def uptodate (accounts : Accounts) (now : Int) (c : SContextCache) : SContextCache :=
  if accounts.changedSince c.checktime then c.cleared now else c

/-- The constructor. -/
def new (accounts : Accounts) (now : Int) : SContextCache :=
  uptodate accounts now
    { cache := fun _ => none
      queue := []
      nelems := 0
      checktime := 0
      nextIt := 0
      nextNode := 0 }

/-- Erase the least recently used element. -/
def dropBack (c : SContextCache) (back : CKey) : SContextCache :=
  { c with cache := Function.update c.cache back none, queue := c.queue.dropLast }

/-- `queue.push_front`. -/
def pushFront (c : SContextCache) (key : CKey) : SContextCache :=
  { c with queue := (c.nextIt, key) :: c.queue, nextIt := c.nextIt + 1 }

/-- The part of a miss that keeps the number of elements below the limit. -/
def makeRoom (c : SContextCache) : Outcome Err Unit × SContextCache :=
  if c.nelems = scontextcacheMaxElems then
    match c.queue.getLast? with
    | none => (.fault .undefined, c)
    | some (_, back) => (.ok (), c.dropBack back)
  else
    (.ok (), { c with nelems := c.nelems + 1 })

/-- Insert an element with the iterator of its key in the queue. -/
def inserted (c : SContextCache) (key : CKey) (qit : Nat) (sctx : SContext) : SContextCache :=
  { c with
    cache := Function.update c.cache key (some ⟨sctx, qit, c.nextNode⟩)
    nextNode := c.nextNode + 1 }

/-- Insert a new element for a key, or take the key back out of the queue when the
credentials cannot be built. -/
def insertNew (accounts : Accounts) (key : CKey) (c : SContextCache) :
    Outcome Err CacheIt × SContextCache :=
  let pushed := c.pushFront key
  match SContext.construct accounts key.uid key.gid with
  | .error e =>
      (.error e, { pushed with queue := pushed.queue.tail, nelems := pushed.nelems - 1 })
  | .ok sctx => (.ok ⟨key, pushed.nextNode⟩, pushed.inserted key c.nextIt sctx)

/-- Move the element of a key to the front of the queue. -/
def touch (c : SContextCache) (key : CKey) (found : CElem) : SContextCache :=
  { c with
    cache := Function.update c.cache key (some { found with qit := c.nextIt })
    queue := (c.nextIt, key) :: c.queue.filter (·.1 ≠ found.qit)
    nextIt := c.nextIt + 1 }

/-- The part of `get` that holds the mutex. -/
def locate (accounts : Accounts) (now : Int) (uid gid : UInt32) (c : SContextCache) :
    Outcome Err CacheIt × SContextCache :=
  let c := c.uptodate accounts now
  let key : CKey := ⟨uid, gid⟩
  match c.cache key with
  | none => Outcome.andThen c.makeRoom fun _ c => c.insertNew accounts key
  | some found => (.ok ⟨key, found.node⟩, c.touch key found)

/-- `it->second.sctx`.  Following an iterator to an erased element is undefined. -/
def read (it : CacheIt) (c : SContextCache) : Outcome Err SContext :=
  match c.cache it.key with
  | none => .fault .undefined
  | some found => if found.node = it.node then .ok found.sctx else .fault .undefined

/-- The credentials of a caller. -/
def get (accounts : Accounts) (now : Int) (uid gid : UInt32) (c : SContextCache) :
    Outcome Err SContext × SContextCache :=
  Outcome.andThen (c.locate accounts now uid gid) fun it c => (c.read it, c)

end SContextCache

end OfflineFs
