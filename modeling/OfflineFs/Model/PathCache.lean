import OfflineFs.Model.Path

/-!
# Path resolution

`PathCache_null` walks the directories.  `PathCache_hash` remembers for every
path it resolved the node id and what a search permission check needs, in
entries linked to the entry of the parent path, and drops the least recently
used ones.
-/

namespace OfflineFs

open OfflineFs.Effect
open OfflineFs.Effect.Program (perform)

/-! ## The plain lookup -/

namespace PathCache_null

/-- The loop over the components, with the search permission check. -/
def walk (sctx : SContext) : NodeRef → List Bytes → FsProg NodeRef
  | n, [] => pure n
  | n, token :: rest => do
      Node.access n sctx xOk
      let d ← Node.cast .directory n
      let child ← Directory.getchild d token
      walk sctx child rest

/-- `PathCache_null::getnode`. -/
def getnode (sctx : SContext) (path : Bytes) : FsProg NodeRef := do
  let root ← Node.getnode 0
  walk sctx root (tokenize path)

end PathCache_null

/-- `PathCache_null`. -/
def PathCache_null : PathCache where
  getnode := PathCache_null.getnode
  invalidate _ := pure ()

/-! ## Entries and their state -/

namespace PathCacheState

/-- `new CEntry`, inserted under a key. -/
def insertBlank (cache : PathCacheState) (key : Bytes) : PathCacheState :=
  { cache with
    heap := cache.heap.insert cache.nextEntry none
    paths := cache.paths.insert key cache.nextEntry
    buckets := (cache.table.enter nextBuckets).buckets
    nextEntry := cache.nextEntry + 1 }

/-- Erase a blank entry, which nothing else refers to. -/
def eraseBlank (cache : PathCacheState) (key : Bytes) (cen : Nat) : PathCacheState :=
  { cache with
    heap := cache.heap.erase cen
    paths := cache.paths.erase key }

/-- Append an entry to the queue and let it know its position. -/
def pushBack (cache : PathCacheState) (cen : Nat) (data : CEntryData) : PathCacheState :=
  { cache with
    heap := cache.heap.insert cen (some { data with queueIt := cache.nextIt })
    queue := cache.queue ++ [(cache.nextIt, cen)]
    nextIt := cache.nextIt + 1 }

/-- Assign the parent of an entry. -/
def setParent (cache : PathCacheState) (cen parent : Nat) : PathCacheState :=
  { cache with
    heap := cache.heap.modify cen (·.map fun data => { data with parent := some parent }) }

/-- `queue.erase` of an iterator. -/
def eraseIt (cache : PathCacheState) (it : Nat) : PathCacheState :=
  { cache with queue := cache.queue.filter (·.1 ≠ it) }

/-- The state after `delEntry`. -/
def deleted (cache : PathCacheState) (cen : Nat) (data : CEntryData) : PathCacheState :=
  { cache with
    heap := cache.heap.erase cen
    paths := cache.paths.erase data.path
    queue := cache.queue.filter (·.1 ≠ data.queueIt)
    nentries := cache.nentries - 1 }

end PathCacheState

namespace PathCache_hash

/-- Change the members of the cache. -/
def modifyCache (change : PathCacheState → PathCacheState) : FsProg Unit := do
  let cache ← perform .getCache
  perform (.setCache (change cache))

/-- The data of an entry.  Using an entry that has none, or whose data was never
initialized, is undefined. -/
def readEntry (cen : Nat) : FsProg CEntryData := do
  let cache ← perform .getCache
  match cache.heap[cen]? with
  | some (some data) => pure data
  | _ => .halt .undefined

/-- Initialize an entry from the database.  The tokens are in reverse order. -/
def initEntry (cen : Nat) (parent : Option Nat) (tokens : List Bytes) : FsProg Unit := do
  let n ← (match parent, tokens with
    | some parent, leaf :: _ => do
        let parentData ← readEntry parent
        let d ← Node.cast .directory (← Node.getnode parentData.nodeid)
        Directory.getchild d leaf
    | _, _ => Node.getnode 0 : FsProg NodeRef)
  let uid ← Node.getattr UInt32 n.id .uid
  let gid ← Node.getattr UInt32 n.id .gid
  let mode ← Node.getattr UInt32 n.id .mode
  modifyCache fun cache =>
    let pushed := cache.pushBack cen
      { path := join tokens.reverse, nodeid := n.id, parent, uid, gid, mode, queueIt := 0 }
    { pushed with nentries := pushed.nentries + 1 }

/-- `paths.erase` of the iterator that an insertion returned when the table had so many
buckets.  It goes through the array of buckets, which a rehash has freed since if their number
has changed. -/
def eraseInserted (key : Bytes) (cen buckets : Nat) : FsProg Unit := do
  let cache ← perform .getCache
  if cache.buckets = buckets then perform (.setCache (cache.eraseBlank key cen))
  else .halt .undefined

/-- The entry stored under a key.  A missing one is inserted blank and then
initialized, and erased again when that throws. -/
def lookupKey (key : Bytes) (init : Nat → FsProg Unit) : FsProg Nat := do
  let cache ← perform .getCache
  match cache.paths[key]? with
  | some cen => pure cen
  | none => do
      perform (.setCache (cache.insertBlank key))
      (init cache.nextEntry).catching fun e => do
        eraseInserted key cache.nextEntry (cache.insertBlank key).buckets
        .throw e
      pure cache.nextEntry

/-- The entry of a path, given by its tokens in reverse order.  The climb to a
cached ancestor is the descent of the recursion, and the initialization of the
missing entries its way back. -/
def lookup : List Bytes → FsProg Nat
  | [] => lookupKey [] fun cen => initEntry cen none []
  | leaf :: up =>
      lookupKey (join (leaf :: up).reverse) fun cen => do
        let parent ← lookup up
        initEntry cen (some parent) (leaf :: up)

/-- Run `f` for the entry of a path and of each of its ancestors, from the
deepest one up. -/
def withPathFrom (f : Nat → FsProg Unit) : Nat → List Bytes → FsProg Unit
  | cen, [] => f cen
  | cen, _ :: up => do
      f cen
      let data ← readEntry cen
      match data.parent with
      | none => .halt .undefined
      | some parent => do
          let cache ← perform .getCache
          if cache.heap[parent]?.isSome then
            withPathFrom f parent up
          else do
            let parent ← lookup up
            modifyCache (·.setParent cen parent)
            withPathFrom f parent up

/-- Run `f` for a path and each of its ancestors. -/
def withPath (f : Nat → FsProg Unit) (tokens : List Bytes) : FsProg Unit := do
  let cen ← lookup tokens
  withPathFrom f cen tokens

/-- `PathCache_hash::delEntry`. -/
def delEntry (cen : Nat) : FsProg Unit := do
  let data ← readEntry cen
  modifyCache (·.deleted cen data)

/-- Throw unless an entry gives the caller search permission. -/
def checkAccess (sctx : SContext) (cen : Nat) : FsProg Unit := do
  let data ← readEntry cen
  if sctx.uid ≠ 0 ∧
      (if data.uid = sctx.uid then data.mode &&& sIxusr = 0
        else if data.gid ∈ sctx.groups then data.mode &&& sIxgrp = 0
        else data.mode &&& sIxoth = 0) then
    .throw .access
  else
    pure ()

/-- Move an entry to the back of the queue. -/
def promote (cen : Nat) : FsProg Unit := do
  let data ← readEntry cen
  modifyCache fun cache => (cache.eraseIt data.queueIt).pushBack cen data

/-- The loop that removes the least used entries of an oversized cache.  The fuel
is the length of the queue. -/
def evict : Nat → FsProg Unit
  | 0 => pure ()
  | fuel + 1 => do
      let cache ← perform .getCache
      if cache.nentries > cache.maxentries then
        match cache.queue with
        | [] => .halt .undefined
        | front :: _ => do
            delEntry front.2
            evict fuel
      else
        pure ()

/-- The part of `getnode` that holds the mutex. -/
def locate (sctx : SContext) (tokens : List Bytes) : FsProg Nat := do
  onlyIf (tokens ≠ []) (withPath (checkAccess sctx) tokens.tail)
  let cen ← lookup tokens
  promote cen
  let cache ← perform .getCache
  evict (cache.queue.length + 1)
  pure cen

/-- Run a block with the mutex locked. -/
def locked {α : Type} (body : FsProg α) : FsProg α := do
  perform .lockCache
  let result ← body.catching fun e => do
    perform .unlockCache
    .throw e
  perform .unlockCache
  pure result

/-- `PathCache_hash::getnode`. -/
def getnode (sctx : SContext) (path : Bytes) : FsProg NodeRef := do
  let cen ← locked (locate sctx (tokenize path).reverse)
  let data ← readEntry cen
  Node.getnode data.nodeid

/-- Drop the entry of a path. -/
def invalidate (path : Bytes) : FsProg Unit :=
  locked do
    let cache ← perform .getCache
    match cache.paths[join (tokenize path)]? with
    | some cen => delEntry cen
    | none => pure ()

end PathCache_hash

/-- `PathCache_hash`. -/
def PathCache_hash : PathCache where
  getnode := PathCache_hash.getnode
  invalidate := PathCache_hash.invalidate

end OfflineFs
