import OfflineFs.Model.Nodes

/-!
# Tokens and paths

Two ways of taking a path apart: into the list of its components, and into its
parent directory and last component.
-/

namespace OfflineFs

open OfflineFs.Effect

/-- The loop of `tokenize` for the separator `/`, on what is left of the path. -/
def tokenizeLoop : Nat → Bytes → List Bytes
  | 0, _ => []
  | fuel + 1, rest =>
      let token := rest.takeWhile (· ≠ slash)
      let next := (rest.dropWhile (· ≠ slash)).drop 1
      if rest = [] then []
      else if token = [] then tokenizeLoop fuel next
      else token :: tokenizeLoop fuel next

/-- The components of a path.  Every round of the loop consumes a byte. -/
def tokenize (path : Bytes) : List Bytes :=
  tokenizeLoop path.length path

/-- `join` with the separator `/`. -/
def join : List Bytes → Bytes
  | [] => []
  | first :: rest => rest.foldl (fun result token => result ++ [slash] ++ token) first

/-- The `parentpath` and `leaf` that the constructor of `Path` computes. -/
def splitPath (path : Bytes) : Bytes × Bytes :=
  match Medium.lastWhere (· ≠ slash) path with
  | none => ([], [])
  | some notslashEnd =>
      match Medium.lastWhere (· = slash) (path.take notslashEnd) with
      | none => (path, path.take notslashEnd)
      | some slashEnd =>
          (path.take (slashEnd - 1), (path.take notslashEnd).drop slashEnd)

/-- A `PathCache` object. -/
structure PathCache where
  getnode : SContext → Bytes → FsProg NodeRef
  invalidate : Bytes → FsProg Unit

/-- A `Path<T>` object. -/
structure Path where
  parent : NodeRef
  leaf : Bytes
  deriving DecidableEq, Repr

namespace Path

/-- The constructor: instantiate the parent directory. -/
def resolve (pch : PathCache) (sctx : SContext) (path : Bytes) : FsProg Path := do
  let parent ← Node.cast .directory (← pch.getnode sctx (splitPath path).1)
  pure ⟨parent, (splitPath path).2⟩

/-- Create a new node named `leaf` at `parent`, with the `create` of its class. -/
def create (p : Path) (sctx : SContext) (createT : FsProg NodeRef) : FsProg NodeRef := do
  Node.access p.parent sctx (wOk ||| xOk)
  let n ← createT
  (Directory.addchild p.parent p.leaf n).catching fun e => do
    Node.remove n
    .throw e
  pure n

end Path

end OfflineFs
