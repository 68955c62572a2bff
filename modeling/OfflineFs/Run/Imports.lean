import OfflineFs.Model.Offimport
import OfflineFs.Run.Operations

/-!
# Runs with imports

A filesystem that serves requests and is imported into, line by line, by processes
that keep a path cache of their own.
-/

namespace OfflineFs

open OfflineFs.Effect OfflineFs.Effect.Program

/-- The filesystem, and the path cache of the `offimport` that runs. -/
structure Site where
  world : World
  pcache : PathCacheState

/-- A request, the start of an `offimport`, or a line that it reads. -/
inductive SiteOp
  | call (request : Call)
  | start
  | line (s : Offimport.Settings) (a : Offimport.Accounts) (line : Bytes)

namespace Site

/-- The world as the importing process sees it. -/
def importing (site : Site) : World :=
  site.world.withCache site.pcache

/-- What is left of a transaction that was committed, or undone after an error. -/
def ended (before : Dbs) : Outcome Err Unit × World → World
  | (.ok (), after) => after
  | (_, after) => after.withDbs before

/-- The world after a line. -/
def imported (site : Site) (s : Offimport.Settings) (a : Offimport.Accounts) (line : Bytes) :
    World :=
  if line = [] then site.importing
  else ended site.world.dbs (exec (Offimport.round PathCache_hash s a line) site.importing)

/-- The site after a step. -/
def after (fs : FS) (site : Site) : SiteOp → Site
  | .call request => { site with world := site.world.after fs request }
  | .start => { site with pcache := .initial }
  | .line s a line =>
      let world := site.imported s a line
      { world := world.withCache site.world.cache, pcache := world.cache }

/-- A filesystem that was rebuilt. -/
def rebuilt (media : Db UInt32) (getuid getgid : UInt32) (clock : Nat → UInt64)
    (reply : List SysEvent → SysCall → SysResult) (order : ByteOrder) : Site :=
  { world := .rebuilt media getuid getgid clock reply order, pcache := .initial }

/-- What holds of the databases before a line, and after its fields were imported
without error, holds after the line. -/
theorem dbs_imported {property : Dbs → Prop} {site : Site} {s : Offimport.Settings}
    {a : Offimport.Accounts} {line : Bytes} (start : property site.world.dbs)
    (imports : ∀ m after, s.format.matchText {} (line ++ [10]) = some m →
      exec (Offimport.importFields PathCache_hash s a m) site.importing = (.ok (), after) →
      property after.dbs) :
    property (site.imported s a line).dbs := by
  unfold imported
  split
  · exact start
  · rcases result : exec (Offimport.round PathCache_hash s a line) site.importing with
      ⟨outcome, last⟩
    cases outcome with
    | error e => exact start
    | fault stop => exact start
    | ok =>
        rw [Offimport.round, exec_bind, Outcome.andThen_eq_ok_iff] at result
        obtain ⟨_, after, lineImports, commits⟩ := result
        have committed : after.dbs = last.dbs := congrArg (fun ended => ended.2.dbs) commits
        change property last.dbs
        rw [← committed]
        unfold Offimport.importLine at lineImports
        split at lineImports
        · cases lineImports
        · rename_i m matched
          exact imports m after matched lineImports

end Site

end OfflineFs
