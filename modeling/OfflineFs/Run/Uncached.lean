import OfflineFs.Run.Quiet

/-!
# Code that leaves the path cache

Everything but the path caches themselves: reading and writing the databases, creating,
linking and removing nodes, and using the backend and the open files.
-/

namespace OfflineFs

open OfflineFs.Effect OfflineFs.Effect.Program

/-- Anything but changing the path cache. -/
def Uncached ⦃γ : Type⦄ : FsEff γ → Prop
  | .setCache _ => False
  | _ => True

/-- Changing anything but the path cache. -/
def Scope.serving : Scope where
  stores _ _ := True
  shapes := True
  caches := False
  opens := True
  commits := True

variable {α : Type} {prog : FsProg α}

theorem cache_exec (calls : Calls Uncached prog) (world : World) :
    (exec prog world).2.cache = world.cache := by
  apply calls.run fsHandler (fun before after => after.cache = before.cache) (fun _ => rfl)
    (fun early late => late.trans early)
  intro γ effect state allowed
  cases effect with
  | setCache => exact allowed.elim
  | _ => rfl

theorem uncached_of_scope {scope : Scope} (caches : ¬ scope.caches)
    (calls : Calls scope.Allows prog) : Calls Uncached prog := by
  refine calls.mono fun effect allowed => ?_
  cases effect with
  | setCache => exact caches allowed
  | _ => trivial

theorem Scope.serving_builds : Scope.serving.Builds where
  adorns _ _ _ := trivial
  registers := trivial
  shapes := trivial

/-- Code that may do anything but change the path cache does not change it. -/
theorem uncached_serving (calls : Calls Scope.serving.Allows prog) : Calls Uncached prog :=
  uncached_of_scope not_false calls

theorem uncached_addchild (d : NodeRef) (name : Bytes) (n : NodeRef) :
    Calls Uncached (Directory.addchild d name n) :=
  uncached_serving (Scope.serving_builds.addchild d name n)

theorem uncached_delchild (d : NodeRef) (name : Bytes) :
    Calls Uncached (Directory.delchild d name) :=
  uncached_serving (Scope.serving_builds.delchild d name)

/-- A request that uses an open file leaves the path cache. -/
theorem uncached_request {fs : FS} (sound : fs.pcache.Sound) (ctx : Context) {request : Request}
    (handles : ¬ request.scope.caches) : Calls Uncached (request.prog fs ctx) :=
  uncached_of_scope handles (request.calls_scope sound ctx)

end OfflineFs
