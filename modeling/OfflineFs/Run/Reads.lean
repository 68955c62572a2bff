import OfflineFs.Effect.Calls
import OfflineFs.Model.Fs

/-!
# Code that reads the databases

Looking nodes up and checking permissions makes no call but to read attributes.
-/

namespace OfflineFs

open OfflineFs.Effect OfflineFs.Effect.Program

section Reads

variable {permitted : ∀ ⦃γ : Type⦄, FsEff γ → Prop}
variable (reads : ∀ table id name, permitted (.get table id name))

include reads

theorem calls_getattrv (table : Table) (id : UInt64) (name : Bytes) :
    Calls permitted (Register.getattrv table id name) := by
  apply calls_bind (calls_perform (reads table id name))
  intro found
  cases found <;> trivial

theorem calls_getattr (T : Type) [HostInt T] (table : Table) (id : UInt64) (name : Bytes) :
    Calls permitted (Register.getattr T table id name) := by
  apply calls_bind (calls_getattrv reads table id name)
  intro bytes
  cases dbToHost T bytes <;> trivial

theorem calls_getnode (id : UInt64) : Calls permitted (Node.getnode id) := by
  apply calls_catching
  · exact calls_bind (calls_getattr reads _ _ _ _) fun _ => trivial
  · intro e
    cases e <;> trivial

omit reads in
theorem calls_cast (target : NodeKind) (n : NodeRef) : Calls permitted (Node.cast target n) :=
  calls_ite trivial trivial

theorem calls_getchild (d : NodeRef) (name : Bytes) :
    Calls permitted (Directory.getchild d name) := by
  apply calls_catching
  · exact calls_bind (calls_getattr reads _ _ _ _) fun _ => calls_getnode reads _
  · intro e
    cases e <;> trivial

theorem calls_access (n : NodeRef) (sctx : SContext) (mode : UInt32) :
    Calls permitted (Node.access n sctx mode) := by
  apply calls_ite
  · apply calls_bind (calls_getattr reads _ _ _ _)
    intro fmode
    apply calls_bind (calls_getattr reads _ _ _ _)
    intro uid
    refine calls_bind ?_ fun granted => calls_ite trivial trivial
    refine calls_ite trivial ?_
    exact calls_bind (calls_getattr reads _ _ _ _) fun gid => trivial
  · trivial

theorem calls_checkStickyBit (sctx : SContext) (parent n : NodeRef) :
    Calls permitted (checkStickyBit sctx parent n) := by
  apply calls_bind (calls_getattr reads _ _ _ _)
  intro mode
  apply calls_ite
  · apply calls_bind (calls_getattr reads _ _ _ _)
    intro owner
    apply calls_ite
    · exact calls_bind (calls_getattr reads _ _ _ _) fun uid => calls_ite trivial trivial
    · trivial
  · trivial

theorem calls_findchild (d : NodeRef) (name : Bytes) :
    Calls permitted (FS.findchild d name) := by
  apply calls_catching
  · exact calls_bind (calls_getchild reads d name) fun child => trivial
  · intro e
    cases e <;> trivial

theorem calls_climbMeets (srcid : UInt64) (fuel : Nat) (n : NodeRef) :
    Calls permitted (FS.climbMeets srcid fuel n) := by
  induction fuel generalizing n with
  | zero => trivial
  | succ fuel ih =>
      refine calls_ite trivial ?_
      refine calls_ite trivial ?_
      apply calls_bind (calls_getchild reads n _)
      intro parent
      exact calls_bind (calls_cast _ _) fun up => ih up

end Reads

end OfflineFs
