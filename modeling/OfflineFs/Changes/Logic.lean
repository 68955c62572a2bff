import OfflineFs.Changes.Primitives
import OfflineFs.Changes.Warrant
import OfflineFs.Effect.Triple

/-!
# Code that keeps to a warrant

The triples of code whose every change a warrant permits, with one rule for each
operation that the requests are made of.  The conditions speak of the databases
alone, so nothing depends on the clock, the backend or the path cache.
-/

namespace OfflineFs

open OfflineFs.Effect OfflineFs.Effect.Program

namespace Warrant

variable (w : Warrant)

/-- Reached by permitted changes that add at most so many entries, and never more
than three. -/
def Within (added : Nat) (now : Dbs) : Prop :=
  added ≤ 3 ∧ ∃ count ≤ added, w.Written count now

/-- Reached so, with a condition. -/
def At (added : Nat) (condition : Dbs → Prop) (now : Dbs) : Prop :=
  w.Within added now ∧ condition now

/-- Nothing was changed yet. -/
def Unchanged (now : Dbs) : Prop :=
  now = w.start

/-- Code that ends, however it does, after permitted changes. -/
def Keeps {α : Type} (pre : Dbs → Prop) (prog : FsProg α) (post : α → Dbs → Prop) : Prop :=
  Triple fsHandler (fun world => pre world.dbs) prog (fun value world => post value world.dbs)
    (fun _ world => w.Within 3 world.dbs) (fun world => w.Within 3 world.dbs)

variable {w} {added : Nat} {condition q pre : Dbs → Prop} {α β : Type}
variable {post : α → Dbs → Prop}

theorem within_start : w.Within 0 w.start :=
  ⟨Nat.zero_le 3, 0, Nat.le_refl 0, .start⟩

theorem Within.limit {now : Dbs} (within : w.Within added now) : w.Within 3 now := by
  obtain ⟨small, count, few, written⟩ := within
  exact ⟨Nat.le_refl 3, count, few.trans small, written⟩

theorem Within.mono {now : Dbs} {more : Nat} (within : w.Within added now) (le : added ≤ more)
    (small : more ≤ 3) : w.Within more now := by
  obtain ⟨-, count, few, written⟩ := within
  exact ⟨small, count, few.trans le, written⟩

theorem Within.change {now : Dbs} {change : Change} (within : w.Within added now)
    (permits : w.Permits now change) (none : change.added = 0) :
    w.Within added (change.apply now) := by
  obtain ⟨small, count, few, written⟩ := within
  have next := Written.change written permits
  rw [none] at next
  exact ⟨small, count, few, next⟩

theorem Within.enter {now : Dbs} {d n : UInt64} {name : Bytes} {nlink : UInt32}
    (within : w.Within added now) (permits : w.Permits now (.enter d name n nlink))
    (small : added + 1 ≤ 3) : w.Within (added + 1) (now.entered d name n nlink) := by
  obtain ⟨-, count, few, written⟩ := within
  exact ⟨small, count + 1, Nat.succ_le_succ few, Written.change written permits⟩

theorem At.start : w.At 0 w.Unchanged w.start :=
  ⟨within_start, rfl⟩

theorem At.eq_start {now : Dbs} (at_ : w.At added w.Unchanged now) : now = w.start :=
  at_.2

/-! ## Composition -/

theorem keeps_pure {value : α} (holds : ∀ now, pre now → post value now) :
    w.Keeps pre (Pure.pure value) post :=
  triple_pure fun (world : World) => holds world.dbs

theorem keeps_throw {e : Err} (holds : ∀ now, pre now → w.Within 3 now) :
    w.Keeps pre (.throw e) post :=
  triple_throw fun world => holds world.dbs

theorem keeps_bind {first : FsProg α} {next : α → FsProg β} {q : α → Dbs → Prop}
    {post : β → Dbs → Prop} (begins : w.Keeps pre first q)
    (continues : ∀ value, w.Keeps (q value) (next value) post) :
    w.Keeps pre (first >>= next) post :=
  triple_bind begins continues

theorem keeps_ite {holds : Prop} [Decidable holds] {yes no : FsProg α}
    (isTrue : holds → w.Keeps pre yes post) (isFalse : ¬ holds → w.Keeps pre no post) :
    w.Keeps pre (if holds then yes else no) post :=
  triple_ite isTrue isFalse

theorem Keeps.weaken {pre' : Dbs → Prop} {post' : α → Dbs → Prop} {prog : FsProg α}
    (keeps : w.Keeps pre prog post) (started : ∀ now, pre' now → pre now)
    (returned : ∀ value now, post value now → post' value now) : w.Keeps pre' prog post' :=
  Triple.weaken keeps (fun world => started world.dbs) (fun value world => returned value world.dbs)
    (fun _ _ => id) fun _ => id

/-- A fact that the precondition gives may be used. -/
theorem keeps_of_fact {f : Prop} {prog : FsProg α} (gives : ∀ now, pre now → f)
    (keeps : f → w.Keeps pre prog post) : w.Keeps pre prog post :=
  triple_of_fact (fun world => gives world.dbs) keeps

/-- A handler starts where the body threw. -/
theorem keeps_catching {body : FsProg α} {recover : Err → FsProg α} (thrown : Err → Dbs → Prop)
    (tries : Triple fsHandler (fun world => pre world.dbs) body
      (fun value world => post value world.dbs) (fun e world => thrown e world.dbs)
      fun world => w.Within 3 world.dbs)
    (recovers : ∀ e, w.Keeps (thrown e) (recover e) post) :
    w.Keeps pre (body.catching recover) post :=
  triple_catching tries recovers

/-! ## Reading -/

/-- Code that returns or throws what the databases say. -/
theorem keeps_read {prog : FsProg α} (read : Dbs → Except Err α)
    (reads : ∀ world, exec prog world = (.ofExcept (read world.dbs), world)) :
    w.Keeps (w.At added condition) prog fun value =>
      w.At added fun now => condition now ∧ read now = .ok value := by
  intro world met
  change Outcome.Satisfies _ _ _ (exec prog world)
  rw [reads]
  cases result : read world.dbs with
  | ok value => exact ⟨met.1, met.2, result⟩
  | error e => exact met.1.limit

/-- Before the first change, what is read is a fact about the start. -/
theorem keeps_look {prog : FsProg α} (read : Dbs → Except Err α) {next : α → FsProg β}
    {post : β → Dbs → Prop}
    (reads : ∀ world, exec prog world = (.ofExcept (read world.dbs), world))
    (continues : ∀ value, read w.start = .ok value →
      w.Keeps (w.At 0 w.Unchanged) (next value) post) :
    w.Keeps (w.At 0 w.Unchanged) (prog >>= next) post := by
  refine keeps_bind (keeps_read read reads) fun value => ?_
  refine keeps_of_fact (f := read w.start = .ok value) ?_ fun found =>
    (continues value found).weaken (fun now met => ⟨met.1, met.2.1⟩) fun _ _ => id
  rintro now ⟨-, rfl, found⟩
  exact found

section Looking

variable {next : α → FsProg β} {finished : β → Dbs → Prop}

theorem keeps_access {n : NodeRef} {sctx : SContext} {mode : UInt32} {next : Unit → FsProg β}
    (continues : w.start.access n.id sctx mode = .ok () →
      w.Keeps (w.At 0 w.Unchanged) (next ()) finished) :
    w.Keeps (w.At 0 w.Unchanged) (Node.access n sctx mode >>= next) finished :=
  keeps_look (fun dbs => dbs.access n.id sctx mode) (Node.exec_access n sctx mode)
    fun _ => continues

theorem keeps_sticky {parent n : NodeRef} {sctx : SContext} {next : Unit → FsProg β}
    (continues : w.start.checkStickyBit sctx parent.id n.id = .ok () →
      w.Keeps (w.At 0 w.Unchanged) (next ()) finished) :
    w.Keeps (w.At 0 w.Unchanged) (checkStickyBit sctx parent n >>= next) finished :=
  keeps_look (fun dbs => dbs.checkStickyBit sctx parent.id n.id) (exec_checkStickyBit sctx parent n)
    fun _ => continues

theorem keeps_getchild {d : NodeRef} {name : Bytes} {next : NodeRef → FsProg β}
    (continues : ∀ n, w.start.getchild d.id name = .ok n →
      w.Keeps (w.At 0 w.Unchanged) (next n) finished) :
    w.Keeps (w.At 0 w.Unchanged) (Directory.getchild d name >>= next) finished :=
  keeps_look (fun dbs => dbs.getchild d.id name) (Directory.exec_getchild d name) continues

theorem keeps_node {id : UInt64} {next : NodeRef → FsProg β}
    (continues : ∀ n, w.start.getnode id = .ok n →
      w.Keeps (w.At 0 w.Unchanged) (next n) finished) :
    w.Keeps (w.At 0 w.Unchanged) (Node.getnode id >>= next) finished :=
  keeps_look (fun dbs => dbs.getnode id) (Node.exec_getnode id) continues

theorem keeps_attr {T : Type} [HostInt T] {id : UInt64} {attr : Attr} {next : T → FsProg β}
    (continues : ∀ value, w.start.attr T id attr = .ok value →
      w.Keeps (w.At 0 w.Unchanged) (next value) finished) :
    w.Keeps (w.At 0 w.Unchanged) (Node.getattr T id attr >>= next) finished :=
  keeps_look (fun dbs => dbs.attr T id attr) (Node.exec_getattr T id attr) continues

theorem keeps_cast {target : NodeKind} {n : NodeRef} {next : NodeRef → FsProg β}
    (continues : n.kind = target → w.Keeps (w.At added condition) (next n) finished) :
    w.Keeps (w.At added condition) (Node.cast target n >>= next) finished := by
  unfold Node.cast
  split
  · rename_i isTarget
    exact continues isTarget
  · exact fun world met => met.1.limit

end Looking

/-- Code that reads and uses the cache leaves the databases. -/
theorem keeps_cacheOnly {prog : FsProg α} (calls : Calls CacheOnly prog) :
    w.Keeps (w.At added condition) prog fun _ => w.At added condition := by
  intro world met
  change Outcome.Satisfies _ _ _ (exec prog world)
  have same := withCache_exec calls world
  rcases result : exec prog world with ⟨outcome, after⟩
  rw [result] at same
  simp only at same
  have still : w.At added condition after.dbs := by
    rw [same]
    exact met
  cases outcome with
  | ok value => exact still
  | error e => exact still.1.limit
  | fault stop => exact still.1.limit

/-- A path leads to a node of the start, of the class that the databases say. -/
theorem keeps_getnode {pc : PathCache} (sound : pc.Sound) (sctx : SContext) (path : Bytes)
    {next : NodeRef → FsProg β} {post : β → Dbs → Prop}
    (continues : ∀ n, w.start.getnode n.id = .ok n →
      w.Keeps (w.At 0 w.Unchanged) (next n) post) :
    w.Keeps (w.At 0 w.Unchanged) (pc.getnode sctx path >>= next) post := by
  refine keeps_bind (q := fun n now => w.At 0 w.Unchanged now ∧
    w.start.getnode n.id = .ok n) ?_ fun n => ?_
  · intro world met
    change Outcome.Satisfies _ _ _ (exec (pc.getnode sctx path) world)
    obtain ⟨outcome, cache, result, present⟩ := sound.getnode sctx path world
    rw [result]
    cases outcome with
    | ok n =>
        refine ⟨met, ?_⟩
        rw [← met.eq_start]
        exact present n rfl
    | error e => exact met.1.limit
    | fault stop => exact met.1.limit
  · exact keeps_of_fact (fun now met => met.2) fun found =>
      (continues n found).weaken (fun now met => met.1) fun _ _ => id

/-- The parent directory of a path is one of the start. -/
theorem keeps_resolve {pc : PathCache} (sound : pc.Sound) {sctx : SContext} {path : Bytes}
    {next : Path → FsProg β} {post : β → Dbs → Prop}
    (continues : ∀ p : Path, w.start.getnode p.parent.id = .ok ⟨p.parent.id, .directory⟩ →
      p.leaf = leafOf path → w.Keeps (w.At 0 w.Unchanged) (next p) post) :
    w.Keeps (w.At 0 w.Unchanged) (Path.resolve pc sctx path >>= next) post := by
  refine keeps_bind (q := fun p now => w.At 0 w.Unchanged now ∧
    w.start.getnode p.parent.id = .ok ⟨p.parent.id, .directory⟩ ∧ p.leaf = leafOf path) ?_ ?_
  · apply keeps_getnode sound
    intro found isNode
    apply keeps_cast
    intro isDirectory
    apply keeps_pure
    intro now met
    refine ⟨met, ?_, rfl⟩
    rw [isNode, ← isDirectory]
  · intro p
    apply keeps_of_fact (fun now met => met.2)
    rintro ⟨directory, leafEq⟩
    exact (continues p directory leafEq).weaken (fun now met => met.1) fun _ _ => id

/-! ## Writing -/

/-- An operation that only stores an attribute. -/
theorem keeps_setattrv {id : UInt64} {name value : Bytes}
    (permits : ∀ now, condition now → w.Permits now (.put id name value))
    (leads : ∀ now, condition now → q (now.put .nodes id name value)) :
    w.Keeps (w.At added condition) (Node.setattrv id name value) fun _ => w.At added q := by
  intro world met
  exact ⟨met.1.change (permits _ met.2) rfl, leads _ met.2⟩

theorem keeps_setattr {T : Type} [HostInt T] {id : UInt64} {attr : Attr} {value : T}
    (permits : ∀ now, condition now → w.Permits now (.put id attr.name (hostToDb value)))
    (leads : ∀ now, condition now → q (now.setattr id attr value)) :
    w.Keeps (w.At added condition) (Node.setattr id attr value) fun _ => w.At added q :=
  keeps_setattrv permits leads

theorem keeps_setTime {id : UInt64} {attr : Attr} (listed : attr ∈ stamps)
    (leads : ∀ now (time : UInt64), condition now → q (now.setattr id attr time)) :
    w.Keeps (w.At added condition) (Node.setTime id attr) fun _ => w.At added q := by
  intro world met
  exact ⟨met.1.change (.stamp listed id world.now) rfl, leads _ _ met.2⟩

theorem keeps_touchParent (parent : NodeRef)
    (leads : ∀ now (attr : Attr) (time : UInt64), attr ∈ stamps → condition now →
      condition (now.setattr parent.id attr time)) :
    w.Keeps (w.At added condition) (touchParent parent) fun _ => w.At added condition :=
  keeps_bind (keeps_setTime (by decide) fun now time => leads now .ctime time (by decide)) fun _ =>
    keeps_setTime (by decide) fun now time => leads now .mtime time (by decide)

/-! ## Linking and unlinking -/

/-- Where a node that could not be linked leaves the databases. -/
def Unlinked (w : Warrant) (added : Nat) (condition : Dbs → Prop) (n : NodeRef) (now : Dbs) :
    Prop :=
  w.Within added now ∧ ∃ before, condition before ∧ (now = before ∨ now = before.removed n)

/-- Entering a node at a name, which may raise the count once more. -/
theorem keeps_link {d n : NodeRef} {name : Bytes} (small : added + 1 ≤ 3)
    (entering : w.Entering d.id name n.id)
    (leads : ∀ now nlink, condition now → now.attr UInt32 n.id .nlink = .ok nlink →
      now.get .directories d.id name = none → q (now.entered d.id name n.id nlink)) :
    Triple fsHandler (fun world => w.At added condition world.dbs) (Directory.addchild d name n)
      (fun _ world => w.At (added + 1) q world.dbs)
      (fun _ world => w.Unlinked added condition n world.dbs)
      fun world => w.Within 3 world.dbs := by
  intro world met
  change Outcome.Satisfies _ _ _ (exec (Directory.addchild d name n) world)
  cases counted : world.dbs.attr UInt32 n.id .nlink with
  | error e =>
      rw [Directory.exec_addchild_error counted]
      exact ⟨met.1, _, met.2, .inl rfl⟩
  | ok nlink =>
      cases stored : world.dbs.get .directories d.id name with
      | none =>
          rw [Directory.exec_addchild counted stored]
          exact ⟨met.1.enter (.enter stored counted entering) small,
            leads _ _ met.2 counted stored⟩
      | some value =>
          obtain ⟨after, result, afterEq⟩ := Directory.exec_addchild_exists counted stored
          rw [result]
          split at afterEq
          · rename_i last
            refine ⟨?_, _, met.2, .inr afterEq⟩
            rw [afterEq]
            exact met.1.change (.unused counted last) rfl
          · refine ⟨?_, _, met.2, .inl afterEq⟩
            rw [afterEq]
            exact met.1

theorem keeps_addchild {d n : NodeRef} {name : Bytes} (small : added + 1 ≤ 3)
    (entering : w.Entering d.id name n.id)
    (leads : ∀ now nlink, condition now → now.attr UInt32 n.id .nlink = .ok nlink →
      now.get .directories d.id name = none → q (now.entered d.id name n.id nlink)) :
    w.Keeps (w.At added condition) (Directory.addchild d name n) fun _ => w.At (added + 1) q :=
  Triple.weaken (keeps_link small entering leads) (fun _ => id) (fun _ _ => id)
    (fun _ _ met => met.1.limit) fun _ => id

/-- Erasing an entry and unlinking its node. -/
theorem keeps_delchild {d : NodeRef} {name : Bytes}
    (leaving : ∀ now n, condition now → now.getchild d.id name = .ok n →
      w.Leaving now d.id name n)
    (leads : ∀ now n nlink, condition now → now.getchild d.id name = .ok n →
      now.attr UInt32 n.id .nlink = .ok nlink → q (now.left d.id name n nlink)) :
    w.Keeps (w.At added condition) (Directory.delchild d name) fun _ => w.At added q := by
  intro world met
  change Outcome.Satisfies _ _ _ (exec (Directory.delchild d name) world)
  cases child : world.dbs.getchild d.id name with
  | error e =>
      rw [Directory.exec_delchild_error child]
      exact met.1.limit
  | ok n =>
      cases counted : world.dbs.attr UInt32 n.id .nlink with
      | error e =>
          rw [Directory.exec_delchild_uncounted child counted]
          exact (met.1.change (.strip child counted (leaving _ _ met.2 child)) rfl).limit
      | ok nlink =>
          obtain ⟨after, result, afterEq⟩ := Directory.exec_delchild child counted
          rw [result]
          have permitted := met.1.change (.leave child counted (leaving _ _ met.2 child)) rfl
          refine ⟨?_, ?_⟩
          · rw [afterEq]
            exact permitted
          · rw [afterEq]
            exact leads _ _ _ met.2 child counted

/-! ## Requests -/

/-- A request keeps to its warrant when its body does. -/
theorem within_request {ctx : Context} {onError : Err → α} {body : SContext → FsProg α}
    {world : World} (found : world.dbs = w.start) (caller : ctx.sctx = some w.sctx)
    (keeps : w.Keeps (w.At 0 w.Unchanged) (body w.sctx) fun _ => w.Within 3) :
    w.Within 3 (exec (request ctx onError body) world).2.dbs := by
  have begun : w.At 0 w.Unchanged world.dbs := by
    rw [found]
    exact At.start
  have ended := keeps world begun
  change Outcome.Satisfies _ _ _ (exec (body w.sctx) world) at ended
  rw [exec_request, caller]
  simp only
  rcases result : exec (body w.sctx) world with ⟨outcome, after⟩
  rw [result] at ended
  cases outcome with
  | ok value => exact ended
  | error e => exact ended
  | fault stop => exact ended

end Warrant

/-- What holds before a request that resolves a parent directory first, and after the
rest of it, holds after the request. -/
theorem dbs_resolving (property : Dbs → Prop) {pc : PathCache} (sound : pc.Sound) {ctx : Context}
    {α : Type} {onError : Err → α} {path : Bytes} {next : SContext → Path → FsProg α}
    {world : World} (start : property world.dbs)
    (continues : ∀ sctx (p : Path) begun, begun.dbs = world.dbs → ctx.sctx = some sctx →
      (exec (pc.getnode sctx (splitPath path).1) world).1 = .ok p.parent →
      world.dbs.getnode p.parent.id = .ok ⟨p.parent.id, .directory⟩ → p.leaf = leafOf path →
      property (exec (next sctx p) begun).2.dbs) :
    property (exec (request ctx onError fun sctx => do
      let p ← Path.resolve pc sctx path
      next sctx p) world).2.dbs := by
  rw [exec_request]
  cases caller : ctx.sctx with
  | none => exact start
  | some sctx =>
      obtain ⟨outcome, cache, result, present⟩ := sound.getnode sctx (splitPath path).1 world
      simp only [Path.resolve, exec_bind, result]
      cases outcome with
      | error e => exact start
      | fault stop => exact start
      | ok n =>
          simp only [Outcome.andThen_ok, Node.exec_cast]
          by_cases isDirectory : n.kind = .directory
          · have isNode : n = ⟨n.id, .directory⟩ := by rw [← isDirectory]
            have ended := continues sctx ⟨n, (splitPath path).2⟩ (world.withCache cache) rfl caller
              (congrArg Prod.fst result) ((present n rfl).trans (congrArg Except.ok isNode)) rfl
            simp only [isDirectory, if_true, Outcome.andThen_ok, exec_pure]
            rcases final : exec (next sctx ⟨n, (splitPath path).2⟩) (world.withCache cache) with
              ⟨outcome, after⟩
            rw [final] at ended
            cases outcome with
            | ok value => exact ended
            | error e => exact ended
            | fault stop => exact ended
          · simp only [isDirectory, if_false, Outcome.andThen_error]
            exact start

namespace Warrant

variable {w : Warrant} {α : Type}

/-- The first path that a request looks up leads to its target. -/
theorem within_resolving {pc : PathCache} (sound : pc.Sound) {ctx : Context} {onError : Err → α}
    {path : Bytes} {next : SContext → Path → FsProg α} {world : World}
    (found : world.dbs = w.start) (caller : ctx.sctx = some w.sctx)
    (leads : ∀ d, (exec (pc.getnode w.sctx (splitPath path).1) world).1 = .ok ⟨d, .directory⟩ →
      w.target d)
    (keeps : ∀ p : Path, w.start.getnode p.parent.id = .ok ⟨p.parent.id, .directory⟩ →
      p.leaf = leafOf path → w.target p.parent.id →
      w.Keeps (w.At 0 w.Unchanged) (next w.sctx p) fun _ => w.Within 3) :
    w.Within 3 (exec (request ctx onError fun sctx => do
      let p ← Path.resolve pc sctx path
      next sctx p) world).2.dbs := by
  have begun : w.At 0 w.Unchanged world.dbs := by
    rw [found]
    exact At.start
  refine dbs_resolving _ sound begun.1.limit fun sctx p middle same isCaller isParent directory
    leafEq => ?_
  rw [caller] at isCaller
  cases isCaller
  have isNode : p.parent = ⟨p.parent.id, .directory⟩ := by
    have present := sound.present _ _ world _ isParent
    rw [directory] at present
    exact (Except.ok.inj present).symm
  have target := leads p.parent.id (isParent.trans (congrArg Outcome.ok isNode))
  rw [found] at directory
  have beginning : w.At 0 w.Unchanged middle.dbs := by
    rw [same]
    exact begun
  have ended := keeps p directory leafEq target middle beginning
  change Outcome.Satisfies _ _ _ (exec (next w.sctx p) middle) at ended
  rcases final : exec (next w.sctx p) middle with ⟨outcome, after⟩
  rw [final] at ended
  cases outcome with
  | ok value => exact ended
  | error e => exact ended
  | fault stop => exact ended

end Warrant

end OfflineFs
