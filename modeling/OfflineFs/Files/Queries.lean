import OfflineFs.Run.Requests
import OfflineFs.Run.Files
import OfflineFs.Run.Start

/-!
# Sizes of extended attributes

A caller of `getxattr` or `listxattr` gives a buffer and learns how much was to be written.
With an empty buffer it only asks for the size.
-/

namespace OfflineFs

open OfflineFs.Effect OfflineFs.Effect.Program

/-! ## The protocol -/

/-- What a reply with a content promises to a caller with a buffer of a size.  An empty buffer
asks for the length.  A reply that is not negative otherwise counts bytes that are in the
buffer, and they are the content. -/
def Promised (size : Nat) (content : Bytes) (reply : Int × Bytes) : Prop :=
  (size = 0 → reply.1 = content.length ∧ reply.2 = []) ∧
    (0 < size → 0 ≤ reply.1 →
      reply.1 ≤ size ∧ reply.1 = content.length ∧ reply.2.take content.length = content)

/-- A length that the reply can carry, and that is in the buffer unless the buffer is empty or
the reply comes out negative. -/
def Fits (size length : Nat) : Prop :=
  (length < 2 ^ 31 ∧ (size = 0 ∨ length ≤ size)) ∨ (0 < size ∧ toCInt length < 0)

theorem toCInt_eq_iff (length : Nat) : toCInt (length : Int) = length ↔ length < 2 ^ 31 := by
  rw [toCInt, Int.bmod_def]
  constructor
  · intro same
    split at same <;> omega
  · intro small
    split <;> omega

/-- A reply that counts all of the content keeps the promise exactly when the content fits. -/
theorem promised_iff {size : Nat} {content written : Bytes}
    (within : written.length ≤ size) (whole : content.length ≤ size → written = content) :
    Promised size content (toCInt content.length, written) ↔ Fits size content.length := by
  simp only [Promised, Fits]
  constructor
  · rintro ⟨asked, claimed⟩
    rcases Nat.eq_zero_or_pos size with empty | positive
    · exact .inl ⟨(toCInt_eq_iff _).mp (asked empty).1, .inl empty⟩
    · rcases lt_or_ge (toCInt (content.length : Int)) 0 with negative | counted
      · exact .inr ⟨positive, negative⟩
      · obtain ⟨least, same, -⟩ := claimed positive counted
        have isLength : toCInt (content.length : Int) = content.length := same
        change toCInt (content.length : Int) ≤ size at least
        exact .inl ⟨(toCInt_eq_iff _).mp isLength, .inr (by omega)⟩
  · rintro (⟨small, room⟩ | ⟨positive, negative⟩)
    · have isLength : toCInt (content.length : Int) = content.length := (toCInt_eq_iff _).mpr small
      constructor
      · intro empty
        exact ⟨isLength, List.eq_nil_of_length_eq_zero (by omega)⟩
      · intro positive _
        have fits : content.length ≤ size := room.resolve_left (Nat.ne_of_gt positive)
        rw [whole fits]
        refine ⟨?_, isLength, List.take_length⟩
        rw [isLength]
        exact Int.ofNat_le.mpr fits
    · constructor
      · intro empty
        exact absurd empty (Nat.ne_of_gt positive)
      · intro _ counted
        exact absurd negative (not_lt.mpr counted)

/-! ## The two requests -/

/-- The requests that report a size. -/
inductive Query
  | getxattr (name : Bytes)
  | listxattr

namespace Query

/-- The request that asks the query. -/
def prog (fs : FS) (ctx : Context) (path : Bytes) (size : Nat) : Query → FsProg (Int × Bytes)
  | getxattr name => fs.getxattr ctx path name size
  | listxattr => fs.listxattr ctx path size

/-- The attribute names of a register, each followed by a zero byte. -/
def nameList (names : List Bytes) : Bytes :=
  names.flatMap fun name => name ++ [0]

/-- What the request is about, at a node. -/
def content (dbs : Dbs) (id : UInt64) : Query → Option Bytes
  | getxattr name => dbs.get .nodes id name
  | listxattr => some (nameList (dbs.nodes.attrs id))

/-- The node of the path is found, and this is what the request is about. -/
def Finds (query : Query) (fs : FS) (ctx : Context) (path : Bytes) (world : World)
    (found : Bytes) : Prop :=
  ∃ sctx n later, ctx.sctx = some sctx ∧
    exec (fs.pcache.getnode sctx path) world = (.ok n, later) ∧
    query.content later.dbs n.id = some found

/-- A reply keeps what is promised, or is an error that wrote nothing when there is no
content. -/
def Honest (query : Query) (fs : FS) (ctx : Context) (path : Bytes) (size : Nat) (world : World)
    (reply : Int × Bytes) : Prop :=
  (∀ found, query.Finds fs ctx path world found → Promised size found reply) ∧
    ((∀ found, ¬ query.Finds fs ctx path world found) → reply.1 < 0 ∧ reply.2 = [])

theorem length_nameList_cons (name : Bytes) (names : List Bytes) :
    (nameList (name :: names)).length = name.length + 1 + (nameList names).length := by
  rw [nameList, List.flatMap_cons, List.length_append, List.length_append, List.length_singleton]
  rfl

theorem listxattrStep_eq (size count : Nat) (written name : Bytes) :
    FS.listxattrStep size (count, written) name = (count + (name.length + 1),
      if count + (name.length + 1) ≤ size then written ++ name ++ [0] else written) := by
  rw [FS.listxattrStep]
  split
  · rfl
  · rfl

/-- The loop of `listxattr` counts every name and writes names as long as they fit. -/
theorem foldl_listxattrStep (size : Nat) (names : List Bytes) (count : Nat) (written : Bytes)
    (within : written.length ≤ size) (whole : count ≤ size → written.length = count) :
    ∃ buffer, names.foldl (FS.listxattrStep size) (count, written) =
        (count + (nameList names).length, written ++ buffer) ∧
      (written ++ buffer).length ≤ size ∧
      (count + (nameList names).length ≤ size → buffer = nameList names) := by
  induction names generalizing count written with
  | nil => exact ⟨[], by simp [nameList], by simpa using within, fun _ => rfl⟩
  | cons name names ih =>
      rw [List.foldl_cons, listxattrStep_eq, length_nameList_cons,
        ← Nat.add_assoc count (name.length + 1)]
      by_cases fits : count + (name.length + 1) ≤ size
      · have longer : (written ++ name ++ [0]).length = count + (name.length + 1) := by
          rw [List.length_append, List.length_append, List.length_singleton, whole (by omega),
            Nat.add_assoc]
        obtain ⟨buffer, result, room, all⟩ :=
          ih (count + (name.length + 1)) (written ++ name ++ [0]) (by omega) fun _ => longer
        refine ⟨name ++ [0] ++ buffer, ?_, ?_, ?_⟩
        · rw [if_pos fits, result]
          simp only [List.append_assoc]
        · simpa only [List.append_assoc] using room
        · intro total
          rw [all total, nameList, nameList, List.flatMap_cons]
      · obtain ⟨buffer, result, room, -⟩ :=
          ih (count + (name.length + 1)) written within fun small => absurd small fits
        refine ⟨buffer, ?_, room, fun total => ?_⟩
        · rw [if_neg fits, result]
        · omega

variable {fs : FS} {ctx : Context} {path : Bytes} {size : Nat} {world after : World}
variable {query : Query} {reply : Int × Bytes} {found : Bytes}

/-- How the request reports an exception. -/
def code : Query → Err → Int
  | getxattr _ => xattrErrcode
  | listxattr => errcode

theorem errcode_neg (e : Err) : errcode e < 0 := by
  cases e with
  | badCast target => cases target <;> decide
  | _ => decide

theorem code_neg (query : Query) (e : Err) : query.code e < 0 := by
  cases query with
  | getxattr name =>
      change xattrErrcode e < 0
      cases e with
      | badCast target => exact errcode_neg (.badCast target)
      | _ => decide
  | listxattr => exact errcode_neg e

/-- What the request does with the node that was found. -/
theorem exec_prog_found (query : Query) (size : Nat) (n : NodeRef) {sctx : SContext} {later : World}
    (caller : ctx.sctx = some sctx)
    (looks : exec (fs.pcache.getnode sctx path) world = (.ok n, later)) :
    match query.content later.dbs n.id with
    | some found => ∃ written, (exec (query.prog fs ctx path size) world).1 =
        .ok (toCInt found.length, written) ∧ written.length ≤ size ∧
          (found.length ≤ size → written = found)
    | none => (exec (query.prog fs ctx path size) world).1 = .ok (-eNoattr, []) := by
  cases query with
  | getxattr name =>
      simp only [prog, FS.getxattr, exec_request, caller, exec_bind, looks, Outcome.andThen_ok,
        Node.exec_getattrv, Dbs.getattrv, content]
      cases stored : later.dbs.get .nodes n.id name with
      | none => rfl
      | some value =>
          exact ⟨value.take size, rfl, List.length_take_le size value, List.take_of_length_le⟩
  | listxattr =>
      obtain ⟨buffer, result, room, all⟩ := foldl_listxattrStep size (later.dbs.nodes.attrs n.id) 0
        [] (Nat.zero_le size) fun _ => rfl
      simp only [prog, FS.listxattr, exec_request, caller, exec_bind, looks, Outcome.andThen_ok,
        Register.exec_getattrs, content, exec_pure]
      rw [Nat.zero_add] at result all
      refine ⟨buffer, ?_, room, all⟩
      change Outcome.ok _ = _
      rw [Dbs.table, result]
      rfl

/-- What the request does when it has no caller or no node. -/
theorem exec_prog_failed (query : Query) (size : Nat)
    (failed : ∀ sctx n later, ctx.sctx = some sctx →
      exec (fs.pcache.getnode sctx path) world ≠ (.ok n, later)) :
    (∃ e, (exec (query.prog fs ctx path size) world).1 = .ok (query.code e, [])) ∨
      ∃ stop, (exec (query.prog fs ctx path size) world).1 = .fault stop := by
  cases caller : ctx.sctx with
  | none =>
      refine .inl ⟨.runtime, ?_⟩
      cases query with
      | getxattr name => simp only [prog, FS.getxattr, exec_request, caller, code]
      | listxattr => simp only [prog, FS.listxattr, exec_request, caller, code]
  | some sctx =>
      rcases looks : exec (fs.pcache.getnode sctx path) world with ⟨result, later⟩
      cases result with
      | ok n => exact absurd looks (failed sctx n later caller)
      | error e =>
          refine .inl ⟨e, ?_⟩
          cases query with
          | getxattr name =>
              simp only [prog, FS.getxattr, exec_request, caller, exec_bind, looks]; rfl
          | listxattr => simp only [prog, FS.listxattr, exec_request, caller, exec_bind, looks]; rfl
      | fault stop =>
          refine .inr ⟨stop, ?_⟩
          cases query with
          | getxattr name =>
              simp only [prog, FS.getxattr, exec_request, caller, exec_bind, looks]; rfl
          | listxattr => simp only [prog, FS.listxattr, exec_request, caller, exec_bind, looks]; rfl

/-- Without a node or without the attribute the reply is an error. -/
theorem error_of_not_finds (ends : exec (query.prog fs ctx path size) world = (.ok reply, after))
    (missing : ∀ found, ¬ query.Finds fs ctx path world found) : reply.1 < 0 ∧ reply.2 = [] := by
  have replied : (exec (query.prog fs ctx path size) world).1 = .ok reply := congrArg Prod.fst ends
  by_cases failed : ∀ sctx n later, ctx.sctx = some sctx →
      exec (fs.pcache.getnode sctx path) world ≠ (.ok n, later)
  · rcases exec_prog_failed query size failed with ⟨e, result⟩ | ⟨stop, result⟩
    · rw [replied] at result
      cases result
      exact ⟨query.code_neg e, rfl⟩
    · rw [replied] at result
      cases result
  · simp only [not_forall, not_not] at failed
    obtain ⟨sctx, n, later, caller, looks⟩ := failed
    have result := exec_prog_found query size n caller looks
    split at result
    · rename_i found isFound
      exact absurd ⟨sctx, n, later, caller, looks, isFound⟩ (missing found)
    · rw [replied] at result
      cases result
      exact ⟨by decide, rfl⟩

/-- What a found content promises is kept exactly when the content fits the buffer. -/
theorem promised_iff_fits (ends : exec (query.prog fs ctx path size) world = (.ok reply, after))
    (finds : query.Finds fs ctx path world found) :
    Promised size found reply ↔ Fits size found.length := by
  obtain ⟨sctx, n, later, caller, looks, isFound⟩ := finds
  have result := exec_prog_found query size n caller looks
  rw [isFound] at result
  obtain ⟨written, replied, within, whole⟩ := result
  rw [ends] at replied
  rw [Outcome.ok.inj replied, promised_iff within whole]

/-- A reply is honest exactly when the content, if there is one, fits the buffer. -/
theorem honest_iff (ends : exec (query.prog fs ctx path size) world = (.ok reply, after)) :
    query.Honest fs ctx path size world reply ↔
      ∀ found, query.Finds fs ctx path world found → Fits size found.length := by
  constructor
  · rintro ⟨promised, -⟩ found finds
    exact (promised_iff_fits ends finds).mp (promised found finds)
  · intro fits
    constructor
    · intro found finds
      exact (promised_iff_fits ends finds).mpr (fits found finds)
    · exact error_of_not_finds ends

/-! ## A name that is too long -/

/-- A file at the root. -/
def oneFile : World :=
  runAll [mounted.mknod rootContext (str "/f") 0o100644 0] mountedWorld

/-- What the requests reply about the file. -/
def ask (query : Query) (size : Nat) : Outcome Err (Int × Bytes) × World :=
  exec (query.prog mounted rootContext (str "/f") size) oneFile

set_option maxRecDepth 100000 in
/-- A buffer of four bytes is enough for the mode. -/
theorem honest_iff_mode :
    (getxattr Attr.mode.name).Honest mounted rootContext (str "/f") 4 oneFile
        (4, hostToDb (0o100644 : UInt32)) ↔
      ∀ found, (getxattr Attr.mode.name).Finds mounted rootContext (str "/f") oneFile found →
        Fits 4 found.length := by
  have replied : (ask (getxattr Attr.mode.name) 4).1 =
      .ok (4, hostToDb (0o100644 : UInt32)) := by decide +kernel
  exact honest_iff (Prod.ext replied rfl)

set_option maxRecDepth 100000 in
theorem finds_mode : (getxattr Attr.mode.name).Finds mounted rootContext (str "/f") oneFile
    (hostToDb (0o100644 : UInt32)) := by
  have looks : (exec (mounted.pcache.getnode ⟨0, 0, [0]⟩ (str "/f")) oneFile).1 =
      .ok ⟨1, .file⟩ := by decide +kernel
  have stored : (getxattr Attr.mode.name).content
      (exec (mounted.pcache.getnode ⟨0, 0, [0]⟩ (str "/f")) oneFile).2.dbs 1 =
        some (hostToDb (0o100644 : UInt32)) := by decide +kernel
  exact ⟨⟨0, 0, [0]⟩, ⟨1, .file⟩, _, rfl, Prod.ext looks rfl, stored⟩

set_option maxRecDepth 100000 in
/-- Two bytes are not, and the reply still counts four. -/
theorem claims_too_much : ∃ reply, (ask (getxattr Attr.mode.name) 2).1 = .ok reply ∧
    ¬ (getxattr Attr.mode.name).Honest mounted rootContext (str "/f") 2 oneFile reply := by
  have replied : (ask (getxattr Attr.mode.name) 2).1 =
      .ok (4, (hostToDb (0o100644 : UInt32)).take 2) := by decide +kernel
  refine ⟨_, replied, ?_⟩
  intro honest
  obtain ⟨-, claimed⟩ := honest.1 _ finds_mode
  obtain ⟨within, -⟩ := claimed (by decide) (by decide)
  exact absurd within (by decide)

end Query

end OfflineFs
