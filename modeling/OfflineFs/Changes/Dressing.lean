import OfflineFs.Changes.Completeness
import OfflineFs.Run.Imports

/-!
# Dressing a node

The attributes that a line gives to a node.  They are written to that node alone, each
with a value that fits, and neither the entries nor the count of links are touched.
-/

namespace OfflineFs

open OfflineFs.Effect OfflineFs.Effect.Program

/-- Any call but one that changes an entry, another node, or an attribute that is
reserved and not listed. -/
def Dresses (n : UInt64) (attrs : List Attr) ⦃γ : Type⦄ : FsEff γ → Prop
  | .put table id name value => table = .nodes ∧ id = n ∧
      ((∃ attr ∈ attrs, name = attr.name ∧ attr.Fits value) ∨
        reservedPrefix.isPrefixOf name = false)
  | .del _ _ _ => False
  | _ => True

/-- Only the listed attributes of a node and free ones were written. -/
structure Dbs.Dressed (n : UInt64) (attrs : List Attr) (before after : Dbs) : Prop where
  directories : after.directories = before.directories
  others : ∀ id name, id ≠ n → after.get .nodes id name = before.get .nodes id name
  stored : ∀ attr : Attr, after.get .nodes n attr.name = before.get .nodes n attr.name ∨
    attr ∈ attrs ∧ ∃ value, after.get .nodes n attr.name = some value ∧ attr.Fits value

namespace Dbs.Dressed

variable {n id : UInt64} {attrs more : List Attr} {before middle after : Dbs} {attr : Attr}

theorem refl (n : UInt64) (attrs : List Attr) (before : Dbs) : Dressed n attrs before before where
  directories := rfl
  others _ _ _ := rfl
  stored _ := .inl rfl

theorem trans (first : Dressed n attrs before middle) (second : Dressed n attrs middle after) :
    Dressed n attrs before after where
  directories := second.directories.trans first.directories
  others id name other := (second.others id name other).trans (first.others id name other)
  stored attr := by
    rcases second.stored attr with same | written
    · rw [same]
      exact first.stored attr
    · exact .inr written

theorem mono (dressed : Dressed n attrs before after) (listed : attrs ⊆ more) :
    Dressed n more before after where
  directories := dressed.directories
  others := dressed.others
  stored attr := (dressed.stored attr).imp_right fun written => ⟨listed written.1, written.2⟩

/-- Storing one of the attributes, or one that is not reserved. -/
theorem put {name value : Bytes} (fits : (∃ attr ∈ attrs, name = attr.name ∧ attr.Fits value) ∨
    reservedPrefix.isPrefixOf name = false) (before : Dbs) :
    Dressed n attrs before (before.put .nodes n name value) where
  directories := rfl
  others id read other := Dbs.get_put_of_ne (.inl (Ne.symm other))
  stored attr := by
    by_cases same : name = attr.name
    · rcases fits with ⟨listed, member, isName, fits⟩ | free
      · have isAttr : listed = attr := Attr.name_inj.mp (isName.symm.trans same)
        subst isAttr
        exact .inr ⟨member, value, by rw [Dbs.get_put, if_pos ⟨rfl, rfl, same⟩], fits⟩
      · rw [same, attr.reservedPrefix_isPrefix] at free
        cases free
    · exact .inl (Dbs.get_put_of_ne (.inr same))

/-- An attribute that is not listed stays. -/
theorem keeps (dressed : Dressed n attrs before after) (unlisted : attr ∉ attrs) (id : UInt64) :
    after.get .nodes id attr.name = before.get .nodes id attr.name := by
  by_cases same : id = n
  · rw [same]
    exact (dressed.stored attr).resolve_right fun written => unlisted written.1
  · exact dressed.others id attr.name same

/-- No node loses an attribute. -/
theorem has {list : List Attr} (dressed : Dressed n attrs before after) (has : before.Has list id) :
    after.Has list id := by
  intro attr listed
  by_cases same : id = n
  · subst same
    rcases dressed.stored attr with stays | ⟨-, written⟩
    · rw [stays]
      exact has attr listed
    · exact written
  · rw [dressed.others id attr.name same]
    exact has attr listed

theorem get_directories (dressed : Dressed n attrs before after) (d : UInt64) (name : Bytes) :
    after.get .directories d name = before.get .directories d name := by
  change after.directories[_]? = before.directories[_]?
  rw [dressed.directories]

theorem refs (dressed : Dressed n attrs before after) : after.refs id = before.refs id :=
  Dbs.refs_congr dressed.directories

end Dbs.Dressed

/-- What code that only dresses a node leaves. -/
theorem dressed_exec {n : UInt64} {attrs : List Attr} {α : Type} {prog : FsProg α}
    (calls : Calls (Dresses n attrs) prog) (world : World) :
    Dbs.Dressed n attrs world.dbs (exec prog world).2.dbs := by
  refine calls.run fsHandler (fun before after => Dbs.Dressed n attrs before.dbs after.dbs)
    (fun state => .refl n attrs state.dbs) .trans ?_ world
  intro γ effect state permitted
  cases effect with
  | put table id name value =>
      obtain ⟨rfl, rfl, fits⟩ := permitted
      exact .put fits state.dbs
  | del => exact permitted.elim
  | _ => exact .refl n attrs state.dbs

theorem dressed_of_exec {n : UInt64} {attrs : List Attr} {α : Type} {prog : FsProg α}
    {world after : World} {outcome : Outcome Err α} (calls : Calls (Dresses n attrs) prog)
    (result : exec prog world = (outcome, after)) : Dbs.Dressed n attrs world.dbs after.dbs := by
  have dressed := dressed_exec calls world
  rwa [result] at dressed

/-! ## The attributes of a line -/

/-- No field names a reserved attribute. -/
def FMap.Free (m : FMap) : Prop :=
  ∀ entries ∈ [m.z, m.x8, m.x16, m.x32, m.x64], ∀ entry ∈ entries,
    reservedPrefix.isPrefixOf entry.1 = false

instance (m : FMap) : Decidable m.Free :=
  inferInstanceAs (Decidable (∀ entries ∈ [m.z, m.x8, m.x16, m.x32, m.x64], ∀ entry ∈ entries,
    reservedPrefix.isPrefixOf entry.1 = false))

/-- The user is given by a name alone. -/
def FMap.NamesUser (m : FMap) : Prop :=
  m.numuser = [] ∧ m.user ≠ [] ∧ readUnsigned UInt32 10 m.user = none

namespace Offimport

section Calls

variable {attrs : List Attr} {n : NodeRef} {nodetype : UInt32} {s : Settings} {a : Accounts}
variable {creating : Bool} {m : FMap}

theorem dresses_setattr {T : Type} [HostInt T] {attr : Attr} (listed : attr ∈ attrs)
    (sized : attr.width = some (HostInt.size T)) (value : T) :
    Calls (Dresses n.id attrs) (Node.setattr n.id attr value) :=
  calls_perform ⟨rfl, rfl, .inl ⟨attr, listed, rfl, Attr.fits_hostToDb sized value⟩⟩

theorem dresses_parse {T : Type} (read : Bytes → Option T) (text : Bytes) :
    Calls (Dresses n.id attrs) (parse read text) := by
  unfold parse
  split <;> trivial

theorem dresses_mode : Calls (Dresses n.id attrs) (Node.getattr UInt32 n.id .mode) :=
  calls_getattr (fun _ _ _ => trivial) UInt32 .nodes n.id Attr.mode.name

theorem dresses_knownType : Calls (Dresses n.id attrs) (knownType n nodetype) :=
  calls_ite (calls_bind dresses_mode fun _ => trivial) trivial

theorem dresses_setLink (listed : .symlink ∈ attrs) (link : Bytes) :
    Calls (Dresses n.id attrs) (setLink n nodetype link) := by
  refine calls_ite (calls_bind dresses_knownType fun known => calls_ite ?_ trivial) trivial
  refine calls_bind (calls_perform ⟨rfl, rfl, .inl ⟨.symlink, listed, rfl, nofun⟩⟩) fun _ => trivial

theorem dresses_setGroup (listed : .gid ∈ attrs) :
    Calls (Dresses n.id attrs) (setGroup s a n creating m) := by
  have stores : ∀ gid : UInt32, Calls (Dresses n.id attrs) (Node.setattr n.id .gid gid) :=
    dresses_setattr listed rfl
  refine calls_ite (calls_bind (dresses_parse _ _) stores) (calls_ite ?_ ?_)
  · split
    · exact stores _
    · split
      · trivial
      · exact stores _
  · exact calls_ite (stores _) trivial

theorem dresses_setUser (listed : .uid ∈ attrs) :
    Calls (Dresses n.id attrs) (setUser s a n creating m) := by
  have stores : ∀ uid : UInt32, Calls (Dresses n.id attrs) (Node.setattr n.id .uid uid) :=
    dresses_setattr listed rfl
  refine calls_ite (calls_bind (dresses_parse _ _) stores) (calls_ite ?_ ?_)
  · split
    · exact stores _
    · split <;> trivial
  · exact calls_ite (stores _) trivial

theorem dresses_setStamp {attr : Attr} (listed : attr ∈ attrs) (sized : attr.width = some 8)
    (text : Bytes) : Calls (Dresses n.id attrs) (setStamp n creating attr text) := by
  have stores : ∀ time : UInt64, Calls (Dresses n.id attrs) (Node.setattr n.id attr time) :=
    dresses_setattr listed sized
  refine calls_ite (calls_bind (dresses_parse _ _) stores) (calls_ite ?_ trivial)
  exact calls_bind (calls_perform trivial) stores

theorem dresses_setPerms (listed : .mode ∈ attrs) (perms : Bytes) :
    Calls (Dresses n.id attrs) (setPerms s n creating nodetype perms) := by
  have stores : ∀ (mode chosen : UInt32), Calls (Dresses n.id attrs) (do
      Node.setattr n.id .mode mode
      Pure.pure chosen) :=
    fun mode chosen => calls_bind (dresses_setattr listed rfl mode) fun _ => trivial
  refine calls_ite (calls_bind (dresses_parse _ _) fun perms => ?_) (calls_ite (stores _ _) ?_)
  · exact calls_bind dresses_knownType fun known => stores _ _
  · exact calls_ite (calls_bind dresses_mode fun mode => stores _ _) trivial

theorem dresses_setSize (listed : .size ∈ attrs) (size : Bytes) :
    Calls (Dresses n.id attrs) (setSize n nodetype size) := by
  refine calls_ite (calls_bind dresses_knownType fun known => calls_ite ?_ trivial) trivial
  exact calls_bind (dresses_parse _ _) fun size => dresses_setattr listed rfl size

theorem dresses_setXattrs (encode : Bytes → Option Bytes) {entries : List (Bytes × Bytes)}
    (free : ∀ entry ∈ entries, reservedPrefix.isPrefixOf entry.1 = false) :
    Calls (Dresses n.id attrs) (setXattrs n encode entries) := by
  induction entries with
  | nil => trivial
  | cons entry rest ih =>
      obtain ⟨name, text⟩ := entry
      apply calls_bind (dresses_parse _ _)
      intro value
      apply calls_bind (calls_perform ⟨rfl, rfl, .inr (free _ List.mem_cons_self)⟩)
      exact fun _ => ih fun entry member => free entry (List.mem_cons_of_mem _ member)

end Calls

/-! ## What the attributes end as -/

section Sets

variable {n : NodeRef} {nodetype : UInt32} {s : Settings} {a : Accounts} {creating : Bool}
variable {m : FMap} {world after : World}

theorem has_stored {T : Type} [HostInt T] {attr : Attr} {id : UInt64} {value : T} {ended : Unit}
    (sized : attr.width = some (HostInt.size T))
    (stores : exec (Node.setattr id attr value) world = (.ok ended, after)) :
    after.dbs.Has [attr] id := by
  cases stores
  have nothing : world.dbs.Has [] id := nofun
  exact nothing.add attr sized value

/-- A new node gets a group. -/
theorem has_gid (sets : exec (setGroup s a n true m) world = (.ok (), after)) :
    after.dbs.Has [.gid] n.id := by
  unfold setGroup at sets
  split at sets
  · rw [exec_bind, Outcome.andThen_eq_ok_iff] at sets
    obtain ⟨gid, middle, -, stores⟩ := sets
    exact has_stored rfl stores
  · split at sets
    · split at sets
      · exact has_stored rfl sets
      · split at sets
        · cases sets
        · exact has_stored rfl sets
    · rw [if_pos rfl] at sets
      exact has_stored rfl sets

/-- A new node gets a user, unless that is given by a name alone. -/
theorem has_uid (named : m.NamesUser → a.getpwnam m.user = none)
    (sets : exec (setUser s a n true m) world = (.ok (), after)) :
    after.dbs.Has [.uid] n.id := by
  unfold setUser at sets
  split at sets
  · rw [exec_bind, Outcome.andThen_eq_ok_iff] at sets
    obtain ⟨uid, middle, -, stores⟩ := sets
    exact has_stored rfl stores
  · rename_i numeric
    split at sets
    · rename_i given
      split at sets
      · exact has_stored rfl sets
      · rename_i symbolic
        rw [named ⟨not_not.mp numeric, given, symbolic⟩] at sets
        cases sets
    · rw [if_pos rfl] at sets
      exact has_stored rfl sets

/-! ## The type of a node -/

theorem or_and (first second bits : UInt32) :
    (first ||| second) &&& bits = (first &&& bits) ||| (second &&& bits) := by
  apply UInt32.toBitVec_inj.mp
  ext index bound
  simp [Bool.and_or_distrib_right]

theorem type_or {type rest : UInt32} (isType : type &&& sIfmt = type) (free : rest &&& sIfmt = 0) :
    (type ||| rest) &&& sIfmt = type := by
  rw [or_and, isType, free, UInt32.or_zero]

theorem mode_free (mode : UInt32) : mode &&& ~~~sIfmt &&& sIfmt = 0 := by
  rw [UInt32.and_assoc, UInt32.not_and_self, UInt32.and_zero]

theorem defaultPerms_free (s : Settings) (type : UInt32) : defaultPerms s type &&& sIfmt = 0 := by
  unfold defaultPerms
  split
  · rw [UInt32.and_assoc]
    exact UInt32.and_zero
  · split
    · rfl
    · rw [UInt32.and_assoc]
      exact UInt32.and_zero

/-- A node whose stored type is the given one. -/
def Typed (dbs : Dbs) (n : NodeRef) (type : UInt32) : Prop :=
  ∃ mode, dbs.attr UInt32 n.id .mode = .ok mode ∧ mode &&& sIfmt = type

theorem typed_setattr {type mode : UInt32} (isType : mode &&& sIfmt = type) (dbs : Dbs) :
    Typed (dbs.setattr n.id .mode mode) n type :=
  ⟨mode, Dbs.attr_setattr_self _ _ _ _, isType⟩

theorem Typed.dressed {type : UInt32} {attrs : List Attr} {before now : Dbs}
    (typed : Typed before n type) (dressed : Dbs.Dressed n.id attrs before now)
    (unlisted : .mode ∉ attrs) : Typed now n type := by
  obtain ⟨mode, isMode, isType⟩ := typed
  exact ⟨mode, by rw [Dbs.attr_congr (dressed.keeps unlisted n.id), isMode], isType⟩

/-- A line gives a new node its type, or names none other than the type of the node. -/
def Agrees (dbs : Dbs) (n : NodeRef) (creating : Bool) (nodetype type : UInt32) : Prop :=
  creating = true ∧ nodetype = type ∧ type ≠ 0 ∨
    creating = false ∧ Typed dbs n type ∧ (nodetype = 0 ∨ nodetype = type)

theorem Agrees.dressed {type : UInt32} {attrs : List Attr} {before now : Dbs}
    (agrees : Agrees before n creating nodetype type)
    (dressed : Dbs.Dressed n.id attrs before now) (unlisted : .mode ∉ attrs) :
    Agrees now n creating nodetype type :=
  agrees.imp_right fun old => ⟨old.1, old.2.1.dressed dressed unlisted, old.2.2⟩

/-- A type that is known to agree with the stored one is that type. -/
theorem knownType_agrees {type known : UInt32} (agrees : Agrees world.dbs n creating nodetype type)
    (knows : exec (knownType n nodetype) world = (.ok known, after)) :
    known = type ∧ after = world := by
  unfold knownType at knows
  split at knows
  · rename_i unnamed
    rcases agrees with ⟨-, same, notZero⟩ | ⟨-, ⟨mode, isMode, isType⟩, -⟩
    · exact absurd (same.symm.trans unnamed) notZero
    · simp only [exec_bind, Node.exec_getattr, isMode, Outcome.ofExcept_ok, Outcome.andThen_ok,
        exec_pure] at knows
      cases knows
      exact ⟨isType, rfl⟩
  · rename_i named
    cases knows
    refine ⟨?_, rfl⟩
    rcases agrees with ⟨-, same, -⟩ | ⟨-, -, unnamed | same⟩
    · exact same
    · exact absurd unnamed named
    · exact same

/-- The type that the link target leaves. -/
theorem setLink_agrees {type linked : UInt32} {link : Bytes}
    (agrees : Agrees world.dbs n creating nodetype type)
    (sets : exec (setLink n nodetype link) world = (.ok linked, after)) :
    Agrees after.dbs n creating linked type := by
  have dressed := dressed_of_exec (dresses_setLink (List.mem_singleton.mpr rfl) link) sets
  have given : linked = nodetype ∨ linked = type := by
    unfold setLink at sets
    split at sets
    · rw [exec_bind, Outcome.andThen_eq_ok_iff] at sets
      obtain ⟨known, middle, knows, rest⟩ := sets
      have isKnown := (knownType_agrees agrees knows).1
      split at rest
      · cases rest
        exact .inr isKnown
      · cases rest
        exact .inr isKnown
    · cases sets
      exact .inl rfl
  rcases agrees with ⟨isNew, same, notZero⟩ | ⟨isOld, typed, named⟩
  · rw [same, or_self] at given
    exact .inl ⟨isNew, given, notZero⟩
  · refine .inr ⟨isOld, typed.dressed dressed (by decide), ?_⟩
    rcases given with rfl | isType
    · exact named
    · exact .inr isType

/-- The permissions leave the node with its type. -/
theorem typed_setPerms {type chosen : UInt32} {perms : Bytes} (isType : type &&& sIfmt = type)
    (agrees : Agrees world.dbs n creating nodetype type)
    (sets : exec (setPerms s n creating nodetype perms) world = (.ok chosen, after)) :
    Typed after.dbs n type := by
  unfold setPerms at sets
  split at sets
  · rw [exec_bind, Outcome.andThen_eq_ok_iff] at sets
    obtain ⟨parsed, middle, parses, sets⟩ := sets
    have same : middle = world := by
      unfold parse at parses
      split at parses
      · cases parses
        rfl
      · cases parses
    rw [same, exec_bind, Outcome.andThen_eq_ok_iff] at sets
    obtain ⟨known, middle, knows, stores⟩ := sets
    obtain ⟨rfl, rfl⟩ := knownType_agrees agrees knows
    cases stores
    exact typed_setattr (type_or isType (by rw [UInt32.and_comm (~~~sIfmt), mode_free])) _
  · split at sets
    · rename_i isNew
      cases sets
      rcases agrees with ⟨-, rfl, -⟩ | ⟨isOld, -⟩
      · exact typed_setattr (type_or isType (defaultPerms_free s _)) _
      · exact absurd (isNew.symm.trans isOld) nofun
    · rename_i isOld
      rcases agrees with ⟨isNew, -⟩ | ⟨-, typed, named⟩
      · exact absurd isNew isOld
      · split at sets
        · rename_i notZero
          have same := named.resolve_left notZero
          obtain ⟨mode, isMode, -⟩ := typed
          simp only [exec_bind, Node.exec_getattr, isMode, Outcome.ofExcept_ok, Outcome.andThen_ok,
            Node.exec_setattr, exec_pure] at sets
          cases sets
          rw [same]
          exact typed_setattr (type_or isType (mode_free mode)) _
        · cases sets
          exact typed

/-- A new node gets a mode. -/
theorem has_mode {chosen : UInt32} {perms : Bytes}
    (sets : exec (setPerms s n true nodetype perms) world = (.ok chosen, after)) :
    after.dbs.Has [.mode] n.id := by
  have stored : ∀ {mode kind chosen : UInt32} {before : World},
      exec (do Node.setattr n.id .mode mode; Pure.pure kind) before = (.ok chosen, after) →
      after.dbs.Has [.mode] n.id := by
    intro mode kind chosen before stores
    rw [exec_bind, Outcome.andThen_eq_ok_iff] at stores
    obtain ⟨_, middle, sets, ends⟩ := stores
    cases ends
    exact has_stored rfl sets
  unfold setPerms at sets
  split at sets
  · rw [exec_bind, Outcome.andThen_eq_ok_iff] at sets
    obtain ⟨parsed, middle, -, sets⟩ := sets
    rw [exec_bind, Outcome.andThen_eq_ok_iff] at sets
    obtain ⟨known, middle, -, sets⟩ := sets
    exact stored sets
  · rw [if_pos rfl] at sets
    exact stored sets

/-! ## All attributes -/

/-- The attributes that are written for a line, and those before the permissions. -/
abbrev dressing : List Attr :=
  [.symlink, .gid, .uid, .atime, .mtime, .ctime, .mode, .size]

/-- The fields after the permissions. -/
theorem dresses_rest {attrs : List Attr} (listed : .size ∈ attrs) (free : m.Free) :
    Calls (Dresses n.id attrs) (do
      setSize n nodetype m.size
      setXattrs n some m.z
      setXattrs n (fun text => (readChar text).map hostToDb) m.x8
      setXattrs n (fun text => (readUnsigned UInt16 10 text).map hostToDb) m.x16
      setXattrs n (fun text => (readUnsigned UInt32 10 text).map hostToDb) m.x32
      setXattrs n (fun text => (readUnsigned UInt64 10 text).map hostToDb) m.x64) := by
  have sets : ∀ {entries : List (Bytes × Bytes)} (encode : Bytes → Option Bytes),
      entries ∈ [m.z, m.x8, m.x16, m.x32, m.x64] →
      Calls (Dresses n.id attrs) (setXattrs n encode entries) :=
    fun encode member => dresses_setXattrs encode (free _ member)
  apply calls_bind (dresses_setSize listed _)
  intro _
  apply calls_bind (sets _ (by simp))
  intro _
  apply calls_bind (sets _ (by simp))
  intro _
  apply calls_bind (sets _ (by simp))
  intro _
  apply calls_bind (sets _ (by simp))
  exact fun _ => sets _ (by simp)

/-- The parts of setting all attributes. -/
theorem setAttributes_parts (free : m.Free)
    (sets : exec (setAttributes s a n creating nodetype m) world = (.ok (), after)) :
    ∃ linked chosen owned₁ owned₂ owned₃ stamped typed,
      exec (setLink n nodetype m.link) world = (.ok linked, owned₁) ∧
      exec (setGroup s a n creating m) owned₁ = (.ok (), owned₂) ∧
      exec (setUser s a n creating m) owned₂ = (.ok (), owned₃) ∧
      Dbs.Dressed n.id [.atime, .mtime, .ctime] owned₃.dbs stamped.dbs ∧
      exec (setPerms s n creating linked m.perms) stamped = (.ok chosen, typed) ∧
      Dbs.Dressed n.id [.size] typed.dbs after.dbs := by
  unfold setAttributes at sets
  rw [exec_bind, Outcome.andThen_eq_ok_iff] at sets
  obtain ⟨linked, owned₁, links, sets⟩ := sets
  rw [exec_bind, Outcome.andThen_eq_ok_iff] at sets
  obtain ⟨_, owned₂, groups, sets⟩ := sets
  rw [exec_bind, Outcome.andThen_eq_ok_iff] at sets
  obtain ⟨_, owned₃, users, sets⟩ := sets
  rw [exec_bind, Outcome.andThen_eq_ok_iff] at sets
  obtain ⟨_, stamped₁, accessed, sets⟩ := sets
  rw [exec_bind, Outcome.andThen_eq_ok_iff] at sets
  obtain ⟨_, stamped₂, modified, sets⟩ := sets
  rw [exec_bind, Outcome.andThen_eq_ok_iff] at sets
  obtain ⟨_, stamped₃, changed, sets⟩ := sets
  rw [exec_bind, Outcome.andThen_eq_ok_iff] at sets
  obtain ⟨chosen, typed, perms, rest⟩ := sets
  refine ⟨linked, chosen, owned₁, owned₂, owned₃, stamped₃, typed, links, groups, users, ?_, perms,
    dressed_of_exec (dresses_rest (List.mem_singleton.mpr rfl) free) rest⟩
  have stamps : ∀ attr ∈ [Attr.atime, .mtime, .ctime], attr.width = some 8 := by decide
  have dresses : ∀ {attr : Attr} {text : Bytes} {before now : World},
      attr ∈ [Attr.atime, .mtime, .ctime] →
      exec (setStamp n creating attr text) before = (.ok (), now) →
      Dbs.Dressed n.id [.atime, .mtime, .ctime] before.dbs now.dbs :=
    fun listed sets => dressed_of_exec (dresses_setStamp listed (stamps _ listed) _) sets
  exact ((dresses (by decide) accessed).trans (dresses (by decide) modified)).trans
    (dresses (by decide) changed)

/-- What setting all attributes leaves. -/
theorem dressed_setAttributes (free : m.Free)
    (sets : exec (setAttributes s a n creating nodetype m) world = (.ok (), after)) :
    Dbs.Dressed n.id dressing world.dbs after.dbs := by
  obtain ⟨linked, chosen, owned₁, owned₂, owned₃, stamped, typed, links, groups, users,
    stamps, perms,
    rest⟩ := setAttributes_parts free sets
  have linking := dressed_of_exec (dresses_setLink (by decide : .symlink ∈ dressing) _) links
  have grouping := dressed_of_exec (dresses_setGroup (by decide : .gid ∈ dressing)) groups
  have owning := dressed_of_exec (dresses_setUser (by decide : .uid ∈ dressing)) users
  have typing := dressed_of_exec (dresses_setPerms (by decide : .mode ∈ dressing) _) perms
  have owned := (linking.trans grouping).trans owning
  exact ((owned.trans (stamps.mono (by decide))).trans typing).trans (rest.mono (by decide))

/-- A new node ends with all its attributes. -/
theorem whole_setAttributes (free : m.Free) (named : m.NamesUser → a.getpwnam m.user = none)
    (sets : exec (setAttributes s a n true nodetype m) world = (.ok (), after))
    (begun : world.dbs.Has neutral n.id) : after.dbs.Whole n.id := by
  obtain ⟨linked, chosen, owned₁, owned₂, owned₃, stamped, typed, links, groups, users,
    stamps, perms,
    rest⟩ := setAttributes_parts free sets
  have linking := dressed_of_exec (dresses_setLink (by decide : .symlink ∈ dressing) _) links
  have grouping := dressed_of_exec (dresses_setGroup (by decide : .gid ∈ dressing)) groups
  have owning := dressed_of_exec (dresses_setUser (by decide : .uid ∈ dressing)) users
  have typing := dressed_of_exec (dresses_setPerms (by decide : .mode ∈ dressing) _) perms
  have owned : owned₃.dbs.Has (.uid :: .gid :: neutral) n.id :=
    (has_uid named users).cons
      (owning.has ((has_gid groups).cons (grouping.has (linking.has begun))))
  have all := (has_mode perms).cons (typing.has (stamps.has owned))
  exact (rest.has all).mono (by decide)

/-- The node ends with the type that it has or is given. -/
theorem typed_setAttributes {type : UInt32} (free : m.Free) (isType : type &&& sIfmt = type)
    (agrees : Agrees world.dbs n creating nodetype type)
    (sets : exec (setAttributes s a n creating nodetype m) world = (.ok (), after)) :
    Typed after.dbs n type := by
  obtain ⟨linked, chosen, owned₁, owned₂, owned₃, stamped, typed, links, groups, users,
    stamps, perms,
    rest⟩ := setAttributes_parts free sets
  have grouping := dressed_of_exec (dresses_setGroup (List.mem_singleton.mpr rfl)) groups
  have owning := dressed_of_exec (dresses_setUser (List.mem_singleton.mpr rfl)) users
  have linked := setLink_agrees agrees links
  have stamped := ((linked.dressed grouping (by decide)).dressed owning (by decide)).dressed stamps
    (by decide)
  exact (typed_setPerms isType stamped perms).dressed rest (by decide)

end Sets

end Offimport

end OfflineFs
