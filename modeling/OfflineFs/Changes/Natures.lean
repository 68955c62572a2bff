import OfflineFs.Changes.Answers
import OfflineFs.Changes.Crowds
import OfflineFs.Changes.Ownership

/-!
# What a node is

The type of a node, the target of a symbolic link and the number of a device are stored when the
node is made.  As long as it exists no request changes them, whoever the caller is, unless the
superuser names a reserved attribute.
-/

namespace OfflineFs

open OfflineFs.Effect OfflineFs.Transition

/-- The attributes that are stored once. -/
abbrev storedOnce : List Attr :=
  [.symlink, .dev]

/-- A node with the type, the target and the number that it had. -/
structure Dbs.SameNature (before : Dbs) (id : UInt64) (after : Dbs) : Prop where
  type : ∃ old new, before.attr UInt32 id .mode = .ok old ∧ after.attr UInt32 id .mode = .ok new ∧
    new &&& sIfmt = old &&& sIfmt
  fixed : ∀ attr ∈ storedOnce, after.get .nodes id attr.name = before.get .nodes id attr.name

namespace Dbs

variable {before middle after : Dbs} {id : UInt64} {n : NodeRef} {mode : UInt32}

theorem SameNature.refl (isMode : before.attr UInt32 id .mode = .ok mode) :
    before.SameNature id before :=
  ⟨⟨mode, mode, isMode, isMode, rfl⟩, fun _ _ => rfl⟩

theorem SameNature.trans (first : before.SameNature id middle)
    (second : middle.SameNature id after) : before.SameNature id after := by
  obtain ⟨old, between, isOld, isBetween, same⟩ := first.type
  obtain ⟨between', new, again, isNew, still⟩ := second.type
  rw [isBetween, Except.ok.injEq] at again
  subst again
  exact ⟨⟨old, new, isOld, isNew, still.trans same⟩,
    fun attr listed => (second.fixed attr listed).trans (first.fixed attr listed)⟩

/-- The mode and what is fixed are not touched. -/
theorem SameNature.congr (nature : before.SameNature id middle)
    (same : ∀ attr ∈ .mode :: storedOnce, after.get .nodes id attr.name =
      middle.get .nodes id attr.name) : before.SameNature id after := by
  obtain ⟨old, new, isOld, isNew, kept⟩ := nature.type
  refine ⟨⟨old, new, isOld, ?_, kept⟩, fun attr listed => ?_⟩
  · rw [Dbs.attr_congr (same .mode List.mem_cons_self)]
    exact isNew
  · rw [same attr (List.mem_cons_of_mem _ listed)]
    exact nature.fixed attr listed

/-- Another mode of the same type. -/
theorem SameNature.setMode (nature : before.SameNature id middle) {old : UInt32}
    (isOld : middle.attr UInt32 id .mode = .ok old) (kept : mode &&& sIfmt = old &&& sIfmt) :
    before.SameNature id (middle.put .nodes id Attr.mode.name (hostToDb mode)) := by
  obtain ⟨first, last, isFirst, isLast, same⟩ := nature.type
  rw [isOld, Except.ok.injEq] at isLast
  subst isLast
  refine ⟨⟨first, mode, isFirst, Dbs.attr_setattr_self middle id .mode mode, kept.trans same⟩, ?_⟩
  intro attr listed
  rw [Dbs.get_put_of_ne]
  · exact nature.fixed attr listed
  · right
    intro isMode
    rw [Attr.name_inj] at isMode
    subst isMode
    exact absurd listed (by decide)

/-- The class of a node follows from its type. -/
theorem SameNature.getnode (nature : before.SameNature id after)
    (isNode : before.getnode id = .ok n) : after.getnode id = .ok n := by
  obtain ⟨old, new, isOld, isNew, same⟩ := nature.type
  obtain ⟨mode, isMode, rfl⟩ := Dbs.getnode_eq_ok_iff.mp isNode
  rw [isOld, Except.ok.injEq] at isMode
  subst isMode
  exact Dbs.getnode_eq_ok_iff.mpr ⟨new, isNew, by rw [kindOfMode_congr same]⟩

end Dbs

/-! ## One change -/

namespace Warrant

variable {w : Warrant} {now : Dbs} {id : UInt64} {change : Change} {count : Nat}

/-- What a permitted change does to attributes that are neither stamps nor counts: it leaves
them, takes the node away, or has looked first. -/
theorem kept_cases {attrs : List Attr}
    (apart : ∀ attr ∈ attrs, attr ∉ .nlink :: (stamps ++ placing))
    (permits : w.Permits now change) (request : ¬ w.importing) (locked : ¬ w.Unlocked)
    (old : id ≠ w.fresh) :
    (∀ attr ∈ attrs, (change.apply now).get .nodes id attr.name = now.get .nodes id attr.name) ∨
      (∀ name, (change.apply now).get .nodes id name = none) ∨
      ∃ (attr : Attr) (value : Bytes), change = .put id attr.name value ∧
        w.Guards now id attr value := by
  have other : ∀ {node : UInt64} {name value : Bytes}, (∀ attr ∈ attrs, name ≠ attr.name) →
      ∀ attr ∈ attrs, (now.put .nodes node name value).get .nodes id attr.name =
        now.get .nodes id attr.name :=
    fun differs attr listed => Dbs.get_put_of_ne (.inr (differs attr listed))
  have unlisted : ∀ written ∈ stamps ++ placing, ∀ attr ∈ attrs, written.name ≠ attr.name := by
    intro written isWritten attr listed same
    rw [Attr.name_inj] at same
    subst same
    exact apart _ listed (List.mem_cons_of_mem _ isWritten)
  have uncounted : ∀ attr ∈ attrs, attr ≠ .nlink := by
    rintro attr listed rfl
    exact apart _ listed List.mem_cons_self
  cases permits with
  | stamp listed node value => exact .inl (other (unlisted _ (List.mem_append_left _ listed)))
  | place listed node value => exact .inl (other (unlisted _ (List.mem_append_right _ listed)))
  | @mark name free node value =>
      refine .inl (other fun attr _ same => ?_)
      rw [same] at free
      exact locked (free attr.reservedPrefix_isPrefix)
  | @unmark name free node =>
      refine .inl fun attr _ => ?_
      rw [Change.apply, Dbs.get_del, if_neg]
      rintro ⟨-, -, same⟩
      rw [same] at free
      exact locked (free attr.reservedPrefix_isPrefix)
  | imported importing listed fits present => exact absurd importing request
  | create first births atime mtime ctime =>
      exact .inl fun attr _ => Dbs.get_created_of_ne _ (Ne.symm old) _ _ _ _ _
  | own listed fits alive =>
      exact .inl fun attr _ => Dbs.get_put_of_ne (.inl (Ne.symm old))
  | @guarded attr value node guards =>
      by_cases same : node = id
      · subst same
        exact .inr (.inr ⟨attr, value, rfl, guards⟩)
      · exact .inl fun attr _ => Dbs.get_put_of_ne (.inl same)
  | enter absent counted entering =>
      exact .inl fun attr listed => Dbs.get_nodes_entered _ _ _ _ (uncounted attr listed)
  | @leave d name n nlink child counted leaving =>
      exact (Dbs.get_nodes_left d name n nlink id).imp
        (fun same attr listed => same attr (uncounted attr listed)) .inl
  | strip child missing leaving => exact .inl fun attr _ => Dbs.get_nodes_del _ _ _
  | unused counted last =>
      exact (Dbs.get_nodes_removed _ _ id).imp (fun same attr _ => same attr.name) .inl
  | abandon isFresh enclosed =>
      exact (Dbs.get_nodes_removed _ _ id).imp (fun same attr _ => same attr.name) .inl

/-- What is stored after a check leaves the type. -/
theorem Guards.nature {attr : Attr} {value : Bytes} (guards : w.Guards now id attr value)
    (nature : w.start.SameNature id now) :
    w.start.SameNature id (now.put .nodes id attr.name value) := by
  have elsewhere {written : Attr} {stored : Bytes} (unlisted : written ∉ .mode :: storedOnce) :
      w.start.SameNature id (now.put .nodes id written.name stored) := by
    apply nature.congr
    intro attr listed
    rw [Dbs.get_put_of_ne]
    right
    intro same
    rw [Attr.name_inj] at same
    subst same
    exact unlisted listed
  cases guards with
  | chmod owns untouched isOld member => exact nature.setMode isOld (keptType_chmod _ _)
  | @clear old owns isOld cleared isCleared =>
      have without : old &&& ~~~sIsuid &&& sIfmt = old &&& sIfmt :=
        cleared_and_of_disjoint (by decide) old
      rcases isCleared with rfl | rfl
      · exact nature.setMode isOld without
      · refine nature.setMode isOld ?_
        rw [cleared_and_of_disjoint (by decide), without]
  | group owns member cleared => exact elsewhere (by decide)
  | owner root => exact elsewhere (by decide)

/-- What has no mode gets none. -/
theorem Guards.absent {attr : Attr} {value : Bytes} (guards : w.Guards now id attr value)
    (absent : now.get .nodes id Attr.mode.name = none) :
    (now.put .nodes id attr.name value).get .nodes id Attr.mode.name = none := by
  have impossible {mode : UInt32} (isMode : now.attr UInt32 id .mode = .ok mode) : False := by
    rw [Dbs.attr, Dbs.getattr_eq_ok_iff, absent] at isMode
    cases isMode
  have elsewhere {written : Attr} {stored : Bytes} (unlisted : written ≠ .mode) :
      (now.put .nodes id written.name stored).get .nodes id Attr.mode.name = none := by
    rw [Dbs.get_put_of_ne (.inr fun same => unlisted (Attr.name_inj.mp same))]
    exact absent
  cases guards with
  | chmod owns untouched isOld member => exact (impossible isOld).elim
  | clear owns isOld cleared isCleared => exact (impossible isOld).elim
  | group owns member cleared => exact elsewhere (by decide)
  | owner root => exact elsewhere (by decide)

/-- A node that was there is what it was, or is gone. -/
theorem Written.nature (written : w.Written count now) (request : ¬ w.importing)
    (locked : ¬ w.Unlocked) (old : id ≠ w.fresh) {mode : UInt32}
    (isMode : w.start.attr UInt32 id .mode = .ok mode) :
    now.get .nodes id Attr.mode.name = none ∨ w.start.SameNature id now := by
  have apart : ∀ attr ∈ Attr.mode :: storedOnce, attr ∉ Attr.nlink :: (stamps ++ placing) := by
    decide
  induction written with
  | start => exact .inr (.refl isMode)
  | @change added now change _ permits ih =>
      rcases kept_cases apart permits request locked old with
        same | gone | ⟨attr, value, rfl, guards⟩
      · rcases ih with absent | nature
        · left
          rw [same .mode List.mem_cons_self]
          exact absent
        · exact .inr (nature.congr same)
      · exact .inl (gone _)
      · rcases ih with absent | nature
        · exact .inl (guards.absent absent)
        · exact .inr (guards.nature nature)

end Warrant

/-! ## Runs -/

section Runs

variable {fs : FS} {world start state : World} {id : UInt64} {n : NodeRef}

/-- A node that stays is what it was. -/
theorem World.nature_after (sound : fs.pcache.Sound) (world : World) {call : Call}
    (ordinary : world.Ordinary call)
    (before : ∃ n, world.dbs.getnode id = .ok n)
    (after : ∃ n, (world.after fs call).dbs.getnode id = .ok n) :
    world.dbs.SameNature id (world.after fs call).dbs := by
  obtain ⟨n, isNode⟩ := before
  obtain ⟨mode, isMode, -⟩ := Dbs.getnode_eq_ok_iff.mp isNode
  obtain ⟨_, _, _, written⟩ := world.within_after sound call
  have old : id ≠ (world.warrant fs call).fresh := by
    rintro rfl
    have stored := Dbs.getattr_eq_ok_iff.mp isMode
    rw [Dbs.get] at stored
    have absent := Db.getElem?_nextId ordinary.2 Attr.mode.name
    change (world.dbs.nodes)[(⟨world.dbs.nodes.nextId, Attr.mode.name⟩ : Key UInt64)]? = _ at stored
    rw [absent] at stored
    cases stored
  have locked : ¬(world.warrant fs call).Unlocked := by
    rintro ⟨root, reserved⟩
    change call.1.caller.uid = 0 at root
    rw [Context.caller_uid] at root
    exact ordinary.1 ⟨root, reserved⟩
  rcases written.nature not_false locked old isMode with absent | nature
  · obtain ⟨last, stays⟩ := after
    obtain ⟨mode, isMode, -⟩ := Dbs.getnode_eq_ok_iff.mp stays
    rw [Dbs.attr, Dbs.getattr_eq_ok_iff, absent] at isMode
    cases isMode
  · exact nature

/-- As long as a node exists it keeps its class, its type, its target and its device number,
whatever is called in between. -/
theorem nature_kept (sound : fs.pcache.Sound) (isNode : start.dbs.getnode id = .ok n)
    (reached : Reaches (World.after fs) (fun world call => world.Ordinary call ∧
      ∃ n, (world.after fs call).dbs.getnode id = .ok n) start state) :
    state.dbs.getnode id = .ok n ∧ start.dbs.SameNature id state.dbs := by
  have nature : start.dbs.SameNature id state.dbs := by
    induction reached with
    | start =>
        obtain ⟨mode, isMode, -⟩ := Dbs.getnode_eq_ok_iff.mp isNode
        exact .refl isMode
    | @step world call _ met ih =>
        obtain ⟨ordinary, stays⟩ := met
        exact ih.trans (world.nature_after sound ordinary ⟨n, ih.getnode isNode⟩ stays)
  exact ⟨nature.getnode isNode, nature⟩

end Runs

/-- A symbolic link is made. -/
def linked : World :=
  mountedWorld.after mounted (rootContext, .symlink (str "/t") (str "/l"))

set_option maxRecDepth 100000 in
theorem nature_kept_linked :
    (linked.after mounted (rootContext, .chmod (str "/l") 0o777)).dbs.get .nodes 1
        Attr.symlink.name = linked.dbs.get .nodes 1 Attr.symlink.name := by
  have isNode : linked.dbs.getnode 1 = .ok ⟨1, .symlink⟩ := by decide +kernel
  have stays : ∃ n, (linked.after mounted (rootContext, .chmod (str "/l") 0o777)).dbs.getnode 1 =
      .ok n := ⟨⟨1, .symlink⟩, by decide +kernel⟩
  have ordinary : linked.Ordinary (rootContext, .chmod (str "/l") 0o777) :=
    ⟨fun both => both.2.elim, Db.idsLeft_of_keys (by decide +kernel)⟩
  exact (nature_kept PathCache_hash.sound isNode
    (.step _ .start ⟨ordinary, stays⟩)).2.fixed .symlink List.mem_cons_self

end OfflineFs
