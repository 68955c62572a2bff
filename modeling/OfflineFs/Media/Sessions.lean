import OfflineFs.Formats.Listing
import OfflineFs.Media.Commands
import OfflineFs.Transition.Run

/-!
# Runs of commands

Media are known, listed and removable as long as no command touches their types.  A medium
whose type is not known can be neither changed nor removed, and nothing is listed to the end.
-/

namespace OfflineFs.Offmedia

open Std OfflineFs.Map OfflineFs.Transition

/-- The media after a command. -/
def tool (order : ByteOrder) (media : Db UInt32) (options : Options) : Db UInt32 :=
  (main order options media).media

/-- Every id in use is that of a medium. -/
def AllKnown (media : Db UInt32) : Prop :=
  ∀ key : Key UInt32, media[key]? ≠ none → known media key.id = true

/-- A command that is not about a type. -/
def Options.SparesTypes (options : Options) : Prop :=
  options.set = true ∨ options.unset = true → options.attr ≠ some (str "type")

variable {order : ByteOrder} {options : Options} {media after state : Db UInt32} {mid : UInt32}
variable {name out : Bytes}

/-- A command changes the media as it is asked to, or not at all. -/
theorem tool_cases (idsLeft : IdsLeft media) (options : Options) :
    (∃ out, Asks order options media out (tool order media options)) ∨
      tool order media options = media := by
  rcases result : options.command order media with ⟨out, done⟩
  cases done with
  | ok after =>
      left
      have ended : tool order media options = after := by rw [tool, main, result]
      exact ⟨out, ended ▸ asks_of_command idsLeft result⟩
  | error e =>
      right
      rw [tool, main, result]

/-- What cannot be done ends with a message. -/
theorem main_of_impossible (idsLeft : IdsLeft media)
    (impossible : ∀ out after, ¬Asks order options media out after) :
    (main order options media).status = 1 ∧ (main order options media).media = media := by
  rcases result : options.command order media with ⟨out, done⟩
  cases done with
  | ok after => exact absurd (asks_of_command idsLeft result) (impossible out after)
  | error e => exact ⟨by rw [main, result], by rw [main, result]⟩

theorem main_of_asks (idsLeft : IdsLeft media) (asks : Asks order options media out after) :
    main order options media = ⟨after, out, [], 0⟩ := by
  rw [main, command_of_asks idsLeft asks]

/-! ## The plain list -/

theorem print_plain (order : ByteOrder) (media : Db UInt32) (mid : UInt32) :
    ({ list := true } : Options).print order media mid = printMedium (entriesOf media mid) := by
  simp [Options.print, printMedium, attributeLine]

/-- The list without filters. -/
theorem showLoop_plain (order : ByteOrder) (media : Db UInt32) (ids : List UInt32) :
    (({ list := true } : Options).showLoop order media ids).1 = (listLoop media ids).1 ∧
      ((({ list := true } : Options).showLoop order media ids).2 = none ↔
        (listLoop media ids).2 = true) := by
  induction ids with
  | nil => simp [Options.showLoop, listLoop]
  | cons mid ids ih =>
      rw [Options.showLoop, listLoop]
      have passes : ({ list := true } : Options).passes order media mid = .ok true := rfl
      cases found : getmedium media mid with
      | error e =>
          have unknown : known media mid ≠ true := by
            rw [ne_eq, known_iff, found]
            rintro ⟨kind, impossible⟩
            cases impossible
          simp [unknown]
      | ok m => simp [known_of_getmedium found, passes, print_plain, ih]

/-- What the plain command prints, and whether it ends well. -/
theorem main_list (order : ByteOrder) (dbs : Dbs) : ∃ err, main order { list := true } dbs.media =
    ⟨dbs.media, (list dbs).1, err, if (list dbs).2 then 0 else 1⟩ ∧
      ((list dbs).2 = true → err = []) := by
  obtain ⟨printed, ended⟩ := showLoop_plain order dbs.media dbs.mediaIds
  have listed : ({ list := true } : Options).runList order dbs.media =
      ({ list := true } : Options).showLoop order dbs.media dbs.mediaIds :=
    if_neg (by simp)
  rw [list]
  rcases result : ({ list := true } : Options).showLoop order dbs.media dbs.mediaIds
    with ⟨out, stop⟩
  rw [result] at printed ended listed
  cases stop with
  | none =>
      have whole := ended.mp rfl
      have command : ({ list := true } : Options).command order dbs.media =
          (out, .ok dbs.media) := by
        simp [Options.command, listed]
      exact ⟨[], by rw [main, command, ← printed, whole]; rfl, fun _ => rfl⟩
  | some e =>
      have cut : (listLoop dbs.media dbs.mediaIds).2 = false := by
        rw [Bool.eq_false_iff]
        intro whole
        cases ended.mpr whole
      have command : ({ list := true } : Options).command order dbs.media = (out, .error e) := by
        simp [Options.command, listed]
      refine ⟨_, by rw [main, command, ← printed, cut]; rfl, fun whole => ?_⟩
      rw [cut] at whole
      cases whole

/-! ## Media that are known -/

/-- Where all media are known each can be removed. -/
theorem main_remove (idsLeft : IdsLeft media) (isKnown : known media mid = true) :
    main order { remove := true, id := some (order.inMemory mid) } media =
      ⟨media.eraseRegister mid, [], [], 0⟩ :=
  main_of_asks idsLeft (.remove mid ⟨rfl, rfl, rfl, rfl⟩ ⟨rfl, rfl⟩ ⟨isKnown, rfl⟩
    (Db.getElem?_eraseRegister media mid))

theorem known_congr (same : after[(⟨mid, str "type"⟩ : Key UInt32)]? =
    media[(⟨mid, str "type"⟩ : Key UInt32)]?) : known after mid = known media mid := by
  rw [known, known, same]

/-- A new medium is known. -/
theorem known_presets {label : Bytes} {kind : MediumKind}
    (stored : after[(⟨mid, str "type"⟩ : Key UInt32)]? =
      (presets label kind).lookup (str "type")) : known after mid = true := by
  have types : ∀ kind, (defaults kind).lookup (str "type") = some (typeName kind) := by
    intro kind
    cases kind <;> decide +kernel
  have distinct : (str "type" == str "label") = false := by decide +kernel
  rw [presets, List.lookup_cons, distinct] at stored
  rw [known, stored]
  cases kind with
  | directory => simp [types, typeName]
  | insert => simp [types, typeName]

/-- Where a type is the same a medium stays known. -/
theorem AllKnown.keep {key : Key UInt32} (allKnown : AllKnown media) (present : media[key]? ≠ none)
    (same : after[(⟨key.id, str "type"⟩ : Key UInt32)]? =
      media[(⟨key.id, str "type"⟩ : Key UInt32)]?) : known after key.id = true := by
  rw [known_congr same]
  exact allKnown key present

/-- A command that is not about types leaves only media that are known. -/
theorem Asks.allKnown (allKnown : AllKnown media) (spares : options.SparesTypes)
    (asks : Asks order options media out after) : AllKnown after := by
  intro key present
  cases asks with
  | add kind label mid command arguments labelled fresh effect =>
      have stored := effect ⟨key.id, str "type"⟩
      by_cases own : key.id = mid
      · rw [if_pos own] at stored
        exact known_presets stored
      · rw [if_neg own] at stored
        rw [effect, if_neg own] at present
        exact allKnown.keep present stored
  | set mid attr value command arguments chosen effect =>
      have untouched : (⟨key.id, str "type"⟩ : Key UInt32) ≠ ⟨mid, attr⟩ := by
        intro isType
        exact spares (.inl command.2) (by rw [arguments.1, ← (Key.mk.inj isType).2])
      have stored := effect ⟨key.id, str "type"⟩
      rw [if_neg untouched] at stored
      rw [effect] at present
      split at present
      · rename_i same
        rw [known_congr stored, same]
        exact chosen.1
      · exact allKnown.keep present stored
  | unset mid attr command arguments chosen isThere effect =>
      have untouched : (⟨key.id, str "type"⟩ : Key UInt32) ≠ ⟨mid, attr⟩ := by
        intro isType
        exact spares (.inr command.2.2) (by rw [arguments.1, ← (Key.mk.inj isType).2])
      have stored := effect ⟨key.id, str "type"⟩
      rw [if_neg untouched] at stored
      rw [effect] at present
      split at present
      · exact absurd rfl present
      · exact allKnown.keep present stored
  | remove mid command arguments chosen effect =>
      have stored := effect ⟨key.id, str "type"⟩
      rw [effect] at present
      split at present
      · exact absurd rfl present
      · rename_i other
        rw [if_neg other] at stored
        exact allKnown.keep present stored
  | list mids command arguments readable increasing shown => exact allKnown key present

theorem AllKnown.step (idsLeft : IdsLeft media) (allKnown : AllKnown media)
    (spares : options.SparesTypes) : AllKnown (tool order media options) := by
  rcases tool_cases idsLeft options with ⟨out, asks⟩ | same
  · exact asks.allKnown allKnown spares
  · rw [same]
    exact allKnown

/-- From media that are known, commands that are not about types lead to media that are all known.
They are all listed then, and each can be removed. -/
theorem media_listed (start : AllKnown media)
    (reached : Reaches (tool order) (fun media options => IdsLeft media ∧ options.SparesTypes)
      media state)
    (idsLeft : IdsLeft state) (nodes directories : Db UInt64) :
    main order { list := true } state =
      ⟨state, listing (mediaOf ⟨nodes, directories, state⟩), [], 0⟩ ∧
      ∀ key : Key UInt32, state[key]? ≠ none →
        main order { remove := true, id := some (order.inMemory key.id) } state =
          ⟨state.eraseRegister key.id, [], [], 0⟩ := by
  have allKnown : AllKnown state :=
    reached.invariant start fun _ _ allKnown met => allKnown.step met.1 met.2
  refine ⟨?_, fun key present => main_remove idsLeft (allKnown key present)⟩
  have all : ∀ mid ∈ (⟨nodes, directories, state⟩ : Dbs).mediaIds, known state mid = true := by
    intro mid member
    obtain ⟨name, present⟩ := ((getregisters_spec idsLeft).2 mid).mp member
    exact allKnown ⟨mid, name⟩ present
  obtain ⟨err, ended, quiet⟩ := main_list order ⟨nodes, directories, state⟩
  rw [list_eq all] at ended quiet
  rw [quiet rfl] at ended
  exact ended

/-- The commands that add two media, the first of which gets a place. -/
def shelving : List Options :=
  [{ add := some (str "directory"), label := some (str "m") },
    { add := some (str "insert"), label := some (str "m") }, placing]

set_option maxRecDepth 100000 in
theorem shelving_meets :
    Meets (tool .little) (fun media options => IdsLeft media ∧ options.SparesTypes) ∅ shelving := by
  refine .cons ⟨?_, ?_⟩ (.cons ⟨?_, ?_⟩ (.cons ⟨?_, ?_⟩ (.nil _)))
  · exact idsLeft_of_keys (by decide +kernel)
  · rintro -
    exact Option.some_ne_none _ ∘ Eq.symm
  · exact idsLeft_of_keys (by decide +kernel)
  · rintro -
    exact Option.some_ne_none _ ∘ Eq.symm
  · exact idsLeft_of_keys (by decide +kernel)
  · rintro -
    decide +kernel

set_option maxRecDepth 100000 in
/-- The medium of this id is listed, and can be removed. -/
theorem media_listed_shelving :
    (main .little { remove := true, id := some 16777216 }
      (shelving.foldl (tool .little) ∅)).status =
      0 := by
  have start : AllKnown ∅ := by
    intro key present
    exact absurd ExtTreeMap.getElem?_empty present
  have idsLeft : IdsLeft (shelving.foldl (tool .little) ∅) := idsLeft_of_keys (by decide +kernel)
  have present : (shelving.foldl (tool .little) ∅)[(⟨1, str "type"⟩ : Key UInt32)]? ≠ none := by
    decide +kernel
  have listed := (media_listed start shelving_meets.reaches idsLeft ∅ ∅).2 ⟨1, str "type"⟩ present
  have shown : ByteOrder.little.inMemory (1 : UInt32) = 16777216 := rfl
  rw [shown] at listed
  rw [listed]

/-! ## Media that are not known -/

/-- No command touches a medium whose type is not known. -/
theorem Asks.kept (present : media[(⟨mid, name⟩ : Key UInt32)]? ≠ none)
    (unknown : known media mid = false) (asks : Asks order options media out after)
    (other : Bytes) :
    after[(⟨mid, other⟩ : Key UInt32)]? = media[(⟨mid, other⟩ : Key UInt32)]? := by
  have differs {chosen : UInt32} (isChosen : options.Chooses order media chosen) :
      mid ≠ chosen := by
    rintro rfl
    rw [isChosen.1] at unknown
    cases unknown
  cases asks with
  | add kind label fresh command arguments labelled isFresh effect =>
      rw [effect, if_neg]
      rintro rfl
      exact present (isFresh.absent name)
  | set chosen attr value command arguments isChosen effect =>
      rw [effect, if_neg]
      intro same
      exact differs isChosen (Key.mk.inj same).1
  | unset chosen attr command arguments isChosen isThere effect =>
      rw [effect, if_neg]
      intro same
      exact differs isChosen (Key.mk.inj same).1
  | remove chosen command arguments isChosen effect =>
      rw [effect, if_neg (differs isChosen)]
  | list mids command arguments readable increasing shown => rfl

/-- Commands that list, and commands other than `--add` for the id of a medium. -/
def Options.Needs (order : ByteOrder) (options : Options) (mid : UInt32) : Prop :=
  options.add = none ∧ (options.id = some (order.inMemory mid) ∨
    options.set = false ∧ options.unset = false ∧ options.remove = false)

/-- What needs a medium that is not known cannot be done. -/
theorem not_asks_of_unknown (present : media[(⟨mid, name⟩ : Key UInt32)]? ≠ none)
    (unknown : known media mid = false) (needs : options.Needs order mid) (out : Bytes)
    (after : Db UInt32) : ¬Asks order options media out after := by
  have isList {chosen : UInt32} (isChosen : options.Chooses order media chosen) :
      options.set = false ∧ options.unset = false ∧ options.remove = false := by
    rcases needs.2 with isId | plain
    · have same := isChosen.2
      rw [isId] at same
      simp only [ByteOrder.inMemory_inj] at same
      have isKnown := isChosen.1
      rw [← same, unknown] at isKnown
      cases isKnown
    · exact plain
  intro asks
  cases asks with
  | add kind label mid command =>
      rw [needs.1] at command
      cases command
  | set chosen attr value command arguments isChosen effect =>
      rw [(isList isChosen).1] at command
      cases command.2
  | unset chosen attr command arguments isChosen isThere effect =>
      rw [(isList isChosen).2.1] at command
      cases command.2.2
  | remove chosen command arguments isChosen effect =>
      rw [(isList isChosen).2.2] at command
      cases command.2.2.2
  | list mids command arguments readable increasing shown =>
      rw [(readable ⟨mid, name⟩ present).1] at unknown
      cases unknown

/-- A medium whose type is not known stays as it is over every run of commands, and no command
that lists or is about its id ends well. -/
theorem unknown_stuck (present : media[(⟨mid, name⟩ : Key UInt32)]? ≠ none)
    (unknown : known media mid = false)
    (reached : Reaches (tool order) (fun media _ => IdsLeft media) media state) :
    (∀ other, state[(⟨mid, other⟩ : Key UInt32)]? = media[(⟨mid, other⟩ : Key UInt32)]?) ∧
      ∀ options : Options, IdsLeft state → options.Needs order mid →
        (main order options state).status = 1 ∧ (main order options state).media = state := by
  have kept : ∀ other, state[(⟨mid, other⟩ : Key UInt32)]? =
      media[(⟨mid, other⟩ : Key UInt32)]? := by
    induction reached with
    | start => exact fun _ => rfl
    | @step before options _ idsLeft same =>
        intro other
        rcases tool_cases idsLeft options with ⟨out, asks⟩ | unchanged
        · have still : before[(⟨mid, name⟩ : Key UInt32)]? ≠ none := by
            rw [same]
            exact present
          have strange : known before mid = false := by
            rw [known_congr (same _)]
            exact unknown
          rw [asks.kept still strange, same]
        · rw [unchanged, same]
  refine ⟨kept, fun options idsLeft needs => main_of_impossible idsLeft ?_⟩
  apply not_asks_of_unknown (by rw [kept]; exact present) _ needs
  rw [known_congr (kept _)]
  exact unknown

/-- A medium of a type that is not known. -/
def strangeMedia : Db UInt32 :=
  setattrv twoMedia 0 (str "type") (str "tape")

set_option maxRecDepth 100000 in
theorem unknown_stuck_listing :
    (main .little { list := true }
      (tool .little strangeMedia { remove := true, label := some (str "m") })).status =
      1 := by
  have present : strangeMedia[(⟨0, str "type"⟩ : Key UInt32)]? ≠ none := by decide +kernel
  have unknown : known strangeMedia 0 = false := by decide +kernel
  have idsLeft : IdsLeft strangeMedia := idsLeft_of_keys (by decide +kernel)
  have after : IdsLeft (tool .little strangeMedia { remove := true, label := some (str "m") }) :=
    idsLeft_of_keys (by decide +kernel)
  exact ((unknown_stuck present unknown (.step _ .start idsLeft)).2 _ after
    ⟨rfl, .inr ⟨rfl, rfl, rfl⟩⟩).1

end OfflineFs.Offmedia
