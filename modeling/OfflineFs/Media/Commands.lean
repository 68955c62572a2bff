import Mathlib.Data.List.Sort
import OfflineFs.Media.Registers

/-!
# What the commands do

Each command of the media tool does what its options ask, or it fails and the media are as
before.  It fails only when nothing that they ask can be done.
-/

namespace OfflineFs.Offmedia

open Std OfflineFs.Map

/-- The type that is stored for a class of media. -/
def typeName : MediumKind → Bytes
  | .directory => str "directory"
  | .insert => str "insert"

/-- The attributes of a new medium but for its label, with the dummy one. -/
def defaults : MediumKind → List (Bytes × Bytes)
  | .directory => [([], []), (str "type", str "directory"), (str "directory", []),
      (str "unlink_files", str "false")]
  | .insert => [([], []), (str "type", str "insert"), (str "directory", []),
      (str "unlink_files", str "false"), (str "checkcmd", []), (str "insertcmd", []),
      (str "total_size", str "0"), (str "free_size", str "0")]

/-- The attributes of a new medium. -/
def presets (label : Bytes) (kind : MediumKind) : List (Bytes × Bytes) :=
  (str "label", label) :: defaults kind

/-- An id above all others: the first one, or the one after an id in use. -/
structure Fresh (media : Db UInt32) (mid : UInt32) : Prop where
  above : ∀ key : Key UInt32, media[key]? ≠ none → key.id < mid
  lowest : mid = 0 ∨ ∃ key : Key UInt32, media[key]? ≠ none ∧ mid = key.id + 1

/-- The medium that the options choose, if it is known: the one of their id, or else the lowest
one of their label. -/
def Options.Chooses (order : ByteOrder) (options : Options) (media : Db UInt32) (mid : UInt32) :
    Prop :=
  known media mid = true ∧
    match options.id, options.label with
    | some id, _ => id = order.inMemory mid
    | none, some label => First media label mid
    | none, none => False

/-- The media that `--list` shows. -/
structure Options.Shows (order : ByteOrder) (options : Options) (media : Db UInt32)
    (mid : UInt32) : Prop where
  present : ∃ name, media[(⟨mid, name⟩ : Key UInt32)]? ≠ none
  label : ∀ label, options.label = some label →
    media[(⟨mid, str "label"⟩ : Key UInt32)]? = some label
  id : ∀ id, options.id = some id → id = order.inMemory mid

/-- What options ask for: what is printed, and the media afterwards.  Of several commands the
first one here is meant. -/
inductive Asks (order : ByteOrder) (options : Options) (media : Db UInt32) :
    Bytes → Db UInt32 → Prop
  | add {after : Db UInt32} (kind : MediumKind) (label : Bytes) (mid : UInt32)
      (command : options.add = some (typeName kind))
      (arguments : options.attr = none ∧ options.value = none)
      (labelled : options.label = some label) (fresh : Fresh media mid)
      (effect : ∀ key : Key UInt32, after[key]? =
        if key.id = mid then (presets label kind).lookup key.name else media[key]?) :
      Asks order options media [] after
  | set {after : Db UInt32} (mid : UInt32) (attr value : Bytes)
      (command : options.add = none ∧ options.set = true)
      (arguments : options.attr = some attr ∧ options.value = some value)
      (chosen : options.Chooses order media mid)
      (effect : ∀ key : Key UInt32, after[key]? =
        if key = ⟨mid, attr⟩ then some value else media[key]?) :
      Asks order options media [] after
  | unset {after : Db UInt32} (mid : UInt32) (attr : Bytes)
      (command : options.add = none ∧ options.set = false ∧ options.unset = true)
      (arguments : options.attr = some attr ∧ options.value = none)
      (chosen : options.Chooses order media mid)
      (present : media[(⟨mid, attr⟩ : Key UInt32)]? ≠ none)
      (effect : ∀ key : Key UInt32, after[key]? =
        if key = ⟨mid, attr⟩ then none else media[key]?) :
      Asks order options media [] after
  | remove {after : Db UInt32} (mid : UInt32)
      (command : options.add = none ∧ options.set = false ∧ options.unset = false ∧
        options.remove = true)
      (arguments : options.attr = none ∧ options.value = none)
      (chosen : options.Chooses order media mid)
      (effect : ∀ key : Key UInt32, after[key]? = if key.id = mid then none else media[key]?) :
      Asks order options media [] after
  | list (mids : List UInt32)
      (command : options.add = none ∧ options.set = false ∧ options.unset = false ∧
        options.remove = false ∧ options.list = true)
      (arguments : (options.label = none → options.attr = none) ∧ options.value = none)
      (readable : ∀ key : Key UInt32, media[key]? ≠ none → known media key.id = true ∧
        (options.label ≠ none → media[(⟨key.id, str "label"⟩ : Key UInt32)]? ≠ none))
      (increasing : mids.Pairwise (· < ·))
      (shown : ∀ mid, mid ∈ mids ↔ options.Shows order media mid) :
      Asks order options media (mids.flatMap (options.print order media)) media

variable {order : ByteOrder} {options : Options} {media after : Db UInt32} {id mid : UInt32}
variable {m : Medium}
variable {label attr value out : Bytes}

/-! ## Choosing a medium -/

theorem known_of_getmedium (found : getmedium media mid = .ok m) : known media mid = true := by
  have same := getmedium_id found
  exact known_iff.mpr ⟨m.kind, by rw [found, ← same]⟩

/-- The options find the medium that they choose, and throw when they choose none. -/
theorem chooses_iff (idsLeft : IdsLeft media) :
    options.Chooses order media mid ↔ ∃ kind, options.getmedium order media = .ok ⟨mid, kind⟩ := by
  unfold Options.Chooses Options.getmedium
  cases options.id with
  | some id =>
      simp only
      constructor
      · rintro ⟨isKnown, rfl⟩
        rw [ByteOrder.inMemory_inMemory]
        exact known_iff.mp isKnown
      · rintro ⟨kind, found⟩
        obtain rfl : mid = order.inMemory id := getmedium_id found
        exact ⟨known_iff.mpr ⟨kind, found⟩, (order.inMemory_inMemory id).symm⟩
  | none =>
      cases options.label with
      | some label =>
          simp only
          rw [and_comm]
          exact (getmediumByLabel_eq_ok_iff idsLeft).symm
      | none => simp

/-- Doing something to the medium that the options choose. -/
theorem onMedium_eq_ok_iff (idsLeft : IdsLeft media)
    (next : UInt32 → Except Failure (Db UInt32)) :
    (match options.getmedium order media with
      | .ok m => next m.id
      | .error e => .error e) = .ok after ↔
        ∃ mid, options.Chooses order media mid ∧ next mid = .ok after := by
  constructor
  · intro done
    cases found : options.getmedium order media with
    | error e =>
        rw [found] at done
        cases done
    | ok m =>
        rw [found] at done
        exact ⟨m.id, (chooses_iff idsLeft).mpr ⟨m.kind, found⟩, done⟩
  · rintro ⟨mid, chosen, done⟩
    obtain ⟨kind, found⟩ := (chooses_iff idsLeft).mp chosen
    rw [found]
    exact done

/-! ## Changes -/

/-- Media with the same attributes are the same. -/
theorem eq_iff_getElem? {other : Db UInt32} :
    after = other ↔ ∀ key : Key UInt32, after[key]? = other[key]? :=
  ⟨fun same key => by rw [same], fun same => ExtTreeMap.ext_getElem? fun key => same key⟩

theorem getElem?_setattrv (key : Key UInt32) : (setattrv media id attr value)[key]? =
    if key = ⟨id, attr⟩ then some value else media[key]? := by
  rw [setattrv, getElem?_insert_eq_ite]
  exact ite_congr (propext eq_comm) (fun _ => rfl) fun _ => rfl

/-- Erasing an attribute that is there, and no other. -/
theorem delattr_eq_ok_iff : delattr media id attr = .ok after ↔
    media[(⟨id, attr⟩ : Key UInt32)]? ≠ none ∧
      ∀ key : Key UInt32, after[key]? = if key = ⟨id, attr⟩ then none else media[key]? := by
  have erased (key : Key UInt32) : (media.erase ⟨id, attr⟩)[key]? =
      if key = ⟨id, attr⟩ then none else media[key]? := by
    rw [getElem?_erase_eq_ite]
    exact ite_congr (propext eq_comm) (fun _ => rfl) fun _ => rfl
  unfold delattr
  cases media[(⟨id, attr⟩ : Key UInt32)]? with
  | none => simp
  | some value =>
      simp only [Except.ok.injEq, ne_eq, reduceCtorEq, not_false_eq_true, true_and]
      rw [eq_comm, eq_iff_getElem?]
      simp only [erased]

/-- The last value that is set stays. -/
theorem getElem?_setattrs (entries : List (Bytes × Bytes)) (key : Key UInt32) :
    (setattrs media id entries)[key]? =
      if key.id = id then (entries.reverse.lookup key.name).or media[key]? else media[key]? := by
  induction entries generalizing media with
  | nil => simp [setattrs]
  | cons entry entries ih =>
      rcases entry with ⟨name, value⟩
      change (setattrs (setattrv media id name value) id entries)[key]? = _
      rw [ih, getElem?_setattrv, List.reverse_cons, List.lookup_append]
      by_cases own : key.id = id
      · rw [if_pos own, if_pos own, Option.or_assoc]
        congr 1
        by_cases named : key.name = name
        · have same : key = ⟨id, name⟩ := by rw [← own, ← named]
          rw [if_pos same, named, List.lookup_cons_self, Option.some_or]
        · have other : key ≠ ⟨id, name⟩ := fun same => named (congrArg Key.name same)
          rw [if_neg other, List.lookup_cons, beq_eq_false_iff_ne.mpr named, List.lookup_nil,
            Option.none_or]
      · have other : key ≠ ⟨id, name⟩ := fun same => own (congrArg Key.id same)
        rw [if_neg own, if_neg own, if_neg other]

theorem setattrs_setattrs (first second : List (Bytes × Bytes)) :
    setattrs (setattrs media id first) id second = setattrs media id (first ++ second) :=
  (List.foldl_append ..).symm

/-! ## New media -/

theorem fresh_createregister (idsLeft : IdsLeft media) : Fresh media (createregister media).1 where
  above _ present := lt_createregister idsLeft present
  lowest := createregister_cases media

/-- There is one fresh id. -/
theorem Fresh.eq {other : UInt32} (fresh : Fresh media mid) (again : Fresh media other) :
    mid = other := by
  have least {first second : UInt32} (first_fresh : Fresh media first)
      (second_fresh : Fresh media second) : first ≤ second := by
    rcases first_fresh.lowest with rfl | ⟨key, present, rfl⟩
    · exact UInt32.zero_le
    · have below := second_fresh.above key present
      rw [UInt32.lt_iff_toNat_lt] at below
      rw [UInt32.le_iff_toNat_le, UInt32.toNat_add]
      have one : (1 : UInt32).toNat = 1 := rfl
      omega
  exact UInt32.le_antisymm (least fresh again) (least again fresh)

theorem Fresh.absent (fresh : Fresh media mid) (name : Bytes) :
    media[(⟨mid, name⟩ : Key UInt32)]? = none := by
  by_contra present
  exact absurd (fresh.above ⟨mid, name⟩ present) (UInt32.lt_irrefl mid)

/-- What `create` sets, in its order. -/
def created : MediumKind → List (Bytes × Bytes)
  | .directory => [([], []), (str "label", []), (str "type", str "directory"),
      (str "directory", []), (str "unlink_files", str "false")]
  | .insert => [([], []), (str "label", []), (str "type", str "directory"),
      (str "directory", []), (str "unlink_files", str "false"), (str "type", str "insert"),
      (str "checkcmd", []), (str "insertcmd", []), (str "total_size", str "0"),
      (str "free_size", str "0")]

theorem create_typeName (media : Db UInt32) (kind : MediumKind) : create media (typeName kind) =
    .ok ((createregister media).1, setattrs media (createregister media).1 (created kind)) := by
  cases kind with
  | directory => rfl
  | insert => rfl

/-- Only the classes of media can be created. -/
theorem exists_typeName {mediumtype : Bytes} {result : UInt32 × Db UInt32}
    (creates : create media mediumtype = .ok result) : ∃ kind, mediumtype = typeName kind := by
  unfold create at creates
  split at creates
  · rename_i isDirectory
    exact ⟨.directory, isDirectory⟩
  · split at creates
    · rename_i isInsert
      exact ⟨.insert, isInsert⟩
    · cases creates

theorem lookup_eq_none {entries : List (Bytes × Bytes)} {name : Bytes}
    (absent : name ∉ entries.map Prod.fst) : entries.lookup name = none := by
  rw [List.lookup_eq_none_iff]
  intro entry member
  rw [bne_iff_ne]
  rintro rfl
  exact absent (List.mem_map_of_mem member)

/-- The values that were set last are those of a new medium. -/
theorem lookup_created (kind : MediumKind) (label name : Bytes) :
    (created kind ++ [(str "label", label)]).reverse.lookup name =
      (presets label kind).lookup name := by
  rw [List.reverse_append, List.reverse_singleton, List.singleton_append, presets]
  by_cases isLabel : name = str "label"
  · rw [isLabel, List.lookup_cons_self, List.lookup_cons_self]
  · rw [List.lookup_cons, List.lookup_cons, beq_eq_false_iff_ne.mpr isLabel]
    simp only
    have names : ∀ kind, ∀ name ∈ (defaults kind).map Prod.fst,
        (created kind).reverse.lookup name = (defaults kind).lookup name := by
      intro kind
      cases kind <;> decide +kernel
    have others : ∀ kind, ∀ name ∈ (created kind).reverse.map Prod.fst,
        name = str "label" ∨ name ∈ (defaults kind).map Prod.fst := by
      intro kind
      cases kind <;> decide +kernel
    by_cases listed : name ∈ (defaults kind).map Prod.fst
    · exact names kind name listed
    · rw [lookup_eq_none listed, lookup_eq_none]
      intro member
      rcases others kind name member with same | member
      · exact isLabel same
      · exact listed member

/-! ## The commands -/

/-- Commands that take no arguments. -/
theorem plain_eq_ok_iff {body : Except Failure (Db UInt32)} :
    (if options.attr.isSome ∨ options.value.isSome then .error .tooManyOptions else body) =
        .ok after ↔ (options.attr = none ∧ options.value = none) ∧ body = .ok after := by
  by_cases arguments : options.attr.isSome ∨ options.value.isSome
  · rw [if_pos arguments]
    constructor
    · intro thrown
      cases thrown
    · rintro ⟨⟨noAttr, noValue⟩, -⟩
      simp [noAttr, noValue] at arguments
  · rw [if_neg arguments]
    rw [not_or, Option.not_isSome_iff_eq_none, Option.not_isSome_iff_eq_none] at arguments
    rw [iff_true_intro arguments, true_and]

/-- Adding makes a medium under a fresh id, with the label that was given. -/
theorem runAdd_eq_ok_iff (idsLeft : IdsLeft media) {mediumtype : Bytes} :
    options.runAdd media mediumtype = .ok after ↔
      (options.attr = none ∧ options.value = none) ∧ ∃ kind label mid, mediumtype = typeName kind ∧
        options.label = some label ∧ Fresh media mid ∧ ∀ key : Key UInt32, after[key]? =
          if key.id = mid then (presets label kind).lookup key.name else media[key]? := by
  have made (kind : MediumKind) (label : Bytes) (key : Key UInt32) :
      (setattrv (setattrs media (createregister media).1 (created kind)) (createregister media).1
        (str "label") label)[key]? = if key.id = (createregister media).1
          then (presets label kind).lookup key.name else media[key]? := by
    change (setattrs (setattrs media _ (created kind)) _ [(str "label", label)])[key]? = _
    rw [setattrs_setattrs, getElem?_setattrs, lookup_created]
    split
    · rename_i own
      have absent := (fresh_createregister idsLeft).absent key.name
      rw [← own] at absent
      rw [absent, Option.or_none]
    · rfl
  unfold Options.runAdd
  rw [plain_eq_ok_iff]
  apply and_congr_right
  intro _
  cases options.label with
  | none => simp
  | some label =>
      simp only
      constructor
      · intro done
        cases creates : create media mediumtype with
        | error e =>
            rw [creates] at done
            cases done
        | ok result =>
            obtain ⟨kind, rfl⟩ := exists_typeName creates
            rw [create_typeName] at done
            refine ⟨kind, label, _, rfl, rfl, fresh_createregister idsLeft, fun key => ?_⟩
            rw [← Except.ok.inj done, made]
      · rintro ⟨kind, label', mid, rfl, isLabel, fresh, effect⟩
        obtain rfl := Option.some.inj isLabel
        obtain rfl := fresh.eq (fresh_createregister idsLeft)
        rw [create_typeName]
        simp only [Except.ok.injEq]
        rw [eq_comm, eq_iff_getElem?]
        intro key
        rw [effect, made]

/-- When `--set` succeeds, and what it stores. -/
theorem runSet_eq_ok_iff (idsLeft : IdsLeft media) : options.runSet order media = .ok after ↔
    ∃ attr value, (options.attr = some attr ∧ options.value = some value) ∧
      ∃ mid, options.Chooses order media mid ∧ ∀ key : Key UInt32, after[key]? =
        if key = ⟨mid, attr⟩ then some value else media[key]? := by
  unfold Options.runSet
  cases options.attr with
  | none => simp
  | some attr =>
      cases options.value with
      | none => simp
      | some value =>
          simp only [Option.some.injEq]
          refine (onMedium_eq_ok_iff idsLeft fun mid => .ok (setattrv media mid attr value)).trans
            ?_
          simp only [Except.ok.injEq]
          constructor
          · rintro ⟨mid, chosen, rfl⟩
            exact ⟨attr, value, ⟨rfl, rfl⟩, mid, chosen, getElem?_setattrv⟩
          · rintro ⟨_, _, ⟨rfl, rfl⟩, mid, chosen, effect⟩
            refine ⟨mid, chosen, eq_iff_getElem?.mpr fun key => ?_⟩
            rw [getElem?_setattrv, effect]

/-- When `--unset` succeeds, and what it erases. -/
theorem runUnset_eq_ok_iff (idsLeft : IdsLeft media) : options.runUnset order media = .ok after ↔
    ∃ attr, (options.attr = some attr ∧ options.value = none) ∧
      ∃ mid, options.Chooses order media mid ∧ media[(⟨mid, attr⟩ : Key UInt32)]? ≠ none ∧
        ∀ key : Key UInt32, after[key]? = if key = ⟨mid, attr⟩ then none else media[key]? := by
  unfold Options.runUnset
  cases options.attr with
  | none => simp
  | some attr =>
      cases options.value with
      | some value => simp
      | none =>
          simp only [Option.isSome_none, Bool.false_eq_true, if_false, Option.some.injEq, and_true]
          refine (onMedium_eq_ok_iff idsLeft fun mid => delattr media mid attr).trans ?_
          simp only [delattr_eq_ok_iff]
          constructor
          · intro done
            exact ⟨attr, rfl, done⟩
          · rintro ⟨_, rfl, done⟩
            exact done

/-- When `--remove` succeeds, and what it erases. -/
theorem runRemove_eq_ok_iff (idsLeft : IdsLeft media) : options.runRemove order media = .ok after ↔
    (options.attr = none ∧ options.value = none) ∧
      ∃ mid, options.Chooses order media mid ∧ ∀ key : Key UInt32, after[key]? =
        if key.id = mid then none else media[key]? := by
  unfold Options.runRemove
  rw [plain_eq_ok_iff]
  apply and_congr_right
  intro _
  refine (onMedium_eq_ok_iff idsLeft (Offmedia.remove media)).trans ?_
  simp only [remove_eq_ok, Except.ok.injEq]
  apply exists_congr
  intro mid
  apply and_congr_right
  intro _
  rw [eq_comm, eq_iff_getElem?]
  simp only [Db.getElem?_eraseRegister]

/-! ## Listing -/

/-- Whether a medium passes the filters, as far as that can be told. -/
def Options.shown (order : ByteOrder) (options : Options) (media : Db UInt32) (mid : UInt32) :
    Bool :=
  (options.passes order media mid).toOption.getD false

/-- The filters can be applied where the label that they ask for is there. -/
theorem exists_passes_iff : (∃ shown, options.passes order media mid = .ok shown) ↔
    (options.label ≠ none → media[(⟨mid, str "label"⟩ : Key UInt32)]? ≠ none) := by
  unfold Options.passes getattrv
  cases options.label with
  | none => simp
  | some label => cases media[(⟨mid, str "label"⟩ : Key UInt32)]? <;> simp

/-- The media that `--list` shows. -/
theorem shown_iff : options.shown order media mid = true ↔
    (∀ label, options.label = some label →
      media[(⟨mid, str "label"⟩ : Key UInt32)]? = some label) ∧
    ∀ id, options.id = some id → id = order.inMemory mid := by
  have byId : options.id.all (· = order.inMemory mid) = true ↔
      ∀ id, options.id = some id → id = order.inMemory mid := by
    cases options.id with
    | none => simp
    | some id => simp only [Option.all_some, decide_eq_true_eq, Option.some.injEq, forall_eq']
  unfold Options.shown Options.passes getattrv
  cases options.label with
  | none => simpa [Except.toOption] using byId
  | some label =>
      cases media[(⟨mid, str "label"⟩ : Key UInt32)]? with
      | none => simp [Except.toOption]
      | some found => simp [Except.toOption, byId]

/-- The loop comes to its end when all media can be read, and then prints those that pass. -/
theorem showLoop_eq_iff (ids : List UInt32) : options.showLoop order media ids = (out, none) ↔
    (∀ mid ∈ ids, known media mid = true ∧ ∃ shown, options.passes order media mid = .ok shown) ∧
      out = (ids.filter (options.shown order media)).flatMap (options.print order media) := by
  induction ids generalizing out with
  | nil =>
      constructor
      · intro ended
        cases ended
        exact ⟨fun mid member => absurd member List.not_mem_nil, rfl⟩
      · rintro ⟨-, rfl⟩
        rfl
  | cons mid ids ih =>
      rw [Options.showLoop, List.forall_mem_cons]
      cases found : getmedium media mid with
      | error e =>
          have unknown : known media mid ≠ true := by
            rw [ne_eq, known_iff, found]
            rintro ⟨kind, impossible⟩
            cases impossible
          simp [unknown]
      | ok m =>
          have isKnown := known_of_getmedium found
          cases passes : options.passes order media mid with
          | error e => simp
          | ok shown =>
              cases shown with
              | false =>
                  have hidden : ¬options.shown order media mid = true := by
                    simp [Options.shown, passes, Except.toOption]
                  rw [List.filter_cons_of_neg hidden]
                  simpa [isKnown] using ih
              | true =>
                  have isShown : options.shown order media mid = true := by
                    simp [Options.shown, passes, Except.toOption]
                  rw [List.filter_cons_of_pos isShown, List.flatMap_cons]
                  rcases result : options.showLoop order media ids with ⟨rest, stop⟩
                  rw [result] at ih
                  simp only [Prod.mk.injEq, isKnown, Except.ok.injEq, exists_eq', and_self,
                    true_and]
                  constructor
                  · rintro ⟨rfl, rfl⟩
                    obtain ⟨readable, printed⟩ := ih.mp rfl
                    exact ⟨readable, by rw [← printed]⟩
                  · rintro ⟨readable, rfl⟩
                    obtain ⟨printed, ended⟩ := Prod.mk.inj (ih.mpr ⟨readable, rfl⟩)
                    exact ⟨by rw [printed], ended⟩

/-- When `--list` succeeds, and what it prints. -/
theorem runList_eq_iff (idsLeft : IdsLeft media) : options.runList order media = (out, none) ↔
    ((options.label = none → options.attr = none) ∧ options.value = none) ∧
      (∀ key : Key UInt32, media[key]? ≠ none → known media key.id = true ∧
        (options.label ≠ none → media[(⟨key.id, str "label"⟩ : Key UInt32)]? ≠ none)) ∧
      ∃ mids : List UInt32, mids.Pairwise (· < ·) ∧
        (∀ mid, mid ∈ mids ↔ options.Shows order media mid) ∧
        out = mids.flatMap (options.print order media) := by
  obtain ⟨increasing, listed⟩ := getregisters_spec idsLeft
  have members (mid : UInt32) : mid ∈ (getregisters media).filter (options.shown order media) ↔
      options.Shows order media mid := by
    rw [List.mem_filter, listed, shown_iff]
    exact ⟨fun shows => ⟨shows.1, shows.2.1, shows.2.2⟩,
      fun shows => ⟨shows.present, shows.label, shows.id⟩⟩
  have readable : (∀ mid ∈ getregisters media,
      known media mid = true ∧ ∃ shown, options.passes order media mid = .ok shown) ↔
        ∀ key : Key UInt32, media[key]? ≠ none → known media key.id = true ∧
          (options.label ≠ none → media[(⟨key.id, str "label"⟩ : Key UInt32)]? ≠ none) := by
    simp only [listed, exists_passes_iff]
    constructor
    · intro all key present
      exact all key.id ⟨key.name, present⟩
    · rintro all mid ⟨name, present⟩
      exact all ⟨mid, name⟩ present
  have arguments : (options.label.isNone ∧ options.attr.isSome ∨ options.value.isSome) ↔
      ¬((options.label = none → options.attr = none) ∧ options.value = none) := by
    cases options.label <;> cases options.attr <;> cases options.value <;> simp
  unfold Options.runList
  by_cases fine : (options.label = none → options.attr = none) ∧ options.value = none
  · rw [if_neg (by rw [arguments, not_not]; exact fine), showLoop_eq_iff, readable]
    rw [iff_true_intro fine, true_and]
    apply and_congr_right
    intro _
    constructor
    · intro printed
      exact ⟨_, increasing.filter _, members, printed⟩
    · rintro ⟨mids, sorted, shows, printed⟩
      have same : mids = (getregisters media).filter (options.shown order media) :=
        sorted.eq_of_mem_iff (increasing.filter _) fun mid =>
          (shows mid).trans (members mid).symm
      rw [printed, same]
  · rw [if_pos (arguments.mpr fine)]
    simp [fine]

/-! ## Commands and what they ask for -/

/-- What succeeds is what was asked for. -/
theorem asks_of_command (idsLeft : IdsLeft media)
    (done : options.command order media = (out, .ok after)) :
    Asks order options media out after := by
  unfold Options.command at done
  cases isAdd : options.add with
  | some mediumtype =>
      rw [isAdd] at done
      obtain ⟨rfl, ran⟩ := Prod.mk.inj done
      obtain ⟨arguments, kind, label, mid, rfl, labelled, fresh, effect⟩ :=
        (runAdd_eq_ok_iff idsLeft).mp ran
      exact .add kind label mid isAdd arguments labelled fresh effect
  | none =>
      rw [isAdd] at done
      simp only at done
      split at done
      · rename_i isSet
        obtain ⟨rfl, ran⟩ := Prod.mk.inj done
        obtain ⟨attr, value, arguments, mid, chosen, effect⟩ := (runSet_eq_ok_iff idsLeft).mp ran
        exact .set mid attr value ⟨isAdd, isSet⟩ arguments chosen effect
      · rename_i notSet
        split at done
        · rename_i isUnset
          obtain ⟨rfl, ran⟩ := Prod.mk.inj done
          obtain ⟨attr, arguments, mid, chosen, present, effect⟩ :=
            (runUnset_eq_ok_iff idsLeft).mp ran
          exact .unset mid attr ⟨isAdd, Bool.eq_false_iff.mpr notSet, isUnset⟩ arguments chosen
            present effect
        · rename_i notUnset
          split at done
          · rename_i isRemove
            obtain ⟨rfl, ran⟩ := Prod.mk.inj done
            obtain ⟨arguments, mid, chosen, effect⟩ := (runRemove_eq_ok_iff idsLeft).mp ran
            exact .remove mid ⟨isAdd, Bool.eq_false_iff.mpr notSet,
              Bool.eq_false_iff.mpr notUnset, isRemove⟩ arguments chosen effect
          · rename_i notRemove
            split at done
            · rename_i isList
              rcases result : options.runList order media with ⟨printed, stop⟩
              rw [result] at done
              cases stop with
              | some e => cases (Prod.mk.inj done).2
              | none =>
                  obtain ⟨arguments, readable, mids, increasing, shown, rfl⟩ :=
                    (runList_eq_iff idsLeft).mp result
                  cases done
                  exact .list mids ⟨isAdd, Bool.eq_false_iff.mpr notSet,
                    Bool.eq_false_iff.mpr notUnset, Bool.eq_false_iff.mpr notRemove, isList⟩
                    arguments readable increasing shown
            · cases (Prod.mk.inj done).2

/-- What is asked for succeeds. -/
theorem command_of_asks (idsLeft : IdsLeft media) (asks : Asks order options media out after) :
    options.command order media = (out, .ok after) := by
  unfold Options.command
  cases asks with
  | add kind label mid command arguments labelled fresh effect =>
      have done := (runAdd_eq_ok_iff idsLeft).mpr
        ⟨arguments, kind, label, mid, rfl, labelled, fresh, effect⟩
      rw [command]
      exact Prod.ext rfl done
  | set mid attr value command arguments chosen effect =>
      have done := (runSet_eq_ok_iff idsLeft).mpr ⟨attr, value, arguments, mid, chosen, effect⟩
      rw [command.1, done]
      simp [command.2]
  | unset mid attr command arguments chosen present effect =>
      have done := (runUnset_eq_ok_iff idsLeft).mpr
        ⟨attr, arguments, mid, chosen, present, effect⟩
      rw [command.1, done]
      simp [command.2]
  | remove mid command arguments chosen effect =>
      have done := (runRemove_eq_ok_iff idsLeft).mpr ⟨arguments, mid, chosen, effect⟩
      rw [command.1, done]
      simp [command.2]
  | list mids command arguments readable increasing shown =>
      have done := (runList_eq_iff idsLeft).mpr
        ⟨arguments, readable, mids, increasing, shown, rfl⟩
      rw [command.1, done]
      simp [command.2]

theorem what_ne_nil (failure : Failure) :
    (failure.what order).takeWhile (· ≠ 0) ++ [newline] ≠ [] :=
  List.append_ne_nil_of_right_ne_nil _ (List.cons_ne_nil _ _)

/-- Every command does just what its options ask for and prints no message; if that cannot be
done the media are as before and the tool ends with a message. -/
theorem commands_refined (idsLeft : IdsLeft media) :
    (∃ out after, Asks order options media out after ∧
      main order options media = ⟨after, out, [], 0⟩) ∨
      (¬∃ out after, Asks order options media out after) ∧
        ∃ out err, err ≠ [] ∧ main order options media = ⟨media, out, err, 1⟩ := by
  rcases result : options.command order media with ⟨out, done⟩
  cases done with
  | ok after =>
      left
      refine ⟨out, after, asks_of_command idsLeft result, ?_⟩
      rw [main, result]
  | error e =>
      right
      constructor
      · rintro ⟨printed, after, asks⟩
        rw [command_of_asks idsLeft asks] at result
        cases (Prod.mk.inj result).2
      · exact ⟨out, _, what_ne_nil e, by rw [main, result]⟩

/-! ### Two media of one label -/

/-- A directory and a volume with the same label. -/
def twoMedia : Db UInt32 :=
  (main .little { add := some (str "insert"), label := some (str "m") }
    (main .little { add := some (str "directory"), label := some (str "m") } ∅).media).media

/-- The command that gives the second medium a place.  Its id is 1, which a little-endian host
reads as 2 ^ 24. -/
def placing : Options :=
  { set := true, id := some 16777216, attr := some (str "directory"), value := some (str "/b") }

set_option maxRecDepth 100000 in
/-- The second medium gets the place. -/
theorem commands_refined_placing : ∃ out after, Asks .little placing twoMedia out after ∧
    main .little placing twoMedia = ⟨after, out, [], 0⟩ ∧
    after[(⟨1, str "directory"⟩ : Key UInt32)]? = some (str "/b") := by
  have placed : (main .little placing twoMedia).media[(⟨1, str "directory"⟩ : Key UInt32)]? =
      some (str "/b") := by
    decide +kernel
  have idsLeft : IdsLeft twoMedia := idsLeft_of_keys (by decide +kernel)
  have refined : _ ∨ (¬∃ out after, Asks .little placing twoMedia out after) ∧ _ :=
    commands_refined idsLeft
  rcases refined with ⟨out, after, asks, done⟩ | ⟨-, out, err, -, failed⟩
  · rw [done] at placed
    exact ⟨out, after, asks, done, placed⟩
  · have bare : twoMedia[(⟨1, str "directory"⟩ : Key UInt32)]? ≠ some (str "/b") := by
      decide +kernel
    rw [failed] at placed
    exact absurd placed bare

end OfflineFs.Offmedia
