import OfflineFs.Formats.Matching
import OfflineFs.Formats.Numerals
import OfflineFs.Run.Backend
import OfflineFs.Run.Start

/-!
# Numeric attributes of a line

A field `%x16{name}` stores a number under a name, and so do those of the other widths.
Only the field of the narrowest numbers is read as a character.
-/

namespace OfflineFs

open OfflineFs.Effect OfflineFs.Effect.Program

/-! ## The fields of a width -/

namespace FMap

/-- No parameter has two entries. -/
def Distinct (fmap : FMap) : Prop :=
  ∀ member, ((fmap.params member).map Prod.fst).Nodup

theorem nodup_insertParam {entries : List (Bytes × Bytes)} (distinct : (entries.map Prod.fst).Nodup)
    (name value : Bytes) : ((insertParam entries name value).map Prod.fst).Nodup := by
  unfold insertParam
  split
  · exact distinct
  · rename_i new
    simp only [List.any_eq_true, decide_eq_true_eq, not_exists, not_and] at new
    rw [List.map_append, List.nodup_append]
    refine ⟨distinct, List.nodup_singleton _, ?_⟩
    rintro _ earlier _ last rfl
    obtain ⟨entry, member, isName⟩ := List.mem_map.mp earlier
    exact new entry member (isName.trans (List.mem_singleton.mp last))

/-- Storing a field keeps the arguments of a parameter distinct. -/
theorem Distinct.store {fmap : FMap} (distinct : fmap.Distinct) (tok : DTok) (matched : Bytes) :
    (tok.store fmap matched).Distinct := by
  intro member
  obtain ⟨delimiter, ⟨name, val, params⟩, param⟩ := tok
  have inserted : ∀ params, ((fmap.insert param matched params).params member |>.map
      Prod.fst).Nodup := by
    intro params
    rw [params_insert]
    split
    · exact nodup_insertParam (distinct member) _ _
    · exact distinct member
  rcases params with _ | params <;> rcases val with _ | val
  · exact distinct member
  · simpa only [DTok.store, params_assign] using distinct member
  · exact inserted params
  · simpa only [DTok.store, params_assign] using inserted params

theorem Distinct.matchText {format : Format} {fmap m : FMap} {text : Bytes}
    (distinct : fmap.Distinct) (matched : format.matchText fmap text = some m) : m.Distinct := by
  induction format generalizing fmap text with
  | nil =>
      cases matched
      exact distinct
  | cons tok toks ih =>
      rw [Format.matchText_cons] at matched
      split at matched
      · cases matched
      · exact ih (distinct.store tok _) matched

/-- The fields of a line have one entry for each parameter. -/
theorem distinct_of_matchText {format : Format} {m : FMap} {text : Bytes}
    (matched : format.matchText {} text = some m) : m.Distinct :=
  Distinct.matchText (fun member => by cases member <;> exact .nil) matched

end FMap

namespace Offimport

/-- The widths of numeric attributes. -/
inductive Width
  | x8 | x16 | x32 | x64
  deriving DecidableEq

namespace Width

/-- The list that holds the numbers of a width. -/
def member : Width → FMapParams
  | .x8 => .x8
  | .x16 => .x16
  | .x32 => .x32
  | .x64 => .x64

/-- The number of bits of a width. -/
def bits : Width → Nat
  | .x8 => 8
  | .x16 => 16
  | .x32 => 32
  | .x64 => 64

theorem bits_injective : Function.Injective bits := by
  intro first second
  cases first <;> cases second <;> simp [bits]

/-- What is stored for a text. -/
def encode : Width → Bytes → Option Bytes
  | .x8, text => (readChar text).map hostToDb
  | .x16, text => (readUnsigned UInt16 10 text).map hostToDb
  | .x32, text => (readUnsigned UInt32 10 text).map hostToDb
  | .x64, text => (readUnsigned UInt64 10 text).map hostToDb

end Width

/-- `n->getattr<T>(name)`, as a number. -/
def getNumber (T : Type) [HostInt T] (id : UInt64) (name : Bytes) : FsProg Nat := do
  let value ← Register.getattr T .nodes id name
  Pure.pure (HostInt.toNat value)

/-- `n->getattr<uint8_t>(name)`, and so on. -/
def Width.getattr : Width → UInt64 → Bytes → FsProg Nat
  | .x8 => getNumber UInt8
  | .x16 => getNumber UInt16
  | .x32 => getNumber UInt32
  | .x64 => getNumber UInt64

/-- A number is read back from its bytes. -/
theorem getNumber_eq_ok_iff (T : Type) [HostInt T] {id : UInt64} {name : Bytes} {number : Nat}
    {world : World} :
    (exec (getNumber T id name) world).1 = .ok number ↔
      ∃ value, world.dbs.get .nodes id name = some value ∧
        value.length = HostInt.size T ∧ beNat value = number := by
  simp only [getNumber, exec_bind, Register.exec_getattr, Dbs.getattr]
  cases world.dbs.get .nodes id name with
  | none => simp
  | some value =>
      by_cases sized : value.length = HostInt.size T
      · have fits : beNat value < 256 ^ HostInt.size T := sized ▸ beNat_lt value
        simp [dbToHost, sized, HostInt.toNat_ofNat _ fits]
      · simp [dbToHost, sized]

namespace Width

variable {w : Width} {id : UInt64} {name value : Bytes} {number : Nat} {world : World}

/-- Reading a number back from its bytes. -/
theorem getattr_eq_ok_iff : (exec (w.getattr id name) world).1 = .ok number ↔
    ∃ value, world.dbs.get .nodes id name = some value ∧
      8 * value.length = w.bits ∧ beNat value = number := by
  have sized : ∀ (T : Type) [HostInt T], 8 * HostInt.size T = w.bits →
      ((exec (getNumber T id name) world).1 = .ok number ↔
        ∃ value, world.dbs.get .nodes id name = some value ∧
          8 * value.length = w.bits ∧ beNat value = number) := by
    intro T _ size
    rw [getNumber_eq_ok_iff, ← size]
    simp only [Nat.mul_right_inj (by decide : 8 ≠ 0)]
  cases w with
  | x8 => exact sized UInt8 rfl
  | x16 => exact sized UInt16 rfl
  | x32 => exact sized UInt32 rfl
  | x64 => exact sized UInt64 rfl

theorem length_encode {text : Bytes} (stores : w.encode text = some value) :
    8 * value.length = w.bits := by
  cases w with
  | x8 | x16 | x32 | x64 =>
      rw [encode, Option.map_eq_some_iff] at stores
      obtain ⟨read, -, rfl⟩ := stores
      rw [length_hostToDb]
      rfl

/-- A number that does not fit is not read, except as a character. -/
theorem encode_numeral (wide : w ≠ .x8) :
    w.encode (numeral 10 number) =
      if number < 2 ^ w.bits then some (beBytes (w.bits / 8) number) else none := by
  have read : ∀ (T : Type) [HostInt T], 8 * HostInt.size T = w.bits →
      (readUnsigned T 10 (numeral 10 number)).map hostToDb =
        if number < 2 ^ w.bits then some (beBytes (w.bits / 8) number) else none := by
    intro T _ size
    rw [readUnsigned_numeral T (by decide) le_rfl, ← size, Nat.pow_mul,
      Nat.mul_div_cancel_left _ (by decide : 0 < 8)]
    change Option.map hostToDb (if number < 256 ^ HostInt.size T then _ else none) =
      if number < 256 ^ HostInt.size T then _ else none
    split
    · rename_i fits
      rw [Option.map_some, hostToDb, HostInt.toNat_ofNat _ fits]
    · rfl
  cases w with
  | x8 => exact absurd rfl wide
  | x16 => exact read UInt16 rfl
  | x32 => exact read UInt32 rfl
  | x64 => exact read UInt64 rfl

/-- What is stored for a numeral is its number, if it is not read as a character. -/
theorem beNat_encode_iff (stores : w.encode (numeral 10 number) = some value) :
    number < 2 ^ w.bits ∧ beNat value = number ↔ (w = .x8 → number = 53) := by
  by_cases narrow : w = .x8
  · subst narrow
    rw [encode, Option.map_eq_some_iff] at stores
    obtain ⟨byte, read, rfl⟩ := stores
    have code : beNat (hostToDb byte) = byte.toNat := by
      simp [hostToDb, beNat_beBytes, HostInt.toNat, HostInt.size, Nat.mod_eq_of_lt byte.toNat_lt]
    rw [code, imp_iff_right rfl, ← readChar_numeral_eq_iff]
    constructor
    · rintro ⟨-, same⟩
      exact ⟨byte, read, same⟩
    · rintro ⟨other, isRead, same⟩
      rw [read, Option.some.injEq] at isRead
      subst isRead
      exact ⟨same ▸ byte.toNat_lt, same⟩
  · rw [encode_numeral narrow] at stores
    split at stores
    · rename_i fits
      cases stores
      have bytes : 8 * (w.bits / 8) = w.bits := by cases w <;> rfl
      have fits256 : number < 256 ^ (w.bits / 8) := by
        rw [← bytes, Nat.pow_mul] at fits
        exact fits
      rw [beNat_beBytes, Nat.mod_eq_of_lt fits256]
      exact iff_of_true ⟨fits, rfl⟩ fun isNarrow => absurd isNarrow narrow
    · cases stores

end Width

/-! ## The loops -/

variable {n : NodeRef} {world middle after : World} {m : FMap} {name : Bytes}

theorem exec_parse_eq_ok_iff {T : Type} {read : Bytes → Option T} {text : Bytes} {value : T} :
    exec (parse read text) world = (.ok value, after) ↔ read text = some value ∧ world = after := by
  unfold parse
  cases read text with
  | none => simp
  | some other => simp

/-- Each name gets what is read for its text, and the other attributes stay. -/
theorem get_setXattrs {encode : Bytes → Option Bytes} {entries : List (Bytes × Bytes)}
    (distinct : (entries.map Prod.fst).Nodup)
    (sets : exec (setXattrs n encode entries) world = (.ok (), after)) (name : Bytes) :
    match entries.lookup name with
    | some text => ∃ value, encode text = some value ∧ after.dbs.get .nodes n.id name = some value
    | none => after.dbs.get .nodes n.id name = world.dbs.get .nodes n.id name := by
  induction entries generalizing world with
  | nil =>
      cases sets
      rfl
  | cons entry rest ih =>
      obtain ⟨own, text⟩ := entry
      obtain ⟨new, distinct⟩ := List.nodup_cons.mp distinct
      rw [setXattrs, exec_bind, Outcome.andThen_eq_ok_iff] at sets
      obtain ⟨value, parsed, reads, sets⟩ := sets
      obtain ⟨isValue, rfl⟩ := exec_parse_eq_ok_iff.mp reads
      rw [exec_bind, Outcome.andThen_eq_ok_iff] at sets
      obtain ⟨⟨⟩, stored, stores, sets⟩ := sets
      rw [Node.exec_setattrv, Prod.mk.injEq] at stores
      obtain ⟨-, rfl⟩ := stores
      have others := ih distinct sets
      by_cases same : name = own
      · subst same
        have absent : rest.lookup name = none := by
          rw [List.lookup_eq_none_iff]
          intro entry member
          rw [bne_iff_ne]
          rintro rfl
          exact new (List.mem_map.mpr ⟨entry, member, rfl⟩)
        rw [absent] at others
        rw [List.lookup_cons_self]
        refine ⟨value, isValue, others.trans ?_⟩
        rw [World.withDbs_dbs, Dbs.get_put, if_pos ⟨rfl, rfl, rfl⟩]
      · rw [List.lookup_cons, beq_eq_false_iff_ne.mpr same]
        have stays : (world.dbs.put .nodes n.id own value).get .nodes n.id name =
            world.dbs.get .nodes n.id name := by
          rw [Dbs.get_put, if_neg fun named => same named.2.2.symm]
        rw [World.withDbs_dbs, stays] at others
        exact others

/-- One loop for each width, in order. -/
inductive Sets (n : NodeRef) (m : FMap) : List Width → World → World → Prop
  | nil (world : World) : Sets n m [] world world
  | cons {w : Width} {rest : List Width} {world middle after : World}
      (sets : exec (setXattrs n w.encode (m.params w.member)) world = (.ok (), middle))
      (later : Sets n m rest middle after) : Sets n m (w :: rest) world after

namespace Sets

variable {widths : List Width}

/-- No field of these widths has the name. -/
theorem get_absent (distinct : m.Distinct) (sets : Sets n m widths world after)
    (absent : ∀ w ∈ widths, m.field (.param w.member name) = none) :
    after.dbs.get .nodes n.id name = world.dbs.get .nodes n.id name := by
  induction sets with
  | nil => rfl
  | @cons w rest world middle after loop later ih =>
      have own := get_setXattrs (distinct w.member) loop name
      rw [show (m.params w.member).lookup name = none from absent w List.mem_cons_self] at own
      rw [ih fun other member => absent other (List.mem_cons_of_mem _ member), own]

/-- What is left is what the widest field with the name stored. -/
theorem get_last (distinct : m.Distinct) (sets : Sets n m widths world after)
    (ordered : widths.Pairwise fun first second => first.bits < second.bits)
    (present : ∃ w ∈ widths, (m.field (.param w.member name)).isSome) :
    ∃ w ∈ widths,
      (∀ other ∈ widths, w.bits < other.bits → m.field (.param other.member name) = none) ∧
      ∃ text value, m.field (.param w.member name) = some text ∧ w.encode text = some value ∧
        after.dbs.get .nodes n.id name = some value := by
  induction sets with
  | nil =>
      obtain ⟨w, member, -⟩ := present
      cases member
  | @cons w rest world middle after loop later ih =>
      obtain ⟨wider, ordered⟩ := List.pairwise_cons.mp ordered
      by_cases again : ∃ other ∈ rest, (m.field (.param other.member name)).isSome
      · obtain ⟨last, member, isLast, stored⟩ := ih ordered again
        refine ⟨last, List.mem_cons_of_mem _ member, ?_, stored⟩
        intro other among larger
        rcases List.mem_cons.mp among with rfl | among
        · exact absurd larger (Nat.lt_asymm (wider last member))
        · exact isLast other among larger
      · have absent : ∀ other ∈ rest, m.field (.param other.member name) = none := by
          intro other among
          by_contra some
          exact again ⟨other, among, Option.isSome_iff_ne_none.mpr some⟩
        have isSome : (m.field (.param w.member name)).isSome := by
          obtain ⟨other, among, isSome⟩ := present
          rcases List.mem_cons.mp among with rfl | among
          · exact isSome
          · exact absurd ⟨other, among, isSome⟩ again
        obtain ⟨text, isText⟩ := Option.isSome_iff_exists.mp isSome
        have own := get_setXattrs (distinct w.member) loop name
        rw [show (m.params w.member).lookup name = some text from isText] at own
        obtain ⟨value, encoded, stored⟩ := own
        refine ⟨w, List.mem_cons_self, ?_, text, value, isText, encoded, ?_⟩
        · intro other among larger
          rcases List.mem_cons.mp among with rfl | among
          · exact absurd larger (lt_irrefl _)
          · exact absent other among
        · rw [later.get_absent distinct absent, stored]

/-- Where all loops end, every text of theirs is read. -/
theorem encodes (distinct : m.Distinct) (sets : Sets n m widths world after) {w : Width}
    (member : w ∈ widths) {text : Bytes} (isText : m.field (.param w.member name) = some text) :
    ∃ value, w.encode text = some value := by
  induction sets with
  | nil => cases member
  | @cons own rest world middle after loop later ih =>
      rcases List.mem_cons.mp member with rfl | member
      · have stored := get_setXattrs (distinct w.member) loop name
        rw [show (m.params w.member).lookup name = some text from isText] at stored
        exact stored.imp fun value both => both.1
      · exact ih member

end Sets

/-! ## A line -/

section Lines

variable {pcache : PathCache} {s : Settings} {a : Accounts} {creating : Bool} {nodetype : UInt32}

/-- The node that a line finds or creates, whether it is new, and its type; none when the
line is skipped. -/
def target (pcache : PathCache) (s : Settings) (m : FMap) :
    FsProg (Option (NodeRef × Bool × UInt32)) := do
  let nodetype ← resolveType m.type
  if pathOf m = [] then
    .throw .runtime
  else do
    match ← findNode pcache s (pathOf m) with
    | some n => Pure.pure (some (n, false, nodetype))
    | none =>
        if s.allowCreate then do
          let created ← tryCreate pcache s (typeToCreate nodetype) (pathOf m)
          Pure.pure (created.map fun n => (n, true, typeToCreate nodetype))
        else
          .throw .runtime

/-- Importing a line sets the attributes of its node. -/
theorem exec_importFields :
    exec (importFields pcache s a m) world =
      Outcome.andThen (exec (target pcache s m) world) fun found middle =>
        match found with
        | none => (.ok (), middle)
        | some (n, creating, nodetype) =>
            exec (setAttributes s a n creating nodetype m) middle := by
  rw [importFields, target, exec_bind, exec_bind]
  rcases exec (resolveType m.type) world with ⟨nodetype | e | stop, middle⟩
  · simp only [Outcome.andThen_ok]
    split
    · rfl
    · rw [exec_bind, exec_bind]
      rcases exec (findNode pcache s (pathOf m)) middle with ⟨found | e | stop, middle⟩
      · cases found with
        | some n => rfl
        | none =>
            simp only [Outcome.andThen_ok, importNode]
            split
            · rw [exec_bind, exec_bind]
              rcases exec (tryCreate pcache s (typeToCreate nodetype) (pathOf m)) middle with
                ⟨created | e | stop, middle⟩
              · cases created <;> rfl
              · rfl
              · rfl
            · rfl
      · rfl
      · rfl
  · rfl
  · rfl

/-- The loops are the last that happens. -/
theorem sets_of_setAttributes
    (sets : exec (setAttributes s a n creating nodetype m) world = (.ok (), after)) :
    ∃ middle, Sets n m [.x8, .x16, .x32, .x64] middle after := by
  unfold setAttributes at sets
  iterate 9
    rw [exec_bind, Outcome.andThen_eq_ok_iff] at sets
    obtain ⟨_, _, _, sets⟩ := sets
  rw [exec_bind, Outcome.andThen_eq_ok_iff] at sets
  obtain ⟨⟨⟩, narrow, sets8, sets⟩ := sets
  rw [exec_bind, Outcome.andThen_eq_ok_iff] at sets
  obtain ⟨⟨⟩, short, sets16, sets⟩ := sets
  rw [exec_bind, Outcome.andThen_eq_ok_iff] at sets
  obtain ⟨⟨⟩, wide, sets32, sets64⟩ := sets
  exact ⟨_, .cons sets8 (.cons sets16 (.cons sets32 (.cons sets64 (.nil after))))⟩

end Lines

/-! ## The steps end -/

section Finishing

variable {s : Settings} {a : Accounts} {creating : Bool} {nodetype : UInt32}

theorem finishes_parse {T : Type} (read : Bytes → Option T) (text : Bytes) :
    Finishes (parse read text) := by
  unfold parse
  split <;> trivial

theorem finishes_setattr {T : Type} [HostInt T] (attr : Attr) (value : T) :
    Finishes (Node.setattr n.id attr value) :=
  finishes_perform _

theorem finishes_mode : Finishes (Node.getattr UInt32 n.id .mode) := by
  apply finishes_bind (finishes_node_getattrv _ _)
  intro bytes
  cases dbToHost UInt32 bytes <;> trivial

theorem finishes_knownType : Finishes (knownType n nodetype) :=
  finishes_ite (finishes_bind finishes_mode fun _ => trivial) trivial

theorem finishes_setLink (link : Bytes) : Finishes (setLink n nodetype link) := by
  refine finishes_ite (finishes_bind finishes_knownType fun known => ?_) trivial
  exact finishes_ite (finishes_bind (finishes_perform _) fun _ => trivial) trivial

theorem finishes_setGroup : Finishes (setGroup s a n creating m) := by
  refine finishes_ite (finishes_bind (finishes_parse _ _) (finishes_setattr _)) (finishes_ite ?_ ?_)
  · split
    · exact finishes_setattr _ _
    · split
      · trivial
      · exact finishes_setattr _ _
  · exact finishes_ite (finishes_setattr _ _) trivial

theorem finishes_setUser : Finishes (setUser s a n creating m) := by
  refine finishes_ite (finishes_bind (finishes_parse _ _) (finishes_setattr _)) (finishes_ite ?_ ?_)
  · split
    · exact finishes_setattr _ _
    · split <;> trivial
  · exact finishes_ite (finishes_setattr _ _) trivial

theorem finishes_setStamp (attr : Attr) (text : Bytes) :
    Finishes (setStamp n creating attr text) := by
  apply finishes_ite (finishes_bind (finishes_parse _ _) (finishes_setattr _))
  exact finishes_ite (finishes_bind (finishes_perform _) (finishes_setattr _)) trivial

theorem finishes_setPerms (perms : Bytes) : Finishes (setPerms s n creating nodetype perms) := by
  have stores : ∀ mode chosen : UInt32, Finishes (do
      Node.setattr n.id .mode mode
      Pure.pure chosen : FsProg UInt32) :=
    fun mode chosen => finishes_bind (finishes_setattr _ _) fun _ => trivial
  refine finishes_ite (finishes_bind (finishes_parse _ _) fun perms => ?_)
    (finishes_ite (stores _ _) ?_)
  · exact finishes_bind finishes_knownType fun known => stores _ _
  · exact finishes_ite (finishes_bind finishes_mode fun mode => stores _ _) trivial

theorem finishes_setSize (size : Bytes) : Finishes (setSize n nodetype size) := by
  refine finishes_ite (finishes_bind finishes_knownType fun known => ?_) trivial
  exact finishes_ite (finishes_bind (finishes_parse _ _) (finishes_setattr _)) trivial

theorem finishes_setXattrs (encode : Bytes → Option Bytes) (entries : List (Bytes × Bytes)) :
    Finishes (setXattrs n encode entries) := by
  induction entries with
  | nil => trivial
  | cons entry rest ih =>
      apply finishes_bind (finishes_parse _ _)
      intro value
      exact finishes_bind (finishes_perform _) fun _ => ih

/-- Storing the fields of a line has an end. -/
theorem finishes_setAttributes : Finishes (setAttributes s a n creating nodetype m) := by
  apply finishes_bind (finishes_setLink _)
  intro nodetype
  apply finishes_bind finishes_setGroup
  intro _
  apply finishes_bind finishes_setUser
  intro _
  apply finishes_bind (finishes_setStamp _ _)
  intro _
  apply finishes_bind (finishes_setStamp _ _)
  intro _
  apply finishes_bind (finishes_setStamp _ _)
  intro _
  apply finishes_bind (finishes_setPerms _)
  intro nodetype
  apply finishes_bind (finishes_setSize _)
  intro _
  apply finishes_bind (finishes_setXattrs _ _)
  intro _
  apply finishes_bind (finishes_setXattrs _ _)
  intro _
  apply finishes_bind (finishes_setXattrs _ _)
  intro _
  apply finishes_bind (finishes_setXattrs _ _)
  exact fun _ => finishes_setXattrs _ _

end Finishing

/-! ## Numbers of a line -/

section Numbers

variable {pcache : PathCache} {s : Settings} {a : Accounts} {creating : Bool} {nodetype : UInt32}
variable {line : Bytes} {w : Width} {number : Nat}

/-- A line that names a node sets the attributes of that node. -/
theorem exec_importLine (matched : s.format.matchText {} (line ++ [10]) = some m)
    (found : (exec (target pcache s m) world).1 = .ok (some (n, creating, nodetype))) :
    exec (importLine pcache s a line) world =
      exec (setAttributes s a n creating nodetype m) (exec (target pcache s m) world).2 := by
  rw [importLine, matched]
  dsimp only
  rw [exec_importFields]
  rcases result : exec (target pcache s m) world with ⟨outcome, middle⟩
  rw [result] at found
  dsimp only at found
  rw [found]
  rfl

theorem mem_widths (w : Width) : w ∈ [Width.x8, .x16, .x32, .x64] := by
  cases w <;> decide

/-- A numeral in a line that is imported is read back as its number exactly when it is not
read as a character, 53 being the code of the digit it begins with, and no wider field has its
name.  One that does not fit is an error, except for a character. -/
theorem number_imported_iff (matched : s.format.matchText {} (line ++ [10]) = some m)
    (field : m.field (.param w.member name) = some (numeral 10 number))
    (found : (exec (target pcache s m) world).1 = .ok (some (n, creating, nodetype))) :
    ((exec (importLine pcache s a line) world).1 = .ok () →
      (number < 2 ^ w.bits ∧ (exec (w.getattr n.id name)
          (exec (importLine pcache s a line) world).2).1 = .ok number ↔
        (w = .x8 → number = 53) ∧
          ∀ other : Width, w.bits < other.bits → m.field (.param other.member name) = none)) ∧
    (w ≠ .x8 → 2 ^ w.bits ≤ number →
      ∃ e, (exec (importLine pcache s a line) world).1 = .error e) := by
  have distinct := FMap.distinct_of_matchText matched
  have widths := exec_importLine (a := a) matched found
  rcases result : exec (importLine pcache s a line) world with ⟨outcome, after⟩
  rw [result] at widths
  constructor
  · rintro ⟨⟩
    obtain ⟨middle, sets⟩ := sets_of_setAttributes widths.symm
    obtain ⟨last, -, isLast, text, value, isText, encoded, stored⟩ :=
      sets.get_last distinct (by decide) ⟨w, mem_widths w, by rw [field]; rfl⟩
    have wider : ∀ other : Width, last.bits < other.bits →
        m.field (.param other.member name) = none :=
      fun other => isLast other (mem_widths other)
    have sized := Width.length_encode encoded
    rw [Width.getattr_eq_ok_iff]
    constructor
    · rintro ⟨fits, value', stored', size', isNumber⟩
      rw [stored, Option.some.injEq] at stored'
      subst stored'
      have same : last = w := Width.bits_injective (sized.symm.trans size')
      subst same
      rw [field, Option.some.injEq] at isText
      subst isText
      exact ⟨(Width.beNat_encode_iff encoded).mp ⟨fits, isNumber⟩, wider⟩
    · rintro ⟨readable, alone⟩
      have same : last = w := by
        have notBelow : ¬ last.bits < w.bits := by
          intro below
          rw [wider w below] at field
          cases field
        have notAbove : ¬ w.bits < last.bits := by
          intro above
          rw [alone last above] at isText
          cases isText
        exact Width.bits_injective (by omega)
      subst same
      rw [field, Option.some.injEq] at isText
      subst isText
      obtain ⟨fits, isNumber⟩ := (Width.beNat_encode_iff encoded).mpr readable
      exact ⟨fits, value, stored, sized, isNumber⟩
  · intro wide large
    cases outcome with
    | ok =>
        obtain ⟨middle, sets⟩ := sets_of_setAttributes widths.symm
        obtain ⟨value, encoded⟩ := sets.encodes distinct (mem_widths w) field
        rw [Width.encode_numeral wide, if_neg (Nat.not_lt.mpr large)] at encoded
        cases encoded
    | error e => exact ⟨e, rfl⟩
    | fault stop =>
        have finishes : Finishes (setAttributes s a n creating nodetype m) := finishes_setAttributes
        exact absurd (congrArg Prod.fst widths).symm (finishes.run fsHandler _ stop)

/-- `offimport -c -f format`, run by the superuser. -/
def creatingWith (format : Bytes) : Settings where
  format := (fpar.parse (format ++ [10])).getD []
  pathPrefix := [slash]
  allowModify := false
  allowCreate := true
  medium := none
  getuid := 0
  getgid := 0
  umask := 0o22

/-- No account has a name. -/
def nameless : Accounts where
  getgrnam _ := none
  getpwnam _ := none

set_option maxRecDepth 100000 in
/-- A number that fits in 16 bits is imported. -/
theorem number_imported_short :
    300 < 2 ^ Width.x16.bits ∧
      (exec (Width.x16.getattr 1 (str "n")) (exec (importLine PathCache_hash
      (creatingWith (str "%p %x16\x7bn\x7d")) nameless (str "f 300")) mountedWorld).2).1 =
        .ok 300 := by
  have matched : (creatingWith (str "%p %x16\x7bn\x7d")).format.matchText {} (str "f 300" ++ [10]) =
      some { path := str "f", x16 := [(str "n", str "300")] } := by decide +kernel
  have found : (exec (target PathCache_hash (creatingWith (str "%p %x16\x7bn\x7d"))
      { path := str "f", x16 := [(str "n", str "300")] }) mountedWorld).1 =
        .ok (some (⟨1, .file⟩, true, sIfreg)) := by decide +kernel
  have isNumeral : FMap.field { path := str "f", x16 := [(str "n", str "300")] }
      (.param Width.x16.member (str "n")) = some (numeral 10 300) := by decide
  apply ((number_imported_iff (a := nameless) matched isNumeral found).1 (by decide +kernel)).mpr
  constructor
  · exact nofun
  · intro other wider
    cases other with
    | x16 => exact absurd wider (lt_irrefl 16)
    | x8 | x32 | x64 => rfl

set_option maxRecDepth 100000 in
/-- A seven is stored as its character. -/
theorem number_imported_character :
    (creatingWith (str "%p %x8\x7bn\x7d")).format.matchText {} (str "f 7" ++ [10]) =
        some { path := str "f", x8 := [(str "n", numeral 10 7)] } ∧
      (exec (importLine PathCache_hash (creatingWith (str "%p %x8\x7bn\x7d")) nameless
        (str "f 7")) mountedWorld).1 = .ok () ∧
      (exec (Width.x8.getattr 1 (str "n")) (exec (importLine PathCache_hash
        (creatingWith (str "%p %x8\x7bn\x7d")) nameless (str "f 7")) mountedWorld).2).1 =
          .ok 55 := by
  decide +kernel

end Numbers

end Offimport

end OfflineFs
