import OfflineFs.Formats.Parsing

/-!
# Matching a line

`Format::match` takes a line apart at the delimiters of the format, leftmost
occurrences first, and stores what is between them in the fields of the format.
-/

namespace OfflineFs

open OfflineFs.Text

/-! ## Fields -/

/-- A member of `FMap` that holds one text, or the entry of a parameter in one that holds
many. -/
inductive Field
  | val (member : FMapVal)
  | param (member : FMapParams) (name : Bytes)
  deriving DecidableEq

namespace FMap

/-- The field of a parameter without an argument. -/
def val (fmap : FMap) : FMapVal → Bytes
  | .user => fmap.user
  | .numuser => fmap.numuser
  | .group => fmap.group
  | .numgroup => fmap.numgroup
  | .link => fmap.link
  | .perms => fmap.perms
  | .path => fmap.path
  | .path2 => fmap.path2
  | .type => fmap.type
  | .atime => fmap.atime
  | .ctime => fmap.ctime
  | .mtime => fmap.mtime
  | .size => fmap.size

/-- The list of a parameter with an argument. -/
def params (fmap : FMap) : FMapParams → List (Bytes × Bytes)
  | .z => fmap.z
  | .x8 => fmap.x8
  | .x16 => fmap.x16
  | .x32 => fmap.x32
  | .x64 => fmap.x64

/-- The text stored in a field. -/
def field (fmap : FMap) : Field → Option Bytes
  | .val member => some (fmap.val member)
  | .param member name => (fmap.params member).lookup name

variable (fmap : FMap) (name value : Bytes)

theorem val_assign (member other : FMapVal) :
    (fmap.assign value member).val other = if member = other then value else fmap.val other := by
  cases member <;> cases other <;> rfl

theorem params_assign (member : FMapVal) (other : FMapParams) :
    (fmap.assign value member).params other = fmap.params other := by
  cases member <;> cases other <;> rfl

theorem val_insert (member : FMapParams) (other : FMapVal) :
    (fmap.insert name value member).val other = fmap.val other := by
  cases member <;> cases other <;> rfl

theorem params_insert (member other : FMapParams) :
    (fmap.insert name value member).params other =
      if member = other then insertParam (fmap.params other) name value
      else fmap.params other := by
  cases member <;> cases other <;> rfl

/-- The first value of a parameter is kept. -/
theorem lookup_insertParam (entries : List (Bytes × Bytes)) (other : Bytes) :
    (insertParam entries name value).lookup other =
      if name = other then some ((entries.lookup name).getD value) else entries.lookup other := by
  have known : (entries.any fun entry => entry.1 = name) = (entries.lookup name).isSome := by
    induction entries with
    | nil => rfl
    | cons entry entries ih =>
        by_cases same : name = entry.1
        · simp [same]
        · have apart : (name == entry.1) = false := beq_eq_false_iff_ne.mpr same
          rw [List.lookup_cons, apart, ← ih]
          simp [Ne.symm same]
  rw [insertParam, known]
  cases stored : entries.lookup name with
  | some kept =>
      by_cases same : name = other
      · simp [← same, stored]
      · simp [same]
  | none =>
      by_cases same : name = other
      · subst same
        simp [List.lookup_append, stored]
      · have apart : (other == name) = false := beq_eq_false_iff_ne.mpr (Ne.symm same)
        simp [List.lookup_append, List.lookup_cons, same, apart]

end FMap

/-- The field that a token fills, when it fills exactly one. -/
def DTok.field (tok : DTok) : Option Field :=
  match tok.fspec.fmapparams, tok.fspec.fmapval with
  | some params, none => some (.param params tok.param)
  | none, some val => some (.val val)
  | _, _ => none

/-- The part of the loop of `match` that stores what was matched. -/
def DTok.store (tok : DTok) (fmap : FMap) (matched : Bytes) : FMap :=
  let inserted := match tok.fspec.fmapparams with
    | some params => fmap.insert tok.param matched params
    | none => fmap
  match tok.fspec.fmapval with
  | some val => inserted.assign matched val
  | none => inserted

/-- What a field holds when a text was stored in it: the first entry of a parameter
stays. -/
def Field.filled (fmap : FMap) (matched : Bytes) : Field → Bytes
  | .val _ => matched
  | .param member name => ((fmap.params member).lookup name).getD matched

/-- Storing in a field changes no other. -/
theorem DTok.field_store {tok : DTok} {target : Field} (fills : tok.field = some target)
    (fmap : FMap) (matched : Bytes) (other : Field) :
    (tok.store fmap matched).field other =
      if target = other then some (target.filled fmap matched) else fmap.field other := by
  obtain ⟨delimiter, ⟨name, val, params⟩, param⟩ := tok
  rcases params with _ | params <;> rcases val with _ | val
  · cases fills
  · cases fills
    cases other with
    | val member =>
        by_cases same : val = member
        · simp [DTok.store, FMap.field, FMap.val_assign, Field.filled, same]
        · simp [DTok.store, FMap.field, FMap.val_assign, same]
    | param member name => simp [DTok.store, FMap.field, FMap.params_assign]
  · cases fills
    cases other with
    | val member => simp [DTok.store, FMap.field, FMap.val_insert]
    | param member name =>
        simp only [DTok.store, FMap.field, FMap.params_insert, Field.param.injEq]
        by_cases same : params = member
        · subst same
          simp [FMap.lookup_insertParam, Field.filled]
        · simp [same]
  · cases fills

/-! ## The search -/

/-- The search finds the first occurrence, or there is none. -/
theorem findDelimiter_spec (delimiter text : Bytes) :
    match findDelimiter delimiter text with
    | some (piece, rest) => First delimiter text piece rest
    | none => ∀ piece rest, text ≠ piece ++ delimiter ++ rest := by
  induction text with
  | nil =>
      rw [findDelimiter]
      split
      · rename_i found
        split at found
        · rename_i empty
          cases found
          subst empty
          exact .of_startsWith List.prefix_rfl
        · cases found
      · rename_i missing
        split at missing
        · cases missing
        · rename_i nonempty
          intro piece rest whole
          have parts := List.append_eq_nil_iff.mp whole.symm
          exact nonempty (List.append_eq_nil_iff.mp parts.1).2
  | cons byte text ih =>
      by_cases front : delimiter <+: byte :: text
      · rw [findDelimiter, if_pos ( List.isPrefixOf_iff_prefix.mpr front)]
        exact .of_startsWith front
      · rw [findDelimiter, if_neg (fun fits => front ( List.isPrefixOf_iff_prefix.mp fits))]
        rcases found : findDelimiter delimiter text with _ | ⟨piece, rest⟩
        · simp only [found] at ih
          rintro (_ | ⟨head, piece⟩) rest whole
          · exact front ⟨rest, whole.symm⟩
          · exact ih piece rest (List.cons.inj whole).2
        · simp only [found] at ih
          exact .cons front ih

theorem first_of_findDelimiter {delimiter text piece rest : Bytes}
    (found : findDelimiter delimiter text = some (piece, rest)) :
    First delimiter text piece rest := by
  simpa [found] using findDelimiter_spec delimiter text

theorem absent_of_findDelimiter {delimiter text : Bytes}
    (missing : findDelimiter delimiter text = none) (piece rest : Bytes) :
    text ≠ piece ++ delimiter ++ rest := by
  have spec := findDelimiter_spec delimiter text
  rw [missing] at spec
  exact spec piece rest

/-! ## The loop -/

namespace Format

/-- The texts between the fields of a format. -/
def delimiters (format : Format) : List Bytes :=
  format.map DTok.delimiter

/-- The fields that a format fills, in order. -/
def fields (format : Format) : List Field :=
  format.filterMap DTok.field

/-- What the loop of `match` has stored when it ends. -/
def storeAll : Format → List Bytes → FMap → FMap
  | tok :: toks, piece :: pieces, fmap => storeAll toks pieces (tok.store fmap piece)
  | _, _, fmap => fmap

variable {format : Format} {fmap m : FMap} {text : Bytes}

theorem matchText_cons (tok : DTok) (toks : Format) (fmap : FMap) (text : Bytes) :
    Format.matchText (tok :: toks) fmap text =
      match findDelimiter tok.delimiter text with
      | none => none
      | some (matched, rest) => Format.matchText toks (tok.store fmap matched) rest :=
  rfl

/-- The loop cuts the text at the first occurrences, and stores the pieces. -/
theorem matchText_eq_some_iff :
    format.matchText fmap text = some m ↔
      ∃ pieces rest, Leftmost format.delimiters text pieces rest ∧
        m = format.storeAll pieces fmap := by
  induction format generalizing fmap text with
  | nil =>
      constructor
      · intro matched
        cases matched
        exact ⟨[], text, .nil text, rfl⟩
      · rintro ⟨pieces, rest, leftmost, rfl⟩
        rfl
  | cons tok toks ih =>
      rw [matchText_cons]
      constructor
      · intro matched
        split at matched
        · cases matched
        · rename_i piece after found
          obtain ⟨pieces, rest, leftmost, rfl⟩ := ih.mp matched
          exact ⟨piece :: pieces, rest, .cons (first_of_findDelimiter found) leftmost, rfl⟩
      · rintro ⟨_, rest, leftmost, rfl⟩
        cases leftmost with
        | @cons _ _ piece after _ pieces _ first leftmost =>
            split
            · rename_i missing
              exact absurd first.whole (absent_of_findDelimiter missing piece after)
            · rename_i piece' after' found
              obtain ⟨rfl, rfl⟩ := first.unique (first_of_findDelimiter found)
              exact ih.mpr ⟨pieces, rest, leftmost, rfl⟩

/-- Matching fails only on a text that cannot be split at the delimiters. -/
theorem matchText_eq_none_iff :
    format.matchText fmap text = none ↔
      ¬ ∃ pieces rest, Splits format.delimiters text pieces rest := by
  constructor
  · rintro failed ⟨pieces, rest, splits⟩
    have search : ∀ delimiter text : Bytes, (∃ piece rest, First delimiter text piece rest) ∨
        ∀ piece rest, text ≠ piece ++ delimiter ++ rest := by
      intro delimiter text
      rcases found : findDelimiter delimiter text with _ | ⟨piece, rest⟩
      · exact .inr (absent_of_findDelimiter found)
      · exact .inl ⟨piece, rest, first_of_findDelimiter found⟩
    obtain ⟨pieces, rest, leftmost⟩ := splits.leftmost search
    have matched : format.matchText fmap text = some (format.storeAll pieces fmap) :=
      matchText_eq_some_iff.mpr ⟨pieces, rest, leftmost, rfl⟩
    rw [failed] at matched
    cases matched
  · intro unsplit
    cases matched : format.matchText fmap text with
    | none => rfl
    | some m =>
        obtain ⟨pieces, rest, leftmost, _⟩ := matchText_eq_some_iff.mp matched
        exact absurd ⟨pieces, rest, leftmost.splits⟩ unsplit

end Format

/-! ## What is stored -/

/-- No parameter among the fields has an entry yet. -/
def FMap.Vacant (fmap : FMap) (fields : List Field) : Prop :=
  ∀ member name, .param member name ∈ fields → fmap.field (.param member name) = none

theorem FMap.vacant_empty (fields : List Field) : ({} : FMap).Vacant fields := by
  intro member name _
  cases member <;> rfl

namespace Format

/-- Each field has the piece that was matched for it, and the others have what they had. -/
theorem field_storeAll {toks : Format} {targets : List Field} {pieces : List Bytes} {fmap : FMap}
    (fills : toks.map DTok.field = targets.map some) (distinct : targets.Nodup)
    (lengths : pieces.length = toks.length) (vacant : fmap.Vacant targets) :
    targets.map (storeAll toks pieces fmap).field = pieces.map some ∧
      ∀ other ∉ targets, (storeAll toks pieces fmap).field other = fmap.field other := by
  induction toks generalizing targets pieces fmap with
  | nil =>
      obtain rfl := List.length_eq_zero_iff.mp lengths
      obtain rfl : targets = [] := by simpa using fills.symm
      exact ⟨rfl, fun _ _ => rfl⟩
  | cons tok toks ih =>
      rcases targets with _ | ⟨target, targets⟩
      · cases fills
      rcases pieces with _ | ⟨piece, pieces⟩
      · cases lengths
      obtain ⟨fill, fills⟩ := List.cons.inj fills
      obtain ⟨apart, distinct⟩ := List.nodup_cons.mp distinct
      have stored := DTok.field_store fill fmap piece
      have kept : ∀ other, target ≠ other → (tok.store fmap piece).field other = fmap.field other :=
        fun other differs => (stored other).trans (if_neg differs)
      have vacantAfter : (tok.store fmap piece).Vacant targets := by
        intro member name isTarget
        rw [kept _ fun same => apart (same ▸ isTarget)]
        exact vacant member name (List.mem_cons_of_mem _ isTarget)
      obtain ⟨values, others⟩ := ih fills distinct (Nat.succ.inj lengths) vacantAfter
      constructor
      · have own : (tok.store fmap piece).field target = some piece := by
          rw [stored, if_pos rfl]
          cases target with
          | val member => rfl
          | param member name =>
              have missing : (fmap.params member).lookup name = none :=
                vacant member name List.mem_cons_self
              rw [Field.filled, missing, Option.getD_none]
        rw [List.map_cons, List.map_cons, storeAll, others target apart, own, values]
      · intro other outside
        obtain ⟨differs, outside⟩ := not_or.mp (mt List.mem_cons.mpr outside)
        rw [storeAll, others other outside, kept other (Ne.symm differs)]

end Format

/-- A token that was made with one of the two constructors that take a name. -/
def FSpec.Single (fspec : FSpec) : Prop :=
  fspec.fmapval.isSome ≠ fspec.fmapparams.isSome

instance (fspec : FSpec) : Decidable fspec.Single :=
  inferInstanceAs (Decidable (_ ≠ _))

theorem FSpec.Single.fills {tok : DTok} (single : tok.fspec.Single) : tok.field.isSome := by
  obtain ⟨delimiter, ⟨name, val, params⟩, param⟩ := tok
  rcases params with _ | params <;> rcases val with _ | val
  · exact absurd rfl single
  · rfl
  · rfl
  · exact absurd rfl single

namespace Format

variable {parser : FParser} {formatstr : Bytes} {format : Format}

/-- A parsed format starts with a delimiter alone, and each later token fills a field. -/
theorem parsed_fields (single : ∀ fspec ∈ parser.toks, fspec.Single)
    (parsed : parser.parse formatstr = some format) :
    ∃ first toks, format = first :: toks ∧ first.fspec = {} ∧
      toks.map DTok.field = format.fields.map some := by
  obtain ⟨delimiter, toks, rfl, known⟩ := (FParser.reads_parse parsed).head
  refine ⟨_, toks, rfl, rfl, ?_⟩
  have filled : ∀ tok ∈ toks, ∃ target, tok.field = some target := fun tok member =>
    Option.isSome_iff_exists.mp (single tok.fspec (known tok member)).fills
  change toks.map DTok.field = (toks.filterMap DTok.field).map some
  clear parsed known
  induction toks with
  | nil => rfl
  | cons tok toks ih =>
      obtain ⟨⟨target, fill⟩, filled⟩ := List.forall_mem_cons.mp filled
      rw [List.map_cons, List.filterMap_cons_some fill, List.map_cons, fill, ih filled]

/-- Matching fails on the texts that cannot be split at the delimiters, stores the
pieces of the leftmost split, and gives back the values of a text made of them. -/
theorem matchText_leftmost (parser : FParser) (single : ∀ fspec ∈ parser.toks, fspec.Single)
    (formatstr : Bytes) (format : Format) (parsed : parser.parse formatstr = some format)
    (distinct : format.fields.Nodup) (fmap : FMap) (vacant : fmap.Vacant format.fields) :
    (∀ text, format.matchText fmap text = none ↔
        ¬ ∃ pieces rest, Splits format.delimiters text pieces rest) ∧
      (∀ text m, format.matchText fmap text = some m →
        ∃ before values rest, Leftmost format.delimiters text (before :: values) rest ∧
          format.fields.map m.field = values.map some ∧
          ∀ other ∉ format.fields, m.field other = fmap.field other) ∧
      ∀ values, List.Forall₂ (fun value delimiter => First delimiter (value ++ delimiter) value [])
          values format.delimiters.tail →
        ∃ m, format.matchText fmap (interleave ([] :: values) format.delimiters) = some m ∧
          format.fields.map m.field = values.map some := by
  obtain ⟨first, toks, shape, bare, fills⟩ := parsed_fields single parsed
  have stores : ∀ before values, values.length = toks.length →
      format.fields.map (format.storeAll (before :: values) fmap).field = values.map some ∧
        ∀ other ∉ format.fields,
          (format.storeAll (before :: values) fmap).field other = fmap.field other := by
    intro before values lengths
    have begun : first.store fmap before = fmap := by rw [DTok.store, bare]
    rw [shape, storeAll, begun]
    rw [shape] at fills distinct vacant
    exact field_storeAll fills distinct lengths vacant
  constructor
  · exact fun text => matchText_eq_none_iff
  constructor
  · intro text m matched
    obtain ⟨pieces, rest, leftmost, rfl⟩ := matchText_eq_some_iff.mp matched
    have lengths := leftmost.splits.1
    rcases pieces with _ | ⟨before, values⟩
    · simp [delimiters, shape] at lengths
    · have count : values.length = toks.length := by
        simpa [delimiters, shape] using lengths
      exact ⟨before, values, rest, leftmost, stores before values count⟩
  · intro values firsts
    have count : values.length = toks.length := by
      simpa [delimiters, shape] using firsts.length_eq
    have start : First first.delimiter ([] ++ first.delimiter) [] [] := by
      simpa using First.of_startsWith (List.prefix_refl first.delimiter)
    have all : List.Forall₂
        (fun value delimiter => First delimiter (value ++ delimiter) value [])
        ([] :: values) format.delimiters := by
      rw [shape] at firsts ⊢
      exact .cons start firsts
    refine ⟨format.storeAll ([] :: values) fmap, ?_, (stores [] values count).1⟩
    have leftmost := Leftmost.interleave all []
    rw [List.append_nil] at leftmost
    exact matchText_eq_some_iff.mpr ⟨_, _, leftmost, rfl⟩

theorem single_fpar : ∀ fspec ∈ Offimport.fpar.toks, fspec.Single := by
  decide +kernel

/-- A line with a path and an extended attribute. -/
def pathAndAttribute : Format :=
  [{}, { delimiter := str " ", fspec := { tok := str "p", fmapval := some .path } },
    { delimiter := str "\n", fspec := { tok := str "x8", fmapparams := some .x8 },
      param := str "a" }]

/-- The format of a path and an attribute, on any text. -/
theorem matchText_leftmost_fpar :
    (∀ text, pathAndAttribute.matchText {} text = none ↔
        ¬ ∃ pieces rest, Splits pathAndAttribute.delimiters text pieces rest) ∧
      (∀ text m, pathAndAttribute.matchText {} text = some m →
        ∃ before values rest,
          Leftmost pathAndAttribute.delimiters text (before :: values) rest ∧
          pathAndAttribute.fields.map m.field = values.map some ∧
          ∀ other ∉ pathAndAttribute.fields, m.field other = ({} : FMap).field other) ∧
      ∀ values, List.Forall₂ (fun value delimiter => First delimiter (value ++ delimiter) value [])
          values pathAndAttribute.delimiters.tail →
        ∃ m, pathAndAttribute.matchText {} (interleave ([] :: values) pathAndAttribute.delimiters) =
            some m ∧
          pathAndAttribute.fields.map m.field = values.map some :=
  matchText_leftmost Offimport.fpar single_fpar (str "%p %x8{a}\n") pathAndAttribute
    (by decide +kernel) (by decide +kernel) {} (FMap.vacant_empty _)

end Format

end OfflineFs
