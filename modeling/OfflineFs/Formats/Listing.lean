import OfflineFs.Database.Bytes
import OfflineFs.Model.Offmedia
import OfflineFs.Run.Start
import OfflineFs.Text.Leftmost

/-!
# Telling media apart by their listing

The values of attributes are escaped in a listing, their names are not.  As long as no name has
a newline in it the lines can be told apart, and each line gives its name and its value back.
With a newline in it a name can look like the end of a line and the begin of another.
-/

namespace OfflineFs

open Std

/-! ## Pieces with an end -/

namespace Text

variable {α : Type*} [DecidableEq α] {stop : α} {piece other rest left : List α}

theorem append_stop_inj (absent : stop ∉ piece) (otherAbsent : stop ∉ other)
    (same : piece ++ stop :: rest = other ++ stop :: left) : piece = other ∧ rest = left := by
  have pieces := congrArg (List.takeWhile (· ≠ stop)) same
  rw [takeWhile_stop absent, takeWhile_stop otherAbsent] at pieces
  subst pieces
  exact ⟨rfl, (List.cons.inj (List.append_cancel_left same)).2⟩

/-- Pieces that all end in a stop, and have none before, can be told apart. -/
theorem flatMap_stop_inj {pieces others : List (List α)} (absent : ∀ piece ∈ pieces, stop ∉ piece)
    (otherAbsent : ∀ piece ∈ others, stop ∉ piece)
    (same : (pieces.flatMap fun piece => piece ++ [stop]) =
      others.flatMap fun piece => piece ++ [stop]) : pieces = others := by
  induction pieces generalizing others with
  | nil =>
      cases others with
      | nil => rfl
      | cons other others => simp at same
  | cons piece pieces ih =>
      cases others with
      | nil => simp at same
      | cons other others =>
          simp only [List.flatMap_cons, List.append_assoc, List.singleton_append] at same
          obtain ⟨rfl, rests⟩ := append_stop_inj (absent piece List.mem_cons_self)
            (otherAbsent other List.mem_cons_self) same
          rw [ih (fun piece member => absent piece (List.mem_cons_of_mem _ member))
            (fun piece member => otherAbsent piece (List.mem_cons_of_mem _ member)) rests]

end Text

namespace Offmedia

/-! ## Escaping -/

/-- A quote that no backslash escapes, read from the left. -/
def bareQuote : Bytes → Bool
  | [] => false
  | [byte] => byte = quote
  | byte :: next :: rest =>
      if byte = backslash then bareQuote rest else byte = quote || bareQuote (next :: rest)

/-- Take the escape sequences back. -/
def unescape : Bytes → Bytes
  | [] => []
  | [byte] => [byte]
  | byte :: next :: rest =>
      if byte = backslash then (if next = 110 then newline else next) :: unescape rest
      else byte :: unescape (next :: rest)

variable {value other : Bytes}

@[simp]
theorem escape_cons (byte : UInt8) (value : Bytes) :
    escape (byte :: value) = escapeByte byte ++ escape value :=
  rfl

/-- What a byte is replaced by. -/
theorem escapeByte_cases (byte : UInt8) :
    (escapeByte byte = [byte] ∧ byte ≠ backslash ∧ byte ≠ quote ∧ byte ≠ newline) ∨
      ∃ next, escapeByte byte = [backslash, next] ∧ next ≠ newline ∧
        (if next = 110 then newline else next) = byte := by
  unfold escapeByte
  split
  · rename_i isBackslash
    exact .inr ⟨backslash, rfl, by decide, isBackslash.symm ▸ rfl⟩
  · split
    · rename_i isQuote
      exact .inr ⟨quote, rfl, by decide, isQuote.symm ▸ rfl⟩
    · split
      · rename_i isNewline
        exact .inr ⟨110, rfl, by decide, isNewline.symm ▸ rfl⟩
      · rename_i noBackslash noQuote noNewline
        exact .inl ⟨rfl, noBackslash, noQuote, noNewline⟩

theorem newline_notMem_escape (value : Bytes) : newline ∉ escape value := by
  induction value with
  | nil => exact List.not_mem_nil
  | cons byte value ih =>
      rw [escape_cons, List.mem_append, not_or]
      refine ⟨?_, ih⟩
      rcases escapeByte_cases byte with ⟨same, -, -, noNewline⟩ | ⟨next, same, noNewline, -⟩
      · rw [same, List.mem_singleton]
        exact Ne.symm noNewline
      · rw [same, List.mem_cons, List.mem_singleton, not_or]
        exact ⟨by decide, Ne.symm noNewline⟩

/-- Escaping can be undone. -/
theorem unescape_escape (value : Bytes) : unescape (escape value) = value := by
  induction value with
  | nil => rfl
  | cons byte value ih =>
      rw [escape_cons]
      rcases escapeByte_cases byte with ⟨same, noBackslash, -, -⟩ | ⟨next, same, -, back⟩
      · rw [same, List.singleton_append]
        cases left : escape value with
        | nil =>
            rw [left] at ih
            rw [← ih]
            rfl
        | cons first rest =>
            rw [unescape, if_neg noBackslash, ← left, ih]
      · rw [same, List.cons_append, List.singleton_append, unescape, if_pos rfl, ih, back]

theorem escape_injective : Function.Injective escape :=
  Function.LeftInverse.injective unescape_escape

theorem bareQuote_escape (value : Bytes) : bareQuote (escape value) = false := by
  induction value with
  | nil => rfl
  | cons byte value ih =>
      rw [escape_cons]
      rcases escapeByte_cases byte with ⟨same, noBackslash, noQuote, -⟩ | ⟨next, same, -, -⟩
      · rw [same, List.singleton_append]
        cases left : escape value with
        | nil => simp [bareQuote, noQuote]
        | cons first rest => rw [bareQuote, if_neg noBackslash, ← left, ih]; simp [noQuote]
      · rw [same, List.cons_append, List.singleton_append, bareQuote, if_pos rfl, ih]

/-- A quote in an escaped value comes after a backslash. -/
theorem getLast?_of_quote {front rest : Bytes} (split : escape value = front ++ quote :: rest) :
    front.getLast? = some backslash := by
  induction value generalizing front with
  | nil => simp [escape] at split
  | cons byte value ih =>
      rw [escape_cons] at split
      rcases escapeByte_cases byte with ⟨same, -, noQuote, -⟩ | ⟨next, same, -, -⟩
      · rw [same, List.singleton_append] at split
        cases front with
        | nil => exact absurd (List.cons.inj split).1 noQuote
        | cons first front =>
            have last := ih (List.cons.inj split).2
            rw [List.getLast?_cons, last]
            rfl
      · rw [same, List.cons_append, List.singleton_append] at split
        cases front with
        | nil => exact absurd (List.cons.inj split).1 (by decide)
        | cons first front =>
            obtain ⟨rfl, split⟩ := List.cons.inj split
            cases front with
            | nil => rfl
            | cons second front =>
                have last := ih (List.cons.inj (List.cons.inj split).2).2
                rw [List.getLast?_cons, List.getLast?_cons, last]
                rfl

/-! ## Lines -/

/-- Two prefixes that end alike before escaped values: the quote that opens the longer one of
the values is not in the other. -/
theorem append_escape_inj {front back : Bytes}
    (same : (front ++ [32, quote]) ++ escape value = (back ++ [32, quote]) ++ escape other) :
    front = back ∧ value = other := by
  have longer : ∀ {front back value other : Bytes} (rest : Bytes),
      back ++ [32, quote] = (front ++ [32, quote]) ++ rest → escape value = rest ++ escape other →
      rest = [] := by
    intro front back value other rest shifted split
    rcases List.eq_nil_or_concat' rest with rfl | ⟨start, last, rfl⟩
    · rfl
    · have regrouped : (back ++ [32]) ++ [quote] = (front ++ [32, quote] ++ start) ++ [last] := by
        simpa using shifted
      obtain ⟨opens, isQuote⟩ := List.append_inj' regrouped rfl
      rw [← (List.cons.inj isQuote).1, List.append_assoc, List.singleton_append] at split
      have escaped := getLast?_of_quote split
      have nonempty : start ≠ [] := by
        rintro rfl
        cases escaped
      have space := congrArg List.getLast? opens
      rw [List.getLast?_concat, List.getLast?_append_of_ne_nil _ nonempty, escaped] at space
      exact absurd (Option.some.inj space) (by decide)
  rcases List.append_eq_append_iff.mp same with ⟨rest, shifted, split⟩ | ⟨rest, shifted, split⟩
  · obtain rfl := longer rest shifted split
    rw [List.append_nil] at shifted
    exact ⟨(List.append_cancel_right shifted).symm, escape_injective split⟩
  · obtain rfl := longer rest shifted split
    rw [List.append_nil] at shifted
    exact ⟨List.append_cancel_right shifted, (escape_injective split).symm⟩

/-- A line gives its name and its value back. -/
theorem attributeLine_injective : Function.Injective attributeLine := by
  rintro ⟨name, value⟩ ⟨otherName, otherValue⟩ same
  have opened : ∀ entry : Bytes × Bytes,
      attributeLine entry =
        ((entry.1 ++ str " =") ++ [32, quote]) ++ escape entry.2 ++ [quote] := by
    intro entry
    simp [attributeLine, str]
  rw [opened, opened] at same
  obtain ⟨names, values⟩ := append_escape_inj (List.append_cancel_right same)
  exact Prod.ext (List.append_cancel_right names) values

theorem newline_notMem_attributeLine {entry : Bytes × Bytes} (plain : newline ∉ entry.1) :
    newline ∉ attributeLine entry := by
  have others := newline_notMem_escape entry.2
  simp only [attributeLine, List.mem_append, List.mem_cons, not_or, plain, others]
  decide

/-! ## Lists of media -/

/-- The attributes of a medium: a finite map from names that are not empty, in the order of its
names. -/
@[ext]
structure Attributes where
  entries : List (Bytes × Bytes)
  ordered : entries.Pairwise fun first second => compare first.1 second.1 = .lt
  named : ∀ entry ∈ entries, entry.1 ≠ []

namespace Attributes

/-- No name has a newline in it. -/
def Plain (medium : Attributes) : Prop :=
  ∀ entry ∈ medium.entries, newline ∉ entry.1

/-- The command line takes all names and values. -/
def Accepted (medium : Attributes) : Prop :=
  ∀ entry ∈ medium.entries, 0 ∉ entry.1 ∧ 0 ∉ entry.2

/-- The lines of a medium, but for the empty one at the end. -/
def lines (medium : Attributes) : List Bytes :=
  str "[medium]" :: medium.entries.map attributeLine

end Attributes

/-- What is printed for media that are known. -/
def listing (media : List Attributes) : Bytes :=
  media.flatMap fun medium => printMedium medium.entries

theorem listing_eq_lines (media : List Attributes) :
    listing media = ((media.map Attributes.lines).flatMap fun lines => lines ++ [[]]).flatMap
      fun line => line ++ [newline] := by
  induction media with
  | nil => rfl
  | cons medium media ih =>
      have own : printMedium medium.entries =
          (medium.lines ++ [[]]).flatMap fun line => line ++ [newline] := by
        simp [printMedium, Attributes.lines, List.flatMap_map]
      rw [List.map_cons, List.flatMap_cons, List.flatMap_append, ← ih, ← own]
      rfl

/-- Media whose names are plain are told apart by their listing. -/
theorem eq_of_listing {media others : List Attributes} (plain : ∀ medium ∈ media, medium.Plain)
    (otherPlain : ∀ medium ∈ others, medium.Plain) (same : listing media = listing others) :
    media = others := by
  have closed : ∀ {media : List Attributes}, (∀ medium ∈ media, medium.Plain) →
      ∀ line ∈ (media.map Attributes.lines).flatMap fun lines => lines ++ [[]],
        newline ∉ line := by
    intro media plain line member
    rw [List.mem_flatMap] at member
    obtain ⟨lines, isLines, member⟩ := member
    obtain ⟨medium, isMedium, rfl⟩ := List.mem_map.mp isLines
    rcases List.mem_append.mp member with inside | last
    · rcases List.mem_cons.mp inside with rfl | inside
      · decide
      · obtain ⟨entry, isEntry, rfl⟩ := List.mem_map.mp inside
        exact newline_notMem_attributeLine (plain medium isMedium entry isEntry)
    · rw [List.mem_singleton.mp last]
      exact List.not_mem_nil
  have filled : ∀ media : List Attributes, ∀ lines ∈ media.map Attributes.lines, [] ∉ lines := by
    intro media lines isLines empty
    obtain ⟨medium, isMedium, rfl⟩ := List.mem_map.mp isLines
    rcases List.mem_cons.mp empty with isHeader | inside
    · exact absurd isHeader (by decide)
    · obtain ⟨entry, -, isEmpty⟩ := List.mem_map.mp inside
      simp [attributeLine] at isEmpty
  rw [listing_eq_lines, listing_eq_lines] at same
  have lines := Text.flatMap_stop_inj (closed plain) (closed otherPlain) same
  have blocks := Text.flatMap_stop_inj (filled media) (filled others) lines
  refine List.map_injective_iff.mpr ?_ blocks
  intro medium other sameLines
  ext1
  exact List.map_injective_iff.mpr attributeLine_injective (List.cons.inj sameLines).2

/-! ## Names with a newline -/

/-- A name that reads like an attribute and the name of the next one. -/
def joinedName (first second : Bytes × Bytes) : Bytes :=
  attributeLine first ++ newline :: second.1

theorem attributeLine_joined (first second : Bytes × Bytes) :
    attributeLine (joinedName first second, second.2) =
      attributeLine first ++ newline :: attributeLine second := by
  simp [attributeLine, joinedName]

/-- What comes before a name comes before what begins with it. -/
theorem compare_append_of_lt {first second : Bytes} (before : compare first second = .lt)
    (rest : Bytes) : compare first (second ++ rest) = .lt := by
  induction second generalizing first with
  | nil =>
      cases first with
      | nil => exact absurd before (by decide)
      | cons byte first => exact absurd before (by exact nofun)
  | cons other second ih =>
      cases first with
      | nil => rfl
      | cons byte first =>
          change List.compareLex compare (byte :: first) (other :: second) = .lt at before
          change List.compareLex compare (byte :: first) (other :: (second ++ rest)) = .lt
          rw [List.compareLex_cons_cons] at before ⊢
          cases order : compare byte other with
          | lt => rfl
          | gt => simp [order] at before
          | eq =>
              simp only [order, Ordering.eq_then] at before ⊢
              exact ih before

/-- A medium whose last two attributes are run into one. -/
def Attributes.joined (medium : Attributes) {front : List (Bytes × Bytes)}
    {first second : Bytes × Bytes} (split : medium.entries = front ++ [first, second]) :
    Attributes where
  entries := front ++ [(joinedName first second, second.2)]
  ordered := by
    have ordered := medium.ordered
    rw [split, List.pairwise_append] at ordered
    rw [List.pairwise_append]
    refine ⟨ordered.1, List.pairwise_singleton _ _, ?_⟩
    rintro entry member _ last
    rw [List.mem_singleton.mp last, joinedName, attributeLine, List.append_assoc, List.append_assoc]
    exact compare_append_of_lt (ordered.2.2 entry member first List.mem_cons_self) _
  named := by
    intro entry member
    rcases List.mem_append.mp member with inside | last
    · exact medium.named entry (by rw [split]; exact List.mem_append_left _ inside)
    · rw [List.mem_singleton.mp last]
      simp [joinedName]

/-- Escaping adds no byte that the database refuses. -/
theorem accepted_escape {value : Bytes} (accepted : 0 ∉ value) : 0 ∉ escape value := by
  have kept : ∀ byte, 0 ∈ escapeByte byte → byte = 0 := by
    intro byte member
    rcases escapeByte_cases byte with ⟨same, -⟩ | ⟨next, same, -, back⟩
    · rw [same, List.mem_singleton] at member
      exact member.symm
    · rw [same, List.mem_cons, List.mem_singleton] at member
      rcases member with isBackslash | rfl
      · exact absurd isBackslash (by decide)
      · exact back.symm
  intro member
  obtain ⟨byte, isByte, inEscape⟩ := List.mem_flatMap.mp member
  exact accepted (kept byte inEscape ▸ isByte)

/-- Two entries in one name can be stored as well. -/
theorem Attributes.Accepted.joined {medium : Attributes} {front : List (Bytes × Bytes)}
    {first second : Bytes × Bytes} (accepted : medium.Accepted)
    (split : medium.entries = front ++ [first, second]) : (medium.joined split).Accepted := by
  have firstOk := accepted first (by rw [split]; simp)
  have secondOk := accepted second (by rw [split]; simp)
  have escaped := accepted_escape firstOk.2
  intro entry member
  rcases List.mem_append.mp member with inside | last
  · exact accepted entry (by rw [split]; exact List.mem_append_left _ inside)
  · rw [List.mem_singleton.mp last]
    refine ⟨?_, secondOk.2⟩
    simp only [joinedName, attributeLine, List.mem_append, List.mem_cons, not_or, firstOk.1,
      secondOk.1, escaped]
    decide

/-- Media of which one has two attributes are listed like other media. -/
theorem exists_twin {media : List Attributes}
    (more : ∃ medium ∈ media, 2 ≤ medium.entries.length) :
    ∃ others, others ≠ media ∧ listing others = listing media ∧
      ((∀ medium ∈ media, medium.Accepted) → ∀ medium ∈ others, medium.Accepted) := by
  obtain ⟨medium, member, two⟩ := more
  obtain ⟨before, after, rfl⟩ := List.append_of_mem member
  obtain ⟨front, first, second, split⟩ :
      ∃ front first second, medium.entries = front ++ [first, second] := by
    rcases List.eq_nil_or_concat' medium.entries with empty | ⟨init, second, whole⟩
    · simp [empty] at two
    · rcases List.eq_nil_or_concat' init with empty | ⟨front, first, initial⟩
      · simp [whole, empty] at two
      · exact ⟨front, first, second, by simp [whole, initial]⟩
  refine ⟨before ++ medium.joined split :: after, ?_, ?_, ?_⟩
  · intro same
    have entries := congrArg (fun medium : Attributes => medium.entries.length)
      (List.cons.inj (List.append_cancel_left same)).1
    simp [Attributes.joined, split] at entries
  · have own : printMedium (medium.joined split).entries = printMedium medium.entries := by
      simp [printMedium, Attributes.joined, split, attributeLine_joined]
    simp only [listing, List.flatMap_append, List.flatMap_cons, own]
  · intro accepted other isOther
    rcases List.mem_append.mp isOther with inFront | inBack
    · exact accepted other (List.mem_append_left _ inFront)
    · rcases List.mem_cons.mp inBack with rfl | inBack
      · exact (accepted medium member).joined split
      · exact accepted other (List.mem_append_right _ (List.mem_cons_of_mem _ inBack))

/-! ## The media of the database -/

/-- The attributes of a medium in the database. -/
def attributesOf (media : Db UInt32) (mid : UInt32) : Attributes where
  entries := entriesOf media mid
  ordered := by
    rw [entriesOf, List.pairwise_map, Db.attrs, List.pairwise_map, List.pairwise_filter]
    refine (ExtTreeMap.ordered_keys (t := media)).imp ?_
    intro first second before firstOf secondOf
    simp only [decide_eq_true_eq] at firstOf secondOf
    rcases Key.cmp_eq_lt_iff.mp before with ids | ⟨-, names⟩
    · have self : compare mid mid = .eq := ReflCmp.compare_self
      rw [firstOf.1, secondOf.1, self] at ids
      cases ids
    · exact names
  named := by
    intro entry member
    obtain ⟨name, isName, rfl⟩ := List.mem_map.mp member
    exact (Db.mem_attrs_iff.mp isName).1

/-- The attributes of all media, lowest id first. -/
def mediaOf (dbs : Dbs) : List Attributes :=
  dbs.mediaIds.map (attributesOf dbs.media)

/-- Where all media are known all are listed. -/
theorem list_eq {dbs : Dbs} (allKnown : ∀ mid ∈ dbs.mediaIds, known dbs.media mid = true) :
    list dbs = (listing (mediaOf dbs), true) := by
  have loop : ∀ {ids : List UInt32}, (∀ mid ∈ ids, known dbs.media mid = true) →
      listLoop dbs.media ids = (listing (ids.map (attributesOf dbs.media)), true) := by
    intro ids isKnown
    induction ids with
    | nil => rfl
    | cons mid rest ih =>
        rw [listLoop, if_pos (isKnown mid List.mem_cons_self),
          ih fun other member => isKnown other (List.mem_cons_of_mem _ member)]
        rfl
  exact loop allKnown

/-- Media whose names have no newlines in them are told apart by what is printed, and one with
two attributes is not told from one with a newline in a name.  Values are no cause of that. -/
theorem listing_told_apart (media others : List Attributes) (dbs store : Dbs) :
    ((∀ medium ∈ media, medium.Plain) → (∀ medium ∈ others, medium.Plain) →
      listing media = listing others → media = others) ∧
    ((∀ mid ∈ dbs.mediaIds, known dbs.media mid = true) →
      (∀ mid ∈ store.mediaIds, known store.media mid = true) →
      (∀ medium ∈ mediaOf dbs, medium.Plain) → (∀ medium ∈ mediaOf store, medium.Plain) →
      (list dbs).1 = (list store).1 → mediaOf dbs = mediaOf store) ∧
    ((∃ medium ∈ media, 2 ≤ medium.entries.length) →
      ∃ twin, twin ≠ media ∧ listing twin = listing media ∧
        ((∀ medium ∈ media, medium.Accepted) → ∀ medium ∈ twin, medium.Accepted)) ∧
    Function.Injective escape ∧
    ∀ value, newline ∉ escape value ∧ bareQuote (escape value) = false := by
  constructor
  · exact eq_of_listing
  constructor
  · intro isKnown storeKnown plain storePlain same
    rw [list_eq isKnown, list_eq storeKnown] at same
    exact eq_of_listing plain storePlain same
  constructor
  · exact exists_twin
  · exact ⟨escape_injective, fun value => ⟨newline_notMem_escape value, bareQuote_escape value⟩⟩

/-- One medium with these attributes besides its own. -/
def shelf (entries : List (Bytes × Bytes)) : Dbs where
  nodes := ∅
  directories := ∅
  media := entries.foldl (fun media entry => media.insert ⟨0, entry.1⟩ entry.2)
    (directoryMedium 0 (str "m") (str "/b"))

set_option maxRecDepth 100000 in
/-- A name that ends a line and begins another. -/
theorem listing_confused :
    list (shelf [(str "a = \"x\"\nb", str "y")]) =
      list (shelf [(str "a", str "x"), (str "b", str "y")]) ∧
      (list (shelf [(str "a", str "x"), (str "b", str "y")])).2 = true ∧
      (mediaOf (shelf [(str "a = \"x\"\nb", str "y")])).map Attributes.entries ≠
        (mediaOf (shelf [(str "a", str "x"), (str "b", str "y")])).map Attributes.entries := by
  decide +kernel

end Offmedia

end OfflineFs
