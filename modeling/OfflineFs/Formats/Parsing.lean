import Mathlib.Data.List.Pairwise
import OfflineFs.Model.Offimport
import OfflineFs.Text.Leftmost

/-!
# Parsing format strings

The strings that `FParser::parse` accepts are those of a grammar, and the tokens it
returns spell the string they come from.
-/

namespace OfflineFs

/-! ## The format strings of a list of tokens -/

namespace FParser

/-- The names of the tokens can be told apart, from each other and from an escape. -/
structure Distinguishes (parser : FParser) : Prop where
  nonempty : ∀ fspec ∈ parser.toks, fspec.tok ≠ []
  unescaped : ∀ fspec ∈ parser.toks, fspec.tok.head? ≠ some percent
  prefixFree : parser.toks.Pairwise fun first second =>
    ¬ first.tok <+: second.tok ∧ ¬ second.tok <+: first.tok

/-- Sequences of characters, escapes, tokens and tokens with a parameter. -/
inductive Accepts (toks : List FSpec) : Bytes → Prop
  | nil : Accepts toks []
  | literal {byte : UInt8} {rest : Bytes} (other : byte ≠ percent) (accepts : Accepts toks rest) :
      Accepts toks (byte :: rest)
  | escape {rest : Bytes} (accepts : Accepts toks rest) :
      Accepts toks (percent :: percent :: rest)
  | plain {fspec : FSpec} {rest : Bytes} (known : fspec ∈ toks) (alone : fspec.fmapparams = none)
      (accepts : Accepts toks rest) : Accepts toks (percent :: (fspec.tok ++ rest))
  | parametrized {fspec : FSpec} {params : FMapParams} {param rest : Bytes} (known : fspec ∈ toks)
      (takes : fspec.fmapparams = some params) (closed : closeBrace ∉ param)
      (accepts : Accepts toks rest) :
      Accepts toks (percent :: (fspec.tok ++ openBrace :: (param ++ closeBrace :: rest)))

/-- The text with every `%` doubled. -/
def escaped (text : Bytes) : Bytes :=
  text.flatMap fun byte => if byte = percent then [percent, percent] else [byte]

@[simp]
theorem escaped_append (front text : Bytes) :
    escaped (front ++ text) = escaped front ++ escaped text :=
  List.flatMap_append

end FParser

open FParser

/-- A field as the format string spells it, and the text after it. -/
def DTok.render (tok : DTok) : Bytes :=
  percent :: (tok.fspec.tok ++
    (if tok.fspec.fmapparams.isSome then openBrace :: (tok.param ++ [closeBrace]) else []) ++
    escaped tok.delimiter)

/-- The format string of a list of tokens. -/
def Format.render : Format → Bytes
  | [] => []
  | first :: fields => escaped first.delimiter ++ fields.flatMap DTok.render

namespace FParser

/-! ## What the loop reads -/

/-- The tokens that a format string stands for, one of which has been read so far. -/
inductive Reads (toks : List FSpec) : DTok → Bytes → Format → Prop
  | done (dtok : DTok) : Reads toks dtok [] [dtok]
  | literal {dtok : DTok} {byte : UInt8} {rest : Bytes} {format : Format} (other : byte ≠ percent)
      (reads : Reads toks { dtok with delimiter := dtok.delimiter ++ [byte] } rest format) :
      Reads toks dtok (byte :: rest) format
  | escape {dtok : DTok} {rest : Bytes} {format : Format}
      (reads : Reads toks { dtok with delimiter := dtok.delimiter ++ [percent] } rest format) :
      Reads toks dtok (percent :: percent :: rest) format
  | plain {dtok : DTok} {fspec : FSpec} {rest : Bytes} {format : Format} (known : fspec ∈ toks)
      (alone : fspec.fmapparams = none) (reads : Reads toks { fspec } rest format) :
      Reads toks dtok (percent :: (fspec.tok ++ rest)) (dtok :: format)
  | parametrized {dtok : DTok} {fspec : FSpec} {params : FMapParams} {param rest : Bytes}
      {format : Format} (known : fspec ∈ toks) (takes : fspec.fmapparams = some params)
      (closed : closeBrace ∉ param) (reads : Reads toks { fspec, param } rest format) :
      Reads toks dtok (percent :: (fspec.tok ++ openBrace :: (param ++ closeBrace :: rest)))
        (dtok :: format)

namespace Reads

variable {toks : List FSpec} {dtok : DTok} {text rest : Bytes} {format : Format}

/-- Characters other than `%` go to the delimiter. -/
theorem literals {front : Bytes} (others : percent ∉ front)
    (reads : Reads toks { dtok with delimiter := dtok.delimiter ++ front } rest format) :
    Reads toks dtok (front ++ rest) format := by
  induction front generalizing dtok with
  | nil => simpa using reads
  | cons byte front ih =>
      simp only [List.mem_cons, not_or] at others
      refine .literal (Ne.symm others.1) (ih others.2 ?_)
      simpa using reads

theorem accepts (reads : Reads toks dtok text format) : Accepts toks text := by
  induction reads with
  | done dtok => exact .nil
  | literal other _ ih => exact .literal other ih
  | escape _ ih => exact .escape ih
  | plain known alone _ ih => exact .plain known alone ih
  | parametrized known takes closed _ ih => exact .parametrized known takes closed ih

/-- The tokens start with the one that was begun, and the others are known. -/
theorem head (reads : Reads toks dtok text format) :
    ∃ delimiter fields, format = { dtok with delimiter } :: fields ∧
      ∀ tok ∈ fields, tok.fspec ∈ toks := by
  induction reads with
  | done dtok => exact ⟨dtok.delimiter, [], rfl, by simp⟩
  | literal _ _ ih => simpa using ih
  | escape _ ih => simpa using ih
  | @plain dtok fspec rest format known _ _ ih
  | @parametrized dtok fspec _ _ _ format known _ _ _ ih =>
      obtain ⟨delimiter, fields, rfl, others⟩ := ih
      exact ⟨dtok.delimiter, _, rfl, List.forall_mem_cons.mpr ⟨known, others⟩⟩

/-- The tokens spell what has been read and what was left. -/
theorem render (reads : Reads toks dtok text format) :
    format.render = escaped dtok.delimiter ++ text := by
  induction reads with
  | done dtok => simp [Format.render]
  | literal other _ ih => simp [ih, escaped, other]
  | escape _ ih => simp [ih, escaped]
  | @plain dtok fspec rest format known alone reads ih =>
      obtain ⟨delimiter, fields, rfl, _⟩ := reads.head
      have spells : escaped delimiter ++ fields.flatMap DTok.render = rest := by
        simpa [Format.render, escaped] using ih
      simp [Format.render, DTok.render, alone, spells]
  | @parametrized dtok fspec params param rest format known takes closed reads ih =>
      obtain ⟨delimiter, fields, rfl, _⟩ := reads.head
      have spells : escaped delimiter ++ fields.flatMap DTok.render = rest := by
        simpa [Format.render, escaped] using ih
      simp [Format.render, DTok.render, takes, spells]

end Reads

theorem Accepts.reads {toks : List FSpec} {text : Bytes} (accepts : Accepts toks text)
    (dtok : DTok) : ∃ format, Reads toks dtok text format := by
  induction accepts generalizing dtok with
  | nil => exact ⟨_, .done dtok⟩
  | literal other _ ih => exact (ih _).imp fun _ => .literal other
  | escape _ ih => exact (ih _).imp fun _ => .escape
  | plain known alone _ ih =>
      obtain ⟨format, reads⟩ := ih _
      exact ⟨_, .plain known alone reads⟩
  | parametrized known takes closed _ ih =>
      obtain ⟨format, reads⟩ := ih _
      exact ⟨_, .parametrized known takes closed reads⟩

/-! ## The parameter -/

/-- An argument stands between braces and has no closing brace. -/
theorem readParam_eq_some_iff {text param after : Bytes} :
    readParam text = some (param, after) ↔
      closeBrace ∉ param ∧ text = openBrace :: (param ++ closeBrace :: after) := by
  constructor
  · intro read
    cases text with
    | nil => cases read
    | cons byte rest =>
        by_cases opens : byte = openBrace
        · rw [readParam, if_pos opens] at read
          rcases left : rest.dropWhile (· ≠ closeBrace) with _ | ⟨close, after'⟩
          · rw [left] at read
            cases read
          · rw [left] at read
            cases read
            constructor
            · exact Text.notMem_takeWhile closeBrace rest
            · obtain rfl := Text.eq_of_dropWhile left
              rw [← left, List.takeWhile_append_dropWhile, opens]
        · rw [readParam, if_neg opens] at read
          cases read
  · rintro ⟨closed, rfl⟩
    rw [readParam, if_pos rfl, Text.dropWhile_stop closed, Text.takeWhile_stop closed]

/-! ## The loop -/

/-- What the loop returns is what the format string stands for. -/
theorem reads_parseLoop {toks : List FSpec} {fuel : Nat} {dtok : DTok} {text : Bytes}
    {format : Format} (parsed : parseLoop toks fuel dtok text = some format) :
    Reads toks dtok text format := by
  induction fuel generalizing dtok text format with
  | zero => cases parsed
  | succ fuel ih =>
      rw [← List.takeWhile_append_dropWhile (p := (· ≠ percent)) (l := text)]
      apply Reads.literals (Text.notMem_takeWhile percent text)
      rw [parseLoop] at parsed
      rcases left : text.dropWhile (· ≠ percent) with _ | ⟨byte, rest⟩
      · simp only [left, Option.some.injEq] at parsed
        exact parsed ▸ .done _
      · obtain rfl := Text.eq_of_dropWhile left
        simp only [left] at parsed
        split at parsed
        · rename_i escapes
          obtain ⟨tail, rfl⟩ := List.head?_eq_some_iff.mp escapes
          exact .escape (ih parsed)
        · split at parsed
          · cases parsed
          · rename_i fspec found
            have known := List.mem_of_find?_eq_some found
            have front : fspec.tok <+: rest := by simpa using List.find?_some found
            obtain ⟨after, rfl⟩ := front
            rw [List.drop_left] at parsed
            split at parsed
            · rename_i alone
              obtain ⟨others, more, rfl⟩ := Option.map_eq_some_iff.mp parsed
              exact .plain known alone (ih more)
            · rename_i params takes
              split at parsed
              · cases parsed
              · rename_i param after read
                obtain ⟨closed, rfl⟩ := readParam_eq_some_iff.mp read
                obtain ⟨others, more, rfl⟩ := Option.map_eq_some_iff.mp parsed
                exact .parametrized known takes closed (ih more)

namespace Distinguishes

variable {parser : FParser} {fspec : FSpec}

/-- The token that is found is the one that was spelled. -/
theorem find (distinguishes : parser.Distinguishes) (known : fspec ∈ parser.toks) (rest : Bytes) :
    (parser.toks.find? fun other => other.tok.isPrefixOf (fspec.tok ++ rest)) = some fspec := by
  have same : ∀ other ∈ parser.toks, other.tok <+: fspec.tok ++ rest → other = fspec := by
    intro other member fits
    by_contra apart
    have symmetric : Std.Symm fun first second : FSpec =>
        ¬ first.tok <+: second.tok ∧ ¬ second.tok <+: first.tok := ⟨fun _ _ => And.symm⟩
    have free := distinguishes.prefixFree.forall member known apart
    rcases List.prefix_or_prefix_of_prefix fits (List.prefix_append fspec.tok rest) with
      before | after
    · exact free.1 before
    · exact free.2 after
  rcases found : parser.toks.find? fun other => other.tok.isPrefixOf (fspec.tok ++ rest)
    with _ | other
  · have missing := List.find?_eq_none.mp found fspec known
    simp at missing
  · have fits : other.tok <+: fspec.tok ++ rest := by simpa using List.find?_some found
    exact found.trans (congrArg some (same other (List.mem_of_find?_eq_some found) fits))

theorem head_tok (distinguishes : parser.Distinguishes) (known : fspec ∈ parser.toks)
    (rest : Bytes) : (fspec.tok ++ rest).head? ≠ some percent := by
  have unescaped := distinguishes.unescaped fspec known
  cases tok : fspec.tok with
  | nil => exact absurd tok (distinguishes.nonempty fspec known)
  | cons byte more => simpa [tok] using unescaped

/-- The loop returns what the format string stands for. -/
theorem parseLoop (distinguishes : parser.Distinguishes) {dtok : DTok} {text : Bytes}
    {format : Format} (reads : Reads parser.toks dtok text format) {fuel : Nat}
    (enough : text.length < fuel) : parseLoop parser.toks fuel dtok text = some format := by
  induction reads generalizing fuel with
  | done dtok =>
      obtain ⟨fuel, rfl⟩ := Nat.exists_eq_add_of_lt enough
      simp [FParser.parseLoop]
  | @literal dtok byte rest format other _ ih =>
      have same : FParser.parseLoop parser.toks fuel dtok (byte :: rest) =
          FParser.parseLoop parser.toks fuel
            { dtok with delimiter := dtok.delimiter ++ [byte] } rest := by
        cases fuel <;> simp [FParser.parseLoop, other]
      rw [same]
      exact ih (Nat.lt_of_succ_lt enough)
  | @escape dtok rest format _ ih =>
      cases fuel with
      | zero => cases enough
      | succ fuel =>
          simp only [List.length_cons] at enough
          simpa [FParser.parseLoop] using ih (by omega)
  | @plain dtok fspec rest format known alone _ ih =>
      cases fuel with
      | zero => cases enough
      | succ fuel =>
          have shorter : rest.length < fuel := by
            simp only [List.length_cons, List.length_append] at enough
            omega
          rw [FParser.parseLoop, List.takeWhile_cons_of_neg (by simp),
            List.dropWhile_cons_of_neg (by simp)]
          simp only [if_neg (distinguishes.head_tok known rest), distinguishes.find known, alone,
            List.drop_left, ih shorter, Option.map_some, List.append_nil]
  | @parametrized dtok fspec params param rest format known takes closed _ ih =>
      cases fuel with
      | zero => cases enough
      | succ fuel =>
          have shorter : rest.length < fuel := by
            simp only [List.length_cons, List.length_append] at enough
            omega
          have read : readParam (openBrace :: (param ++ closeBrace :: rest)) = some (param, rest) :=
            readParam_eq_some_iff.mpr ⟨closed, rfl⟩
          rw [FParser.parseLoop, List.takeWhile_cons_of_neg (by simp),
            List.dropWhile_cons_of_neg (by simp)]
          simp only [if_neg (distinguishes.head_tok known _), distinguishes.find known, takes,
            List.drop_left, read, ih shorter, Option.map_some, List.append_nil]

end Distinguishes

theorem reads_parse {parser : FParser} {formatstr : Bytes} {format : Format}
    (parsed : parser.parse formatstr = some format) : Reads parser.toks {} formatstr format :=
  reads_parseLoop parsed

/-- The parser accepts the strings of the grammar, and the tokens it returns spell the
string. -/
theorem parse_exact (parser : FParser) (distinguishes : parser.Distinguishes) (formatstr : Bytes) :
    ((parser.parse formatstr).isSome ↔ Accepts parser.toks formatstr) ∧
      ∀ format, parser.parse formatstr = some format → format.render = formatstr := by
  constructor
  · constructor
    · intro succeeds
      obtain ⟨format, parsed⟩ := Option.isSome_iff_exists.mp succeeds
      exact (reads_parse parsed).accepts
    · intro accepts
      obtain ⟨format, reads⟩ := accepts.reads {}
      exact Option.isSome_iff_exists.mpr
        ⟨format, distinguishes.parseLoop reads (Nat.lt_succ_self _)⟩
  · intro format parsed
    exact (reads_parse parsed).render

theorem distinguishes_fpar : Offimport.fpar.Distinguishes where
  nonempty := by decide +kernel
  unescaped := by decide +kernel
  prefixFree := by decide +kernel

theorem parse_exact_fpar :
    ((Offimport.fpar.parse (str "%p %x8{100%}%%")).isSome ↔
        Accepts Offimport.fpar.toks (str "%p %x8{100%}%%")) ∧
      ∀ format, Offimport.fpar.parse (str "%p %x8{100%}%%") = some format →
        format.render = str "%p %x8{100%}%%" :=
  parse_exact Offimport.fpar distinguishes_fpar (str "%p %x8{100%}%%")

end FParser

end OfflineFs
