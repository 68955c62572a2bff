import OfflineFs.Types

/-!
# Format strings

The lines that `offimport` reads are taken apart by a format string, which names
the fields of a line and the text between them.  Fields are text, and are read as
numbers the way a C++ stream reads them.
-/

namespace OfflineFs

/-- The fields of a line. -/
structure FMap where
  user : Bytes := []
  numuser : Bytes := []
  group : Bytes := []
  numgroup : Bytes := []
  link : Bytes := []
  perms : Bytes := []
  path : Bytes := []
  path2 : Bytes := []
  type : Bytes := []
  atime : Bytes := []
  ctime : Bytes := []
  mtime : Bytes := []
  size : Bytes := []
  z : List (Bytes × Bytes) := []
  x8 : List (Bytes × Bytes) := []
  x16 : List (Bytes × Bytes) := []
  x32 : List (Bytes × Bytes) := []
  x64 : List (Bytes × Bytes) := []
  deriving DecidableEq, Repr

/-- The members of `FMap` that hold one text. -/
inductive FMapVal
  | user | numuser | group | numgroup | link | perms | path | path2 | type | atime | ctime | mtime
  | size
  deriving DecidableEq, Repr

/-- The members of `FMap` that hold a text for each parameter. -/
inductive FMapParams
  | z | x8 | x16 | x32 | x64
  deriving DecidableEq, Repr

namespace FMap

/-- Store the field of a parameter without an argument. -/
def assign (fmap : FMap) (value : Bytes) : FMapVal → FMap
  | .user => { fmap with user := value }
  | .numuser => { fmap with numuser := value }
  | .group => { fmap with group := value }
  | .numgroup => { fmap with numgroup := value }
  | .link => { fmap with link := value }
  | .perms => { fmap with perms := value }
  | .path => { fmap with path := value }
  | .path2 => { fmap with path2 := value }
  | .type => { fmap with type := value }
  | .atime => { fmap with atime := value }
  | .ctime => { fmap with ctime := value }
  | .mtime => { fmap with mtime := value }
  | .size => { fmap with size := value }

/-- `insert` on an `unordered_map`: the first value of a key stays. -/
def insertParam (params : List (Bytes × Bytes)) (param value : Bytes) : List (Bytes × Bytes) :=
  if params.any fun entry => entry.1 = param then params else params ++ [(param, value)]

/-- Store the field of a parameter with an argument, which counts once. -/
def insert (fmap : FMap) (param value : Bytes) : FMapParams → FMap
  | .z => { fmap with z := insertParam fmap.z param value }
  | .x8 => { fmap with x8 := insertParam fmap.x8 param value }
  | .x16 => { fmap with x16 := insertParam fmap.x16 param value }
  | .x32 => { fmap with x32 := insertParam fmap.x32 param value }
  | .x64 => { fmap with x64 := insertParam fmap.x64 param value }

end FMap

/-- A token of the format string: neither member is set in the one before the first
field. -/
structure FSpec where
  tok : Bytes := []
  fmapval : Option FMapVal := none
  fmapparams : Option FMapParams := none
  deriving DecidableEq, Repr

/-- A field and the text after it. -/
structure DTok where
  delimiter : Bytes := []
  fspec : FSpec := {}
  param : Bytes := []
  deriving DecidableEq, Repr

/-- A `Format<FMap>`. -/
abbrev Format := List DTok

/-- What is before the first occurrence of a text, and what is after it. -/
def findDelimiter (delimiter : Bytes) : Bytes → Option (Bytes × Bytes)
  | [] => if delimiter = [] then some ([], []) else none
  | byte :: rest =>
      if delimiter.isPrefixOf (byte :: rest) then
        some ([], (byte :: rest).drop delimiter.length)
      else
        (findDelimiter delimiter rest).map fun parts => (byte :: parts.1, parts.2)

/-- `Format<T>::match`, undefined where it throws. -/
def Format.matchText : Format → FMap → Bytes → Option FMap
  | [], fmap, _ => some fmap
  | tok :: toks, fmap, text =>
      match findDelimiter tok.delimiter text with
      | none => none
      | some (matched, rest) =>
          let inserted := match tok.fspec.fmapparams with
            | some params => fmap.insert tok.param matched params
            | none => fmap
          let assigned := match tok.fspec.fmapval with
            | some val => inserted.assign matched val
            | none => inserted
          matchText toks assigned rest

/-- A `FParser<FMap>`. -/
structure FParser where
  toks : List FSpec := []

namespace FParser

/-- Add a field to the format. -/
def add (parser : FParser) (fspec : FSpec) : FParser :=
  { toks := parser.toks ++ [fspec] }

/-- The byte that begins a parameter. -/
def percent : UInt8 := 37
/-- The byte that begins an argument. -/
def openBrace : UInt8 := 123
/-- The byte that ends an argument. -/
def closeBrace : UInt8 := 125

/-- The parameter of a token and what is after it. -/
def readParam : Bytes → Option (Bytes × Bytes)
  | [] => none
  | byte :: rest =>
      if byte = openBrace then
        match rest.dropWhile (· ≠ closeBrace) with
        | [] => none
        | _ :: after => some (rest.takeWhile (· ≠ closeBrace), after)
      else
        none

/-- The loop of `parse`, on what is left of the format string.  Every round
consumes a byte. -/
def parseLoop (toks : List FSpec) : Nat → DTok → Bytes → Option Format
  | 0, _, _ => none
  | fuel + 1, dtok, formatstr =>
      let delimiter := dtok.delimiter ++ formatstr.takeWhile (· ≠ percent)
      match formatstr.dropWhile (· ≠ percent) with
      | [] => some [{ dtok with delimiter }]
      | _ :: rest =>
          if rest.head? = some percent then
            parseLoop toks fuel { dtok with delimiter := delimiter ++ [percent] } (rest.drop 1)
          else
            match toks.find? fun fspec => fspec.tok.isPrefixOf rest with
            | none => none
            | some fspec =>
                let after := rest.drop fspec.tok.length
                match fspec.fmapparams with
                | none =>
                    (parseLoop toks fuel { fspec } after).map ({ dtok with delimiter } :: ·)
                | some _ =>
                    match readParam after with
                    | none => none
                    | some (param, after) =>
                        (parseLoop toks fuel { fspec, param } after).map
                          ({ dtok with delimiter } :: ·)

/-- `FParser<T>::parse`, undefined where it throws. -/
def parse (parser : FParser) (formatstr : Bytes) : Option Format :=
  parseLoop parser.toks (formatstr.length + 1) {} formatstr

end FParser

/-! ## Numbers -/

/-- The test of `isspace`. -/
def isSpace (byte : UInt8) : Bool :=
  byte = 32 ∨ 9 ≤ byte ∧ byte ≤ 13

/-- The magnitude that the digits at the start of a text denote, if there are any. -/
def readDigits (base : Nat) (text : Bytes) : Option Nat :=
  match text.takeWhile fun byte => 48 ≤ byte ∧ byte.toNat < 48 + base with
  | [] => none
  | digits => some (digits.foldl (fun high byte => high * base + (byte.toNat - 48)) 0)

/-- The sign and the magnitude of the integer that a stream reads: blanks are skipped,
and what comes after the digits is left. -/
def readInteger (base : Nat) (text : Bytes) : Option (Bool × Nat) :=
  match text.dropWhile isSpace with
  | [] => none
  | byte :: rest =>
      if byte = 45 then (readDigits base rest).map (true, ·)
      else if byte = 43 then (readDigits base rest).map (false, ·)
      else (readDigits base (byte :: rest)).map (false, ·)

/-- An unsigned integer: a negative one wraps around, one that is too large fails. -/
def readUnsigned (T : Type) [HostInt T] (base : Nat) (text : Bytes) : Option T :=
  match readInteger base text with
  | none => none
  | some (negative, magnitude) =>
      if magnitude < 256 ^ HostInt.size T then
        some (HostInt.ofNat (if negative then (256 ^ HostInt.size T - magnitude) %
          256 ^ HostInt.size T else magnitude))
      else
        none

/-- A signed integer of 64 bits, as the unsigned one it is converted to. -/
def readSigned (text : Bytes) : Option UInt64 :=
  match readInteger 10 text with
  | none => none
  | some (true, magnitude) =>
      if magnitude ≤ 2 ^ 63 then some (UInt64.ofNat (2 ^ 64 - magnitude)) else none
  | some (false, magnitude) =>
      if magnitude < 2 ^ 63 then some (UInt64.ofNat magnitude) else none

/-- A `uint8_t` is read as a character. -/
def readChar (text : Bytes) : Option UInt8 :=
  (text.dropWhile isSpace).head?

end OfflineFs
