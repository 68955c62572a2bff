import OfflineFs.Formats.Numerals
import OfflineFs.Model.Medium
import OfflineFs.Model.World

/-!
# The media tool

What `offmedia` does to the media, and what it prints.  Its transaction is aborted when a command
throws.  The plain `--list` comes first; the commands come after the registers that they change.
-/

namespace OfflineFs

namespace Offmedia

/-- The byte that begins an escape sequence. -/
def backslash : UInt8 := 92
/-- The byte around a value. -/
def quote : UInt8 := 34
/-- The byte that ends a line. -/
def newline : UInt8 := 10

/-- The escape sequence of a special character. -/
def escapeByte (byte : UInt8) : Bytes :=
  if byte = backslash then [backslash, backslash]
  else if byte = quote then [backslash, quote]
  else if byte = newline then [backslash, 110]
  else [byte]

/-- Replace some special characters with escape sequences. -/
def escape (s0 : Bytes) : Bytes :=
  s0.flatMap escapeByte

/-- The line of an attribute, up to its end. -/
def attributeLine (entry : Bytes × Bytes) : Bytes :=
  entry.1 ++ str " = " ++ quote :: (escape entry.2 ++ [quote])

/-- What is printed for a medium with these attributes. -/
def printMedium (entries : List (Bytes × Bytes)) : Bytes :=
  str "[medium]" ++ newline :: (entries.flatMap fun entry => attributeLine entry ++ [newline]) ++
    [newline]

/-- The attributes of a medium with their values. -/
def entriesOf (media : Db UInt32) (mid : UInt32) : List (Bytes × Bytes) :=
  (media.attrs mid).map fun name => (name, (media[(⟨mid, name⟩ : Key UInt32)]?).getD [])

/-- `Medium::getmedium` does not throw. -/
def known (media : Db UInt32) (mid : UInt32) : Bool :=
  media[(⟨mid, str "type"⟩ : Key UInt32)]? ∈ [some (str "directory"), some (str "insert")]

/-- The loop of `--list`: what was printed, and whether it came to its end. -/
def listLoop (media : Db UInt32) : List UInt32 → Bytes × Bool
  | [] => ([], true)
  | mid :: rest =>
      if known media mid then
        (printMedium (entriesOf media mid) ++ (listLoop media rest).1, (listLoop media rest).2)
      else
        ([], false)

/-- `offmedia --list`. -/
def list (dbs : Dbs) : Bytes × Bool :=
  listLoop dbs.media dbs.mediaIds

/-! ## Exceptions -/

/-- The exceptions that a command throws. -/
inductive Failure
  | tooManyOptions
  | notEnoughArguments
  | noLabel
  | noMedium
  | noOperation
  | unknownId (id : UInt32)
  | unknownLabel (label : Bytes)
  | unknownType (mediumtype : Bytes)
  | attrNotFound (attr : Bytes)
  deriving DecidableEq, Repr

/-- The message of an exception.  The id is printed as it is in memory. -/
def Failure.what (order : ByteOrder) : Failure → Bytes
  | tooManyOptions => str "Error: Too many options.\nUse --help for more information."
  | notEnoughArguments => str "Error: Not enough arguments.\nUse --help for more information."
  | noLabel => str "Error: No medium label specified.\nUse --help for more information."
  | noMedium => str "Error: No medium specified.\nUse --help for more information."
  | noOperation => str "Error: No operation specified.\nUse --help for more information."
  | unknownId id => str "Medium::getmedium: Unknown medium ID " ++
      numeral 10 (order.inMemory id).toNat ++ str "."
  | unknownLabel label => str "Medium::getmedium: Unknown medium \"" ++ label ++ str "\"."
  | unknownType mediumtype =>
      str "Medium::getmedium: Unknown medium type \"" ++ mediumtype ++ str "\"."
  | attrNotFound attr => str "Attribute not found: " ++ attr

/-! ## Registers -/

section Registers

variable (media : Db UInt32) (id : UInt32) (name value : Bytes)

/-- The value of an attribute. -/
def getattrv : Except Failure Bytes :=
  match media[(⟨id, name⟩ : Key UInt32)]? with
  | some value => .ok value
  | none => .error (.attrNotFound name)

/-- Store the value of an attribute. -/
def setattrv : Db UInt32 :=
  media.insert ⟨id, name⟩ value

/-- Erase an attribute, which must be there. -/
def delattr : Except Failure (Db UInt32) :=
  match media[(⟨id, name⟩ : Key UInt32)]? with
  | some _ => .ok (media.erase ⟨id, name⟩)
  | none => .error (.attrNotFound name)

/-- The loop of `remove`. -/
def delattrs (id : UInt32) : List Bytes → Db UInt32 → Except Failure (Db UInt32)
  | [], media => .ok media
  | name :: rest, media =>
      match delattr media id name with
      | .ok media => delattrs id rest media
      | .error e => .error e

/-- Erase all attributes, the one without a name included. -/
def remove : Except Failure (Db UInt32) :=
  match delattrs id (media.attrs id) media with
  | .error e => .error e
  | .ok media =>
      match delattr media id [] with
      | .error (.attrNotFound _) => .ok media
      | result => result

/-- Reserve the id after the last one with a dummy attribute. -/
def createregister : UInt32 × Db UInt32 :=
  let id := match Map.lastKey? media with
    | none => 0
    | some key => key.id + 1
  (id, setattrv media id [] [])

/-- The ids with a key, each when it differs from the one before it. -/
def getregisters : List UInt32 :=
  Db.scanIds (UInt32.ofNat (2 ^ 32 - 1)) media.keys

/-- Some attributes one after another. -/
def setattrs (entries : List (Bytes × Bytes)) : Db UInt32 :=
  entries.foldl (fun media entry => setattrv media id entry.1 entry.2) media

end Registers

/-! ## Media -/

section Media

variable (media : Db UInt32)

/-- Instantiate a medium from its stored type. -/
def getmedium (id : UInt32) : Except Failure Medium :=
  match media[(⟨id, str "type"⟩ : Key UInt32)]? with
  | none => .error (.unknownId id)
  | some mediumtype =>
      if mediumtype = str "directory" then .ok ⟨id, .directory⟩
      else if mediumtype = str "insert" then .ok ⟨id, .insert⟩
      else .error (.unknownType mediumtype)

/-- The loop that looks a medium up by label. -/
def findLabel (label : Bytes) : List UInt32 → Except Failure Medium
  | [] => .error (.unknownLabel label)
  | id :: rest =>
      if media[(⟨id, str "label"⟩ : Key UInt32)]? = some label then getmedium media id
      else findLabel label rest

/-- Instantiate the first medium with a label. -/
def getmediumByLabel (label : Bytes) : Except Failure Medium :=
  findLabel media label (getregisters media)

/-- `Medium_directory::create`. -/
def createDirectory : UInt32 × Db UInt32 :=
  let (id, media) := createregister media
  (id, setattrs media id [(str "label", []), (str "type", str "directory"), (str "directory", []),
    (str "unlink_files", str "false")])

/-- `Medium_insert::create`. -/
def createInsert : UInt32 × Db UInt32 :=
  let (id, media) := createDirectory media
  (id, setattrs media id [(str "type", str "insert"), (str "checkcmd", []), (str "insertcmd", []),
    (str "total_size", str "0"), (str "free_size", str "0")])

/-- `Medium::create`. -/
def create (mediumtype : Bytes) : Except Failure (UInt32 × Db UInt32) :=
  if mediumtype = str "directory" then .ok (createDirectory media)
  else if mediumtype = str "insert" then .ok (createInsert media)
  else .error (.unknownType mediumtype)

end Media

/-! ## Commands -/

/-- The options that were given.  The id is compared with ids as they are in memory. -/
structure Options where
  add : Option Bytes := none
  set : Bool := false
  unset : Bool := false
  remove : Bool := false
  list : Bool := false
  label : Option Bytes := none
  id : Option UInt32 := none
  verbose : Bool := false
  noEscape : Bool := false
  attr : Option Bytes := none
  value : Option Bytes := none
  deriving DecidableEq, Repr

namespace Options

variable (order : ByteOrder) (options : Options) (media : Db UInt32)

/-- The medium that the options choose. -/
def getmedium : Except Failure Medium :=
  match options.id, options.label with
  | some id, _ => Offmedia.getmedium media (order.inMemory id)
  | none, some label => getmediumByLabel media label
  | none, none => .error .noMedium

/-- `--add`. -/
def runAdd (mediumtype : Bytes) : Except Failure (Db UInt32) :=
  if options.attr.isSome ∨ options.value.isSome then .error .tooManyOptions
  else
    match options.label with
    | none => .error .noLabel
    | some label =>
        match create media mediumtype with
        | .ok (id, media) => .ok (setattrv media id (str "label") label)
        | .error e => .error e

/-- `--set`. -/
def runSet : Except Failure (Db UInt32) :=
  match options.attr, options.value with
  | some attr, some value =>
      match options.getmedium order media with
      | .ok m => .ok (setattrv media m.id attr value)
      | .error e => .error e
  | _, _ => .error .notEnoughArguments

/-- `--unset`. -/
def runUnset : Except Failure (Db UInt32) :=
  match options.attr with
  | none => .error .notEnoughArguments
  | some attr =>
      if options.value.isSome then .error .tooManyOptions
      else
        match options.getmedium order media with
        | .ok m => delattr media m.id attr
        | .error e => .error e

/-- `--remove`. -/
def runRemove : Except Failure (Db UInt32) :=
  if options.attr.isSome ∨ options.value.isSome then .error .tooManyOptions
  else
    match options.getmedium order media with
    | .ok m => Offmedia.remove media m.id
    | .error e => .error e

/-- Whether the filters let a medium pass. -/
def passes (mid : UInt32) : Except Failure Bool :=
  match options.label with
  | none => .ok (options.id.all (· = order.inMemory mid))
  | some label =>
      match getattrv media mid (str "label") with
      | .ok found => .ok (found = label ∧ options.id.all (· = order.inMemory mid))
      | .error e => .error e

/-- What is printed for a medium that passes. -/
def print (mid : UInt32) : Bytes :=
  (if options.verbose then str "[medium " ++ numeral 10 (order.inMemory mid).toNat ++ str "]"
    else str "[medium]") ++
    newline ::
    (((entriesOf media mid).filter fun entry => options.attr.all (· = entry.1)).flatMap
      fun entry => entry.1 ++ str " = " ++ quote ::
        ((if options.noEscape then entry.2 else escape entry.2) ++ [quote]) ++ [newline]) ++
          [newline]

/-- The loop of `--list`: what was printed, and the exception that ended it. -/
def showLoop : List UInt32 → Bytes × Option Failure
  | [] => ([], none)
  | mid :: rest =>
      match Offmedia.getmedium media mid with
      | .error e => ([], some e)
      | .ok _ =>
          match options.passes order media mid with
          | .error e => ([], some e)
          | .ok false => showLoop rest
          | .ok true => (options.print order media mid ++ (showLoop rest).1, (showLoop rest).2)

/-- `--list`. -/
def runList : Bytes × Option Failure :=
  if options.label.isNone ∧ options.attr.isSome ∨ options.value.isSome then
    ([], some .tooManyOptions)
  else
    options.showLoop order media (getregisters media)

/-- What a command prints, and the media that it leaves unless it throws. -/
def command : Bytes × Except Failure (Db UInt32) :=
  match options.add with
  | some mediumtype => ([], options.runAdd media mediumtype)
  | none =>
      if options.set then ([], options.runSet order media)
      else if options.unset then ([], options.runUnset order media)
      else if options.remove then ([], options.runRemove order media)
      else if options.list then
        match options.runList order media with
        | (out, none) => (out, .ok media)
        | (out, some e) => (out, .error e)
      else ([], .error .noOperation)

end Options

/-- What is left when the tool has ended. -/
structure Ended where
  media : Db UInt32
  out : Bytes
  err : Bytes
  status : Nat

/-- `main`, once the command line is parsed and the database open.  The message is printed as
a C string. -/
def main (order : ByteOrder) (options : Options) (media : Db UInt32) : Ended :=
  match options.command order media with
  | (out, .ok after) => ⟨after, out, [], 0⟩
  | (out, .error e) => ⟨media, out, (e.what order).takeWhile (· ≠ 0) ++ [newline], 1⟩

end Offmedia

end OfflineFs
