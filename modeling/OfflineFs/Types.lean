import Mathlib.Data.List.Induction
import Mathlib.Tactic.Linarith
import Mathlib.Tactic.Ring

/-!
# Stored values

Everything in the databases is a byte string.  Numeric attributes are stored in
big-endian order at the fixed width of their C++ type, and read back only when
the stored length is that width.  This file gives the integer codec, the mode
bits, the attribute names the filesystem itself uses, and its error codes.
-/

namespace OfflineFs

/-- A C++ string or buffer: any sequence of bytes. -/
abbrev Bytes := List UInt8

/-- The bytes of a C string literal. -/
def str (literal : String) : Bytes :=
  literal.toList.map fun char => UInt8.ofNat char.toNat

/-! ## Big-endian integers -/

/-- The low `width` bytes of a number, most significant byte first. -/
def beBytes : Nat → Nat → Bytes
  | 0, _ => []
  | width + 1, value => beBytes width (value / 256) ++ [UInt8.ofNat value]

/-- The number a byte string denotes, most significant byte first. -/
def beNat (bytes : Bytes) : Nat :=
  bytes.foldl (fun high byte => high * 256 + byte.toNat) 0

@[simp]
theorem length_beBytes (width value : Nat) : (beBytes width value).length = width := by
  induction width generalizing value with
  | zero => rfl
  | succ width ih => simp [beBytes, ih]

@[simp]
theorem beNat_concat (bytes : Bytes) (byte : UInt8) :
    beNat (bytes ++ [byte]) = beNat bytes * 256 + byte.toNat := by
  simp [beNat]

theorem beNat_lt (bytes : Bytes) : beNat bytes < 256 ^ bytes.length := by
  induction bytes using List.reverseRecOn with
  | nil => simp [beNat]
  | append_singleton bytes byte ih =>
      have byteLt := byte.toNat_lt
      simp only [beNat_concat, List.length_append, List.length_singleton, pow_succ]
      omega

theorem beNat_beBytes (width value : Nat) :
    beNat (beBytes width value) = value % 256 ^ width := by
  induction width generalizing value with
  | zero => simp [beBytes, beNat, Nat.mod_one]
  | succ width ih =>
      have lowByte : (UInt8.ofNat value).toNat = value % 256 := by
        simp [UInt8.toNat_ofNat']
      rw [beBytes, beNat_concat, ih, lowByte, pow_succ, Nat.mul_comm (256 ^ width) 256,
        Nat.mod_mul]
      ring

theorem beBytes_beNat (bytes : Bytes) : beBytes bytes.length (beNat bytes) = bytes := by
  induction bytes using List.reverseRecOn with
  | nil => rfl
  | append_singleton bytes byte ih =>
      have byteLt := byte.toNat_lt
      have high : (beNat bytes * 256 + byte.toNat) / 256 = beNat bytes := by omega
      have low : UInt8.ofNat (beNat bytes * 256 + byte.toNat) = byte := by
        apply UInt8.toNat_inj.mp
        rw [UInt8.toNat_ofNat']
        omega
      simp only [List.length_append, List.length_singleton, beNat_concat, beBytes, high, low, ih]

/-- The unsigned integer types an attribute can have. -/
class HostInt (T : Type) where
  size : Nat
  toNat : T → Nat
  ofNat : Nat → T
  toNat_lt : ∀ value, toNat value < 256 ^ size
  ofNat_toNat : ∀ value, ofNat (toNat value) = value
  toNat_ofNat : ∀ number, number < 256 ^ size → toNat (ofNat number) = number

instance : HostInt UInt8 where
  size := 1
  toNat := UInt8.toNat
  ofNat := UInt8.ofNat
  toNat_lt value := by simpa using value.toNat_lt
  ofNat_toNat value := by simp
  toNat_ofNat number bound := by
    rw [UInt8.toNat_ofNat']
    exact Nat.mod_eq_of_lt (by simpa using bound)

instance : HostInt UInt16 where
  size := 2
  toNat := UInt16.toNat
  ofNat := UInt16.ofNat
  toNat_lt value := by simpa using value.toNat_lt
  ofNat_toNat value := by simp
  toNat_ofNat number bound := by
    rw [UInt16.toNat_ofNat']
    exact Nat.mod_eq_of_lt (by simpa using bound)

instance : HostInt UInt32 where
  size := 4
  toNat := UInt32.toNat
  ofNat := UInt32.ofNat
  toNat_lt value := by simpa using value.toNat_lt
  ofNat_toNat value := by simp
  toNat_ofNat number bound := by
    rw [UInt32.toNat_ofNat']
    exact Nat.mod_eq_of_lt (by simpa using bound)

instance : HostInt UInt64 where
  size := 8
  toNat := UInt64.toNat
  ofNat := UInt64.ofNat
  toNat_lt value := by simpa using value.toNat_lt
  ofNat_toNat value := by simp
  toNat_ofNat number bound := by
    rw [UInt64.toNat_ofNat']
    exact Nat.mod_eq_of_lt (by simpa using bound)

section Codec

variable {T : Type} [HostInt T]

/-- The bytes in memory of `host_to_db(value)`. -/
def hostToDb (value : T) : Bytes :=
  beBytes (HostInt.size T) (HostInt.toNat value)

/-- `db_to_host` of a buffer read as a `T`; undefined when the sizes differ. -/
def dbToHost (T : Type) [HostInt T] (bytes : Bytes) : Option T :=
  if bytes.length = HostInt.size T then some (HostInt.ofNat (beNat bytes)) else none

@[simp]
theorem length_hostToDb (value : T) : (hostToDb value).length = HostInt.size T :=
  length_beBytes _ _

@[simp]
theorem dbToHost_hostToDb (value : T) : dbToHost T (hostToDb value) = some value := by
  simp [dbToHost, hostToDb, beNat_beBytes, Nat.mod_eq_of_lt (HostInt.toNat_lt value),
    HostInt.ofNat_toNat]

/-- A buffer reads as a value exactly when it is that value's encoding. -/
theorem dbToHost_eq_some_iff {bytes : Bytes} {value : T} :
    dbToHost T bytes = some value ↔ bytes = hostToDb value := by
  constructor
  · intro read
    unfold dbToHost at read
    split at read
    · rename_i sizeEq
      cases read
      have bound : beNat bytes < 256 ^ HostInt.size T := sizeEq ▸ beNat_lt bytes
      rw [hostToDb, HostInt.toNat_ofNat _ bound, ← sizeEq, beBytes_beNat]
    · contradiction
  · rintro rfl
    exact dbToHost_hostToDb value

theorem hostToDb_injective : Function.Injective (hostToDb (T := T)) := by
  intro first second equal
  have read : dbToHost T (hostToDb first) = some second := by rw [equal, dbToHost_hostToDb]
  simpa using read

@[simp]
theorem hostToDb_inj {first second : T} : hostToDb first = hostToDb second ↔ first = second :=
  hostToDb_injective.eq_iff

theorem dbToHost_isSome_iff {bytes : Bytes} :
    (dbToHost T bytes).isSome ↔ bytes.length = HostInt.size T := by
  unfold dbToHost
  split <;> simp_all

end Codec

/-! ## Ids in memory -/

/-- The order in which a host stores the bytes of an integer. -/
inductive ByteOrder
  | little
  | big
  deriving DecidableEq, Repr

namespace ByteOrder

variable {T : Type} [HostInt T] (order : ByteOrder) (id : T)

/-- The integer that a program holds for an id.  Ids are not converted when they are taken
out of a key, so its bytes in memory are those of the key. -/
def inMemory : T :=
  match order with
  | little => HostInt.ofNat (beNat (hostToDb id).reverse)
  | big => id

theorem hostToDb_inMemory_little :
    hostToDb (inMemory little id) = (hostToDb id).reverse := by
  have read : dbToHost T (hostToDb id).reverse = some (inMemory little id) := by
    rw [dbToHost, if_pos (by simp)]
    rfl
  exact (dbToHost_eq_some_iff.mp read).symm

@[simp]
theorem inMemory_inMemory : order.inMemory (order.inMemory id) = id := by
  cases order with
  | little =>
      apply hostToDb_injective
      rw [hostToDb_inMemory_little, hostToDb_inMemory_little, List.reverse_reverse]
  | big => rfl

variable {id} in
theorem inMemory_eq_iff {held : T} : order.inMemory id = held ↔ id = order.inMemory held := by
  constructor
  · rintro rfl
    rw [inMemory_inMemory]
  · rintro rfl
    rw [inMemory_inMemory]

variable {id} in
@[simp]
theorem inMemory_inj {other : T} : order.inMemory id = order.inMemory other ↔ id = other := by
  rw [inMemory_eq_iff, inMemory_inMemory]

end ByteOrder

/-! ## Mode bits -/

/-- The bits for the type. -/
def sIfmt : UInt32 := 0o170000
/-- The type of a socket. -/
def sIfsock : UInt32 := 0o140000
/-- The type of a symbolic link. -/
def sIflnk : UInt32 := 0o120000
/-- The type of a regular file. -/
def sIfreg : UInt32 := 0o100000
/-- The type of a block device. -/
def sIfblk : UInt32 := 0o060000
/-- The type of a directory. -/
def sIfdir : UInt32 := 0o040000
/-- The type of a character device. -/
def sIfchr : UInt32 := 0o020000
/-- The type of a FIFO. -/
def sIfifo : UInt32 := 0o010000
/-- The bit that sets the user id. -/
def sIsuid : UInt32 := 0o4000
/-- The bit that sets the group id. -/
def sIsgid : UInt32 := 0o2000
/-- The sticky bit. -/
def sIsvtx : UInt32 := 0o1000
/-- The search permission of the owner. -/
def sIxusr : UInt32 := 0o100
/-- The search permission of the group. -/
def sIxgrp : UInt32 := 0o010
/-- The search permission of others. -/
def sIxoth : UInt32 := 0o001

/-- Permission bits as `access` takes them. -/
def rOk : UInt32 := 4
/-- Permission to write. -/
def wOk : UInt32 := 2
/-- Permission to search. -/
def xOk : UInt32 := 1

/-- The mode of a regular file. -/
def sIsreg (mode : UInt32) : Bool := mode &&& sIfmt = sIfreg
/-- The mode of a directory. -/
def sIsdir (mode : UInt32) : Bool := mode &&& sIfmt = sIfdir
/-- The mode of a symbolic link. -/
def sIslnk (mode : UInt32) : Bool := mode &&& sIfmt = sIflnk
/-- The mode of a character device. -/
def sIschr (mode : UInt32) : Bool := mode &&& sIfmt = sIfchr
/-- The mode of a block device. -/
def sIsblk (mode : UInt32) : Bool := mode &&& sIfmt = sIfblk

/-! ## Attribute names -/

/-- The attributes that the filesystem itself keeps for a node. -/
inductive Attr
  | dev
  | nlink
  | mode
  | uid
  | gid
  | size
  | atime
  | mtime
  | ctime
  | symlink
  | source
  | mediumid
  | phid
  deriving DecidableEq, Repr

/-- The prefix of the attribute names that users may not write. -/
def reservedPrefix : Bytes := str "offlinefs."

/-- The name an attribute is stored under. -/
def Attr.name : Attr → Bytes
  | .dev => str "offlinefs.dev"
  | .nlink => str "offlinefs.nlink"
  | .mode => str "offlinefs.mode"
  | .uid => str "offlinefs.uid"
  | .gid => str "offlinefs.gid"
  | .size => str "offlinefs.size"
  | .atime => str "offlinefs.atime"
  | .mtime => str "offlinefs.mtime"
  | .ctime => str "offlinefs.ctime"
  | .symlink => str "offlinefs.symlink"
  | .source => str "offlinefs.source"
  | .mediumid => str "offlinefs.mediumid"
  | .phid => str "offlinefs.phid"

@[simp]
theorem Attr.name_inj {first second : Attr} : first.name = second.name ↔ first = second := by
  constructor
  · intro equal
    cases first <;> cases second <;> first | rfl | exact absurd equal (by decide)
  · rintro rfl
    rfl

@[simp]
theorem Attr.name_ne_nil (attr : Attr) : attr.name ≠ [] := by
  cases attr <;> decide

/-- Every attribute the filesystem keeps is under the reserved prefix. -/
theorem Attr.reservedPrefix_isPrefix (attr : Attr) :
    reservedPrefix.isPrefixOf attr.name = true := by
  cases attr <;> decide

/-! ## Errors -/

/-- The classes a node object can have. -/
inductive NodeKind
  | node
  | file
  | directory
  | symlink
  deriving DecidableEq, Repr

/-- The exceptions thrown by the library.  `runtime` stands for every class that
`FS::errcode` reports as an input/output error. -/
inductive Err
  | notFound
  | badCast (target : NodeKind)
  | access
  | exists
  | attrNotFound
  | runtime
  deriving DecidableEq, Repr

/-- Operation not permitted. -/
def ePerm : Int := 1
/-- No such file or directory. -/
def eNoent : Int := 2
/-- Input/output error. -/
def eIo : Int := 5
/-- Bad file descriptor. -/
def eBadf : Int := 9
/-- Permission denied. -/
def eAcces : Int := 13
/-- File exists. -/
def eExist : Int := 17
/-- Not a directory. -/
def eNotdir : Int := 20
/-- Is a directory. -/
def eIsdir : Int := 21
/-- Invalid argument. -/
def eInval : Int := 22
/-- Too many open files. -/
def eNfile : Int := 23
/-- Directory not empty. -/
def eNotempty : Int := 39
/-- No such attribute. -/
def eNoattr : Int := 61

/-- `FS::errcode`: translate an exception into an error code. -/
def errcode : Err → Int
  | .notFound => -eNoent
  | .badCast .directory => -eNotdir
  | .badCast .symlink => -eInval
  | .badCast .file => -eInval
  | .badCast .node => -eIo
  | .exists => -eExist
  | .access => -eAcces
  | .attrNotFound => -eIo
  | .runtime => -eIo

end OfflineFs
