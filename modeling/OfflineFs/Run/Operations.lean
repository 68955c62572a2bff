import OfflineFs.Run.Start
import OfflineFs.Transition.Run

/-!
# Runs of requests

The requests that change the filesystem or look paths up, as data, so that a run
is a list of them.
-/

namespace OfflineFs

open OfflineFs.Effect

/-- A request, without its caller. -/
inductive Request
  | getattr (path : Bytes)
  | readdir (path : Bytes)
  | readlink (path : Bytes) (bufsiz : Nat)
  | access (path : Bytes) (mode : UInt32)
  | opendir (path : Bytes)
  | getxattr (path name : Bytes) (size : Nat)
  | listxattr (path : Bytes) (size : Nat)
  | mknod (path : Bytes) (mode : UInt32) (dev : UInt64)
  | mkdir (path : Bytes) (mode : UInt32)
  | symlink (oldpath newpath : Bytes)
  | link (oldpath newpath : Bytes)
  | unlink (path : Bytes)
  | rmdir (path : Bytes)
  | rename (oldpath newpath : Bytes)
  | chmod (path : Bytes) (mode : UInt32)
  | chown (path : Bytes) (owner group : UInt32)
  | setxattr (path name value : Bytes) (flags : Int)
  | removexattr (path name : Bytes)
  | utimens (path : Bytes) (tv : Option (UInt64 × UInt64))
  | truncate (path : Bytes) (length : UInt64)
  | openFile (path : Bytes) (flags : UInt32)
  | read (fh : Nat) (nbyte offset : UInt64)
  | write (fh : Nat) (buf : Bytes) (offset : UInt64)
  | flush (fh : Nat)
  | fsync (fh : Nat) (datasync : Bool)
  | release (fh : Nat)
  deriving DecidableEq

namespace Request

/-- The result of a request that returns more than a number. -/
def code {α : Type} : Except Int α → Int
  | .ok _ => 0
  | .error code => code

/-- The code of a request, reduced to its result. -/
def prog (fs : FS) (ctx : Context) : Request → FsProg Int
  | getattr path => do
      let result ← fs.getattr ctx path
      pure (code result)
  | readdir path => do
      let result ← fs.readdir ctx path
      pure (code result)
  | readlink path bufsiz => do
      let result ← fs.readlink ctx path bufsiz
      pure (code result)
  | access path mode => fs.access ctx path mode
  | opendir path => fs.opendir ctx path
  | getxattr path name size => do
      let result ← fs.getxattr ctx path name size
      pure result.1
  | listxattr path size => do
      let result ← fs.listxattr ctx path size
      pure result.1
  | mknod path mode dev => fs.mknod ctx path mode dev
  | mkdir path mode => fs.mkdir ctx path mode
  | symlink oldpath newpath => fs.symlink ctx oldpath newpath
  | link oldpath newpath => fs.link ctx oldpath newpath
  | unlink path => fs.unlink ctx path
  | rmdir path => fs.rmdir ctx path
  | rename oldpath newpath => fs.rename ctx oldpath newpath
  | chmod path mode => fs.chmod ctx path mode
  | chown path owner group => fs.chown ctx path owner group
  | setxattr path name value flags => fs.setxattr ctx path name value flags
  | removexattr path name => fs.removexattr ctx path name
  | utimens path tv => fs.utimens ctx path tv
  | truncate path length => fs.truncate ctx path length
  | openFile path flags => do
      let result ← fs.openFile ctx path flags
      pure result.1
  | read fh nbyte offset => do
      let result ← FS.read fh nbyte offset
      pure result.1
  | write fh buf offset => FS.write fh buf offset
  | flush fh => FS.flush fh
  | fsync fh datasync => FS.fsync fh datasync
  | release fh => FS.release fh

end Request

/-- A request with its caller. -/
abbrev Call := Context × Request

/-- The world after a request. -/
def World.after (fs : FS) (world : World) (call : Call) : World :=
  (exec (call.2.prog fs call.1) world).2

end OfflineFs
