import Mathlib.Data.Finset.Basic
import SyscallReplayer.CInt

/-!
# The system calls of the replay

Every call that a module issues, with its arguments, and the effect of the
calls on the descriptors that the replayer has open. The kernel decides each
outcome by a reply; a reply that it could not give (a descriptor that is open
already, success on a descriptor that is not) counts as a failure, so that the
replies range over the behaviours of a kernel and over nothing else.
-/

namespace SyscallReplayer.ReplayKernel

def oCreat : BitVec 32 := 0o100
def oWronly : BitVec 32 := 1
def oTrunc : BitVec 32 := 0o1000
def oCloexec : BitVec 32 := 0x80000
def atFdcwd : Int := -100
def fDupfd : Int := 0
def fSetfd : Int := 2
def fGetlk : Int := 5
def fSetlk : Int := 6
def fSetlkw : Int := 7
def fDupfdCloexec : Int := 1030
def fdCloexec : Int := 1

/-- What a buffer holds: the bytes copied to its front, or a pattern. -/
inductive Fill
  | bytes (copied : List UInt8)
  | pattern (first : Char)
  | random
  | urandom
deriving DecidableEq

structure Buffer where
  size : Int
  fill : Fill
deriving DecidableEq

inductive FcntlArgument
  | value (argument : Int)
  | null
  | lock (type whence start length pid : Int)
deriving DecidableEq

inductive IoctlArgument
  | parameter (value : Int)
  | buffer (contents : Buffer)
deriving DecidableEq

/-- Times are kept in the units of the trace. -/
inductive SystemCall
  | open_ (pathname : String) (flags : Int) (mode : BitVec 32)
  | openat (dirfd : Int) (pathname : String) (flags : Int) (mode : BitVec 32)
  | creat (pathname : String) (mode : BitVec 32)
  | close (fd : Int)
  | read (fd nbytes : Int)
  | pread (fd nbytes offset : Int)
  | write (fd : Int) (data : Buffer) (nbytes : Int)
  | pwrite (fd : Int) (data : Buffer) (nbytes offset : Int)
  | lseek (fd offset whence : Int)
  | access (pathname : String) (mode : BitVec 32)
  | faccessat (dirfd : Int) (pathname : String) (mode : BitVec 32) (flags : Int)
  | chdir (pathname : String)
  | fchdir (fd : Int)
  | chroot (pathname : String)
  | truncate (pathname : String) (length : Int)
  | ftruncate (fd length : Int)
  | link (oldPathname newPathname : String)
  | linkat (oldFd : Int) (oldPathname : String) (newFd : Int) (newPathname : String)
      (flags : Int)
  | unlink (pathname : String)
  | unlinkat (dirfd : Int) (pathname : String) (flags : Int)
  | symlink (target link : String)
  | rmdir (pathname : String)
  | mkdir (pathname : String) (mode : BitVec 32)
  | mkdirat (dirfd : Int) (pathname : String) (mode : BitVec 32)
  | stat (pathname : String)
  | lstat (pathname : String)
  | fstat (fd : Int)
  | fstatat (dirfd : Int) (pathname : String) (flags : Int)
  | statfs (pathname : String)
  | fstatfs (fd : Int)
  | readlink (pathname : String) (nbytes : Int)
  | utime (pathname : String) (times : Option (Int × Int))
  | utimes (pathname : String) (times : Option (Int × Int))
  | utimensat (dirfd : Int) (pathname : Option String) (times : Option (Int × Int)) (flags : Int)
  | chmod (pathname : String) (mode : BitVec 32)
  | fchmod (fd : Int) (mode : BitVec 32)
  | fchmodat (dirfd : Int) (pathname : String) (mode : BitVec 32) (flags : Int)
  | chown (pathname : String) (owner group : Int)
  | readv (fd : Int) (iov : List (Int × Int)) (count : Int)
  | writev (fd : Int) (iov : List (Int × Buffer)) (count : Int)
  | rename (oldPathname newPathname : String)
  | fsync (fd : Int)
  | fdatasync (fd : Int)
  | fallocate (fd mode offset length : Int)
  | readahead (fd offset size : Int)
  | mknod (pathname : String) (mode : BitVec 32) (dev : Int)
  | pipe (array : Bool)
  | dup (fd : Int)
  | dup2 (oldFd newFd : Int)
  | dup3 (oldFd newFd flags : Int)
  | fcntl (fd command : Int) (argument : FcntlArgument)
  | mmap (address length protection flags fd offset : Int)
  | getdents (fd count : Int)
  | ioctl (fd request : Int) (argument : IoctlArgument)
  | setxattr (pathname name : String) (value : Buffer) (flags : Int)
  | lsetxattr (pathname name : String) (value : Buffer) (flags : Int)
  | fsetxattr (fd : Int) (name : String) (value : Buffer) (flags : Int)
deriving DecidableEq

/-- What the kernel decides about one call. -/
structure Reply where
  value : Int
  errno : Int
  pipefd : Int × Int
deriving DecidableEq

def isFd (fd : Int) : Bool :=
  0 ≤ fd && fd < 2 ^ 31

/-- A descriptor of at least `least` that is not open yet. -/
def opens (openFds : Finset Int) (fd least : Int) : Bool :=
  isFd fd && least ≤ fd && fd ∉ openFds

def opened (openFds : Finset Int) (fd least : Int) : Int × Finset Int :=
  if opens openFds fd least then (fd, insert fd openFds) else (-1, openFds)

def redirected (openFds : Finset Int) (allowed : Bool) (oldFd newFd : Int) : Int × Finset Int :=
  if allowed && oldFd ∈ openFds && isFd newFd then (newFd, insert newFd openFds)
  else (-1, openFds)

/-- The value of a call, and the descriptors that are open after it. -/
def outcome (openFds : Finset Int) (reply : Reply) : SystemCall → Int × Finset Int
  | .open_ _ _ _ | .openat _ _ _ _ | .creat _ _ => opened openFds reply.value 0
  | .dup fd => if fd ∈ openFds then opened openFds reply.value 0 else (-1, openFds)
  | .fcntl fd command argument =>
      if command = fDupfd ∨ command = fDupfdCloexec then
        match argument with
        | .value least =>
            if fd ∈ openFds then opened openFds reply.value least else (-1, openFds)
        | _ => (-1, openFds)
      else (reply.value, openFds)
  | .close fd =>
      if fd ∈ openFds then (if reply.value = 0 then 0 else -1, openFds.erase fd)
      else (-1, openFds)
  | .dup2 oldFd newFd => redirected openFds (reply.value ≠ -1) oldFd newFd
  | .dup3 oldFd newFd _ =>
      redirected openFds (reply.value ≠ -1 ∧ oldFd ≠ newFd) oldFd newFd
  | .pipe array =>
      let (readFd, writeFd) := reply.pipefd
      if array && reply.value = 0 && opens openFds readFd 0 &&
          opens (insert readFd openFds) writeFd 0 then
        (0, insert writeFd (insert readFd openFds))
      else (-1, openFds)
  | _ => (reply.value, openFds)

theorem opened_cases (openFds : Finset Int) (fd least : Int) :
    (opens openFds fd least = true ∧ opened openFds fd least = (fd, insert fd openFds)) ∨
      (opens openFds fd least = false ∧ opened openFds fd least = (-1, openFds)) := by
  unfold opened
  cases h : opens openFds fd least
  · exact .inr ⟨rfl, if_neg Bool.false_ne_true⟩
  · exact .inl ⟨rfl, if_pos rfl⟩

theorem opens_iff {openFds : Finset Int} {fd least : Int} :
    opens openFds fd least = true ↔ 0 ≤ fd ∧ fd < 2 ^ 31 ∧ least ≤ fd ∧ fd ∉ openFds := by
  simp [opens, isFd, and_assoc]

end SyscallReplayer.ReplayKernel
