import Mathlib.Tactic.SplitIfs
import SyscallReplayer.ReplayWorld
import SyscallReplayer.SysCallKind

/-!
# The modules that replay system calls

`prepareRow` copies the fields of a row into the members of a module, `move`
gives the members to a new object that waits in a queue, and `processRow`
replays. Data verification is off, so the members that only verification reads
are left out.
-/

namespace SyscallReplayer.ReplayModules

open CInt ReplayKernel ResourcesManager VirtualAddressSpace ReplayWorld

/-- The fields of the trace's records. -/
inductive Field
  | unique_id | time_called | time_returned | time_recorded | executing_pid
  | errno_number | return_value | descriptor | given_pathname | mode_value
  | open_value | flag_value | flags_value | offset | whence | bytes_requested
  | data_written | address | truncate_length | given_oldpathname
  | given_newpathname | given_oldname | given_newname | old_descriptor
  | new_descriptor | target_pathname | buffer_size | access_time | mod_time
  | new_owner | new_group | count | iov_number | iov_data_written
  | allocate_offset | allocate_len | readahead_off | readahead_size | type
  | dev | read_descriptor | write_descriptor | flags | command_value
  | argument_value | lock_type | lock_whence | lock_start | lock_length
  | lock_pid | exit_status | generated | continuation_number | start_address
  | length | protection_value | request | parameter | ioctl_buffer
  | child_stack_address | parent_thread_id | child_thread_id | new_tls
  | xattr_name | value_written | value_size | domain | protocol | epoll_size
deriving DecidableEq

/-- One row of an extent; a text ends before its terminating zero. -/
structure Row where
  int : Field → Int
  text : Field → String
  bytes : Field → List UInt8
  isNull : Field → Bool

structure Options where
  warnLevel : Nat
  patternData : String
deriving DecidableEq

def defaultMode : Nat := 0
def abortMode : Nat := 2

/-- The common members of a module. -/
structure Common where
  uniqueId : Int
  timeCalled : Int
  timeReturned : Int
  timeRecorded : Int
  executingPid : Int
  errorNo : Int
  returnVal : Int
deriving DecidableEq

/-- The members of each class, `none` where a class has none of its own. -/
inductive Members
  | none
  | open_ (pathname : String) (modeVal : BitVec 32) (flags tracedFd : Int)
  | close (descVal : Int)
  | read (nbytes tracedFd : Int)
  | pread (nbytes tracedFd off : Int)
  | mmappread (nbytes tracedFd off ptr : Int)
  | write (dataBuffer : Buffer) (nbytes tracedFd : Int)
  | pwrite (dataBuffer : Buffer) (nbytes tracedFd off : Int)
  | lseek (descriptorVal offset whence : Int)
  | access (pathname : String) (modeValue : BitVec 32)
  | chdir (pathname : String)
  | fchdir (fileDescriptor : Int)
  | chroot (pathname : String)
  | link (oldPathname newPathname : String)
  | unlink (pathname : String)
  | rmdir (pathname : String)
  | mkdir (pathname : String) (modeVal : BitVec 32)
  | stat (pathname : String)
  | lstat (pathname : String)
  | fstat (descriptorVal : Int)
  | fstatat (tracedFd flagValue : Int) (pathname : String)
  | statfs (pathname : String)
  | readlink (nbytes : Int) (pathname : String)
  | utime (pathname : String) (accessT modT : Int)
  | chmod (pathname : String) (modeVal : BitVec 32)
  | fchmod (tracedFd : Int) (modeValue : BitVec 32)
  | chown (pathname : String) (newOwner newGroup : Int)
  | rename (oldPathname newPathname : String)
  | fsync (tracedFd simulatedRetVal : Int)
  | fdatasync (tracedFd simulatedRetVal : Int)
  | fallocate (tracedFd modeVal offset length simulatedRetVal : Int)
  | readahead (tracedFd offset size simulatedRetVal : Int)
  | pipe (readFd writeFd : Int)
  | dup (fileDescriptor : Int)
  | dup2 (oldFileDescriptor newFileDescriptor : Int)
  | dup3 (oldFileDescriptor newFileDescriptor flags : Int)
  | fcntl (tracedFd commandVal argVal lockTypeVal lockWhenceVal lockStartVal lockLengthVal
      lockPidVal simulatedRetVal : Int)
  | exit (exitStat generated : Int)
  | execve (continuationNum retVal : Int)
  | mmap (startAddress sizeOfMap protectionVal flagsVal descriptorVal offsetVal
      mmapReturnVal : Int)
  | munmap (startAddress sizeOfMap : Int)
  | getdents (tracedFd countVal returnVal : Int)
  | ioctl (fileDescriptor req params : Int) (buffer : Option Buffer) (size : Int)
  | clone (flagVal childStackAddrVal parentTidVal childTidVal newTlsVal : Int)
  | vfork
  | umask (mode : BitVec 32)
  | ftruncate (tracedFd length : Int)
  | socket (domain type protocol : Int)
  | socketpair (readFd writeFd : Int)
  | epoll_create (size : Int)
  | accept (socketFd : Int)
  | accept4 (socketFd : Int)
deriving DecidableEq

structure ReplayModule where
  sysCallName : SysCallKind
  common : Common
  replayedRetVal : Int
  members : Members
deriving DecidableEq

def ReplayModule.pid (m : ReplayModule) : Int :=
  m.common.executingPid

/-! ## Preparing a row -/

/-- `SystemCallTraceReplayModule::prepareRow`. -/
def prepareCommon (row : Row) : Common where
  uniqueId := row.int .unique_id
  timeCalled := uint64 (row.int .time_called)
  timeReturned := uint64 (row.int .time_returned)
  timeRecorded := uint64 (row.int .time_recorded)
  executingPid := row.int .executing_pid
  errorNo := row.int .errno_number
  returnVal := row.int .return_value

def mode (row : Row) : BitVec 32 :=
  BitVec.ofInt 32 (row.int .mode_value)

/-- A buffer of `size` bytes whose front is copied from the row. -/
def copied (size count : Int) (data : List UInt8) : Buffer :=
  ⟨size, .bytes (data.take count.toNat)⟩

def prepareReadMembers (row : Row) : Option Int :=
  newBuffer (int32 (row.int .bytes_requested))

def prepareWriteMembers (row : Row) : Option (Buffer × Int) := do
  let nbytes := uint64 (row.int .bytes_requested)
  if nbytes = 0 then return (⟨0, .bytes []⟩, 0)
  else
    let size ← newBuffer nbytes
    return (copied size (int32 (row.int .return_value)) (row.bytes .data_written), nbytes)

/-- The module has replayed nothing when `prepareRow` copies as many bytes of the
buffer as its replayed value says, which is none. -/
def prepareIoctlBuffer (row : Row) (size : Int) : Option (Option Buffer) :=
  if row.isNull .ioctl_buffer then some none
  else (newBuffer size).map fun size => some (copied size 0 (row.bytes .ioctl_buffer))

/-- The continuation number that `execve` ends with: that of the last row read. -/
def continuationNumber : Int → List Row → Int
  | current, [] => current
  | current, row :: rows =>
      if current ≥ 0 then continuationNumber (row.int .continuation_number) rows else current

/-- The members a row gives to the module of each system call. `held` is the
return value that the module still holds from the row before. -/
def prepareMembers (kind : SysCallKind) (held : Int) (row : Row) (rest : List Row) :
    Option Members :=
  match kind with
  | .open_ | .openat =>
      some (.open_ (row.text .given_pathname) (mode row) (row.int .open_value)
        (row.int .return_value))
  | .close => some (.close (row.int .descriptor))
  | .read => do
      return .read (← prepareReadMembers row) (row.int .descriptor)
  | .pread => do
      return .pread (← prepareReadMembers row) (row.int .descriptor) (row.int .offset)
  | .mmappread => do
      return .mmappread (← prepareReadMembers row) (row.int .descriptor) (row.int .offset)
        (uint64 (row.int .address))
  | .write => do
      let (dataBuffer, nbytes) ← prepareWriteMembers row
      return .write dataBuffer nbytes (row.int .descriptor)
  | .pwrite | .mmappwrite => do
      let (dataBuffer, nbytes) ← prepareWriteMembers row
      return .pwrite dataBuffer nbytes (row.int .descriptor) (row.int .offset)
  | .lseek => some (.lseek (row.int .descriptor) (row.int .offset) (row.int .whence))
  | .access | .faccessat => some (.access (row.text .given_pathname) (mode row))
  | .chdir => some (.chdir (row.text .given_pathname))
  | .fchdir => some (.fchdir (row.int .descriptor))
  | .chroot => some (.chroot (row.text .given_pathname))
  | .link | .linkat =>
      some (.link (row.text .given_oldpathname) (row.text .given_newpathname))
  | .unlink | .unlinkat => some (.unlink (row.text .given_pathname))
  | .rmdir => some (.rmdir (row.text .given_pathname))
  | .mkdir | .mkdirat => some (.mkdir (row.text .given_pathname) (mode row))
  | .stat => some (.stat (row.text .given_pathname))
  | .lstat => some (.lstat (row.text .given_pathname))
  | .fstat => some (.fstat (row.int .descriptor))
  | .fstatat =>
      some (.fstatat (row.int .descriptor) (row.int .flags_value) (row.text .given_pathname))
  | .statfs => some (.statfs (row.text .given_pathname))
  | .readlink => do
      let nbytes ← newBuffer (row.int .buffer_size)
      return .readlink nbytes (row.text .given_pathname)
  | .utime | .utimes | .utimensat =>
      some (.utime (row.text .given_pathname)
        (if row.isNull .access_time then -1 else row.int .access_time)
        (if row.isNull .mod_time then -1 else row.int .mod_time))
  | .chmod => some (.chmod (row.text .given_pathname) (mode row))
  | .fchmod | .fchmodat => some (.fchmod (row.int .descriptor) (mode row))
  | .chown =>
      some (.chown (row.text .given_pathname) (row.int .new_owner % 2 ^ 32)
        (row.int .new_group % 2 ^ 32))
  | .rename => some (.rename (row.text .given_oldname) (row.text .given_newname))
  | .fsync => some (.fsync (row.int .descriptor) (int32 (row.int .return_value)))
  | .fdatasync => some (.fdatasync (row.int .descriptor) (int32 (row.int .return_value)))
  | .fallocate =>
      some (.fallocate (row.int .descriptor) (row.int .mode_value) (row.int .allocate_offset)
        (row.int .allocate_len) (int32 (row.int .return_value)))
  | .readahead =>
      some (.readahead (row.int .descriptor) (row.int .readahead_off)
        (row.int .readahead_size) (int32 (row.int .return_value)))
  | .pipe => some (.pipe (row.int .read_descriptor) (row.int .write_descriptor))
  | .dup => some (.dup (row.int .descriptor))
  | .dup2 => some (.dup2 (row.int .old_descriptor) (row.int .new_descriptor))
  | .dup3 =>
      some (.dup3 (row.int .old_descriptor) (row.int .new_descriptor) (row.int .flags))
  | .fcntl =>
      some (.fcntl (row.int .descriptor) (row.int .command_value) (row.int .argument_value)
        (row.int .lock_type) (row.int .lock_whence) (row.int .lock_start)
        (row.int .lock_length) (row.int .lock_pid) (int32 (row.int .return_value)))
  | .exit => some (.exit (row.int .exit_status) (row.int .generated))
  | .execve =>
      some (.execve (continuationNumber (row.int .continuation_number) (row :: rest)) held)
  | .mmap =>
      some (.mmap (row.int .start_address) (row.int .length) (row.int .protection_value)
        (row.int .flags_value) (row.int .descriptor) (row.int .offset)
        (uint64 (row.int .return_value)))
  | .munmap => some (.munmap (row.int .start_address) (row.int .length))
  | .getdents =>
      some (.getdents (row.int .descriptor) (row.int .count) (row.int .return_value))
  | .ioctl => do
      let size := uint64 (row.int .buffer_size)
      let buffer ← prepareIoctlBuffer row size
      return .ioctl (row.int .descriptor) (row.int .request % 2 ^ 32)
        (uint64 (row.int .parameter)) buffer size
  | .clone =>
      some (.clone (row.int .flag_value) (row.int .child_stack_address)
        (row.int .parent_thread_id) (row.int .child_thread_id) (row.int .new_tls))
  | .vfork => some .vfork
  | .umask => some (.umask (mode row))
  | .ftruncate => some (.ftruncate (row.int .descriptor) (row.int .truncate_length))
  | .socket =>
      some (.socket (row.int .domain) (row.int .type) (row.int .protocol))
  | .socketpair => some (.socketpair (row.int .read_descriptor) (row.int .write_descriptor))
  | .epoll_create => some (.epoll_create (row.int .epoll_size))
  | .accept => some (.accept (row.int .descriptor))
  | .accept4 => some (.accept4 (row.int .descriptor))
  | .truncate | .creat | .symlink | .fstatfs | .mknod | .readv | .writev | .setxattr
  | .lsetxattr | .fsetxattr => some .none

/-- `prepareRow` keeps the traced value as the replayed one in these modules. -/
def keepsReturnValue : SysCallKind → Bool
  | .close | .read | .pread | .mmappread | .write | .pwrite | .mmappwrite | .lseek
  | .fstat | .readlink => true
  | _ => false

/-- The common members after `prepareRow`; those of `exit` and `execve` set the
time returned themselves. -/
def rowCommon (kind : SysCallKind) (row : Row) : Common :=
  if kind = .exit then { prepareCommon row with timeReturned := ulongMax }
  else if kind = .execve then
    { prepareCommon row with timeReturned := (prepareCommon row).timeRecorded }
  else prepareCommon row

@[simp] theorem rowCommon_returnVal (kind : SysCallKind) (row : Row) :
    (rowCommon kind row).returnVal = row.int .return_value := by
  unfold rowCommon
  split_ifs <;> rfl

@[simp] theorem rowCommon_executingPid (kind : SysCallKind) (row : Row) :
    (rowCommon kind row).executingPid = row.int .executing_pid := by
  unfold rowCommon
  split_ifs <;> rfl

@[simp] theorem rowCommon_errorNo (kind : SysCallKind) (row : Row) :
    (rowCommon kind row).errorNo = row.int .errno_number := by
  unfold rowCommon
  split_ifs <;> rfl

/-- A module after `prepareRow`. -/
def prepareRow (kind : SysCallKind) (held : Int) (row : Row) (rest : List Row) :
    Option ReplayModule := do
  let members ← prepareMembers kind held row rest
  return {
    sysCallName := kind
    common := rowCommon kind row
    replayedRetVal := if keepsReturnValue kind then int32 (row.int .return_value) else 0
    members := members }

/-! ## Moving a module -/

/-- What `setMove` keeps of the members: parameters narrower than the members
cut them down. -/
def setMove : Members → Members
  | .open_ pathname modeVal flags tracedFd => .open_ pathname modeVal flags (int32 tracedFd)
  | .write dataBuffer nbytes tracedFd => .write dataBuffer (uint64 (int32 nbytes)) tracedFd
  | .pwrite dataBuffer nbytes tracedFd off =>
      .pwrite dataBuffer (uint64 (int32 nbytes)) tracedFd off
  | .getdents tracedFd countVal returnVal => .getdents tracedFd countVal (int32 returnVal)
  | members => members

/-- The class of the object that `move` constructs; a class without a `move`
of its own has that of its parent, and the base class has none. -/
def movesTo : SysCallKind → Option SysCallKind
  | .openat => some .open_
  | .faccessat => some .access
  | .linkat => some .link
  | .unlinkat => some .unlink
  | .mkdirat => some .mkdir
  | .fchmodat => some .fchmod
  | .utimes | .utimensat => some .utime
  | .mmappwrite => some .pwrite
  | .truncate | .creat | .symlink | .fstatfs | .mknod | .readv | .writev | .setxattr
  | .lsetxattr | .fsetxattr => none
  | kind => some kind

/-- `setCommon` takes the return value as an `int`. -/
def setCommon (c : Common) : Common :=
  { c with returnVal := int32 c.returnVal }

def move (m : ReplayModule) : Option ReplayModule :=
  (movesTo m.sysCallName).map fun kind =>
    { sysCallName := kind
      common := setCommon m.common
      replayedRetVal := 0
      members := setMove m.members }

/-! ## Replaying a row -/

/-- `real` on the replayed descriptor, `simulated` where there is none. -/
def onDescriptor (pid tracedFd : Int) (simulated : Replay Int) (real : Int → Replay Int) :
    Replay Int := do
  let fd ← getFd pid tracedFd
  if fd = syscallSimulated then simulated else real fd

/-- A pathname that is looked up from the directory descriptor. -/
def relative (pathname : String) : Bool :=
  pathname.toList.head? ≠ some '/'

/-- The calls with a directory descriptor. -/
def atDirectory (pid tracedFd : Int) (pathname : String) (simulated : Int)
    (real : Int → Replay Int) : Replay Int := do
  let dirfd ← getFd pid tracedFd
  if dirfd = syscallSimulated ∧ relative pathname then return int32 simulated
  else real dirfd

def openProcessRow (pid : Int) (pathname : String) (modeVal : BitVec 32)
    (flags tracedFd : Int) : Replay Int := do
  let mode ← getMode pid modeVal
  let replayed ← intSyscall (.open_ pathname flags mode)
  if tracedFd ≤ -1 ∧ replayed ≠ -1 then
    let _ ← syscall (.close replayed)
  else
    addFd pid tracedFd replayed (BitVec.ofInt 32 flags)
  return replayed

def openatProcessRow (pid : Int) (row : Row) : Replay Int := do
  let dirfd ← getFd pid (row.int .descriptor)
  let mode ← getMode pid (mode row)
  let tracedFd := row.int .return_value
  if dirfd = syscallSimulated ∧ relative (row.text .given_pathname) then
    return int32 tracedFd
  else
    let replayed ← intSyscall
      (.openat dirfd (row.text .given_pathname) (row.int .open_value) mode)
    if tracedFd = -1 ∧ replayed ≠ -1 then
      let _ ← syscall (.close replayed)
    else
      addFd pid tracedFd replayed (BitVec.ofInt 32 (row.int .open_value))
    return replayed

def creatProcessRow (pid : Int) (row : Row) : Replay Int := do
  let mode ← getMode pid (mode row)
  let replayed ← intSyscall (.creat (row.text .given_pathname) mode)
  addFd pid (row.int .return_value) replayed (oCreat ||| oWronly ||| oTrunc)
  return replayed

def closeProcessRow (pid replayedRetVal descVal : Int) : Replay Int := do
  let fd ← removeFd pid descVal
  if fd = syscallSimulated then return replayedRetVal
  else intSyscall (.close fd)

/-- `processRow` without its loop over the nodes that the address lies in, which issues
no call: `deleteBuffers` has what it does to the buffer. -/
def mmappreadProcessRow (pid returnValue replayedRetVal tracedFd : Int) : Replay Int :=
  onDescriptor pid tracedFd (pure (int32 returnValue)) fun _ => do
    modifyArea pid id
    return replayedRetVal

def patternFill (patternData : String) : Fill :=
  if patternData = "random" then .random
  else if patternData = "urandom" then .urandom
  else .pattern patternData.front

def writeProcessRow (opts : Options) (pid replayedRetVal : Int) (dataBuffer : Buffer)
    (nbytes tracedFd : Int) : Replay Int :=
  onDescriptor pid tracedFd (pure replayedRetVal) fun fd =>
    let data :=
      if opts.patternData.isEmpty then dataBuffer
      else { dataBuffer with fill := patternFill opts.patternData }
    intSyscall (.write fd data nbytes)

/-- `processRow` up to its `delete[]` of the buffer, for which see `deleteBuffers`. -/
def pwriteProcessRow (opts : Options) (pid returnValue : Int) (dataBuffer : Buffer)
    (nbytes tracedFd off : Int) : Replay Int :=
  onDescriptor pid tracedFd (pure (int32 returnValue)) fun fd => do
    if opts.patternData.isEmpty then intSyscall (.pwrite fd dataBuffer nbytes off)
    else
      let size ← (newBuffer nbytes : Option Int)
      intSyscall (.pwrite fd ⟨size, patternFill opts.patternData⟩ nbytes off)

def utimeProcessRow (pathname : String) (accessT modT : Int) : Replay Int :=
  if accessT ≠ -1 ∧ modT ≠ -1 then intSyscall (.utime pathname none)
  else intSyscall (.utime pathname (some (accessT, modT)))

/-- The times of `utimes` and `utimensat`. -/
def rowTimes (row : Row) : Option (Int × Int) :=
  if row.isNull .access_time && row.isNull .mod_time then none
  else some (row.int .access_time, row.int .mod_time)

def utimensatProcessRow (pid : Int) (row : Row) : Replay Int := do
  let dirfd ← getFd pid (row.int .descriptor)
  let pathname := if row.isNull .given_pathname then none else some (row.text .given_pathname)
  if dirfd = syscallSimulated ∧ pathname.any relative then return int32 (row.int .return_value)
  else intSyscall (.utimensat dirfd pathname (rowTimes row) (row.int .flag_value))

def fchmodProcessRow (pid returnValue tracedFd : Int) (modeValue : BitVec 32) : Replay Int := do
  let fd ← getFd pid tracedFd
  let mode ← getMode pid modeValue
  if fd = syscallSimulated then return int32 returnValue
  else intSyscall (.fchmod fd mode)

def linkatProcessRow (pid : Int) (row : Row) : Replay Int := do
  let oldFd ← getFd pid (row.int .old_descriptor)
  let newFd ← getFd pid (row.int .new_descriptor)
  let oldPathname := row.text .given_oldpathname
  let newPathname := row.text .given_newpathname
  if (oldFd = syscallSimulated ∧ relative oldPathname) ∨
      (newFd = syscallSimulated ∧ relative newPathname) then
    return int32 (row.int .return_value)
  else
    intSyscall (.linkat oldFd oldPathname newFd newPathname (row.int .flag_value))

def pipeProcessRow (pid readFd writeFd : Int) : Replay Int := do
  let replayed ← intSyscall (.pipe !(readFd = 0 && writeFd = 0))
  addFd pid readFd syscallSimulated 0
  addFd pid writeFd syscallSimulated 0
  return replayed

def dupProcessRow (pid returnValue fileDescriptor : Int) : Replay Int := do
  let fd ← getFd pid fileDescriptor
  let fdFlags ← getFlags pid fileDescriptor
  let replayed ← if fd = syscallSimulated then pure (int32 returnValue)
    else intSyscall (.dup fd)
  addFd pid returnValue replayed (fdFlags &&& ~~~oCloexec)
  return replayed

/-- `dup2` and `dup3`: the new descriptor's entry goes, and what it held is where
the old one is duplicated to. -/
def duplicateTo (pid returnValue oldFileDescriptor newFileDescriptor : Int)
    (newFdFlags : BitVec 32 → BitVec 32) (call : Int → Int → SystemCall) : Replay Int := do
  let oldFd ← getFd pid oldFileDescriptor
  let oldFdFlags ← getFlags pid oldFileDescriptor
  let replayedNewFd ← if ← hasFd pid newFileDescriptor then
      removeFd pid newFileDescriptor
    else pure syscallSimulated
  if oldFd = syscallSimulated then
    addFd pid (int32 returnValue) syscallSimulated (newFdFlags oldFdFlags)
    return int32 returnValue
  else
    let target ← if replayedNewFd = syscallSimulated then generateUnusedFd pid
      else pure replayedNewFd
    let replayed ← intSyscall (call oldFd target)
    addFd pid returnValue replayed (newFdFlags oldFdFlags)
    return replayed

def dup2ProcessRow (pid returnValue oldFileDescriptor newFileDescriptor : Int) : Replay Int :=
  duplicateTo pid returnValue oldFileDescriptor newFileDescriptor
    (fun flags => flags &&& ~~~oCloexec) .dup2

def dup3ProcessRow (pid returnValue oldFileDescriptor newFileDescriptor flags : Int) :
    Replay Int :=
  duplicateTo pid returnValue oldFileDescriptor newFileDescriptor (fun fdFlags => fdFlags)
    fun oldFd newFd => .dup3 oldFd newFd flags

def int16 (x : Int) : Int :=
  x.bmod (2 ^ 16)

def fcntlArgument (command argVal lockTypeVal lockWhenceVal lockStartVal lockLengthVal
    lockPidVal : Int) : FcntlArgument :=
  if command = fSetlk ∨ command = fSetlkw ∨ command = fGetlk then
    if int16 lockTypeVal = 0 ∧ int16 lockWhenceVal = 0 ∧ lockStartVal = 0 ∧
        lockLengthVal = 0 ∧ lockPidVal = 0 then .null
    else .lock (int16 lockTypeVal) (int16 lockWhenceVal) lockStartVal lockLengthVal lockPidVal
  else .value argVal

/-- What `fcntl` does to the table of the process. -/
def fcntlTable (pid returnValue replayed tracedFd command argVal : Int) : Replay Unit := do
  if command = fDupfd ∨ command = fDupfdCloexec then
    let fdFlags ← getFlags pid tracedFd
    let cleared := fdFlags &&& ~~~oCloexec
    addFd pid returnValue replayed
      (if command = fDupfdCloexec then cleared ||| oCloexec else cleared)
  else if command = fSetfd then
    if argVal = fdCloexec then addFlags pid tracedFd oCloexec

/-- A simulated descriptor only presets the replayed value; the call is made all
the same. -/
def fcntlProcessRow (pid returnValue tracedFd command argVal lockTypeVal lockWhenceVal
    lockStartVal lockLengthVal lockPidVal : Int) : Replay Int := do
  let fd ← getFd pid tracedFd
  let replayed ← intSyscall (.fcntl fd command
    (fcntlArgument command argVal lockTypeVal lockWhenceVal lockStartVal lockLengthVal
      lockPidVal))
  fcntlTable pid returnValue replayed tracedFd command argVal
  return replayed

def exitProcessRow (pid replayedRetVal : Int) : Replay Int := do
  removeUmask pid
  let fdsToClose ← removeFdTable pid
  fdsToClose.forM fun fd => do
    let _ ← syscall (.close fd)
  return replayedRetVal

def closesOnExec (flags : BitVec 32) : Bool :=
  flags &&& oCloexec ≠ 0

def execveEntry (pid retVal tracedFd : Int) : Replay Unit := do
  let flags ← getFlags pid tracedFd
  let replayedFd ← getFd pid tracedFd
  if closesOnExec flags ∧ retVal ≥ 0 then
    let _ ← removeFd pid tracedFd
  if replayedFd = syscallSimulated then
    if closesOnExec flags then
      let _ ← removeFd pid tracedFd

def execveProcessRow (pid replayedRetVal retVal : Int) : Replay Int := do
  let tracedFds ← getAllTracedFds pid
  tracedFds.forM (execveEntry pid retVal)
  return replayedRetVal

def mmapProcessRow (pid replayedRetVal startAddress sizeOfMap protectionVal flagsVal
    descriptorVal offsetVal mmapReturnVal : Int) : Replay Int := do
  let fd ← getFd pid descriptorVal
  let replayedAddr ← syscall
    (.mmap startAddress sizeOfMap protectionVal flagsVal fd offsetVal)
  let tracedAddr := BitVec.ofInt 64 mmapReturnVal
  if startAddress ≠ 0 ∧ BitVec.ofInt 64 replayedAddr ≠ tracedAddr then
    return replayedRetVal
  else
    modifyArea pid fun vma => insertVMNode vma
      { tracedStartAddress := tracedAddr
        replayedStartAddress := BitVec.ofInt 64 replayedAddr
        mapSize := BitVec.ofInt 64 sizeOfMap
        tracedFd := descriptorVal
        replayedFd := fd }
    return replayedRetVal

def munmapProcessRow (pid replayedRetVal startAddress sizeOfMap : Int) : Replay Int := do
  modifyArea pid fun vma =>
    deleteVMNode vma (BitVec.ofInt 64 startAddress) (BitVec.ofInt 64 sizeOfMap)
  return replayedRetVal

def getdentsProcessRow (pid tracedFd countVal returnVal : Int) : Replay Int :=
  onDescriptor pid tracedFd (pure (int32 returnVal)) fun fd => do
    let count ← (newBuffer (int32 countVal) : Option Int)
    intSyscall (.getdents fd count)

def ioctlArgument (params : Int) : Option Buffer → IoctlArgument
  | none => .parameter (int32 params)
  | some buffer => .buffer buffer

def cloneFs : BitVec 32 := 0x200
def cloneFiles : BitVec 32 := 0x400
def cloneThread : BitVec 32 := 0x10000

def startThread (pid : Int) : Replay Unit := fun w =>
  some ((), { w with threads := w.threads ++ [pid] })

/-- `clone` and `vfork`: the child gets its tables and its thread. -/
def startProcess (ppid pid : Int) (sharedUmask sharedFiles : Bool) : Replay Unit := do
  cloneUmask ppid pid sharedUmask
  cloneFdTable ppid pid sharedFiles
  startThread pid

def cloneProcessRow (ppid returnValue replayedRetVal flagVal : Int) : Replay Int := do
  let flags := BitVec.ofInt 32 flagVal
  startProcess ppid (int32 returnValue)
    (flags &&& cloneFs ≠ 0 || flags &&& cloneThread ≠ 0)
    (flags &&& cloneFiles ≠ 0 || flags &&& cloneThread ≠ 0)
  return replayedRetVal

def vforkProcessRow (ppid returnValue replayedRetVal : Int) : Replay Int := do
  startProcess ppid (int32 returnValue) false false
  return replayedRetVal

/-- The calls that make a descriptor the replay only simulates. -/
def simulateDescriptor (pid tracedFd : Int) (flags : BitVec 32) : Replay Int := do
  if tracedFd ≠ syscallFailure then
    addFd pid tracedFd syscallSimulated flags
    return tracedFd
  else return -1

def socketProcessRow (pid returnValue type : Int) : Replay Int :=
  simulateDescriptor pid (int32 returnValue) (BitVec.ofInt 32 type)

def epollCreateProcessRow (pid returnValue : Int) : Replay Int :=
  simulateDescriptor pid (int32 returnValue) 0

def acceptProcessRow (pid returnValue : Int) : Replay Int :=
  simulateDescriptor pid (int32 returnValue) 0

def accept4ProcessRow (pid returnValue : Int) : Replay Int := do
  let tracedFd := int32 returnValue
  if tracedFd > 0 then
    addFd pid tracedFd syscallSimulated oCloexec
  return tracedFd

def socketpairProcessRow (pid replayedRetVal readFd writeFd : Int) : Replay Int := do
  addFd pid readFd syscallSimulated 0
  addFd pid writeFd syscallSimulated 0
  return replayedRetVal

/-- The buffers of `readv`, from the rows after the first. -/
def readvIov (row : Row) (rest : List Row) : List (Int × Int) :=
  if row.int .iov_number = -1 then
    (rest.take (row.int .count).toNat).map fun r =>
      (r.int .iov_number, uint64 (r.int .bytes_requested))
  else []

def readvProcessRow (pid : Int) (row : Row) (rest : List Row) : Replay Int := do
  let fd ← getFd pid (row.int .descriptor)
  let count ← (newBuffer (row.int .count) : Option Int)
  if fd = syscallSimulated then return int32 (row.int .return_value)
  else intSyscall (.readv fd (readvIov row rest) count)

def writevIov (opts : Options) (row : Row) (rest : List Row) : List (Int × Buffer) :=
  if row.int .iov_number = -1 then
    (rest.take (row.int .count).toNat).map fun r =>
      (r.int .iov_number, ⟨uint64 (r.int .bytes_requested),
        if opts.patternData.isEmpty then .bytes (r.bytes .iov_data_written)
        else patternFill opts.patternData⟩)
  else []

def writevProcessRow (opts : Options) (pid : Int) (row : Row) (rest : List Row) :
    Replay Int := do
  let fd ← getFd pid (row.int .descriptor)
  let count ← (newBuffer (row.int .count) : Option Int)
  if fd = syscallSimulated then return int32 (row.int .return_value)
  else intSyscall (.writev fd (writevIov opts row rest) count)

/-- The value that the extended attribute calls pass. -/
def xattrValue (patternData : String) (row : Row) : Option Buffer :=
  let size := uint64 (row.int .value_size)
  if patternData.isEmpty then some ⟨size, .bytes (row.bytes .value_written)⟩
  else (newBuffer size).map fun size => ⟨size, patternFill patternData⟩

/-- The `pattern_data_` of `setxattr` and `lsetxattr` at a row: `0` is put into the member
where the trace has no value. In the source it stays there, but without a `move()` no
object of these classes is executed on a second row. -/
def xattrPattern (opts : Options) (row : Row) : String :=
  if row.isNull .value_written && opts.patternData.isEmpty then "0" else opts.patternData

/-- The classes whose `processRow` reads the row where the series stands. -/
def processCurrentRow (opts : Options) (m : ReplayModule) (row : Row) (rest : List Row) :
    Option (Replay Int) :=
  let pid := m.pid
  let pathname := row.text .given_pathname
  match m.sysCallName with
  | .openat => some (openatProcessRow pid row)
  | .creat => some (creatProcessRow pid row)
  | .faccessat => some do
      let replayedFd ← getFd pid (row.int .descriptor)
      let mode ← getMode pid (mode row)
      if replayedFd = syscallSimulated ∧ relative pathname then
        return int32 (row.int .return_value)
      else intSyscall (.faccessat replayedFd pathname mode (row.int .flags_value))
  | .mkdirat => some do
      let dirfd ← getFd pid (row.int .descriptor)
      let mode ← getMode pid (mode row)
      if dirfd = syscallSimulated ∧ relative pathname then
        return int32 (row.int .return_value)
      else intSyscall (.mkdirat dirfd pathname mode)
  | .fchmodat => some do
      let fd ← getFd pid (row.int .descriptor)
      let mode ← getMode pid (mode row)
      if fd = syscallSimulated ∧ relative pathname then
        return int32 (row.int .return_value)
      else intSyscall (.fchmodat fd pathname mode (row.int .flag_value))
  | .unlinkat => some <| atDirectory pid (row.int .descriptor) pathname
      (row.int .return_value) fun dirfd =>
        intSyscall (.unlinkat dirfd pathname (row.int .flag_value))
  | .linkat => some (linkatProcessRow pid row)
  | .utimes => some (intSyscall (.utimes pathname (rowTimes row)))
  | .utimensat => some (utimensatProcessRow pid row)
  | .truncate => some (intSyscall (.truncate pathname (row.int .truncate_length)))
  | .symlink => some (intSyscall (.symlink (row.text .target_pathname) pathname))
  | .fstatfs => some <| onDescriptor pid (row.int .descriptor)
      (pure (int32 (row.int .return_value))) fun fd => intSyscall (.fstatfs fd)
  | .mknod => some do
      let mode ← getMode pid (mode row)
      intSyscall (.mknod pathname mode (row.int .dev))
  | .readv => some (readvProcessRow pid row rest)
  | .writev => some (writevProcessRow opts pid row rest)
  | .setxattr => some do
      let value ← xattrValue (xattrPattern opts row) row
      intSyscall (.setxattr pathname (row.text .xattr_name) value (row.int .flag_value))
  | .lsetxattr => some do
      let value ← xattrValue (xattrPattern opts row) row
      intSyscall (.lsetxattr pathname (row.text .xattr_name) value (row.int .flag_value))
  | .fsetxattr => some <| onDescriptor pid (row.int .descriptor)
      (pure (int32 (row.int .return_value))) fun fd => do
        let value ← xattrValue opts.patternData row
        intSyscall (.fsetxattr fd (row.text .xattr_name) value (row.int .flag_value))
  | _ => none

/-- The classes whose `processRow` reads the members. -/
def processMembers (opts : Options) (m : ReplayModule) : Replay Int :=
  let pid := m.pid
  let returnValue := m.common.returnVal
  let replayed := m.replayedRetVal
  match m.members with
  | .none => pure replayed
  | .open_ pathname modeVal flags tracedFd =>
      openProcessRow pid pathname modeVal flags tracedFd
  | .close descVal => closeProcessRow pid replayed descVal
  | .read nbytes tracedFd =>
      onDescriptor pid tracedFd (pure replayed) fun fd => intSyscall (.read fd nbytes)
  | .pread nbytes tracedFd off =>
      onDescriptor pid tracedFd (pure (int32 returnValue)) fun fd =>
        intSyscall (.pread fd nbytes off)
  | .mmappread _ tracedFd _ _ => mmappreadProcessRow pid returnValue replayed tracedFd
  | .write dataBuffer nbytes tracedFd =>
      writeProcessRow opts pid replayed dataBuffer nbytes tracedFd
  | .pwrite dataBuffer nbytes tracedFd off =>
      pwriteProcessRow opts pid returnValue dataBuffer nbytes tracedFd off
  | .lseek descriptorVal offset whence =>
      onDescriptor pid descriptorVal (pure replayed) fun fd =>
        intSyscall (.lseek fd offset whence)
  | .access pathname modeValue => do
      let mode ← getMode pid modeValue
      intSyscall (.access pathname mode)
  | .chdir pathname => intSyscall (.chdir pathname)
  | .fchdir fileDescriptor =>
      onDescriptor pid fileDescriptor (pure (int32 returnValue)) fun fd =>
        intSyscall (.fchdir fd)
  | .chroot _ => pure replayed
  | .link oldPathname newPathname => intSyscall (.link oldPathname newPathname)
  | .unlink pathname => intSyscall (.unlink pathname)
  | .rmdir pathname => intSyscall (.rmdir pathname)
  | .mkdir pathname modeVal => do
      let mode ← getMode pid modeVal
      intSyscall (.mkdir pathname mode)
  | .stat pathname => intSyscall (.stat pathname)
  | .lstat pathname => intSyscall (.lstat pathname)
  | .fstat descriptorVal =>
      onDescriptor pid descriptorVal (pure replayed) fun fd => intSyscall (.fstat fd)
  | .fstatat tracedFd flagValue pathname =>
      onDescriptor pid tracedFd (pure (int32 returnValue)) fun fd =>
        intSyscall (.fstatat fd pathname flagValue)
  | .statfs pathname => intSyscall (.statfs pathname)
  | .readlink nbytes pathname => intSyscall (.readlink pathname nbytes)
  | .utime pathname accessT modT => utimeProcessRow pathname accessT modT
  | .chmod pathname modeVal => do
      let mode ← getMode pid modeVal
      intSyscall (.chmod pathname mode)
  | .fchmod tracedFd modeValue => fchmodProcessRow pid returnValue tracedFd modeValue
  | .chown pathname newOwner newGroup => intSyscall (.chown pathname newOwner newGroup)
  | .rename oldPathname newPathname => intSyscall (.rename oldPathname newPathname)
  | .fsync tracedFd simulatedRetVal =>
      onDescriptor pid tracedFd (pure simulatedRetVal) fun fd => intSyscall (.fsync fd)
  | .fdatasync tracedFd simulatedRetVal =>
      onDescriptor pid tracedFd (pure simulatedRetVal) fun fd => intSyscall (.fdatasync fd)
  | .fallocate tracedFd modeVal offset length simulatedRetVal =>
      onDescriptor pid tracedFd (pure simulatedRetVal) fun fd =>
        intSyscall (.fallocate fd modeVal offset length)
  | .readahead tracedFd offset size simulatedRetVal =>
      onDescriptor pid tracedFd (pure simulatedRetVal) fun fd =>
        intSyscall (.readahead fd offset size)
  | .pipe readFd writeFd => pipeProcessRow pid readFd writeFd
  | .dup fileDescriptor => dupProcessRow pid returnValue fileDescriptor
  | .dup2 oldFileDescriptor newFileDescriptor =>
      dup2ProcessRow pid returnValue oldFileDescriptor newFileDescriptor
  | .dup3 oldFileDescriptor newFileDescriptor flags =>
      dup3ProcessRow pid returnValue oldFileDescriptor newFileDescriptor flags
  | .fcntl tracedFd commandVal argVal lockTypeVal lockWhenceVal lockStartVal lockLengthVal
      lockPidVal _ =>
      fcntlProcessRow pid returnValue tracedFd commandVal argVal lockTypeVal lockWhenceVal
        lockStartVal lockLengthVal lockPidVal
  | .exit _ _ => exitProcessRow pid replayed
  | .execve _ retVal => execveProcessRow pid replayed retVal
  | .mmap startAddress sizeOfMap protectionVal flagsVal descriptorVal offsetVal
      mmapReturnVal =>
      mmapProcessRow pid replayed startAddress sizeOfMap protectionVal flagsVal
        descriptorVal offsetVal mmapReturnVal
  | .munmap startAddress sizeOfMap => munmapProcessRow pid replayed startAddress sizeOfMap
  | .getdents tracedFd countVal returnVal =>
      getdentsProcessRow pid tracedFd countVal returnVal
  | .ioctl fileDescriptor req params buffer _ =>
      onDescriptor pid fileDescriptor (pure (int32 returnValue)) fun fd =>
        intSyscall (.ioctl fd req (ioctlArgument params buffer))
  | .clone flagVal _ _ _ _ => cloneProcessRow pid returnValue replayed flagVal
  | .vfork => vforkProcessRow pid returnValue replayed
  | .umask mode => do
      setUmask pid mode
      return 0
  | .ftruncate tracedFd length => do
      let fd ← getFd pid tracedFd
      intSyscall (.ftruncate fd length)
  | .socket _ type _ => socketProcessRow pid returnValue type
  | .socketpair readFd writeFd => socketpairProcessRow pid replayed readFd writeFd
  | .epoll_create _ => epollCreateProcessRow pid returnValue
  | .accept _ => acceptProcessRow pid returnValue
  | .accept4 _ => accept4ProcessRow pid returnValue

/-- The replayed value of a module whose series stands at `row`. -/
def processRow (opts : Options) (m : ReplayModule) (row : Row) (rest : List Row) :
    Replay Int :=
  (processCurrentRow opts m row rest).getD (processMembers opts m)

/-! ## Deleting the buffers -/

/-- What `processRow` does to its buffer once the call is made, or, in `mmappread`, for
each node that it finds: copy as many bytes as were replayed, and delete the buffer. -/
def buffersHold (opts : Options) (m : ReplayModule) (w : World) : Bool :=
  match m.members with
  | .pwrite _ _ tracedFd _ =>
      -- the buffer of a pattern is deleted twice
      w.resolves m.pid tracedFd = some syscallSimulated || opts.patternData.isEmpty
  | .mmappread nbytes tracedFd _ ptr =>
      w.resolves m.pid tracedFd = some syscallSimulated ||
        match findVMNode (w.vmArea m.pid) (BitVec.ofInt 64 ptr) 8 with
        | [] => true
        | [_] => 0 ≤ m.replayedRetVal && m.replayedRetVal ≤ nbytes
        | _ => false
  | _ => true

/-- The end of `processRow`: a second `delete[]` of a buffer, or a copy past its end,
stops the replayer. -/
def deleteBuffers (opts : Options) (m : ReplayModule) : Replay Unit := fun w =>
  if buffersHold opts m w then some ((), w) else none

/-- Which members own a buffer that may be deleted twice. -/
def risksBuffers : Members → Bool
  | .pwrite _ _ _ _ | .mmappread _ _ _ _ => true
  | _ => false

theorem deleteBuffers_of_safe {opts : Options} {m : ReplayModule}
    (h : risksBuffers m.members = false) (w : World) :
    deleteBuffers opts m w = some ((), w) := by
  have hhold : buffersHold opts m w = true := by
    unfold buffersHold
    split
    · rename_i hmembers
      rw [hmembers] at h
      cases h
    · rename_i hmembers
      rw [hmembers] at h
      cases h
    · rfl
  rw [deleteBuffers, if_pos hhold]

theorem deleteBuffers_eq_some {opts : Options} {m : ReplayModule} {w w' : World} {u : Unit} :
    deleteBuffers opts m w = some (u, w') ↔ buffersHold opts m w = true ∧ w' = w := by
  unfold deleteBuffers
  split_ifs with hhold
  · rw [Option.some.injEq, Prod.mk.injEq, and_iff_right rfl, and_iff_right hhold, eq_comm]
  · exact iff_of_false nofun fun h => hhold h.1

/-! ## Comparing the outcome -/

inductive Mismatch
  | returnValues
  | errnoNumbers
deriving DecidableEq

def isReplayable (kind : SysCallKind) : Bool :=
  !(kind = .exit || kind = .execve || kind = .mmap || kind = .munmap)

def compareRetvalAndErrno (opts : Options) (c : Common) (replayed errno : Int) :
    Option Mismatch :=
  if opts.warnLevel = defaultMode then none
  else if c.returnVal ≠ replayed then some .returnValues
  else if replayed = -1 ∧ errno ≠ c.errorNo then some .errnoNumbers
  else none

/-- `after_sys_call`; abort mode stops at a mismatch. -/
def afterSysCall (opts : Options) (m : ReplayModule) (replayed : Int) :
    Replay (Option Mismatch) := fun w =>
  if isReplayable m.sysCallName then
    let verdict := compareRetvalAndErrno opts m.common replayed w.errno
    if opts.warnLevel = abortMode ∧ verdict.isSome then none else some (verdict, w)
  else some (none, w)

/-- The replayed value, and the mismatch that is reported. -/
def execute (opts : Options) (m : ReplayModule) (row : Row) (rest : List Row) :
    Replay (Int × Option Mismatch) := do
  let replayed ← processRow opts m row rest
  deleteBuffers opts m
  let verdict ← afterSysCall opts m replayed
  return (replayed, verdict)

end SyscallReplayer.ReplayModules
