import SyscallReplayer.ReplayRuns
import SyscallReplayer.SharingGroups

/-!
# The descriptors of the traced processes

What the kernel under the traced program did for each call that succeeded. The
processes that share a table form a group, and the table is what they share.
-/

namespace SyscallReplayer.TracedKernel

open CInt SharingGroups ReplayKernel ReplayModules TransitionSystem ReplayRuns

structure Descriptor where
  /-- `FD_CLOEXEC`. -/
  cloexec : Bool
  /-- Whether the record of the call that made or last changed it says so. -/
  recorded : Bool
deriving DecidableEq

/-- The descriptors that are open in one table. -/
abbrev Descriptors := Int → Option Descriptor

/-- One call of a traced process. The records of some calls leave out whether
the new descriptors close on exec. -/
structure TracedCall where
  call : Execution
  unrecorded : Bool

def opensAt (fd : Int) (x : Descriptor) (d : Descriptors) : Option Descriptors :=
  if isFd fd ∧ d fd = none then some (Function.update d fd (some x)) else none

/-- `newFd` becomes what `oldFd` is, whether or not it is open. -/
def redirects (oldFd newFd : Int) (x : Descriptor) (d : Descriptors) : Option Descriptors :=
  if (d oldFd).isSome ∧ isFd newFd then some (Function.update d newFd (some x)) else none

/-- What `execve` leaves open. -/
def keptOnExec (d : Descriptors) : Descriptors :=
  fun fd => (d fd).filter fun x => !x.cloexec

/-- The flags of a call ask for a descriptor that closes on exec. -/
def asksCloexec (flags : Int) : Bool :=
  closesOnExec (BitVec.ofInt 32 flags)

/-- The table of a process after one of the calls that change nothing else. -/
def descriptorsAfter (c : TracedCall) (d : Descriptors) : Option Descriptors :=
  let row := c.call.row
  let ret := c.call.returnValue
  match c.call.kind with
  | .open_ | .openat => opensAt ret ⟨asksCloexec (row.int .open_value), true⟩ d
  | .creat | .accept => opensAt ret ⟨false, true⟩ d
  | .close => (d (row.int .descriptor)).map fun _ => Function.update d (row.int .descriptor) none
  | .dup =>
      if (d (row.int .descriptor)).isSome then opensAt ret ⟨false, true⟩ d else none
  | .dup2 =>
      if ret ≠ row.int .new_descriptor then none
      else if row.int .old_descriptor = row.int .new_descriptor then
        (d (row.int .old_descriptor)).map fun _ => d
      else redirects (row.int .old_descriptor) ret ⟨false, true⟩ d
  | .dup3 =>
      if ret ≠ row.int .new_descriptor then none
      else if row.int .old_descriptor = row.int .new_descriptor then none
      else redirects (row.int .old_descriptor) ret ⟨asksCloexec (row.int .flags), true⟩ d
  | .fcntl =>
      if (d (row.int .descriptor)).isNone then none
      else if row.int .command_value = fDupfd then opensAt ret ⟨false, true⟩ d
      else if row.int .command_value = fDupfdCloexec then opensAt ret ⟨true, true⟩ d
      else if row.int .command_value = fSetfd then
        some (Function.update d (row.int .descriptor)
          (some ⟨row.int .argument_value % 2 = 1, true⟩))
      else some d
  | .socket => opensAt ret ⟨asksCloexec (row.int .type), true⟩ d
  | .accept4 => opensAt ret ⟨c.unrecorded, false⟩ d
  | .socketpair =>
      (opensAt (row.int .read_descriptor) ⟨c.unrecorded, false⟩ d).bind
        (opensAt (row.int .write_descriptor) ⟨c.unrecorded, false⟩)
  | .pipe =>
      (opensAt (row.int .read_descriptor) ⟨false, true⟩ d).bind
        (opensAt (row.int .write_descriptor) ⟨false, true⟩)
  | _ => none

/-- A new process gets a positive number that no live process has. -/
def startsProcess (k : Groups Int Descriptors) (pid child : Int) (shared : Bool) :
    Option (Groups Int Descriptors) :=
  if 0 < child ∧ isFd child then k.clone pid child shared else none

/-- A call that did not succeed is not one of these steps. -/
noncomputable def kernelStep (k : Groups Int Descriptors) (c : TracedCall) :
    Option (Groups Int Descriptors) :=
  let pid := c.call.pid
  let ret := c.call.returnValue
  match c.call.kind with
  | .exit => k.exit pid
  | .clone =>
      startsProcess k pid ret
        (BitVec.ofInt 32 (c.call.row.int .flag_value) &&& cloneFiles ≠ 0)
  | .vfork => startsProcess k pid ret false
  -- A table that is shared is copied first, so that the others keep theirs.
  | .execve => if 0 ≤ ret then (k.value pid).map fun d => k.start pid (keptOnExec d) else none
  | _ => if 0 ≤ ret then k.change pid (descriptorsAfter c) else none

def stdDescriptors (cloexec : Int → Bool) : Descriptors :=
  fun fd => if fd = 0 ∨ fd = 1 ∨ fd = 2 then some ⟨cloexec fd, false⟩ else none

/-- The traced processes, and the replay of each of their calls after it. -/
noncomputable def tracedSystem (opts : Options) (start : ReplayWorld.World) (pid : Int)
    (cloexec : Int → Bool) : System (Groups Int Descriptors × ReplayWorld.World) TracedCall where
  init := (.single pid (stdDescriptors cloexec), start)
  step s c := (kernelStep s.1 c).bind fun k =>
    (executeStep opts s.2 c.call).map fun w => (k, w)

end SyscallReplayer.TracedKernel
