import SyscallReplayer.ResourcesManager
import SyscallReplayer.VirtualAddressSpace

/-!
# The state a module acts on

The tables of the resources manager, the descriptors that are open, the calls
issued so far and the threads started. A module either runs to its end or
stops at a failed assertion, which is `none`.
-/

namespace SyscallReplayer.ReplayWorld

open Std (ExtTreeMap)
open CInt ReplayKernel ResourcesManager VirtualAddressSpace

structure World where
  manager : Manager
  openFds : Finset Int
  /-- What the kernel decides about each call, in the order they are issued. -/
  replies : Nat → Reply
  issued : List SystemCall
  errno : Int
  vmAreas : ExtTreeMap Int (List VMNode)
  /-- The pids whose threads were started. -/
  threads : List Int

namespace World

def reply (w : World) : Reply :=
  w.replies w.issued.length

/-- The value the kernel gives to the next call. -/
def answer (w : World) (call : SystemCall) : Int :=
  (outcome w.openFds w.reply call).1

def serve (w : World) (call : SystemCall) : World :=
  { w with
    openFds := (outcome w.openFds w.reply call).2
    issued := w.issued ++ [call]
    errno := if w.answer call = -1 then w.reply.errno else w.errno }

/-- The replayed descriptor of a traced one. -/
def resolves (w : World) (pid tracedFd : Int) : Option Int :=
  w.manager.getFd pid tracedFd

def vmArea (w : World) (pid : Int) : List VMNode :=
  (w.vmAreas[pid]?).getD []

@[simp] theorem serve_manager (w : World) (call : SystemCall) :
    (w.serve call).manager = w.manager := rfl

@[simp] theorem serve_issued (w : World) (call : SystemCall) :
    (w.serve call).issued = w.issued ++ [call] := rfl

@[simp] theorem serve_openFds (w : World) (call : SystemCall) :
    (w.serve call).openFds = (outcome w.openFds w.reply call).2 := rfl

end World

abbrev Replay := StateT World Option

def syscall (call : SystemCall) : Replay Int := fun w =>
  some (w.answer call, w.serve call)

/-- A call whose value is kept in an `int`. -/
def intSyscall (call : SystemCall) : Replay Int := do
  return int32 (← syscall call)

def queryManager {α : Type} (f : Manager → Option α) : Replay α := fun w =>
  (f w.manager).map fun a => (a, w)

def changeManager {α : Type} (f : Manager → Option (α × Manager)) : Replay α := fun w =>
  (f w.manager).map fun result => (result.1, { w with manager := result.2 })

def updateManager (f : Manager → Option Manager) : Replay Unit :=
  changeManager fun m => (f m).map fun m' => ((), m')

def modifyArea (pid : Int) (f : List VMNode → List VMNode) : Replay Unit := fun w =>
  some ((), { w with vmAreas := w.vmAreas.insert pid (f (w.vmArea pid)) })

/-- `new char[size]`, which throws when the size is not that of an object. -/
def newBuffer (size : Int) : Option Int :=
  if 0 ≤ size ∧ size ≤ longLongMax then some size else none

def addFd (pid tracedFd replayedFd : Int) (flags : BitVec 32) : Replay Unit :=
  updateManager fun m => m.addFd pid (int32 tracedFd) replayedFd flags

def getFd (pid tracedFd : Int) : Replay Int :=
  queryManager fun m => m.getFd pid tracedFd

def hasFd (pid tracedFd : Int) : Replay Bool :=
  queryManager fun m => m.hasFd pid tracedFd

def getAllTracedFds (pid : Int) : Replay (List Int) :=
  queryManager fun m => m.getAllTracedFds pid

def generateUnusedFd (pid : Int) : Replay Int :=
  queryManager fun m => m.generateUnusedFd pid

def removeFd (pid tracedFd : Int) : Replay Int :=
  changeManager fun m => m.removeFd pid tracedFd

def getFlags (pid tracedFd : Int) : Replay (BitVec 32) :=
  queryManager fun m => m.getFlags pid tracedFd

def addFlags (pid tracedFd : Int) (flags : BitVec 32) : Replay Unit :=
  updateManager fun m => m.addFlags pid tracedFd flags

def removeFdTable (pid : Int) : Replay (List Int) :=
  changeManager fun m => m.removeFdTable pid

def cloneUmask (ppid pid : Int) (shared : Bool) : Replay Unit :=
  updateManager fun m => m.cloneUmask ppid pid shared

def removeUmask (pid : Int) : Replay Unit :=
  updateManager fun m => m.removeUmask pid

def setUmask (pid : Int) (mode : BitVec 32) : Replay Unit :=
  updateManager fun m => m.setUmask pid mode

/-- The mode that is passed to the kernel. -/
def getMode (pid : Int) (mode : BitVec 32) : Replay (BitVec 32) := do
  let umask ← queryManager fun m => m.getUmask pid
  return mode &&& ~~~umask

def cloneEntry (t : FdTable) (entry : Int × FileDescriptorEntry) : Replay FdTable := do
  let newFd ← if entry.2.fd > 0 then intSyscall (.dup entry.2.fd) else pure entry.2.fd
  (FdTable.addFdEntry t entry.1 newFd entry.2.flags : Option FdTable)

def cloneFdTable (ppid pid : Int) (shared : Bool) : Replay Unit := do
  if shared then
    updateManager fun m => (m.fdTableMap.share ppid pid).map fun map =>
      { m with fdTableMap := map }
  else
    let parent ← queryManager fun m => m.fdTableMap.get ppid
    let child ← parent.toList.foldlM cloneEntry ∅
    updateManager fun m => some { m with fdTableMap := m.fdTableMap.create pid child }

end SyscallReplayer.ReplayWorld
