import SyscallReplayer.ReplayKernel
import SyscallReplayer.SharedEntries

/-!
# The resources manager

The descriptor tables and umasks of the traced processes, as
`ReplayerResourcesManager` keeps them: entries with a reference count, mapped
by the pids that use them. A failed assertion is `none`.
-/

namespace SyscallReplayer.ResourcesManager

open Std (ExtTreeMap)
open SharedEntries ReplayKernel

def syscallFailure : Int := -1
def syscallSimulated : Int := -2

structure FileDescriptorEntry where
  fd : Int
  flags : BitVec 32
deriving DecidableEq

/-- A table from traced descriptors to replayed ones. -/
abbrev FdTable := ExtTreeMap Int FileDescriptorEntry

namespace FdTable

def hasFd (t : FdTable) (tracedFd : Int) : Bool :=
  t.contains tracedFd

def addFdEntry (t : FdTable) (tracedFd replayedFd : Int) (flags : BitVec 32) : Option FdTable :=
  if tracedFd ≠ -1 ∧ hasFd t tracedFd then none
  else if tracedFd ≠ -1 ∨ !hasFd t tracedFd then some (t.insert tracedFd ⟨replayedFd, flags⟩)
  else some t

def removeFdEntry (t : FdTable) (tracedFd : Int) : Int × FdTable :=
  match t[tracedFd]? with
  | none => (-1, t)
  | some entry => (entry.fd, t.erase tracedFd)

def getFd (t : FdTable) (tracedFd : Int) : Int :=
  match t[tracedFd]? with
  | none => -1
  | some entry => entry.fd

def getAllTracedFds (t : FdTable) : List Int :=
  t.keys

def getAllReplayedFds (t : FdTable) : List Int :=
  (t.toList.map fun entry => entry.2.fd).dedup

def updateFd (t : FdTable) (tracedFd replayedFd : Int) : Option FdTable :=
  (t[tracedFd]?).map fun entry => t.insert tracedFd { entry with fd := replayedFd }

def getFlags (t : FdTable) (tracedFd : Int) : Option (BitVec 32) :=
  (t[tracedFd]?).map FileDescriptorEntry.flags

def setFlags (t : FdTable) (tracedFd : Int) (flags : BitVec 32) : Option FdTable :=
  (t[tracedFd]?).map fun entry => t.insert tracedFd { entry with flags := flags }

end FdTable

structure Manager where
  umaskTable : Shared Int (BitVec 32)
  fdTableMap : Shared Int FdTable
  replayerUsedFds : Finset Int

namespace Manager

def changeTable (m : Manager) (pid : Int) (f : FdTable → Option FdTable) : Option Manager := do
  let t ← m.fdTableMap.get pid
  let t' ← f t
  let map ← m.fdTableMap.modify pid t'
  return { m with fdTableMap := map }

def addFd (m : Manager) (pid tracedFd replayedFd : Int) (flags : BitVec 32) : Option Manager :=
  m.changeTable pid fun t => FdTable.addFdEntry t tracedFd replayedFd flags

def getFd (m : Manager) (pid tracedFd : Int) : Option Int :=
  (m.fdTableMap.get pid).map fun t => FdTable.getFd t tracedFd

def hasFd (m : Manager) (pid tracedFd : Int) : Option Bool :=
  (m.fdTableMap.get pid).map fun t => FdTable.hasFd t tracedFd

def getAllTracedFds (m : Manager) (pid : Int) : Option (List Int) :=
  (m.fdTableMap.get pid).map FdTable.getAllTracedFds

def removeFd (m : Manager) (pid tracedFd : Int) : Option (Int × Manager) := do
  let t ← m.fdTableMap.get pid
  let map ← m.fdTableMap.modify pid (FdTable.removeFdEntry t tracedFd).2
  return ((FdTable.removeFdEntry t tracedFd).1, { m with fdTableMap := map })

def updateFd (m : Manager) (pid tracedFd replayedFd : Int) : Option Manager :=
  m.changeTable pid fun t => FdTable.updateFd t tracedFd replayedFd

def getFlags (m : Manager) (pid tracedFd : Int) : Option (BitVec 32) :=
  (m.fdTableMap.get pid).bind fun t => FdTable.getFlags t tracedFd

def setFlags (m : Manager) (pid tracedFd : Int) (flags : BitVec 32) : Option Manager :=
  m.changeTable pid fun t => FdTable.setFlags t tracedFd flags

def addFlags (m : Manager) (pid tracedFd : Int) (flags : BitVec 32) : Option Manager := do
  let current ← m.getFlags pid tracedFd
  m.setFlags pid tracedFd (current ||| flags)

/-- The replayed descriptors of every process, and those of the replayer. -/
def usedFds (m : Manager) : Finset Int :=
  (m.fdTableMap.map.keys.flatMap fun pid =>
    ((m.fdTableMap.get pid).map FdTable.getAllReplayedFds).getD []).toFinset ∪ m.replayerUsedFds

/-- Counts up from `unused` past the descriptors in use; as many steps as there
are descriptors in use are enough. -/
def leastUnused (used : Finset Int) : Nat → Int → Int
  | 0, unused => unused
  | fuel + 1, unused => if unused ∈ used then leastUnused used fuel (unused + 1) else unused

def generateUnusedFd (m : Manager) (pid : Int) : Option Int :=
  (m.fdTableMap.get pid).map fun _ => leastUnused m.usedFds m.usedFds.card 0

/-- The replayed descriptors to close are those of a table that is freed. -/
def removeFdTable (m : Manager) (pid : Int) : Option (List Int × Manager) := do
  let (freed, map) ← m.fdTableMap.release pid
  return ((freed.map FdTable.getAllReplayedFds).getD [], { m with fdTableMap := map })

def getUmask (m : Manager) (pid : Int) : Option (BitVec 32) :=
  m.umaskTable.get pid

def setUmask (m : Manager) (pid : Int) (mode : BitVec 32) : Option Manager := do
  let table ← m.umaskTable.modify pid mode
  return { m with umaskTable := table }

def cloneUmask (m : Manager) (ppid pid : Int) (shared : Bool) : Option Manager := do
  if shared then
    let table ← m.umaskTable.share ppid pid
    return { m with umaskTable := table }
  else
    let mode ← m.umaskTable.get ppid
    return { m with umaskTable := m.umaskTable.create pid mode }

def removeUmask (m : Manager) (pid : Int) : Option Manager := do
  let (_, table) ← m.umaskTable.release pid
  return { m with umaskTable := table }

/-- The manager of a replay that starts with the descriptors of `fdMap`; every
other descriptor up to `maxFds` that is in use belongs to the replayer. -/
def initializeTables (inUse : Int → Bool) (maxFds : Nat) (pid : Int) (fdMap : List (Int × Int)) :
    Option Manager := do
  let m : Manager :=
    { umaskTable := Shared.empty.create pid 0
      fdTableMap := Shared.empty.create pid ∅
      replayerUsedFds := ∅ }
  let m ← fdMap.foldlM (fun m pair => m.addFd pid pair.1 pair.2 0) m
  let t ← m.fdTableMap.get pid
  let scanned := (List.range (maxFds + 1)).map Int.ofNat
  return { m with replayerUsedFds :=
    (scanned.filter fun fd => inUse fd && fd ∉ FdTable.getAllReplayedFds t).toFinset }

/-- What a scan of the open descriptors finds. -/
inductive Inconsistency
  | unknown (fd : Int)
  | unused (fd : Int)
deriving DecidableEq

def validateConsistency (m : Manager) (inUse : Int → Bool) (maxFds : Nat) : List Inconsistency :=
  ((List.range maxFds).map Int.ofNat).filterMap fun fd =>
    if inUse fd ∧ fd ∉ m.usedFds then some (.unknown fd)
    else if ¬inUse fd ∧ fd ∈ m.usedFds then some (.unused fd)
    else none

end Manager

end SyscallReplayer.ResourcesManager
