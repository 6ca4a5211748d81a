import Mathlib.Data.List.Basic

/-!
# The address map of a traced process

The mappings that a traced process has made, each with the place where the
replay put it. Sizes and addresses are 64-bit words, and sums wrap around.
-/

namespace SyscallReplayer.VirtualAddressSpace

structure VMNode where
  tracedStartAddress : BitVec 64
  replayedStartAddress : BitVec 64
  mapSize : BitVec 64
  tracedFd : Int
  replayedFd : Int
deriving DecidableEq

def checkLeftOverlapping (addr size startAddr endAddr : BitVec 64) : Bool :=
  addr + size ≥ endAddr && addr > startAddr && addr < endAddr

def checkRightOverlapping (addr size startAddr endAddr : BitVec 64) : Bool :=
  addr + size > startAddr && addr + size < endAddr && addr ≤ startAddr

def checkEnclosedOverlapping (addr size startAddr endAddr : BitVec 64) : Bool :=
  addr ≤ startAddr && addr + size ≥ endAddr

def checkEnclosingOverlapping (addr size startAddr endAddr : BitVec 64) : Bool :=
  addr > startAddr && addr + size < endAddr

namespace VMNode

def endAddr (node : VMNode) : BitVec 64 :=
  node.tracedStartAddress + node.mapSize

/-- The predicates that hold of a node, one bit each. -/
def overlapped (node : VMNode) (addr size : BitVec 64) : Nat :=
  (if checkLeftOverlapping addr size node.tracedStartAddress node.endAddr then 4 else 0) |||
    (if checkRightOverlapping addr size node.tracedStartAddress node.endAddr then 2 else 0) |||
    (if checkEnclosedOverlapping addr size node.tracedStartAddress node.endAddr then 8 else 0) |||
    (if checkEnclosingOverlapping addr size node.tracedStartAddress node.endAddr then 1 else 0)

/-- What `delete_VM_node` leaves of a node in its place. -/
def kept (node : VMNode) (addr size : BitVec 64) : List VMNode :=
  match node.overlapped addr size with
  | 8 => []
  | 4 => [{ node with mapSize := addr - node.tracedStartAddress }]
  | 2 => [{ node with
      tracedStartAddress := addr + size
      replayedStartAddress :=
        node.replayedStartAddress + (addr + size - node.tracedStartAddress)
      mapSize := node.mapSize - (addr + size - node.tracedStartAddress) }]
  | 1 => [{ node with mapSize := addr - node.tracedStartAddress }]
  | _ => [node]

/-- The node that `delete_VM_node` pushes when the range splits a node. -/
def pushed (node : VMNode) (addr size : BitVec 64) : List VMNode :=
  match node.overlapped addr size with
  | 1 => [{ node with
      tracedStartAddress := addr + size
      replayedStartAddress :=
        node.replayedStartAddress + (addr + size) - node.tracedStartAddress
      mapSize := node.endAddr - (addr + size) }]
  | _ => []

end VMNode

def findVMNode (vma : List VMNode) (addr size : BitVec 64) : List VMNode :=
  vma.filter fun node => node.overlapped addr size ≠ 0

def insertVMNode (vma : List VMNode) (node : VMNode) : List VMNode :=
  vma ++ [node]

def deleteVMNode (vma : List VMNode) (addr size : BitVec 64) : List VMNode :=
  (vma.flatMap fun node => node.kept addr size) ++
    (findVMNode vma addr size).flatMap fun node => node.pushed addr size

end SyscallReplayer.VirtualAddressSpace
