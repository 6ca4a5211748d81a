import SyscallReplayer.AddressTranslation
import SyscallReplayer.ReplayRuns

/-!
# The address map along a replay

What an `mmap` and a `munmap` record do to the address map of their process:
when a failed one leaves it alone, and when every address has one mapping.
-/

namespace SyscallReplayer.MappingRuns

open CInt ReplayKernel VirtualAddressSpace ReplayWorld ReplayModules
open StatePrograms TransitionSystem World ReplayRuns AddressTranslation

/-- The address that the traced call returned. -/
def tracedAddress (a : Execution) : BitVec 64 :=
  BitVec.ofInt 64 a.returnValue

def startAddress (a : Execution) : BitVec 64 :=
  BitVec.ofInt 64 (a.row.int .start_address)

def length (a : Execution) : BitVec 64 :=
  BitVec.ofInt 64 (a.row.int .length)

def mmapCall (a : Execution) (fd : Int) : SystemCall :=
  .mmap (a.row.int .start_address) (a.row.int .length) (a.row.int .protection_value)
    (a.row.int .flags_value) fd (a.row.int .offset)

/-- The descriptor that the replay passes to `mmap`, -1 for an anonymous mapping. -/
def mmapFd (w : World) (a : Execution) : Int :=
  (w.resolves a.pid (a.row.int .descriptor)).getD (-1)

/-- The address that `mmap` returns to the replay. -/
def replayedAddress (w : World) (a : Execution) : BitVec 64 :=
  BitVec.ofInt 64 (w.answer (mmapCall a (mmapFd w a)))

/-- The node that the record is entered with. -/
def mappedNode (w : World) (a : Execution) : VMNode where
  tracedStartAddress := tracedAddress a
  replayedStartAddress := replayedAddress w a
  mapSize := length a
  tracedFd := a.row.int .descriptor
  replayedFd := mmapFd w a

/-- The replay gives up an `mmap` with a hint that was not mapped where the trace
says. -/
def GivesUp (w : World) (a : Execution) : Prop :=
  a.row.int .start_address ≠ 0 ∧ replayedAddress w a ≠ tracedAddress a

instance (w : World) (a : Execution) : Decidable (GivesUp w a) :=
  inferInstanceAs (Decidable (_ ∧ _))

theorem ofInt_uint64 (n : Int) : BitVec.ofInt 64 (uint64 n) = BitVec.ofInt 64 n := by
  apply BitVec.eq_of_toInt_eq
  rw [BitVec.toInt_ofInt, BitVec.toInt_ofInt]
  exact Int.emod_bmod n (2 ^ 64)

theorem vmArea_modifyArea {w : World} {pid : Int} (area : List VMNode) :
    ({ w with vmAreas := w.vmAreas.insert pid area } : World).vmArea pid = area := by
  unfold vmArea
  rw [Std.ExtTreeMap.getElem?_insert_self]
  rfl

section

variable {opts : Options} {w w' : World} {a : Execution}

theorem mmap_eq_some (h : executeStep opts w a = some w') (hkind : a.kind = .mmap) :
    ∃ replayedRetVal replayed, mmapProcessRow a.pid replayedRetVal (a.row.int .start_address)
      (a.row.int .length) (a.row.int .protection_value) (a.row.int .flags_value)
      (a.row.int .descriptor) (a.row.int .offset) (uint64 a.returnValue) w =
        some (replayed, w') := by
  obtain ⟨kind, held, row, rest, queued, later, laterRest⟩ := a
  subst hkind
  obtain ⟨m, replayed, hm, hrun⟩ := executeStep_eq_some h
  rw [processRow_of_ownMove rfl hm rfl] at hrun
  cases queued
  · exact ⟨_, replayed, hrun⟩
  · exact ⟨_, replayed, hrun⟩

theorem munmap_eq_some (h : executeStep opts w a = some w') (hkind : a.kind = .munmap) :
    ∃ replayedRetVal replayed, munmapProcessRow a.pid replayedRetVal (a.row.int .start_address)
      (a.row.int .length) w = some (replayed, w') := by
  obtain ⟨kind, held, row, rest, queued, later, laterRest⟩ := a
  subst hkind
  obtain ⟨m, replayed, hm, hrun⟩ := executeStep_eq_some h
  rw [processRow_of_ownMove rfl hm rfl] at hrun
  cases queued
  · exact ⟨_, replayed, hrun⟩
  · exact ⟨_, replayed, hrun⟩

theorem vmArea_of_mmap (h : executeStep opts w a = some w') (hkind : a.kind = .mmap) :
    w'.vmArea a.pid = if GivesUp w a then w.vmArea a.pid
      else insertVMNode (w.vmArea a.pid) (mappedNode w a) := by
  obtain ⟨replayedRetVal, replayed, hprogram⟩ := mmap_eq_some h hkind
  obtain ⟨fd, w₁, hget, hrest⟩ := bind_eq_some.mp hprogram
  obtain ⟨fd', hresolves, heq⟩ := Option.map_eq_some_iff.mp hget
  obtain ⟨rfl, rfl⟩ := Prod.mk.inj heq
  obtain ⟨answer, w₂, hcall, hlast⟩ := bind_eq_some.mp hrest
  obtain ⟨rfl, rfl⟩ := Prod.mk.inj (Option.some.inj hcall)
  have hfd : mmapFd w a = fd' := by
    have hresolved : w.resolves a.pid (a.row.int .descriptor) = some fd' := hresolves
    rw [mmapFd, hresolved]
    rfl
  have hreplayed : replayedAddress w a = BitVec.ofInt 64 (w.answer (mmapCall a fd')) := by
    rw [replayedAddress, hfd]
  have hgives : GivesUp w a ↔ a.row.int .start_address ≠ 0 ∧
      BitVec.ofInt 64 (w.answer (mmapCall a fd')) ≠ BitVec.ofInt 64 (uint64 a.returnValue) := by
    rw [ofInt_uint64, GivesUp, hreplayed]
    rfl
  split at hlast
  · rename_i hgaveUp
    rw [if_pos (hgives.mpr hgaveUp)]
    obtain rfl := (Prod.mk.inj (Option.some.inj hlast)).2
    rfl
  · rename_i hplaced
    rw [if_neg fun hgaveUp => hplaced (hgives.mp hgaveUp)]
    obtain rfl := (Prod.mk.inj (Option.some.inj hlast)).2
    rw [vmArea_modifyArea, mappedNode, hreplayed, hfd, ofInt_uint64]
    rfl

theorem vmArea_of_munmap (h : executeStep opts w a = some w') (hkind : a.kind = .munmap) :
    w'.vmArea a.pid = deleteVMNode (w.vmArea a.pid) (startAddress a) (length a) := by
  obtain ⟨replayedRetVal, replayed, hprogram⟩ := munmap_eq_some h hkind
  obtain rfl := (Prod.mk.inj (Option.some.inj hprogram)).2
  rw [vmArea_modifyArea]
  rfl

end

section

variable {vma : List VMNode} {node : VMNode} {addr size : BitVec 64}

/-- Exactly one of the predicates holds of the node: `delete_VM_node` has a case
for it. -/
def Switched (node : VMNode) (addr size : BitVec 64) : Prop :=
  node.overlapped addr size ∈ [1, 2, 4, 8]

instance (node : VMNode) (addr size : BitVec 64) : Decidable (Switched node addr size) :=
  inferInstanceAs (Decidable (_ ∈ _))

theorem testBit_overlapped (node : VMNode) (addr size : BitVec 64) :
    (node.overlapped addr size).testBit 2 =
        checkLeftOverlapping addr size node.tracedStartAddress node.endAddr ∧
      (node.overlapped addr size).testBit 1 =
        checkRightOverlapping addr size node.tracedStartAddress node.endAddr ∧
      (node.overlapped addr size).testBit 3 =
        checkEnclosedOverlapping addr size node.tracedStartAddress node.endAddr ∧
      (node.overlapped addr size).testBit 0 =
        checkEnclosingOverlapping addr size node.tracedStartAddress node.endAddr := by
  unfold VMNode.overlapped
  generalize checkLeftOverlapping addr size node.tracedStartAddress node.endAddr = left
  generalize checkRightOverlapping addr size node.tracedStartAddress node.endAddr = right
  generalize checkEnclosedOverlapping addr size node.tracedStartAddress node.endAddr = enclosed
  generalize checkEnclosingOverlapping addr size node.tracedStartAddress node.endAddr = enclosing
  revert left right enclosed enclosing
  decide

theorem enclosed_of_overlapped (h : node.overlapped addr size = 8) :
    addr ≤ node.tracedStartAddress ∧ node.endAddr ≤ addr + size := by
  have henclosed := (testBit_overlapped node addr size).2.2.1
  rw [h] at henclosed
  exact (Bool.and_eq_true_iff.mp henclosed.symm).imp of_decide_eq_true of_decide_eq_true

theorem left_of_overlapped (h : node.overlapped addr size = 4) :
    node.tracedStartAddress < addr ∧ addr < node.endAddr := by
  have hleft := (testBit_overlapped node addr size).1
  rw [h] at hleft
  obtain ⟨hstart, hend⟩ := Bool.and_eq_true_iff.mp hleft.symm
  exact ⟨of_decide_eq_true (Bool.and_eq_true_iff.mp hstart).2, of_decide_eq_true hend⟩

theorem right_of_overlapped (h : node.overlapped addr size = 2) :
    node.tracedStartAddress < addr + size ∧ addr + size < node.endAddr := by
  have hright := (testBit_overlapped node addr size).2.1
  rw [h] at hright
  obtain ⟨hend, -⟩ := Bool.and_eq_true_iff.mp hright.symm
  exact (Bool.and_eq_true_iff.mp hend).imp of_decide_eq_true of_decide_eq_true

theorem enclosing_of_overlapped (h : node.overlapped addr size = 1) :
    node.tracedStartAddress < addr ∧ addr + size < node.endAddr := by
  have henclosing := (testBit_overlapped node addr size).2.2.2
  rw [h] at henclosing
  exact (Bool.and_eq_true_iff.mp henclosing.symm).imp of_decide_eq_true of_decide_eq_true

/-- No node that is left lies within the range. -/
theorem not_enclosed_of_mem_kept {part : VMNode} (h : part ∈ node.kept addr size) :
    part.overlapped addr size ≠ 8 := by
  intro henclosed
  obtain ⟨hstart, hend⟩ := enclosed_of_overlapped henclosed
  unfold VMNode.kept at h
  split at h
  · exact List.not_mem_nil h
  · rename_i hvalue
    obtain rfl := List.mem_singleton.mp h
    exact absurd hstart (BitVec.not_le.mpr (left_of_overlapped hvalue).1)
  · rename_i hvalue
    obtain rfl := List.mem_singleton.mp h
    have hsame : (addr + size) + (node.mapSize - (addr + size - node.tracedStartAddress)) =
        node.endAddr := by
      unfold VMNode.endAddr
      grind
    have hle : node.endAddr ≤ addr + size := hsame ▸ hend
    exact absurd hle (BitVec.not_le.mpr (right_of_overlapped hvalue).2)
  · rename_i hvalue
    obtain rfl := List.mem_singleton.mp h
    exact absurd hstart (BitVec.not_le.mpr (enclosing_of_overlapped hvalue).1)
  · rename_i hvalue _ _ _
    obtain rfl := List.mem_singleton.mp h
    exact hvalue henclosed

theorem not_enclosed_of_mem_pushed {part : VMNode} (h : part ∈ node.pushed addr size) :
    part.overlapped addr size ≠ 8 := by
  intro henclosed
  obtain ⟨hstart, hend⟩ := enclosed_of_overlapped henclosed
  unfold VMNode.pushed at h
  split at h
  · rename_i hvalue
    obtain rfl := List.mem_singleton.mp h
    have hsame : (addr + size) + (node.endAddr - (addr + size)) = node.endAddr := by
      grind
    have hle : node.endAddr ≤ addr + size := hsame ▸ hend
    exact absurd hle (BitVec.not_le.mpr (enclosing_of_overlapped hvalue).2)
  · exact List.not_mem_nil h

theorem kept_of_not_switched (h : ¬Switched node addr size) :
    node.kept addr size = [node] ∧ node.pushed addr size = [] := by
  unfold Switched at h
  unfold VMNode.kept VMNode.pushed
  generalize node.overlapped addr size = value at h
  constructor
  · split
    all_goals first | rfl | exact absurd (by decide) h
  · split
    all_goals first | rfl | exact absurd (by decide) h

theorem length_kept (h : node.overlapped addr size ≠ 8) : (node.kept addr size).length = 1 := by
  unfold VMNode.kept
  split
  · rename_i henclosed
    exact absurd henclosed h
  all_goals rfl

theorem pushed_eq_nil (h : node.overlapped addr size ≠ 1) : node.pushed addr size = [] := by
  unfold VMNode.pushed
  split
  · rename_i henclosing
    exact absurd henclosing h
  · rfl

theorem not_switched_of_kept (hkept : node.kept addr size = [node])
    (hpushed : node.pushed addr size = []) : ¬Switched node addr size := by
  intro hswitched
  unfold Switched at hswitched
  simp only [List.mem_cons, List.not_mem_nil, or_false] at hswitched
  rcases hswitched with hvalue | hvalue | hvalue | hvalue
  · rw [VMNode.pushed, hvalue] at hpushed
    exact List.cons_ne_nil _ _ hpushed
  · rw [VMNode.kept, hvalue] at hkept
    have hstart : addr + size = node.tracedStartAddress :=
      congrArg VMNode.tracedStartAddress (List.cons.inj hkept).1
    exact absurd (right_of_overlapped hvalue).1 (hstart ▸ BitVec.lt_irrefl _)
  · rw [VMNode.kept, hvalue] at hkept
    have hsize : addr - node.tracedStartAddress = node.mapSize :=
      congrArg VMNode.mapSize (List.cons.inj hkept).1
    have hend : node.endAddr = addr := by
      unfold VMNode.endAddr
      grind
    exact absurd (left_of_overlapped hvalue).2 (hend ▸ BitVec.lt_irrefl _)
  · rw [VMNode.kept, hvalue] at hkept
    exact List.cons_ne_nil _ _ hkept.symm

/-- Where every element becomes one element, the list can only stay the same
element by element. -/
theorem eq_singleton_of_flatMap_eq {α : Type*} {f : α → List α} {l : List α}
    (hlength : ∀ a ∈ l, (f a).length = 1) (h : l.flatMap f = l) : ∀ a ∈ l, f a = [a] := by
  induction l with
  | nil => exact fun a ha => nomatch ha
  | cons b l ih =>
      obtain ⟨c, hc⟩ := List.length_eq_one_iff.mp (hlength b List.mem_cons_self)
      rw [List.flatMap_cons, hc, List.singleton_append] at h
      obtain ⟨rfl, hrest⟩ := List.cons.inj h
      intro a ha
      rcases List.mem_cons.mp ha with rfl | hmem
      · exact hc
      · exact ih (fun a ha => hlength a (List.mem_cons_of_mem _ ha)) hrest a hmem

theorem deleteVMNode_eq_self_iff :
    deleteVMNode vma addr size = vma ↔ ∀ node ∈ vma, ¬Switched node addr size := by
  constructor
  · intro h
    have henclosed : ∀ node ∈ vma, node.overlapped addr size ≠ 8 := by
      intro node hnode
      rw [← h] at hnode
      rcases List.mem_append.mp hnode with hmem | hmem
      · obtain ⟨n, -, hkept⟩ := List.mem_flatMap.mp hmem
        exact not_enclosed_of_mem_kept hkept
      · obtain ⟨n, -, hpushed⟩ := List.mem_flatMap.mp hmem
        exact not_enclosed_of_mem_pushed hpushed
    have hlength : (vma.flatMap fun node => node.kept addr size).length = vma.length := by
      rw [List.length_flatMap, List.map_congr_left fun node hnode =>
        length_kept (henclosed node hnode), List.map_const', List.sum_replicate_nat, mul_one]
    have hsum : (deleteVMNode vma addr size).length = vma.length := by rw [h]
    rw [deleteVMNode, List.length_append, hlength] at hsum
    have hnone : (findVMNode vma addr size).flatMap (fun node => node.pushed addr size) = [] :=
      List.length_eq_zero_iff.mp (by omega)
    rw [deleteVMNode, hnone, List.append_nil] at h
    have hkept := eq_singleton_of_flatMap_eq
      (fun node hnode => length_kept (henclosed node hnode)) h
    intro node hnode
    refine not_switched_of_kept (hkept node hnode) (pushed_eq_nil fun henclosing => ?_)
    have hfound : node ∈ findVMNode vma addr size :=
      List.mem_filter.mpr ⟨hnode, by rw [henclosing]; rfl⟩
    have hpushed := List.flatMap_eq_nil_iff.mp hnone node hfound
    rw [VMNode.pushed, henclosing] at hpushed
    exact List.cons_ne_nil _ _ hpushed
  · intro h
    have hpushed : (findVMNode vma addr size).flatMap (fun node => node.pushed addr size) = [] :=
      List.flatMap_eq_nil_iff.mpr fun node hnode =>
        (kept_of_not_switched (h node (List.mem_of_mem_filter hnode))).2
    rw [deleteVMNode, hpushed, List.append_nil, List.flatMap_congr fun node hnode =>
      (kept_of_not_switched (h node hnode)).1]
    exact List.flatMap_singleton' vma

end

/-- The same nodes, found by the same lookups. -/
def SameArea (vma vma' : List VMNode) : Prop :=
  vma' = vma ∧ ∀ addr size, findVMNode vma' addr size = findVMNode vma addr size

theorem sameArea_iff {vma vma' : List VMNode} : SameArea vma vma' ↔ vma' = vma :=
  ⟨fun h => h.1, fun h => ⟨h, fun _ _ => by rw [h]⟩⟩

/-- `MAP_FAILED` as a return value. -/
def mapFailed : BitVec 64 :=
  BitVec.ofInt 64 (-1)

/-- An `mmap` that failed in the trace or fails in the replay, or a `munmap` that
failed in the trace. -/
def FailedMapping (w : World) (a : Execution) : Prop :=
  a.kind = .mmap ∧ (tracedAddress a = mapFailed ∨ replayedAddress w a = mapFailed) ∨
    a.kind = .munmap ∧ a.returnValue = -1

instance (w : World) (a : Execution) : Decidable (FailedMapping w a) :=
  inferInstanceAs (Decidable (_ ∨ _))

/-- The replay gives up the `mmap`; the `munmap` meets no node in one way alone. -/
def LeavesArea (w : World) (a : Execution) : Prop :=
  if a.kind = .mmap then GivesUp w a
  else ∀ node ∈ w.vmArea a.pid, ¬Switched node (startAddress a) (length a)

instance (w : World) (a : Execution) : Decidable (LeavesArea w a) :=
  inferInstanceAs (Decidable (if a.kind = .mmap then GivesUp w a
    else ∀ node ∈ w.vmArea a.pid, ¬Switched node (startAddress a) (length a)))

theorem failed_mapping_keeps_area_iff {opts : Options} {w w' : World} {a : Execution}
    (h : executeStep opts w a = some w') (hfailed : FailedMapping w a) :
    SameArea (w.vmArea a.pid) (w'.vmArea a.pid) ↔ LeavesArea w a := by
  rw [sameArea_iff]
  unfold LeavesArea
  rcases hfailed with ⟨hkind, -⟩ | ⟨hkind, -⟩
  · rw [vmArea_of_mmap h hkind, if_pos hkind]
    split
    · rename_i hgivesUp
      exact iff_of_true rfl hgivesUp
    · rename_i hentered
      refine iff_of_false (fun heq => ?_) hentered
      have hlength := congrArg List.length heq
      rw [insertVMNode, List.length_append, List.length_singleton] at hlength
      omega
  · have hmmap : a.kind ≠ .mmap := by
      rw [hkind]
      exact fun heq => nomatch heq
    rw [vmArea_of_munmap h hkind, if_neg hmmap]
    exact deleteVMNode_eq_self_iff

/-- A mapping of one page without a hint. -/
def anonymousMmap (returnValue : Int) : Execution :=
  queuedCall .mmap 1 returnValue fun
    | .length => 0x1000
    | .descriptor => -1
    | _ => 0

/-- The traced call failed, and the replay enters a node for it. -/
theorem failedMmap_changes_area :
    ∃ w', executeStep quiet (startWorld inOrder) (anonymousMmap (-1)) = some w' ∧
      FailedMapping (startWorld inOrder) (anonymousMmap (-1)) ∧
      ¬SameArea ((startWorld inOrder).vmArea 1) (w'.vmArea 1) := by
  refine ⟨_, rfl, by decide, ?_⟩
  rw [sameArea_iff]
  decide

theorem failedMmap_keeps_area_iff :
    SameArea ((startWorld inOrder).vmArea 1)
        ((worldAfter (startWorld inOrder) [anonymousMmap (-1)]).vmArea 1) ↔
      LeavesArea (startWorld inOrder) (anonymousMmap (-1)) :=
  @failed_mapping_keeps_area_iff quiet (startWorld inOrder)
    (worldAfter (startWorld inOrder) [anonymousMmap (-1)]) (anonymousMmap (-1)) rfl (by decide)

end SyscallReplayer.MappingRuns
