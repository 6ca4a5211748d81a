import Mathlib.Order.Interval.Set.LinearOrder
import SyscallReplayer.AreaNodes

/-!
# The ways to overlap

A range and a node that meet do so in exactly one of the four ways that are
tested. So the nodes that are found are those that meet the range, and each of
them runs into one of the four cases of the switch.
-/

namespace SyscallReplayer.OverlapPartition

open VirtualAddressSpace AddressTranslation PointerVectors AreaNodes

/-- The four tests of a range against the interval from `start` to `stop`. -/
def overlapChecks (addr size start stop : BitVec 64) : List Bool :=
  [checkLeftOverlapping addr size start stop, checkRightOverlapping addr size start stop,
    checkEnclosedOverlapping addr size start stop, checkEnclosingOverlapping addr size start stop]

/-- The intervals have an address in common. -/
def Intersect (addr size start stop : BitVec 64) : Prop :=
  (Set.Ico addr.toNat (addr.toNat + size.toNat) ∩ Set.Ico start.toNat stop.toNat).Nonempty

/-- At most one test succeeds, and one does just where the intervals meet. -/
structure Partition (addr size start stop : BitVec 64) : Prop where
  exclusive : (overlapChecks addr size start stop).Pairwise fun a b => ¬(a = true ∧ b = true)
  exhaustive : true ∈ overlapChecks addr size start stop ↔ Intersect addr size start stop

section

variable {addr size start stop : BitVec 64}

theorem checkLeft_iff (hrange : Fits addr size) :
    checkLeftOverlapping addr size start stop = true ↔
      start.toNat < addr.toNat ∧ addr.toNat < stop.toNat ∧
        stop.toNat ≤ addr.toNat + size.toNat := by
  unfold checkLeftOverlapping
  simp only [ge_iff_le, gt_iff_lt, Bool.and_eq_true, decide_eq_true_eq, BitVec.le_def,
    BitVec.lt_def, hrange.toNat_add]
  omega

theorem checkRight_iff (hrange : Fits addr size) :
    checkRightOverlapping addr size start stop = true ↔
      addr.toNat ≤ start.toNat ∧ start.toNat < addr.toNat + size.toNat ∧
        addr.toNat + size.toNat < stop.toNat := by
  unfold checkRightOverlapping
  simp only [gt_iff_lt, Bool.and_eq_true, decide_eq_true_eq, BitVec.le_def, BitVec.lt_def,
    hrange.toNat_add]
  omega

theorem checkEnclosed_iff (hrange : Fits addr size) :
    checkEnclosedOverlapping addr size start stop = true ↔
      addr.toNat ≤ start.toNat ∧ stop.toNat ≤ addr.toNat + size.toNat := by
  unfold checkEnclosedOverlapping
  simp only [ge_iff_le, Bool.and_eq_true, decide_eq_true_eq, BitVec.le_def, hrange.toNat_add]

theorem checkEnclosing_iff (hrange : Fits addr size) :
    checkEnclosingOverlapping addr size start stop = true ↔
      start.toNat < addr.toNat ∧ addr.toNat + size.toNat < stop.toNat := by
  unfold checkEnclosingOverlapping
  simp only [gt_iff_lt, Bool.and_eq_true, decide_eq_true_eq, BitVec.lt_def, hrange.toNat_add]

theorem intersect_iff :
    Intersect addr size start stop ↔
      max addr.toNat start.toNat < min (addr.toNat + size.toNat) stop.toNat := by
  rw [Intersect, Set.Ico_inter_Ico, Set.nonempty_Ico]

theorem partition (hsize : 1 ≤ size.toNat) (hrange : Fits addr size) (hnode : start < stop) :
    Partition addr size start stop := by
  rw [BitVec.lt_def] at hnode
  constructor
  · simp only [overlapChecks, List.pairwise_cons, List.mem_cons, List.not_mem_nil, or_false,
      forall_eq_or_imp, forall_eq, false_imp_iff, implies_true, List.Pairwise.nil, and_true,
      checkLeft_iff hrange, checkRight_iff hrange, checkEnclosed_iff hrange,
      checkEnclosing_iff hrange]
    omega
  · rw [intersect_iff]
    simp only [overlapChecks, List.mem_cons, List.not_mem_nil, or_false, eq_comm (a := true),
      checkLeft_iff hrange, checkRight_iff hrange, checkEnclosed_iff hrange,
      checkEnclosing_iff hrange]
    omega

end

/-- `find_VM_node` gives the nodes that meet the range, in the order of the vector
and each once, and null pointers behind them. -/
structure FindsExactly (area : VMArea) (addr size : BitVec 64) (found : List Nat) : Prop where
  result : findVMNode area addr size =
    found.map some ++ List.replicate (area.pointers.length - found.length) none
  order : found.Sublist area.pointers
  once : found.Nodup
  precisely : ∀ p node, p ∈ area.pointers → area.deref p = some node →
    (p ∈ found ↔ Intersect addr size node.tracedStartAddress node.endAddr)

/-- Whichever pointer the loop of `delete_VM_node` comes to, the node behind it is
there, and its switch has a case for it. -/
def AlwaysMatches (area : VMArea) (addr size : BitVec 64) : Prop :=
  ∀ before p after, findVMNode area addr size = before ++ some p :: after →
    ∃ node, (before.foldl (visit addr size) area).deref p = some node ∧
      node.overlapped addr size ∈ [8, 4, 2, 1]

section

variable {area : VMArea} {addr size : BitVec 64} {node : VMNode} {p : Nat}

theorem overlaps_iff_mem (node : VMNode) (addr size : BitVec 64) :
    overlaps node addr size = true ↔
      true ∈ overlapChecks addr size node.tracedStartAddress node.endAddr := by
  simp only [overlaps, overlapChecks, Bool.or_eq_true, List.mem_cons, List.not_mem_nil, or_false,
    eq_comm (a := true), or_assoc]

/-- A node that ends behind its start does not wrap around. -/
theorem nodeFits_of_lt (h : node.tracedStartAddress < node.endAddr) : NodeFits node := by
  have hstart := node.tracedStartAddress.isLt
  have hsize := node.mapSize.isLt
  rw [VMNode.endAddr, BitVec.lt_def, BitVec.toNat_add] at h
  unfold NodeFits Fits
  omega

theorem overlapped_mem_of_overlaps (hnode : NodeFits node) (hrange : Fits addr size)
    (h : overlaps node addr size = true) : node.overlapped addr size ∈ [8, 4, 2, 1] := by
  rw [overlaps_eq, decide_eq_true_iff] at h
  have hoverlap := overlap_overlapped hnode hrange
  generalize node.overlapped addr size = value at h hoverlap
  cases hoverlap with
  | apart _ => exact absurd rfl h
  | enclosing _ _ | right _ _ _ | left _ _ _ | enclosed _ _ => decide

theorem findsExactly (hsize : 1 ≤ size.toNat) (hrange : Fits addr size)
    (hnodes : ∀ node ∈ area.contents, node.tracedStartAddress < node.endAddr) :
    FindsExactly area addr size (area.pointers.filter (overlapping area addr size)) where
  result := by rw [AreaNodes.findVMNode, List.drop_replicate]
  order := List.filter_sublist
  once := area.distinct.filter _
  precisely p node hp hnode := by
    have hlt := hnodes node (PointerVector.mem_contents hp hnode)
    rw [List.mem_filter, and_iff_right hp, overlapping_of_deref hnode, overlaps_iff_mem]
    exact (partition hsize hrange hlt).exhaustive

theorem alwaysMatches (hrange : Fits addr size)
    (hnodes : ∀ node ∈ area.contents, node.tracedStartAddress < node.endAddr) :
    AlwaysMatches area addr size := by
  intro before p after hfind
  have hfound : area.pointers.filter (overlapping area addr size) =
      before.reduceOption ++ p :: after.reduceOption := by
    rw [← List.reduceOption_cons_of_some, ← List.reduceOption_append, ← hfind,
      reduceOption_findVMNode]
  have hmem : p ∈ area.pointers.filter (overlapping area addr size) :=
    hfound ▸ List.mem_append_right _ List.mem_cons_self
  obtain ⟨hp, hoverlaps⟩ := List.mem_filter.mp hmem
  obtain ⟨node, hnode⟩ := PointerVector.deref_of_mem hp
  rw [overlapping_of_deref hnode] at hoverlaps
  have hnot : some p ∉ before := by
    intro hbefore
    have hdistinct := area.distinct.filter (overlapping area addr size)
    rw [hfound, List.nodup_append] at hdistinct
    exact hdistinct.2.2 p (List.reduceOption_mem_iff.mpr hbefore) p List.mem_cons_self rfl
  have hfits := nodeFits_of_lt (hnodes node (PointerVector.mem_contents hp hnode))
  exact ⟨node, deref_foldl_visit hnot hnode, overlapped_mem_of_overlaps hfits hrange hoverlaps⟩

end

/-- Of a range with at least one address and a node with at least one: which test
succeeds is determined, the search finds what meets the range, and the deletion
has a case for everything that is found. -/
theorem overlap_partition {addr size : BitVec 64} (hsize : 1 ≤ size.toNat)
    (hrange : Fits addr size) :
    (∀ start stop, start < stop → Partition addr size start stop) ∧
      ∀ area : VMArea, (∀ node ∈ area.contents, node.tracedStartAddress < node.endAddr) →
        (∃ found, FindsExactly area addr size found) ∧ AlwaysMatches area addr size :=
  ⟨fun _ _ hnode => partition hsize hrange hnode, fun _ hnodes =>
    ⟨⟨_, findsExactly hsize hrange hnodes⟩, alwaysMatches hrange hnodes⟩⟩

/-- Two pages and, apart from them, another one. -/
def mappedTwice : VMArea :=
  AreaNodes.insertVMNode (AreaNodes.insertVMNode .empty ⟨0, 65536, 8192, 3, 5⟩)
    ⟨16384, 81920, 4096, -1, -1⟩

example : AreaNodes.findVMNode mappedTwice 4096 4096 = [some 0, none] := by decide

theorem second_page_partition :
    (∀ start stop, start < stop → Partition 4096 4096 start stop) ∧
      (∃ found, FindsExactly mappedTwice 4096 4096 found) ∧ AlwaysMatches mappedTwice 4096 4096 :=
  have hpartition := @overlap_partition 4096 4096 (by decide) (by decide)
  ⟨hpartition.1, hpartition.2 mappedTwice (by decide)⟩

end SyscallReplayer.OverlapPartition
