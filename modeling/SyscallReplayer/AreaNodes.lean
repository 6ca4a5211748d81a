import Mathlib.Data.List.ReduceOption
import SyscallReplayer.AddressTranslation
import SyscallReplayer.PointerVectors

/-!
# The nodes of an area behind their pointers

`VM_area` has a vector of pointers to its nodes. `find_VM_node` copies the
pointers to the nodes that a range overlaps into a vector of null pointers, and
`delete_VM_node` changes the nodes behind them one after the other.
-/

namespace SyscallReplayer.AreaNodes

open VirtualAddressSpace AddressTranslation PointerVectors

abbrev VMArea := PointerVector VMNode

def overlaps (node : VMNode) (addr size : BitVec 64) : Bool :=
  let startAddr := node.tracedStartAddress
  let endAddr := node.endAddr
  checkLeftOverlapping addr size startAddr endAddr ||
    checkRightOverlapping addr size startAddr endAddr ||
    checkEnclosedOverlapping addr size startAddr endAddr ||
    checkEnclosingOverlapping addr size startAddr endAddr

def overlapping (area : VMArea) (addr size : BitVec 64) (p : Nat) : Bool :=
  (area.deref p).any fun node => overlaps node addr size

/-- `copy_if` to the front of as many null pointers as there are nodes. -/
def findVMNode (area : VMArea) (addr size : BitVec 64) : List (Option Nat) :=
  let found := area.pointers.filter (overlapping area addr size)
  found.map some ++ (List.replicate area.pointers.length none).drop found.length

def insertVMNode (area : VMArea) (node : VMNode) : VMArea :=
  area.pushBack node

/-- The switch of `delete_VM_node`. -/
def switchNode (addr size : BitVec 64) (area : VMArea) (p : Nat) (node : VMNode) : VMArea :=
  match node.overlapped addr size with
  | 8 => area.erase p
  | 4 => area.assign p { node with mapSize := addr - node.tracedStartAddress }
  | 2 => area.assign p { node with
      tracedStartAddress := addr + size
      replayedStartAddress :=
        node.replayedStartAddress + (addr + size - node.tracedStartAddress)
      mapSize := node.mapSize - (addr + size - node.tracedStartAddress) }
  | 1 => (area.pushBack { node with
        tracedStartAddress := addr + size
        replayedStartAddress :=
          node.replayedStartAddress + (addr + size) - node.tracedStartAddress
        mapSize := node.endAddr - (addr + size) }).assign p
      { node with mapSize := addr - node.tracedStartAddress }
  | _ => area

/-- One turn of the loop over the pointers that were found. -/
def visit (addr size : BitVec 64) (area : VMArea) : Option Nat → VMArea
  | none => area
  | some p =>
      match area.deref p with
      | none => area
      | some node => switchNode addr size area p node

def deleteVMNode (area : VMArea) (addr size : BitVec 64) : VMArea :=
  (findVMNode area addr size).foldl (visit addr size) area

section

variable {area : VMArea} {addr size : BitVec 64} {node : VMNode} {p : Nat} {front back : List Nat}

/-- In the place of one node there is now what is kept of it, and what is pushed of
it is at the end. -/
def Turned (area' : VMArea) (addr size : BitVec 64) (node : VMNode) (front back : List Nat) :
    Prop :=
  ∃ here new, area'.pointers = front ++ here ++ back ++ new ∧
    area'.read here = node.kept addr size ∧ area'.read new = node.pushed addr size

theorem turned_of_deref {area' : VMArea} (h : area'.pointers = front ++ p :: back) {part : VMNode}
    (hpart : area'.deref p = some part) (hkept : node.kept addr size = [part])
    (hpushed : node.pushed addr size = []) : Turned area' addr size node front back := by
  refine ⟨[p], [], ?_, ?_, ?_⟩
  · rw [List.append_nil, List.append_assoc]
    exact h
  · rw [hkept, PointerVector.read_singleton hpart]
  · rw [hpushed]
    rfl

theorem turned_split (h : area.pointers = front ++ p :: back) (hnode : area.deref p = some node)
    {part rest : VMNode} (hkept : node.kept addr size = [part])
    (hpushed : node.pushed addr size = [rest]) :
    Turned ((area.pushBack rest).assign p part) addr size node front back := by
  have hne : area.objects.length ≠ p := by
    have hmem : p ∈ area.pointers := h ▸ List.mem_append_right _ List.mem_cons_self
    exact (Nat.ne_of_lt (area.allocated p hmem)).symm
  refine ⟨[p], [area.objects.length], ?_, ?_, ?_⟩
  · rw [List.append_assoc front]
    exact congrArg (fun ps => ps ++ [area.objects.length]) h
  · rw [hkept]
    exact PointerVector.read_singleton
      (PointerVector.deref_assign_self (PointerVector.deref_pushBack hnode))
  · rw [hpushed]
    apply PointerVector.read_singleton
    rw [PointerVector.deref_assign_of_ne hne, PointerVector.deref_pushBack_last]

theorem turned_switchNode (h : area.pointers = front ++ p :: back)
    (hnode : area.deref p = some node) :
    Turned (switchNode addr size area p node) addr size node front back := by
  unfold switchNode
  split
  · rename_i hvalue
    refine ⟨[], [], ?_, ?_, ?_⟩
    · rw [PointerVector.pointers_erase h, List.append_nil, List.append_nil]
    · rw [VMNode.kept, hvalue]
      rfl
    · rw [VMNode.pushed, hvalue]
      rfl
  · rename_i hvalue
    exact turned_of_deref h (PointerVector.deref_assign_self hnode)
      (by simp only [VMNode.kept, hvalue]) (by simp only [VMNode.pushed, hvalue])
  · rename_i hvalue
    exact turned_of_deref h (PointerVector.deref_assign_self hnode)
      (by simp only [VMNode.kept, hvalue]) (by simp only [VMNode.pushed, hvalue])
  · rename_i hvalue
    exact turned_split h hnode (by simp only [VMNode.kept, hvalue])
      (by simp only [VMNode.pushed, hvalue])
  · apply turned_of_deref h hnode
    · rw [VMNode.kept]
      split
      all_goals first
        | rfl
        | contradiction
    · rw [VMNode.pushed]
      split
      · contradiction
      · rfl

theorem deref_switchNode {q : Nat} {x : VMNode} (hne : q ≠ p) (hq : area.deref q = some x) :
    (switchNode addr size area p node).deref q = some x := by
  unfold switchNode
  split
  · rw [PointerVector.deref_erase, hq]
  · rw [PointerVector.deref_assign_of_ne hne, hq]
  · rw [PointerVector.deref_assign_of_ne hne, hq]
  · rw [PointerVector.deref_assign_of_ne hne, PointerVector.deref_pushBack hq]
  · exact hq

theorem deref_visit {r : Option Nat} {q : Nat} {x : VMNode} (hne : some q ≠ r)
    (hq : area.deref q = some x) : (visit addr size area r).deref q = some x := by
  unfold visit
  split
  · exact hq
  · rename_i p
    split
    · exact hq
    · exact deref_switchNode (fun heq => hne (congrArg some heq)) hq

theorem deref_foldl_visit {before : List (Option Nat)} {q : Nat} {x : VMNode}
    (hnot : some q ∉ before) (hq : area.deref q = some x) :
    (before.foldl (visit addr size) area).deref q = some x := by
  induction before generalizing area with
  | nil => exact hq
  | cons r before ih =>
      rw [List.mem_cons, not_or] at hnot
      exact ih hnot.2 (deref_visit hnot.1 hq)

theorem overlaps_eq (node : VMNode) (addr size : BitVec 64) :
    overlaps node addr size = decide (node.overlapped addr size ≠ 0) := by
  unfold overlaps VMNode.overlapped
  dsimp only
  generalize checkLeftOverlapping addr size node.tracedStartAddress node.endAddr = left
  generalize checkRightOverlapping addr size node.tracedStartAddress node.endAddr = right
  generalize checkEnclosedOverlapping addr size node.tracedStartAddress node.endAddr = enclosed
  generalize checkEnclosingOverlapping addr size node.tracedStartAddress node.endAddr = enclosing
  revert left right enclosed enclosing
  decide

theorem overlapping_of_deref (h : area.deref p = some node) :
    overlapping area addr size p = overlaps node addr size := by
  rw [overlapping, h, Option.any_some]

theorem kept_of_not_overlaps (h : overlaps node addr size = false) :
    node.kept addr size = [node] ∧ node.pushed addr size = [] := by
  rw [overlaps_eq, decide_eq_false_iff_not, not_not] at h
  exact parts_of_overlapped_eq_zero h

theorem reduceOption_map_some (l : List Nat) : (l.map some).reduceOption = l := by
  rw [List.reduceOption, List.filterMap_map]
  exact List.filterMap_some

theorem reduceOption_findVMNode (area : VMArea) (addr size : BitVec 64) :
    (findVMNode area addr size).reduceOption =
      area.pointers.filter (overlapping area addr size) := by
  rw [findVMNode, List.drop_replicate, List.reduceOption_append, reduceOption_map_some,
    List.reduceOption_replicate_none, List.append_nil]

theorem read_filter_overlapping (area : VMArea) (addr size : BitVec 64) (ps : List Nat) :
    area.read (ps.filter (overlapping area addr size)) =
      VirtualAddressSpace.findVMNode (area.read ps) addr size := by
  induction ps with
  | nil => rfl
  | cons p ps ih =>
      unfold VirtualAddressSpace.findVMNode at ih ⊢
      cases hp : area.deref p with
      | none =>
          have hnot : ¬overlapping area addr size p = true := by
            rw [overlapping, hp, Option.any_none]
            exact Bool.false_ne_true
          rw [List.filter_cons_of_neg hnot, PointerVector.read_cons_none hp, ih]
      | some node =>
          have hoverlaps : overlapping area addr size p = overlaps node addr size :=
            overlapping_of_deref hp
          rw [overlaps_eq] at hoverlaps
          rw [PointerVector.read_cons_some hp, List.filter_cons, List.filter_cons, hoverlaps]
          split
          · rw [PointerVector.read_cons_some hp, ih]
          · exact ih

/-- Behind the pointers `find_VM_node` is the search in the list of nodes. -/
theorem read_findVMNode (area : VMArea) (addr size : BitVec 64) :
    area.read (findVMNode area addr size).reduceOption =
      VirtualAddressSpace.findVMNode area.contents addr size := by
  rw [reduceOption_findVMNode]
  exact read_filter_overlapping area addr size area.pointers

theorem contents_insertVMNode (area : VMArea) (node : VMNode) :
    (insertVMNode area node).contents = VirtualAddressSpace.insertVMNode area.contents node :=
  PointerVector.contents_pushBack area node

/-- The area after the turn of the loop for `p`, if there is one. -/
def turn (addr size : BitVec 64) (found : Nat → Bool) (area : VMArea) (p : Nat) : VMArea :=
  if found p then visit addr size area (some p) else area

theorem turned_turn {found : Nat → Bool} (hfound : found p = overlapping area addr size p)
    (h : area.pointers = front ++ p :: back) (hnode : area.deref p = some node) :
    Turned (turn addr size found area p) addr size node front back := by
  rw [overlapping_of_deref hnode] at hfound
  unfold turn
  split
  · rw [visit, hnode]
    exact turned_switchNode h hnode
  · rename_i hnot
    rw [hfound, Bool.not_eq_true] at hnot
    obtain ⟨hkept, hpushed⟩ := kept_of_not_overlaps hnot
    exact turned_of_deref h hnode hkept hpushed

theorem deref_turn {found : Nat → Bool} {q : Nat} (hq : q ∈ area.pointers) (hne : q ≠ p) :
    (turn addr size found area p).deref q = area.deref q := by
  obtain ⟨x, hx⟩ := PointerVector.deref_of_mem hq
  unfold turn
  split
  · rw [hx, deref_visit (fun heq => hne (Option.some.inj heq)) hx]
  · rfl

theorem contents_foldl_turn {found : Nat → Bool} (ps : List Nat)
    (h : area.pointers = front ++ ps ++ back)
    (hfound : ∀ q ∈ ps, found q = overlapping area addr size q) :
    (ps.foldl (turn addr size found) area).contents =
      area.read front ++ (area.read ps).flatMap (fun node => node.kept addr size) ++
        area.read back ++ (area.read ps).flatMap fun node => node.pushed addr size := by
  induction ps generalizing area front back with
  | nil =>
      have hnone : area.read [] = [] := rfl
      rw [List.append_nil] at h
      rw [List.foldl_nil, PointerVector.contents, h, PointerVector.read_append, hnone,
        List.flatMap_nil, List.flatMap_nil, List.append_nil, List.append_nil]
  | cons p ps ih =>
      have hsplit : area.pointers = front ++ p :: (ps ++ back) := by
        rw [h, List.append_assoc, List.cons_append]
      obtain ⟨hfront, hrest⟩ := PointerVector.notMem_of_pointers hsplit
      have hmem : ∀ q ∈ front ++ p :: (ps ++ back), q ∈ area.pointers := fun q hq => hsplit ▸ hq
      obtain ⟨node, hnode⟩ := PointerVector.deref_of_mem
        (hmem p (List.mem_append_right _ List.mem_cons_self))
      have hp := hfound p List.mem_cons_self
      obtain ⟨here, new, hpointers, hhere, hnew⟩ := turned_turn hp hsplit hnode
      -- The turn leaves the nodes in front of it and behind it.
      have hbefore : ∀ q ∈ front, (turn addr size found area p).deref q = area.deref q :=
        fun q hq => deref_turn (hmem q (List.mem_append_left _ hq))
          fun heq => hfront (heq ▸ hq)
      have hafter : ∀ q ∈ ps ++ back, (turn addr size found area p).deref q = area.deref q :=
        fun q hq => deref_turn (hmem q (List.mem_append_right _ (List.mem_cons_of_mem _ hq)))
          fun heq => hrest (heq ▸ hq)
      have hnext : (turn addr size found area p).pointers =
          (front ++ here) ++ ps ++ (back ++ new) := by
        rw [hpointers]
        simp only [List.append_assoc]
      have hfound' : ∀ q ∈ ps, found q =
          overlapping (turn addr size found area p) addr size q := by
        intro q hq
        rw [hfound q (List.mem_cons_of_mem _ hq), overlapping, overlapping,
          hafter q (List.mem_append_left _ hq)]
      rw [List.foldl_cons, ih hnext hfound', PointerVector.read_append, PointerVector.read_append,
        hhere, hnew, PointerVector.read_congr hbefore,
        PointerVector.read_congr fun q hq => hafter q (List.mem_append_left _ hq),
        PointerVector.read_congr fun q hq => hafter q (List.mem_append_right _ hq),
        PointerVector.read_cons_some hnode, List.flatMap_cons, List.flatMap_cons]
      simp only [List.append_assoc]

theorem foldl_visit_null (n : Nat) :
    (List.replicate n none).foldl (visit addr size) area = area := by
  induction n with
  | zero => rfl
  | succ n ih => exact ih

theorem deleteVMNode_eq (area : VMArea) (addr size : BitVec 64) :
    deleteVMNode area addr size =
      area.pointers.foldl (turn addr size (overlapping area addr size)) area := by
  unfold deleteVMNode findVMNode
  dsimp only
  rw [List.foldl_append, List.drop_replicate, foldl_visit_null, List.foldl_map, List.foldl_filter]
  rfl

/-- Behind the pointers `delete_VM_node` is the deletion from the list of nodes. -/
theorem contents_deleteVMNode (area : VMArea) (addr size : BitVec 64) :
    (deleteVMNode area addr size).contents =
      VirtualAddressSpace.deleteVMNode area.contents addr size := by
  have hall : area.pointers = [] ++ area.pointers ++ [] := (List.append_nil _).symm
  have hnone : area.read [] = [] := rfl
  rw [deleteVMNode_eq, contents_foldl_turn area.pointers hall fun q _ => rfl, hnone,
    List.nil_append, List.append_nil, VirtualAddressSpace.deleteVMNode, flatMap_pushed]
  rfl

end

end SyscallReplayer.AreaNodes
