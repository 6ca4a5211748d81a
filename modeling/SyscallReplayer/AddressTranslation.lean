import Mathlib.Algebra.Order.Group.Multiset
import Mathlib.Data.Multiset.Filter
import Mathlib.Data.List.Perm.Basic
import Mathlib.Tactic.SplitIfs
import SyscallReplayer.VirtualAddressSpace

/-!
# What the address map says of an address

Each node that covers an address of the traced process translates it to an
address of the replay. Deleting a range takes the translations of the range
away and leaves those of every other address.
-/

namespace SyscallReplayer.AddressTranslation

open VirtualAddressSpace

structure Translation where
  address : BitVec 64
  tracedFd : Int
  replayedFd : Int
deriving DecidableEq

/-- `x` is one of the `size` addresses from `start` on. -/
def InRange (start size x : BitVec 64) : Prop :=
  start.toNat ≤ x.toNat ∧ x.toNat < start.toNat + size.toNat

instance (start size x : BitVec 64) : Decidable (InRange start size x) :=
  inferInstanceAs (Decidable (_ ∧ _))

/-- The end of a range is an address too. -/
def Fits (start size : BitVec 64) : Prop :=
  start.toNat + size.toNat < 2 ^ 64

instance (start size : BitVec 64) : Decidable (Fits start size) :=
  inferInstanceAs (Decidable (_ < _))

def Covers (node : VMNode) (x : BitVec 64) : Prop :=
  InRange node.tracedStartAddress node.mapSize x

instance (node : VMNode) (x : BitVec 64) : Decidable (Covers node x) :=
  inferInstanceAs (Decidable (InRange _ _ _))

def NodeFits (node : VMNode) : Prop :=
  Fits node.tracedStartAddress node.mapSize

instance (node : VMNode) : Decidable (NodeFits node) :=
  inferInstanceAs (Decidable (Fits _ _))

def translate (node : VMNode) (x : BitVec 64) : Translation :=
  ⟨node.replayedStartAddress + (x - node.tracedStartAddress), node.tracedFd, node.replayedFd⟩

/-- What the nodes make of `x`, once for each node that covers it. -/
def translations (vma : List VMNode) (x : BitVec 64) : Multiset Translation :=
  ((vma.filter fun node => Covers node x).map fun node => translate node x : List Translation)

theorem Fits.toNat_add {start size : BitVec 64} (h : Fits start size) :
    (start + size).toNat = start.toNat + size.toNat := by
  rw [BitVec.toNat_add, Nat.mod_eq_of_lt h]

section

variable {node : VMNode} {addr size : BitVec 64}

theorem toNat_endAddr (h : NodeFits node) :
    node.endAddr.toNat = node.tracedStartAddress.toNat + node.mapSize.toNat :=
  h.toNat_add

/-- How a range lies to a node, by the value that `delete_VM_node` switches on. -/
inductive Overlap (start last addr stop : Nat) : Nat → Prop
  | apart (h : stop ≤ start ∨ last ≤ addr) : Overlap start last addr stop 0
  | enclosing (h : start < addr) (h' : stop < last) : Overlap start last addr stop 1
  | right (h : addr ≤ start) (h' : start < stop) (h'' : stop < last) :
      Overlap start last addr stop 2
  | left (h : start < addr) (h' : addr < last) (h'' : last ≤ stop) :
      Overlap start last addr stop 4
  | enclosed (h : addr ≤ start) (h' : last ≤ stop) : Overlap start last addr stop 8

theorem overlap_overlapped (hnode : NodeFits node) (hrange : Fits addr size) :
    Overlap node.tracedStartAddress.toNat
      (node.tracedStartAddress.toNat + node.mapSize.toNat) addr.toNat
      (addr.toNat + size.toNat) (node.overlapped addr size) := by
  unfold VMNode.overlapped checkLeftOverlapping checkRightOverlapping checkEnclosedOverlapping
    checkEnclosingOverlapping
  simp only [ge_iff_le, gt_iff_lt, BitVec.le_def, BitVec.lt_def, hrange.toNat_add,
    toNat_endAddr hnode]
  generalize node.tracedStartAddress.toNat = s
  generalize node.mapSize.toNat = n
  generalize addr.toNat = a
  generalize size.toNat = m
  split_ifs with hleft hright hin hout
  all_goals simp only [Bool.and_eq_true, decide_eq_true_eq] at *
  all_goals first
    | exact .enclosed (by omega) (by omega)
    | exact .left (by omega) (by omega) (by omega)
    | exact .right (by omega) (by omega) (by omega)
    | exact .enclosing (by omega) (by omega)
    | exact .apart (by omega)
    | omega

theorem parts_of_overlapped_eq_zero (h : node.overlapped addr size = 0) :
    node.kept addr size = [node] ∧ node.pushed addr size = [] := by
  rw [VMNode.kept, VMNode.pushed, h]
  exact ⟨rfl, rfl⟩

@[simp] theorem translations_nil (x : BitVec 64) : translations [] x = 0 := rfl

theorem translations_append (l l' : List VMNode) (x : BitVec 64) :
    translations (l ++ l') x = translations l x + translations l' x := by
  unfold translations
  rw [List.filter_append, List.map_append, Multiset.coe_add]

theorem translations_singleton (node : VMNode) (x : BitVec 64) :
    translations [node] x = if Covers node x then {translate node x} else 0 := by
  split
  · rename_i hcovers
    simp [translations, hcovers]
  · rename_i hnot
    simp [translations, hnot]

theorem covers_front {x : BitVec 64} (h : node.tracedStartAddress.toNat < addr.toNat) :
    Covers { node with mapSize := addr - node.tracedStartAddress } x ↔
      node.tracedStartAddress.toNat ≤ x.toNat ∧ x.toNat < addr.toNat := by
  unfold Covers InRange
  dsimp only
  rw [BitVec.toNat_sub_of_le (BitVec.le_def.mpr (by omega))]
  omega

theorem covers_back {stop replayed : BitVec 64} {x : BitVec 64} (hnode : NodeFits node)
    (h : stop.toNat ≤ node.endAddr.toNat) :
    Covers { node with
      tracedStartAddress := stop
      replayedStartAddress := replayed
      mapSize := node.endAddr - stop } x ↔
      stop.toNat ≤ x.toNat ∧
        x.toNat < node.tracedStartAddress.toNat + node.mapSize.toNat := by
  unfold Covers InRange
  dsimp only
  rw [BitVec.toNat_sub_of_le (BitVec.le_def.mpr h)]
  rw [toNat_endAddr hnode] at h ⊢
  omega

theorem translations_part (node : VMNode) {part : VMNode} {x : BitVec 64} (first last : Nat)
    (hcovers : Covers part x ↔ first ≤ x.toNat ∧ x.toNat < last)
    (htranslate : translate part x = translate node x) :
    translations [part] x =
      if first ≤ x.toNat ∧ x.toNat < last then {translate node x} else 0 := by
  rw [translations_singleton, htranslate]
  simp only [hcovers]

theorem ite_part {α : Type*} {P R S : Prop} [Decidable P] [Decidable R] [Decidable S]
    {t : Multiset α} (h : P ↔ ¬R ∧ S) :
    (if P then t else 0) = if R then 0 else if S then t else 0 := by
  by_cases hR : R
  · rw [if_pos hR, if_neg fun hP => (h.mp hP).1 hR]
  · rw [if_neg hR]
    by_cases hS : S
    · rw [if_pos hS, if_pos (h.mpr ⟨hR, hS⟩)]
    · rw [if_neg hS, if_neg fun hP => hS (h.mp hP).2]

theorem ite_add_ite {α : Type*} {P Q : Prop} [Decidable P] [Decidable Q] {t : Multiset α}
    (h : P → ¬Q) : (if P then t else 0) + (if Q then t else 0) = if P ∨ Q then t else 0 := by
  by_cases hP : P
  · rw [if_pos hP, if_neg (h hP), if_pos (.inl hP), add_zero]
  · rw [if_neg hP, zero_add]
    simp only [hP, false_or]

theorem mapSize_sub_front (node : VMNode) (stop : BitVec 64) :
    node.mapSize - (stop - node.tracedStartAddress) = node.endAddr - stop := by
  unfold VMNode.endAddr
  grind

theorem translations_node (hnode : NodeFits node) (hrange : Fits addr size) (x : BitVec 64) :
    translations (node.kept addr size ++ node.pushed addr size) x =
      if InRange addr size x then 0 else translations [node] x := by
  have hoverlap := overlap_overlapped hnode hrange
  have hend := toNat_endAddr hnode
  have hstop := hrange.toNat_add
  have hin : InRange addr size x ↔ addr.toNat ≤ x.toNat ∧ x.toNat < addr.toNat + size.toNat :=
    Iff.rfl
  rw [translations_part node node.tracedStartAddress.toNat
    (node.tracedStartAddress.toNat + node.mapSize.toNat) Iff.rfl rfl]
  generalize hvalue : node.overlapped addr size = value at hoverlap
  cases hoverlap with
  | apart h =>
      have hparts : node.kept addr size ++ node.pushed addr size = [node] := by
        obtain ⟨hkept, hpushed⟩ := parts_of_overlapped_eq_zero hvalue
        rw [hkept, hpushed]
        rfl
      rw [hparts, translations_part node node.tracedStartAddress.toNat
        (node.tracedStartAddress.toNat + node.mapSize.toNat) Iff.rfl rfl]
      apply ite_part
      rw [hin]
      omega
  | enclosing h h' =>
      have hparts : node.kept addr size ++ node.pushed addr size =
          [{ node with mapSize := addr - node.tracedStartAddress }] ++
            [{ node with
              tracedStartAddress := addr + size
              replayedStartAddress :=
                node.replayedStartAddress + (addr + size) - node.tracedStartAddress
              mapSize := node.endAddr - (addr + size) }] := by
        rw [VMNode.kept, VMNode.pushed, hvalue]
        rfl
      rw [hparts, translations_append, translations_part node _ _ (covers_front h) rfl,
        translations_part node _ _ (covers_back hnode (by omega)) ?_, ite_add_ite (by omega)]
      · apply ite_part
        rw [hin]
        omega
      · unfold translate
        congr 1
        grind
  | right h h' h'' =>
      have hparts : node.kept addr size ++ node.pushed addr size =
          [{ node with
            tracedStartAddress := addr + size
            replayedStartAddress :=
              node.replayedStartAddress + (addr + size - node.tracedStartAddress)
            mapSize := node.endAddr - (addr + size) }] := by
        rw [VMNode.kept, VMNode.pushed, hvalue, ← mapSize_sub_front]
        rfl
      rw [hparts, translations_part node _ _ (covers_back hnode (by omega)) ?_]
      · apply ite_part
        rw [hin]
        omega
      · unfold translate
        congr 1
        grind
  | left h h' h'' =>
      have hparts : node.kept addr size ++ node.pushed addr size =
          [{ node with mapSize := addr - node.tracedStartAddress }] := by
        rw [VMNode.kept, VMNode.pushed, hvalue]
        rfl
      rw [hparts, translations_part node _ _ (covers_front h) rfl]
      apply ite_part
      rw [hin]
      omega
  | enclosed h h' =>
      have hparts : node.kept addr size ++ node.pushed addr size = [] := by
        rw [VMNode.kept, VMNode.pushed, hvalue]
        rfl
      have hnone : (if False then {translate node x} else 0 : Multiset Translation) =
          if InRange addr size x then 0 else
            if node.tracedStartAddress.toNat ≤ x.toNat ∧
                x.toNat < node.tracedStartAddress.toNat + node.mapSize.toNat
            then {translate node x} else 0 := by
        apply ite_part
        rw [hin]
        refine iff_of_false not_false ?_
        omega
      rw [hparts, translations_nil]
      exact hnone

end

theorem translations_cons (node : VMNode) (vma : List VMNode) (x : BitVec 64) :
    translations (node :: vma) x = translations [node] x + translations vma x :=
  translations_append [node] vma x

theorem flatMap_pushed (vma : List VMNode) (addr size : BitVec 64) :
    (findVMNode vma addr size).flatMap (fun node => node.pushed addr size) =
      vma.flatMap fun node => node.pushed addr size := by
  induction vma with
  | nil => rfl
  | cons node vma ih =>
      unfold findVMNode at ih ⊢
      rw [List.flatMap_cons, ← ih]
      by_cases h : node.overlapped addr size = 0
      · rw [(parts_of_overlapped_eq_zero h).2, List.nil_append,
          List.filter_cons_of_neg (by simpa using h)]
      · rw [List.filter_cons_of_pos (by simpa using h), List.flatMap_cons]

/-- A range that is deleted has no translations any more, and every other address
has the translations it had. -/
theorem translations_deleteVMNode {vma : List VMNode} {addr size : BitVec 64}
    (hvma : ∀ node ∈ vma, NodeFits node) (hrange : Fits addr size) (x : BitVec 64) :
    translations (deleteVMNode vma addr size) x =
      if InRange addr size x then 0 else translations vma x := by
  rw [deleteVMNode, translations_append, flatMap_pushed]
  induction vma with
  | nil =>
      split
      · rfl
      · rfl
  | cons node vma ih =>
      have hnode := translations_node (hvma node List.mem_cons_self) hrange x
      rw [translations_append] at hnode
      have hrest := ih fun n hn => hvma n (List.mem_cons_of_mem node hn)
      rw [List.flatMap_cons, List.flatMap_cons, translations_append, translations_append,
        add_add_add_comm, hnode, hrest, translations_cons node vma]
      split
      · rfl
      · rfl

theorem translations_eq_zero {vma : List VMNode} {x : BitVec 64} :
    translations vma x = 0 ↔ ∀ node ∈ vma, ¬Covers node x := by
  unfold translations
  rw [Multiset.coe_eq_zero, List.map_eq_nil_iff, List.filter_eq_nil_iff]
  simp only [decide_eq_true_eq]

/-- `delete_VM_node` subtracts the range from what the nodes cover, and does not
touch the translations of the other addresses. -/
theorem deleteVMNode_subtracts {vma : List VMNode} {addr size : BitVec 64}
    (hvma : ∀ node ∈ vma, NodeFits node) (hrange : Fits addr size) :
    (∀ node ∈ deleteVMNode vma addr size, ∀ x, InRange addr size x → ¬Covers node x) ∧
      ∀ x, ¬InRange addr size x →
        translations (deleteVMNode vma addr size) x = translations vma x := by
  constructor
  · intro node hnode x hx
    have hnone : translations (deleteVMNode vma addr size) x = 0 := by
      rw [translations_deleteVMNode hvma hrange, if_pos hx]
    exact translations_eq_zero.mp hnone node hnode
  · intro x hx
    rw [translations_deleteVMNode hvma hrange, if_neg hx]

/-- Two nodes that overlap, one of which is split and the other one cut. -/
def overlappingArea : List VMNode :=
  [⟨0x1000, 0x9000, 0x4000, 3, 5⟩, ⟨0x2800, 0x20000, 0x2000, 4, 6⟩]

theorem overlappingArea_subtracts :
    (∀ node ∈ deleteVMNode overlappingArea 0x2000 0x1000, ∀ x, InRange 0x2000 0x1000 x →
      ¬Covers node x) ∧
      ∀ x, ¬InRange 0x2000 0x1000 x →
        translations (deleteVMNode overlappingArea 0x2000 0x1000) x =
          translations overlappingArea x :=
  deleteVMNode_subtracts (by decide) (by decide)

end SyscallReplayer.AddressTranslation
