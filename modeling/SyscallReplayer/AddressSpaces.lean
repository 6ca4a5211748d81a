import SyscallReplayer.AreaNodes
import SyscallReplayer.ModuleFrames
import SyscallReplayer.UniqueMappings

/-!
# The address spaces of the traced processes

An address space says what each address of a traced process translates to. The
nodes behind the pointers of a `VM_area` keep one, and a replay, which runs one module
after the other, keeps one for each process.
-/

namespace SyscallReplayer.AddressSpaces

open VirtualAddressSpace ReplayWorld ReplayModules
open StatePrograms StateFrames TransitionSystem World ReplayRuns
open AddressTranslation MappingRuns UniqueMappings ModuleFrames

/-- What is known of each address, once for each mapping of it. -/
abbrev Space := BitVec 64 → Multiset Translation

namespace Space

def map (node : VMNode) (space : Space) : Space := fun x =>
  space x + if Covers node x then {translate node x} else 0

def unmap (addr size : BitVec 64) (space : Space) : Space := fun x =>
  if InRange addr size x then 0 else space x

end Space

inductive Operation
  | insert (node : VMNode)
  | delete (addr size : BitVec 64)

namespace Operation

/-- The range of the operation ends before the last address. -/
def Fits : Operation → Prop
  | insert node => NodeFits node
  | delete addr size => AddressTranslation.Fits addr size

instance : DecidablePred Operation.Fits
  | insert node => inferInstanceAs (Decidable (NodeFits node))
  | delete addr size => inferInstanceAs (Decidable (AddressTranslation.Fits addr size))

def onNodes (vma : List VMNode) : Operation → List VMNode
  | insert node => insertVMNode vma node
  | delete addr size => deleteVMNode vma addr size

def onPointers (area : AreaNodes.VMArea) : Operation → AreaNodes.VMArea
  | insert node => AreaNodes.insertVMNode area node
  | delete addr size => AreaNodes.deleteVMNode area addr size

def onSpace (space : Space) : Operation → Space
  | insert node => space.map node
  | delete addr size => space.unmap addr size

end Operation

theorem contents_onPointers (area : AreaNodes.VMArea) (op : Operation) :
    (op.onPointers area).contents = op.onNodes area.contents := by
  cases op with
  | insert node => exact AreaNodes.contents_insertVMNode area node
  | delete addr size => exact AreaNodes.contents_deleteVMNode area addr size

theorem contents_foldl_onPointers (area : AreaNodes.VMArea) (ops : List Operation) :
    (ops.foldl Operation.onPointers area).contents =
      ops.foldl Operation.onNodes area.contents := by
  induction ops generalizing area with
  | nil => rfl
  | cons op ops ih => rw [List.foldl_cons, ih, contents_onPointers, List.foldl_cons]

theorem translations_onNodes {vma : List VMNode} (hvma : ∀ node ∈ vma, NodeFits node)
    {op : Operation} (hop : op.Fits) :
    translations (op.onNodes vma) = op.onSpace (translations vma) := by
  funext x
  cases op with
  | insert node =>
      rw [Operation.onNodes, insertVMNode, translations_append, translations_singleton]
      rfl
  | delete addr size => exact translations_deleteVMNode hvma hop x

theorem fits_part {node part : VMNode} {addr size : BitVec 64} (hnode : NodeFits node)
    (hrange : Fits addr size) (hpart : part ∈ node.kept addr size ++ node.pushed addr size) :
    NodeFits part := by
  have hoverlap := overlap_overlapped hnode hrange
  have hend := toNat_endAddr hnode
  have hstop := hrange.toNat_add
  unfold VMNode.kept VMNode.pushed at hpart
  generalize node.overlapped addr size = value at hoverlap hpart
  cases hoverlap with
  | apart _ =>
      obtain rfl := List.mem_singleton.mp hpart
      exact hnode
  | enclosing h h' =>
      rcases List.mem_pair.mp hpart with rfl | rfl
      · exact Proper.fits (proper_of_mapSize h rfl)
      · have hback : (addr + size).toNat < node.endAddr.toNat := by omega
        exact Proper.fits (proper_of_mapSize hback rfl)
  | right h h' h'' =>
      obtain rfl := List.mem_singleton.mp hpart
      rw [mapSize_sub_front]
      have hback : (addr + size).toNat < node.endAddr.toNat := by omega
      exact Proper.fits (proper_of_mapSize hback rfl)
  | left h _ _ =>
      obtain rfl := List.mem_singleton.mp hpart
      exact Proper.fits (proper_of_mapSize h rfl)
  | enclosed _ _ => cases hpart

theorem fits_onNodes {vma : List VMNode} (hvma : ∀ node ∈ vma, NodeFits node) {op : Operation}
    (hop : op.Fits) : ∀ node ∈ op.onNodes vma, NodeFits node := by
  intro part hpart
  cases op with
  | insert node =>
      rcases List.mem_append.mp hpart with hmem | hmem
      · exact hvma part hmem
      · rw [List.mem_singleton.mp hmem]
        exact hop
  | delete addr size =>
      rcases List.mem_append.mp hpart with hmem | hmem
      · obtain ⟨node, hnode, hkept⟩ := List.mem_flatMap.mp hmem
        exact fits_part (hvma node hnode) hop (List.mem_append_left _ hkept)
      · obtain ⟨node, hnode, hpushed⟩ := List.mem_flatMap.mp hmem
        exact fits_part (hvma node (List.mem_of_mem_filter hnode)) hop
          (List.mem_append_right _ hpushed)

theorem fits_foldl_onNodes {vma : List VMNode} (hvma : ∀ node ∈ vma, NodeFits node)
    {ops : List Operation} (hops : ∀ op ∈ ops, op.Fits) :
    ∀ node ∈ ops.foldl Operation.onNodes vma, NodeFits node := by
  induction ops generalizing vma with
  | nil => exact hvma
  | cons op ops ih =>
      have hop := hops op List.mem_cons_self
      exact ih (fits_onNodes hvma hop) fun op' hop' => hops op' (List.mem_cons_of_mem _ hop')

theorem translations_foldl_onNodes {vma : List VMNode} (hvma : ∀ node ∈ vma, NodeFits node)
    {ops : List Operation} (hops : ∀ op ∈ ops, op.Fits) :
    translations (ops.foldl Operation.onNodes vma) =
      ops.foldl Operation.onSpace (translations vma) := by
  induction ops generalizing vma with
  | nil => rfl
  | cons op ops ih =>
      have hop := hops op List.mem_cons_self
      rw [List.foldl_cons, List.foldl_cons, ← translations_onNodes hvma hop]
      exact ih (fits_onNodes hvma hop) fun op' hop' => hops op' (List.mem_cons_of_mem _ hop')

theorem translations_findVMNode {vma : List VMNode} (hvma : ∀ node ∈ vma, NodeFits node)
    {addr size x : BitVec 64} (hrange : Fits addr size) (hx : InRange addr size x) :
    translations (findVMNode vma addr size) x = translations vma x := by
  unfold translations findVMNode
  rw [List.filter_filter]
  congr 2
  apply List.filter_congr
  intro node hnode
  rw [Bool.and_eq_left_iff_imp, decide_eq_true_iff, decide_eq_true_iff]
  intro hcovers hzero
  have hoverlap := overlap_overlapped (hvma node hnode) hrange
  rw [hzero] at hoverlap
  unfold Covers InRange at hcovers
  unfold InRange at hx
  cases hoverlap with
  | apart h => omega

/-- Whatever is mapped and unmapped, the nodes that `find_VM_node` gives for a range say
of each address in it what the address space says. -/
theorem area_keeps_space {ops : List Operation} (hops : ∀ op ∈ ops, op.Fits)
    {addr size x : BitVec 64} (hrange : Fits addr size) (hx : InRange addr size x) :
    let area := ops.foldl Operation.onPointers PointerVectors.PointerVector.empty
    translations (area.read (AreaNodes.findVMNode area addr size).reduceOption) x =
      ops.foldl Operation.onSpace (fun _ => 0) x := by
  have hempty : ∀ node ∈ ([] : List VMNode), NodeFits node := fun _ h => (List.not_mem_nil h).elim
  intro area
  have hcontents : area.contents = ops.foldl Operation.onNodes [] :=
    contents_foldl_onPointers _ ops
  have hfits := fits_foldl_onNodes hempty hops
  rw [AreaNodes.read_findVMNode, hcontents, translations_findVMNode hfits hrange hx]
  exact congrFun (translations_foldl_onNodes hempty hops) x

/-- A node that is split and a part that is mapped again. -/
def holeOperations : List Operation :=
  [.insert ⟨0x10000, 0x70000, 0x4000, 3, 5⟩, .delete 0x11000 0x1000,
    .insert ⟨0x11000, 0x90000, 0x1000, 4, 6⟩]

theorem hole_area_keeps_space :
    let area := holeOperations.foldl Operation.onPointers PointerVectors.PointerVector.empty
    translations (area.read (AreaNodes.findVMNode area 0x11800 8).reduceOption) 0x11804 =
      holeOperations.foldl Operation.onSpace (fun _ => 0) 0x11804 :=
  area_keeps_space (by decide) (by decide) (by decide)

/-- What the record does to the address space of its process. -/
def operationOf (w : World) (a : Execution) : Option Operation :=
  match a.kind with
  | .mmap => if GivesUp w a then none else some (.insert (mappedNode w a))
  | .munmap => some (.delete (startAddress a) (length a))
  | _ => none

def areaFrame : Frame World :=
  Frame.keeping World.vmArea

theorem vmArea_insert (w : World) (pid : Int) (area : List VMNode) (q : Int) :
    ({ w with vmAreas := w.vmAreas.insert pid area } : World).vmArea q =
      if q = pid then area else w.vmArea q := by
  rcases eq_or_ne q pid with rfl | hne
  · rw [if_pos rfl, vmArea_modifyArea]
  · rw [if_neg hne, World.vmArea, World.vmArea, Std.ExtTreeMap.getElem?_insert]
    rw [if_neg (fun heq => hne (Std.LawfulEqOrd.eq_of_compare heq).symm)]

theorem neutral_areaFrame : Neutral areaFrame where
  serve _ _ := rfl
  manager _ _ := rfl
  area w pid := by
    funext q
    rw [vmArea_insert]
    split
    · rename_i heq
      rw [heq]
    · rfl

section

variable {opts : Options} {w w' : World} {a : Execution}

theorem vmArea_of_kind (h : executeStep opts w a = some w')
    (hkind : a.kind ≠ .mmap ∧ a.kind ≠ .munmap) : w'.vmArea = w.vmArea :=
  executeStep_within neutral_areaFrame (fun _ _ => rfl) h hkind

theorem within_modifyArea {pid q : Int} (hne : q ≠ pid) (f : List VMNode → List VMNode) :
    Within (Frame.keeping fun w : World => w.vmArea q) (modifyArea pid f) := by
  intro w u w' h
  obtain rfl := (Prod.mk.inj (Option.some.inj h)).2
  exact (vmArea_insert w pid _ q).trans (if_neg hne)

theorem vmArea_of_ne (h : executeStep opts w a = some w')
    (hkind : a.kind = .mmap ∨ a.kind = .munmap) {q : Int} (hne : q ≠ a.pid) :
    w'.vmArea q = w.vmArea q := by
  rcases hkind with hmmap | hmunmap
  · obtain ⟨replayedRetVal, replayed, hrun⟩ := mmap_eq_some h hmmap
    refine Within.bind (R := Frame.keeping fun w : World => w.vmArea q)
      (within_queryManager _) (fun fd => .bind ?_ fun replayedAddr => ?_) hrun
    · intro w u w' h
      obtain rfl := (Prod.mk.inj (Option.some.inj h)).2
      rfl
    · exact .ite (.pure _) (.bind (within_modifyArea hne _) fun _ => .pure _)
  · obtain ⟨replayedRetVal, replayed, hrun⟩ := munmap_eq_some h hmunmap
    exact Within.bind (within_modifyArea hne _) (fun _ => .pure _) hrun

theorem vmArea_of_executeStep (h : executeStep opts w a = some w') :
    w'.vmArea = Function.update w.vmArea a.pid
      ((operationOf w a).elim (w.vmArea a.pid) (Operation.onNodes (w.vmArea a.pid))) := by
  by_cases hkind : a.kind = .mmap ∨ a.kind = .munmap
  · funext q
    rcases eq_or_ne q a.pid with rfl | hne
    · rw [Function.update_self]
      rcases hkind with hmmap | hmunmap
      · rw [vmArea_of_mmap h hmmap, operationOf, hmmap]
        dsimp only
        split
        · rfl
        · rfl
      · rw [vmArea_of_munmap h hmunmap, operationOf, hmunmap]
        rfl
    · rw [Function.update_of_ne hne, vmArea_of_ne h hkind hne]
  · rw [not_or] at hkind
    have hnone : operationOf w a = none := by
      unfold operationOf
      split
      · rename_i hmmap
        exact absurd hmmap hkind.1
      · rename_i hmunmap
        exact absurd hmunmap hkind.2
      · rfl
    rw [hnone, vmArea_of_kind h hkind]
    exact (Function.update_eq_self _ _).symm

end

/-- The replay beside the address spaces of all processes. -/
structure Spaces where
  world : World
  spaces : Int → Space

def spaceStep (opts : Options) (s : Spaces) (a : Execution) : Option Spaces :=
  (executeStep opts s.world a).map fun w =>
    ⟨w, Function.update s.spaces a.pid
      ((operationOf s.world a).elim (s.spaces a.pid) (Operation.onSpace (s.spaces a.pid)))⟩

def spaceSystem (opts : Options) (start : World) : System Spaces Execution where
  init := ⟨start, fun _ _ => 0⟩
  step := spaceStep opts

/-- No range that is mapped or unmapped wraps around. -/
def Unwrapped (s : Spaces) (a : Execution) : Prop :=
  ∀ op ∈ operationOf s.world a, op.Fits

structure KeepsSpaces (s : Spaces) : Prop where
  fits : ∀ pid, ∀ node ∈ s.world.vmArea pid, NodeFits node
  space : ∀ pid, translations (s.world.vmArea pid) = s.spaces pid

theorem spaceStep_keepsSpaces {opts : Options} {s s' : Spaces} {a : Execution}
    (hinv : KeepsSpaces s) (hfits : Unwrapped s a) (h : spaceStep opts s a = some s') :
    KeepsSpaces s' := by
  obtain ⟨w, hrun, rfl⟩ := Option.map_eq_some_iff.mp h
  have harea := vmArea_of_executeStep hrun
  have hwithin := hinv.fits a.pid
  have hspace := hinv.space a.pid
  constructor
  · intro pid
    rw [harea]
    rcases eq_or_ne pid a.pid with rfl | hne
    · rw [Function.update_self]
      cases hop : operationOf s.world a with
      | none => exact hwithin
      | some op => exact fits_onNodes hwithin (hfits op hop)
    · rw [Function.update_of_ne hne]
      exact hinv.fits pid
  · intro pid
    dsimp only
    rw [harea]
    rcases eq_or_ne pid a.pid with rfl | hne
    · rw [Function.update_self, Function.update_self]
      cases hop : operationOf s.world a with
      | none => exact hspace
      | some op =>
          exact (translations_onNodes hwithin (hfits op hop)).trans
            (congrArg (fun space => op.onSpace space) hspace)
    · rw [Function.update_of_ne hne, Function.update_of_ne hne]
      exact hinv.space pid

/-- Each process translates its addresses by its own mappings alone, whatever other
records are replayed. -/
theorem replay_keeps_spaces (opts : Options) (start : World)
    (hstart : ∀ pid, start.vmArea pid = []) {s : Spaces}
    (h : (spaceSystem opts start).ReachVia Unwrapped s) (pid : Int) (x : BitVec 64) :
    translations (s.world.vmArea pid) x = s.spaces pid x := by
  have hkeeps : KeepsSpaces s := by
    refine h.invariant _ ⟨fun pid node hnode => ?_, fun pid => ?_⟩ fun s a s' _ hinv hfits hstep =>
      spaceStep_keepsSpaces hinv hfits hstep
    · change node ∈ start.vmArea pid at hnode
      rw [hstart pid] at hnode
      cases hnode
    · change translations (start.vmArea pid) = _
      rw [hstart pid]
      rfl
  exact congrFun (hkeeps.space pid) x

/-- A mapping of four pages with a hole of one page. -/
theorem hole_keeps_space :
    ∃ s : Spaces, s.spaces 1 0x10008 = {⟨0x10008, -1, -1⟩} ∧ s.spaces 1 0x11008 = 0 ∧
      ∀ x, translations (s.world.vmArea 1) x = s.spaces 1 x := by
  have hrun : (spaceSystem quiet (startWorld placing)).ReachVia Unwrapped _ :=
    .step (a := unmapAt 0x11000 0x1000) (.step (a := mapAt 0x10000 0x4000) .init
      (fun op hop => by cases hop; decide) rfl) (fun op hop => by cases hop; decide) rfl
  refine ⟨_, ?_, ?_, fun x => replay_keeps_spaces quiet _ (fun pid => ?_) hrun 1 x⟩
  · decide
  · decide
  · rfl

end SyscallReplayer.AddressSpaces
