import SyscallReplayer.MappingRuns

/-!
# One mapping per address

The successful mappings of a process are kept beside its address map, the latest
first. As long as no mapping is made over another one, every address has at most
one node, which is what is left of the latest mapping that covered it.
-/

namespace SyscallReplayer.UniqueMappings

open CInt ReplayKernel VirtualAddressSpace ReplayWorld ReplayModules
open TransitionSystem World ReplayRuns AddressTranslation MappingRuns

structure Proper (node : VMNode) : Prop where
  fits : NodeFits node
  nonempty : 0 < node.mapSize.toNat

section

variable {node : VMNode} {addr size : BitVec 64}

theorem proper_of_mapSize {stop : BitVec 64}
    (hstop : node.tracedStartAddress.toNat < stop.toNat)
    (hsize : node.mapSize = stop - node.tracedStartAddress) : Proper node := by
  have htoNat : node.mapSize.toNat = stop.toNat - node.tracedStartAddress.toNat := by
    rw [hsize]
    exact BitVec.toNat_sub_of_le (BitVec.le_def.mpr hstop.le)
  constructor
  · unfold NodeFits Fits
    rw [htoNat]
    omega
  · rw [htoNat]
    omega

theorem proper_part {part : VMNode} (hnode : Proper node) (hrange : Fits addr size)
    (hpart : part ∈ node.kept addr size ++ node.pushed addr size) : Proper part := by
  have hoverlap := overlap_overlapped hnode.fits hrange
  have hend := toNat_endAddr hnode.fits
  have hstop := hrange.toNat_add
  unfold VMNode.kept VMNode.pushed at hpart
  generalize node.overlapped addr size = value at hoverlap hpart
  cases hoverlap with
  | apart _ =>
      obtain rfl := List.mem_singleton.mp hpart
      exact hnode
  | enclosing h h' =>
      rcases List.mem_pair.mp hpart with rfl | rfl
      · exact proper_of_mapSize h rfl
      · have hback : (addr + size).toNat < node.endAddr.toNat := by omega
        exact proper_of_mapSize hback rfl
  | right h h' h'' =>
      obtain rfl := List.mem_singleton.mp hpart
      rw [mapSize_sub_front]
      have hback : (addr + size).toNat < node.endAddr.toNat := by omega
      exact proper_of_mapSize hback rfl
  | left h _ _ =>
      obtain rfl := List.mem_singleton.mp hpart
      exact proper_of_mapSize h rfl
  | enclosed _ _ => exact absurd hpart List.not_mem_nil

theorem proper_deleteVMNode {vma : List VMNode} (hvma : ∀ node ∈ vma, Proper node)
    (hrange : Fits addr size) : ∀ node ∈ deleteVMNode vma addr size, Proper node := by
  intro part hpart
  rcases List.mem_append.mp hpart with hmem | hmem
  · obtain ⟨node, hnode, hkept⟩ := List.mem_flatMap.mp hmem
    exact proper_part (hvma node hnode) hrange (List.mem_append_left _ hkept)
  · obtain ⟨node, hnode, hpushed⟩ := List.mem_flatMap.mp hmem
    exact proper_part (hvma node (List.mem_of_mem_filter hnode)) hrange
      (List.mem_append_right _ hpushed)

theorem overlapped_ne_zero_iff (hnode : Proper node) (hrange : Fits addr size)
    (hsize : 0 < size.toNat) :
    node.overlapped addr size ≠ 0 ↔ ∃ x, InRange addr size x ∧ Covers node x := by
  have hoverlap := overlap_overlapped hnode.fits hrange
  have hnonempty := hnode.nonempty
  unfold Covers InRange
  generalize node.overlapped addr size = value at hoverlap
  constructor
  · intro hvalue
    have hmeet : addr.toNat < node.tracedStartAddress.toNat + node.mapSize.toNat ∧
        node.tracedStartAddress.toNat < addr.toNat + size.toNat := by
      cases hoverlap with
      | apart _ => exact absurd rfl hvalue
      | enclosing _ _ => omega
      | right _ _ _ => omega
      | left _ _ _ => omega
      | enclosed _ _ => omega
    rcases le_total addr.toNat node.tracedStartAddress.toNat with hle | hle
    · exact ⟨node.tracedStartAddress, by omega⟩
    · exact ⟨addr, by omega⟩
  · rintro ⟨x, hx, hcovers⟩ rfl
    cases hoverlap with
    | apart h => omega

theorem findVMNode_byte {vma : List VMNode} {x : BitVec 64} (hvma : ∀ node ∈ vma, Proper node)
    (hx : Fits x 1) : findVMNode vma x 1 = vma.filter fun node => Covers node x := by
  apply List.filter_congr
  intro node hnode
  rw [decide_eq_decide, overlapped_ne_zero_iff (hvma node hnode) hx (by decide)]
  constructor
  · rintro ⟨y, hy, hcovers⟩
    have hone : (1 : BitVec 64).toNat = 1 := rfl
    have heq : y = x := by
      apply BitVec.eq_of_toNat_eq
      unfold InRange at hy
      omega
    exact heq ▸ hcovers
  · intro hcovers
    exact ⟨x, ⟨le_refl _, Nat.lt_succ_self _⟩, hcovers⟩

end

/-- What the latest mapping that covers `x` makes of it. -/
def latestTranslation (history : List VMNode) (x : BitVec 64) : Multiset Translation :=
  translations (history.find? fun node => Covers node x).toList x

/-- Every address has the translation of its latest mapping or none. -/
structure Unique (vma history : List VMNode) : Prop where
  proper : ∀ node ∈ vma, Proper node
  latest : ∀ x, translations vma x ≤ latestTranslation history x

/-- The traced intervals are disjoint, and the node that is found at an address
is a part of the latest mapping that covers it. -/
structure OnePerAddress (vma history : List VMNode) : Prop where
  disjoint : vma.Pairwise fun node node' => ∀ x, ¬(Covers node x ∧ Covers node' x)
  found : ∀ x, Fits x 1 → (findVMNode vma x 1).length ≤ 1
  latest : ∀ x, Fits x 1 → ∀ node ∈ findVMNode vma x 1,
    ∃ mapped, history.find? (fun m => Covers m x) = some mapped ∧
      translate node x = translate mapped x

theorem pairwise_of_length_filter {α β : Type*} {p : α → β → Bool} {l : List α}
    (h : ∀ x, (l.filter fun a => p a x).length ≤ 1) :
    l.Pairwise fun a b => ∀ x, ¬(p a x ∧ p b x) := by
  induction l with
  | nil => exact .nil
  | cons a l ih =>
      refine .cons ?_ (ih fun x => ?_)
      · rintro b hb x ⟨ha, hbx⟩
        have hlength := h x
        rw [List.filter_cons, if_pos ha, List.length_cons] at hlength
        have hmem : b ∈ l.filter fun a => p a x := List.mem_filter.mpr ⟨hb, hbx⟩
        have hpos := List.length_pos_of_mem hmem
        omega
      · exact (((List.sublist_cons_self a l).filter _).length_le).trans (h x)

theorem latestTranslation_cons (node : VMNode) (history : List VMNode) (x : BitVec 64) :
    latestTranslation (node :: history) x =
      if Covers node x then translations [node] x else latestTranslation history x := by
  unfold latestTranslation
  split
  · rename_i hcovers
    rw [List.find?_cons, decide_eq_true hcovers]
    rfl
  · rename_i hnot
    rw [List.find?_cons, decide_eq_false hnot]

theorem card_latestTranslation (history : List VMNode) (x : BitVec 64) :
    (latestTranslation history x).card ≤ 1 := by
  unfold latestTranslation
  cases history.find? fun node => Covers node x with
  | none => exact Nat.zero_le 1
  | some node =>
      rw [Option.toList_some, translations_singleton]
      split
      · exact (Multiset.card_singleton _).le
      · exact Nat.zero_le 1

namespace Unique

variable {vma history : List VMNode}

theorem onePerAddress (h : Unique vma history) : OnePerAddress vma history := by
  have hlength : ∀ x, (vma.filter fun node => Covers node x).length ≤ 1 := by
    intro x
    have hcard := (Multiset.card_le_card (h.latest x)).trans (card_latestTranslation history x)
    rwa [translations, Multiset.coe_card, List.length_map] at hcard
  constructor
  · refine (pairwise_of_length_filter (p := fun node x => decide (Covers node x)) hlength).imp ?_
    intro node node' hapart x hcovers
    exact hapart x ⟨decide_eq_true hcovers.1, decide_eq_true hcovers.2⟩
  · intro x hx
    rw [findVMNode_byte h.proper hx]
    exact hlength x
  · intro x hx node hnode
    rw [findVMNode_byte h.proper hx] at hnode
    have hmem : translate node x ∈ translations vma x :=
      Multiset.mem_coe.mpr (List.mem_map_of_mem hnode)
    have hlatest := Multiset.mem_of_le (h.latest x) hmem
    unfold latestTranslation at hlatest
    cases hfind : history.find? fun node => Covers node x with
    | none =>
        rw [hfind] at hlatest
        exact absurd hlatest (Multiset.notMem_zero _)
    | some mapped =>
        have hcovers := List.find?_some hfind
        rw [hfind, Option.toList_some, translations_singleton,
          if_pos (of_decide_eq_true hcovers)] at hlatest
        exact ⟨mapped, rfl, Multiset.mem_singleton.mp hlatest⟩

theorem delete (h : Unique vma history) {addr size : BitVec 64} (hrange : Fits addr size) :
    Unique (deleteVMNode vma addr size) history := by
  constructor
  · exact proper_deleteVMNode h.proper hrange
  · intro x
    rw [translations_deleteVMNode (fun node hnode => (h.proper node hnode).fits) hrange]
    split
    · exact Multiset.zero_le _
    · exact h.latest x

theorem translations_eq_zero_of_free (h : Unique vma history) {node : VMNode}
    (hnode : Proper node)
    (hfree : findVMNode vma node.tracedStartAddress node.mapSize = []) {x : BitVec 64}
    (hx : Covers node x) : translations vma x = 0 := by
  rw [translations_eq_zero]
  intro old hold hcovers
  have hfound : old ∈ findVMNode vma node.tracedStartAddress node.mapSize := by
    refine List.mem_filter.mpr ⟨hold, decide_eq_true ?_⟩
    exact (overlapped_ne_zero_iff (h.proper old hold) hnode.fits hnode.nonempty).mpr
      ⟨x, hx, hcovers⟩
  rw [hfree] at hfound
  exact List.not_mem_nil hfound

theorem giveUp (h : Unique vma history) {node : VMNode} (hnode : Proper node)
    (hfree : findVMNode vma node.tracedStartAddress node.mapSize = []) :
    Unique vma (node :: history) := by
  refine ⟨h.proper, fun x => ?_⟩
  rw [latestTranslation_cons]
  split
  · rename_i hcovers
    rw [h.translations_eq_zero_of_free hnode hfree hcovers]
    exact Multiset.zero_le _
  · exact h.latest x

theorem insert (h : Unique vma history) {node : VMNode} (hnode : Proper node)
    (hfree : findVMNode vma node.tracedStartAddress node.mapSize = []) :
    Unique (insertVMNode vma node) (node :: history) := by
  constructor
  · intro n hn
    rcases List.mem_append.mp hn with hmem | hmem
    · exact h.proper n hmem
    · obtain rfl := List.mem_singleton.mp hmem
      exact hnode
  · intro x
    rw [insertVMNode, translations_append, latestTranslation_cons]
    split
    · rename_i hcovers
      rw [h.translations_eq_zero_of_free hnode hfree hcovers, zero_add]
    · rename_i hnot
      rw [translations_singleton, if_neg hnot, add_zero]
      exact h.latest x

end Unique

/-- The world and the mappings that the process has made, the latest first. -/
structure Mappings where
  world : World
  history : List VMNode

/-- What happens next: a record of the process is replayed, or anything else that
leaves its address map alone. -/
inductive Event
  | record (a : Execution)
  | elsewhere (w : World)

namespace Mappings

def step (opts : Options) (pid : Int) (s : Mappings) : Event → Option Mappings
  | .record a => (executeStep opts s.world a).map fun w =>
      ⟨w, if a.kind = .mmap then mappedNode s.world a :: s.history else s.history⟩
  | .elsewhere w =>
      if w.vmArea pid = s.world.vmArea pid then some ⟨w, s.history⟩ else none

end Mappings

def mappingSystem (opts : Options) (pid : Int) (start : World) : System Mappings Event where
  init := ⟨start, []⟩
  step := Mappings.step opts pid

def MapsMemory (pid : Int) : Event → Prop
  | .record a => a.pid = pid ∧
      (a.kind = .mmap ∧ tracedAddress a ≠ mapFailed ∨ a.kind = .munmap)
  | .elsewhere _ => True

/-- `mmap` maps addresses that have no node, and `munmap` takes a range that does
not wrap around. -/
def Clear (pid : Int) (s : Mappings) : Event → Prop
  | .record a =>
      if a.kind = .mmap then
        0 < (length a).toNat ∧ Fits (tracedAddress a) (length a) ∧
          findVMNode (s.world.vmArea pid) (tracedAddress a) (length a) = []
      else Fits (startAddress a) (length a)
  | .elsewhere _ => True

theorem step_unique {opts : Options} {pid : Int} {s s' : Mappings} {e : Event}
    (hunique : Unique (s.world.vmArea pid) s.history) (hmaps : MapsMemory pid e)
    (hclear : Clear pid s e) (h : Mappings.step opts pid s e = some s') :
    Unique (s'.world.vmArea pid) s'.history := by
  cases e with
  | record a =>
      obtain ⟨w, hrun, rfl⟩ := Option.map_eq_some_iff.mp h
      obtain ⟨rfl, ⟨hkind, -⟩ | hkind⟩ := hmaps
      · obtain ⟨hsize, hfits, hfree⟩ := (if_pos hkind).mp hclear
        have hnode : Proper (mappedNode s.world a) := ⟨hfits, hsize⟩
        dsimp only
        rw [if_pos hkind, vmArea_of_mmap hrun hkind]
        split
        · exact hunique.giveUp hnode hfree
        · exact hunique.insert hnode hfree
      · have hmmap : a.kind ≠ .mmap := by
          rw [hkind]
          exact fun heq => nomatch heq
        have hrange : Fits (startAddress a) (length a) := (if_neg hmmap).mp hclear
        dsimp only
        rw [if_neg hmmap, vmArea_of_munmap hrun hkind]
        exact hunique.delete hrange
  | elsewhere w =>
      change (if _ then _ else _) = _ at h
      split at h
      · rename_i hsame
        obtain rfl := Option.some.inj h
        rw [hsame]
        exact hunique
      · cases h

/-- Mappings that are made where nothing is mapped keep one node for each
address. -/
theorem clear_mappings_one_per_address (opts : Options) (pid : Int) (start : World)
    (s : Mappings) (hstart : start.vmArea pid = [])
    (h : (mappingSystem opts pid start).ReachVia
      (fun s e => MapsMemory pid e ∧ Clear pid s e) s) :
    OnePerAddress (s.world.vmArea pid) s.history := by
  have hunique : Unique (s.world.vmArea pid) s.history := by
    refine h.invariant _ (P := fun s => Unique (s.world.vmArea pid) s.history) ?_ ?_
    · show Unique (start.vmArea pid) []
      rw [hstart]
      exact ⟨fun node hnode => absurd hnode List.not_mem_nil, fun x => Multiset.zero_le _⟩
    · intro s e s' _ hs hok hstep
      exact step_unique hs hok.1 hok.2 hstep
  exact hunique.onePerAddress

/-- The kernel maps at 0x10000 first and one page further on each time. -/
def placing (n : Nat) : Reply :=
  ⟨0x10000 + 0x1000 * n, 0, (0, 0)⟩

/-- A mapping with `MAP_FIXED` at `address`. -/
def mapAt (address size : Int) : Execution :=
  queuedCall .mmap 1 address fun
    | .start_address => address
    | .length => size
    | .flags_value => 0x32
    | .descriptor => -1
    | _ => 0

def unmapAt (address size : Int) : Execution :=
  queuedCall .munmap 1 0 fun
    | .start_address => address
    | .length => size
    | _ => 0

def afterRecords (calls : List Execution) : Option Mappings :=
  calls.foldlM (fun s a => Mappings.step quiet 1 s (.record a)) ⟨startWorld placing, []⟩

/-- A loader maps a library and then a segment over a part of it. -/
theorem segment_has_two_nodes :
    (startWorld placing).vmArea 1 = [] ∧
      ∃ s : Mappings, (mappingSystem quiet 1 (startWorld placing)).ReachVia
          (fun _ e => MapsMemory 1 e) s ∧
        ¬OnePerAddress (s.world.vmArea 1) s.history := by
  refine ⟨rfl, _, .step (a := .record (mapAt 0x11000 0x1000))
    (.step (a := .record (mapAt 0x10000 0x4000)) .init ⟨rfl, .inl ⟨rfl, by decide⟩⟩ rfl)
    ⟨rfl, .inl ⟨rfl, by decide⟩⟩ rfl, ?_⟩
  intro h
  exact absurd (h.found 0x11000 (by decide)) (by decide)

/-- The part is unmapped first. -/
theorem hole_one_per_address :
    ∃ s : Mappings, afterRecords [mapAt 0x10000 0x4000, unmapAt 0x11000 0x1000,
        mapAt 0x11000 0x1000] = some s ∧ OnePerAddress (s.world.vmArea 1) s.history := by
  refine ⟨_, rfl, clear_mappings_one_per_address quiet 1 (startWorld placing) _ rfl ?_⟩
  refine .step (a := .record (mapAt 0x11000 0x1000))
    (.step (a := .record (unmapAt 0x11000 0x1000))
      (.step (a := .record (mapAt 0x10000 0x4000)) .init ?_ rfl) ?_ rfl) ?_ rfl
  · exact ⟨⟨rfl, .inl ⟨rfl, by decide⟩⟩, by decide, by decide, rfl⟩
  · exact ⟨⟨rfl, .inr rfl⟩, show Fits 0x11000 0x1000 by decide⟩
  · exact ⟨⟨rfl, .inl ⟨rfl, by decide⟩⟩, by decide, by decide, rfl⟩

end SyscallReplayer.UniqueMappings
