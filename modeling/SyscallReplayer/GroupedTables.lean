import SyscallReplayer.ResourceSteps
import SyscallReplayer.SharingGroups

/-!
# Umasks and tables as groups of processes

What the resources manager is for: processes form groups that share a umask and
groups that share a table of descriptors. Every sequence of its operations shows
the processes what the groups show them.
-/

namespace SyscallReplayer.GroupedTables

open Std (ExtTreeMap)
open CInt SharedEntries SharingGroups ReplayKernel ResourcesManager ReplayWorld ReplayModules
open StatePrograms TransitionSystem World ReplayRuns ResourceSteps

/-- The operations of the resources manager on umasks and tables. -/
inductive Operation
  | cloneUmask (ppid pid : Int) (shared : Bool)
  | cloneFdTable (ppid pid : Int) (shared : Bool)
  | setUmask (pid : Int) (mode : BitVec 32)
  | addFd (pid tracedFd replayedFd : Int) (flags : BitVec 32)
  | removeFd (pid tracedFd : Int)
  | setFlags (pid tracedFd : Int) (flags : BitVec 32)
  | addFlags (pid tracedFd : Int) (flags : BitVec 32)
  | removeUmask (pid : Int)
  | removeFdTable (pid : Int)
deriving DecidableEq

def Operation.perform : Operation → Replay Unit
  | .cloneUmask ppid pid shared => ReplayWorld.cloneUmask ppid pid shared
  | .cloneFdTable ppid pid shared => ReplayWorld.cloneFdTable ppid pid shared
  | .setUmask pid mode => ReplayWorld.setUmask pid mode
  | .addFd pid tracedFd replayedFd flags =>
      updateManager fun m => m.addFd pid tracedFd replayedFd flags
  | .removeFd pid tracedFd => do
      let _ ← ReplayWorld.removeFd pid tracedFd
  | .setFlags pid tracedFd flags => updateManager fun m => m.setFlags pid tracedFd flags
  | .addFlags pid tracedFd flags => ReplayWorld.addFlags pid tracedFd flags
  | .removeUmask pid => ReplayWorld.removeUmask pid
  | .removeFdTable pid => do
      let _ ← ReplayWorld.removeFdTable pid

def tableSystem (start : World) : System World Operation where
  init := start
  step w op := (op.perform w).map Prod.snd

/-- The child of a clone is not there yet. -/
def newChild (w : World) : Operation → Bool
  | .cloneUmask _ pid _ => (w.manager.umaskTable.get pid).isNone
  | .cloneFdTable _ pid _ => (w.manager.fdTableMap.get pid).isNone
  | _ => true

/-- The flags of the traced descriptors that are open. -/
abbrev Flags := Int → Option (BitVec 32)

structure Processes where
  umasks : Groups Int (BitVec 32)
  tables : Groups Int Flags

namespace Processes

/-- One process, which has the descriptors of `fdMap` without flags. -/
def start (pid : Int) (fdMap : List (Int × Int)) : Processes where
  umasks := .single pid 0
  tables := .single pid fun k => if k ∈ fdMap.map Prod.fst then some 0 else none

noncomputable def changeFlags (p : Processes) (pid : Int) (f : Flags → Option Flags) :
    Option Processes :=
  (p.tables.change pid f).map fun tables => { p with tables := tables }

/-- A descriptor becomes open; only -1 may be so already, and then stays. -/
def opened (k : Int) (flags : BitVec 32) (f : Flags) : Option Flags :=
  if (f k).isNone then some (Function.update f k (some flags))
  else if k = -1 then some f
  else none

noncomputable def step (p : Processes) : Operation → Option Processes
  | .cloneUmask ppid pid shared =>
      (p.umasks.clone ppid pid shared).map fun umasks => { p with umasks := umasks }
  | .cloneFdTable ppid pid shared =>
      (p.tables.clone ppid pid shared).map fun tables => { p with tables := tables }
  | .setUmask pid mode =>
      (p.umasks.change pid fun _ => some mode).map fun umasks => { p with umasks := umasks }
  | .addFd pid k _ flags => p.changeFlags pid (opened k flags)
  | .removeFd pid k => p.changeFlags pid fun f => some (Function.update f k none)
  | .setFlags pid k flags =>
      p.changeFlags pid fun f => (f k).map fun _ => Function.update f k (some flags)
  | .addFlags pid k flags =>
      p.changeFlags pid fun f => (f k).map fun old => Function.update f k (some (old ||| flags))
  | .removeUmask pid => (p.umasks.exit pid).map fun umasks => { p with umasks := umasks }
  | .removeFdTable pid => (p.tables.exit pid).map fun tables => { p with tables := tables }

end Processes

noncomputable def groupSystem (start : Processes) : System Processes Operation where
  init := start
  step := Processes.step

/-- The manager tells every process what its groups tell it. -/
structure Shows (w : World) (p : Processes) : Prop where
  umask : ∀ pid, w.manager.getUmask pid = p.umasks.value pid
  hasFd : ∀ pid k, w.manager.hasFd pid k = (p.tables.value pid).map fun f => (f k).isSome
  flags : ∀ pid k, w.manager.getFlags pid k = (p.tables.value pid).bind fun f => f k
  tracedFds : ∀ pid, Option.Rel (fun fds f => ∀ k, k ∈ fds ↔ (f k).isSome)
    (w.manager.getAllTracedFds pid) (p.tables.value pid)

def flagsOf (t : FdTable) : Flags :=
  fun k => (t[k]?).map FileDescriptorEntry.flags

structure Refines (w : World) (p : Processes) : Prop where
  umasks : Represents id w.manager.umaskTable p.umasks
  tables : Represents flagsOf w.manager.fdTableMap p.tables

theorem flagsOf_isSome (t : FdTable) (k : Int) : (flagsOf t k).isSome = t.hasFd k := by
  unfold flagsOf
  rw [Option.isSome_map]
  cases hhas : t.hasFd k with
  | true =>
      obtain ⟨e, he⟩ := FdTable.hasFd_iff.mp hhas
      rw [he]
      rfl
  | false =>
      rw [FdTable.hasFd_eq_false_iff.mp hhas]
      rfl

theorem Refines.shows {w : World} {p : Processes} (h : Refines w p) : Shows w p where
  umask pid := by
    rw [h.umasks.value, Option.map_id]
    rfl
  hasFd pid k := by
    rw [h.tables.value, Option.map_map]
    show (w.manager.fdTableMap.get pid).map _ = _
    apply congrArg fun f => (w.manager.fdTableMap.get pid).map f
    funext t
    exact (flagsOf_isSome t k).symm
  flags pid k := by
    rw [h.tables.value]
    show (w.manager.fdTableMap.get pid).bind _ = _
    rw [Option.bind_map]
    rfl
  tracedFds pid := by
    rw [h.tables.value]
    show Option.Rel _ ((w.manager.fdTableMap.get pid).map FdTable.getAllTracedFds) _
    cases w.manager.fdTableMap.get pid with
    | none => exact .none
    | some t =>
        refine .some fun k => ?_
        unfold FdTable.getAllTracedFds
        rw [flagsOf_isSome, ExtTreeMap.mem_keys, ExtTreeMap.mem_iff_contains]
        rfl

section

variable {w : World} {p : Processes}

theorem rel_tables (h : Refines w p) {o : Option (Shared Int FdTable)}
    {o' : Option (Groups Int Flags)} (hrel : Option.Rel (Represents flagsOf) o o') :
    Option.Rel Refines
      (o.map fun map => { w with manager := { w.manager with fdTableMap := map } })
      (o'.map fun tables => { p with tables := tables }) := by
  cases hrel with
  | none => exact .none
  | some htables => exact .some ⟨h.umasks, htables⟩

theorem rel_umasks (h : Refines w p) {o : Option (Shared Int (BitVec 32))}
    {o' : Option (Groups Int (BitVec 32))} (hrel : Option.Rel (Represents id) o o') :
    Option.Rel Refines
      (o.map fun table => { w with manager := { w.manager with umaskTable := table } })
      (o'.map fun umasks => { p with umasks := umasks }) := by
  cases hrel with
  | none => exact .none
  | some humasks => exact .some ⟨humasks, h.tables⟩

theorem updateManager_map (f : Manager → Option Manager) (w : World) :
    (updateManager f w).map Prod.snd = (f w.manager).map fun m => { w with manager := m } := by
  unfold updateManager changeManager
  rw [Option.map_map, Option.map_map]
  rfl

theorem changeTable_map (m : Manager) (pid : Int) (f : FdTable → Option FdTable) :
    m.changeTable pid f =
      ((m.fdTableMap.get pid).bind fun t => (f t).bind fun t' => m.fdTableMap.modify pid t').map
        fun map => { m with fdTableMap := map } := by
  unfold Manager.changeTable
  cases m.fdTableMap.get pid with
  | none => rfl
  | some t =>
      rw [Option.bind_eq_bind, Option.bind_some, Option.bind_some]
      cases f t with
      | none => rfl
      | some t' =>
          rw [Option.bind_eq_bind, Option.bind_some, Option.bind_some]
          cases m.fdTableMap.modify pid t' <;> rfl

theorem rel_changeTable (h : Refines w p) {pid : Int} {f : FdTable → Option FdTable}
    {f' : Flags → Option Flags} (hf : ∀ t, (f t).map flagsOf = f' (flagsOf t)) :
    Option.Rel Refines ((updateManager (fun m => m.changeTable pid f) w).map Prod.snd)
      (p.changeFlags pid f') := by
  rw [updateManager_map, changeTable_map, Option.map_map]
  exact rel_tables h (h.tables.rel_change hf)

theorem flagsOf_insert (t : FdTable) (k : Int) (e : FileDescriptorEntry) :
    flagsOf (t.insert k e) = Function.update (flagsOf t) k (some e.flags) := by
  funext a
  unfold flagsOf
  rw [getElem?_insert, Function.update_apply]
  simp only [eq_comm (a := k)]
  split
  · rfl
  · rfl

theorem flagsOf_updated (t : FdTable) (k : Int) (f : BitVec 32 → BitVec 32) :
    ((t[k]?).map fun e => t.insert k { e with flags := f e.flags }).map flagsOf =
      (flagsOf t k).map fun flags => Function.update (flagsOf t) k (some (f flags)) := by
  show _ = ((t[k]?).map FileDescriptorEntry.flags).map _
  rw [Option.map_map, Option.map_map]
  apply congrArg fun g => (t[k]?).map g
  funext e
  exact flagsOf_insert t k _

theorem flagsOf_erase (t : FdTable) (k : Int) :
    flagsOf (t.erase k) = Function.update (flagsOf t) k none := by
  funext a
  unfold flagsOf
  rw [getElem?_erase, Function.update_apply]
  simp only [eq_comm (a := k)]
  split
  · rfl
  · rfl

theorem flagsOf_addFdEntry (t : FdTable) (k fd : Int) (flags : BitVec 32) :
    (t.addFdEntry k fd flags).map flagsOf = Processes.opened k flags (flagsOf t) := by
  unfold Processes.opened
  rw [← Option.not_isSome, flagsOf_isSome]
  cases hhas : t.hasFd k with
  | false =>
      rw [FdTable.addFdEntry_of_unmapped (FdTable.hasFd_eq_false_iff.mp hhas), Option.map_some,
        flagsOf_insert]
      rfl
  | true =>
      rw [if_neg (by decide)]
      unfold FdTable.addFdEntry
      rw [hhas]
      by_cases hk : k = -1
      · rw [if_neg (by simp [hk]), if_neg (by simp [hk]), if_pos hk]
        rfl
      · rw [if_pos ⟨hk, rfl⟩, if_neg hk]
        rfl

theorem addFlags_eq_changeTable (m : Manager) (pid k : Int) (flags : BitVec 32) :
    m.addFlags pid k flags = m.changeTable pid fun t =>
      (t[k]?).map fun e => t.insert k { e with flags := e.flags ||| flags } := by
  unfold Manager.addFlags Manager.setFlags Manager.getFlags Manager.changeTable
  cases m.fdTableMap.get pid with
  | none => rfl
  | some t => cases he : t[k]? <;> simp [FdTable.getFlags, FdTable.setFlags, he]

theorem removeFd_map (pid k : Int) (w : World) :
    ((Operation.removeFd pid k).perform w).map Prod.snd =
      (updateManager (fun m => m.changeTable pid fun t => some (t.erase k)) w).map Prod.snd := by
  rw [updateManager_map, changeTable_map]
  cases hget : w.manager.fdTableMap.get pid with
  | none =>
      have hrun : (ReplayWorld.removeFd pid k) w = none := by
        simp [ReplayWorld.removeFd, changeManager, Manager.removeFd, hget]
      show ((ReplayWorld.removeFd pid k >>= fun _ => pure ()) w).map Prod.snd = _
      rw [bind_of_eq_none hrun]
      rfl
  | some t =>
      have ht : w.table pid = some t := hget
      obtain ⟨map, hmap, hset⟩ := World.exists_modify ht (t.erase k)
      show ((ReplayWorld.removeFd pid k >>= fun _ => pure ()) w).map Prod.snd = _
      rw [bind_of_eq_some (removeFd_run ht k), Option.bind_some, Option.bind_some, hmap, hset]
      rfl

theorem removeUmask_map (pid : Int) (w : World) :
    ((Operation.removeUmask pid).perform w).map Prod.snd =
      ((w.manager.umaskTable.release pid).map Prod.snd).map fun table =>
        { w with manager := { w.manager with umaskTable := table } } := by
  show (updateManager (fun m => m.removeUmask pid) w).map Prod.snd = _
  rw [updateManager_map]
  unfold Manager.removeUmask
  cases w.manager.umaskTable.release pid <;> rfl

theorem removeFdTable_map (pid : Int) (w : World) :
    ((Operation.removeFdTable pid).perform w).map Prod.snd =
      ((w.manager.fdTableMap.release pid).map Prod.snd).map fun map =>
        { w with manager := { w.manager with fdTableMap := map } } := by
  show ((ReplayWorld.removeFdTable pid >>= fun _ => pure ()) w).map Prod.snd = _
  cases hrelease : w.manager.fdTableMap.release pid with
  | none =>
      have hrun : (ReplayWorld.removeFdTable pid) w = none := by
        simp [ReplayWorld.removeFdTable, changeManager, Manager.removeFdTable, hrelease]
      rw [bind_of_eq_none hrun]
      rfl
  | some result =>
      rw [bind_of_eq_some (removeFdTable_run hrelease)]
      rfl

theorem exists_cloneEntries (t : FdTable) (w : World) :
    ∃ copy w', t.toList.foldlM cloneEntry ∅ w = some (copy, w') := by
  have hloop := Total.foldlM (f := cloneEntry)
    (I := fun rest copy _ => (∀ pair ∈ rest, copy[pair.1]? = none) ∧
      rest.Pairwise fun pair pair' => pair.1 ≠ pair'.1) t.toList ?_ ∅
  · obtain ⟨copy, w', hrun, -⟩ := hloop (s := w) ⟨fun pair _ => ExtTreeMap.getElem?_empty,
      ExtTreeMap.distinct_keys_toList.imp fun hne heq => hne (Std.compare_eq_iff_eq.mpr heq)⟩
    exact ⟨copy, w', hrun⟩
  · rintro copy ⟨k, e⟩ rest v ⟨hnew, hdistinct⟩
    obtain ⟨hfirst, hrest⟩ := List.pairwise_cons.mp hdistinct
    have hkept : ∀ newFd : Int, ∀ pair ∈ rest,
        (copy.insert k ⟨newFd, e.flags⟩)[pair.1]? = none := by
      intro newFd pair hpair
      rw [getElem?_insert, if_neg (hfirst pair hpair)]
      exact hnew pair (List.mem_cons_of_mem _ hpair)
    have hadd := fun newFd => FdTable.addFdEntry_of_unmapped (hnew (k, e) List.mem_cons_self)
      newFd e.flags
    unfold cloneEntry
    split
    · rw [bind_of_eq_some (intSyscall_apply _ v)]
      exact ⟨_, _, lift_eq_some.mpr ⟨hadd _, rfl⟩, hkept _, hrest⟩
    · rw [bind_of_eq_some (pure_apply _ v)]
      exact ⟨_, _, lift_eq_some.mpr ⟨hadd _, rfl⟩, hkept _, hrest⟩

theorem exists_cloneFdTable {ppid : Int} {t : FdTable} (ht : w.manager.fdTableMap.get ppid = some t)
    (pid : Int) (shared : Bool) : ∃ w', cloneFdTable ppid pid shared w = some ((), w') := by
  unfold cloneFdTable
  split
  · obtain ⟨map, hshare⟩ := Shared.exists_share ht pid
    simp [updateManager, changeManager, hshare]
  · have hquery : queryManager (fun m => m.fdTableMap.get ppid) w = some (t, w) := by
      simp [queryManager, ht]
    obtain ⟨copy, w', hcopy⟩ := exists_cloneEntries t w
    rw [bind_of_eq_some hquery, bind_of_eq_some hcopy]
    exact ⟨_, rfl⟩

theorem cloneFdTable_eq_none {ppid : Int} (h : w.manager.fdTableMap.get ppid = none) (pid : Int)
    (shared : Bool) : cloneFdTable ppid pid shared w = none := by
  unfold cloneFdTable
  split
  · simp [updateManager, changeManager, Shared.share_eq_none h]
  · exact bind_of_eq_none (by simp [queryManager, h]) _

theorem sameFlags_iff {t copy : FdTable} : SameFlags t copy ↔ flagsOf copy = flagsOf t :=
  funext_iff.symm

theorem cloneFdTable_rel (h : Refines w p) {ppid pid : Int} {shared : Bool}
    (hnew : w.manager.fdTableMap.get pid = none) :
    Option.Rel Refines ((cloneFdTable ppid pid shared w).map Prod.snd)
      ((p.tables.clone ppid pid shared).map fun tables => { p with tables := tables }) := by
  have hrel : Option.Rel (Represents flagsOf)
      ((cloneFdTable ppid pid shared w).map fun result => result.2.manager.fdTableMap)
      (p.tables.clone ppid pid shared) := h.tables.rel_clone hnew ?_ ?_
  · cases hrun : cloneFdTable ppid pid shared w with
    | none =>
        rw [hrun] at hrel
        cases hclone : p.tables.clone ppid pid shared with
        | none => exact .none
        | some g =>
            rw [hclone] at hrel
            exact nomatch hrel
    | some result =>
        rw [hrun] at hrel
        cases hclone : p.tables.clone ppid pid shared with
        | none =>
            rw [hclone] at hrel
            exact nomatch hrel
        | some g =>
            rw [hclone] at hrel
            obtain ⟨humask, -⟩ := cloneFdTable_resources (u := result.1) hrun
            cases hrel with
            | some htables =>
                refine .some ⟨?_, htables⟩
                rw [humask]
                exact h.umasks
  · intro hnone
    rw [cloneFdTable_eq_none hnone]
    rfl
  · intro t ht
    obtain ⟨w', hrun⟩ := exists_cloneFdTable ht pid shared
    refine ⟨w'.manager.fdTableMap, by rw [hrun]; rfl, ?_⟩
    simp only [← sameFlags_iff]
    exact (cloneFdTable_resources hrun).2

theorem cloneUmask_rel (h : Refines w p) {ppid pid : Int} {shared : Bool}
    (hnew : w.manager.umaskTable.get pid = none) :
    Option.Rel Refines ((cloneUmask ppid pid shared w).map Prod.snd)
      ((p.umasks.clone ppid pid shared).map fun umasks => { p with umasks := umasks }) := by
  have hrun : (cloneUmask ppid pid shared w).map Prod.snd =
      (if shared then w.manager.umaskTable.share ppid pid
        else (w.manager.umaskTable.get ppid).map (w.manager.umaskTable.create pid)).map
        fun table => { w with manager := { w.manager with umaskTable := table } } := by
    unfold cloneUmask
    rw [updateManager_map]
    unfold Manager.cloneUmask
    split
    · cases w.manager.umaskTable.share ppid pid <;> rfl
    · cases w.manager.umaskTable.get ppid <;> rfl
  rw [hrun]
  apply rel_umasks h
  apply h.umasks.rel_clone hnew
  · intro hnone
    split
    · exact Shared.share_eq_none hnone pid
    · rw [hnone, Option.map_none]
  · intro umask humask
    cases shared with
    | true =>
        obtain ⟨table, hshare⟩ := Shared.exists_share humask pid
        exact ⟨table, hshare, .inl ⟨rfl, hshare⟩⟩
    | false =>
        refine ⟨_, ?_, .inr ⟨rfl, umask, umask, humask, rfl, rfl⟩⟩
        rw [if_neg Bool.false_ne_true, humask, Option.map_some]

theorem setUmask_rel (h : Refines w p) {pid : Int} {mode : BitVec 32} :
    Option.Rel Refines ((setUmask pid mode w).map Prod.snd)
      ((p.umasks.change pid fun _ => some mode).map fun umasks => { p with umasks := umasks }) := by
  have hrun : (setUmask pid mode w).map Prod.snd =
      ((w.manager.umaskTable.get pid).bind fun _ => (some mode).bind fun mode =>
        w.manager.umaskTable.modify pid mode).map
        fun table => { w with manager := { w.manager with umaskTable := table } } := by
    unfold setUmask
    rw [updateManager_map]
    unfold Manager.setUmask
    cases hget : w.manager.umaskTable.get pid with
    | none =>
        rw [Shared.modify_eq_none hget]
        rfl
    | some umask =>
        rw [Option.bind_some, Option.bind_some]
        cases w.manager.umaskTable.modify pid mode <;> rfl
  rw [hrun]
  apply rel_umasks h
  apply h.umasks.rel_change
  intro umask
  rfl

/-- Every operation does to the manager what it does to the groups, and fails an
assertion where the groups do not allow it. -/
theorem step_rel {op : Operation} (h : Refines w p) (hnew : newChild w op = true) :
    Option.Rel Refines ((op.perform w).map Prod.snd) (p.step op) := by
  cases op with
  | cloneUmask ppid pid shared =>
      exact cloneUmask_rel h (Option.isNone_iff_eq_none.mp hnew)
  | cloneFdTable ppid pid shared => exact cloneFdTable_rel h (Option.isNone_iff_eq_none.mp hnew)
  | setUmask pid mode =>
      exact setUmask_rel h
  | addFd pid k fd flags => exact rel_changeTable h fun t => flagsOf_addFdEntry t k fd flags
  | removeFd pid k =>
      rw [removeFd_map]
      refine rel_changeTable h fun t => ?_
      rw [Option.map_some, flagsOf_erase]
  | setFlags pid k flags =>
      exact rel_changeTable h fun t => flagsOf_updated t k fun _ => flags
  | addFlags pid k flags =>
      show Option.Rel Refines ((updateManager (fun m => m.addFlags pid k flags) w).map Prod.snd) _
      simp only [addFlags_eq_changeTable]
      exact rel_changeTable h fun t => flagsOf_updated t k fun current => current ||| flags
  | removeUmask pid =>
      rw [removeUmask_map]
      exact rel_umasks h h.umasks.rel_exit
  | removeFdTable pid =>
      rw [removeFdTable_map]
      exact rel_tables h h.tables.rel_exit

end

theorem flagsOf_addFds {fdMap : List (Int × Int)} {t t' : FdTable}
    (h : fdMap.foldlM (fun t pair => t.addFdEntry pair.1 pair.2 0) t = some t')
    (hflags : ∀ k x, flagsOf t k = some x → x = 0) (k : Int) :
    flagsOf t' k = if k ∈ fdMap.map Prod.fst then some 0 else flagsOf t k := by
  induction fdMap generalizing t with
  | nil =>
      obtain rfl := Option.some.inj h
      rfl
  | cons pair fdMap ih =>
      rw [List.foldlM_cons] at h
      obtain ⟨t₁, hadd, hrest⟩ := Option.bind_eq_some_iff.mp h
      have hopened : Processes.opened pair.1 0 (flagsOf t) = some (flagsOf t₁) := by
        rw [← flagsOf_addFdEntry t pair.1 pair.2, hadd, Option.map_some]
      have hentry : ∀ a, flagsOf t₁ a = if a = pair.1 then some 0 else flagsOf t a := by
        intro a
        unfold Processes.opened at hopened
        split at hopened
        · rw [← Option.some.inj hopened, Function.update_apply]
        · rename_i hmapped
          split at hopened
          · rw [← Option.some.inj hopened]
            split
            · rename_i ha
              rw [ha]
              cases hx : flagsOf t pair.1 with
              | none =>
                  rw [hx] at hmapped
                  exact absurd rfl hmapped
              | some x => rw [hflags _ x hx]
            · rfl
          · cases hopened
      rw [ih hrest ?_, hentry]
      · rw [List.map_cons]
        grind
      · intro a x hx
        rw [hentry] at hx
        split at hx
        · exact (Option.some.inj hx).symm
        · exact hflags a x hx

theorem refines_of_initialized {w : World} {inUse : Int → Bool} {maxFds : Nat} {pid : Int}
    {fdMap : List (Int × Int)}
    (h : Manager.initializeTables inUse maxFds pid fdMap = some w.manager) :
    Refines w (.start pid fdMap) := by
  obtain ⟨humask, htables⟩ := initializeTables_eq_some h
  obtain ⟨m, hfold, hrest⟩ := Option.bind_eq_some_iff.mp h
  obtain ⟨t, ht, heq⟩ := Option.bind_eq_some_iff.mp hrest
  have hmap : w.manager.fdTableMap = m.fdTableMap := by rw [← Option.some.inj heq]
  have hempty : (Shared.empty : Shared Int FdTable).Exact := Shared.exact_empty
  have hcreated : ((Shared.empty : Shared Int FdTable).create pid ∅).get pid = some ∅ := by
    rw [hempty.toBacked.get_create, if_pos rfl]
  obtain ⟨t', hentries, ht', -, -, -⟩ := addFds_eq_some hcreated (hempty.create ∅ rfl) hfold
  obtain rfl := Option.some.inj (ht.symm.trans ht')
  have hsingle : Represents flagsOf ((Shared.empty : Shared Int FdTable).create pid ∅)
      (.single pid (flagsOf ∅)) := .single ∅
  refine ⟨?_, htables.backed hsingle.backed, fun a => ?_, fun a b => ?_⟩
  · rw [humask]
    exact .single 0
  · show (if a = pid then some _ else none) = _
    split
    · rename_i ha
      rw [ha, hmap, ht, Option.map_some]
      apply congrArg some
      funext k
      rw [flagsOf_addFds hentries ?_ k]
      · rfl
      · intro a x hx
        rw [flagsOf, ExtTreeMap.getElem?_empty] at hx
        cases hx
    · rename_i ha
      have hnone : w.manager.fdTableMap.map[a]? = none := by
        rw [htables.map_eq]
        simp only [Shared.create, Shared.empty, getElem?_insert, if_neg (Ne.symm ha)]
        exact ExtTreeMap.getElem?_empty
      rw [Shared.get_eq_bind, hnone]
      rfl
  · rw [htables.map_eq]
    exact hsingle.mates a b

theorem step_of_oldChild {w : World} {p : Processes} {op : Operation} (h : Refines w p)
    (hold : ¬newChild w op = true) : p.step op = none := by
  cases op with
  | cloneUmask ppid pid shared =>
      have hlive : (p.umasks.value pid).isSome = true := by
        rw [h.umasks.value, Option.isSome_map]
        exact Option.isSome_iff_ne_none.mpr fun hnone => hold (Option.isNone_iff_eq_none.mpr hnone)
      show (p.umasks.clone ppid pid shared).map _ = none
      unfold Groups.clone
      rw [if_pos hlive]
      rfl
  | cloneFdTable ppid pid shared =>
      have hlive : (p.tables.value pid).isSome = true := by
        rw [h.tables.value, Option.isSome_map]
        exact Option.isSome_iff_ne_none.mpr fun hnone => hold (Option.isNone_iff_eq_none.mpr hnone)
      show (p.tables.clone ppid pid shared).map _ = none
      unfold Groups.clone
      rw [if_pos hlive]
      rfl
  | _ => exact absurd rfl hold

/-- The manager refuses an operation exactly when the groups do. -/
theorem runVia_rel {start w : World} {p₀ p : Processes} (h : Refines w p) (ops : List Operation) :
    Option.Rel Refines ((tableSystem start).runVia newChild w ops)
      ((groupSystem p₀).runVia (fun _ _ => true) p ops) := by
  induction ops generalizing w p with
  | nil => exact .some h
  | cons op ops ih =>
      have hgroups : (groupSystem p₀).runVia (fun _ _ => true) p (op :: ops) =
          (p.step op).bind fun p' => (groupSystem p₀).runVia (fun _ _ => true) p' ops := rfl
      have hmanager : (tableSystem start).runVia newChild w (op :: ops) =
          if newChild w op then ((op.perform w).map Prod.snd).bind fun w' =>
            (tableSystem start).runVia newChild w' ops
          else none := rfl
      rw [hgroups, hmanager]
      split
      · rename_i hnew
        have hrel := step_rel h hnew
        generalize (op.perform w).map Prod.snd = o at hrel
        generalize p.step op = o' at hrel
        cases hrel with
        | none => exact .none
        | some hrefines =>
            rw [Option.bind_some, Option.bind_some]
            exact ih hrefines
      · rename_i hold
        rw [step_of_oldChild h hold]
        exact .none

/-- Whatever the operations and their order: the manager refuses an operation
exactly when the groups do, and else it shows every process what the groups show
it. -/
theorem manager_shows_groups (start : World) (inUse : Int → Bool) (maxFds : Nat) (pid : Int)
    (fdMap : List (Int × Int)) (ops : List Operation)
    (hstart : Manager.initializeTables inUse maxFds pid fdMap = some start.manager) :
    Option.Rel Shows ((tableSystem start).runVia newChild start ops)
      ((groupSystem (.start pid fdMap)).runVia (fun _ _ => true) (.start pid fdMap) ops) := by
  have hrel := @runVia_rel start start (.start pid fdMap) (.start pid fdMap)
    (refines_of_initialized hstart) ops
  generalize (tableSystem start).runVia newChild start ops = o at hrel
  generalize (groupSystem (.start pid fdMap)).runVia (fun _ _ => true) (.start pid fdMap) ops = o'
    at hrel
  cases hrel with
  | none => exact .none
  | some hrefines => exact .some hrefines.shows

/-- Process 2 shares the table of process 1 and opens 5 for both. -/
theorem sharedTable_shows_groups :
    Option.Rel Shows
      ((tableSystem (startWorld inOrder)).runVia newChild (startWorld inOrder)
        [.cloneUmask 1 2 false, .cloneFdTable 1 2 true, .addFd 2 5 3 oCloexec, .removeFdTable 1])
      ((groupSystem (.start 1 stdFdMap)).runVia (fun _ _ => true) (.start 1 stdFdMap)
        [.cloneUmask 1 2 false, .cloneFdTable 1 2 true, .addFd 2 5 3 oCloexec,
          .removeFdTable 1]) :=
  manager_shows_groups (startWorld inOrder) _ 16 1 stdFdMap _ (startWorld_prepared inOrder).manager

end SyscallReplayer.GroupedTables
