import SyscallReplayer.ReplayModules
import SyscallReplayer.StatePrograms

/-!
# What the operations on the tables do

Each operation of the resources manager, run on a world whose process has the
table `t`: its value, and the table it leaves.
-/

namespace SyscallReplayer

open Std (ExtTreeMap)
open CInt SharedEntries ReplayKernel ResourcesManager ReplayWorld ReplayModules

namespace ResourcesManager.FdTable

theorem hasFd_iff {t : FdTable} {k : Int} : hasFd t k = true ↔ ∃ e, t[k]? = some e := by
  rw [hasFd, ← ExtTreeMap.mem_iff_contains, ExtTreeMap.mem_iff_isSome_getElem?,
    Option.isSome_iff_exists]

theorem hasFd_eq_false_iff {t : FdTable} {k : Int} :
    hasFd t k = false ↔ t[k]? = none := by
  rw [← Bool.not_eq_true, hasFd_iff, ← Option.isSome_iff_exists, Bool.not_eq_true,
    Option.isSome_eq_false_iff, Option.isNone_iff_eq_none]

theorem addFdEntry_of_unmapped {t : FdTable} {k : Int} (h : t[k]? = none) (fd : Int)
    (flags : BitVec 32) : addFdEntry t k fd flags = some (t.insert k ⟨fd, flags⟩) := by
  have hnot : hasFd t k = false := hasFd_eq_false_iff.mpr h
  simp [addFdEntry, hnot]

/-- What `add_fd_entry` can do: the entry is new, or it is that of -1 and stays. -/
theorem addFdEntry_cases {t t' : FdTable} {k fd : Int} {flags : BitVec 32}
    (h : addFdEntry t k fd flags = some t') :
    (t[k]? = none ∧ t' = t.insert k ⟨fd, flags⟩) ∨ (k = -1 ∧ (∃ e, t[k]? = some e) ∧ t' = t) := by
  cases hk : t[k]? with
  | none =>
      rw [addFdEntry_of_unmapped hk] at h
      exact .inl ⟨rfl, (Option.some.inj h).symm⟩
  | some e =>
      have hhas : hasFd t k = true := hasFd_iff.mpr ⟨e, hk⟩
      unfold addFdEntry at h
      rw [hhas] at h
      by_cases hneg : k = -1
      · rw [if_neg (by simp [hneg]), if_neg (by simp [hneg])] at h
        exact .inr ⟨hneg, ⟨e, rfl⟩, (Option.some.inj h).symm⟩
      · rw [if_pos ⟨hneg, rfl⟩] at h
        cases h

theorem removeFdEntry_fst (t : FdTable) (k : Int) :
    (removeFdEntry t k).1 = getFd t k := by
  unfold removeFdEntry getFd
  cases t[k]? <;> rfl

theorem erase_of_unmapped {t : FdTable} {k : Int} (h : t[k]? = none) : t.erase k = t := by
  apply ExtTreeMap.ext_getElem?
  intro a
  rw [getElem?_erase]
  split
  · rename_i hka
    rw [← hka, h]
  · rfl

theorem removeFdEntry_snd (t : FdTable) (k : Int) :
    (removeFdEntry t k).2 = t.erase k := by
  cases hk : t[k]? with
  | some e => simp [removeFdEntry, hk]
  | none =>
      simp only [removeFdEntry, hk]
      exact (erase_of_unmapped hk).symm

theorem getFd_of_mapped {t : FdTable} {k : Int} {e : FileDescriptorEntry}
    (h : t[k]? = some e) : getFd t k = e.fd := by
  rw [getFd, h]

theorem getFd_of_unmapped {t : FdTable} {k : Int} (h : t[k]? = none) :
    getFd t k = -1 := by
  rw [getFd, h]

theorem exists_of_getFd_ne {t : FdTable} {k : Int} (h : getFd t k ≠ -1) :
    ∃ e, t[k]? = some e ∧ e.fd = getFd t k := by
  cases hk : t[k]? with
  | none => exact absurd (getFd_of_unmapped hk) h
  | some e => exact ⟨e, rfl, (getFd_of_mapped hk).symm⟩

theorem getFlags_of_mapped {t : FdTable} {k : Int} {e : FileDescriptorEntry}
    (h : t[k]? = some e) : getFlags t k = some e.flags := by
  rw [getFlags, h, Option.map_some]

theorem mem_getAllReplayedFds {t : FdTable} {fd : Int} :
    fd ∈ getAllReplayedFds t ↔ ∃ (k : Int) (e : _), t[k]? = some e ∧ e.fd = fd := by
  rw [getAllReplayedFds, List.mem_dedup, List.mem_map]
  constructor
  · rintro ⟨⟨k, e⟩, hmem, rfl⟩
    exact ⟨k, e, ExtTreeMap.mem_toList_iff_getElem?_eq_some.mp hmem, rfl⟩
  · rintro ⟨k, e, hk, rfl⟩
    exact ⟨(k, e), ExtTreeMap.mem_toList_iff_getElem?_eq_some.mpr hk, rfl⟩

end ResourcesManager.FdTable

namespace ReplayWorld.World

def table (w : World) (pid : Int) : Option FdTable :=
  w.manager.fdTableMap.get pid

/-- The entry of the heap that a process is mapped to. -/
def tableOf (w : World) (pid : Int) : Option Nat :=
  w.manager.fdTableMap.map[pid]?

def setTable (w : World) (pid : Int) (t : FdTable) : World :=
  { w with manager := { w.manager with
      fdTableMap := (w.manager.fdTableMap.modify pid t).getD w.manager.fdTableMap } }

variable (w : World) (pid : Int) (t : FdTable)

@[simp] theorem setTable_issued : (setTable w pid t).issued = w.issued := rfl
@[simp] theorem setTable_openFds : (setTable w pid t).openFds = w.openFds := rfl

variable {w pid t}

theorem exists_modify {s : FdTable} (h : table w pid = some s) (t : FdTable) :
    ∃ map, w.manager.fdTableMap.modify pid t = some map ∧
      setTable w pid t = { w with manager := { w.manager with fdTableMap := map } } := by
  obtain ⟨p, e, hp, he, -⟩ := Shared.get_eq_some.mp h
  have hmodify : w.manager.fdTableMap.modify pid t = some
      { w.manager.fdTableMap with
        heap := w.manager.fdTableMap.heap.insert p { e with value := t } } := by
    simp [Shared.modify, Shared.find_eq_some.mpr ⟨hp, he⟩]
  exact ⟨_, hmodify, by rw [setTable, hmodify, Option.getD_some]⟩

theorem ne_of_table {child : Int} {s : FdTable} (h : table w pid = some s)
    (hnew : tableOf w child = none) : child ≠ pid := by
  rintro rfl
  obtain ⟨p, e, hp, -, -⟩ := Shared.get_eq_some.mp h
  exact nomatch hp.symm.trans hnew

theorem tableOf_setTable (q : Int) : tableOf (setTable w pid t) q = tableOf w q := by
  unfold tableOf setTable
  cases h : w.manager.fdTableMap.modify pid t with
  | none => rfl
  | some map =>
      obtain ⟨p, e, -, -, rfl⟩ := Shared.modify_eq_some h
      rfl

theorem table_setTable {s : FdTable} (h : table w pid = some s) (q : Int) :
    table (setTable w pid t) q = if tableOf w q = tableOf w pid then some t else table w q := by
  obtain ⟨map, hmap, hset⟩ := exists_modify h t
  rw [hset]
  exact Shared.get_modify hmap q

theorem table_setTable_self {s : FdTable} (h : table w pid = some s) :
    table (setTable w pid t) pid = some t := by
  rw [table_setTable h, if_pos rfl]

theorem setTable_setTable {s : FdTable} (h : table w pid = some s) (t' : FdTable) :
    setTable (setTable w pid t) pid t' = setTable w pid t' := by
  obtain ⟨p, e, hp, he, -⟩ := Shared.get_eq_some.mp h
  have hinsert : ∀ x y : Counted FdTable,
      (w.manager.fdTableMap.heap.insert p x).insert p y = w.manager.fdTableMap.heap.insert p y := by
    intro x y
    apply ExtTreeMap.ext_getElem?
    intro q
    rw [getElem?_insert, getElem?_insert, getElem?_insert]
    split <;> rfl
  simp [setTable, Shared.modify, Shared.find, hp, he, hinsert]

theorem setTable_eq_self (h : table w pid = some t) : setTable w pid t = w := by
  obtain ⟨p, e, hp, he, rfl⟩ := Shared.get_eq_some.mp h
  have hfind := Shared.find_eq_some.mpr ⟨hp, he⟩
  have hinsert : w.manager.fdTableMap.heap.insert p e = w.manager.fdTableMap.heap := by
    apply ExtTreeMap.ext_getElem?
    intro q
    rw [getElem?_insert]
    split
    · rename_i hpq
      rw [← hpq, he]
    · rfl
  simp [setTable, Shared.modify, hfind, hinsert]

end ReplayWorld.World

namespace ReplayWorld

variable {w w' : World} {pid k fd : Int} {t : FdTable}

theorem resolves_eq (w : World) (pid k : Int) :
    w.resolves pid k = (w.table pid).map fun t => t.getFd k := rfl

theorem resolves_of_table (h : w.table pid = some t) (k : Int) :
    w.resolves pid k = some (t.getFd k) := by
  rw [resolves_eq, h, Option.map_some]

theorem getFd_apply (pid k : Int) (w : World) :
    getFd pid k w = (w.resolves pid k).map fun fd => (fd, w) := rfl

theorem getFd_run (h : w.table pid = some t) (k : Int) : getFd pid k w = some (t.getFd k, w) := by
  rw [getFd_apply, resolves_of_table h, Option.map_some]

theorem getFd_eq_some (h : getFd pid k w = some (fd, w')) :
    ∃ t, w.table pid = some t ∧ fd = t.getFd k ∧ w' = w := by
  rw [getFd_apply, resolves_eq, Option.map_map, Option.map_eq_some_iff] at h
  obtain ⟨t, ht, heq⟩ := h
  obtain ⟨rfl, rfl⟩ := Prod.mk.inj heq
  exact ⟨t, ht, rfl, rfl⟩

theorem hasFd_run (h : w.table pid = some t) (k : Int) : hasFd pid k w = some (t.hasFd k, w) := by
  have hget : w.manager.fdTableMap.get pid = some t := h
  simp [hasFd, queryManager, Manager.hasFd, hget]

theorem getAllTracedFds_run (h : w.table pid = some t) :
    getAllTracedFds pid w = some (t.getAllTracedFds, w) := by
  have hget : w.manager.fdTableMap.get pid = some t := h
  simp [getAllTracedFds, queryManager, Manager.getAllTracedFds, hget]

theorem getFlags_run (h : w.table pid = some t) {e : FileDescriptorEntry}
    (he : t[k]? = some e) : getFlags pid k w = some (e.flags, w) := by
  have hget : w.manager.fdTableMap.get pid = some t := h
  simp [getFlags, queryManager, Manager.getFlags, hget, FdTable.getFlags_of_mapped he]

theorem getFlags_eq_some {flags : BitVec 32} (h : getFlags pid k w = some (flags, w')) :
    ∃ t e, w.table pid = some t ∧ t[k]? = some e ∧ flags = e.flags ∧ w' = w := by
  rw [getFlags, queryManager, Option.map_eq_some_iff] at h
  obtain ⟨flags', hflags, heq⟩ := h
  obtain ⟨rfl, rfl⟩ := Prod.mk.inj heq
  obtain ⟨t, ht, hflags⟩ := Option.bind_eq_some_iff.mp hflags
  obtain ⟨e, he, rfl⟩ := Option.map_eq_some_iff.mp hflags
  exact ⟨t, e, ht, he, rfl, rfl⟩

theorem addFd_run (h : w.table pid = some t) (k fd : Int) (flags : BitVec 32) :
    addFd pid k fd flags w =
      (t.addFdEntry (int32 k) fd flags).map fun t' => ((), w.setTable pid t') := by
  have hget : w.manager.fdTableMap.get pid = some t := h
  cases hadd : t.addFdEntry (int32 k) fd flags with
  | none => simp [addFd, updateManager, changeManager, Manager.addFd, Manager.changeTable, hget, hadd]
  | some t' =>
      obtain ⟨map, hmap, hset⟩ := World.exists_modify h t'
      simp [addFd, updateManager, changeManager, Manager.addFd, Manager.changeTable, hget, hadd,
        hmap, hset]

theorem addFd_eq_some {flags : BitVec 32} {u : Unit}
    (h : addFd pid k fd flags w = some (u, w')) :
    ∃ t t', w.table pid = some t ∧ t.addFdEntry (int32 k) fd flags = some t' ∧
      w' = w.setTable pid t' := by
  cases ht : w.table pid with
  | none =>
      have hget : w.manager.fdTableMap.get pid = none := ht
      simp [addFd, updateManager, changeManager, Manager.addFd, Manager.changeTable, hget] at h
  | some t =>
      rw [addFd_run ht, Option.map_eq_some_iff] at h
      obtain ⟨t', hadd, heq⟩ := h
      exact ⟨t, t', rfl, hadd, (Prod.mk.inj heq).2.symm⟩

theorem removeFd_run (h : w.table pid = some t) (k : Int) :
    removeFd pid k w = some (t.getFd k, w.setTable pid (t.erase k)) := by
  have hget : w.manager.fdTableMap.get pid = some t := h
  obtain ⟨map, hmap, hset⟩ := World.exists_modify h (t.erase k)
  simp [removeFd, changeManager, Manager.removeFd, hget, FdTable.removeFdEntry_snd,
    FdTable.removeFdEntry_fst, hmap, hset]

theorem removeFd_eq_some (h : removeFd pid k w = some (fd, w')) :
    ∃ t, w.table pid = some t ∧ fd = t.getFd k ∧ w' = w.setTable pid (t.erase k) := by
  cases ht : w.table pid with
  | none =>
      have hget : w.manager.fdTableMap.get pid = none := ht
      simp [removeFd, changeManager, Manager.removeFd, hget] at h
  | some t =>
      rw [removeFd_run ht, Option.some.injEq, Prod.mk.injEq] at h
      exact ⟨t, rfl, h.1.symm, h.2.symm⟩

theorem addFlags_run (h : w.table pid = some t) {e : FileDescriptorEntry}
    (he : t[k]? = some e) (flags : BitVec 32) :
    addFlags pid k flags w =
      some ((), w.setTable pid (t.insert k { e with flags := e.flags ||| flags })) := by
  have hget : w.manager.fdTableMap.get pid = some t := h
  obtain ⟨map, hmap, hset⟩ :=
    World.exists_modify h (t.insert k { e with flags := e.flags ||| flags })
  simp [addFlags, updateManager, changeManager, Manager.addFlags, Manager.getFlags,
    Manager.setFlags, Manager.changeTable, FdTable.setFlags, hget,
    FdTable.getFlags_of_mapped he, he, hmap, hset]

theorem addFlags_eq_some {flags : BitVec 32} {u : Unit}
    (h : addFlags pid k flags w = some (u, w')) :
    ∃ t e, w.table pid = some t ∧ t[k]? = some e ∧
      w' = w.setTable pid (t.insert k { e with flags := e.flags ||| flags }) := by
  cases ht : w.table pid with
  | none =>
      have hget : w.manager.fdTableMap.get pid = none := ht
      simp [addFlags, updateManager, changeManager, Manager.addFlags, Manager.getFlags, hget] at h
  | some t =>
      cases he : t[k]? with
      | none =>
          have hget : w.manager.fdTableMap.get pid = some t := ht
          simp [addFlags, updateManager, changeManager, Manager.addFlags, Manager.getFlags, hget,
            FdTable.getFlags, he] at h
      | some e =>
          rw [addFlags_run ht he, Option.some.injEq, Prod.mk.injEq] at h
          exact ⟨t, e, rfl, he, h.2.symm⟩

theorem generateUnusedFd_eq_some (h : generateUnusedFd pid w = some (fd, w')) :
    fd = Manager.leastUnused w.manager.usedFds w.manager.usedFds.card 0 ∧ w' = w := by
  rw [generateUnusedFd, queryManager, Manager.generateUnusedFd, Option.map_map,
    Option.map_eq_some_iff] at h
  obtain ⟨_, _, heq⟩ := h
  exact ⟨(Prod.mk.inj heq).1.symm, (Prod.mk.inj heq).2.symm⟩

theorem generateUnusedFd_run (h : w.table pid = some t) :
    ∃ fd, generateUnusedFd pid w = some (fd, w) := by
  have hget : w.manager.fdTableMap.get pid = some t := h
  simp [generateUnusedFd, queryManager, Manager.generateUnusedFd, hget]

theorem removeUmask_run {freed : Option (BitVec 32)} {table : Shared Int (BitVec 32)}
    (h : w.manager.umaskTable.release pid = some (freed, table)) :
    removeUmask pid w = some ((), { w with manager := { w.manager with umaskTable := table } }) := by
  simp [removeUmask, updateManager, changeManager, Manager.removeUmask, h]

theorem removeFdTable_run {freed : Option FdTable} {map : Shared Int FdTable}
    (h : w.manager.fdTableMap.release pid = some (freed, map)) :
    removeFdTable pid w = some ((freed.map FdTable.getAllReplayedFds).getD [],
      { w with manager := { w.manager with fdTableMap := map } }) := by
  simp [removeFdTable, changeManager, Manager.removeFdTable, h]

theorem getMode_eq_some {mode result : BitVec 32} (h : getMode pid mode w = some (result, w')) :
    ∃ umask, w.manager.getUmask pid = some umask ∧ result = mode &&& ~~~umask ∧ w' = w := by
  obtain ⟨umask, w₁, hquery, hpure⟩ := StatePrograms.bind_eq_some.mp h
  rw [queryManager, Option.map_eq_some_iff] at hquery
  obtain ⟨umask', humask, heq⟩ := hquery
  obtain ⟨rfl, rfl⟩ := Prod.mk.inj heq
  rw [StatePrograms.pure_apply, Option.some.injEq, Prod.mk.injEq] at hpure
  exact ⟨umask', humask, hpure.1.symm, hpure.2.symm⟩

theorem getMode_run {umask : BitVec 32} (h : w.manager.getUmask pid = some umask)
    (mode : BitVec 32) : getMode pid mode w = some (mode &&& ~~~umask, w) := by
  simp [getMode, queryManager, StatePrograms.bind_apply, h, StatePrograms.pure_apply]

theorem getMode_of_none (h : w.manager.getUmask pid = none) (mode : BitVec 32) :
    getMode pid mode w = none := by
  simp [getMode, queryManager, StatePrograms.bind_apply, h]

theorem intSyscall_apply (call : SystemCall) (w : World) :
    intSyscall call w = some (int32 (w.answer call), w.serve call) := rfl

end ReplayWorld

namespace ReplayModules

open StatePrograms

variable {w : World} {pid k : Int} {t : FdTable} {e : FileDescriptorEntry}

/-- A simulated descriptor that closes on exec goes whether or not the call
succeeded. -/
def keptByExecve (retVal : Int) (e : FileDescriptorEntry) : Bool :=
  !(closesOnExec e.flags && (0 ≤ retVal || e.fd = syscallSimulated))

theorem execveEntry_run (h : w.table pid = some t) (he : t[k]? = some e) (retVal : Int) :
    execveEntry pid retVal k w =
      some ((), w.setTable pid (if keptByExecve retVal e then t else t.erase k)) := by
  have herased : (w.setTable pid (t.erase k)).table pid = some (t.erase k) :=
    World.table_setTable_self h
  have htwice : (t.erase k).erase k = t.erase k := by
    apply ExtTreeMap.ext_getElem?
    intro a
    rw [SharedEntries.getElem?_erase, SharedEntries.getElem?_erase]
    split <;> rfl
  unfold execveEntry
  rw [bind_of_eq_some (getFlags_run h he), bind_of_eq_some (getFd_run h k),
    FdTable.getFd_of_mapped he]
  by_cases hcloses : closesOnExec e.flags = true
  · by_cases hret : retVal ≥ 0
    · have hkept : keptByExecve retVal e = false := by simp [keptByExecve, hcloses, hret]
      rw [if_pos ⟨hcloses, hret⟩, bind_of_eq_some (removeFd_run h k), hkept]
      by_cases hsim : e.fd = syscallSimulated
      · rw [if_pos hsim, if_pos hcloses]
        dsimp only
        rw [bind_of_eq_some (removeFd_run herased k), htwice, World.setTable_setTable h]
        rfl
      · rw [if_neg hsim]
        rfl
    · rw [if_neg fun hboth => hret hboth.2]
      by_cases hsim : e.fd = syscallSimulated
      · have hkept : keptByExecve retVal e = false := by simp [keptByExecve, hcloses, hsim]
        rw [if_pos hsim, if_pos hcloses]
        dsimp only
        rw [bind_of_eq_some (removeFd_run h k), hkept]
        rfl
      · have hkept : keptByExecve retVal e = true := by
          simp only [keptByExecve, hsim, decide_false, Bool.or_false]
          simp [hret]
        rw [if_neg hsim, hkept, if_pos rfl, World.setTable_eq_self h]
        rfl
  · have hkept : keptByExecve retVal e = true := by simp [keptByExecve, hcloses]
    rw [if_neg fun hboth => hcloses hboth.1, if_neg hcloses, hkept, if_pos rfl,
      World.setTable_eq_self h]
    split <;> rfl

theorem execveEntries_run (retVal : Int) (l : List Int) (hnodup : l.Nodup)
    (h : w.table pid = some t) (hmapped : ∀ k ∈ l, ∃ e, t[k]? = some e) :
    ∃ t', l.forM (execveEntry pid retVal) w = some ((), w.setTable pid t') ∧
      ∀ k : Int, t'[k]? = if k ∈ l then (t[k]?).filter (keptByExecve retVal) else t[k]? := by
  induction l generalizing w t with
  | nil =>
      refine ⟨t, ?_, ?_⟩
      · rw [World.setTable_eq_self h]
        rfl
      · intro k
        rw [if_neg List.not_mem_nil]
  | cons k l ih =>
      obtain ⟨e, he⟩ := hmapped k List.mem_cons_self
      obtain ⟨hnot, hnodup⟩ := List.nodup_cons.mp hnodup
      have hstep : ∀ a : Int, (if keptByExecve retVal e then t else t.erase k)[a]? =
          if a = k then (t[k]?).filter (keptByExecve retVal) else t[a]? := by
        intro a
        rw [he]
        cases hkept : keptByExecve retVal e
        · simp only [Bool.false_eq_true, if_false, SharedEntries.getElem?_erase,
            Option.filter_some, hkept, eq_comm (a := k)]
        · simp only [if_true, Option.filter_some, hkept]
          split
          · rename_i hak
            rw [hak, he]
          · rfl
      have hkeeps : ∀ a ∈ l, (if keptByExecve retVal e then t else t.erase k)[a]? = t[a]? := by
        intro a ha
        rw [hstep, if_neg]
        rintro rfl
        exact hnot ha
      obtain ⟨t', hrun, ht'⟩ := ih hnodup (World.table_setTable_self h
        (t := if keptByExecve retVal e then t else t.erase k)) fun a ha => by
          rw [hkeeps a ha]
          exact hmapped a (List.mem_cons_of_mem k ha)
      refine ⟨t', ?_, ?_⟩
      · show (execveEntry pid retVal k >>= fun _ => l.forM (execveEntry pid retVal)) w = _
        rw [bind_of_eq_some (execveEntry_run h he retVal), hrun, World.setTable_setTable h]
      · intro a
        rw [ht', hstep]
        by_cases hak : a = k
        · rw [if_neg (by rw [hak]; exact hnot), if_pos hak, if_pos (by simp [hak]), hak]
        · simp only [hak, if_false, List.mem_cons, false_or]

theorem execveProcessRow_run (h : w.table pid = some t) (replayed retVal : Int) :
    ∃ t' : FdTable, execveProcessRow pid replayed retVal w =
        some (replayed, w.setTable pid t') ∧
      ∀ k : Int, t'[k]? = (t[k]?).filter (keptByExecve retVal) := by
  obtain ⟨t', hrun, ht'⟩ := execveEntries_run retVal t.getAllTracedFds ExtTreeMap.nodup_keys h
    fun k hk => by
      rw [← Option.isSome_iff_exists]
      exact ExtTreeMap.mem_iff_isSome_getElem?.mp (ExtTreeMap.mem_keys.mp hk)
  refine ⟨t', ?_, ?_⟩
  · unfold execveProcessRow
    rw [bind_of_eq_some (getAllTracedFds_run h), bind_of_eq_some hrun]
    rfl
  · intro k
    rw [ht']
    split
    · rfl
    · rename_i hk
      have hnone : t[k]? = none := by
        rw [ExtTreeMap.getElem?_eq_none]
        exact fun hmem => hk (ExtTreeMap.mem_keys.mpr hmem)
      rw [hnone]
      rfl

end ReplayModules

end SyscallReplayer
