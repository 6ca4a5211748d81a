import SyscallReplayer.MappedDescriptors
import SyscallReplayer.ReplayRuns

/-!
# Isolation of the traced processes

Each replayed descriptor belongs to one entry of one table, so that what one
process closes is not what another one uses.
-/

namespace SyscallReplayer.Isolation

open Std (ExtTreeMap)
open CInt SharedEntries ReplayKernel ResourcesManager ReplayWorld ReplayModules
open StatePrograms World ReplayRuns TransitionSystem SnapshotFidelity

/-- No replayed descriptor is in two entries, and those of `F` are in none. -/
structure Isolated (F : Set Int) (w : World) : Prop where
  backed : w.manager.fdTableMap.Backed
  apart : ∀ {p q k a fd : Int}, 0 ≤ fd → w.Maps p k fd → w.Maps q a fd →
    w.tableOf p = w.tableOf q ∧ k = a
  opened : ∀ {p k fd : Int}, 0 ≤ fd → w.Maps p k fd → fd ∈ w.openFds
  floating : ∀ {fd : Int}, fd ∈ F → 0 ≤ fd → fd ∈ w.openFds ∧ ∀ p k, ¬w.Maps p k fd
  replayed : ∀ {p k fd : Int}, w.Maps p k fd → fd ≠ syscallSimulated

namespace Isolated

variable {F G : Set Int} {w w' : World} {pid : Int} {t : FdTable}

theorem sub (h : Isolated F w) (hsub : ∀ fd ∈ G, fd ∈ F) : Isolated G w where
  backed := h.backed
  apart := h.apart
  opened := h.opened
  floating hfd := h.floating (hsub _ hfd)
  replayed := h.replayed

theorem congr (h : Isolated F w) (htables : w'.manager.fdTableMap = w.manager.fdTableMap)
    (hopen : w'.openFds = w.openFds) : Isolated F w' where
  backed := htables ▸ h.backed
  apart := by
    intro p q k a fd hfd hp hq
    rw [maps_congr htables] at hp hq
    rw [tableOf_congr htables, tableOf_congr htables]
    exact h.apart hfd hp hq
  opened := by
    intro p k fd hfd hp
    rw [maps_congr htables] at hp
    exact hopen ▸ h.opened hfd hp
  floating := by
    intro fd hF hfd
    obtain ⟨hin, hfree⟩ := h.floating hF hfd
    refine ⟨hopen ▸ hin, ?_⟩
    intro p k hp
    exact hfree p k ((maps_congr htables p k fd).mp hp)
  replayed := by
    intro p k fd hp
    exact h.replayed ((maps_congr htables p k fd).mp hp)

theorem insert_open (h : Isolated F w) {fd : Int}
    (htables : w'.manager.fdTableMap = w.manager.fdTableMap)
    (hopen : w'.openFds = insert fd w.openFds) (hfree : ∀ p k, ¬w.Maps p k fd) :
    Isolated (insert fd F) w' where
  backed := htables ▸ h.backed
  apart := by
    intro p q k a x hx hp hq
    rw [maps_congr htables] at hp hq
    rw [tableOf_congr htables, tableOf_congr htables]
    exact h.apart hx hp hq
  opened := by
    intro p k x hx hp
    rw [maps_congr htables] at hp
    rw [hopen]
    exact Finset.mem_insert_of_mem (h.opened hx hp)
  floating := by
    intro x hF hx
    simp only [maps_congr htables, hopen]
    rcases hF with rfl | hF
    · exact ⟨Finset.mem_insert_self _ _, hfree⟩
    · obtain ⟨hin, hnot⟩ := h.floating hF hx
      exact ⟨Finset.mem_insert_of_mem hin, hnot⟩
  replayed := by
    intro p k x hp
    exact h.replayed ((maps_congr htables p k x).mp hp)

theorem insert_failed (h : Isolated F w) {fd : Int} (hneg : fd < 0)
    (htables : w'.manager.fdTableMap = w.manager.fdTableMap)
    (hopen : w'.openFds = w.openFds) : Isolated (insert fd F) w' where
  backed := (h.congr htables hopen).backed
  apart := (h.congr htables hopen).apart
  opened := (h.congr htables hopen).opened
  floating := by
    intro x hF hx
    rcases hF with rfl | hF
    · omega
    · exact (h.congr htables hopen).floating hF hx
  replayed := (h.congr htables hopen).replayed

theorem serve_opensOne (h : Isolated F w) {call : SystemCall} (hcall : opensOne call = true) :
    Isolated (insert (int32 (w.answer call)) F) (w.serve call) := by
  rcases opensOne_cases (w := w) hcall with ⟨hnonneg, hfresh, hopen⟩ | ⟨hfailed, hopen⟩
  · refine h.insert_open rfl hopen ?_
    intro p k hmaps
    exact hfresh (h.opened hnonneg hmaps)
  · exact h.insert_failed (by omega) rfl hopen

theorem serve_close (h : Isolated F w) {fd : Int} (hF : fd ∈ F) :
    Isolated (F \ {fd}) (w.serve (.close fd)) where
  backed := h.backed
  apart := h.apart
  opened := by
    intro p k x hx hp
    rw [serve_close_openFds, Finset.mem_erase]
    refine ⟨?_, h.opened hx hp⟩
    rintro rfl
    exact (h.floating hF hx).2 p k hp
  floating := by
    rintro x ⟨hxF, hne⟩ hx
    rw [serve_close_openFds, Finset.mem_erase]
    obtain ⟨hin, hfree⟩ := h.floating hxF hx
    exact ⟨⟨hne, hin⟩, hfree⟩
  replayed := h.replayed

theorem erase (h : Isolated F w) (ht : w.table pid = some t) (k : Int) :
    Isolated (insert (t.getFd k) F) (w.setTable pid (t.erase k)) where
  backed := by
    obtain ⟨map, hmap, hset⟩ := exists_modify ht (t.erase k)
    rw [hset]
    exact h.backed.modify hmap
  apart := by
    intro p q a b fd hfd hp hq
    rw [maps_setTable_erase ht] at hp hq
    rw [tableOf_setTable, tableOf_setTable]
    exact h.apart hfd hp.1 hq.1
  opened := by
    intro p a fd hfd hp
    rw [maps_setTable_erase ht] at hp
    exact h.opened hfd hp.1
  floating := by
    intro fd hF hfd
    simp only [maps_setTable_erase ht, setTable_openFds]
    rcases hF with rfl | hF
    · obtain ⟨e, he, -⟩ := FdTable.exists_of_getFd_ne (show t.getFd k ≠ -1 by omega)
      have hmaps : w.Maps pid k (t.getFd k) := (maps_iff ht _ _).mpr (FdTable.maps_getFd he)
      refine ⟨h.opened hfd hmaps, ?_⟩
      rintro p a ⟨hp, hnot⟩
      obtain ⟨hsame, heq⟩ := h.apart hfd hp hmaps
      exact hnot ⟨hsame, heq.symm⟩
    · obtain ⟨hin, hfree⟩ := h.floating hF hfd
      exact ⟨hin, fun p a hp => hfree p a hp.1⟩
  replayed := by
    intro p a fd hp
    rw [maps_setTable_erase ht] at hp
    exact h.replayed hp.1

theorem add (h : Isolated F w) {k fd : Int} {flags : BitVec 32} (hF : fd ∈ F)
    (hreal : fd ≠ syscallSimulated) (hadd : addFd pid k fd flags w = some ((), w')) :
    Isolated ∅ w' := by
  obtain ⟨t, t', ht, hentry, rfl⟩ := addFd_eq_some hadd
  cases hnew : t.hasFd (int32 k) with
  | true =>
      rcases FdTable.addFdEntry_cases hentry with ⟨hnone, -⟩ | ⟨-, -, rfl⟩
      · rw [FdTable.hasFd_eq_false_iff.mpr hnone] at hnew
        cases hnew
      · rw [setTable_eq_self ht]
        exact h.sub fun fd hfd => absurd hfd (Set.notMem_empty fd)
  | false =>
      have hmaps := maps_setTable_addFdEntry ht hentry hnew
      refine ⟨?_, ?_, ?_, ?_, ?_⟩
      · obtain ⟨map, hmap, hset⟩ := exists_modify ht t'
        rw [hset]
        exact h.backed.modify hmap
      · intro p q a b x hx hp hq
        rw [hmaps] at hp hq
        rw [tableOf_setTable, tableOf_setTable]
        rcases hp with hp | ⟨hp, rfl, rfl⟩
        · rcases hq with hq | ⟨-, -, rfl⟩
          · exact h.apart hx hp hq
          · exact absurd hp ((h.floating hF hx).2 p a)
        · rcases hq with hq | ⟨hq, rfl, -⟩
          · exact absurd hq ((h.floating hF hx).2 q b)
          · exact ⟨hp.trans hq.symm, rfl⟩
      · intro p a x hx hp
        rw [hmaps] at hp
        rcases hp with hp | ⟨-, -, rfl⟩
        · exact h.opened hx hp
        · exact (h.floating hF hx).1
      · intro x hx
        exact absurd hx (Set.notMem_empty x)
      · intro p a x hp
        rw [hmaps] at hp
        rcases hp with hp | ⟨-, -, rfl⟩
        · exact h.replayed hp
        · exact hreal

theorem share (h : Isolated F w) {child : Int} {map : Shared Int FdTable}
    (hshare : w.manager.fdTableMap.share pid child = some map)
    (htables : w'.manager.fdTableMap = map) (hopen : w'.openFds = w.openFds) :
    Isolated F w' := by
  have hmaps : ∀ p k fd, w'.Maps p k fd ↔ w.Maps (if child = p then pid else p) k fd := by
    intro p k fd
    unfold Maps
    rw [table_of_share hshare htables]
  have htable := tableOf_of_share hshare htables
  refine ⟨?_, ?_, ?_, ?_, ?_⟩
  · rw [htables]
    exact h.backed.share hshare
  · intro p q k a fd hfd hp hq
    rw [hmaps] at hp hq
    rw [htable, htable]
    exact h.apart hfd hp hq
  · intro p k fd hfd hp
    rw [hmaps] at hp
    exact hopen ▸ h.opened hfd hp
  · intro fd hF hfd
    obtain ⟨hin, hfree⟩ := h.floating hF hfd
    refine ⟨hopen ▸ hin, ?_⟩
    intro p k hp
    exact hfree _ k ((hmaps p k fd).mp hp)
  · intro p k fd hp
    exact h.replayed ((hmaps p k fd).mp hp)

/-- The copy that is made of a table: its descriptors float until it is mapped. -/
structure Copying (copy : FdTable) (w : World) : Prop where
  isolated : Isolated {fd | ∃ k, copy.Maps k fd} w
  apart : ∀ {k a fd : Int}, 0 ≤ fd → copy.Maps k fd → copy.Maps a fd → k = a
  replayed : ∀ {k fd : Int}, copy.Maps k fd → fd ≠ syscallSimulated

theorem Copying.add {copy copy' : FdTable} {k fd : Int} {flags : BitVec 32}
    (h : Copying copy w) (hisolated : Isolated (insert fd {fd | ∃ k, copy.Maps k fd}) w')
    (hfresh : 0 ≤ fd → ∀ a, ¬copy.Maps a fd) (hreal : fd ≠ syscallSimulated)
    (hadd : copy.addFdEntry k fd flags = some copy') : Copying copy' w' := by
  rcases FdTable.addFdEntry_cases hadd with ⟨hnew, -⟩ | ⟨-, -, rfl⟩
  · have hmaps : ∀ a x, copy'.Maps a x ↔ copy.Maps a x ∨ (a = k ∧ x = fd) := by
      intro a x
      rcases FdTable.maps_addFdEntry hadd a x with hiff | ⟨-, -, y, e, he, -⟩
      · exact hiff
      · rw [hnew] at he
        cases he
    refine ⟨hisolated.sub ?_, ?_, ?_⟩
    · rintro x ⟨a, ha⟩
      rcases (hmaps a x).mp ha with ha | ⟨-, rfl⟩
      · exact .inr ⟨a, ha⟩
      · exact .inl rfl
    · intro a b x hx ha hb
      rcases (hmaps a x).mp ha with ha | ⟨rfl, rfl⟩
      · rcases (hmaps b x).mp hb with hb | ⟨-, rfl⟩
        · exact h.apart hx ha hb
        · exact absurd ha (hfresh hx a)
      · rcases (hmaps b x).mp hb with hb | ⟨rfl, -⟩
        · exact absurd hb (hfresh hx b)
        · rfl
    · intro a x ha
      rcases (hmaps a x).mp ha with ha | ⟨-, rfl⟩
      · exact h.replayed ha
      · exact hreal
  · exact ⟨hisolated.sub fun x hx => .inr hx, h.apart, h.replayed⟩

theorem Copying.cloneEntry {copy copy' : FdTable} {k : Int} {e : FileDescriptorEntry}
    (h : Copying copy w) (hzero : e.fd ≠ 0) (hreal : e.fd ≠ syscallSimulated)
    (hrun : cloneEntry copy (k, e) w = some (copy', w')) : Copying copy' w' := by
  obtain ⟨newFd, hadd, ⟨-, rfl, rfl⟩ | ⟨hneg, rfl, rfl⟩⟩ := cloneEntry_eq_some hrun
  · have hcall : opensOne (.dup e.fd) = true := rfl
    refine h.add (h.isolated.serve_opensOne hcall) ?_ ?_ hadd
    · intro hnonneg a ha
      rcases opensOne_cases (w := w) hcall with ⟨-, hfresh, -⟩ | ⟨hfailed, -⟩
      · exact hfresh (h.isolated.floating ⟨a, ha⟩ hnonneg).1
      · omega
    · unfold syscallSimulated
      rcases opensOne_cases (w := w) hcall with ⟨hnonneg, -, -⟩ | ⟨hfailed, -⟩ <;> omega
  · have hlt : e.fd < 0 := by omega
    exact h.add (h.isolated.insert_failed hlt rfl rfl) (fun hnonneg => by omega) hreal hadd

theorem Copying.create {copy : FdTable} {child : Int} (h : Copying copy w)
    (htables : w'.manager.fdTableMap = w.manager.fdTableMap.create child copy)
    (hopen : w'.openFds = w.openFds) : Isolated ∅ w' := by
  have hmaps := maps_of_create h.isolated.backed htables
  refine ⟨?_, ?_, ?_, ?_, ?_⟩
  · rw [htables]
    exact h.isolated.backed.create child copy
  · intro p q k a fd hfd hp hq
    rcases (hmaps p k fd).mp hp with ⟨rfl, hcopy⟩ | ⟨hne, hold⟩
    · rcases (hmaps q a fd).mp hq with ⟨rfl, hcopy'⟩ | ⟨-, hold⟩
      · exact ⟨rfl, h.apart hfd hcopy hcopy'⟩
      · exact absurd hold ((h.isolated.floating ⟨k, hcopy⟩ hfd).2 q a)
    · rcases (hmaps q a fd).mp hq with ⟨rfl, hcopy⟩ | ⟨hne', hold'⟩
      · exact absurd hold ((h.isolated.floating ⟨a, hcopy⟩ hfd).2 p k)
      · rw [tableOf_of_create htables hne, tableOf_of_create htables hne']
        exact h.isolated.apart hfd hold hold'
  · intro p k fd hfd hp
    rw [hopen]
    rcases (hmaps p k fd).mp hp with ⟨-, hp⟩ | ⟨-, hp⟩
    · exact (h.isolated.floating ⟨k, hp⟩ hfd).1
    · exact h.isolated.opened hfd hp
  · intro fd hfd
    exact absurd hfd (Set.notMem_empty fd)
  · intro p k fd hp
    rcases (hmaps p k fd).mp hp with ⟨-, hp⟩ | ⟨-, hp⟩
    · exact h.replayed hp
    · exact h.isolated.replayed hp

theorem release (h : Isolated F w) {freed : Option FdTable} {map : Shared Int FdTable}
    (hrelease : w.manager.fdTableMap.release pid = some (freed, map))
    (htables : w'.manager.fdTableMap = map)
    (hopen : w'.openFds =
      w.openFds \ ((freed.map FdTable.getAllReplayedFds).getD []).toFinset) :
    Isolated ∅ w' := by
  have hmaps := maps_of_release h.backed hrelease htables
  have htable := tableOf_of_release hrelease htables
  refine ⟨?_, ?_, ?_, ?_, ?_⟩
  · rw [htables]
    exact h.backed.release hrelease
  · intro p q k a fd hfd hp hq
    obtain ⟨hne, hold⟩ := (hmaps p k fd).mp hp
    obtain ⟨hne', hold'⟩ := (hmaps q a fd).mp hq
    rw [htable, htable, if_neg hne, if_neg hne']
    exact h.apart hfd hold hold'
  · intro p k fd hfd hp
    obtain ⟨hne, hold⟩ := (hmaps p k fd).mp hp
    rw [hopen, Finset.mem_sdiff]
    refine ⟨h.opened hfd hold, ?_⟩
    intro hclosed
    obtain ⟨slot, e, hslot, he, ⟨hrc, rfl, -⟩ | ⟨-, rfl, -⟩⟩ := Shared.release_eq_some hrelease
    · -- the table that is freed was that of this process alone
      have hmine : w.table pid = some e.value := by
        exact Shared.get_eq_some.mpr ⟨slot, e, hslot, he, rfl⟩
      obtain ⟨a, ha⟩ := FdTable.mem_getAllReplayedFds_iff.mp (List.mem_toFinset.mp hclosed)
      obtain ⟨hsame, -⟩ := h.apart hfd hold ((maps_iff hmine a fd).mpr ha)
      exact hne (h.backed.eq_of_rc_one hslot (hsame.trans hslot) he hrc).symm
    · simp at hclosed
  · intro fd hfd
    exact absurd hfd (Set.notMem_empty fd)
  · intro p k fd hp
    exact h.replayed ((hmaps p k fd).mp hp).2

end Isolated

/-! ## The modules -/

section

variable {w w' : World} {pid replayed returnValue : Int}

theorem keeps_isolated {dropped : Prop} {tracedFd : Int} {flags : BitVec 32} {call : SystemCall}
    (h : Isolated ∅ w) (hcall : opensOne call = true)
    (hkeeps : Keeps pid dropped tracedFd flags call w w') : Isolated ∅ w' := by
  have hserved := h.serve_opensOne hcall
  have hreal : int32 (w.answer call) ≠ syscallSimulated := by
    unfold syscallSimulated
    rcases opensOne_cases (w := w) hcall with ⟨hnonneg, -, -⟩ | ⟨hfailed, -⟩ <;> omega
  rcases hkeeps with ⟨-, rfl⟩ | ⟨-, hadd⟩
  · exact (hserved.serve_close (.inl rfl)).sub fun fd hfd => absurd hfd (Set.notMem_empty fd)
  · exact hserved.add (.inl rfl) hreal hadd

theorem open_isolated {pathname : String} {modeVal : BitVec 32} {flags tracedFd : Int}
    (h : Isolated ∅ w)
    (hrun : openProcessRow pid pathname modeVal flags tracedFd w = some (replayed, w')) :
    Isolated ∅ w' := by
  obtain ⟨mode, hkeeps⟩ := openProcessRow_eq_some hrun
  exact keeps_isolated h rfl hkeeps

theorem close_isolated {held descVal : Int} (h : Isolated ∅ w)
    (hrun : closeProcessRow pid held descVal w = some (replayed, w')) : Isolated ∅ w' := by
  obtain ⟨t, ht, rfl⟩ := closeProcessRow_eq_some hrun
  have herased := h.erase ht descVal
  split
  · exact herased.sub fun fd hfd => absurd hfd (Set.notMem_empty fd)
  · exact (herased.serve_close (.inl rfl)).sub fun fd hfd => absurd hfd (Set.notMem_empty fd)

theorem dup_isolated {tracedFd : Int} (h : Isolated ∅ w)
    (hrun : dupProcessRow pid returnValue tracedFd w = some (replayed, w')) :
    Isolated ∅ w' := by
  obtain ⟨t, e, ht, he, ⟨hsim, -⟩ | ⟨-, hadd⟩⟩ := dupProcessRow_eq_some hrun
  · exact absurd hsim (h.replayed ((maps_iff ht tracedFd e.fd).mpr ⟨e, he, rfl⟩))
  · have hkeeps : Keeps pid False returnValue (e.flags &&& ~~~oCloexec) (.dup e.fd) w w' :=
      .inr ⟨not_false, hadd⟩
    exact keeps_isolated h rfl hkeeps

theorem duplicateTo_isolated {oldFd newFd : Int} {newFdFlags : BitVec 32 → BitVec 32}
    {call : Int → Int → SystemCall} (h : Isolated ∅ w)
    (hcall : ∀ (w : World) (fd target : Int), ∃ allowed,
      outcome w.openFds w.reply (call fd target) = redirected w.openFds allowed fd target)
    (hrun : duplicateTo pid returnValue oldFd newFd newFdFlags call w = some (replayed, w')) :
    Isolated ∅ w' := by
  obtain ⟨t, e, w₁, ht, he, rfl, ⟨hsim, -⟩ | ⟨-, target, htarget, hadd⟩⟩ :=
    duplicateTo_eq_some hrun
  · exact absurd hsim (h.replayed ((maps_iff ht oldFd e.fd).mpr ⟨e, he, rfl⟩))
  · have herased := h.erase ht newFd
    obtain ⟨allowed, houtcome⟩ := hcall (w.setTable pid (t.erase newFd)) e.fd target
    have hfree : 0 ≤ target → ∀ p k, ¬(w.setTable pid (t.erase newFd)).Maps p k target := by
      intro hnonneg p k hmaps
      unfold duplicateTarget at htarget
      split at htarget
      · exact (herased.floating (.inl htarget) hnonneg).2 p k hmaps
      · have hnot := Manager.leastUnused_usedFds (w.setTable pid (t.erase newFd)).manager
        rw [← htarget, mem_usedFds_iff] at hnot
        exact hnot (.inl ⟨p, k, hmaps⟩)
    rcases redirected_cases houtcome with ⟨⟨-, -, hisFd⟩, hvalue, hopen⟩ | ⟨-, hfailed, hopen⟩
    · have hnonneg := isFd_nonneg hisFd
      have hserved : Isolated (insert target (insert (t.getFd newFd) ∅))
          ((w.setTable pid (t.erase newFd)).serve (call e.fd target)) :=
        herased.insert_open rfl hopen (hfree hnonneg)
      rw [hvalue] at hadd
      refine hserved.add (.inl rfl) ?_ hadd
      unfold syscallSimulated
      omega
    · have hserved : Isolated (insert (-1) (insert (t.getFd newFd) ∅))
          ((w.setTable pid (t.erase newFd)).serve (call e.fd target)) :=
        herased.insert_failed (by decide) rfl hopen
      rw [hfailed] at hadd
      exact hserved.add (.inl rfl) (by decide) hadd

theorem exit_isolated {held : Int} (h : Isolated ∅ w)
    (hrun : exitProcessRow pid held w = some (replayed, w')) : Isolated ∅ w' := by
  obtain ⟨freed, map, fds, hrelease, rfl, htables, -, hopen, -⟩ := exitProcessRow_eq_some hrun
  exact h.release hrelease htables hopen

/-- Descriptor 0 is not duplicated for a child, so no table may map it that is
copied. -/
theorem startProcess_isolated {child : Int} {sharedUmask sharedFiles : Bool} {u : Unit}
    (h : Isolated ∅ w) (hzero : sharedFiles = false → ∀ k, ¬w.Maps pid k 0)
    (hrun : startProcess pid child sharedUmask sharedFiles w = some (u, w')) :
    Isolated ∅ w' := by
  rcases startProcess_eq_some hrun with ⟨-, map, hshare, htables, -, hopen⟩ |
    ⟨hown, t, copy, w₁, w₂, hsame, ht, hloop, htables, -, hopen⟩
  · exact h.share hshare htables hopen
  · have hstart : Isolated.Copying ∅ w₁ := by
      refine ⟨(h.congr hsame.fdTableMap hsame.openFds).sub ?_, ?_, ?_⟩
      · rintro fd ⟨k, hk⟩
        exact absurd hk FdTable.not_maps_empty
      · intro k a fd _ hk
        exact absurd hk FdTable.not_maps_empty
      · intro k fd hk
        exact absurd hk FdTable.not_maps_empty
    have hcopied : Isolated.Copying copy w₂ := by
      refine cloneEntries_induction (t := t) hstart ?_ hloop
      intro copy copy' k e v v' he _ hcopying hentry
      have hmaps : w.Maps pid k e.fd := (maps_iff ht k e.fd).mpr ⟨e, he, rfl⟩
      refine hcopying.cloneEntry ?_ (h.replayed hmaps) hentry
      intro hfd
      exact hzero hown k (hfd ▸ hmaps)
    exact hcopied.create htables hopen

end

/-! ## Runs -/

/-- The calls whose records the processes make. -/
def isolationKinds : SysCallKind → Bool
  | .open_ | .close | .dup | .dup2 | .dup3 | .clone | .vfork | .exit => true
  | _ => false

/-- Whether a child shares the table of its parent. -/
def sharesFiles (a : Execution) : Bool :=
  a.kind = .clone &&
    (BitVec.ofInt 32 (a.row.int .flag_value) &&& cloneFiles ≠ 0 ||
      BitVec.ofInt 32 (a.row.int .flag_value) &&& cloneThread ≠ 0)

/-- A table that is copied for a child does not map the replayed descriptor 0. -/
def Separating (w : World) (a : Execution) : Prop :=
  isolationKinds a.kind = true ∧
    (a.kind = .clone ∨ a.kind = .vfork → sharesFiles a = false → ∀ k, ¬w.Maps a.pid k 0)

theorem step_isolated {opts : Options} {w w' : World} {a : Execution} (h : Isolated ∅ w)
    (hok : Separating w a) (hstep : executeStep opts w a = some w') : Isolated ∅ w' := by
  obtain ⟨hkind, hzero⟩ := hok
  obtain ⟨m, replayed, hm, hrun⟩ := executeStep_eq_some hstep
  have hchanges : changesTables a.kind = true := by
    revert hkind
    cases a.kind <;> decide
  have hnot : ∀ {kind : SysCallKind}, a.kind = kind → isolationKinds kind = false →
      Isolated ∅ w' := by
    intro kind heq hfalse
    rw [heq, hfalse] at hkind
    cases hkind
  have hprogram := @tableProgram_of_module opts _ _ hchanges hm
  generalize processRow opts m a.position.1 a.position.2 = program at hprogram hrun
  cases hprogram with
  | open_ tracedFd hopen _ => exact open_isolated h hrun
  | openat hkind _ => exact hnot hkind rfl
  | creat hkind _ => exact hnot hkind rfl
  | close _ _ => exact close_isolated h hrun
  | dup _ => exact dup_isolated h hrun
  | dup2 _ => exact duplicateTo_isolated h (fun _ _ _ => ⟨_, rfl⟩) hrun
  | dup3 _ => exact duplicateTo_isolated h (fun _ _ _ => ⟨_, rfl⟩) hrun
  | fcntl hkind => exact hnot hkind rfl
  | pipe hkind => exact hnot hkind rfl
  | exit _ => exact exit_isolated h hrun
  | execve hkind => exact hnot hkind rfl
  | clone hkind =>
      obtain ⟨sharedUmask, hstart⟩ := cloneProcessRow_eq_some hrun
      refine startProcess_isolated h ?_ hstart
      intro hown
      apply hzero (.inl hkind)
      unfold sharesFiles
      rw [hkind, hown]
      rfl
  | vfork hkind =>
      refine startProcess_isolated h ?_ (vforkProcessRow_eq_some hrun)
      intro _
      apply hzero (.inr hkind)
      unfold sharesFiles
      rw [hkind]
      rfl
  | socket hkind => exact hnot hkind rfl
  | socketpair hkind => exact hnot hkind rfl
  | accept hkind => exact hnot hkind rfl
  | accept4 hkind => exact hnot hkind rfl

theorem isolated_of_prepared {w : World} {pid : Int} {maxFds : Nat}
    (h : Prepared w pid maxFds) : Isolated ∅ w := by
  refine ⟨h.tables.1.toBacked, ?_, ?_, ?_, ?_⟩
  · intro p q k a fd _ hp hq
    obtain ⟨rfl, rfl, -⟩ := (h.maps_iff p k fd).mp hp
    obtain ⟨rfl, rfl, -⟩ := (h.maps_iff q a k).mp hq
    exact ⟨rfl, rfl⟩
  · intro p k fd hfd hp
    obtain ⟨-, -, hstd⟩ := (h.maps_iff p k fd).mp hp
    apply h.standard
    unfold atFdcwd at hstd
    simp only [Finset.mem_insert, Finset.mem_singleton]
    omega
  · intro fd hfd
    exact absurd hfd (Set.notMem_empty fd)
  · intro p k fd hp
    obtain ⟨-, -, hstd⟩ := (h.maps_iff p k fd).mp hp
    unfold atFdcwd at hstd
    unfold syscallSimulated
    omega

/-! ## What a process closes -/

/-- The calls of the step all close a descriptor that no table maps after it. -/
def ClosesItsOwn (w w' : World) : Prop :=
  ∀ call ∈ w'.issued.drop w.issued.length, ∃ fd, call = .close fd ∧
    (0 ≤ fd → ∀ p k, ¬w'.Maps p k fd)

theorem close_closesItsOwn {w w' : World} {pid held descVal replayed : Int}
    (h : Isolated ∅ w)
    (hrun : closeProcessRow pid held descVal w = some (replayed, w')) : ClosesItsOwn w w' := by
  obtain ⟨t, ht, rfl⟩ := closeProcessRow_eq_some hrun
  intro call hcall
  split at hcall
  · rw [setTable_issued, List.drop_length] at hcall
    exact absurd hcall List.not_mem_nil
  · rename_i hreal
    rw [serve_issued, setTable_issued, List.drop_left, List.mem_singleton] at hcall
    refine ⟨t.getFd descVal, hcall, ?_⟩
    intro hnonneg p k
    rw [if_neg hreal]
    exact ((h.erase ht descVal).floating (.inl rfl) hnonneg).2 p k

theorem exit_closesItsOwn {w w' : World} {pid held replayed : Int} (h : Isolated ∅ w)
    (hrun : exitProcessRow pid held w = some (replayed, w')) : ClosesItsOwn w w' := by
  have hafter := exit_isolated h hrun
  obtain ⟨freed, map, fds, -, rfl, -, -, hopen, hissued⟩ := exitProcessRow_eq_some hrun
  intro call hcall
  rw [hissued, List.drop_left, List.mem_map] at hcall
  obtain ⟨fd, hfd, rfl⟩ := hcall
  refine ⟨fd, rfl, ?_⟩
  intro hnonneg p k hmaps
  have hin := hafter.opened hnonneg hmaps
  rw [hopen, Finset.mem_sdiff] at hin
  exact hin.2 (List.mem_toFinset.mpr hfd)

theorem step_closesItsOwn {opts : Options} {w w' : World} {a : Execution} (h : Isolated ∅ w)
    (hkind : a.kind = .close ∨ a.kind = .exit) (hstep : executeStep opts w a = some w') :
    ClosesItsOwn w w' := by
  obtain ⟨m, replayed, hm, hrun⟩ := executeStep_eq_some hstep
  have hchanges : changesTables a.kind = true := by
    rcases hkind with hkind | hkind <;> rw [hkind] <;> rfl
  have hprogram := @tableProgram_of_module opts _ _ hchanges hm
  generalize processRow opts m a.position.1 a.position.2 = program at hprogram hrun
  cases hprogram
  case close => exact close_closesItsOwn h hrun
  case exit => exact exit_closesItsOwn h hrun
  case open_ => rcases hkind with hkind | hkind <;> simp_all
  all_goals simp_all

/-- While no table with the replayed descriptor 0 is copied, every replayed
descriptor belongs to one entry of one table, and what a process closes is in no
table any more. -/
theorem separating_replay_isolated (opts : Options) (start : World) (pid : Int) (maxFds : Nat)
    (w : World) (hstart : Prepared start pid maxFds)
    (h : (replaySystem opts start).ReachVia Separating w) :
    (∀ p q k a fd : Int, 0 ≤ fd → w.Maps p k fd → w.Maps q a fd →
      w.tableOf p = w.tableOf q ∧ k = a) ∧
    ∀ a w', a.kind = .close ∨ a.kind = .exit → executeStep opts w a = some w' →
      ClosesItsOwn w w' := by
  have hisolated : Isolated ∅ w :=
    h.invariant _ (isolated_of_prepared hstart) fun s a s' _ hs hok hstep =>
      step_isolated hs hok hstep
  refine ⟨fun p q k a fd => hisolated.apart, ?_⟩
  intro a w' hkind hstep
  exact step_closesItsOwn hisolated hkind hstep

theorem not_maps_of_table {w : World} {pid fd : Int} {t : FdTable} (ht : w.table pid = some t)
    (hfd : fd ∉ t.getAllReplayedFds) (k : Int) : ¬w.Maps pid k fd := by
  intro hmaps
  exact hfd (FdTable.mem_getAllReplayedFds_iff.mpr ⟨k, (World.maps_iff ht k fd).mp hmaps⟩)

/-- Process 1 has closed its standard input. -/
def closedWorld : World :=
  worldAfter (startWorld inOrder) [queuedCall .close 1 0 0]

/-- Then it has made process 2. -/
def forkedWorld : World :=
  worldAfter closedWorld [queuedCall .vfork 1 2 0]

theorem forkedWorld_reached :
    (replaySystem quiet (startWorld inOrder)).ReachVia Separating forkedWorld := by
  have hclosed : (replaySystem quiet (startWorld inOrder)).ReachVia Separating closedWorld := by
    refine .step .init (a := queuedCall .close 1 0 0) ⟨rfl, ?_⟩ rfl
    rintro (hkind | hkind) <;> cases hkind
  refine .step hclosed (a := queuedCall .vfork 1 2 0) ⟨rfl, ?_⟩ rfl
  intro _ _
  exact not_maps_of_table (t := stdTable.erase 0) rfl (by decide)

/-- With 0 closed, the processes share no descriptor. -/
theorem forkedWorld_isolated :
    (∀ p q k a fd : Int, 0 ≤ fd → forkedWorld.Maps p k fd → forkedWorld.Maps q a fd →
      forkedWorld.tableOf p = forkedWorld.tableOf q ∧ k = a) ∧
    ∀ a w', a.kind = .close ∨ a.kind = .exit → executeStep quiet forkedWorld a = some w' →
      ClosesItsOwn forkedWorld w' :=
  separating_replay_isolated quiet (startWorld inOrder) 1 16 forkedWorld
    (startWorld_prepared inOrder) forkedWorld_reached

/-- Process 1 has made process 2 with 0 open. -/
def vforkedWorld : World :=
  worldAfter (startWorld inOrder) [queuedCall .vfork 1 2 0]

/-- Process 2 has exited. -/
def exitedWorld : World :=
  worldAfter vforkedWorld [queuedCall .exit 2 0 0]

/-- With 0 open, the child of process 1 shares its descriptor 0 and closes it when
it exits. -/
theorem vfork_shares_zero :
    (executeStep quiet (startWorld inOrder) (queuedCall .vfork 1 2 0) = some vforkedWorld ∧
      executeStep quiet vforkedWorld (queuedCall .exit 2 0 0) = some exitedWorld ∧
      .close 0 ∈ exitedWorld.issued.drop vforkedWorld.issued.length ∧
      exitedWorld.Maps 1 0 0) ∧
    ¬∀ opts start pid maxFds w, Prepared start pid maxFds →
      (replaySystem opts start).ReachVia (fun _ a => isolationKinds a.kind = true) w →
      ∀ p q k a fd : Int, 0 ≤ fd → w.Maps p k fd → w.Maps q a fd →
        w.tableOf p = w.tableOf q ∧ k = a := by
  refine ⟨⟨rfl, rfl, by decide, ⟨_, rfl, _, rfl, rfl⟩⟩, ?_⟩
  intro h
  have hreached : (replaySystem quiet (startWorld inOrder)).ReachVia
      (fun _ a => isolationKinds a.kind = true) vforkedWorld :=
    .step .init (a := queuedCall .vfork 1 2 0) rfl rfl
  obtain ⟨hsame, -⟩ := h quiet (startWorld inOrder) 1 16 _ (startWorld_prepared inOrder)
    hreached 1 2 0 0 0 le_rfl ⟨_, rfl, _, rfl, rfl⟩ ⟨_, rfl, _, rfl, rfl⟩
  exact absurd hsame (by decide)

end SyscallReplayer.Isolation
