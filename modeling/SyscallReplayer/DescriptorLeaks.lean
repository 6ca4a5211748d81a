import SyscallReplayer.MappedDescriptors
import SyscallReplayer.ReplayRuns

/-!
# Descriptors that are lost

A descriptor that the replay has open should be one of its own or in the table
of some process, or nobody will ever close it.
-/

namespace SyscallReplayer.DescriptorLeaks

open Std (ExtTreeMap)
open CInt SharedEntries ReplayKernel ResourcesManager ReplayWorld ReplayModules
open StatePrograms World ReplayRuns TransitionSystem SnapshotFidelity

/-- Every open descriptor is in `F`, one of the replayer's or in a table. -/
structure Accounted (F : Set Int) (w : World) : Prop where
  exact : w.manager.fdTableMap.Exact
  known : ∀ fd ∈ w.openFds,
    fd ∈ F ∨ fd ∈ w.manager.replayerUsedFds ∨ ∃ p k, w.Maps p k fd
  descriptors : ∀ fd ∈ w.openFds, isFd fd = true

namespace Accounted

variable {F G : Set Int} {w w' : World} {pid : Int} {t : FdTable}

theorem nonneg (h : Accounted F w) {fd : Int} (hfd : fd ∈ w.openFds) : 0 ≤ fd := by
  exact isFd_nonneg (h.descriptors fd hfd)

theorem sub (h : Accounted F w) (hsub : ∀ fd ∈ F, fd ∈ w.openFds → fd ∈ G) :
    Accounted G w where
  exact := h.exact
  known := by
    intro fd hfd
    rcases h.known fd hfd with hF | hknown
    · exact .inl (hsub fd hF hfd)
    · exact .inr hknown
  descriptors := h.descriptors

theorem congr (h : Accounted F w) (htables : w'.manager.fdTableMap = w.manager.fdTableMap)
    (hused : w'.manager.replayerUsedFds = w.manager.replayerUsedFds)
    (hopen : ∀ fd ∈ w'.openFds, (fd ∈ w.openFds ∧ (fd ∈ F → fd ∈ G)) ∨
      (fd ∈ G ∧ isFd fd = true)) : Accounted G w' where
  exact := htables ▸ h.exact
  known := by
    intro fd hfd
    simp only [maps_congr htables, hused]
    rcases hopen fd hfd with ⟨hold, hFG⟩ | ⟨hG, -⟩
    · rcases h.known fd hold with hF | hknown
      · exact .inl (hFG hF)
      · exact .inr hknown
    · exact .inl hG
  descriptors := by
    intro fd hfd
    rcases hopen fd hfd with ⟨hold, -⟩ | ⟨-, hisFd⟩
    · exact h.descriptors fd hold
    · exact hisFd

theorem same (h : Accounted F w) (hsame : SameDescriptors w w') : Accounted F w' := by
  refine h.congr hsame.fdTableMap hsame.replayerUsedFds ?_
  intro fd hfd
  exact .inl ⟨hsame.openFds ▸ hfd, id⟩

theorem serve_opensOne (h : Accounted F w) {call : SystemCall} (hcall : opensOne call = true) :
    Accounted (insert (int32 (w.answer call)) F) (w.serve call) := by
  refine h.congr rfl rfl ?_
  intro fd hfd
  rcases opensOne_cases (w := w) hcall with ⟨hnonneg, -, hopen⟩ | ⟨-, hopen⟩
  · rw [hopen, Finset.mem_insert] at hfd
    rcases hfd with rfl | hfd
    · refine .inr ⟨.inl rfl, ?_⟩
      have hupper := int32_upper (w.answer call)
      simp only [isFd, Bool.and_eq_true, decide_eq_true_eq]
      omega
    · exact .inl ⟨hfd, .inr⟩
  · rw [hopen] at hfd
    exact .inl ⟨hfd, .inr⟩

theorem serve_of_openFds (h : Accounted F w) {call : SystemCall}
    (hopen : (w.serve call).openFds = w.openFds) : Accounted F (w.serve call) := by
  refine h.congr rfl rfl ?_
  intro fd hfd
  rw [hopen] at hfd
  exact .inl ⟨hfd, id⟩

theorem serve_close (h : Accounted F w) (fd : Int) :
    Accounted (F \ {fd}) (w.serve (.close fd)) := by
  refine h.congr rfl rfl ?_
  intro x hx
  rw [serve_close_openFds, Finset.mem_erase] at hx
  exact .inl ⟨hx.2, fun hF => ⟨hF, hx.1⟩⟩

theorem setTable (h : Accounted F w) (ht : w.table pid = some t) {t' : FdTable}
    (hkept : ∀ k fd, t.Maps k fd → fd ∈ w.openFds → fd ∈ G ∨ ∃ a, t'.Maps a fd)
    (hsub : ∀ fd ∈ F, fd ∈ w.openFds → fd ∈ G ∨ ∃ a, t'.Maps a fd) :
    Accounted G (w.setTable pid t') where
  exact := by
    obtain ⟨map, hmap, hset⟩ := exists_modify ht t'
    rw [hset]
    exact h.exact.modify hmap
  known := by
    have hmine : ∀ fd, fd ∈ G ∨ (∃ a, t'.Maps a fd) →
        fd ∈ G ∨ fd ∈ w.manager.replayerUsedFds ∨ ∃ p k, (w.setTable pid t').Maps p k fd := by
      rintro fd (hG | ⟨a, ha⟩)
      · exact .inl hG
      · exact .inr (.inr ⟨pid, a, (maps_setTable ht pid a fd).mpr (.inl ⟨rfl, ha⟩)⟩)
    intro fd hfd
    rcases h.known fd hfd with hF | hused | ⟨p, k, hp⟩
    · exact hmine fd (hsub fd hF hfd)
    · exact .inr (.inl hused)
    · by_cases hsame : w.tableOf p = w.tableOf pid
      · exact hmine fd (hkept k fd ((maps_iff ht k fd).mp (maps_of_tableOf_eq hsame hp)) hfd)
      · exact .inr (.inr ⟨p, k, (maps_setTable ht p k fd).mpr (.inr ⟨hsame, hp⟩)⟩)
  descriptors := h.descriptors

theorem erase (h : Accounted F w) (ht : w.table pid = some t) (k : Int) :
    Accounted (insert (t.getFd k) F) (w.setTable pid (t.erase k)) := by
  refine h.setTable ht ?_ ?_
  · intro a fd hmaps _
    by_cases ha : k = a
    · subst ha
      obtain ⟨e, he, rfl⟩ := hmaps
      exact .inl (.inl (FdTable.getFd_of_mapped he).symm)
    · exact .inr ⟨a, FdTable.maps_erase.mpr ⟨ha, hmaps⟩⟩
  · intro fd hF _
    exact .inl (.inr hF)

theorem add (h : Accounted F w) {k fd : Int} {flags : BitVec 32}
    (hplace : int32 k = -1 → fd ∈ w.openFds → ∀ x, ¬w.Maps pid (-1) x)
    (hadd : addFd pid k fd flags w = some ((), w')) : Accounted (F \ {fd}) w' := by
  obtain ⟨t, t', ht, hentry, rfl⟩ := addFd_eq_some hadd
  refine h.setTable ht ?_ ?_
  · intro a x hmaps _
    rcases FdTable.maps_addFdEntry hentry a x with hiff | ⟨-, rfl, -⟩
    · exact .inr ⟨a, hiff.mpr (.inl hmaps)⟩
    · exact .inr ⟨a, hmaps⟩
  · intro x hF hx
    by_cases hfd : x = fd
    · subst hfd
      right
      rcases FdTable.maps_addFdEntry hentry (int32 k) x with hiff | ⟨hneg, -, y, hy⟩
      · exact ⟨_, hiff.mpr (.inr ⟨rfl, rfl⟩)⟩
      · rw [hneg] at hy
        exact absurd ((maps_iff ht (-1) y).mpr hy) (hplace hneg hx y)
    · exact .inl ⟨hF, hfd⟩

theorem share (h : Accounted F w) {child : Int} {map : Shared Int FdTable}
    (hshare : w.manager.fdTableMap.share pid child = some map) (hnew : w.tableOf child = none)
    (htables : w'.manager.fdTableMap = map)
    (hused : w'.manager.replayerUsedFds = w.manager.replayerUsedFds)
    (hopen : w'.openFds = w.openFds) : Accounted F w' where
  exact := by
    rw [htables]
    exact h.exact.share hshare hnew
  known := by
    intro fd hfd
    rw [hused]
    rw [hopen] at hfd
    rcases h.known fd hfd with hF | hmine | ⟨p, k, t, ht, hk⟩
    · exact .inl hF
    · exact .inr (.inl hmine)
    · refine .inr (.inr ⟨p, k, t, ?_, hk⟩)
      rw [table_of_share hshare htables, if_neg (ne_of_table ht hnew)]
      exact ht
  descriptors := by
    intro fd hfd
    exact h.descriptors fd (hopen ▸ hfd)

theorem cloneEntry {copy copy' : FdTable} {k : Int} {e : FileDescriptorEntry}
    (h : Accounted {fd | ∃ k, copy.Maps k fd} w) (hnew : copy[k]? = none)
    (hrun : cloneEntry copy (k, e) w = some (copy', w')) :
    Accounted {fd | ∃ k, copy'.Maps k fd} w' := by
  obtain ⟨newFd, hadd, hcase⟩ := cloneEntry_eq_some hrun
  rw [FdTable.addFdEntry_of_unmapped hnew] at hadd
  obtain rfl := Option.some.inj hadd
  have hold : ∀ a x, copy.Maps a x →
      FdTable.Maps (copy.insert k ⟨newFd, e.flags⟩) a x := by
    intro a x hmaps
    refine FdTable.maps_insert.mpr (.inr ⟨?_, hmaps⟩)
    rintro rfl
    obtain ⟨e', he', -⟩ := hmaps
    exact nomatch hnew.symm.trans he'
  have hmine : FdTable.Maps (copy.insert k ⟨newFd, e.flags⟩) k newFd :=
    FdTable.maps_insert.mpr (.inl ⟨rfl, rfl⟩)
  rcases hcase with ⟨-, rfl, rfl⟩ | ⟨-, rfl, rfl⟩
  · refine (h.serve_opensOne rfl).sub ?_
    rintro x (rfl | ⟨a, ha⟩) _
    · exact ⟨k, hmine⟩
    · exact ⟨a, hold a x ha⟩
  · refine h.sub ?_
    rintro x ⟨a, ha⟩ _
    exact ⟨a, hold a x ha⟩

theorem create {copy : FdTable} {child : Int} (h : Accounted {fd | ∃ k, copy.Maps k fd} w)
    (hnew : w.tableOf child = none)
    (htables : w'.manager.fdTableMap = w.manager.fdTableMap.create child copy)
    (hused : w'.manager.replayerUsedFds = w.manager.replayerUsedFds)
    (hopen : w'.openFds = w.openFds) : Accounted ∅ w' where
  exact := by
    rw [htables]
    exact h.exact.create copy hnew
  known := by
    intro fd hfd
    simp only [maps_of_create h.exact.toBacked htables, hused]
    rw [hopen] at hfd
    rcases h.known fd hfd with ⟨k, hk⟩ | hmine | ⟨p, k, hp⟩
    · exact .inr (.inr ⟨child, k, .inl ⟨rfl, hk⟩⟩)
    · exact .inr (.inl hmine)
    · obtain ⟨t, ht, -⟩ := id hp
      exact .inr (.inr ⟨p, k, .inr ⟨ne_of_table ht hnew, hp⟩⟩)
  descriptors := by
    intro fd hfd
    exact h.descriptors fd (hopen ▸ hfd)

theorem release (h : Accounted ∅ w) {freed : Option FdTable} {map : Shared Int FdTable}
    (hrelease : w.manager.fdTableMap.release pid = some (freed, map))
    (htables : w'.manager.fdTableMap = map)
    (hused : w'.manager.replayerUsedFds = w.manager.replayerUsedFds)
    (hopen : w'.openFds =
      w.openFds \ ((freed.map FdTable.getAllReplayedFds).getD []).toFinset) :
    Accounted ∅ w' where
  exact := by
    rw [htables]
    exact h.exact.release hrelease
  known := by
    intro fd hfd
    simp only [maps_of_release h.exact.toBacked hrelease htables, hused]
    rw [hopen, Finset.mem_sdiff] at hfd
    obtain ⟨hfd, hkept⟩ := hfd
    rcases h.known fd hfd with hF | hmine | ⟨p, k, hp⟩
    · exact .inl hF
    · exact .inr (.inl hmine)
    · right
      right
      by_cases hne : pid = p
      · subst hne
        obtain ⟨slot, e, hslot, he, ⟨-, rfl, -⟩ | ⟨hrc, -, -⟩⟩ := Shared.release_eq_some hrelease
        · have hmine : w.table pid = some e.value :=
            Shared.get_eq_some.mpr ⟨slot, e, hslot, he, rfl⟩
          refine absurd ?_ hkept
          exact List.mem_toFinset.mpr
            (FdTable.mem_getAllReplayedFds_iff.mpr ⟨k, (maps_iff hmine k fd).mp hp⟩)
        · -- somebody else uses the table
          have hcard : 1 < (w.manager.fdTableMap.users slot).card := by
            rw [← h.exact.exact he]
            have hpos := h.exact.used he
            omega
          obtain ⟨q, hq, hne⟩ := Finset.exists_mem_ne hcard pid
          have hsame : w.tableOf pid = w.tableOf q :=
            hslot.trans (Shared.mem_users.mp hq).symm
          exact ⟨q, k, fun heq => hne heq.symm, maps_of_tableOf_eq hsame hp⟩
      · exact ⟨p, k, hne, hp⟩
  descriptors := by
    intro fd hfd
    rw [hopen, Finset.mem_sdiff] at hfd
    exact h.descriptors fd hfd.1

end Accounted

/-- The entry that a call makes has a place: descriptor -1, which stands for a
failed call, has no entry yet, or the kernel opens nothing. -/
def Placed (w : World) (pid tracedFd : Int) : Prop :=
  int32 tracedFd = -1 → (∀ x, ¬w.Maps pid (-1) x) ∨ opens w.openFds w.reply.value 0 = false

/-- The descriptor to duplicate is not open in the replay. -/
def NothingToDuplicate (w : World) (pid tracedFd : Int) : Prop :=
  ∀ fd, w.resolves pid tracedFd = some fd → fd ∉ w.openFds

/-- The replay duplicates where the traced program did: what the new descriptor
stood for is not lost by a failed or simulated call, and what is duplicated has a
place. -/
def Duplicates (kind : SysCallKind) (w : World) (pid returnValue oldFd newFd : Int) : Prop :=
  ∀ fd x, w.resolves pid oldFd = some fd → w.resolves pid newFd = some x →
    (x ∈ w.openFds → fd ∈ w.openFds ∧ w.reply.value ≠ -1 ∧ (kind = .dup3 → fd ≠ x)) ∧
    (int32 returnValue = -1 → newFd = -1 ∨ (∀ y, ¬w.Maps pid (-1) y) ∨ fd ∉ w.openFds ∨
      w.reply.value = -1)

def leakKinds : SysCallKind → Bool
  | .open_ | .openat | .creat | .close | .dup | .dup2 | .dup3 | .fcntl | .pipe | .clone | .vfork
  | .execve | .exit => true
  | _ => false

/-- When an execution loses no descriptor. -/
def Conserving (w : World) (a : Execution) : Prop :=
  leakKinds a.kind = true ∧
    match a.kind with
    | .open_ | .openat =>
        a.queued = true ∨ a.returnValue ≤ -1 ∧ a.kind = .open_ ∨ a.returnValue = -1 ∨
          Placed w a.pid a.returnValue
    | .creat => Placed w a.pid a.returnValue
    | .dup =>
        NothingToDuplicate w a.pid (a.row.int .descriptor) ∨ Placed w a.pid a.returnValue
    | .fcntl =>
        (a.row.int .command_value = fDupfd ∨ a.row.int .command_value = fDupfdCloexec) →
          NothingToDuplicate w a.pid (a.row.int .descriptor) ∨ Placed w a.pid a.returnValue
    | .dup2 | .dup3 =>
        Duplicates a.kind w a.pid a.returnValue (a.row.int .old_descriptor)
          (a.row.int .new_descriptor)
    | .pipe =>
        (outcome w.openFds w.reply
          (.pipe !(a.row.int .read_descriptor = 0 && a.row.int .write_descriptor = 0))).2 =
            w.openFds
    | .clone | .vfork => w.tableOf (int32 a.returnValue) = none
    | .execve =>
        ∀ t (k : Int) e, w.table a.pid = some t → t[k]? = some e →
          keptByExecve a.held e = false → e.fd ∉ w.openFds
    | _ => True

section

variable {w w' : World} {pid replayed returnValue : Int}

theorem opensOne_of_refused {call : SystemCall} (hcall : opensOne call = true)
    (hrefused : opens w.openFds w.reply.value 0 = false) :
    (w.serve call).openFds = w.openFds := by
  rw [serve_openFds]
  rcases @outcome_opensOne w.openFds w.reply _ hcall with
    ⟨least, heq⟩ | heq
  · rcases opened_cases w.openFds w.reply.value least with ⟨hopens, -⟩ | ⟨-, hsame⟩
    · obtain ⟨hlower, hupper, -, hfresh⟩ := opens_iff.mp hopens
      rw [opens_iff.mpr ⟨hlower, hupper, hlower, hfresh⟩] at hrefused
      cases hrefused
    · rw [heq, hsame]
  · rw [heq]

/-- A call that opens nothing has failed, and no descriptor is needed for -1. -/
theorem not_open_of_same {call : SystemCall} (h : Accounted ∅ w) (hcall : opensOne call = true)
    (hsame : (w.serve call).openFds = w.openFds) :
    int32 (w.answer call) ∉ (w.serve call).openFds := by
  intro hin
  rcases opensOne_cases (w := w) hcall with ⟨-, hfresh, -⟩ | ⟨hfailed, hopen⟩
  · rw [hsame] at hin
    exact hfresh hin
  · rw [hfailed, hopen] at hin
    have hnonneg := h.nonneg hin
    omega

theorem placed_accounted {call : SystemCall} {flags : BitVec 32} (h : Accounted ∅ w)
    (hcall : opensOne call = true)
    (hplaced : (w.serve call).openFds = w.openFds ∨ Placed w pid returnValue)
    (hadd : addFd pid returnValue (int32 (w.answer call)) flags (w.serve call) =
      some ((), w')) : Accounted ∅ w' := by
  refine ((h.serve_opensOne hcall).add ?_ hadd).sub ?_
  · intro hneg hin
    rcases hplaced with hsame | hplaced
    · exact absurd hin (not_open_of_same h hcall hsame)
    · rcases hplaced hneg with hfree | hrefused
      · exact hfree
      · exact absurd hin (not_open_of_same h hcall (opensOne_of_refused hcall hrefused))
  · rintro fd ⟨rfl | hF, hne⟩ _
    · exact absurd rfl hne
    · exact hF

theorem keeps_accounted {dropped : Prop} {tracedFd : Int} {flags : BitVec 32}
    {call : SystemCall} (h : Accounted ∅ w) (hcall : opensOne call = true)
    (hplaced : ¬dropped → (w.serve call).openFds = w.openFds ∨ Placed w pid tracedFd)
    (hkeeps : Keeps pid dropped tracedFd flags call w w') : Accounted ∅ w' := by
  rcases hkeeps with ⟨-, rfl⟩ | ⟨hkept, hadd⟩
  · refine ((h.serve_opensOne hcall).serve_close _).sub ?_
    rintro fd ⟨rfl | hF, hne⟩ _
    · exact absurd rfl hne
    · exact hF
  · exact placed_accounted h hcall (hplaced hkept) hadd

theorem same_of_failed {call : SystemCall} (hcall : opensOne call = true)
    (hfailed : int32 (w.answer call) = -1) : (w.serve call).openFds = w.openFds := by
  rcases opensOne_cases (w := w) hcall with ⟨hnonneg, -, -⟩ | ⟨-, hopen⟩
  · omega
  · exact hopen

theorem open_accounted {pathname : String} {modeVal : BitVec 32} {flags tracedFd : Int}
    (h : Accounted ∅ w) (hplaced : tracedFd ≤ -1 ∨ int32 tracedFd ≠ -1 ∨ Placed w pid tracedFd)
    (hrun : openProcessRow pid pathname modeVal flags tracedFd w = some (replayed, w')) :
    Accounted ∅ w' := by
  obtain ⟨mode, hkeeps⟩ := openProcessRow_eq_some hrun
  refine keeps_accounted h rfl ?_ hkeeps
  intro hkept
  rcases hplaced with hneg | hkey | hplaced
  · left
    apply same_of_failed rfl
    by_contra hopened
    exact hkept ⟨hneg, hopened⟩
  · exact .inr fun hneg => absurd hneg hkey
  · exact .inr hplaced

theorem openat_accounted {row : Row} (h : Accounted ∅ w)
    (hplaced : row.int .return_value = -1 ∨ Placed w pid (row.int .return_value))
    (hrun : openatProcessRow pid row w = some (replayed, w')) : Accounted ∅ w' := by
  obtain ⟨dirfd, -, ⟨-, rfl⟩ | ⟨-, call, mode, rfl, hkeeps⟩⟩ := openatProcessRow_eq_some hrun
  · exact h
  · refine keeps_accounted h rfl ?_ hkeeps
    intro hkept
    rcases hplaced with hneg | hplaced
    · left
      apply same_of_failed rfl
      by_contra hopened
      exact hkept ⟨hneg, hopened⟩
    · exact .inr hplaced

theorem creat_accounted {row : Row} (h : Accounted ∅ w)
    (hplaced : Placed w pid (row.int .return_value))
    (hrun : creatProcessRow pid row w = some (replayed, w')) : Accounted ∅ w' := by
  obtain ⟨call, mode, rfl, hadd⟩ := creatProcessRow_eq_some hrun
  exact placed_accounted h rfl (.inr hplaced) hadd

theorem close_accounted {held descVal : Int} (h : Accounted ∅ w)
    (hrun : closeProcessRow pid held descVal w = some (replayed, w')) : Accounted ∅ w' := by
  obtain ⟨t, ht, rfl⟩ := closeProcessRow_eq_some hrun
  have herased := h.erase ht descVal
  split
  · rename_i hsim
    refine herased.sub ?_
    rintro fd (rfl | hF) hfd
    · have hnonneg := h.nonneg hfd
      unfold syscallSimulated at hsim
      omega
    · exact hF
  · refine (herased.serve_close _).sub ?_
    rintro fd ⟨rfl | hF, hne⟩ _
    · exact absurd rfl hne
    · exact hF

theorem add_closed (h : Accounted ∅ w) {k fd : Int} {flags : BitVec 32}
    (hfd : int32 k = -1 → fd ∉ w.openFds) (hadd : addFd pid k fd flags w = some ((), w')) :
    Accounted ∅ w' :=
  (h.add (fun hneg hin => absurd hin (hfd hneg)) hadd).sub fun _ hF _ => hF.1

theorem not_mem_of_neg (h : Accounted ∅ w) {fd : Int} (hneg : fd < 0) : fd ∉ w.openFds := by
  intro hin
  have hnonneg := h.nonneg hin
  omega

theorem dup_accounted {tracedFd : Int} (h : Accounted ∅ w)
    (hplaced : NothingToDuplicate w pid tracedFd ∨ Placed w pid returnValue)
    (hrun : dupProcessRow pid returnValue tracedFd w = some (replayed, w')) :
    Accounted ∅ w' := by
  obtain ⟨t, e, ht, he, ⟨hsim, hadd⟩ | ⟨-, hadd⟩⟩ := dupProcessRow_eq_some hrun
  · refine add_closed h ?_ hadd
    intro hneg
    exact not_mem_of_neg h (by omega)
  · refine placed_accounted h rfl ?_ hadd
    rcases hplaced with hnothing | hplaced
    · left
      have hclosed : e.fd ∉ w.openFds := by
        apply hnothing
        rw [resolves_of_table ht, FdTable.getFd_of_mapped he]
      rw [serve_openFds, outcome, if_neg hclosed]
    · exact .inr hplaced

theorem duplicateTo_accounted {kind : SysCallKind} {oldFd newFd : Int}
    {newFdFlags : BitVec 32 → BitVec 32} {call : Int → Int → SystemCall} (h : Accounted ∅ w)
    (hcall : ∀ (v : World) (fd target : Int), ∃ allowed,
      outcome v.openFds v.reply (call fd target) = redirected v.openFds allowed fd target ∧
      (allowed = true ↔ v.reply.value ≠ -1 ∧ (kind = .dup3 → fd ≠ target)))
    (hduplicates : Duplicates kind w pid returnValue oldFd newFd)
    (hrun : duplicateTo pid returnValue oldFd newFd newFdFlags call w = some (replayed, w')) :
    Accounted ∅ w' := by
  obtain ⟨t, e, w₁, ht, he, hw₁, hcase⟩ := duplicateTo_eq_some hrun
  have hfd : w.resolves pid oldFd = some e.fd := by
    rw [resolves_of_table ht, FdTable.getFd_of_mapped he]
  obtain ⟨hheld, hplace⟩ := hduplicates e.fd (t.getFd newFd) hfd (resolves_of_table ht newFd)
  have hopen₁ : w₁.openFds = w.openFds := by rw [hw₁]; rfl
  have hreply : w₁.reply = w.reply := by rw [hw₁]; rfl
  have herased : Accounted {t.getFd newFd} w₁ := by
    rw [hw₁]
    exact (h.erase ht newFd).sub fun fd hF _ => hF.elim id fun hF => absurd hF (Set.notMem_empty fd)
  -- what is duplicated has a place, since the entry of the new descriptor is gone
  have hfree : int32 returnValue = -1 → e.fd ∈ w.openFds → w.reply.value ≠ -1 →
      ∀ x, ¬w₁.Maps pid (-1) x := by
    intro hneg hopen hallowed x hmaps
    rw [hw₁, maps_setTable_erase ht] at hmaps
    rcases hplace hneg with hnew | hfree | hclosed | hrefused
    · exact hmaps.2 ⟨rfl, hnew⟩
    · exact hfree x hmaps.1
    · exact hclosed hopen
    · exact hallowed hrefused
  rcases hcase with ⟨hsim, hadd⟩ | ⟨-, target, htarget, hadd⟩
  · have hclosed : t.getFd newFd ∉ w.openFds := by
      intro hin
      have hold := (hheld hin).1
      rw [hsim] at hold
      exact not_mem_of_neg h (by decide) hold
    have hempty : Accounted ∅ w₁ := herased.sub fun fd hF hin =>
      absurd (hopen₁ ▸ (Set.mem_singleton_iff.mp hF) ▸ hin) hclosed
    exact add_closed hempty (fun _ => not_mem_of_neg hempty (by decide)) hadd
  · obtain ⟨allowed, houtcome, hallowed⟩ := hcall w₁ e.fd target
    rw [hreply] at hallowed
    have hsame : t.getFd newFd ∈ w.openFds → target = t.getFd newFd := by
      intro hin
      have hnonneg := h.nonneg hin
      obtain ⟨e', he', -⟩ := FdTable.exists_of_getFd_ne (show t.getFd newFd ≠ -1 by omega)
      rw [htarget, duplicateTarget, if_pos]
      refine ⟨FdTable.hasFd_iff.mpr ⟨e', he'⟩, ?_⟩
      unfold syscallSimulated
      omega
    rcases redirected_cases houtcome with ⟨⟨hok, hopen, hisFd⟩, hvalue, hserved⟩ |
      ⟨hnot, hfailed, hserved⟩
    · rw [hvalue] at hadd
      have hcalled : Accounted {target} (w₁.serve (call e.fd target)) := by
        refine herased.congr rfl rfl ?_
        intro fd hin
        rw [hserved, Finset.mem_insert] at hin
        rcases hin with rfl | hin
        · exact .inr ⟨rfl, hisFd⟩
        · refine .inl ⟨hin, ?_⟩
          rintro rfl
          rw [hopen₁] at hin
          exact (hsame hin).symm
      refine (hcalled.add ?_ hadd).sub fun fd hF _ => absurd hF.1 hF.2
      intro hneg _
      exact hfree hneg (hopen₁ ▸ hopen) (hallowed.mp hok).1
    · rw [hfailed] at hadd
      have hclosed : t.getFd newFd ∉ w.openFds := by
        intro hin
        obtain ⟨hold, hreplied, hdistinct⟩ := hheld hin
        rw [← hsame hin] at hdistinct hin
        exact hnot ⟨hallowed.mpr ⟨hreplied, hdistinct⟩, hopen₁.symm ▸ hold,
          h.descriptors target hin⟩
      have hempty : Accounted ∅ w₁ := herased.sub fun fd hF hin =>
        absurd (hopen₁ ▸ (Set.mem_singleton_iff.mp hF) ▸ hin) hclosed
      have hcalled := hempty.serve_of_openFds hserved
      exact add_closed hcalled (fun _ => not_mem_of_neg hcalled (by decide)) hadd

theorem fcntl_accounted
    {tracedFd command argVal type whence start length lockPid : Int} (h : Accounted ∅ w)
    (hplaced : (command = fDupfd ∨ command = fDupfdCloexec) →
      NothingToDuplicate w pid tracedFd ∨ Placed w pid returnValue)
    (hrun : fcntlProcessRow pid returnValue tracedFd command argVal type whence start length
      lockPid w = some (replayed, w')) : Accounted ∅ w' := by
  obtain ⟨fd, argument, -, hfd, rfl, htable⟩ := fcntlProcessRow_eq_some hrun
  rcases fcntlTable_eq_some htable with ⟨hdup, flags, hadd⟩ | ⟨hother, hchange⟩
  · have hcall : opensOne (.fcntl fd command argument) = true := by
      simpa [opensOne] using hdup
    refine placed_accounted h hcall ?_ hadd
    rcases hplaced hdup with hnothing | hplaced
    · left
      have hclosed := hnothing fd hfd
      simp only [serve_openFds, outcome, if_pos hdup]
      split
      · rw [if_neg hclosed]
      · rfl
    · exact .inr hplaced
  · have hserved : Accounted ∅ (w.serve (.fcntl fd command argument)) := by
      apply h.serve_of_openFds
      simp only [serve_openFds, outcome, if_neg hother]
    rcases hchange with rfl | ⟨t, e, flags, ht, he, rfl⟩
    · exact hserved
    · refine hserved.setTable ht ?_ fun fd hF _ => .inl hF
      intro k x hmaps _
      right
      refine ⟨k, FdTable.maps_insert.mpr ?_⟩
      by_cases hk : tracedFd = k
      · subst hk
        obtain ⟨e', he', rfl⟩ := hmaps
        rw [Option.some.inj (he.symm.trans he')]
        exact .inl ⟨rfl, rfl⟩
      · exact .inr ⟨hk, hmaps⟩

theorem pipe_accounted {readFd writeFd : Int} (h : Accounted ∅ w)
    (hrefused : (outcome w.openFds w.reply (.pipe !(readFd = 0 && writeFd = 0))).2 = w.openFds)
    (hrun : pipeProcessRow pid readFd writeFd w = some (replayed, w')) : Accounted ∅ w' := by
  obtain ⟨call, w₁, rfl, hread, hwrite⟩ := pipeProcessRow_eq_some hrun
  have hserved := h.serve_of_openFds hrefused
  have hadded := add_closed hserved (fun _ => not_mem_of_neg hserved (by decide)) hread
  exact add_closed hadded (fun _ => not_mem_of_neg hadded (by decide)) hwrite

theorem execve_accounted {held retVal : Int} (h : Accounted ∅ w)
    (hkept : ∀ t (k : Int) e, w.table pid = some t → t[k]? = some e →
      keptByExecve retVal e = false → e.fd ∉ w.openFds)
    (hrun : execveProcessRow pid held retVal w = some (replayed, w')) : Accounted ∅ w' := by
  obtain ⟨fds, w₁, hfds, -⟩ := bind_eq_some.mp hrun
  obtain ⟨t, ht⟩ : ∃ t, w.table pid = some t := by
    obtain ⟨fds', hget, -⟩ := Option.map_eq_some_iff.mp hfds
    obtain ⟨t, ht, -⟩ := Option.map_eq_some_iff.mp hget
    exact ⟨t, ht⟩
  obtain ⟨t', hrun', ht'⟩ := execveProcessRow_run ht held retVal
  rw [hrun'] at hrun
  obtain ⟨rfl, rfl⟩ := Prod.mk.inj (Option.some.inj hrun)
  refine h.setTable ht ?_ fun fd hF _ => .inl hF
  rintro k fd ⟨e, he, rfl⟩ hin
  right
  refine ⟨k, e, ?_, rfl⟩
  rw [ht', he, Option.filter_some, if_pos]
  by_contra hdropped
  exact hkept t k e ht he (eq_false_of_ne_true hdropped) hin

theorem exit_accounted {held : Int} (h : Accounted ∅ w)
    (hrun : exitProcessRow pid held w = some (replayed, w')) : Accounted ∅ w' := by
  obtain ⟨freed, map, fds, hrelease, rfl, htables, hused, hopen, -⟩ := exitProcessRow_eq_some hrun
  exact h.release hrelease htables hused hopen

theorem startProcess_accounted {child : Int} {sharedUmask sharedFiles : Bool} {u : Unit}
    (h : Accounted ∅ w) (hnew : w.tableOf child = none)
    (hrun : startProcess pid child sharedUmask sharedFiles w = some (u, w')) :
    Accounted ∅ w' := by
  rcases startProcess_eq_some hrun with ⟨-, map, hshare, htables, hused, hopen⟩ |
    ⟨-, t, copy, w₁, w₂, hsame, ht, hloop, htables, hused, hopen⟩
  · exact h.share hshare hnew htables hused hopen
  · have hstart : Accounted {fd | ∃ k, FdTable.Maps ∅ k fd} w₁ :=
      (h.same hsame).sub fun fd hF _ => absurd hF (Set.notMem_empty fd)
    have hcopied : Accounted {fd | ∃ k, copy.Maps k fd} w₂ ∧ w₂.tableOf child = none := by
      refine cloneEntries_induction (t := t)
        (I := fun copy v => Accounted {fd | ∃ k, copy.Maps k fd} v ∧ v.tableOf child = none)
        ⟨hstart, ?_⟩ ?_ hloop
      · rw [tableOf_congr hsame.fdTableMap]
        exact hnew
      · rintro copy copy' k e v v' - hfresh ⟨hcopying, hfree⟩ hentry
        refine ⟨hcopying.cloneEntry hfresh hentry, ?_⟩
        obtain ⟨-, -, ⟨-, -, rfl⟩ | ⟨-, -, rfl⟩⟩ := cloneEntry_eq_some hentry
        · exact hfree
        · exact hfree
    exact hcopied.1.create hcopied.2 htables hused hopen

end

theorem step_accounted {opts : Options} {w w' : World} {a : Execution} (h : Accounted ∅ w)
    (hok : Conserving w a) (hstep : executeStep opts w a = some w') : Accounted ∅ w' := by
  obtain ⟨hkind, hconserving⟩ := hok
  obtain ⟨m, replayed, hm, hrun⟩ := executeStep_eq_some hstep
  have hchanges : changesTables a.kind = true := by
    revert hkind
    cases a.kind <;> decide
  have hprogram := @tableProgram_of_module opts _ _ hchanges hm
  generalize processRow opts m a.position.1 a.position.2 = program at hprogram hrun
  cases hprogram with
  | open_ tracedFd hopen htraced =>
      refine open_accounted h ?_ hrun
      cases hqueued : a.queued with
      | true =>
          rw [hqueued, if_pos rfl] at htraced
          rw [htraced, int32_int32]
          omega
      | false =>
          rw [hqueued, if_neg Bool.false_ne_true] at htraced
          have hopen : a.kind = .open_ := hopen.resolve_right fun hboth => by
            rw [hqueued] at hboth
            exact absurd hboth.2 Bool.false_ne_true
          rw [hopen, hqueued] at hconserving
          rw [htraced]
          rcases hconserving with hfalse | ⟨hneg, -⟩ | hneg | hplaced
          · exact absurd hfalse Bool.false_ne_true
          · exact .inl hneg
          · exact .inl (by omega)
          · exact .inr (.inr hplaced)
  | openat hkind hqueued =>
      rw [hkind, hqueued] at hconserving
      refine openat_accounted h ?_ hrun
      rcases hconserving with hfalse | ⟨-, hfalse⟩ | hneg | hplaced
      · exact absurd hfalse Bool.false_ne_true
      · cases hfalse
      · exact .inl hneg
      · exact .inr hplaced
  | creat hkind _ =>
      rw [hkind] at hconserving
      exact creat_accounted h hconserving hrun
  | close _ _ => exact close_accounted h hrun
  | dup hkind =>
      rw [hkind] at hconserving
      exact dup_accounted h hconserving hrun
  | dup2 hkind =>
      rw [hkind] at hconserving
      refine duplicateTo_accounted h ?_ hconserving hrun
      intro v fd target
      exact ⟨_, rfl, by simp⟩
  | dup3 hkind =>
      rw [hkind] at hconserving
      refine duplicateTo_accounted h ?_ hconserving hrun
      intro v fd target
      exact ⟨_, rfl, by simp⟩
  | fcntl hkind =>
      rw [hkind] at hconserving
      exact fcntl_accounted h hconserving hrun
  | pipe hkind =>
      rw [hkind] at hconserving
      exact pipe_accounted h hconserving hrun
  | exit _ => exact exit_accounted h hrun
  | execve hkind =>
      rw [hkind] at hconserving
      exact execve_accounted h hconserving hrun
  | clone hkind =>
      rw [hkind] at hconserving
      obtain ⟨sharedUmask, hstart⟩ := cloneProcessRow_eq_some hrun
      exact startProcess_accounted h hconserving hstart
  | vfork hkind =>
      rw [hkind] at hconserving
      exact startProcess_accounted h hconserving (vforkProcessRow_eq_some hrun)
  | socket hother | socketpair hother | accept hother | accept4 hother =>
      rw [hother] at hkind
      cases hkind

theorem accounted_of_prepared {w : World} {pid : Int} {maxFds : Nat}
    (h : Prepared w pid maxFds) : Accounted ∅ w := by
  obtain ⟨hexact, htable, -, hused⟩ := h.tables
  refine ⟨hexact, ?_, ?_⟩
  · intro fd hfd
    right
    obtain ⟨hnonneg, hscanned⟩ := h.scanned fd hfd
    by_cases hknown : fd ∈ stdTable.getAllReplayedFds
    · obtain ⟨k, hk⟩ := FdTable.mem_getAllReplayedFds_iff.mp hknown
      exact .inr ⟨pid, k, (World.maps_iff htable k fd).mpr hk⟩
    · left
      rw [hused, List.mem_toFinset, List.mem_filter, List.mem_map]
      refine ⟨⟨fd.toNat, List.mem_range.mpr (by omega), by simp [hnonneg]⟩, ?_⟩
      simp [hfd, hknown]
  · intro fd hfd
    obtain ⟨hnonneg, hscanned⟩ := h.scanned fd hfd
    have hbound := h.bound
    simp only [isFd, Bool.and_eq_true, decide_eq_true_eq]
    omega

/-- A scan finds no open descriptor that the manager does not know. -/
theorem no_unknown_of_accounted {w : World} (h : Accounted ∅ w) (maxFds : Nat) (fd : Int) :
    .unknown fd ∉ w.manager.validateConsistency (· ∈ w.openFds) maxFds := by
  intro hmem
  obtain ⟨x, -, hx⟩ := List.mem_filterMap.mp hmem
  split at hx
  · rename_i hunknown
    obtain ⟨hopen, hnot⟩ := hunknown
    rw [mem_usedFds_iff] at hnot
    rcases h.known x (of_decide_eq_true hopen) with hF | hused | hmaps
    · exact hF
    · exact hnot (.inr hused)
    · exact hnot (.inl hmaps)
  · split at hx
    · cases hx
    · cases hx

/-- While every execution conserves its descriptors, each one that is open is one
of the replayer's or in the table of some process. -/
theorem conserving_replay_accounted (opts : Options) (start : World) (pid : Int) (maxFds : Nat)
    (w : World) (hstart : Prepared start pid maxFds)
    (h : (replaySystem opts start).ReachVia Conserving w) :
    (∀ fd ∈ w.openFds, fd ∈ w.manager.replayerUsedFds ∨ ∃ p k, w.Maps p k fd) ∧
    ∀ limit fd, .unknown fd ∉ w.manager.validateConsistency (· ∈ w.openFds) limit := by
  have haccounted : Accounted ∅ w :=
    h.invariant _ (accounted_of_prepared hstart) fun s a s' _ hs hok hstep =>
      step_accounted hs hok hstep
  refine ⟨?_, no_unknown_of_accounted haccounted⟩
  intro fd hfd
  exact (haccounted.known fd hfd).resolve_left (Set.notMem_empty fd)

/-- Process 1 has opened a file as 3 and made process 2. -/
def forkedWorld : World :=
  worldAfter (worldAfter (startWorld inOrder) [queuedCall .open_ 1 3 0])
    [queuedCall .vfork 1 2 0]

theorem forkedWorld_reached :
    (replaySystem quiet (startWorld inOrder)).ReachVia Conserving forkedWorld := by
  have hopened : (replaySystem quiet (startWorld inOrder)).ReachVia Conserving
      (worldAfter (startWorld inOrder) [queuedCall .open_ 1 3 0]) :=
    .step .init (a := queuedCall .open_ 1 3 0) ⟨rfl, .inl rfl⟩ rfl
  exact .step hopened (a := queuedCall .vfork 1 2 0) ⟨rfl, rfl⟩ rfl

theorem forkedWorld_accounted :
    (∀ fd ∈ forkedWorld.openFds, fd ∈ forkedWorld.manager.replayerUsedFds ∨
      ∃ p k, forkedWorld.Maps p k fd) ∧
    ∀ limit fd, .unknown fd ∉
      forkedWorld.manager.validateConsistency (· ∈ forkedWorld.openFds) limit :=
  conserving_replay_accounted quiet (startWorld inOrder) 1 16 forkedWorld
    (startWorld_prepared inOrder) forkedWorld_reached

/-- The replayed `pipe` of process 1 opens 3 and 4. -/
def pipedWorld : World :=
  worldAfter (startWorld fun _ => ⟨0, 0, (3, 4)⟩) [queuedCall .pipe 1 0 fun
    | .read_descriptor => 3
    | .write_descriptor => 4
    | _ => 0]

/-- The descriptors of a replayed `pipe` are in no table. -/
theorem pipe_leaks :
    pipedWorld.manager.validateConsistency (· ∈ pipedWorld.openFds) 16 =
        [.unknown 3, .unknown 4] ∧
      ¬∀ opts start pid maxFds w, Prepared start pid maxFds →
        (replaySystem opts start).ReachVia (fun _ a => leakKinds a.kind = true) w →
        ∀ limit fd, .unknown fd ∉ w.manager.validateConsistency (· ∈ w.openFds) limit := by
  have hscan : pipedWorld.manager.validateConsistency (· ∈ pipedWorld.openFds) 16 =
      [.unknown 3, .unknown 4] := by decide
  refine ⟨hscan, ?_⟩
  intro h
  refine h quiet _ 1 16 pipedWorld (startWorld_prepared _)
    (.step .init (a := queuedCall .pipe 1 0 fun
      | .read_descriptor => 3
      | .write_descriptor => 4
      | _ => 0) rfl rfl) 16 3 ?_
  rw [hscan]
  exact List.mem_cons_self

end SyscallReplayer.DescriptorLeaks
