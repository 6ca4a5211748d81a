import SyscallReplayer.InterleavedReplay
import SyscallReplayer.ModulePrograms

/-!
# The descriptors of the replayer itself

The replayer has its trace files and logs open. Traced descriptors do not resolve to
them, so that no call reads, moves or closes them. Only `dup` can break this: for a
simulated descriptor it enters what the traced call returned as a replayed descriptor.
Threads interleave between the modules that they run, not within them.
-/

namespace SyscallReplayer.OwnDescriptors

open CInt SharedEntries ReplayKernel ResourcesManager ReplayWorld ReplayModules
open StatePrograms StateFrames ModulePrograms World ReplayRuns InterleavedReplay
open SnapshotFidelity
open Scheduler (Config Record)

theorem mem_opened {openFds : Finset Int} {fd value least : Int} (h : fd ∈ openFds) :
    fd ∈ (opened openFds value least).2 := by
  rcases opened_cases openFds value least with ⟨-, heq⟩ | ⟨-, heq⟩
  · rw [heq]
    exact Finset.mem_insert_of_mem h
  · rw [heq]
    exact h

theorem mem_redirected {openFds : Finset Int} {allowed : Bool} {fd oldFd newFd : Int}
    (h : fd ∈ openFds) : fd ∈ (redirected openFds allowed oldFd newFd).2 := by
  unfold redirected
  split
  · exact Finset.mem_insert_of_mem h
  · exact h

theorem mem_outcome {openFds : Finset Int} {reply : Reply} {call : SystemCall} {fd : Int}
    (h : fd ∈ openFds) (hnot : fd ∉ names call) : fd ∈ (outcome openFds reply call).2 := by
  cases call
  case open_ | openat | creat => exact mem_opened h
  case dup2 | dup3 => exact mem_redirected h
  case dup old =>
    simp only [outcome]
    split
    · exact mem_opened h
    · exact h
  case close closed =>
    simp only [outcome]
    split
    · exact Finset.mem_erase.mpr ⟨fun heq => hnot (heq ▸ List.mem_cons_self), h⟩
    · exact h
  case pipe array =>
    simp only [outcome]
    split
    · exact Finset.mem_insert_of_mem (Finset.mem_insert_of_mem h)
    · exact h
  case fcntl old command argument =>
    simp only [outcome]
    split
    · cases argument
      case value least =>
        dsimp only
        split
        · exact mem_opened h
        · exact h
      all_goals exact h
    · exact h
  all_goals exact h

/-- The descriptors that the replayer had open before it replays anything. -/
structure Own where
  fds : Finset Int
  nonneg : ∀ fd ∈ fds, 0 ≤ fd

theorem Own.not_mem_of_neg (own : Own) {fd : Int} (h : fd < 0) : fd ∉ own.fds := by
  intro hmem
  have hnonneg := own.nonneg fd hmem
  omega

/-- No table maps one of them and, after the first `n` calls, no call names one. -/
structure Guarded (own : Own) (n : Nat) (w : World) : Prop where
  used : w.manager.replayerUsedFds = own.fds
  backed : w.manager.fdTableMap.Backed
  opened : own.fds ⊆ w.openFds
  apart : ∀ {p k fd : Int}, w.Maps p k fd → fd ∉ own.fds
  spared : ∀ call ∈ w.issued.drop n, ∀ fd ∈ names call, fd ∉ own.fds

/-- The programs that hold, enter and name other descriptors only. -/
def sparing (own : Own) : Scope where
  maps := True
  touches _ := True
  issues call := ∀ fd ∈ names call, fd ∉ own.fds
  holds fd := fd ∉ own.fds
  simulated := own.not_mem_of_neg (by decide)

namespace Guarded

variable {own : Own} {n : Nat} {w w' : World} {pid : Int} {t t' : FdTable}

theorem congr (h : Guarded own n w) (htables : w'.manager.fdTableMap = w.manager.fdTableMap)
    (hused : w'.manager.replayerUsedFds = w.manager.replayerUsedFds)
    (hopen : w'.openFds = w.openFds) (hissued : w'.issued = w.issued) : Guarded own n w' where
  used := hused.trans h.used
  backed := htables ▸ h.backed
  opened := hopen ▸ h.opened
  apart hmaps := h.apart ((maps_congr htables _ _ _).mp hmaps)
  spared := hissued ▸ h.spared

theorem serve (h : Guarded own n w) {call : SystemCall} (hnames : ∀ fd ∈ names call, fd ∉ own.fds) :
    Guarded own n (w.serve call) where
  used := h.used
  backed := h.backed
  opened fd hfd := mem_outcome (h.opened hfd) fun hmem => hnames fd hmem hfd
  apart := h.apart
  spared := by
    intro c hc
    rw [serve_issued, List.drop_append, List.mem_append] at hc
    rcases hc with hc | hc
    · exact h.spared c hc
    · obtain rfl := List.mem_singleton.mp (List.mem_of_mem_drop hc)
      exact hnames

theorem getFd (h : Guarded own n w) (ht : w.table pid = some t) (k : Int) :
    t.getFd k ∉ own.fds := by
  cases hk : t[k]? with
  | none =>
      rw [FdTable.getFd_of_unmapped hk]
      exact own.not_mem_of_neg (by decide)
  | some e => exact h.apart ⟨t, ht, FdTable.maps_getFd hk⟩

theorem setTable (h : Guarded own n w) (ht : w.table pid = some t)
    (hapart : ∀ k fd, t'.Maps k fd → fd ∉ own.fds) : Guarded own n (w.setTable pid t') where
  used := h.used
  backed := by
    obtain ⟨map, hmap, hset⟩ := exists_modify ht t'
    rw [hset]
    exact h.backed.modify hmap
  opened := h.opened
  apart := by
    intro p k fd hmaps
    rcases (maps_setTable ht p k fd).mp hmaps with ⟨-, hmaps⟩ | ⟨-, hmaps⟩
    · exact hapart k fd hmaps
    · exact h.apart hmaps
  spared := h.spared

theorem setTables (h : Guarded own n w) (hbacked : w'.manager.fdTableMap.Backed)
    (hmanager : w'.manager.replayerUsedFds = w.manager.replayerUsedFds)
    (hapart : ∀ p k fd, w'.Maps p k fd → fd ∉ own.fds) (hopen : w'.openFds = w.openFds)
    (hissued : w'.issued = w.issued) : Guarded own n w' where
  used := hmanager.trans h.used
  backed := hbacked
  opened := hopen ▸ h.opened
  apart hmaps := hapart _ _ _ hmaps
  spared := hissued ▸ h.spared

end Guarded

section Operations

variable {own : Own} {n : Nat} {α : Type} {pid : Int}

theorem yields_query (f : Manager → Option α) :
    Yields (Guarded own n) (queryManager f) fun _ => True := by
  intro w a w' h hrun
  obtain ⟨b, -, heq⟩ := Option.map_eq_some_iff.mp hrun
  obtain rfl := (Prod.mk.inj heq).2
  exact ⟨h, trivial⟩

theorem yields_pure {fd : Int} (hfd : fd ∉ own.fds) :
    Yields (Guarded own n) (pure fd) (· ∉ own.fds) :=
  .pure fd hfd

theorem yields_getFd (pid k : Int) : Yields (Guarded own n) (getFd pid k) (· ∉ own.fds) := by
  intro w fd w' h hrun
  obtain ⟨t, ht, rfl, rfl⟩ := getFd_eq_some hrun
  exact ⟨h, h.getFd ht k⟩

theorem yields_generateUnusedFd (pid : Int) :
    Yields (Guarded own n) (generateUnusedFd pid) (· ∉ own.fds) := by
  intro w fd w' h hrun
  obtain ⟨rfl, rfl⟩ := generateUnusedFd_eq_some hrun
  refine ⟨h, ?_⟩
  intro hmem
  apply Manager.leastUnused_usedFds w'.manager
  rw [mem_usedFds_iff, h.used]
  exact .inr hmem

theorem yields_syscall {call : SystemCall} (hnames : ∀ fd ∈ names call, fd ∉ own.fds) :
    Yields (Guarded own n) (syscall call) fun _ => True := by
  intro w a w' h hrun
  obtain rfl := (Prod.mk.inj (Option.some.inj hrun)).2
  exact ⟨h.serve hnames, trivial⟩

theorem yields_opened {call : SystemCall} (hcall : opensOne call = true)
    (hnames : ∀ fd ∈ names call, fd ∉ own.fds) :
    Yields (Guarded own n) (intSyscall call) (· ∉ own.fds) := by
  intro w fd w' h hrun
  obtain ⟨rfl, rfl⟩ := Prod.mk.inj (Option.some.inj hrun)
  refine ⟨h.serve hnames, ?_⟩
  rcases opensOne_cases (w := w) hcall with ⟨-, hfresh, -⟩ | ⟨hfailed, -⟩
  · exact fun hmem => hfresh (h.opened hmem)
  · rw [hfailed]
    exact own.not_mem_of_neg (by decide)

/-- `dup2` and `dup3` give the descriptor they are told to, or -1. -/
theorem yields_redirected {call : SystemCall} {oldFd target : Int}
    (hcall : ∀ w : World, ∃ allowed,
      outcome w.openFds w.reply call = redirected w.openFds allowed oldFd target)
    (htarget : target ∉ own.fds) (hnames : ∀ fd ∈ names call, fd ∉ own.fds) :
    Yields (Guarded own n) (intSyscall call) (· ∉ own.fds) := by
  intro w fd w' h hrun
  obtain ⟨rfl, rfl⟩ := Prod.mk.inj (Option.some.inj hrun)
  obtain ⟨allowed, houtcome⟩ := hcall w
  refine ⟨h.serve hnames, ?_⟩
  rcases redirected_cases houtcome with ⟨-, hvalue, -⟩ | ⟨-, hfailed, -⟩
  · rw [hvalue]
    exact htarget
  · rw [hfailed]
    exact own.not_mem_of_neg (by decide)

theorem yields_addFd (pid k : Int) {fd : Int} (flags : BitVec 32) (hfd : fd ∉ own.fds) :
    Yields (Guarded own n) (addFd pid k fd flags) fun _ => True := by
  intro w u w' h hrun
  obtain ⟨t, t', ht, hentry, rfl⟩ := addFd_eq_some hrun
  refine ⟨h.setTable ht ?_, trivial⟩
  intro a x hmaps
  have hold : t.Maps a x → x ∉ own.fds := fun hmaps => h.apart ⟨t, ht, hmaps⟩
  rcases FdTable.maps_addFdEntry hentry a x with hiff | ⟨-, rfl, -⟩
  · rcases hiff.mp hmaps with hmaps | ⟨-, rfl⟩
    · exact hold hmaps
    · exact hfd
  · exact hold hmaps

theorem yields_removeFd (pid k : Int) :
    Yields (Guarded own n) (removeFd pid k) (· ∉ own.fds) := by
  intro w fd w' h hrun
  obtain ⟨t, ht, rfl, rfl⟩ := removeFd_eq_some hrun
  refine ⟨h.setTable ht ?_, h.getFd ht k⟩
  intro a x hmaps
  exact h.apart ⟨t, ht, (FdTable.maps_erase.mp hmaps).2⟩

theorem yields_addFlags (pid k : Int) (flags : BitVec 32) :
    Yields (Guarded own n) (addFlags pid k flags) fun _ => True := by
  intro w u w' h hrun
  obtain ⟨t, e, ht, he, rfl⟩ := addFlags_eq_some hrun
  refine ⟨h.setTable ht ?_, trivial⟩
  intro a x hmaps
  rcases FdTable.maps_insert.mp hmaps with ⟨-, rfl⟩ | ⟨-, hmaps⟩
  · exact h.apart ⟨t, ht, e, he, rfl⟩
  · exact h.apart ⟨t, ht, hmaps⟩

theorem yields_removeFdTable (pid : Int) :
    Yields (Guarded own n) (removeFdTable pid) fun fds => ∀ fd ∈ fds, fd ∉ own.fds := by
  intro w fds w' h hrun
  obtain ⟨result, hresult, heq⟩ := Option.map_eq_some_iff.mp hrun
  obtain ⟨rfl, rfl⟩ := Prod.mk.inj heq
  obtain ⟨⟨freed, map⟩, hrelease, hsome⟩ := Option.bind_eq_some_iff.mp hresult
  obtain rfl := Option.some.inj hsome
  refine ⟨h.setTables (h.backed.release hrelease) rfl ?_ rfl rfl, ?_⟩
  · intro p k fd hmaps
    exact h.apart ((maps_of_release h.backed hrelease rfl p k fd).mp hmaps).2
  · intro fd hfd
    obtain ⟨slot, e, hslot, he, ⟨-, rfl, -⟩ | ⟨-, rfl, -⟩⟩ := Shared.release_eq_some hrelease
    · obtain ⟨k, hk⟩ := FdTable.mem_getAllReplayedFds_iff.mp hfd
      exact h.apart ⟨e.value, Shared.get_eq_some.mpr ⟨slot, e, hslot, he, rfl⟩, hk⟩
    · exact absurd hfd List.not_mem_nil

theorem yields_of_same {m : Replay α} (hsame : ∀ w a w', m w = some (a, w') →
    SameDescriptors w w') : Yields (Guarded own n) m fun _ => True := by
  intro w a w' h hrun
  obtain ⟨htables, hused, hopen, hissued⟩ := hsame w a w' hrun
  exact ⟨h.congr htables hused hopen hissued, trivial⟩

theorem yields_setUmask (pid : Int) (mode : BitVec 32) :
    Yields (Guarded own n) (setUmask pid mode) fun _ => True := by
  apply yields_of_same
  intro w u w' hrun
  obtain ⟨m, hm, rfl⟩ := updateManager_eq_some hrun
  obtain ⟨table, -, heq⟩ := Option.bind_eq_some_iff.mp hm
  obtain rfl := Option.some.inj heq
  exact ⟨rfl, rfl, rfl, rfl⟩

theorem yields_modifyArea (pid : Int) (f : List VirtualAddressSpace.VMNode →
    List VirtualAddressSpace.VMNode) : Yields (Guarded own n) (modifyArea pid f) fun _ => True := by
  apply yields_of_same
  intro w u w' hrun
  obtain rfl := (Prod.mk.inj (Option.some.inj hrun)).2
  exact ⟨rfl, rfl, rfl, rfl⟩

theorem yields_startThread (pid : Int) :
    Yields (Guarded own n) (startThread pid) fun _ => True := by
  apply yields_of_same
  intro w u w' hrun
  obtain rfl := (Prod.mk.inj (Option.some.inj hrun)).2
  exact ⟨rfl, rfl, rfl, rfl⟩

/-- The tables that map none of the replayer's descriptors. -/
def Clear (own : Own) (t : FdTable) : Prop :=
  ∀ k fd, t.Maps k fd → fd ∉ own.fds

theorem yields_table (pid : Int) :
    Yields (Guarded own n) (queryManager fun m => m.fdTableMap.get pid) (Clear own) := by
  intro w t w' h hrun
  obtain ⟨t, ht, heq⟩ := Option.map_eq_some_iff.mp hrun
  obtain ⟨rfl, rfl⟩ := Prod.mk.inj heq
  exact ⟨h, fun k fd hmaps => h.apart ⟨t, ht, hmaps⟩⟩

theorem yields_cloneEntry {copy : FdTable} {entry : Int × FileDescriptorEntry}
    (hcopy : Clear own copy) (hentry : entry.2.fd ∉ own.fds) :
    Yields (Guarded own n) (cloneEntry copy entry) (Clear own) := by
  have hadd : ∀ fd ∉ own.fds, Yields (Guarded own n)
      (liftM (FdTable.addFdEntry copy entry.1 fd entry.2.flags) : Replay FdTable)
      (Clear own) := by
    intro fd hfd
    apply Yields.lift
    intro copy' hadded k x hmaps
    rcases FdTable.maps_addFdEntry hadded k x with hiff | ⟨-, rfl, -⟩
    · rcases hiff.mp hmaps with hmaps | ⟨-, rfl⟩
      · exact hcopy k x hmaps
      · exact hfd
    · exact hcopy k x hmaps
  unfold cloneEntry
  dsimp only
  split
  · refine (yields_opened rfl ?_).bind hadd
    simpa [names] using hentry
  · exact (yields_pure hentry).bind hadd

theorem yields_cloneFdTable (ppid pid : Int) (shared : Bool) :
    Yields (Guarded own n) (cloneFdTable ppid pid shared) fun _ => True := by
  unfold cloneFdTable
  split
  · intro w u w' h hrun
    obtain ⟨m, hm, rfl⟩ := updateManager_eq_some hrun
    obtain ⟨map, hshare, rfl⟩ := Option.map_eq_some_iff.mp hm
    refine ⟨h.setTables (h.backed.share hshare) rfl ?_ rfl rfl, trivial⟩
    rintro p k fd ⟨t, ht, hmaps⟩
    rw [table_of_share hshare rfl p] at ht
    exact h.apart ⟨t, ht, hmaps⟩
  · refine (yields_table ppid).bind fun parent hparent => ?_
    have hcopied : Yields (Guarded own n) (parent.toList.foldlM cloneEntry ∅) (Clear own) := by
      refine Yields.foldlM _ (fun copy hcopy entry hentry => ?_) _ ?_
      · refine yields_cloneEntry hcopy (hparent entry.1 _ ⟨entry.2, ?_, rfl⟩)
        exact Std.ExtTreeMap.mem_toList_iff_getElem?_eq_some.mp hentry
      · intro k fd hmaps
        exact absurd hmaps FdTable.not_maps_empty
    refine hcopied.bind fun copy hcopy => ?_
    intro w u w' h hrun
    obtain ⟨m, hm, rfl⟩ := updateManager_eq_some hrun
    obtain rfl := Option.some.inj hm
    refine ⟨h.setTables (h.backed.create pid copy) rfl ?_ rfl rfl, trivial⟩
    intro p k fd hmaps
    rcases (maps_of_create h.backed rfl p k fd).mp hmaps with ⟨-, hmaps⟩ | ⟨-, hmaps⟩
    · exact hcopy k fd hmaps
    · exact h.apart hmaps

theorem yields_execveEntry (pid retVal k : Int) :
    Yields (Guarded own n) (execveEntry pid retVal k) fun _ => True := by
  have hremove : Yields (Guarded own n) (do
      let _ ← removeFd pid k : Replay Unit) fun _ => True :=
    (yields_removeFd _ _).bind fun _ _ => .pure _ trivial
  refine (yields_query _).bind fun flags _ => (yields_query _).bind fun fd _ => ?_
  have hsimulated : Yields (Guarded own n) (if fd = syscallSimulated then
      if closesOnExec flags then (do let _ ← removeFd pid k : Replay Unit)
      else pure () else pure ()) fun _ => True :=
    .ite (.ite hremove (.pure _ trivial)) (.pure _ trivial)
  dsimp only
  split
  · exact (yields_removeFd _ _).bind fun _ _ => hsimulated
  · exact hsimulated

end Operations

theorem yields_operation {own : Own} {n : Nat} {α : Type} {m : Replay α} {Q : α → Prop}
    (hm : Operation (sparing own) α m Q) : Yields (Guarded own n) m Q := by
  cases hm with
  | syscall hnames => exact yields_syscall hnames
  | opened hcall hnames => exact yields_opened hcall hnames
  | redirected hcall htarget hnames => exact yields_redirected hcall htarget hnames
  | query f => exact yields_query f
  | getFd pid k => exact yields_getFd pid k
  | generateUnusedFd pid => exact yields_generateUnusedFd pid
  | addFd pid flags _ hfd => exact yields_addFd pid _ flags hfd
  | removeFd pid _ => exact yields_removeFd pid _
  | addFlags pid flags _ => exact yields_addFlags pid _ flags
  | execveEntry pid retVal k => exact yields_execveEntry pid retVal k
  | removeFdTable pid => exact yields_removeFdTable pid
  | cloneFdTable ppid pid shared => exact yields_cloneFdTable ppid pid shared
  | setUmask pid mode => exact yields_setUmask pid mode
  | removeUmask pid => exact yields_of_same fun _ _ _ => removeUmask_eq_some
  | cloneUmask ppid pid shared => exact yields_of_same fun _ _ _ => cloneUmask_eq_some
  | createArea pid | modifyArea _ pid f => exact yields_modifyArea pid _
  | startThread pid => exact yields_startThread pid

theorem yields_of_program {own : Own} {n : Nat} {α : Type} {m : Replay α}
    (hm : Program (sparing own) m) : Yields (Guarded own n) m fun _ => True :=
  hm.yields yields_operation

/-- The record enters one of the replayer's descriptors: it duplicates a simulated
descriptor, and returned that number in the trace. -/
def Adopts (fds : Finset Int) (w : World) (a : Execution) : Prop :=
  a.kind = .dup ∧ w.resolves a.pid (a.row.int .descriptor) = some syscallSimulated ∧
    int32 a.returnValue ∈ fds

instance (fds : Finset Int) (w : World) (a : Execution) : Decidable (Adopts fds w a) :=
  inferInstanceAs (Decidable (_ ∧ _ ∧ _))

section Steps

variable {own : Own} {n : Nat} {opts : Options} {w w' : World} {a : Execution}

theorem Guarded.dup {pid returnValue replayed tracedFd : Int} (h : Guarded own n w)
    (hspared : w.resolves pid tracedFd = some syscallSimulated → int32 returnValue ∉ own.fds)
    (hrun : dupProcessRow pid returnValue tracedFd w = some (replayed, w')) :
    Guarded own n w' := by
  obtain ⟨t, e, ht, he, ⟨hsim, hadd⟩ | ⟨-, hadd⟩⟩ := dupProcessRow_eq_some hrun
  · have hresolves : w.resolves pid tracedFd = some syscallSimulated := by
      rw [resolves_of_table ht, FdTable.getFd_of_mapped he, hsim]
    exact (yields_addFd _ _ _ (hspared hresolves) h hadd).1
  · have hfd : e.fd ∉ own.fds := h.apart ⟨t, ht, e, he, rfl⟩
    obtain ⟨hserved, hfresh⟩ :=
      yields_opened rfl (by simpa [names] using hfd) h (intSyscall_apply (.dup e.fd) w)
    exact (yields_addFd _ _ _ hfresh hserved hadd).1

theorem processRow_dup {m : ReplayModule} (hkind : a.kind = .dup) (hm : a.module = some m) :
    processRow opts m a.position.1 a.position.2 =
      dupProcessRow a.pid a.returnValue (a.row.int .descriptor) := by
  obtain ⟨kind, held, row, rest, queued, later, laterRest⟩ := a
  obtain rfl : kind = .dup := hkind
  rw [processRow_of_ownMove rfl hm rfl]
  cases queued <;> rfl

theorem kind_of_dup {kind : SysCallKind} {held k : Int} {row : Row} {rest : List Row}
    (h : prepareMembers kind held row rest = some (.dup k)) : kind = .dup := by
  cases kind
  case dup => rfl
  case read | pread | mmappread | write | pwrite | mmappwrite | readlink | ioctl =>
    obtain ⟨_, -, heq⟩ := Option.bind_eq_some_iff.mp h
    cases heq
  all_goals cases h

theorem kind_of_module {m : ReplayModule} {k : Int} (hm : a.module = some m)
    (hmembers : m.members = .dup k) : a.kind = .dup := by
  obtain ⟨members, hprepared, heq | heq⟩ := members_of_module hm
  · rw [← heq, hmembers] at hprepared
    exact kind_of_dup hprepared
  · rw [hmembers] at heq
    cases members
    case dup => exact kind_of_dup hprepared
    all_goals cases heq

theorem Guarded.executeStep (h : Guarded own n w) (hspared : ¬Adopts own.fds w a)
    (hrun : executeStep opts w a = some w') : Guarded own n w' := by
  obtain ⟨m, replayed, hm, hprocess⟩ := executeStep_eq_some hrun
  by_cases hkind : a.kind = .dup
  · rw [processRow_dup hkind hm] at hprocess
    exact h.dup (fun hsim hmem => hspared ⟨hkind, hsim, hmem⟩) hprocess
  · have hother : ∀ k, m.members ≠ .dup k := fun k hk => hkind (kind_of_module hm hk)
    have hprogram : Program (sparing own) (processRow opts m a.position.1 a.position.2) :=
      processRow_cases
        (program_processMembers opts m (fun _ => trivial) (fun _ _ => trivial)
          (fun _ _ => id) (fun _ _ _ => id) fun k hk => absurd hk (hother k))
        fun program hprogram => program_processCurrentRow opts m _ _ program hprogram
          (fun _ => ⟨trivial, fun _ _ => id⟩) fun _ _ => id
    exact (yields_of_program hprogram h hprocess).1

end Steps

/-- The descriptors that are open when the replay starts, but for the standard ones. -/
def ownOf {w : World} {pid : Int} {maxFds : Nat} (h : Prepared w pid maxFds) : Own where
  fds := w.manager.replayerUsedFds
  nonneg := by
    intro fd hfd
    obtain ⟨-, -, -, hused⟩ := h.tables
    rw [hused, List.mem_toFinset, List.mem_filter, Bool.and_eq_true, decide_eq_true_eq] at hfd
    exact (h.scanned fd hfd.2.1).1

theorem guarded_of_prepared {w : World} {pid : Int} {maxFds : Nat} (h : Prepared w pid maxFds) :
    Guarded (ownOf h) w.issued.length w := by
  obtain ⟨hexact, htable, hothers, hused⟩ := h.tables
  have hown : ∀ fd ∈ w.manager.replayerUsedFds,
      fd ∈ w.openFds ∧ fd ∉ stdTable.getAllReplayedFds := by
    intro fd hfd
    rw [hused, List.mem_toFinset, List.mem_filter, Bool.and_eq_true, decide_eq_true_eq,
      decide_eq_true_eq] at hfd
    exact hfd.2
  refine ⟨rfl, hexact.toBacked, fun fd hfd => (hown fd hfd).1, ?_, ?_⟩
  · rintro p k fd ⟨t, ht, hmaps⟩ hfd
    rcases eq_or_ne p pid with rfl | hne
    · obtain rfl := Option.some.inj (ht.symm.trans htable)
      exact (hown fd hfd).2 (FdTable.mem_getAllReplayedFds_iff.mpr ⟨k, hmaps⟩)
    · rw [hothers p hne] at ht
      cases ht
  · intro call hcall
    rw [List.drop_length] at hcall
    exact absurd hcall List.not_mem_nil

/-- The operation does not execute such a record. -/
def NotAdopting (call : Record → Execution) (cfg : Config) (fds : Finset Int) (s : State)
    (a : Scheduler.Action) : Prop :=
  ∀ c, copyToExecute cfg s.scheduler a = some c → ¬Adopts fds s.world (call c.record)

/-- The start of a replay whose trace file is open as 3. -/
def ownedWorld : World :=
  let w : World := { emptyWorld with
    openFds := {0, 1, 2, 3}
    replies := fun k => inOrder (k + 1) }
  { w with manager :=
      (Manager.initializeTables (· ∈ w.openFds) 16 1 stdFdMap).getD w.manager }

theorem ownedWorld_prepared : Prepared ownedWorld 1 16 where
  manager := rfl
  standard := (by decide : ({0, 1, 2} : Finset Int) ⊆ {0, 1, 2, 3})
  scanned := (by decide : ∀ fd ∈ ({0, 1, 2, 3} : Finset Int), 0 ≤ fd ∧ fd ≤ 16)
  bound := (by decide : 16 < 2 ^ 31)

def socketRecords : List (List Record) :=
  [[⟨.umask, 0, 1, 1, 2, 0⟩], [⟨.socket, 1, 1, 3, 4, 5⟩],
    [⟨.dup, 2, 1, 5, 6, 6⟩, ⟨.dup, 3, 1, 7, 8, 7⟩], [⟨.close, 4, 1, 9, 10, 0⟩]]

theorem socketRecords_nonempty : ∀ rows ∈ socketRecords, rows ≠ [] := by
  decide

/-- A socket is made and duplicated, then descriptor 1, whose duplicate is closed. -/
def socketTrace : Config where
  modules := socketRecords
  order := List.range 4
  uninitialised i := i
  modules_nonempty := socketRecords_nonempty
  order_perm := .refl _

def socketCall (r : Record) : Execution :=
  queuedCall r.sysCallName r.executingPid r.returnValue fun
    | .descriptor => if r.uniqueId = 2 then 5 else if r.uniqueId = 3 then 1 else 7
    | _ => 0

/-- A duplicate of a socket that returned 3 in the trace makes the replay close 3. -/
example : (worldAfter ownedWorld [queuedCall .socket 1 5 fun _ => 0,
    queuedCall .dup 1 3 fun _ => 5, queuedCall .close 1 0 fun _ => 3]).issued = [.close 3] := by
  decide

end SyscallReplayer.OwnDescriptors
