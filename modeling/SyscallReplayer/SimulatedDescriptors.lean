import SyscallReplayer.SnapshotFidelity

/-!
# Records on simulated descriptors

Sockets, pipes and the like have no descriptor of their own in the replay. A
record on one should make no call, keep the traced value and report nothing.
-/

namespace SyscallReplayer.SimulatedDescriptors

open Std (ExtTreeMap)
open CInt SharedEntries ReplayKernel ResourcesManager ReplayWorld ReplayModules
open StatePrograms SnapshotFidelity

/-- The calls that take a descriptor. -/
def takesDescriptor : SysCallKind → Bool
  | .read | .pread | .write | .pwrite | .lseek | .close | .fstat | .fcntl | .fsync | .fdatasync
  | .ftruncate | .fallocate | .readahead | .fchmod | .fchdir | .getdents | .ioctl => true
  | _ => false

/-- The queued copy issues no call, replays the traced value and reports no
mismatch, wherever the series stands by then. -/
def Silent (opts : Options) (kind : SysCallKind) (held : Int) (row : Row) (rest : List Row)
    (w : World) : Prop :=
  ∃ copy replayed w', queuedCopy kind held row rest = some copy ∧
    (∀ later laterRest,
      execute opts copy later laterRest w = some ((replayed, none), w')) ∧
    w'.issued = w.issued ∧ replayed = row.int .return_value

/-- The traced value fits the replayed one, and the errno that is left over from
an earlier call is the traced one where it is compared. -/
def Reported (opts : Options) (row : Row) (w : World) : Prop :=
  int32 (row.int .return_value) = row.int .return_value ∧
    (row.int .return_value = -1 →
      opts.warnLevel = defaultMode ∨ w.errno = row.int .errno_number)

/-- What the row must be like for the record to be silent. -/
def SimulationExact (opts : Options) (kind : SysCallKind) (row : Row) (w : World) : Prop :=
  Allocates kind row ∧
    match kind with
    | .fcntl | .ftruncate => False
    | .close | .read | .write | .lseek | .fstat => row.int .return_value = 0
    | .fchmod =>
        (∃ umask, w.manager.getUmask (row.int .executing_pid) = some umask) ∧
          Reported opts row w
    | _ => Reported opts row w

theorem compareRetvalAndErrno_eq_none_iff {opts : Options} {c : Common} {replayed errno : Int} :
    compareRetvalAndErrno opts c replayed errno = none ↔
      opts.warnLevel = defaultMode ∨
        c.returnVal = replayed ∧ (replayed = -1 → errno = c.errorNo) := by
  unfold compareRetvalAndErrno
  split_ifs with hmode hvalue herrno
  · simp [hmode]
  · simp [hmode, hvalue]
  · simp only [hmode, false_or, false_iff, not_and]
    intro _ h
    exact herrno.2 (h herrno.1)
  · simp only [true_iff, hmode, false_or]
    refine ⟨not_not.mp hvalue, ?_⟩
    intro hfailed
    by_contra hne
    exact herrno ⟨hfailed, hne⟩

theorem afterSysCall_none_iff {opts : Options} {m : ReplayModule} {replayed : Int} {w w' : World}
    (h : isReplayable m.sysCallName = true) :
    afterSysCall opts m replayed w = some (none, w') ↔
      compareRetvalAndErrno opts m.common replayed w.errno = none ∧ w' = w := by
  unfold afterSysCall
  rw [if_pos h]
  dsimp only
  cases compareRetvalAndErrno opts m.common replayed w.errno with
  | none => simp [eq_comm]
  | some mismatch =>
      split <;> simp

theorem execute_eq_some_iff {opts : Options} {m : ReplayModule} {later : Row}
    {laterRest : List Row} {replayed : Int} {w w' : World}
    (h : isReplayable m.sysCallName = true) :
    execute opts m later laterRest w = some ((replayed, none), w') ↔
      processRow opts m later laterRest w = some (replayed, w') ∧
        buffersHold opts m w' = true ∧
          compareRetvalAndErrno opts m.common replayed w'.errno = none := by
  unfold execute
  rw [bind_eq_some]
  constructor
  · rintro ⟨value, w₁, hrun, hafter⟩
    obtain ⟨u, w₂, hdelete, hrest⟩ := bind_eq_some.mp hafter
    obtain ⟨hhold, rfl⟩ := deleteBuffers_eq_some.mp hdelete
    obtain ⟨verdict, w₃, hverdict, hpure⟩ := bind_eq_some.mp hrest
    rw [pure_apply, Option.some.injEq, Prod.mk.injEq, Prod.mk.injEq] at hpure
    obtain ⟨⟨rfl, rfl⟩, rfl⟩ := hpure
    obtain ⟨hnone, rfl⟩ := (afterSysCall_none_iff h).mp hverdict
    exact ⟨hrun, hhold, hnone⟩
  · rintro ⟨hrun, hhold, hnone⟩
    refine ⟨replayed, w', hrun, ?_⟩
    rw [bind_of_eq_some (deleteBuffers_eq_some.mpr ⟨hhold, rfl⟩ : _ = some ((), w')),
      bind_of_eq_some ((afterSysCall_none_iff h).mpr ⟨hnone, rfl⟩)]
    rfl

section

variable {opts : Options} {kind : SysCallKind} {held : Int} {row : Row} {rest : List Row}
  {w w₁ : World} {members : Members} {value : Int}

theorem queuedCopy_eq (h : movesTo kind = some kind)
    (hmembers : prepareMembers kind held row rest = some members) :
    queuedCopy kind held row rest = some (copyWith kind row members) := by
  simp [queuedCopy, prepareRow, hmembers, move, h, copyWith]

theorem processRow_copyWith (h : movesTo kind = some kind) (later : Row)
    (laterRest : List Row) :
    processRow opts (copyWith kind row members) later laterRest =
      processMembers opts (copyWith kind row members) := by
  rw [processRow, processCurrentRow_eq_none (by exact h), Option.getD_none]

theorem silent_iff_of_run (h : movesTo kind = some kind) (hreplayable : isReplayable kind = true)
    (hmembers : prepareMembers kind held row rest = some members)
    (hrun : processMembers opts (copyWith kind row members) w = some (value, w₁))
    (hhold : buffersHold opts (copyWith kind row members) w₁ = true) :
    Silent opts kind held row rest w ↔
      w₁.issued = w.issued ∧ value = row.int .return_value ∧
        (opts.warnLevel = defaultMode ∨ int32 (row.int .return_value) = value ∧
          (value = -1 → w₁.errno = row.int .errno_number)) := by
  have hcompare : compareRetvalAndErrno opts (copyWith kind row members).common value w₁.errno =
      none ↔ opts.warnLevel = defaultMode ∨ int32 (row.int .return_value) = value ∧
        (value = -1 → w₁.errno = row.int .errno_number) := by
    rw [compareRetvalAndErrno_eq_none_iff]
    simp only [copyWith, setCommon, rowCommon_returnVal, rowCommon_errorNo]
  rw [← hcompare]
  constructor
  · rintro ⟨copy, replayed, w', hcopy, hexec, hissued, hvalue⟩
    obtain rfl := Option.some.inj (hcopy.symm.trans (queuedCopy_eq h hmembers))
    obtain ⟨hprocess, -, hnone⟩ := (execute_eq_some_iff hreplayable).mp (hexec row rest)
    rw [processRow_copyWith h, hrun, Option.some.injEq, Prod.mk.injEq] at hprocess
    obtain ⟨rfl, rfl⟩ := hprocess
    exact ⟨hissued, hvalue, hnone⟩
  · rintro ⟨hissued, hvalue, hnone⟩
    refine ⟨_, value, w₁, queuedCopy_eq h hmembers, ?_, hissued, hvalue⟩
    intro later laterRest
    rw [execute_eq_some_iff hreplayable, processRow_copyWith h]
    exact ⟨hrun, hhold, hnone⟩

/-- A copy that cannot run without a call is not silent. -/
theorem not_silent_of_issues (h : movesTo kind = some kind)
    (hreplayable : isReplayable kind = true)
    (hmembers : prepareMembers kind held row rest = some members)
    (hissues : ∀ value w', processMembers opts (copyWith kind row members) w = some (value, w') →
      w'.issued ≠ w.issued) :
    ¬Silent opts kind held row rest w := by
  rintro ⟨copy, replayed, w', hcopy, hexec, hissued, -⟩
  obtain rfl := Option.some.inj (hcopy.symm.trans (queuedCopy_eq h hmembers))
  obtain ⟨hprocess, -⟩ := (execute_eq_some_iff hreplayable).mp (hexec row rest)
  rw [processRow_copyWith h] at hprocess
  exact hissues replayed w' hprocess hissued

theorem not_silent_of_throws (hthrows : prepareMembers kind held row rest = none) :
    ¬Silent opts kind held row rest w := by
  rintro ⟨copy, -, -, hcopy, -⟩
  simp [queuedCopy, prepareRow, hthrows] at hcopy

theorem silent_iff_reported (h : movesTo kind = some kind)
    (hreplayable : isReplayable kind = true)
    (hmembers : prepareMembers kind held row rest = some members)
    (hrun : processMembers opts (copyWith kind row members) w =
      some (int32 (row.int .return_value), w))
    (hhold : buffersHold opts (copyWith kind row members) w = true) :
    Silent opts kind held row rest w ↔ Reported opts row w := by
  rw [silent_iff_of_run h hreplayable hmembers hrun hhold]
  unfold Reported
  constructor
  · rintro ⟨-, hvalue, hreport⟩
    refine ⟨hvalue, ?_⟩
    intro hfailed
    rcases hreport with hmode | ⟨-, herrno⟩
    · exact .inl hmode
    · exact .inr (herrno (hvalue.trans hfailed))
  · rintro ⟨hvalue, hreport⟩
    refine ⟨rfl, hvalue, ?_⟩
    by_cases hmode : opts.warnLevel = defaultMode
    · exact .inl hmode
    · refine .inr ⟨rfl, ?_⟩
      intro hfailed
      exact (hreport (hvalue.symm.trans hfailed)).resolve_left hmode

/-- The replayed value that `prepareRow` kept stays behind: the copy's is zero. -/
theorem silent_iff_zero (h : movesTo kind = some kind) (hreplayable : isReplayable kind = true)
    (hmembers : prepareMembers kind held row rest = some members)
    (hrun : processMembers opts (copyWith kind row members) w = some (0, w₁))
    (hhold : buffersHold opts (copyWith kind row members) w₁ = true)
    (hissued : w₁.issued = w.issued) :
    Silent opts kind held row rest w ↔ row.int .return_value = 0 := by
  rw [silent_iff_of_run h hreplayable hmembers hrun hhold, eq_comm (a := (0 : Int))]
  constructor
  · rintro ⟨-, hvalue, -⟩
    exact hvalue
  · intro hvalue
    refine ⟨hissued, hvalue, .inr ⟨?_, ?_⟩⟩
    · rw [hvalue]
      rfl
    · intro hfailed
      exact absurd hfailed (by decide)

end

section

variable {opts : Options} {held : Int} {row : Row} {rest : List Row} {w : World}

theorem onDescriptor_simulated (h : Simulated w row) (value : Int)
    (real : Int → Replay Int) :
    onDescriptor (row.int .executing_pid) (row.int .descriptor) (pure value) real w =
      some (value, w) := by
  have hfd : w.resolves (row.int .executing_pid) (row.int .descriptor) = some syscallSimulated := h
  rw [onDescriptor_apply, hfd, Option.bind_some, if_pos rfl]
  rfl

theorem silent_iff_of_onDescriptor {kind : SysCallKind} {members : Members} {value : Int}
    {real : Int → Replay Int} (h : movesTo kind = some kind)
    (hreplayable : isReplayable kind = true)
    (hmembers : prepareMembers kind held row rest = some members)
    (hprocess : processMembers opts (copyWith kind row members) =
      onDescriptor (row.int .executing_pid) (row.int .descriptor) (pure value) real)
    (hvalue : value = int32 (row.int .return_value))
    (hhold : buffersHold opts (copyWith kind row members) w = true) (hsim : Simulated w row) :
    Silent opts kind held row rest w ↔ Reported opts row w := by
  refine silent_iff_reported h hreplayable hmembers ?_ hhold
  rw [hprocess, onDescriptor_simulated hsim, hvalue]

theorem silent_iff_zero_of_onDescriptor {kind : SysCallKind} {members : Members}
    {real : Int → Replay Int} (h : movesTo kind = some kind)
    (hreplayable : isReplayable kind = true)
    (hmembers : prepareMembers kind held row rest = some members)
    (hprocess : processMembers opts (copyWith kind row members) =
      onDescriptor (row.int .executing_pid) (row.int .descriptor) (pure 0) real)
    (hhold : buffersHold opts (copyWith kind row members) w = true) (hsim : Simulated w row) :
    Silent opts kind held row rest w ↔ row.int .return_value = 0 := by
  have hrun : processMembers opts (copyWith kind row members) w = some (0, w) := by
    rw [hprocess, onDescriptor_simulated hsim]
  exact silent_iff_zero h hreplayable hmembers hrun hhold rfl

theorem getdentsProcessRow_simulated (hsim : Simulated w row) (countVal returnVal : Int) :
    getdentsProcessRow (row.int .executing_pid) (row.int .descriptor) countVal returnVal w =
      some (int32 returnVal, w) :=
  onDescriptor_simulated hsim _ _

theorem closeProcessRow_simulated (hsim : Simulated w row) (replayed : Int) :
    ∃ w', closeProcessRow (row.int .executing_pid) replayed (row.int .descriptor) w =
      some (replayed, w') ∧ w'.issued = w.issued := by
  obtain ⟨t, ht, hfd⟩ := Option.map_eq_some_iff.mp (show (w.table _).map _ = _ from hsim)
  have hgone : t.getFd (row.int .descriptor) = syscallSimulated := hfd
  refine ⟨w.setTable (row.int .executing_pid) (t.erase (row.int .descriptor)), ?_, rfl⟩
  unfold closeProcessRow
  rw [bind_of_eq_some (removeFd_run ht _), hgone, if_pos rfl]
  rfl

theorem fchmodProcessRow_simulated (hsim : Simulated w row) (returnValue : Int)
    (modeValue : BitVec 32) :
    fchmodProcessRow (row.int .executing_pid) returnValue (row.int .descriptor) modeValue w =
      (w.manager.getUmask (row.int .executing_pid)).map fun _ => (int32 returnValue, w) := by
  have hfd : w.resolves (row.int .executing_pid) (row.int .descriptor) =
      some syscallSimulated := hsim
  have hget : getFd (row.int .executing_pid) (row.int .descriptor) w =
      some (syscallSimulated, w) := by
    rw [getFd_apply, hfd, Option.map_some]
  unfold fchmodProcessRow
  rw [bind_of_eq_some hget]
  cases humask : w.manager.getUmask (row.int .executing_pid) with
  | none =>
      rw [bind_of_eq_none (getMode_of_none humask modeValue)]
      rfl
  | some umask =>
      rw [bind_of_eq_some (getMode_run humask modeValue), if_pos rfl]
      rfl

theorem ftruncate_issues {pid tracedFd length value : Int} {w' : World}
    (hrun : (do
      let fd ← getFd pid tracedFd
      intSyscall (.ftruncate fd length) : Replay Int) w = some (value, w')) :
    w'.issued ≠ w.issued := by
  obtain ⟨fd, w₁, hget, hcall⟩ := bind_eq_some.mp hrun
  obtain ⟨-, -, -, rfl⟩ := getFd_eq_some hget
  rw [intSyscall_apply, Option.some.injEq, Prod.mk.injEq] at hcall
  simp [← hcall.2]

theorem fcntlTable_issued {pid returnValue replayed tracedFd command argVal : Int} {u : Unit}
    {w' : World} (hrun : fcntlTable pid returnValue replayed tracedFd command argVal w =
      some (u, w')) : w'.issued = w.issued := by
  unfold fcntlTable at hrun
  split at hrun
  · obtain ⟨flags, w₁, hflags, hadd⟩ := bind_eq_some.mp hrun
    obtain ⟨-, -, -, -, -, rfl⟩ := getFlags_eq_some hflags
    obtain ⟨-, -, -, -, rfl⟩ := addFd_eq_some hadd
    rfl
  · split at hrun
    · split at hrun
      · obtain ⟨-, -, -, -, rfl⟩ := addFlags_eq_some hrun
        rfl
      · rw [pure_apply, Option.some.injEq, Prod.mk.injEq] at hrun
        rw [hrun.2]
    · rw [pure_apply, Option.some.injEq, Prod.mk.injEq] at hrun
      rw [hrun.2]

theorem fcntlProcessRow_issues
    {pid returnValue tracedFd command argVal type whence start length lockPid value : Int}
    {w' : World}
    (hrun : fcntlProcessRow pid returnValue tracedFd command argVal type whence start length
      lockPid w = some (value, w')) : w'.issued ≠ w.issued := by
  obtain ⟨fd, w₁, hget, hrest⟩ := bind_eq_some.mp hrun
  obtain ⟨-, -, -, rfl⟩ := getFd_eq_some hget
  rw [bind_of_eq_some (intSyscall_apply _ w₁)] at hrest
  obtain ⟨u, w₂, htable, hpure⟩ := bind_eq_some.mp hrest
  rw [pure_apply, Option.some.injEq, Prod.mk.injEq] at hpure
  simp [← hpure.2, fcntlTable_issued htable]

theorem read_silent_iff (hsim : Simulated w row) :
    Silent opts .read held row rest w ↔ SimulationExact opts .read row w := by
  by_cases hsize : 0 ≤ int32 (row.int .bytes_requested)
  · have hmembers : prepareMembers .read held row rest =
        some (.read (int32 (row.int .bytes_requested)) (row.int .descriptor)) := by
      simp [prepareMembers, prepareReadMembers, newBuffer_int32 hsize]
    rw [silent_iff_zero_of_onDescriptor rfl rfl hmembers rfl rfl hsim]
    exact (and_iff_right hsize).symm
  · have hthrows : prepareMembers .read held row rest = none := by
      simp [prepareMembers, prepareReadMembers, newBuffer_eq_none fun h => hsize h.1]
    exact iff_of_false (not_silent_of_throws hthrows) fun h => hsize h.1

theorem pread_silent_iff (hsim : Simulated w row) :
    Silent opts .pread held row rest w ↔ SimulationExact opts .pread row w := by
  by_cases hsize : 0 ≤ int32 (row.int .bytes_requested)
  · have hmembers : prepareMembers .pread held row rest =
        some (.pread (int32 (row.int .bytes_requested)) (row.int .descriptor)
          (row.int .offset)) := by
      simp [prepareMembers, prepareReadMembers, newBuffer_int32 hsize]
    rw [silent_iff_of_onDescriptor rfl rfl hmembers rfl (int32_int32 _) rfl hsim]
    exact (and_iff_right hsize).symm
  · have hthrows : prepareMembers .pread held row rest = none := by
      simp [prepareMembers, prepareReadMembers, newBuffer_eq_none fun h => hsize h.1]
    exact iff_of_false (not_silent_of_throws hthrows) fun h => hsize h.1

theorem write_silent_iff (hsim : Simulated w row) :
    Silent opts .write held row rest w ↔ SimulationExact opts .write row w := by
  by_cases hsize : uint64 (row.int .bytes_requested) ≤ longLongMax
  · obtain ⟨buffer, hbuffer⟩ := prepareWriteMembers_of_allocates hsize
    have hmembers : prepareMembers .write held row rest =
        some (.write buffer (uint64 (row.int .bytes_requested)) (row.int .descriptor)) := by
      simp [prepareMembers, hbuffer]
    rw [silent_iff_zero_of_onDescriptor rfl rfl hmembers rfl rfl hsim]
    exact (and_iff_right hsize).symm
  · have hthrows : prepareMembers .write held row rest = none := by
      simp [prepareMembers, prepareWriteMembers_eq_none hsize]
    exact iff_of_false (not_silent_of_throws hthrows) fun h => hsize h.1

theorem pwrite_silent_iff (hsim : Simulated w row) :
    Silent opts .pwrite held row rest w ↔ SimulationExact opts .pwrite row w := by
  by_cases hsize : uint64 (row.int .bytes_requested) ≤ longLongMax
  · obtain ⟨buffer, hbuffer⟩ := prepareWriteMembers_of_allocates hsize
    have hmembers : prepareMembers .pwrite held row rest =
        some (.pwrite buffer (uint64 (row.int .bytes_requested)) (row.int .descriptor)
          (row.int .offset)) := by
      simp [prepareMembers, hbuffer]
    have hhold : buffersHold opts (copyWith .pwrite row (.pwrite buffer
        (uint64 (row.int .bytes_requested)) (row.int .descriptor) (row.int .offset))) w = true := by
      have hfd : w.resolves (row.int .executing_pid) (row.int .descriptor) =
          some syscallSimulated := hsim
      exact Bool.or_eq_true_iff.mpr (.inl (decide_eq_true hfd))
    rw [silent_iff_of_onDescriptor rfl rfl hmembers rfl (int32_int32 _) hhold hsim]
    exact (and_iff_right hsize).symm
  · have hthrows : prepareMembers .pwrite held row rest = none := by
      simp [prepareMembers, prepareWriteMembers_eq_none hsize]
    exact iff_of_false (not_silent_of_throws hthrows) fun h => hsize h.1

theorem ioctl_silent_iff (hsim : Simulated w row) :
    Silent opts .ioctl held row rest w ↔ SimulationExact opts .ioctl row w := by
  by_cases hsize : Allocates .ioctl row
  · obtain ⟨buffer, hbuffer⟩ := prepareIoctlBuffer_of_allocates hsize
    have hmembers : prepareMembers .ioctl held row rest =
        some (.ioctl (row.int .descriptor) (row.int .request % 2 ^ 32)
          (uint64 (row.int .parameter)) buffer (uint64 (row.int .buffer_size))) := by
      simp [prepareMembers, hbuffer]
    rw [silent_iff_of_onDescriptor rfl rfl hmembers rfl (int32_int32 _) rfl hsim]
    exact (and_iff_right hsize).symm
  · have hthrows : prepareMembers .ioctl held row rest = none := by
      simp [prepareMembers, prepareIoctlBuffer_eq_none hsize]
    exact iff_of_false (not_silent_of_throws hthrows) fun h => hsize h.1

theorem close_silent_iff (hsim : Simulated w row) :
    Silent opts .close held row rest w ↔ row.int .return_value = 0 := by
  obtain ⟨w', hrun, hissued⟩ := closeProcessRow_simulated hsim 0
  exact silent_iff_zero rfl rfl rfl hrun rfl hissued

theorem getdents_silent_iff (hsim : Simulated w row) :
    Silent opts .getdents held row rest w ↔ Reported opts row w := by
  refine silent_iff_reported rfl rfl rfl ?_ rfl
  refine (getdentsProcessRow_simulated hsim _ _).trans ?_
  rw [int32_int32]

theorem fchmod_silent_iff (hsim : Simulated w row) :
    Silent opts .fchmod held row rest w ↔
      (∃ umask, w.manager.getUmask (row.int .executing_pid) = some umask) ∧
        Reported opts row w := by
  have hrun := fchmodProcessRow_simulated hsim (int32 (row.int .return_value)) (mode row)
  cases humask : w.manager.getUmask (row.int .executing_pid) with
  | none =>
      rw [humask, Option.map_none] at hrun
      refine iff_of_false ?_ ?_
      · refine not_silent_of_issues rfl rfl rfl ?_
        intro value w' hcopy
        exact nomatch hrun.symm.trans hcopy
      · rintro ⟨⟨umask, h⟩, -⟩
        cases h
  | some umask =>
      rw [humask, Option.map_some, int32_int32] at hrun
      refine (silent_iff_reported rfl rfl rfl ?_ rfl).trans (and_iff_right ⟨umask, rfl⟩).symm
      exact hrun

theorem fcntl_not_silent : ¬Silent opts .fcntl held row rest w :=
  not_silent_of_issues rfl rfl rfl fun _ _ hrun => fcntlProcessRow_issues hrun

theorem ftruncate_not_silent : ¬Silent opts .ftruncate held row rest w :=
  not_silent_of_issues rfl rfl rfl fun _ _ hrun => ftruncate_issues hrun

end

/-- A record on a simulated descriptor is silent exactly where the module checks
for one, the copy keeps the traced value and the errno compared is the traced
one. -/
theorem simulated_silent_iff (opts : Options) (kind : SysCallKind) (held : Int) (row : Row)
    (rest : List Row) (w : World) (hkind : takesDescriptor kind = true)
    (hsim : Simulated w row) :
    Silent opts kind held row rest w ↔ SimulationExact opts kind row w := by
  have hzero : SimulationExact opts .lseek row w ↔ row.int .return_value = 0 :=
    iff_of_eq (true_and _)
  have hreported : SimulationExact opts .fsync row w ↔ Reported opts row w := iff_of_eq (true_and _)
  cases kind
  case read => exact read_silent_iff hsim
  case pread => exact pread_silent_iff hsim
  case write => exact write_silent_iff hsim
  case pwrite => exact pwrite_silent_iff hsim
  case ioctl => exact ioctl_silent_iff hsim
  case close => exact (close_silent_iff hsim).trans hzero.symm
  case lseek | fstat =>
    exact (silent_iff_zero_of_onDescriptor rfl rfl rfl rfl rfl hsim).trans hzero.symm
  case fsync | fdatasync | fallocate | readahead =>
    exact (silent_iff_of_onDescriptor rfl rfl rfl rfl rfl rfl hsim).trans hreported.symm
  case fchdir =>
    exact (silent_iff_of_onDescriptor rfl rfl rfl rfl (int32_int32 _) rfl hsim).trans hreported.symm
  case getdents => exact (getdents_silent_iff hsim).trans hreported.symm
  case fchmod => exact (fchmod_silent_iff hsim).trans (iff_of_eq (true_and _)).symm
  case fcntl => exact iff_of_false fcntl_not_silent fun h => h.2
  case ftruncate => exact iff_of_false ftruncate_not_silent fun h => h.2
  all_goals exact absurd hkind Bool.false_ne_true

/-- Process 1 has a simulated descriptor 5; the kernel knows no such descriptor. -/
def socketWorld : World :=
  { emptyWorld with
    manager :=
      { umaskTable := Shared.empty.create 1 0
        fdTableMap := Shared.empty.create 1 ((∅ : FdTable).insert 5 ⟨syscallSimulated, 0⟩)
        replayerUsedFds := ∅ }
    replies := fun _ => ⟨-1, 9, (0, 0)⟩
    errno := 22 }

def socketRow (returnValue : Int) : Row where
  int
    | .executing_pid => 1
    | .descriptor => 5
    | .command_value => 1
    | .return_value => returnValue
    | .errno_number => 22
    | _ => 0
  text _ := ""
  bytes _ := []
  isNull _ := false

theorem socketRow_simulated (returnValue : Int) : Simulated socketWorld (socketRow returnValue) := by
  show socketWorld.resolves 1 5 = some syscallSimulated
  decide

/-- `fsync(5) = -1` leaves the kernel alone. -/
theorem fsync_silent :
    Silent ⟨abortMode, ""⟩ .fsync 0 (socketRow (-1)) [] socketWorld :=
  (simulated_silent_iff ⟨abortMode, ""⟩ .fsync 0 (socketRow (-1)) [] socketWorld rfl
    (socketRow_simulated (-1))).mpr ⟨trivial, rfl, fun _ => .inr rfl⟩

/-- `fcntl(5, F_GETFD)` reaches the kernel with descriptor -2. -/
theorem fcntl_reaches_kernel :
    (∃ copy w', queuedCopy .fcntl 0 (socketRow 0) [] = some copy ∧
      processRow ⟨defaultMode, ""⟩ copy (socketRow 0) [] socketWorld = some (-1, w') ∧
      w'.issued = [.fcntl (-2) 1 (.value 0)]) ∧
      ¬∀ opts kind held row rest w, takesDescriptor kind = true → Simulated w row →
        Silent opts kind held row rest w := by
  refine ⟨⟨_, _, rfl, rfl, rfl⟩, ?_⟩
  intro h
  exact fcntl_not_silent (h ⟨defaultMode, ""⟩ .fcntl 0 (socketRow 0) [] socketWorld rfl
    (socketRow_simulated 0))

end SyscallReplayer.SimulatedDescriptors
