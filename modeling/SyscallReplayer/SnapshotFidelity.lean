import SyscallReplayer.TableOperations

/-!
# Queued copies and the rows they stand for

The reader prepares a row, moves the module into a copy and goes on to other
rows; the copy runs later. It should do what the module would have done on the
row.
-/

namespace SyscallReplayer.SnapshotFidelity

open Std (ExtTreeMap)
open CInt ReplayKernel ResourcesManager ReplayWorld ReplayModules StatePrograms

/-- The copy that is queued for a row, by a module that still held the return
value `held`. -/
def queuedCopy (kind : SysCallKind) (held : Int) (row : Row) (rest : List Row) :
    Option ReplayModule :=
  (prepareRow kind held row rest).bind move

/-- The module on its row, with nothing else in its members. -/
def onItsRow (kind : SysCallKind) (row : Row) (rest : List Row) : Option ReplayModule :=
  prepareRow kind (row.int .return_value) row rest

/-- The copy exists, replays the same system call and runs as the module does on
its row, wherever the series stands by then. -/
def RunsAsOwn (opts : Options) (kind : SysCallKind) (held : Int) (row : Row) (rest : List Row)
    (w : World) : Prop :=
  ∃ copy own, queuedCopy kind held row rest = some copy ∧ onItsRow kind row rest = some own ∧
    copy.sysCallName = kind ∧
    ∀ later laterRest, processRow opts copy later laterRest w = processRow opts own row rest w

def Allocates (kind : SysCallKind) (row : Row) : Prop :=
  match kind with
  | .read | .pread | .mmappread => 0 ≤ int32 (row.int .bytes_requested)
  | .write | .pwrite => uint64 (row.int .bytes_requested) ≤ longLongMax
  | .readlink => 0 ≤ row.int .buffer_size ∧ row.int .buffer_size ≤ longLongMax
  | .ioctl => row.isNull .ioctl_buffer = true ∨ uint64 (row.int .buffer_size) ≤ longLongMax
  | _ => True

def Simulated (w : World) (row : Row) : Prop :=
  w.resolves (row.int .executing_pid) (row.int .descriptor) = some syscallSimulated

def Replayed (w : World) (row : Row) : Prop :=
  ∃ fd, w.resolves (row.int .executing_pid) (row.int .descriptor) = some fd ∧
    fd ≠ syscallSimulated

/-- What the row and the tables must be like for the copy to run as the module does. -/
def MoveExact (kind : SysCallKind) (held : Int) (row : Row) (w : World) : Prop :=
  let pid := row.int .executing_pid
  let ret := row.int .return_value
  movesTo kind = some kind ∧ Allocates kind row ∧
    match kind with
    | .open_ =>
        w.manager.getUmask pid = none ∨ opens w.openFds w.reply.value 0 = false ∨
          (ret ≤ -1 ↔ int32 ret ≤ -1)
    | .close | .read | .lseek | .fstat => Simulated w row → int32 ret = 0
    | .mmappread => Replayed w row → int32 ret = 0
    | .write =>
        (Simulated w row → int32 ret = 0) ∧
          (Replayed w row → uint64 (row.int .bytes_requested) < 2 ^ 31)
    | .pwrite => Replayed w row → uint64 (row.int .bytes_requested) < 2 ^ 31
    | .execve =>
        (0 ≤ held ↔ 0 ≤ ret) ∨ ∀ t (k : Int) e, w.table pid = some t → t[k]? = some e →
          closesOnExec e.flags = true → e.fd = syscallSimulated
    | _ => True

theorem processCurrentRow_eq_none {m : ReplayModule}
    (h : movesTo m.sysCallName = some m.sysCallName) (opts : Options) (row : Row)
    (rest : List Row) : processCurrentRow opts m row rest = none := by
  obtain ⟨kind, c, replayed, members⟩ := m
  cases kind <;> first | rfl | nomatch h

def copyWith (kind : SysCallKind) (row : Row) (members : Members) : ReplayModule :=
  ⟨kind, setCommon (rowCommon kind row), 0, setMove members⟩

def ownWith (kind : SysCallKind) (row : Row) (members : Members) : ReplayModule :=
  ⟨kind, rowCommon kind row, if keepsReturnValue kind then int32 (row.int .return_value) else 0,
    members⟩

section

variable {opts : Options} {kind : SysCallKind} {held : Int} {row : Row} {rest : List Row}
  {w : World}

theorem not_runsAsOwn (h : movesTo kind ≠ some kind) : ¬RunsAsOwn opts kind held row rest w := by
  rintro ⟨copy, own, hcopy, -, hkind, -⟩
  obtain ⟨m, hm, hmove⟩ := Option.bind_eq_some_iff.mp hcopy
  obtain ⟨members, -, hm⟩ := Option.bind_eq_some_iff.mp hm
  obtain rfl := Option.some.inj hm
  obtain ⟨target, htarget, rfl⟩ := Option.map_eq_some_iff.mp hmove
  dsimp only at hkind htarget
  exact h (hkind ▸ htarget)

theorem runsAsOwn_iff (h : movesTo kind = some kind) :
    RunsAsOwn opts kind held row rest w ↔
      ∃ members own, prepareMembers kind held row rest = some members ∧
        prepareMembers kind (row.int .return_value) row rest = some own ∧
        processMembers opts (copyWith kind row members) w =
          processMembers opts (ownWith kind row own) w := by
  have hrun : ∀ (m : ReplayModule), m.sysCallName = kind → ∀ later laterRest,
      processRow opts m later laterRest = processMembers opts m := by
    intro m hm later laterRest
    rw [processRow, processCurrentRow_eq_none (by rw [hm, h]), Option.getD_none]
  constructor
  · rintro ⟨copy, own, hcopy, hown, hkind, heq⟩
    obtain ⟨m, hm, hmove⟩ := Option.bind_eq_some_iff.mp hcopy
    obtain ⟨members, hmembers, hm⟩ := Option.bind_eq_some_iff.mp hm
    obtain rfl := Option.some.inj hm
    obtain ⟨ownMembers, hownMembers, hown⟩ := Option.bind_eq_some_iff.mp hown
    obtain rfl := Option.some.inj hown
    obtain ⟨target, htarget, rfl⟩ := Option.map_eq_some_iff.mp hmove
    refine ⟨members, ownMembers, hmembers, hownMembers, ?_⟩
    have heq' := heq row rest
    rw [hrun _ hkind, hrun _ rfl] at heq'
    dsimp only at hkind
    rw [hkind] at heq'
    exact heq'
  · rintro ⟨members, own, hmembers, hown, heq⟩
    refine ⟨copyWith kind row members, ownWith kind row own, ?_, ?_, rfl, ?_⟩
    · simp [queuedCopy, prepareRow, hmembers, move, h, copyWith]
    · simp [onItsRow, prepareRow, hown, ownWith]
    · intro later laterRest
      rw [hrun _ rfl, hrun _ rfl, heq]

theorem runsAsOwn_iff_of_members (h : movesTo kind = some kind) {members own : Members}
    (hheld : prepareMembers kind held row rest = some members)
    (hown : prepareMembers kind (row.int .return_value) row rest = some own) :
    RunsAsOwn opts kind held row rest w ↔
      processMembers opts (copyWith kind row members) w =
        processMembers opts (ownWith kind row own) w := by
  rw [runsAsOwn_iff h, hheld, hown]
  constructor
  · rintro ⟨_, _, h₁, h₂, heq⟩
    rw [← Option.some.inj h₁, ← Option.some.inj h₂] at heq
    exact heq
  · intro heq
    exact ⟨members, own, rfl, rfl, heq⟩

theorem runsAsOwn_iff_of_throws (h : movesTo kind = some kind)
    (hthrows : prepareMembers kind held row rest = none) (hsize : ¬Allocates kind row) :
    RunsAsOwn opts kind held row rest w ↔ MoveExact kind held row w := by
  rw [runsAsOwn_iff h, hthrows]
  constructor
  · rintro ⟨members, -, hmembers, -⟩
    cases hmembers
  · rintro ⟨-, halloc, -⟩
    exact absurd halloc hsize

end

theorem pure_eq_iff {a b : Int} (w : World) :
    (pure a : Replay Int) w = (pure b : Replay Int) w ↔ a = b := by
  simp [pure_apply]

theorem intSyscall_eq_iff {call call' : SystemCall} (w : World) :
    intSyscall call w = intSyscall call' w ↔ call = call' := by
  constructor
  · intro h
    rw [intSyscall_apply, intSyscall_apply, Option.some.injEq, Prod.mk.injEq] at h
    have hissued := congrArg World.issued h.2
    simpa using hissued
  · rintro rfl
    rfl

theorem onDescriptor_apply (pid tracedFd : Int) (simulated : Replay Int)
    (real : Int → Replay Int) (w : World) :
    onDescriptor pid tracedFd simulated real w =
      (w.resolves pid tracedFd).bind fun fd =>
        if fd = syscallSimulated then simulated w else real fd w := by
  rw [onDescriptor, bind_apply, getFd_apply]
  cases w.resolves pid tracedFd with
  | none => rfl
  | some fd =>
      rw [Option.map_some, Option.bind_some, Option.bind_some]
      split <;> rfl

theorem onDescriptor_eq_iff {w : World} {pid tracedFd : Int} {s s' : Replay Int}
    {r r' : Int → Replay Int} :
    onDescriptor pid tracedFd s r w = onDescriptor pid tracedFd s' r' w ↔
      (w.resolves pid tracedFd = some syscallSimulated → s w = s' w) ∧
        ∀ fd, w.resolves pid tracedFd = some fd → fd ≠ syscallSimulated → r fd w = r' fd w := by
  rw [onDescriptor_apply, onDescriptor_apply]
  cases hfd : w.resolves pid tracedFd with
  | none => simp
  | some fd =>
      rw [Option.bind_some, Option.bind_some]
      by_cases hsim : fd = syscallSimulated
      · rw [if_pos hsim, if_pos hsim, hsim]
        constructor
        · intro h
          refine ⟨fun _ => h, ?_⟩
          intro fd' hfd' hne
          exact absurd (Option.some.inj hfd').symm hne
        · rintro ⟨h, -⟩
          exact h rfl
      · rw [if_neg hsim, if_neg hsim]
        constructor
        · intro h
          refine ⟨fun heq => absurd (Option.some.inj heq) hsim, ?_⟩
          intro fd' hfd' _
          exact Option.some.inj hfd' ▸ h
        · rintro ⟨-, h⟩
          exact h fd rfl hsim

theorem addFd_int32 (pid tracedFd fd : Int) (flags : BitVec 32) :
    addFd pid (int32 tracedFd) fd flags = addFd pid tracedFd fd flags := by
  rw [addFd, int32_int32]
  rfl

theorem newBuffer_of_le {size : Int} (h : 0 ≤ size) (h' : size ≤ longLongMax) :
    newBuffer size = some size :=
  if_pos ⟨h, h'⟩

theorem newBuffer_int32 {size : Int} (h : 0 ≤ int32 size) :
    newBuffer (int32 size) = some (int32 size) := by
  have hupper := int32_upper size
  exact newBuffer_of_le h (by unfold longLongMax; omega)

theorem newBuffer_eq_none {size : Int} (h : ¬(0 ≤ size ∧ size ≤ longLongMax)) :
    newBuffer size = none :=
  if_neg h

/-! ## The return value

No `processRow` reads more of the return value than `setCommon` keeps. -/

theorem dupProcessRow_int32 (pid ret fileDescriptor : Int) :
    dupProcessRow pid (int32 ret) fileDescriptor = dupProcessRow pid ret fileDescriptor := by
  simp only [dupProcessRow, addFd_int32, int32_int32]

theorem duplicateTo_int32 (pid ret oldFd newFd : Int) (flags : BitVec 32 → BitVec 32)
    (call : Int → Int → SystemCall) :
    duplicateTo pid (int32 ret) oldFd newFd flags call =
      duplicateTo pid ret oldFd newFd flags call := by
  simp only [duplicateTo, addFd_int32, int32_int32]

theorem fcntlTable_int32 (pid ret replayed tracedFd command argVal : Int) :
    fcntlTable pid (int32 ret) replayed tracedFd command argVal =
      fcntlTable pid ret replayed tracedFd command argVal := by
  simp only [fcntlTable, addFd_int32]

theorem processMembers_setCommon (opts : Options) (kind : SysCallKind) (c : Common)
    (replayed : Int) (members : Members) :
    processMembers opts ⟨kind, setCommon c, replayed, members⟩ =
      processMembers opts ⟨kind, c, replayed, members⟩ := by
  have hret : (setCommon c).returnVal = int32 c.returnVal := rfl
  have hpid : (setCommon c).executingPid = c.executingPid := rfl
  cases members
  case pread | fchdir | fstatat | ioctl =>
    simp only [processMembers, ReplayModule.pid, hret, hpid, int32_int32]
  case mmappread =>
    simp only [processMembers, ReplayModule.pid, hret, hpid, mmappreadProcessRow, int32_int32]
  case pwrite =>
    simp only [processMembers, ReplayModule.pid, hret, hpid, pwriteProcessRow, int32_int32]
  case fchmod =>
    simp only [processMembers, ReplayModule.pid, hret, hpid, fchmodProcessRow, int32_int32]
  case clone =>
    simp only [processMembers, ReplayModule.pid, hret, hpid, cloneProcessRow, int32_int32]
  case vfork =>
    simp only [processMembers, ReplayModule.pid, hret, hpid, vforkProcessRow, int32_int32]
  case socket =>
    simp only [processMembers, ReplayModule.pid, hret, hpid, socketProcessRow, int32_int32]
  case epoll_create =>
    simp only [processMembers, ReplayModule.pid, hret, hpid, epollCreateProcessRow, int32_int32]
  case accept =>
    simp only [processMembers, ReplayModule.pid, hret, hpid, acceptProcessRow, int32_int32]
  case accept4 =>
    simp only [processMembers, ReplayModule.pid, hret, hpid, accept4ProcessRow, int32_int32]
  case dup =>
    simp only [processMembers, ReplayModule.pid, hret, hpid, dupProcessRow_int32]
  case dup2 =>
    simp only [processMembers, ReplayModule.pid, hret, hpid, dup2ProcessRow, duplicateTo_int32]
  case dup3 =>
    simp only [processMembers, ReplayModule.pid, hret, hpid, dup3ProcessRow, duplicateTo_int32]
  case fcntl =>
    simp only [processMembers, ReplayModule.pid, hret, hpid, fcntlProcessRow, fcntlTable_int32]
  all_goals rfl

def keepsAll : SysCallKind → Bool
  | .access | .chdir | .fchdir | .chroot | .link | .unlink | .rmdir | .mkdir | .stat | .lstat
  | .fstatat | .statfs | .utime | .chmod | .fchmod | .chown | .rename | .fsync | .fdatasync
  | .fallocate | .readahead | .pipe | .dup | .dup2 | .dup3 | .fcntl | .exit | .mmap | .munmap
  | .clone | .vfork | .umask | .ftruncate | .socket | .socketpair | .epoll_create
  | .accept | .accept4 => true
  | _ => false

section

variable {opts : Options} {held : Int} {row : Row} {rest : List Row} {w : World}

theorem runsAsOwn_of_keepsAll {kind : SysCallKind} (h : keepsAll kind = true) :
    RunsAsOwn opts kind held row rest w := by
  have hsame : ∀ members, setMove members = members → keepsReturnValue kind = false →
      processMembers opts (copyWith kind row members) w =
        processMembers opts (ownWith kind row members) w := by
    intro members hmembers hkeeps
    rw [copyWith, processMembers_setCommon, hmembers, ownWith, hkeeps]
    rfl
  cases kind <;>
    first
    | exact (runsAsOwn_iff_of_members rfl rfl rfl).mpr (hsame _ rfl rfl)
    | exact absurd h Bool.false_ne_true

theorem runsAsOwn_of_members {kind : SysCallKind} (h : movesTo kind = some kind)
    {members : Members} (hmembers : ∀ held, prepareMembers kind held row rest = some members)
    (hmoved : setMove members = members)
    (hunread : ∀ c replayed replayed', processMembers opts ⟨kind, c, replayed, members⟩ =
      processMembers opts ⟨kind, c, replayed', members⟩) :
    RunsAsOwn opts kind held row rest w := by
  rw [runsAsOwn_iff_of_members h (hmembers _) (hmembers _), copyWith, processMembers_setCommon,
    hmoved]
  exact congrFun (hunread _ _ _) w

theorem getdents_runsAsOwn : RunsAsOwn opts .getdents held row rest w := by
  rw [runsAsOwn_iff_of_members rfl rfl rfl, copyWith, processMembers_setCommon]
  simp only [setMove, ownWith, processMembers, ReplayModule.pid, getdentsProcessRow, int32_int32]

/-- A module that keeps the traced value as the replayed one keeps zero in its
copy; this shows where no call is made. -/
theorem onDescriptor_replayed_iff {pid tracedFd a : Int} {real : Int → Replay Int} :
    onDescriptor pid tracedFd (pure 0) real w = onDescriptor pid tracedFd (pure a) real w ↔
      (w.resolves pid tracedFd = some syscallSimulated → a = 0) := by
  rw [onDescriptor_eq_iff, pure_eq_iff, eq_comm (a := 0)]
  constructor
  · exact fun h => h.1
  · intro h
    exact ⟨h, fun _ _ _ => rfl⟩

theorem lseek_runsAsOwn_iff :
    RunsAsOwn opts .lseek held row rest w ↔ MoveExact .lseek held row w := by
  rw [runsAsOwn_iff_of_members rfl rfl rfl, copyWith, processMembers_setCommon]
  simp only [setMove, ownWith, processMembers, ReplayModule.pid, rowCommon_executingPid,
    MoveExact, Allocates, movesTo, true_and]
  exact onDescriptor_replayed_iff

theorem fstat_runsAsOwn_iff :
    RunsAsOwn opts .fstat held row rest w ↔ MoveExact .fstat held row w := by
  rw [runsAsOwn_iff_of_members rfl rfl rfl, copyWith, processMembers_setCommon]
  simp only [setMove, ownWith, processMembers, ReplayModule.pid, rowCommon_executingPid,
    MoveExact, Allocates, movesTo, true_and]
  exact onDescriptor_replayed_iff

theorem close_runsAsOwn_iff :
    RunsAsOwn opts .close held row rest w ↔ MoveExact .close held row w := by
  rw [runsAsOwn_iff_of_members rfl rfl rfl, copyWith, processMembers_setCommon]
  simp only [setMove, ownWith, processMembers, ReplayModule.pid, rowCommon_executingPid,
    MoveExact, Allocates, movesTo, true_and, closeProcessRow, bind_apply, Simulated,
    resolves_eq, keepsReturnValue, if_true]
  cases ht : w.table (row.int .executing_pid) with
  | none =>
      have hnone : removeFd (row.int .executing_pid) (row.int .descriptor) w = none := by
        cases hrun : removeFd (row.int .executing_pid) (row.int .descriptor) w with
        | none => rfl
        | some result =>
            obtain ⟨t, ht', -⟩ := removeFd_eq_some hrun
            rw [ht] at ht'
            cases ht'
      simp [hnone]
  | some t =>
      rw [removeFd_run ht, Option.bind_some, Option.bind_some, Option.map_some,
        Option.some.injEq]
      split
      · rename_i hsim
        have hresolved : t.getFd (row.int .descriptor) = syscallSimulated := hsim
        rw [pure_eq_iff, eq_comm]
        exact ⟨fun h _ => h, fun h => h hresolved⟩
      · rename_i hsim
        exact ⟨fun _ h => absurd h hsim, fun _ => rfl⟩

theorem read_runsAsOwn_iff :
    RunsAsOwn opts .read held row rest w ↔ MoveExact .read held row w := by
  by_cases hsize : 0 ≤ int32 (row.int .bytes_requested)
  · have hmembers : ∀ h, prepareMembers .read h row rest =
        some (.read (int32 (row.int .bytes_requested)) (row.int .descriptor)) := by
      intro h
      simp [prepareMembers, prepareReadMembers, newBuffer_int32 hsize]
    rw [runsAsOwn_iff_of_members rfl (hmembers _) (hmembers _), copyWith,
      processMembers_setCommon]
    simp only [setMove, ownWith, processMembers, ReplayModule.pid, rowCommon_executingPid,
      MoveExact, Allocates, movesTo, hsize, true_and]
    exact onDescriptor_replayed_iff
  · have hthrows : prepareMembers .read held row rest = none := by
      simp [prepareMembers, prepareReadMembers, newBuffer_eq_none fun h => hsize h.1]
    exact runsAsOwn_iff_of_throws rfl hthrows hsize

theorem pread_runsAsOwn_iff :
    RunsAsOwn opts .pread held row rest w ↔ MoveExact .pread held row w := by
  by_cases hsize : 0 ≤ int32 (row.int .bytes_requested)
  · have hmembers : ∀ h, prepareMembers .pread h row rest =
        some (.pread (int32 (row.int .bytes_requested)) (row.int .descriptor)
          (row.int .offset)) := by
      intro h
      simp [prepareMembers, prepareReadMembers, newBuffer_int32 hsize]
    exact iff_of_true (runsAsOwn_of_members rfl hmembers rfl fun _ _ _ => rfl)
      ⟨rfl, hsize, trivial⟩
  · have hthrows : prepareMembers .pread held row rest = none := by
      simp [prepareMembers, prepareReadMembers, newBuffer_eq_none fun h => hsize h.1]
    exact runsAsOwn_iff_of_throws rfl hthrows hsize

theorem mmappread_runsAsOwn_iff :
    RunsAsOwn opts .mmappread held row rest w ↔ MoveExact .mmappread held row w := by
  by_cases hsize : 0 ≤ int32 (row.int .bytes_requested)
  · have hmembers : ∀ h, prepareMembers .mmappread h row rest =
        some (.mmappread (int32 (row.int .bytes_requested)) (row.int .descriptor)
          (row.int .offset) (uint64 (row.int .address))) := by
      intro h
      simp [prepareMembers, prepareReadMembers, newBuffer_int32 hsize]
    rw [runsAsOwn_iff_of_members rfl (hmembers _) (hmembers _), copyWith,
      processMembers_setCommon]
    simp only [setMove, ownWith, processMembers, ReplayModule.pid, rowCommon_executingPid,
      MoveExact, Allocates, movesTo, hsize, true_and, mmappreadProcessRow,
      onDescriptor_eq_iff, keepsReturnValue, if_true]
    constructor
    · rintro ⟨-, h⟩ ⟨fd, hfd, hreal⟩
      have heq := h fd hfd hreal
      simp only [bind_apply, modifyArea, Option.bind_some, pure_apply, Option.some.injEq,
        Prod.mk.injEq, and_true] at heq
      exact heq.symm
    · intro h
      refine ⟨fun _ => trivial, ?_⟩
      intro fd hfd hreal
      rw [h ⟨fd, hfd, hreal⟩]
  · have hthrows : prepareMembers .mmappread held row rest = none := by
      simp [prepareMembers, prepareReadMembers, newBuffer_eq_none fun h => hsize h.1]
    exact runsAsOwn_iff_of_throws rfl hthrows hsize

theorem readlink_runsAsOwn_iff :
    RunsAsOwn opts .readlink held row rest w ↔ MoveExact .readlink held row w := by
  by_cases hsize : 0 ≤ row.int .buffer_size ∧ row.int .buffer_size ≤ longLongMax
  · have hmembers : ∀ h, prepareMembers .readlink h row rest =
        some (.readlink (row.int .buffer_size) (row.text .given_pathname)) := by
      intro h
      simp [prepareMembers, newBuffer_of_le hsize.1 hsize.2]
    exact iff_of_true (runsAsOwn_of_members rfl hmembers rfl fun _ _ _ => rfl)
      ⟨rfl, hsize, trivial⟩
  · have hthrows : prepareMembers .readlink held row rest = none := by
      simp [prepareMembers, newBuffer_eq_none hsize]
    exact runsAsOwn_iff_of_throws rfl hthrows hsize

theorem prepareIoctlBuffer_of_allocates (h : Allocates .ioctl row) :
    ∃ buffer, prepareIoctlBuffer row (uint64 (row.int .buffer_size)) = some buffer := by
  unfold prepareIoctlBuffer
  rcases h with hnull | hsize
  · rw [if_pos hnull]
    exact ⟨_, rfl⟩
  · split
    · exact ⟨_, rfl⟩
    · rw [newBuffer_of_le (uint64_nonneg _) hsize]
      exact ⟨_, rfl⟩

theorem prepareIoctlBuffer_eq_none (h : ¬Allocates .ioctl row) :
    prepareIoctlBuffer row (uint64 (row.int .buffer_size)) = none := by
  have hnot := not_or.mp h
  rw [prepareIoctlBuffer, if_neg hnot.1, newBuffer_eq_none fun hsize => hnot.2 hsize.2,
    Option.map_none]

theorem ioctl_runsAsOwn_iff :
    RunsAsOwn opts .ioctl held row rest w ↔ MoveExact .ioctl held row w := by
  by_cases hsize : Allocates .ioctl row
  · obtain ⟨buffer, hbuffer⟩ := prepareIoctlBuffer_of_allocates hsize
    have hmembers : ∀ h, prepareMembers .ioctl h row rest =
        some (.ioctl (row.int .descriptor) (row.int .request % 2 ^ 32)
          (uint64 (row.int .parameter)) buffer (uint64 (row.int .buffer_size))) := by
      intro h
      simp [prepareMembers, hbuffer]
    exact iff_of_true (runsAsOwn_of_members rfl hmembers rfl fun _ _ _ => rfl)
      ⟨rfl, hsize, trivial⟩
  · have hthrows : prepareMembers .ioctl held row rest = none := by
      simp [prepareMembers, prepareIoctlBuffer_eq_none hsize]
    exact runsAsOwn_iff_of_throws rfl hthrows hsize

theorem uint64_int32_eq_iff {n : Int} (h : 0 ≤ n) (h' : n ≤ longLongMax) :
    uint64 (int32 n) = n ↔ n < 2 ^ 31 := by
  have hlower := int32_lower n
  have hupper := int32_upper n
  constructor
  · intro heq
    unfold uint64 longLongMax at *
    omega
  · intro hlt
    rw [int32_eq_self (by omega) hlt, uint64_eq_self h (by omega)]

theorem prepareWriteMembers_of_allocates
    (h : uint64 (row.int .bytes_requested) ≤ longLongMax) :
    ∃ buffer, prepareWriteMembers row = some (buffer, uint64 (row.int .bytes_requested)) := by
  unfold prepareWriteMembers
  simp only [newBuffer_of_le (uint64_nonneg _) h]
  split
  · rename_i hzero
    exact ⟨_, by rw [hzero]; rfl⟩
  · exact ⟨_, rfl⟩

theorem prepareWriteMembers_eq_none
    (h : ¬uint64 (row.int .bytes_requested) ≤ longLongMax) : prepareWriteMembers row = none := by
  have hzero : uint64 (row.int .bytes_requested) ≠ 0 := by
    unfold longLongMax at h
    omega
  simp only [prepareWriteMembers, if_neg hzero, newBuffer_eq_none fun hsize => h hsize.2]
  rfl

theorem write_runsAsOwn_iff :
    RunsAsOwn opts .write held row rest w ↔ MoveExact .write held row w := by
  by_cases hsize : uint64 (row.int .bytes_requested) ≤ longLongMax
  · obtain ⟨buffer, hbuffer⟩ := prepareWriteMembers_of_allocates hsize
    have hmembers : ∀ h, prepareMembers .write h row rest =
        some (.write buffer (uint64 (row.int .bytes_requested)) (row.int .descriptor)) := by
      intro h
      simp [prepareMembers, hbuffer]
    rw [runsAsOwn_iff_of_members rfl (hmembers _) (hmembers _), copyWith,
      processMembers_setCommon]
    simp only [setMove, ownWith, processMembers, ReplayModule.pid, rowCommon_executingPid,
      MoveExact, Allocates, movesTo, hsize, true_and, writeProcessRow, onDescriptor_eq_iff,
      keepsReturnValue, if_true, pure_eq_iff, intSyscall_eq_iff]
    rw [eq_comm (a := 0)]
    apply and_congr_right
    intro _
    constructor
    · rintro h ⟨fd, hfd, hreal⟩
      have heq := h fd hfd hreal
      rw [SystemCall.write.injEq] at heq
      exact (uint64_int32_eq_iff (uint64_nonneg _) hsize).mp heq.2.2
    · intro h fd hfd hreal
      rw [(uint64_int32_eq_iff (uint64_nonneg _) hsize).mpr (h ⟨fd, hfd, hreal⟩)]
  · have hthrows : prepareMembers .write held row rest = none := by
      simp [prepareMembers, prepareWriteMembers_eq_none hsize]
    exact runsAsOwn_iff_of_throws rfl hthrows hsize

theorem pwrite_eq_iff {fd n off : Int} {buffer : Buffer} (h : 0 ≤ n) (h' : n ≤ longLongMax)
    (world : World) :
    (if opts.patternData.isEmpty then
        intSyscall (.pwrite fd buffer (uint64 (int32 n)) off)
      else do
        let size ← (newBuffer (uint64 (int32 n)) : Option Int)
        intSyscall (.pwrite fd ⟨size, patternFill opts.patternData⟩ (uint64 (int32 n)) off))
        world =
      (if opts.patternData.isEmpty then intSyscall (.pwrite fd buffer n off)
      else do
        let size ← (newBuffer n : Option Int)
        intSyscall (.pwrite fd ⟨size, patternFill opts.patternData⟩ n off)) world ↔
      n < 2 ^ 31 := by
  rw [← uint64_int32_eq_iff h h']
  split
  · rw [intSyscall_eq_iff, SystemCall.pwrite.injEq]
    simp
  · rw [newBuffer_of_le h h']
    by_cases hfits : uint64 (int32 n) ≤ longLongMax
    · rw [newBuffer_of_le (uint64_nonneg _) hfits]
      show intSyscall _ _ = intSyscall _ _ ↔ _
      rw [intSyscall_eq_iff, SystemCall.pwrite.injEq]
      simp
    · rw [newBuffer_eq_none fun hsize => hfits hsize.2]
      constructor
      · intro heq
        cases heq
      · intro heq
        rw [heq] at hfits
        exact absurd h' hfits

theorem pwrite_runsAsOwn_iff :
    RunsAsOwn opts .pwrite held row rest w ↔ MoveExact .pwrite held row w := by
  by_cases hsize : uint64 (row.int .bytes_requested) ≤ longLongMax
  · obtain ⟨buffer, hbuffer⟩ := prepareWriteMembers_of_allocates hsize
    have hmembers : ∀ h, prepareMembers .pwrite h row rest =
        some (.pwrite buffer (uint64 (row.int .bytes_requested)) (row.int .descriptor)
          (row.int .offset)) := by
      intro h
      simp [prepareMembers, hbuffer]
    rw [runsAsOwn_iff_of_members rfl (hmembers _) (hmembers _), copyWith,
      processMembers_setCommon]
    simp only [setMove, ownWith, processMembers, ReplayModule.pid, rowCommon_executingPid,
      MoveExact, Allocates, movesTo, hsize, true_and, pwriteProcessRow, onDescriptor_eq_iff,
      implies_true]
    constructor
    · rintro h ⟨fd, hfd, hreal⟩
      exact (pwrite_eq_iff (uint64_nonneg _) hsize w).mp (h fd hfd hreal)
    · intro h fd hfd hreal
      exact (pwrite_eq_iff (uint64_nonneg _) hsize w).mpr (h ⟨fd, hfd, hreal⟩)
  · have hthrows : prepareMembers .pwrite held row rest = none := by
      simp [prepareMembers, prepareWriteMembers_eq_none hsize]
    exact runsAsOwn_iff_of_throws rfl hthrows hsize

theorem openProcessRow_run {pid flags tracedFd : Int} {pathname : String}
    {modeVal umask : BitVec 32} (h : w.manager.getUmask pid = some umask) :
    let call := SystemCall.open_ pathname flags (modeVal &&& ~~~umask)
    let replayed := int32 (w.answer call)
    openProcessRow pid pathname modeVal flags tracedFd w =
      if tracedFd ≤ -1 ∧ replayed ≠ -1 then
        some (replayed, (w.serve call).serve (.close replayed))
      else
        (addFd pid tracedFd replayed (BitVec.ofInt 32 flags) (w.serve call)).map fun result =>
          (replayed, result.2) := by
  intro call replayed
  unfold openProcessRow
  rw [bind_of_eq_some (getMode_run h modeVal), bind_of_eq_some (intSyscall_apply call w)]
  split
  · rfl
  · dsimp only
    rw [bind_apply]
    cases addFd pid tracedFd replayed (BitVec.ofInt 32 flags) (w.serve call) <;> rfl

theorem int32_answer_open (pathname : String) (flags : Int) (mode : BitVec 32) :
    int32 (w.answer (.open_ pathname flags mode)) =
      if opens w.openFds w.reply.value 0 then w.reply.value else -1 := by
  have hanswer : w.answer (.open_ pathname flags mode) =
      (opened w.openFds w.reply.value 0).1 := rfl
  rw [hanswer]
  rcases opened_cases w.openFds w.reply.value 0 with ⟨hopens, heq⟩ | ⟨hopens, heq⟩
  · obtain ⟨hlower, hupper, -, -⟩ := opens_iff.mp hopens
    rw [heq, hopens, if_pos rfl]
    exact int32_eq_self (by omega) hupper
  · rw [heq, hopens]
    rfl

theorem openProcessRow_eq_iff {pid flags ret : Int} {pathname : String} {modeVal : BitVec 32} :
    openProcessRow pid pathname modeVal flags (int32 ret) w =
        openProcessRow pid pathname modeVal flags ret w ↔
      w.manager.getUmask pid = none ∨ opens w.openFds w.reply.value 0 = false ∨
        (ret ≤ -1 ↔ int32 ret ≤ -1) := by
  cases humask : w.manager.getUmask pid with
  | none =>
      have hnone : ∀ tracedFd, openProcessRow pid pathname modeVal flags tracedFd w = none := by
        intro tracedFd
        exact bind_of_eq_none (getMode_of_none humask modeVal) _
      simp [hnone]
  | some umask =>
      rw [openProcessRow_run humask, openProcessRow_run humask]
      simp only [addFd_int32, int32_answer_open, reduceCtorEq, false_or]
      cases hopens : opens w.openFds w.reply.value 0 with
      | false => simp
      | true =>
          have hopened := (opens_iff.mp hopens).1
          have hne : w.reply.value ≠ -1 := by omega
          simp only [if_true, hne, ne_eq, not_false_eq_true, and_true, Bool.true_eq_false,
            false_or]
          -- one run closes the descriptor and the other maps it, so the calls issued differ
          have hcalls : ∀ (call : SystemCall) (x : Int),
              (some (x, (w.serve call).serve (.close x)) : Option (Int × World)) ≠
                (addFd pid ret x (BitVec.ofInt 32 flags) (w.serve call)).map fun result =>
                  (x, result.2) := by
            intro call x heq
            obtain ⟨⟨_, w'⟩, hadd, hw'⟩ := Option.map_eq_some_iff.mp heq.symm
            obtain ⟨_, _, _, _, rfl⟩ := addFd_eq_some hadd
            have hissued := congrArg (fun r => r.2.issued.length) hw'
            simp at hissued
          by_cases hneg : int32 ret ≤ -1
          · by_cases hneg' : ret ≤ -1
            · simp [hneg, hneg']
            · simp only [hneg, hneg', if_true, if_false, iff_true, iff_false]
              exact fun heq => hcalls _ _ heq
          · by_cases hneg' : ret ≤ -1
            · simp only [hneg, hneg', if_true, if_false, iff_false, not_true]
              exact fun heq => hcalls _ _ heq.symm
            · simp [hneg, hneg']

theorem open_runsAsOwn_iff :
    RunsAsOwn opts .open_ held row rest w ↔ MoveExact .open_ held row w := by
  rw [runsAsOwn_iff_of_members rfl rfl rfl, copyWith, processMembers_setCommon]
  simp only [setMove, ownWith, processMembers, ReplayModule.pid, rowCommon_executingPid,
    MoveExact, Allocates, movesTo, true_and]
  exact openProcessRow_eq_iff

theorem execveProcessRow_of_unmapped {pid : Int} (h : w.table pid = none)
    (replayed retVal : Int) : execveProcessRow pid replayed retVal w = none := by
  have hget : w.manager.fdTableMap.get pid = none := h
  apply bind_of_eq_none
  simp [getAllTracedFds, queryManager, Manager.getAllTracedFds, hget]

theorem execve_eq_iff {pid held ret : Int} :
    execveProcessRow pid 0 held w = execveProcessRow pid 0 ret w ↔
      (0 ≤ held ↔ 0 ≤ ret) ∨ ∀ t (k : Int) e, w.table pid = some t → t[k]? = some e →
        closesOnExec e.flags = true → e.fd = syscallSimulated := by
  cases ht : w.table pid with
  | none => simp [execveProcessRow_of_unmapped ht]
  | some t =>
      obtain ⟨t₁, hrun₁, ht₁⟩ := execveProcessRow_run ht 0 held
      obtain ⟨t₂, hrun₂, ht₂⟩ := execveProcessRow_run ht 0 ret
      rw [hrun₁, hrun₂]
      constructor
      · intro heq
        have hworlds := (Prod.mk.inj (Option.some.inj heq)).2
        have htables : t₁ = t₂ := by
          have hsame := congrArg (fun w => World.table w pid) hworlds
          simp only [World.table_setTable_self ht] at hsame
          exact Option.some.inj hsame
        by_contra hnot
        rw [not_or] at hnot
        obtain ⟨hsign, hall⟩ := hnot
        apply hall
        intro s k e hs he hcloses
        obtain rfl := Option.some.inj hs
        by_contra hreal
        have hkept := ht₁ k
        rw [htables, ht₂, he] at hkept
        simp only [Option.filter_some, keptByExecve, hcloses, hreal, decide_false, Bool.or_false,
          Bool.true_and] at hkept
        by_cases hheld : 0 ≤ held <;> by_cases hret : 0 ≤ ret <;> simp_all
      · intro hcase
        have htables : t₁ = t₂ := by
          apply ExtTreeMap.ext_getElem?
          intro k
          rw [ht₁, ht₂]
          cases he : t[k]? with
          | none => rfl
          | some e =>
              have hkept : keptByExecve held e = keptByExecve ret e := by
                unfold keptByExecve
                rcases hcase with hsign | hall
                · rw [decide_eq_decide.mpr hsign]
                · cases hcloses : closesOnExec e.flags with
                  | false => rfl
                  | true => rw [hall t k e rfl he hcloses]; simp
              rw [Option.filter_some, Option.filter_some, hkept]
        rw [htables]

theorem execve_runsAsOwn_iff :
    RunsAsOwn opts .execve held row rest w ↔ MoveExact .execve held row w := by
  rw [runsAsOwn_iff_of_members rfl rfl rfl, copyWith, processMembers_setCommon]
  simp only [setMove, ownWith, processMembers, ReplayModule.pid, rowCommon_executingPid,
    MoveExact, Allocates, movesTo, true_and]
  exact execve_eq_iff

end

/-- The queued copy runs as the module does exactly where the class has its own
`move`, the buffer can be had and nothing that `processRow` reads is lost. -/
theorem runsAsOwn_iff_moveExact (opts : Options) (kind : SysCallKind) (held : Int) (row : Row)
    (rest : List Row) (w : World) :
    RunsAsOwn opts kind held row rest w ↔ MoveExact kind held row w := by
  by_cases hmove : movesTo kind = some kind
  · cases kind
    case open_ => exact open_runsAsOwn_iff
    case close => exact close_runsAsOwn_iff
    case read => exact read_runsAsOwn_iff
    case pread => exact pread_runsAsOwn_iff
    case mmappread => exact mmappread_runsAsOwn_iff
    case write => exact write_runsAsOwn_iff
    case pwrite => exact pwrite_runsAsOwn_iff
    case lseek => exact lseek_runsAsOwn_iff
    case fstat => exact fstat_runsAsOwn_iff
    case readlink => exact readlink_runsAsOwn_iff
    case ioctl => exact ioctl_runsAsOwn_iff
    case execve => exact execve_runsAsOwn_iff
    case getdents => exact iff_of_true getdents_runsAsOwn ⟨rfl, trivial, trivial⟩
    all_goals
      first
      | exact iff_of_true (runsAsOwn_of_keepsAll rfl) ⟨rfl, trivial, trivial⟩
      | nomatch hmove
  · constructor
    · intro h
      exact absurd h (not_runsAsOwn hmove)
    · rintro ⟨h, -⟩
      exact absurd h hmove

def emptyWorld : World where
  manager := ⟨.empty, .empty, ∅⟩
  openFds := ∅
  replies _ := ⟨0, 0, (0, 0)⟩
  issued := []
  errno := 0
  vmAreas := ∅
  threads := []

end SyscallReplayer.SnapshotFidelity
