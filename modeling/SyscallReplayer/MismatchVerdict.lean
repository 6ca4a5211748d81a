import SyscallReplayer.ResourceSteps
import SyscallReplayer.SimulatedDescriptors

/-!
# The verdict on a replayed value

`after_sys_call` compares the traced value with the replayed one. A queued copy
holds the traced value as an `int`, the module itself holds all of it, and both
keep the replayed value as an `int`.
-/

namespace SyscallReplayer.MismatchVerdict

open CInt SharedEntries ReplayKernel ResourcesManager ReplayWorld ReplayModules
open StatePrograms TransitionSystem SnapshotFidelity World ReplayRuns SimulatedDescriptors

/-- The two worlds answer every call alike. -/
structure SameKernel (w w' : World) : Prop where
  openFds : w'.openFds = w.openFds
  replies : w'.replies = w.replies
  issued : w'.issued = w.issued
  errno : w'.errno = w.errno

namespace SameKernel

variable {w w' w'' : World}

theorem refl (w : World) : SameKernel w w :=
  ⟨rfl, rfl, rfl, rfl⟩

theorem trans (h : SameKernel w w') (h' : SameKernel w' w'') : SameKernel w w'' :=
  ⟨h'.openFds.trans h.openFds, h'.replies.trans h.replies, h'.issued.trans h.issued,
    h'.errno.trans h.errno⟩

theorem reply (h : SameKernel w w') : w'.reply = w.reply := by
  unfold World.reply
  rw [h.replies, h.issued]

theorem answer (h : SameKernel w w') (call : SystemCall) : w'.answer call = w.answer call := by
  unfold World.answer
  rw [h.openFds, h.reply]

theorem serve_errno (h : SameKernel w w') (call : SystemCall) :
    (w'.serve call).errno = (w.serve call).errno := by
  show (if w'.answer call = -1 then w'.reply.errno else w'.errno) = _
  rw [h.answer, h.reply, h.errno]
  rfl

end SameKernel

/-- Every finished run of the program issues no call. -/
def Quiet {α : Type} (program : Replay α) : Prop :=
  ∀ ⦃w a w'⦄, program w = some (a, w') → SameKernel w w'

namespace Quiet

variable {α β : Type}

theorem pure (a : α) : Quiet (pure a) := by
  intro w b w' h
  obtain rfl := (Prod.mk.inj (Option.some.inj h)).2
  exact .refl w

theorem bind {m : Replay α} {f : α → Replay β} (hm : Quiet m) (hf : ∀ a, Quiet (f a)) :
    Quiet (m >>= f) := by
  intro w b w' h
  obtain ⟨a, v, hmv, hfv⟩ := bind_eq_some.mp h
  exact (hm hmv).trans (hf a hfv)

theorem ite {c : Prop} [Decidable c] {m m' : Replay α} (hm : Quiet m) (hm' : Quiet m') :
    Quiet (if c then m else m') := by
  split
  · exact hm
  · exact hm'

theorem lift (o : Option α) : Quiet (liftM o) := by
  intro w a w' h
  obtain ⟨-, rfl⟩ := lift_eq_some.mp h
  exact .refl w'

theorem queryManager (f : Manager → Option α) : Quiet (queryManager f) := by
  intro w a w' h
  obtain ⟨b, -, heq⟩ := Option.map_eq_some_iff.mp h
  obtain rfl := (Prod.mk.inj heq).2
  exact .refl w

theorem changeManager (f : Manager → Option (α × Manager)) : Quiet (changeManager f) := by
  intro w a w' h
  obtain ⟨result, -, heq⟩ := Option.map_eq_some_iff.mp h
  obtain rfl := (Prod.mk.inj heq).2
  exact ⟨rfl, rfl, rfl, rfl⟩

theorem updateManager (f : Manager → Option Manager) : Quiet (updateManager f) :=
  changeManager fun m => (f m).map fun m' => ((), m')

theorem forM {f : α → Replay PUnit} (l : List α) (h : ∀ a, Quiet (f a)) : Quiet (l.forM f) := by
  induction l with
  | nil => exact pure PUnit.unit
  | cons a l ih => exact bind (h a) fun _ => ih

theorem getMode (pid : Int) (mode : BitVec 32) : Quiet (getMode pid mode) :=
  bind (queryManager _) fun umask => pure (mode &&& ~~~umask)

theorem addFd (pid tracedFd replayedFd : Int) (flags : BitVec 32) :
    Quiet (addFd pid tracedFd replayedFd flags) :=
  updateManager fun m => m.addFd pid (int32 tracedFd) replayedFd flags

theorem modifyArea (pid : Int) (f : List VirtualAddressSpace.VMNode → List _) :
    Quiet (modifyArea pid f) := by
  intro w a w' h
  obtain rfl := (Prod.mk.inj (Option.some.inj h)).2
  exact ⟨rfl, rfl, rfl, rfl⟩

end Quiet

/-- What a program leaves when its first call is the one it replays. -/
structure Replayed (w : World) (replayed : Int) (w' : World) (call : SystemCall)
    (later : List SystemCall) : Prop where
  issued : w'.issued = w.issued ++ call :: later
  value : replayed = int32 (w.answer call)
  errno : replayed = -1 → w'.errno = (w.serve call).errno

/-- A finished run issues nothing, or its value is that of the first call, whose
error number stands when the value is `-1`. -/
def Replays (program : Replay Int) : Prop :=
  ∀ ⦃w replayed w'⦄, program w = some (replayed, w') →
    w'.issued = w.issued ∨ ∃ call later, Replayed w replayed w' call later

/-- What may follow the call: the value is returned, and a failure is the last call. -/
def Ends (replayed : Int) (program : Replay Int) : Prop :=
  ∀ ⦃w value w'⦄, program w = some (value, w') →
    value = replayed ∧ (∃ later, w'.issued = w.issued ++ later) ∧
      (replayed = -1 → w'.errno = w.errno)

theorem Ends.pure (replayed : Int) : Ends replayed (pure replayed) := by
  intro w value w' h
  obtain ⟨rfl, rfl⟩ := Prod.mk.inj (Option.some.inj h)
  exact ⟨rfl, ⟨[], (List.append_nil _).symm⟩, fun _ => rfl⟩

theorem Ends.quiet_bind {α : Type} {m : Replay α} {replayed : Int} {f : α → Replay Int}
    (hm : Quiet m) (hf : ∀ a, Ends replayed (f a)) : Ends replayed (m >>= f) := by
  intro w value w' h
  obtain ⟨a, v, hmv, hfv⟩ := bind_eq_some.mp h
  obtain ⟨hvalue, ⟨later, hissued⟩, herrno⟩ := hf a hfv
  have hsame := hm hmv
  refine ⟨hvalue, ⟨later, ?_⟩, fun hfailed => (herrno hfailed).trans hsame.errno⟩
  rw [hissued, hsame.issued]

theorem Ends.close {replayed : Int} (h : replayed ≠ -1) :
    Ends replayed (syscall (.close replayed) >>= fun _ => Pure.pure replayed) := by
  intro w value w' hrun
  obtain ⟨rfl, _, hclose⟩ := bind_pure_eq_some.mp hrun
  obtain rfl := (Prod.mk.inj (Option.some.inj hclose)).2
  exact ⟨rfl, ⟨[.close value], rfl⟩, fun hfailed => absurd hfailed h⟩

theorem Ends.closeOrAdd {replayed : Int} (failed : Prop) [Decidable failed] (pid tracedFd : Int)
    (flags : BitVec 32) :
    Ends replayed (do
      if failed ∧ replayed ≠ -1 then
        let _ ← syscall (.close replayed)
      else
        addFd pid tracedFd replayed flags
      return replayed) := by
  dsimp only
  split
  · rename_i htraced
    exact .close htraced.2
  · exact .quiet_bind (.addFd _ _ _ _) fun _ => .pure _

namespace Replays

theorem of_quiet {program : Replay Int} (h : Quiet program) : Replays program := by
  intro w replayed w' hrun
  exact .inl (h hrun).issued

theorem pure (value : Int) : Replays (pure value) :=
  of_quiet (.pure value)

theorem quiet_bind {α : Type} {m : Replay α} {f : α → Replay Int} (hm : Quiet m)
    (hf : ∀ a, Replays (f a)) : Replays (m >>= f) := by
  intro w replayed w' h
  obtain ⟨a, v, hmv, hfv⟩ := bind_eq_some.mp h
  have hsame := hm hmv
  rcases hf a hfv with hissued | ⟨call, later, hissued, hvalue, herrno⟩
  · exact .inl (hissued.trans hsame.issued)
  · refine .inr ⟨call, later, ?_, ?_, fun hfailed => ?_⟩
    · rw [hissued, hsame.issued]
    · rw [hvalue, hsame.answer]
    · rw [herrno hfailed, hsame.serve_errno]

theorem ite {c : Prop} [Decidable c] {m m' : Replay Int} (hm : Replays m) (hm' : Replays m') :
    Replays (if c then m else m') := by
  split
  · exact hm
  · exact hm'

theorem intSyscall_bind (call : SystemCall) {f : Int → Replay Int}
    (hf : ∀ replayed, Ends replayed (f replayed)) : Replays (intSyscall call >>= f) := by
  intro w replayed w' h
  obtain ⟨value, v, hcall, hrest⟩ := bind_eq_some.mp h
  obtain ⟨rfl, rfl⟩ := Prod.mk.inj (Option.some.inj hcall)
  obtain ⟨hvalue, ⟨later, hissued⟩, herrno⟩ := hf _ hrest
  refine .inr ⟨call, later, ?_, hvalue, fun hfailed => herrno (hvalue.symm.trans hfailed)⟩
  rw [hissued, serve_issued, List.append_assoc]
  rfl

theorem intSyscall (call : SystemCall) : Replays (intSyscall call) := by
  intro w replayed w' h
  obtain ⟨rfl, rfl⟩ := Prod.mk.inj (Option.some.inj h)
  exact .inr ⟨call, [], rfl, rfl, fun _ => rfl⟩

theorem onDescriptor (pid tracedFd : Int) {simulated : Replay Int} {real : Int → Replay Int}
    (hsimulated : Replays simulated) (hreal : ∀ fd, Replays (real fd)) :
    Replays (onDescriptor pid tracedFd simulated real) :=
  quiet_bind (.queryManager _) fun fd => ite hsimulated (hreal fd)

theorem atDirectory (pid tracedFd : Int) (pathname : String) (simulated : Int)
    {real : Int → Replay Int} (hreal : ∀ fd, Replays (real fd)) :
    Replays (atDirectory pid tracedFd pathname simulated real) :=
  quiet_bind (.queryManager _) fun fd => ite (pure _) (hreal fd)

end Replays

/-- The members of the calls that replay nothing of their own. -/
def startsOrEnds : Members → Bool
  | .exit _ _ | .mmap _ _ _ _ _ _ _ | .clone _ _ _ _ _ | .vfork => true
  | _ => false

section

open Replays

theorem replays_open (pid flags tracedFd : Int) (pathname : String) (modeVal : BitVec 32) :
    Replays (openProcessRow pid pathname modeVal flags tracedFd) :=
  quiet_bind (.getMode _ _) fun _ => intSyscall_bind _ fun _ => .closeOrAdd _ _ _ _

theorem replays_openat (pid : Int) (row : Row) : Replays (openatProcessRow pid row) :=
  quiet_bind (.queryManager _) fun _ => quiet_bind (.getMode _ _) fun _ =>
    ite (pure _) (intSyscall_bind _ fun _ => .closeOrAdd _ _ _ _)

theorem replays_dup (pid returnValue fileDescriptor : Int) :
    Replays (dupProcessRow pid returnValue fileDescriptor) := by
  refine quiet_bind (.queryManager _) fun fd => quiet_bind (.queryManager _) fun flags => ?_
  dsimp only
  split
  · exact quiet_bind (.pure _) fun _ => quiet_bind (.addFd _ _ _ _) fun _ => pure _
  · exact intSyscall_bind _ fun _ => .quiet_bind (.addFd _ _ _ _) fun _ => .pure _

theorem replays_duplicateTo (pid returnValue oldFd newFd : Int)
    (newFdFlags : BitVec 32 → BitVec 32) (call : Int → Int → SystemCall) :
    Replays (duplicateTo pid returnValue oldFd newFd newFdFlags call) := by
  refine quiet_bind (.queryManager _) fun fd => quiet_bind (.queryManager _) fun flags =>
    quiet_bind (.queryManager _) fun has => ?_
  dsimp only
  have hcall : ∀ target : Int, Replays (ReplayWorld.intSyscall (call fd target) >>= fun replayed =>
      ReplayWorld.addFd pid returnValue replayed (newFdFlags flags) >>= fun _ =>
        Pure.pure replayed) := fun target =>
    intSyscall_bind _ fun _ => .quiet_bind (.addFd _ _ _ _) fun _ => .pure _
  split
  · refine quiet_bind (.changeManager _) fun replayedNewFd => ite ?_ (ite ?_ ?_)
    · exact quiet_bind (.addFd _ _ _ _) fun _ => pure _
    · exact quiet_bind (.queryManager _) hcall
    · exact quiet_bind (.pure _) hcall
  · refine quiet_bind (.pure _) fun replayedNewFd => ite ?_ (ite ?_ ?_)
    · exact quiet_bind (.addFd _ _ _ _) fun _ => pure _
    · exact quiet_bind (.queryManager _) hcall
    · exact quiet_bind (.pure _) hcall

theorem replays_fcntl
    (pid returnValue tracedFd command argVal type whence start length lockPid : Int) :
    Replays (fcntlProcessRow pid returnValue tracedFd command argVal type whence start
      length lockPid) := by
  refine quiet_bind (.queryManager _) fun fd => intSyscall_bind _ fun replayed =>
    .quiet_bind ?_ fun _ => .pure _
  refine .ite (.bind (.queryManager _) fun flags => .addFd _ _ _ _) ?_
  exact .ite (.ite (.updateManager _) (.pure _)) (.pure _)

theorem quiet_execve (pid replayed retVal : Int) :
    Quiet (execveProcessRow pid replayed retVal) := by
  refine .bind (.queryManager _) fun fds => .bind (.forM fds fun k => ?_) fun _ => .pure _
  refine .bind (.queryManager _) fun flags => .bind (.queryManager _) fun fd => ?_
  have hremove : Quiet (ReplayWorld.removeFd pid k >>= fun _ => Pure.pure PUnit.unit) :=
    .bind (.changeManager _) fun _ => .pure _
  have hsimulated : Quiet (if fd = syscallSimulated then
      if closesOnExec flags then ReplayWorld.removeFd pid k >>= fun _ => Pure.pure PUnit.unit
      else Pure.pure () else Pure.pure ()) :=
    .ite (.ite hremove (.pure _)) (.pure _)
  dsimp only
  split
  · exact .bind (.changeManager _) fun _ => hsimulated
  · exact hsimulated

theorem replays_processMembers (opts : Options) (m : ReplayModule)
    (h : startsOrEnds m.members = false) : Replays (processMembers opts m) := by
  obtain ⟨kind, c, replayed, members⟩ := m
  cases members
  case none | chroot => exact pure _
  case open_ => exact replays_open _ _ _ _ _
  case close => exact quiet_bind (.changeManager _) fun _ => ite (pure _) (intSyscall _)
  case read | pread | write | lseek | fchdir | fstat | fstatat | fsync | fdatasync | fallocate |
      readahead | ioctl =>
    exact onDescriptor _ _ (pure _) fun fd => intSyscall _
  case mmappread =>
    exact onDescriptor _ _ (pure _) fun fd => quiet_bind (.modifyArea _ _) fun _ => pure _
  case pwrite =>
    refine onDescriptor _ _ (pure _) fun fd => ite (intSyscall _) ?_
    exact quiet_bind (.lift _) fun size => intSyscall _
  case access | mkdir | chmod => exact quiet_bind (.getMode _ _) fun mode => intSyscall _
  case chdir | link | unlink | rmdir | stat | lstat | statfs | readlink | chown | rename =>
    exact intSyscall _
  case utime => exact ite (intSyscall _) (intSyscall _)
  case fchmod =>
    exact quiet_bind (.queryManager _) fun fd => quiet_bind (.getMode _ _) fun mode =>
      ite (pure _) (intSyscall _)
  case pipe =>
    exact intSyscall_bind _ fun _ => .quiet_bind (.addFd _ _ _ _) fun _ =>
      .quiet_bind (.addFd _ _ _ _) fun _ => .pure _
  case dup => exact replays_dup _ _ _
  case dup2 | dup3 => exact replays_duplicateTo _ _ _ _ _ _
  case fcntl => exact replays_fcntl _ _ _ _ _ _ _ _ _ _
  case execve => exact of_quiet (quiet_execve _ _ _)
  case munmap => exact quiet_bind (.modifyArea _ _) fun _ => pure _
  case getdents =>
    exact onDescriptor _ _ (pure _) fun fd => quiet_bind (.lift _) fun count => intSyscall _
  case umask => exact quiet_bind (.updateManager _) fun _ => pure _
  case ftruncate => exact quiet_bind (.queryManager _) fun fd => intSyscall _
  case socket | epoll_create | accept =>
    exact ite (quiet_bind (.addFd _ _ _ _) fun _ => pure _) (pure _)
  case socketpair =>
    exact quiet_bind (.addFd _ _ _ _) fun _ => quiet_bind (.addFd _ _ _ _) fun _ => pure _
  case accept4 =>
    simp only [processMembers, accept4ProcessRow]
    split
    · exact quiet_bind (.addFd _ _ _ _) fun _ => pure _
    · exact pure _
  case exit | mmap | clone | vfork => cases h

theorem replays_processCurrentRow (opts : Options) (m : ReplayModule) (row : Row)
    (rest : List Row) (program : Replay Int)
    (h : processCurrentRow opts m row rest = some program) : Replays program := by
  obtain ⟨kind, c, replayed, members⟩ := m
  cases kind
  case openat =>
    obtain rfl := Option.some.inj h
    exact replays_openat _ _
  case creat =>
    obtain rfl := Option.some.inj h
    exact quiet_bind (.getMode _ _) fun _ => intSyscall_bind _ fun _ =>
      .quiet_bind (.addFd _ _ _ _) fun _ => .pure _
  case faccessat | mkdirat | fchmodat =>
    obtain rfl := Option.some.inj h
    exact quiet_bind (.queryManager _) fun fd => quiet_bind (.getMode _ _) fun mode =>
      ite (pure _) (intSyscall _)
  case unlinkat =>
    obtain rfl := Option.some.inj h
    exact atDirectory _ _ _ _ fun dirfd => intSyscall _
  case linkat =>
    obtain rfl := Option.some.inj h
    exact quiet_bind (.queryManager _) fun oldFd => quiet_bind (.queryManager _) fun newFd =>
      ite (pure _) (intSyscall _)
  case utimes | truncate | symlink =>
    obtain rfl := Option.some.inj h
    exact intSyscall _
  case utimensat =>
    obtain rfl := Option.some.inj h
    exact quiet_bind (.queryManager _) fun dirfd => ite (pure _) (intSyscall _)
  case fstatfs =>
    obtain rfl := Option.some.inj h
    exact onDescriptor _ _ (pure _) fun fd => intSyscall _
  case mknod =>
    obtain rfl := Option.some.inj h
    exact quiet_bind (.getMode _ _) fun mode => intSyscall _
  case readv | writev =>
    obtain rfl := Option.some.inj h
    exact quiet_bind (.queryManager _) fun fd => quiet_bind (.lift _) fun count =>
      ite (pure _) (intSyscall _)
  case setxattr | lsetxattr =>
    obtain rfl := Option.some.inj h
    exact quiet_bind (.lift _) fun value => intSyscall _
  case fsetxattr =>
    obtain rfl := Option.some.inj h
    exact onDescriptor _ _ (pure _) fun fd => quiet_bind (.lift _) fun value => intSyscall _
  all_goals exact nomatch h

end

theorem startsOrEnds_of_prepareMembers {kind : SysCallKind} {held : Int} {row : Row}
    {rest : List Row} {members : Members} (h : prepareMembers kind held row rest = some members)
    (hkind : kind ≠ .exit ∧ kind ≠ .mmap ∧ kind ≠ .clone ∧ kind ≠ .vfork) :
    startsOrEnds members = false := by
  obtain ⟨hexit, hmmap, hclone, hvfork⟩ := hkind
  cases members
  case exit => exact absurd (kind_of_ownKind h rfl) hexit
  case mmap => exact absurd (kind_of_ownKind h rfl) hmmap
  case clone => exact absurd (kind_of_ownKind h rfl) hclone
  case vfork => exact absurd (kind_of_ownKind h rfl) hvfork
  all_goals rfl

theorem startsOrEnds_setMove (members : Members) :
    startsOrEnds (setMove members) = startsOrEnds members := by
  cases members <;> rfl

theorem replays_module {opts : Options} {a : Execution} {m : ReplayModule} {row : Row}
    {rest : List Row} (hm : a.module = some m)
    (hkind : a.kind ≠ .exit ∧ a.kind ≠ .mmap ∧ a.kind ≠ .clone ∧ a.kind ≠ .vfork) :
    Replays (processRow opts m row rest) := by
  obtain ⟨members, hprepared, hmembers⟩ := members_of_module hm
  have hnone : startsOrEnds m.members = false := by
    have hprepares := startsOrEnds_of_prepareMembers hprepared hkind
    rcases hmembers with heq | heq
    · rw [heq, hprepares]
    · rw [heq, startsOrEnds_setMove, hprepares]
  exact processRow_cases (replays_processMembers opts m hnone)
    (replays_processCurrentRow opts m row rest)

/-- The traced value that the module compares. -/
def seenReturn (a : Execution) : Int :=
  if a.queued then int32 a.returnValue else a.returnValue

theorem movesTo_isReplayable {kind kind' : SysCallKind} (h : movesTo kind = some kind') :
    isReplayable kind' = isReplayable kind := by
  cases kind <;> cases h <;> rfl

theorem common_of_module {a : Execution} {m : ReplayModule} (h : a.module = some m) :
    m.common.returnVal = seenReturn a ∧ m.common.errorNo = a.row.int .errno_number ∧
      isReplayable m.sysCallName = isReplayable a.kind := by
  obtain ⟨members, -, hmoved⟩ := module_eq_some h
  unfold seenReturn
  split at hmoved
  · rename_i hqueued
    obtain ⟨kind, hkind, rfl⟩ := Option.map_eq_some_iff.mp hmoved
    rw [if_pos hqueued]
    exact ⟨congrArg int32 (rowCommon_returnVal a.kind a.row), rowCommon_errorNo a.kind a.row,
      movesTo_isReplayable hkind⟩
  · rename_i hown
    obtain rfl := Option.some.inj hmoved
    rw [if_neg hown]
    exact ⟨rowCommon_returnVal a.kind a.row, rowCommon_errorNo a.kind a.row, rfl⟩

/-- The call that replays the record. `clone` and `vfork` start a thread, and the
descriptors that they duplicate for it are no replay of their own. -/
def replayedCall (a : Execution) (w w' : World) : Option SystemCall :=
  if a.kind = .clone ∨ a.kind = .vfork then none else w'.issued[w.issued.length]?

theorem replayed_of_replayedCall {opts : Options} {a : Execution} {m : ReplayModule}
    {w w' : World} {replayed : Int} {call : SystemCall} (hm : a.module = some m)
    (hreplayable : isReplayable a.kind = true)
    (hrun : processRow opts m a.position.1 a.position.2 w = some (replayed, w'))
    (hcall : replayedCall a w w' = some call) :
    replayed = int32 (w.answer call) ∧ (replayed = -1 → w'.errno = (w.serve call).errno) := by
  unfold replayedCall at hcall
  split at hcall
  · cases hcall
  · rename_i hstarts
    rw [not_or] at hstarts
    have hends : a.kind ≠ .exit ∧ a.kind ≠ .mmap := by
      constructor
      · intro hkind
        rw [hkind] at hreplayable
        cases hreplayable
      · intro hkind
        rw [hkind] at hreplayable
        cases hreplayable
    rcases replays_module hm ⟨hends.1, hends.2, hstarts⟩ hrun with hissued | ⟨first, later, hfirst⟩
    · rw [hissued, List.getElem?_length] at hcall
      cases hcall
    · rw [hfirst.issued, List.getElem?_append_right le_rfl, Nat.sub_self] at hcall
      obtain rfl := Option.some.inj hcall
      exact ⟨hfirst.value, hfirst.errno⟩

/-- A mismatch is reported by a warning or by `abort`. -/
def Reported (opts : Options) (m : ReplayModule) (replayed : Int) (w : World) : Prop :=
  afterSysCall opts m replayed w ≠ some (none, w)

/-- The values differ, or both are `-1` and the error numbers differ. -/
def Differs (traced value errorNo errno : Int) : Prop :=
  traced ≠ value ∨ (traced = value ∧ value = -1 ∧ errno ≠ errorNo)

/-- What the conversions to `int` may lose makes no difference to the verdict:
equal values stay equal and look like a failure only where they are one, and
different values that become equal look like failures with different errors. -/
def Unharmed (a : Execution) (w : World) (call : SystemCall) : Prop :=
  let value := w.answer call
  let errorNo := a.row.int .errno_number
  if a.returnValue = value then
    (a.queued = true ∨ FitsInt value) ∧
      (2 ^ 32 ∣ value + 1 → value = -1 ∨ w.errno = errorNo)
  else
    2 ^ 32 ∣ a.returnValue - value → (a.queued = true ∨ FitsInt a.returnValue) →
      2 ^ 32 ∣ value + 1 ∧ (w.serve call).errno ≠ errorNo

theorem seenReturn_eq_int32_iff {a : Execution} {value : Int} :
    seenReturn a = int32 value ↔
      (a.queued = true ∨ FitsInt a.returnValue) ∧ 2 ^ 32 ∣ a.returnValue - value := by
  unfold seenReturn
  split
  · rename_i hqueued
    rw [int32_eq_int32_iff]
    simp [hqueued]
  · rename_i hown
    rw [eq_int32_iff]
    simp [hown]

theorem int32_eq_neg_one_iff {value : Int} : int32 value = -1 ↔ 2 ^ 32 ∣ value + 1 := by
  rw [show (-1 : Int) = int32 (-1) from rfl, int32_eq_int32_iff, sub_neg_eq_add]

theorem reported_iff {opts : Options} {a : Execution} {m : ReplayModule} {replayed : Int}
    {w : World} (hmode : opts.warnLevel ≠ defaultMode) (hm : a.module = some m)
    (hreplayable : isReplayable a.kind = true) :
    Reported opts m replayed w ↔
      (seenReturn a = replayed → replayed = -1 ∧ w.errno ≠ a.row.int .errno_number) := by
  obtain ⟨hvalue, herrno, hkind⟩ := common_of_module hm
  unfold Reported
  rw [ne_eq, afterSysCall_none_iff (hkind.trans hreplayable), compareRetvalAndErrno_eq_none_iff,
    hvalue, herrno]
  simp only [hmode, false_or, and_true, not_and, Classical.not_imp]

/-- The verdict is exact just where the conversions are harmless. -/
theorem reported_iff_differs_iff {opts : Options} {a : Execution} {m : ReplayModule}
    {w w' : World} {replayed : Int} {call : SystemCall} (hmode : opts.warnLevel ≠ defaultMode)
    (hreplayable : isReplayable a.kind = true) (hm : a.module = some m)
    (hrun : processRow opts m a.position.1 a.position.2 w = some (replayed, w'))
    (hcall : replayedCall a w w' = some call) :
    (Reported opts m replayed w' ↔
      Differs a.returnValue (w.answer call) (a.row.int .errno_number) (w.serve call).errno) ↔
      Unharmed a w call := by
  obtain ⟨rfl, herrno⟩ := replayed_of_replayedCall hm hreplayable hrun hcall
  rw [reported_iff hmode hm hreplayable, seenReturn_eq_int32_iff]
  rw [int32_eq_neg_one_iff] at herrno ⊢
  unfold Differs Unharmed
  by_cases heq : a.returnValue = w.answer call
  · rw [heq, sub_self]
    simp only [if_true, ne_eq, not_true_eq_false, false_or, true_and, Int.dvd_zero, and_true]
    by_cases hfailed : w.answer call = -1
    · have hfits : FitsInt (-1) := ⟨by decide, by decide⟩
      have hlast := herrno (by rw [hfailed]; exact ⟨0, rfl⟩)
      rw [hfailed, hlast]
      simp [hfits]
    · have hserved : (w.serve call).errno = w.errno := if_neg hfailed
      rw [hserved] at herrno
      simp only [hfailed, false_and, iff_false, Classical.not_imp, false_or, not_and, not_not]
      refine and_congr_right fun _ => forall_congr' fun hdvd => ?_
      rw [herrno hdvd]
  · simp only [heq, if_false, ne_eq, not_false_eq_true, true_or, iff_true, and_imp]
    constructor
    · intro h hdvd hseen
      obtain ⟨hfailed, hdiffers⟩ := h hseen hdvd
      rw [herrno hfailed] at hdiffers
      exact ⟨hfailed, hdiffers⟩
    · intro h hseen hdvd
      obtain ⟨hfailed, hdiffers⟩ := h hdvd hseen
      rw [herrno hfailed]
      exact ⟨hfailed, hdiffers⟩

def warning : Options := ⟨1, ""⟩

/-- The copy of an `lseek` to the offset on a descriptor of the start. -/
def seek (offset returnValue : Int) : Execution :=
  queuedCall .lseek 1 returnValue fun
    | .descriptor => 1
    | .offset => offset
    | _ => 0

/-- A kernel that gives this value to every call. -/
def constant (value : Int) (_ : Nat) : Reply :=
  ⟨value, 22, (0, 0)⟩

theorem seek_reports_difference :
    ∃ m replayed w', (seek 8 8).module = some m ∧
      (Reported warning m replayed w' ↔ Differs 8 9 0 0) ∧ Unharmed (seek 8 8)
        (startWorld (constant 9)) (.lseek 1 8 0) := by
  have hharmless : Unharmed (seek 8 8) (startWorld (constant 9)) (.lseek 1 8 0) := by
    intro hdvd
    exact absurd hdvd (by decide)
  exact ⟨_, 9, (startWorld (constant 9)).serve (.lseek 1 8 0), rfl,
    (reported_iff_differs_iff (by decide) rfl rfl rfl rfl).mpr hharmless, hharmless⟩

/-- A copy that was traced at `2 ^ 32` matches a replay at 0, and the module itself
finds two equal offsets of `2 ^ 31` different. -/
theorem seek_verdict_wrong :
    (∃ m w', (seek 0 (2 ^ 32)).module = some m ∧
      (startWorld (constant 0)).answer (.lseek 1 0 0) = 0 ∧ Differs (2 ^ 32) 0 0 0 ∧
      execute warning m (seek 0 (2 ^ 32)).later [] (startWorld (constant 0)) =
        some ((0, none), w')) ∧
    ∃ m w', { seek 0 (2 ^ 31) with queued := false }.module = some m ∧
      (startWorld (constant (2 ^ 31))).answer (.lseek 1 0 0) = 2 ^ 31 ∧
      ¬Differs (2 ^ 31) (2 ^ 31) 0 0 ∧
      execute warning m (seek 0 (2 ^ 31)).row [] (startWorld (constant (2 ^ 31))) =
        some ((-2 ^ 31, some .returnValues), w') := by
  constructor
  · exact ⟨_, (startWorld (constant 0)).serve (.lseek 1 0 0), rfl, rfl, .inl (by decide), rfl⟩
  · refine ⟨_, (startWorld (constant (2 ^ 31))).serve (.lseek 1 0 0), rfl, rfl, ?_, rfl⟩
    rintro (hvalue | ⟨-, hfailed, -⟩)
    · exact hvalue rfl
    · exact absurd hfailed (by decide)

end SyscallReplayer.MismatchVerdict
