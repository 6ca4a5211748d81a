import SyscallReplayer.IssuedCalls
import SyscallReplayer.SimulatedDescriptors

/-!
# What a queued copy issues

A queued copy stands for its row: run later, it should do what the module would have
done on the row, and issue the call that the row describes with the row's own
arguments.
-/

namespace SyscallReplayer.DescribedCalls

open CInt ReplayKernel ResourcesManager ReplayWorld ReplayModules StatePrograms
open SnapshotFidelity World EffectiveModes IssuedCalls

/-- The copy exists, replays the same system call and runs as the module does on its row,
wherever the series stands by then; it issues the call that the row describes. -/
def Faithful (opts : Options) (kind : SysCallKind) (held : Int) (row : Row) (rest : List Row)
    (w : World) : Prop :=
  RunsAsOwn opts kind held row rest w ∧
    ∀ copy, queuedCopy kind held row rest = some copy →
      ∀ later laterRest value w', processRow opts copy later laterRest w = some (value, w') →
        Issued kind (describedCall opts kind row rest w) w w'

/-- `add_fd` takes an entry for the traced descriptor. -/
def Addable (w : World) (pid tracedFd : Int) : Prop :=
  ∃ t, w.table pid = some t ∧ (int32 tracedFd = -1 ∨ t[int32 tracedFd]? = none)

/-- `open` closes again what the traced program did not get, or has an entry for what it
got. -/
def OpensThrough (row : Row) (w : World) : Prop :=
  (int32 (row.int .return_value) ≤ -1 ∧ opens w.openFds w.reply.value 0 = true) ∨
    Addable w (row.int .executing_pid) (row.int .return_value)

/-- The umask of the process takes no bits out of the mode that the kernel of the trace
did not take out. -/
def MaskExact (creates : Bool) (row : Row) (w : World) : Prop :=
  ∀ umask, w.manager.getUmask (row.int .executing_pid) = some umask →
    MaskFits creates (mode row) umask

/-- `utime` passes on two times where one of them is -1. -/
def TimesExact (row : Row) : Prop :=
  (row.isNull .access_time = false ∨ row.isNull .mod_time = false) ∧
    (row.isNull .access_time = true → row.int .access_time = -1) ∧
    (row.isNull .mod_time = true → row.int .mod_time = -1) ∧
    (row.int .access_time = -1 ∨ row.int .mod_time = -1)

/-- `prepareRow` copies what was written, out of what was to be written. -/
def DataExact (row : Row) : Prop :=
  uint64 (row.int .bytes_requested) = 0 ∨
    (row.bytes .data_written).take (int32 (row.int .return_value)).toNat =
      (row.bytes .data_written).take (uint64 (row.int .bytes_requested)).toNat

/-- `prepareRow` copies nothing of the buffer of an `ioctl`. -/
def ThirdExact (row : Row) : Prop :=
  if row.isNull .ioctl_buffer then int32 (row.int .parameter) = row.int .parameter
  else (row.bytes .ioctl_buffer).take (uint64 (row.int .buffer_size)).toNat = []

/-- What the row and the tables must be like for the module's call to be the described
one. -/
def CallExact (opts : Options) (kind : SysCallKind) (row : Row) (w : World) : Prop :=
  match kind with
  | .open_ => OpensThrough row w → MaskExact true row w
  | .mkdir => MaskExact true row w
  | .access | .chmod => MaskExact false row w
  | .fchmod => Replayed w row → MaskExact false row w
  | .utime => TimesExact row
  | .chroot => False
  | .read | .pread => Replayed w row → uint64 (row.int .bytes_requested) < 2 ^ 31
  | .write | .pwrite => Replayed w row → opts.patternData.isEmpty = true → DataExact row
  | .fstatat => Simulated w row → relative (row.text .given_pathname) = true
  | .fcntl =>
      Simulated w row →
        (row.int .command_value = fDupfd ∨ row.int .command_value = fDupfdCloexec) ∧
          ¬Addable w (row.int .executing_pid) (row.int .return_value)
  | .ftruncate | .mmap => ¬Simulated w row
  | .ioctl => Replayed w row → ThirdExact row
  | _ => True

def SnapshotExact (opts : Options) (kind : SysCallKind) (held : Int) (row : Row) (w : World) :
    Prop :=
  MoveExact kind held row w ∧ CallExact opts kind row w

section

variable {opts : Options} {kind : SysCallKind} {held : Int} {row : Row} {rest : List Row}
  {w : World} {members : Members}

/-- What is left to show once the members of the copy are known. -/
def Describes (opts : Options) (kind : SysCallKind) (row : Row) (rest : List Row)
    (members : Members) (w : World) : Prop :=
  ∀ value w', processMembers opts (copyWith kind row members) w = some (value, w') →
    Issued kind (describedCall opts kind row rest w) w w'

theorem faithful_iff_of_members (h : movesTo kind = some kind)
    (hmembers : prepareMembers kind held row rest = some members)
    (hiff : MoveExact kind held row w →
      (Describes opts kind row rest members w ↔ CallExact opts kind row w)) :
    Faithful opts kind held row rest w ↔ SnapshotExact opts kind held row w := by
  unfold Faithful SnapshotExact
  rw [runsAsOwn_iff_moveExact]
  refine and_congr_right fun hmove => Iff.trans ?_ (hiff hmove)
  have hcopy : queuedCopy kind held row rest = some (copyWith kind row members) := by
    simp [queuedCopy, prepareRow, hmembers, move, h, copyWith]
  have hrun : ∀ later laterRest, processRow opts (copyWith kind row members) later laterRest =
      processMembers opts (copyWith kind row members) := by
    intro later laterRest
    rw [processRow, processCurrentRow_eq_none (by exact h), Option.getD_none]
  constructor
  · intro hissued value w' hprocess
    exact hissued _ hcopy row rest value w' (hrun row rest ▸ hprocess)
  · intro hdescribes copy hcopy' later laterRest value w' hprocess
    obtain rfl := Option.some.inj (hcopy.symm.trans hcopy')
    exact hdescribes value w' (hrun later laterRest ▸ hprocess)

theorem faithful_iff_of_not_moveExact (h : ¬MoveExact kind held row w) :
    Faithful opts kind held row rest w ↔ SnapshotExact opts kind held row w := by
  refine iff_of_false ?_ fun hexact => h hexact.1
  intro hfaithful
  exact h ((runsAsOwn_iff_moveExact opts kind held row rest w).mp hfaithful.1)

theorem describes_iff_of_call {c c' : SystemCall}
    (hrun : processMembers opts (copyWith kind row members) = intSyscall c)
    (hcall : describedCall opts kind row rest w = some c') :
    Describes opts kind row rest members w ↔ c = c' := by
  unfold Describes
  rw [hrun, hcall, intSyscall_apply]
  constructor
  · intro hissued
    exact (Issued.serve w c).eq (hissued _ _ rfl)
  · rintro rfl value w' hserve
    obtain rfl := (Prod.mk.inj (Option.some.inj hserve)).2
    exact .serve w c

theorem describes_iff_of_issued {Through : Prop} {c c' : SystemCall}
    (hcall : describedCall opts kind row rest w = some c')
    (hissued : ∀ value w', processMembers opts (copyWith kind row members) w = some (value, w') →
      Issued kind (some c) w w')
    (hthrough : (∃ result, processMembers opts (copyWith kind row members) w = some result) ↔
      Through) :
    Describes opts kind row rest members w ↔ (Through → c = c') := by
  unfold Describes
  rw [hcall]
  constructor
  · intro hdescribes hthrough'
    obtain ⟨⟨value, w'⟩, hrun⟩ := hthrough.mpr hthrough'
    exact (hissued value w' hrun).eq (hdescribes value w' hrun)
  · intro heq value w' hrun
    rw [← heq (hthrough.mp ⟨_, hrun⟩)]
    exact hissued value w' hrun

theorem translated_of_resolves {pid tracedFd fd : Int} (h : w.resolves pid tracedFd = some fd)
    (hne : fd ≠ syscallSimulated) : translated w pid tracedFd = some fd := by
  rw [translated, h, Option.filter_some, if_pos (decide_eq_true hne)]

theorem translated_of_simulated {pid tracedFd : Int}
    (h : w.resolves pid tracedFd = some syscallSimulated) :
    translated w pid tracedFd = none := by
  rw [translated, h]
  rfl

/-- A module that issues its call on the descriptor of the row is right if the calls are
the same wherever the descriptor has one in the replay. -/
theorem describes_iff_of_onDescriptor {v : Int} {real : Int → Replay Int}
    {f f' : Int → SystemCall}
    (hrun : processMembers opts (copyWith kind row members) =
      onDescriptor (row.int .executing_pid) (row.int .descriptor) (pure v) real)
    (hcall : describedCall opts kind row rest w =
      (translated w (row.int .executing_pid) (row.int .descriptor)).map f')
    (hreal : ∀ fd, w.resolves (row.int .executing_pid) (row.int .descriptor) = some fd →
      fd ≠ syscallSimulated → real fd w = intSyscall (f fd) w) :
    Describes opts kind row rest members w ↔
      ∀ fd, w.resolves (row.int .executing_pid) (row.int .descriptor) = some fd →
        fd ≠ syscallSimulated → f fd = f' fd := by
  unfold Describes
  rw [hrun, hcall, onDescriptor_apply]
  cases hfd : w.resolves (row.int .executing_pid) (row.int .descriptor) with
  | none => simp
  | some fd =>
      rw [Option.bind_some]
      by_cases hsim : fd = syscallSimulated
      · rw [if_pos hsim]
        subst hsim
        refine iff_of_true ?_ fun fd' hfd' hne => absurd (Option.some.inj hfd').symm hne
        intro value w' hpure
        obtain rfl := (Prod.mk.inj (Option.some.inj hpure)).2
        rw [translated_of_simulated hfd]
        exact .of_eq rfl
      · rw [if_neg hsim, hreal fd hfd hsim, translated_of_resolves hfd hsim, Option.map_some,
          intSyscall_apply]
        constructor
        · intro hissued fd' hfd' _
          obtain rfl := Option.some.inj hfd'
          exact (Issued.serve w (f fd)).eq (hissued _ _ rfl)
        · intro heq value w' hserve
          obtain rfl := (Prod.mk.inj (Option.some.inj hserve)).2
          rw [← heq fd rfl hsim]
          exact .serve w (f fd)

/-- The mode that is passed is the kernel's if the umask fits. -/
theorem issued_mode_iff (kind : SysCallKind) {creates : Bool} {call : BitVec 32 → SystemCall}
    (hinj : Function.Injective call) :
    (∀ value w', (do
        let md ← getMode (row.int .executing_pid) (mode row)
        intSyscall (call md) : Replay Int) w = some (value, w') →
      Issued kind ((w.manager.getUmask (row.int .executing_pid)).map
        fun umask => call (kernelMode creates (mode row) umask)) w w') ↔
      MaskExact creates row w := by
  unfold MaskExact
  cases humask : w.manager.getUmask (row.int .executing_pid) with
  | none =>
      rw [bind_of_eq_none (getMode_of_none humask (mode row))]
      simp
  | some umask =>
      rw [bind_of_eq_some (getMode_run humask (mode row)), intSyscall_apply, Option.map_some]
      constructor
      · intro hissued umask' humask'
        obtain rfl := Option.some.inj humask'
        exact (masked_eq_kernelMode_iff _ _ _).mp (hinj ((Issued.serve w _).eq (hissued _ _ rfl)))
      · intro hfits value w' hserve
        obtain rfl := (Prod.mk.inj (Option.some.inj hserve)).2
        rw [← (masked_eq_kernelMode_iff _ _ _).mpr (hfits umask rfl)]
        exact .serve w _

theorem describes_iff_of_mode {creates : Bool} {call : BitVec 32 → SystemCall}
    (hinj : Function.Injective call) (hcreates : createsFile kind = some creates)
    (hrun : processMembers opts (copyWith kind row members) = (do
      let md ← getMode (row.int .executing_pid) (mode row)
      intSyscall (call md)))
    (hcall : describedCall opts kind row rest w = (describedMode kind row w).map call) :
    Describes opts kind row rest members w ↔ MaskExact creates row w := by
  rw [← issued_mode_iff kind hinj, Describes, hrun, hcall, describedMode, hcreates, Option.bind_some,
    Option.map_map]
  rfl

theorem describes_of_silent (hcall : describedCall opts kind row rest w = none)
    (hrun : ∀ value w', processMembers opts (copyWith kind row members) w = some (value, w') →
      Issued kind none w w') : Describes opts kind row rest members w := by
  unfold Describes
  rw [hcall]
  exact hrun

end

section

variable {opts : Options} {held : Int} {row : Row} {rest : List Row} {w : World}

theorem newBuffer_eq_some {size size' : Int} (h : newBuffer size = some size') :
    size' = size := by
  unfold newBuffer at h
  split at h
  · exact (Option.some.inj h).symm
  · cases h

theorem int32_uint64 (n : Int) : int32 (uint64 n) = int32 n := by
  rw [int32_eq_int32_iff]
  unfold uint64
  omega

theorem int32_eq_uint64_iff {n : Int} : int32 n = uint64 n ↔ uint64 n < 2 ^ 31 := by
  constructor
  · intro h
    rw [← h]
    exact int32_upper n
  · intro h
    have hnonneg := uint64_nonneg n
    rw [← int32_uint64, int32_eq_self (by omega) h]

theorem forall_replayed_iff {p : Prop} :
    (∀ fd, w.resolves (row.int .executing_pid) (row.int .descriptor) = some fd →
      fd ≠ syscallSimulated → p) ↔ (Replayed w row → p) := by
  constructor
  · rintro h ⟨fd, hfd, hreal⟩
    exact h fd hfd hreal
  · intro h fd hfd hreal
    exact h ⟨fd, hfd, hreal⟩

theorem fchmod_faithful_iff :
    Faithful opts .fchmod held row rest w ↔ SnapshotExact opts .fchmod held row w := by
  refine faithful_iff_of_members rfl rfl fun _ => ?_
  change (∀ value w', fchmodProcessRow (row.int .executing_pid) (int32 (row.int .return_value))
    (row.int .descriptor) (mode row) w = some (value, w') → Issued .fchmod
      ((translated w (row.int .executing_pid) (row.int .descriptor)).bind fun fd =>
        (describedMode .fchmod row w).bind fun md => some (.fchmod fd md)) w w') ↔
    (Replayed w row → MaskExact false row w)
  have hget := getFd_apply (row.int .executing_pid) (row.int .descriptor) w
  unfold fchmodProcessRow Replayed
  cases hfd : w.resolves (row.int .executing_pid) (row.int .descriptor) with
  | none =>
      rw [hfd] at hget
      rw [bind_of_eq_none hget]
      simp
  | some fd =>
      rw [hfd] at hget
      rw [bind_of_eq_some hget]
      by_cases hsim : fd = syscallSimulated
      · subst hsim
        rw [translated_of_simulated hfd]
        refine iff_of_true ?_ ?_
        · intro value w' hrun
          obtain ⟨md, w₁, hmode, hpure⟩ := bind_eq_some.mp hrun
          obtain ⟨-, -, -, rfl⟩ := getMode_eq_some hmode
          obtain rfl := (Prod.mk.inj (Option.some.inj hpure)).2
          exact .of_eq rfl
        · rintro ⟨fd, hfd', hne⟩
          exact absurd (Option.some.inj hfd').symm hne
      · have hinj : Function.Injective (SystemCall.fchmod fd) := fun a b h =>
          (SystemCall.fchmod.inj h).2
        rw [translated_of_resolves hfd hsim, forall_prop_of_true ⟨fd, rfl, hsim⟩,
          ← issued_mode_iff .fchmod hinj]
        simp only [if_neg hsim, Option.bind_some, describedMode, createsFile]
        cases w.manager.getUmask (row.int .executing_pid) <;> exact Iff.rfl

theorem getdents_describes {returnVal : Int} :
    Describes opts .getdents row rest
      (.getdents (row.int .descriptor) (row.int .count) returnVal) w := by
  intro value w' hrun
  change onDescriptor (row.int .executing_pid) (row.int .descriptor) _ _ w = _ at hrun
  rw [onDescriptor_apply] at hrun
  obtain ⟨fd, hfd, hrest⟩ := Option.bind_eq_some_iff.mp hrun
  change Issued _ ((translated w (row.int .executing_pid) (row.int .descriptor)).map _) w w'
  split at hrest
  · rename_i hsim
    obtain rfl := (Prod.mk.inj (Option.some.inj hrest)).2
    rw [translated_of_simulated (hsim ▸ hfd)]
    exact .of_eq rfl
  · rename_i hreal
    obtain ⟨count, w₁, hcount, hcall⟩ := bind_eq_some.mp hrest
    obtain ⟨hbuffer, rfl⟩ := lift_eq_some.mp hcount
    rw [intSyscall_apply] at hcall
    obtain rfl := (Prod.mk.inj (Option.some.inj hcall)).2
    obtain rfl := newBuffer_eq_some hbuffer
    rw [translated_of_resolves hfd hreal]
    exact .serve w₁ _

theorem fstatat_faithful_iff :
    Faithful opts .fstatat held row rest w ↔ SnapshotExact opts .fstatat held row w := by
  refine faithful_iff_of_members rfl rfl fun _ => ?_
  change (∀ value w', onDescriptor (row.int .executing_pid) (row.int .descriptor) (pure _)
      (fun fd => intSyscall (.fstatat fd (row.text .given_pathname) (row.int .flags_value))) w =
        some (value, w') → Issued .fstatat
      ((directory w (row.int .executing_pid) (row.int .descriptor)
        (row.text .given_pathname)).map fun dirfd =>
          .fstatat dirfd (row.text .given_pathname) (row.int .flags_value)) w w') ↔
    (Simulated w row → relative (row.text .given_pathname) = true)
  unfold Simulated directory
  rw [onDescriptor_apply]
  cases hfd : w.resolves (row.int .executing_pid) (row.int .descriptor) with
  | none => simp
  | some fd =>
      rw [Option.bind_some, Option.filter_some]
      by_cases hsim : fd = syscallSimulated
      · rw [if_pos hsim, forall_prop_of_true (congrArg some hsim)]
        cases hrelative : relative (row.text .given_pathname) with
        | true =>
            refine iff_of_true ?_ rfl
            intro value w' hrun
            obtain rfl := (Prod.mk.inj (Option.some.inj hrun)).2
            rw [if_neg (by simp [hsim])]
            exact .of_eq rfl
        | false =>
            refine iff_of_false ?_ Bool.false_ne_true
            intro hissued
            have hself := hissued _ w rfl
            rw [if_pos (by simp)] at hself
            exact Issued.not_self hself
      · rw [if_neg hsim, if_pos (by simp [hsim])]
        refine iff_of_true ?_ fun hsim' => absurd (Option.some.inj hsim') hsim
        intro value w' hrun
        rw [intSyscall_apply] at hrun
        obtain rfl := (Prod.mk.inj (Option.some.inj hrun)).2
        exact .serve w _

theorem read_faithful_iff :
    Faithful opts .read held row rest w ↔ SnapshotExact opts .read held row w := by
  by_cases hsize : 0 ≤ int32 (row.int .bytes_requested)
  · have hmembers : prepareMembers .read held row rest =
        some (.read (int32 (row.int .bytes_requested)) (row.int .descriptor)) := by
      simp [prepareMembers, prepareReadMembers, newBuffer_int32 hsize]
    refine faithful_iff_of_members rfl hmembers fun _ => ?_
    rw [describes_iff_of_onDescriptor rfl rfl fun _ _ _ => rfl]
    simp only [SystemCall.read.injEq, true_and, int32_eq_uint64_iff]
    exact forall_replayed_iff
  · exact faithful_iff_of_not_moveExact fun h => hsize h.2.1

theorem pread_faithful_iff :
    Faithful opts .pread held row rest w ↔ SnapshotExact opts .pread held row w := by
  by_cases hsize : 0 ≤ int32 (row.int .bytes_requested)
  · have hmembers : prepareMembers .pread held row rest =
        some (.pread (int32 (row.int .bytes_requested)) (row.int .descriptor)
          (row.int .offset)) := by
      simp [prepareMembers, prepareReadMembers, newBuffer_int32 hsize]
    refine faithful_iff_of_members rfl hmembers fun _ => ?_
    rw [describes_iff_of_onDescriptor rfl rfl fun _ _ _ => rfl]
    simp only [SystemCall.pread.injEq, true_and, and_true, int32_eq_uint64_iff]
    exact forall_replayed_iff
  · exact faithful_iff_of_not_moveExact fun h => hsize h.2.1

theorem ioctl_faithful_iff :
    Faithful opts .ioctl held row rest w ↔ SnapshotExact opts .ioctl held row w := by
  by_cases hsize : Allocates .ioctl row
  · obtain ⟨buffer, hbuffer⟩ := prepareIoctlBuffer_of_allocates hsize
    have hmembers : prepareMembers .ioctl held row rest =
        some (.ioctl (row.int .descriptor) (row.int .request % 2 ^ 32)
          (uint64 (row.int .parameter)) buffer (uint64 (row.int .buffer_size))) := by
      simp [prepareMembers, hbuffer]
    refine faithful_iff_of_members rfl hmembers fun _ => ?_
    rw [describes_iff_of_onDescriptor rfl rfl fun _ _ _ => rfl]
    have hthird : ioctlArgument (uint64 (row.int .parameter)) buffer = ioctlThird row ↔
        ThirdExact row := by
      unfold ioctlThird ThirdExact
      unfold prepareIoctlBuffer at hbuffer
      split at hbuffer
      · rename_i hnull
        obtain rfl := Option.some.inj hbuffer
        rw [if_pos hnull, if_pos hnull, ioctlArgument, IoctlArgument.parameter.injEq,
          int32_uint64]
      · rename_i hnull
        obtain ⟨size, hnew, rfl⟩ := Option.map_eq_some_iff.mp hbuffer
        obtain rfl := newBuffer_eq_some hnew
        rw [if_neg hnull, if_neg hnull]
        simp only [ioctlArgument, copied, IoctlArgument.buffer.injEq, Buffer.mk.injEq,
          Fill.bytes.injEq, true_and]
        rw [Int.toNat_zero, List.take_zero, eq_comm]
    simp only [SystemCall.ioctl.injEq, true_and, hthird]
    exact forall_replayed_iff
  · exact faithful_iff_of_not_moveExact fun h => hsize h.2.1

theorem prepareWriteMembers_eq_some {buffer : Buffer} {nbytes : Int}
    (h : prepareWriteMembers row = some (buffer, nbytes)) :
    nbytes = uint64 (row.int .bytes_requested) ∧ buffer.size = nbytes ∧
      (buffer = ⟨nbytes, .bytes ((row.bytes .data_written).take nbytes.toNat)⟩ ↔
        DataExact row) := by
  unfold prepareWriteMembers at h
  dsimp only at h
  split at h
  · rename_i hzero
    obtain ⟨rfl, rfl⟩ := Prod.mk.inj (Option.some.inj h)
    refine ⟨hzero.symm, rfl, iff_of_true ?_ (.inl hzero)⟩
    rw [Int.toNat_zero, List.take_zero]
  · rename_i hnonzero
    obtain ⟨size, hnew, hpair⟩ := Option.bind_eq_some_iff.mp h
    obtain rfl := newBuffer_eq_some hnew
    obtain ⟨rfl, rfl⟩ := Prod.mk.inj (Option.some.inj hpair)
    refine ⟨rfl, rfl, ?_⟩
    unfold DataExact copied
    rw [or_iff_right hnonzero]
    simp

def filled (opts : Options) (buffer : Buffer) : Buffer :=
  if opts.patternData.isEmpty then buffer
  else { buffer with fill := patternFill opts.patternData }

theorem filled_eq_described_iff {buffer : Buffer} {nbytes : Int}
    (h : prepareWriteMembers row = some (buffer, nbytes)) :
    filled opts buffer =
        described opts (uint64 (row.int .bytes_requested)) (row.bytes .data_written) ↔
      (opts.patternData.isEmpty = true → DataExact row) := by
  obtain ⟨rfl, hsize, hdata⟩ := prepareWriteMembers_eq_some h
  unfold filled described
  split
  · rename_i hempty
    rw [forall_prop_of_true hempty]
    exact hdata
  · rename_i hpattern
    rw [hsize]
    exact iff_of_true rfl fun hempty => absurd hempty hpattern

theorem write_faithful_iff :
    Faithful opts .write held row rest w ↔ SnapshotExact opts .write held row w := by
  by_cases hsize : uint64 (row.int .bytes_requested) ≤ longLongMax
  · obtain ⟨buffer, hbuffer⟩ := prepareWriteMembers_of_allocates hsize
    have hmembers : prepareMembers .write held row rest =
        some (.write buffer (uint64 (row.int .bytes_requested)) (row.int .descriptor)) := by
      simp [prepareMembers, hbuffer]
    refine faithful_iff_of_members rfl hmembers fun hmove => ?_
    rw [describes_iff_of_onDescriptor rfl rfl fun _ _ _ => rfl]
    refine Iff.trans ?_ forall_replayed_iff
    refine forall_congr' fun fd => forall_congr' fun hfd => forall_congr' fun hreal => ?_
    rw [(uint64_int32_eq_iff (uint64_nonneg _) hsize).mpr (hmove.2.2.2 ⟨fd, hfd, hreal⟩),
      SystemCall.write.injEq, and_iff_right rfl, and_iff_left rfl]
    exact filled_eq_described_iff hbuffer
  · exact faithful_iff_of_not_moveExact fun h => hsize h.2.1

theorem pwrite_faithful_iff :
    Faithful opts .pwrite held row rest w ↔ SnapshotExact opts .pwrite held row w := by
  by_cases hsize : uint64 (row.int .bytes_requested) ≤ longLongMax
  · obtain ⟨buffer, hbuffer⟩ := prepareWriteMembers_of_allocates hsize
    have hmembers : prepareMembers .pwrite held row rest =
        some (.pwrite buffer (uint64 (row.int .bytes_requested)) (row.int .descriptor)
          (row.int .offset)) := by
      simp [prepareMembers, hbuffer]
    refine faithful_iff_of_members rfl hmembers fun hmove => ?_
    have hlength : ∀ fd, w.resolves (row.int .executing_pid) (row.int .descriptor) = some fd →
        fd ≠ syscallSimulated → uint64 (int32 (uint64 (row.int .bytes_requested))) =
          uint64 (row.int .bytes_requested) := fun fd hfd hreal =>
      (uint64_int32_eq_iff (uint64_nonneg _) hsize).mpr (hmove.2.2 ⟨fd, hfd, hreal⟩)
    rw [describes_iff_of_onDescriptor (f := fun fd => .pwrite fd (filled opts buffer)
      (uint64 (row.int .bytes_requested)) (row.int .offset)) rfl rfl ?_]
    · refine Iff.trans ?_ forall_replayed_iff
      refine forall_congr' fun fd => forall_congr' fun hfd => forall_congr' fun hreal => ?_
      rw [SystemCall.pwrite.injEq, and_iff_right rfl, and_iff_left ⟨rfl, rfl⟩]
      exact filled_eq_described_iff hbuffer
    · intro fd hfd hreal
      rw [hlength fd hfd hreal]
      obtain ⟨-, hbuffersize, -⟩ := prepareWriteMembers_eq_some hbuffer
      unfold filled
      split
      · rfl
      · rw [newBuffer_of_le (uint64_nonneg _) hsize, hbuffersize]
        rfl
  · exact faithful_iff_of_not_moveExact fun h => hsize h.2.1

/-- The times that `utime` passes: none where both are given. -/
def utimeTimes (accessT modT : Int) : Option (Int × Int) :=
  if accessT ≠ -1 ∧ modT ≠ -1 then none else some (accessT, modT)

theorem utimeTimes_eq_iff :
    utimeTimes (if row.isNull .access_time then -1 else row.int .access_time)
      (if row.isNull .mod_time then -1 else row.int .mod_time) = rowTimes row ↔
      TimesExact row := by
  unfold utimeTimes rowTimes TimesExact
  cases row.isNull .access_time <;> cases row.isNull .mod_time <;>
    by_cases haccess : row.int .access_time = -1 <;>
    by_cases hmod : row.int .mod_time = -1 <;>
    simp [haccess, hmod, @eq_comm Int (-1)]

theorem utimeProcessRow_eq (pathname : String) (accessT modT : Int) :
    utimeProcessRow pathname accessT modT =
      intSyscall (.utime pathname (utimeTimes accessT modT)) := by
  unfold utimeProcessRow utimeTimes
  split <;> rfl

theorem utime_describes_iff {accessT modT : Int} :
    Describes opts .utime row rest (.utime (row.text .given_pathname) accessT modT) w ↔
      utimeTimes accessT modT = rowTimes row := by
  have hrun : processMembers opts
      (copyWith .utime row (.utime (row.text .given_pathname) accessT modT)) =
        intSyscall (.utime (row.text .given_pathname) (utimeTimes accessT modT)) :=
    utimeProcessRow_eq _ _ _
  rw [describes_iff_of_call hrun rfl, SystemCall.utime.injEq, and_iff_right rfl]

theorem utime_faithful_iff :
    Faithful opts .utime held row rest w ↔ SnapshotExact opts .utime held row w :=
  faithful_iff_of_members rfl rfl fun _ => utime_describes_iff.trans utimeTimes_eq_iff

/-- `chroot` is not replayed. -/
theorem chroot_not_faithful : ¬Faithful opts .chroot held row rest w := by
  rintro ⟨-, hissued⟩
  exact Issued.not_self (hissued _ rfl row rest 0 w rfl)

theorem close_describes :
    Describes opts .close row rest (.close (row.int .descriptor)) w := by
  intro value w' hrun
  change closeProcessRow (row.int .executing_pid) 0 (row.int .descriptor) w = _ at hrun
  obtain ⟨t, ht, rfl⟩ := closeProcessRow_eq_some hrun
  have hfd := resolves_of_table ht (row.int .descriptor)
  change Issued _ ((translated w (row.int .executing_pid) (row.int .descriptor)).map _) w _
  split
  · rename_i hsim
    rw [translated_of_simulated (hsim ▸ hfd)]
    exact .of_eq rfl
  · rename_i hreal
    rw [translated_of_resolves hfd hreal]
    exact .congr_left rfl (.serve _ _)

theorem pipe_describes :
    Describes opts .pipe row rest
      (.pipe (row.int .read_descriptor) (row.int .write_descriptor)) w := by
  intro value w' hrun
  obtain ⟨call, w₁, rfl, hread, hwrite⟩ := pipeProcessRow_eq_some hrun
  obtain ⟨t, t', -, -, rfl⟩ := addFd_eq_some hread
  obtain ⟨-, -, -, -, rfl⟩ := addFd_eq_some hwrite
  exact (Issued.serve w _).trans (.of_eq rfl)

theorem dup_describes :
    Describes opts .dup row rest (.dup (row.int .descriptor)) w := by
  intro value w' hrun
  change dupProcessRow (row.int .executing_pid) _ (row.int .descriptor) w = _ at hrun
  obtain ⟨t, e, ht, he, hcase⟩ := dupProcessRow_eq_some hrun
  have hfd := resolves_of_table ht (row.int .descriptor)
  rw [FdTable.getFd_of_mapped he] at hfd
  change Issued _ ((translated w (row.int .executing_pid) (row.int .descriptor)).map _) w w'
  rcases hcase with ⟨hsim, hadd⟩ | ⟨hreal, hadd⟩
  · obtain ⟨-, -, -, -, rfl⟩ := addFd_eq_some hadd
    rw [translated_of_simulated (hsim ▸ hfd)]
    exact .of_eq rfl
  · obtain ⟨-, -, -, -, rfl⟩ := addFd_eq_some hadd
    rw [translated_of_resolves hfd hreal]
    exact (Issued.serve w _).trans (.of_eq rfl)

theorem issued_duplicateTo {kind : SysCallKind} {returnValue value : Int} {w' : World}
    {newFdFlags : BitVec 32 → BitVec 32} {call : Int → Int → SystemCall}
    (h : duplicateTo (row.int .executing_pid) returnValue (row.int .old_descriptor)
      (row.int .new_descriptor) newFdFlags call w = some (value, w')) :
    Issued kind (redirection w row call) w w' := by
  obtain ⟨t, e, w₁, ht, he, rfl, hcase⟩ := duplicateTo_eq_some h
  have hfd := resolves_of_table ht (row.int .old_descriptor)
  rw [FdTable.getFd_of_mapped he] at hfd
  unfold redirection
  simp only [ht, Option.bind_some]
  rcases hcase with ⟨hsim, hadd⟩ | ⟨hreal, target, rfl, hadd⟩
  · obtain ⟨-, -, -, -, rfl⟩ := addFd_eq_some hadd
    rw [translated_of_simulated (hsim ▸ hfd)]
    exact .of_eq rfl
  · obtain ⟨-, -, -, -, rfl⟩ := addFd_eq_some hadd
    rw [translated_of_resolves hfd hreal]
    exact .congr_left rfl ((Issued.serve _ _).trans (.of_eq rfl))

theorem describes_iff_of_translated {kind : SysCallKind} {members : Members} {P : Prop}
    {call : Int → SystemCall} (hkeeps : ∀ fd, housekeeping kind (call fd) = false)
    (hcall : describedCall opts kind row rest w =
      (translated w (row.int .executing_pid) (row.int .descriptor)).map call)
    (hissued : ∀ value w', processMembers opts (copyWith kind row members) w = some (value, w') →
      ∃ fd, w.resolves (row.int .executing_pid) (row.int .descriptor) = some fd ∧
        Issued kind (some (call fd)) w w')
    (hthrough : Simulated w row →
      ((∃ result, processMembers opts (copyWith kind row members) w = some result) ↔ P)) :
    Describes opts kind row rest members w ↔ (Simulated w row → ¬P) := by
  unfold Describes
  rw [hcall]
  constructor
  · intro hdescribes hsim hruns
    obtain ⟨⟨value, w'⟩, hrun⟩ := (hthrough hsim).mpr hruns
    obtain ⟨fd, -, hfd⟩ := hissued value w' hrun
    have hnone := hdescribes value w' hrun
    rw [translated_of_simulated hsim] at hnone
    exact hfd.not_none (hkeeps fd) hnone
  · intro hstops value w' hrun
    obtain ⟨fd, hfd, hserved⟩ := hissued value w' hrun
    have hreal : fd ≠ syscallSimulated := by
      rintro rfl
      exact hstops hfd ((hthrough hfd).mp ⟨_, hrun⟩)
    rw [translated_of_resolves hfd hreal]
    exact hserved

theorem getFd_of_simulated (h : Simulated w row) :
    getFd (row.int .executing_pid) (row.int .descriptor) w = some (syscallSimulated, w) := by
  rw [getFd_apply, show w.resolves _ _ = _ from h]
  rfl

theorem ftruncate_faithful_iff :
    Faithful opts .ftruncate held row rest w ↔ SnapshotExact opts .ftruncate held row w := by
  refine faithful_iff_of_members rfl rfl fun _ => ?_
  refine (describes_iff_of_translated (P := True) (fun _ => rfl) rfl ?_ ?_).trans
    (imp_congr_right fun _ => iff_of_eq not_true_eq_false)
  · intro value w' hrun
    obtain ⟨fd, w₁, hget, hcall⟩ := bind_eq_some.mp hrun
    obtain ⟨t, ht, rfl, rfl⟩ := getFd_eq_some hget
    rw [intSyscall_apply] at hcall
    obtain rfl := (Prod.mk.inj (Option.some.inj hcall)).2
    exact ⟨_, resolves_of_table ht _, .serve w₁ _⟩
  · intro hsim
    have hrun := (bind_of_eq_some (getFd_of_simulated hsim) fun fd =>
      intSyscall (.ftruncate fd (row.int .truncate_length))).trans (intSyscall_apply _ w)
    exact iff_of_true ⟨_, hrun⟩ trivial

theorem mmapProcessRow_eq_some {pid replayed start size protection flags descriptor offset
    tracedAddr value : Int} {w' : World}
    (h : mmapProcessRow pid replayed start size protection flags descriptor offset tracedAddr w =
      some (value, w')) :
    ∃ fd, w.resolves pid descriptor = some fd ∧
      w'.issued = (w.serve (.mmap start size protection flags fd offset)).issued := by
  obtain ⟨fd, w₁, hget, hrest⟩ := bind_eq_some.mp h
  obtain ⟨t, ht, rfl, rfl⟩ := getFd_eq_some hget
  refine ⟨_, resolves_of_table ht _, ?_⟩
  obtain ⟨address, w₂, hcall, hinsert⟩ := bind_eq_some.mp hrest
  obtain rfl := (Prod.mk.inj (Option.some.inj hcall)).2
  split at hinsert
  · obtain rfl := (Prod.mk.inj (Option.some.inj hinsert)).2
    rfl
  · obtain rfl := (Prod.mk.inj (Option.some.inj hinsert)).2
    rfl

theorem exists_mmapProcessRow {pid replayed start size protection flags descriptor offset
    tracedAddr fd : Int} (h : getFd pid descriptor w = some (fd, w)) :
    ∃ result, mmapProcessRow pid replayed start size protection flags descriptor offset
      tracedAddr w = some result := by
  unfold mmapProcessRow
  rw [bind_of_eq_some h]
  refine Exists.imp (fun result hresult => (bind_of_eq_some (rfl :
    syscall (.mmap start size protection flags fd offset) w = some (_, _)) _).trans hresult) ?_
  split
  · exact ⟨_, rfl⟩
  · exact ⟨_, rfl⟩

theorem mmap_faithful_iff :
    Faithful opts .mmap held row rest w ↔ SnapshotExact opts .mmap held row w := by
  refine faithful_iff_of_members rfl rfl fun _ => ?_
  refine (describes_iff_of_translated (P := True) (fun _ => rfl) rfl ?_ ?_).trans
    (imp_congr_right fun _ => iff_of_eq not_true_eq_false)
  · intro value w' hrun
    change mmapProcessRow (row.int .executing_pid) _ _ _ _ _ (row.int .descriptor) _ _ w = _
      at hrun
    obtain ⟨fd, hfd, hissued⟩ := mmapProcessRow_eq_some hrun
    exact ⟨fd, hfd, (Issued.serve w _).trans (.of_eq hissued)⟩
  · intro hsim
    exact iff_of_true (exists_mmapProcessRow (getFd_of_simulated hsim)) trivial

theorem exists_map_iff {α β : Type} {o : Option α} {f : α → β} :
    (∃ b, o.map f = some b) ↔ ∃ a, o = some a := by
  cases o <;> simp

theorem exists_bind_pure_iff {α β : Type} {m : Replay α} {b : β} :
    (∃ result, (m >>= fun _ => pure b) w = some result) ↔ ∃ result, m w = some result := by
  rw [bind_apply]
  cases m w with
  | none => simp
  | some result => exact iff_of_true ⟨_, rfl⟩ ⟨_, rfl⟩

theorem exists_addFd_iff {pid tracedFd fd : Int} {flags : BitVec 32} :
    (∃ result, addFd pid tracedFd fd flags w = some result) ↔ Addable w pid tracedFd := by
  constructor
  · rintro ⟨⟨u, w'⟩, hadd⟩
    obtain ⟨t, t', ht, hentry, -⟩ := addFd_eq_some hadd
    refine ⟨t, ht, ?_⟩
    rcases FdTable.addFdEntry_cases hentry with ⟨hnone, -⟩ | ⟨hneg, -, -⟩
    · exact .inr hnone
    · exact .inl hneg
  · rintro ⟨t, ht, hentry⟩
    rw [addFd_run ht]
    cases hk : t[int32 tracedFd]? with
    | none => exact ⟨_, by rw [FdTable.addFdEntry_of_unmapped hk]; rfl⟩
    | some e =>
        have hneg := hentry.resolve_right (by rw [hk]; exact Option.some_ne_none e)
        have hhas : t.hasFd (int32 tracedFd) = true := FdTable.hasFd_iff.mpr ⟨e, hk⟩
        exact ⟨((), w.setTable pid t), by simp [FdTable.addFdEntry, hneg, hneg ▸ hhas]⟩

theorem exists_fcntlTable_iff {pid returnValue replayed tracedFd command argVal : Int}
    {t : FdTable} {e : FileDescriptorEntry} (ht : w.table pid = some t)
    (he : t[tracedFd]? = some e) :
    (∃ result, fcntlTable pid returnValue replayed tracedFd command argVal w = some result) ↔
      ((command = fDupfd ∨ command = fDupfdCloexec) → Addable w pid returnValue) := by
  unfold fcntlTable
  by_cases hdup : command = fDupfd ∨ command = fDupfdCloexec
  · rw [if_pos hdup, forall_prop_of_true hdup, bind_of_eq_some (getFlags_run ht he)]
    exact exists_addFd_iff
  · rw [if_neg hdup]
    refine iff_of_true ?_ fun h => absurd h hdup
    split
    · split
      · exact ⟨_, addFlags_run ht he _⟩
      · exact ⟨_, rfl⟩
    · exact ⟨_, rfl⟩

theorem exists_entry_of_simulated (h : Simulated w row) :
    ∃ t e, w.table (row.int .executing_pid) = some t ∧
      t[row.int .descriptor]? = some e := by
  obtain ⟨t, ht, hfd⟩ := Option.map_eq_some_iff.mp (show (w.table _).map _ = _ from h)
  have hgone : t.getFd (row.int .descriptor) = syscallSimulated := hfd
  obtain ⟨e, he, -⟩ := FdTable.exists_of_getFd_ne (by rw [hgone]; decide)
  exact ⟨t, e, ht, he⟩

theorem addable_int32_iff {pid tracedFd : Int} :
    Addable w pid (int32 tracedFd) ↔ Addable w pid tracedFd := by
  unfold Addable
  rw [int32_int32]

/-- A run on a simulated descriptor goes through but for a duplicate whose entry is there
already. -/
theorem fcntl_faithful_iff :
    Faithful opts .fcntl held row rest w ↔ SnapshotExact opts .fcntl held row w := by
  refine faithful_iff_of_members rfl rfl fun _ => ?_
  refine (describes_iff_of_translated
    (P := (row.int .command_value = fDupfd ∨ row.int .command_value = fDupfdCloexec) →
      Addable w (row.int .executing_pid) (row.int .return_value))
    (fun _ => rfl) rfl ?_ ?_).trans (imp_congr_right fun _ => Classical.not_imp)
  · intro value w' hrun
    obtain ⟨fd, argument, rfl, hfd, -, htable⟩ := fcntlProcessRow_eq_some hrun
    have hissued := SimulatedDescriptors.fcntlTable_issued htable
    exact ⟨fd, hfd, (Issued.serve w _).trans (.of_eq hissued)⟩
  · intro hsim
    obtain ⟨t, e, ht, he⟩ := exists_entry_of_simulated hsim
    rw [← addable_int32_iff]
    change (∃ result, fcntlProcessRow (row.int .executing_pid) (int32 (row.int .return_value))
      (row.int .descriptor) (row.int .command_value) (row.int .argument_value)
      (row.int .lock_type) (row.int .lock_whence) (row.int .lock_start) (row.int .lock_length)
      (row.int .lock_pid) w = some result) ↔ _
    unfold fcntlProcessRow
    rw [bind_of_eq_some (getFd_of_simulated hsim), bind_of_eq_some (intSyscall_apply _ w)]
    rw [exists_bind_pure_iff]
    exact exists_fcntlTable_iff ht he

theorem openProcessRow_issued {flags tracedFd value : Int} {pathname : String}
    {umask : BitVec 32} {w' : World}
    (humask : w.manager.getUmask (row.int .executing_pid) = some umask)
    (h : openProcessRow (row.int .executing_pid) pathname (mode row) flags tracedFd w =
      some (value, w')) :
    Issued .open_ (some (.open_ pathname flags (mode row &&& ~~~umask))) w w' := by
  rw [openProcessRow_run humask] at h
  split at h
  · obtain rfl := (Prod.mk.inj (Option.some.inj h)).2
    exact (Issued.serve w _).trans (.closing rfl)
  · obtain ⟨⟨u, w₁⟩, hadd, heq⟩ := Option.map_eq_some_iff.mp h
    obtain rfl := (Prod.mk.inj heq).2
    obtain ⟨-, -, -, -, rfl⟩ := addFd_eq_some hadd
    exact (Issued.serve w _).trans (.of_eq rfl)

theorem exists_openProcessRow_iff {flags : Int} {pathname : String} {umask : BitVec 32}
    (humask : w.manager.getUmask (row.int .executing_pid) = some umask) :
    (∃ result, openProcessRow (row.int .executing_pid) pathname (mode row) flags
      (int32 (row.int .return_value)) w = some result) ↔ OpensThrough row w := by
  have hopened : int32 (w.answer (.open_ pathname flags (mode row &&& ~~~umask))) ≠ -1 ↔
      opens w.openFds w.reply.value 0 = true := by
    rw [int32_answer_open]
    cases hopens : opens w.openFds w.reply.value 0 with
    | false => simp
    | true =>
        have hvalue := (opens_iff.mp hopens).1
        rw [if_pos rfl]
        exact iff_of_true (by omega) rfl
  rw [openProcessRow_run humask]
  unfold OpensThrough
  rw [← addable_int32_iff, ← hopened]
  split
  · rename_i hcloses
    exact iff_of_true ⟨_, rfl⟩ (.inl hcloses)
  · rename_i hmaps
    rw [or_iff_right hmaps]
    rw [exists_map_iff]
    exact exists_addFd_iff

theorem open_faithful_iff :
    Faithful opts .open_ held row rest w ↔ SnapshotExact opts .open_ held row w := by
  refine faithful_iff_of_members rfl rfl fun _ => ?_
  have hrun : processMembers opts (copyWith .open_ row (.open_ (row.text .given_pathname)
      (mode row) (row.int .open_value) (row.int .return_value))) =
        openProcessRow (row.int .executing_pid) (row.text .given_pathname) (mode row)
          (row.int .open_value) (int32 (row.int .return_value)) := rfl
  cases humask : w.manager.getUmask (row.int .executing_pid) with
  | none =>
      refine iff_of_true ?_ ?_
      · intro value w' hopen
        rw [hrun, openProcessRow, bind_of_eq_none (getMode_of_none humask (mode row))] at hopen
        cases hopen
      · intro _ umask hsome
        exact nomatch humask.symm.trans hsome
  | some umask =>
      have hcall : describedCall opts .open_ row rest w = some (.open_ (row.text .given_pathname)
          (row.int .open_value) (kernelMode true (mode row) umask)) := by
        simp [describedCall, describedMode, createsFile, humask]
      refine (describes_iff_of_issued (c := .open_ (row.text .given_pathname)
        (row.int .open_value) (mode row &&& ~~~umask)) hcall ?_ ?_).trans
        (imp_congr_right fun _ => ?_)
      · rw [hrun]
        exact fun value w' hopen => openProcessRow_issued humask hopen
      · rw [hrun]
        exact exists_openProcessRow_iff humask
      · rw [SystemCall.open_.injEq, and_iff_right rfl, and_iff_right rfl,
          masked_eq_kernelMode_iff]
        unfold MaskExact
        rw [humask]
        exact ⟨fun h umask' heq => Option.some.inj heq ▸ h, fun h => h umask rfl⟩

theorem exit_describes {exitStat generated : Int} :
    Describes opts .exit row rest (.exit exitStat generated) w := by
  intro value w' hrun
  obtain ⟨-, -, fds, -, -, -, -, -, hissued⟩ := exitProcessRow_eq_some hrun
  refine ⟨fds.map .close, by rw [hissued]; exact (List.append_nil _).symm ▸ rfl, ?_⟩
  intro c hc
  obtain ⟨fd, -, rfl⟩ := List.mem_map.mp hc
  rfl

theorem execve_describes {continuationNum : Int} :
    Describes opts .execve row rest (.execve continuationNum held) w := by
  intro value w' hrun
  change execveProcessRow (row.int .executing_pid) 0 held w = _ at hrun
  cases ht : w.table (row.int .executing_pid) with
  | none => exact nomatch (execveProcessRow_of_unmapped ht 0 held).symm.trans hrun
  | some t =>
      obtain ⟨t', ht', -⟩ := execveProcessRow_run ht 0 held
      obtain rfl := (Prod.mk.inj (Option.some.inj (ht'.symm.trans hrun))).2
      exact .of_eq rfl

theorem describes_of_quiet {kind : SysCallKind} {members : Members}
    (hcall : describedCall opts kind row rest w = none)
    (hquiet : Quiet kind (processMembers opts (copyWith kind row members))) :
    Describes opts kind row rest members w :=
  describes_of_silent hcall fun _ _ hrun => hquiet hrun

theorem readlink_faithful_iff :
    Faithful opts .readlink held row rest w ↔ SnapshotExact opts .readlink held row w := by
  by_cases hsize : Allocates .readlink row
  · have hmembers : prepareMembers .readlink held row rest =
        some (.readlink (row.int .buffer_size) (row.text .given_pathname)) := by
      simp [prepareMembers, newBuffer_of_le hsize.1 hsize.2]
    exact faithful_iff_of_members rfl hmembers fun _ =>
      iff_of_true ((describes_iff_of_call rfl rfl).mpr rfl) trivial
  · exact faithful_iff_of_not_moveExact fun h => hsize h.2.1

theorem mmappread_faithful_iff :
    Faithful opts .mmappread held row rest w ↔ SnapshotExact opts .mmappread held row w := by
  by_cases hsize : Allocates .mmappread row
  · have hmembers : prepareMembers .mmappread held row rest =
        some (.mmappread (int32 (row.int .bytes_requested)) (row.int .descriptor)
          (row.int .offset) (uint64 (row.int .address))) := by
      simp [prepareMembers, prepareReadMembers, newBuffer_int32 (show 0 ≤ int32 _ from hsize)]
    refine faithful_iff_of_members rfl hmembers fun _ => iff_of_true ?_ trivial
    refine describes_of_quiet rfl (.bind (.query _) fun fd => .ite (.pure _) ?_)
    exact .bind (.area _ _) fun _ => .pure _
  · exact faithful_iff_of_not_moveExact fun h => hsize h.2.1

theorem accept4_describes {socketFd : Int} :
    Describes opts .accept4 row rest (.accept4 socketFd) w := by
  refine describes_of_quiet rfl ?_
  change Quiet .accept4 (accept4ProcessRow _ _)
  unfold accept4ProcessRow
  exact .ite (.bind (.addFd _ _ _ _) fun _ => .pure _) (.pure _)

end

/-- `openat(5, "a", O_RDONLY) = 6`. -/
def openatRow : Row where
  int
    | .executing_pid => 1
    | .descriptor => 5
    | .return_value => 6
    | _ => 0
  text _ := "a"
  bytes _ := []
  isNull _ := false

/-- Descriptor 5 of process 1 is descriptor 7 of the replay. -/
def directoryWorld : World :=
  { emptyWorld with
    manager :=
      { umaskTable := SharedEntries.Shared.empty.create 1 0
        fdTableMap := SharedEntries.Shared.empty.create 1 ((∅ : FdTable).insert 5 ⟨7, 0⟩)
        replayerUsedFds := ∅ }
    openFds := {7}
    replies := fun _ => ⟨3, 0, (0, 0)⟩ }

end SyscallReplayer.DescribedCalls
