import SyscallReplayer.EffectiveModes

/-!
# The call that a row describes

A row describes one call of its kind with its own arguments. The tables translate the
descriptors and hold the umask. A module issues it, and at most some calls besides that
keep the replay's own descriptors in order.
-/

namespace SyscallReplayer.IssuedCalls

open CInt ReplayKernel ResourcesManager ReplayWorld ReplayModules StatePrograms
open World EffectiveModes

/-- The descriptor of the replay that a traced one stands for; one that is only
simulated stands for none. -/
def translated (w : World) (pid tracedFd : Int) : Option Int :=
  (w.resolves pid tracedFd).filter fun fd => fd ≠ syscallSimulated

/-- The directory of a call. An absolute pathname does not need it. -/
def directory (w : World) (pid tracedFd : Int) (pathname : String) : Option Int :=
  (w.resolves pid tracedFd).filter fun dirfd =>
    dirfd ≠ syscallSimulated || !relative pathname

/-- What the kernel of the trace made of the row's mode. -/
def describedMode (kind : SysCallKind) (row : Row) (w : World) : Option (BitVec 32) :=
  (createsFile kind).bind fun creates =>
    (w.manager.getUmask (row.int .executing_pid)).map (kernelMode creates (mode row))

/-- The bytes that the call wrote, or those that the pattern option puts in their place. -/
def described (opts : Options) (size : Int) (data : List UInt8) : Buffer :=
  ⟨size, if opts.patternData.isEmpty then .bytes (data.take size.toNat)
    else patternFill opts.patternData⟩

def ioctlThird (row : Row) : IoctlArgument :=
  if row.isNull .ioctl_buffer then .parameter (row.int .parameter)
  else
    let size := uint64 (row.int .buffer_size)
    .buffer ⟨size, .bytes ((row.bytes .ioctl_buffer).take size.toNat)⟩

/-- `dup2` and `dup3` redirect what the new descriptor stands for, or take a number that
nothing stands for. -/
def redirection (w : World) (row : Row) (call : Int → Int → SystemCall) : Option SystemCall :=
  let pid := row.int .executing_pid
  let newFd := row.int .new_descriptor
  (w.table pid).bind fun t =>
    (translated w pid (row.int .old_descriptor)).map fun oldFd =>
      call oldFd (duplicateTarget t newFd (w.setTable pid (t.erase newFd)).manager)

/-- The system call that the row describes, in the state in which it is replayed. There
is none on a simulated descriptor, for an access to mapped memory, and where the replay
keeps processes, umasks, sockets and address maps itself. -/
def describedCall (opts : Options) (kind : SysCallKind) (row : Row) (rest : List Row)
    (w : World) : Option SystemCall :=
  let pid := row.int .executing_pid
  let pathname := row.text .given_pathname
  let fd := translated w pid (row.int .descriptor)
  let dirfd := directory w pid (row.int .descriptor) pathname
  let md := describedMode kind row w
  let data := described opts (uint64 (row.int .bytes_requested)) (row.bytes .data_written)
  let value := described opts (uint64 (row.int .value_size)) (row.bytes .value_written)
  match kind with
  | .open_ => md.map fun md => .open_ pathname (row.int .open_value) md
  | .openat => do return .openat (← dirfd) pathname (row.int .open_value) (← md)
  | .creat => md.map fun md => .creat pathname md
  | .close => fd.map fun fd => .close fd
  | .read => fd.map fun fd => .read fd (uint64 (row.int .bytes_requested))
  | .pread => fd.map fun fd => .pread fd (uint64 (row.int .bytes_requested)) (row.int .offset)
  | .write => fd.map fun fd => .write fd data (uint64 (row.int .bytes_requested))
  | .pwrite | .mmappwrite =>
      fd.map fun fd => .pwrite fd data (uint64 (row.int .bytes_requested)) (row.int .offset)
  | .lseek => fd.map fun fd => .lseek fd (row.int .offset) (row.int .whence)
  | .access => md.map fun md => .access pathname md
  | .faccessat => do return .faccessat (← dirfd) pathname (← md) (row.int .flags_value)
  | .chdir => some (.chdir pathname)
  | .fchdir => fd.map fun fd => .fchdir fd
  | .chroot => some (.chroot pathname)
  | .truncate => some (.truncate pathname (row.int .truncate_length))
  | .ftruncate => fd.map fun fd => .ftruncate fd (row.int .truncate_length)
  | .link => some (.link (row.text .given_oldpathname) (row.text .given_newpathname))
  | .linkat => do
      let oldPathname := row.text .given_oldpathname
      let newPathname := row.text .given_newpathname
      let oldFd ← directory w pid (row.int .old_descriptor) oldPathname
      let newFd ← directory w pid (row.int .new_descriptor) newPathname
      return .linkat oldFd oldPathname newFd newPathname (row.int .flag_value)
  | .unlink => some (.unlink pathname)
  | .unlinkat => dirfd.map fun dirfd => .unlinkat dirfd pathname (row.int .flag_value)
  | .symlink => some (.symlink (row.text .target_pathname) pathname)
  | .rmdir => some (.rmdir pathname)
  | .mkdir => md.map fun md => .mkdir pathname md
  | .mkdirat => do return .mkdirat (← dirfd) pathname (← md)
  | .mknod => md.map fun md => .mknod pathname md (row.int .dev)
  | .stat => some (.stat pathname)
  | .lstat => some (.lstat pathname)
  | .fstat => fd.map fun fd => .fstat fd
  | .fstatat => dirfd.map fun dirfd => .fstatat dirfd pathname (row.int .flags_value)
  | .statfs => some (.statfs pathname)
  | .fstatfs => fd.map fun fd => .fstatfs fd
  | .readlink => some (.readlink pathname (row.int .buffer_size))
  | .utime => some (.utime pathname (rowTimes row))
  | .utimes => some (.utimes pathname (rowTimes row))
  | .utimensat =>
      if row.isNull .given_pathname then
        fd.map fun fd => .utimensat fd none (rowTimes row) (row.int .flag_value)
      else dirfd.map fun dirfd =>
        .utimensat dirfd (some pathname) (rowTimes row) (row.int .flag_value)
  | .chmod => md.map fun md => .chmod pathname md
  | .fchmod => do return .fchmod (← fd) (← md)
  | .fchmodat => do return .fchmodat (← dirfd) pathname (← md) (row.int .flag_value)
  | .chown =>
      some (.chown pathname (row.int .new_owner % 2 ^ 32) (row.int .new_group % 2 ^ 32))
  | .rename => some (.rename (row.text .given_oldname) (row.text .given_newname))
  | .readv => fd.map fun fd => .readv fd (readvIov row rest) (row.int .count)
  | .writev => fd.map fun fd => .writev fd (writevIov opts row rest) (row.int .count)
  | .fsync => fd.map fun fd => .fsync fd
  | .fdatasync => fd.map fun fd => .fdatasync fd
  | .fallocate => fd.map fun fd =>
      .fallocate fd (row.int .mode_value) (row.int .allocate_offset) (row.int .allocate_len)
  | .readahead => fd.map fun fd =>
      .readahead fd (row.int .readahead_off) (row.int .readahead_size)
  | .pipe => some (.pipe !(row.int .read_descriptor = 0 && row.int .write_descriptor = 0))
  | .dup => fd.map fun fd => .dup fd
  | .dup2 => redirection w row .dup2
  | .dup3 => redirection w row fun oldFd newFd => .dup3 oldFd newFd (row.int .flags)
  | .fcntl => fd.map fun fd => .fcntl fd (row.int .command_value)
      (fcntlArgument (row.int .command_value) (row.int .argument_value) (row.int .lock_type)
        (row.int .lock_whence) (row.int .lock_start) (row.int .lock_length)
        (row.int .lock_pid))
  | .mmap => fd.map fun fd => .mmap (row.int .start_address) (row.int .length)
      (row.int .protection_value) (row.int .flags_value) fd (row.int .offset)
  | .getdents => fd.map fun fd => .getdents fd (int32 (row.int .count))
  | .ioctl => fd.map fun fd => .ioctl fd (row.int .request % 2 ^ 32) (ioctlThird row)
  | .setxattr => some (.setxattr pathname (row.text .xattr_name) value (row.int .flag_value))
  | .lsetxattr => some (.lsetxattr pathname (row.text .xattr_name) value (row.int .flag_value))
  | .fsetxattr => fd.map fun fd =>
      .fsetxattr fd (row.text .xattr_name) value (row.int .flag_value)
  | .mmappread | .exit | .execve | .munmap | .clone | .vfork | .umask | .socket | .socketpair
  | .epoll_create | .accept | .accept4 => none

/-- What a module issues besides, for the descriptors that the replay has open. -/
def housekeeping (kind : SysCallKind) (call : SystemCall) : Bool :=
  match kind, call with
  | .open_, .close _ | .openat, .close _ | .exit, .close _ => true
  | .clone, .dup _ | .vfork, .dup _ => true
  | _, _ => false

/-- On the way from `w` to `w'` the call is issued and nothing else but housekeeping. -/
def Issued (kind : SysCallKind) (call : Option SystemCall) (w w' : World) : Prop :=
  ∃ extra, w'.issued = w.issued ++ call.toList ++ extra ∧
    ∀ c ∈ extra, housekeeping kind c = true

namespace Issued

variable {kind : SysCallKind} {call : Option SystemCall} {w w' w'' : World}

theorem of_eq (h : w'.issued = w.issued) : Issued kind none w w' :=
  ⟨[], by simpa using h, fun _ hc => absurd hc List.not_mem_nil⟩

theorem serve (w : World) (c : SystemCall) : Issued kind (some c) w (w.serve c) :=
  ⟨[], by simp, fun _ hc => absurd hc List.not_mem_nil⟩

theorem trans (h : Issued kind call w w') (h' : Issued kind none w' w'') :
    Issued kind call w w'' := by
  obtain ⟨extra, hissued, hextra⟩ := h
  obtain ⟨extra', hissued', hextra'⟩ := h'
  refine ⟨extra ++ extra', by rw [hissued', hissued]; simp, ?_⟩
  intro c hc
  rcases List.mem_append.mp hc with hc | hc
  · exact hextra c hc
  · exact hextra' c hc

theorem congr_left (heq : w'.issued = w.issued) (h : Issued kind call w' w'') :
    Issued kind call w w'' := by
  obtain ⟨extra, hissued, hextra⟩ := h
  exact ⟨extra, by rw [hissued, heq], hextra⟩

theorem closing {c : SystemCall} (hc : housekeeping kind c = true) :
    Issued kind none w (w.serve c) :=
  ⟨[c], by simp, fun c' hc' => List.mem_singleton.mp hc' ▸ hc⟩

theorem eq {c c' : SystemCall} (h : Issued kind (some c) w w') (h' : Issued kind (some c') w w') :
    c = c' := by
  obtain ⟨extra, hissued, -⟩ := h
  obtain ⟨extra', hissued', -⟩ := h'
  rw [hissued'] at hissued
  simp only [List.append_assoc, List.append_cancel_left_eq] at hissued
  exact (List.cons.inj hissued).1.symm

theorem not_none {c : SystemCall} (hc : housekeeping kind c = false)
    (h : Issued kind (some c) w w') : ¬Issued kind none w w' := by
  rintro ⟨extra, hissued, hextra⟩
  obtain ⟨extra', hissued', -⟩ := h
  rw [hissued'] at hissued
  simp only [List.append_assoc, List.append_cancel_left_eq] at hissued
  change c :: extra' = extra at hissued
  subst hissued
  rw [hextra c List.mem_cons_self] at hc
  cases hc

theorem not_self {c : SystemCall} : ¬Issued kind (some c) w w := by
  rintro ⟨extra, hissued, -⟩
  have hlength := congrArg List.length hissued
  simp at hlength

end Issued

/-- Every finished run of the program issues housekeeping at most. -/
def Quiet {α : Type} (kind : SysCallKind) (program : Replay α) : Prop :=
  ∀ ⦃w a w'⦄, program w = some (a, w') → Issued kind none w w'

namespace Quiet

variable {α β : Type} {kind : SysCallKind}

theorem pure (a : α) : Quiet kind (pure a) := by
  intro w b w' h
  obtain rfl := (Prod.mk.inj (Option.some.inj h)).2
  exact .of_eq rfl

theorem bind {m : Replay α} {f : α → Replay β} (hm : Quiet kind m)
    (hf : ∀ a, Quiet kind (f a)) : Quiet kind (m >>= f) := by
  intro w b w' h
  obtain ⟨a, v, hmv, hfv⟩ := bind_eq_some.mp h
  exact (hm hmv).trans (hf a hfv)

theorem ite {c : Prop} [Decidable c] {m m' : Replay α} (hm : Quiet kind m)
    (hm' : Quiet kind m') : Quiet kind (if c then m else m') := by
  split
  · exact hm
  · exact hm'

theorem lift (o : Option α) : Quiet kind (o : Replay α) := by
  intro w a w' h
  obtain ⟨-, rfl⟩ := lift_eq_some.mp h
  exact .of_eq rfl

theorem intSyscall {call : SystemCall} (h : housekeeping kind call = true) :
    Quiet kind (intSyscall call) := by
  intro w a w' hrun
  rw [intSyscall_apply] at hrun
  obtain rfl := (Prod.mk.inj (Option.some.inj hrun)).2
  exact .closing h

theorem change (f : Manager → Option (α × Manager)) : Quiet kind (changeManager f) := by
  intro w a w' h
  obtain ⟨result, -, heq⟩ := Option.map_eq_some_iff.mp h
  obtain ⟨-, rfl⟩ := Prod.mk.inj heq
  exact .of_eq rfl

theorem query (f : Manager → Option α) : Quiet kind (queryManager f) := by
  intro w a w' h
  obtain ⟨result, -, heq⟩ := Option.map_eq_some_iff.mp h
  obtain ⟨-, rfl⟩ := Prod.mk.inj heq
  exact .of_eq rfl

theorem update (f : Manager → Option Manager) : Quiet kind (updateManager f) :=
  change fun m => (f m).map fun m' => ((), m')

theorem addFd (pid tracedFd replayedFd : Int) (flags : BitVec 32) :
    Quiet kind (addFd pid tracedFd replayedFd flags) :=
  update _

theorem area (pid : Int) (f : List VirtualAddressSpace.VMNode → List VirtualAddressSpace.VMNode) :
    Quiet kind (modifyArea pid f) := by
  intro w a w' h
  obtain rfl := (Prod.mk.inj (Option.some.inj h)).2
  exact .of_eq rfl

theorem foldlM {f : β → α → Replay β} (hf : ∀ b a, Quiet kind (f b a)) (l : List α) (b : β) :
    Quiet kind (l.foldlM f b) := by
  induction l generalizing b with
  | nil => exact pure b
  | cons a l ih =>
      rw [List.foldlM_cons]
      exact bind (hf b a) fun b' => ih b'

theorem startProcess (ppid pid : Int) (sharedUmask sharedFiles : Bool)
    (hdup : ∀ fd, housekeeping kind (.dup fd) = true) :
    Quiet kind (startProcess ppid pid sharedUmask sharedFiles) := by
  have hentry : ∀ t entry, Quiet kind (cloneEntry t entry) := by
    intro t entry
    unfold cloneEntry
    split
    · exact bind (intSyscall (hdup _)) fun newFd => lift _
    · exact bind (pure _) fun newFd => lift _
  refine bind (update _) fun _ => bind (ite (update _) ?_) fun _ => ?_
  · exact bind (query _) fun parent => bind (foldlM hentry _ _) fun child => update _
  · intro w a w' h
    obtain rfl := (Prod.mk.inj (Option.some.inj h)).2
    exact .of_eq rfl

theorem simulateDescriptor (pid tracedFd : Int) (flags : BitVec 32) :
    Quiet kind (simulateDescriptor pid tracedFd flags) :=
  ite (bind (addFd _ _ _ _) fun _ => pure _) (pure _)

end Quiet

end SyscallReplayer.IssuedCalls
