import SyscallReplayer.ComposedPrograms
import SyscallReplayer.ModuleEffects

/-!
# What the modules are made of

A module issues calls, asks the resources manager and runs its operations, may create
an empty address map and may start a thread. Only `mmap` and `munmap` change an address
map. The descriptors that it names come from the tables and from the kernel.
-/

namespace SyscallReplayer.ModulePrograms

open CInt ReplayKernel ResourcesManager ReplayWorld ReplayModules
open VirtualAddressSpace ComposedPrograms SnapshotFidelity

/-- What a program may do: change an address map, make, remove or change the entries
of some traced descriptors, issue some calls. The replayed descriptors that it gets
hold of and enters are all of some kind. -/
structure Scope where
  maps : Prop
  touches : Int → Prop
  issues : SystemCall → Prop
  holds : Int → Prop
  simulated : holds syscallSimulated

def anything : Scope :=
  ⟨True, fun _ => True, fun _ => True, fun _ => True, trivial⟩

/-- The operations within a scope, and what is known of their values. The calls that
copy a table and the entries that `execve` closes are always within it. -/
inductive Operation (S : Scope) : (α : Type) → Replay α → (α → Prop) → Prop
  | syscall {call : SystemCall} (h : S.issues call) :
      Operation S Int (syscall call) fun _ => True
  | opened {call : SystemCall} (hcall : opensOne call = true) (h : S.issues call) :
      Operation S Int (intSyscall call) S.holds
  | redirected {call : SystemCall} {oldFd target : Int}
      (hcall : ∀ w : World, ∃ allowed,
        outcome w.openFds w.reply call = redirected w.openFds allowed oldFd target)
      (htarget : S.holds target) (h : S.issues call) :
      Operation S Int (intSyscall call) S.holds
  | query {α : Type} (f : Manager → Option α) :
      Operation S α (queryManager f) fun _ => True
  | getFd (pid tracedFd : Int) : Operation S Int (getFd pid tracedFd) S.holds
  | generateUnusedFd (pid : Int) : Operation S Int (generateUnusedFd pid) S.holds
  | addFd (pid : Int) {tracedFd replayedFd : Int} (flags : BitVec 32)
      (h : S.touches (int32 tracedFd)) (hheld : S.holds replayedFd) :
      Operation S Unit (addFd pid tracedFd replayedFd flags) fun _ => True
  | removeFd (pid : Int) {tracedFd : Int} (h : S.touches tracedFd) :
      Operation S Int (removeFd pid tracedFd) S.holds
  | addFlags (pid : Int) {tracedFd : Int} (flags : BitVec 32) (h : S.touches tracedFd) :
      Operation S Unit (addFlags pid tracedFd flags) fun _ => True
  | execveEntry (pid retVal tracedFd : Int) :
      Operation S Unit (execveEntry pid retVal tracedFd) fun _ => True
  | removeFdTable (pid : Int) :
      Operation S (List Int) (removeFdTable pid) fun fds => ∀ fd ∈ fds, S.holds fd
  | cloneFdTable (ppid pid : Int) (shared : Bool) :
      Operation S Unit (cloneFdTable ppid pid shared) fun _ => True
  | setUmask (pid : Int) (mode : BitVec 32) : Operation S Unit (setUmask pid mode) fun _ => True
  | removeUmask (pid : Int) : Operation S Unit (removeUmask pid) fun _ => True
  | cloneUmask (ppid pid : Int) (shared : Bool) :
      Operation S Unit (cloneUmask ppid pid shared) fun _ => True
  | createArea (pid : Int) : Operation S Unit (modifyArea pid id) fun _ => True
  | modifyArea (h : S.maps) (pid : Int) (f : List VMNode → List VMNode) :
      Operation S Unit (modifyArea pid f) fun _ => True
  | startThread (pid : Int) : Operation S Unit (startThread pid) fun _ => True

theorem Operation.values {S : Scope} (hall : ∀ fd, S.holds fd) {α : Type} {m : Replay α}
    {Q : α → Prop} (h : Operation S α m Q) : ∀ a, Q a := by
  cases h with
  | opened | redirected | getFd | generateUnusedFd | removeFd => exact hall
  | removeFdTable => exact fun _ fd _ => hall fd
  | _ => exact fun _ => trivial

abbrev Program (S : Scope) {α : Type} (m : Replay α) : Prop :=
  Composed (Operation S) m fun _ => True

/-- The calls that leave the open descriptors as they are. -/
def plain : SystemCall → Bool
  | .open_ _ _ _ | .openat _ _ _ _ | .creat _ _ | .close _ | .dup _ | .dup2 _ _ | .dup3 _ _ _
  | .fcntl _ _ _ | .pipe _ => false
  | _ => true

/-- The descriptors that a call is told to act on, or to start from. -/
def names : SystemCall → List Int
  | .close fd | .read fd _ | .pread fd _ _ | .write fd _ _ | .pwrite fd _ _ _ | .lseek fd _ _
  | .fchdir fd | .ftruncate fd _ | .fstat fd | .fstatfs fd | .fchmod fd _ | .readv fd _ _
  | .writev fd _ _ | .fsync fd | .fdatasync fd | .fallocate fd _ _ _ | .readahead fd _ _
  | .dup fd | .fcntl fd _ _ | .getdents fd _ | .ioctl fd _ _ | .fsetxattr fd _ _ _
  | .mmap _ _ _ _ fd _ => [fd]
  | .openat dirfd _ _ _ | .faccessat dirfd _ _ _ | .unlinkat dirfd _ _ | .mkdirat dirfd _ _
  | .fstatat dirfd _ _ | .utimensat dirfd _ _ _ | .fchmodat dirfd _ _ _ => [dirfd]
  | .linkat oldFd _ newFd _ _ | .dup2 oldFd newFd | .dup3 oldFd newFd _ => [oldFd, newFd]
  | _ => []

/-- The calls of some kind that name descriptors of the scope are in the scope. -/
def Scope.Allows (S : Scope) (calls : SystemCall → Prop) : Prop :=
  ∀ call, calls call → (∀ fd ∈ names call, S.holds fd) → S.issues call

section

variable {S : Scope} {α : Type}

theorem Scope.Allows.unnamed {calls : SystemCall → Prop} (h : S.Allows calls)
    {call : SystemCall} (hcall : calls call) (hnames : names call = []) : S.issues call := by
  apply h call hcall
  rw [hnames]
  exact fun fd hfd => absurd hfd List.not_mem_nil

theorem Scope.Allows.named {calls : SystemCall → Prop} (h : S.Allows calls)
    {call : SystemCall} (hcall : calls call) {fd : Int} (hnames : names call = [fd])
    (hheld : S.holds fd) : S.issues call := by
  apply h call hcall
  rw [hnames]
  intro fd' hfd'
  obtain rfl := List.mem_singleton.mp hfd'
  exact hheld

theorem Scope.Allows.named₂ {calls : SystemCall → Prop} (h : S.Allows calls)
    {call : SystemCall} (hcall : calls call) {oldFd newFd : Int}
    (hnames : names call = [oldFd, newFd]) (hold : S.holds oldFd) (hnew : S.holds newFd) :
    S.issues call := by
  apply h call hcall
  rw [hnames]
  intro fd hfd
  rcases List.mem_cons.mp hfd with rfl | hfd
  · exact hold
  · obtain rfl := List.mem_singleton.mp hfd
    exact hnew

theorem program_syscall {call : SystemCall} (h : S.issues call) : Program S (syscall call) :=
  .prim (.syscall h)

theorem program_intSyscall {call : SystemCall} (h : S.issues call) :
    Program S (intSyscall call) :=
  .bind (program_syscall h) fun _ _ => .pure _ trivial

theorem program_query (f : Manager → Option α) : Program S (queryManager f) :=
  .prim (.query f)

theorem held_getFd (pid tracedFd : Int) :
    Composed (Operation S) (getFd pid tracedFd) S.holds :=
  .prim (.getFd pid tracedFd)

theorem held_pure {fd : Int} (h : S.holds fd) :
    Composed (Operation S) (pure fd : Replay Int) S.holds :=
  .pure fd h

theorem program_getMode (pid : Int) (mode : BitVec 32) :
    Program S (getMode pid mode) :=
  .bind (program_query _) fun _ _ => .pure _ trivial

theorem program_addFd (pid : Int) {tracedFd replayedFd : Int} (flags : BitVec 32)
    (h : S.touches (int32 tracedFd)) (hheld : S.holds replayedFd) :
    Program S (addFd pid tracedFd replayedFd flags) :=
  .prim (.addFd pid flags h hheld)

theorem program_onDescriptor (pid tracedFd : Int) {simulated : Replay Int}
    {real : Int → Replay Int} (hsimulated : Program S simulated)
    (hreal : ∀ fd, S.holds fd → Program S (real fd)) :
    Program S (onDescriptor pid tracedFd simulated real) :=
  .bind (held_getFd _ _) fun fd hfd => .ite hsimulated (hreal fd hfd)

theorem program_atDirectory (pid tracedFd : Int) (pathname : String) (simulated : Int)
    {real : Int → Replay Int} (hreal : ∀ fd, S.holds fd → Program S (real fd)) :
    Program S (atDirectory pid tracedFd pathname simulated real) :=
  .bind (held_getFd _ _) fun fd hfd => .ite (.pure _ trivial) (hreal fd hfd)

section Handling

variable (hissues : S.Allows fun _ => True)

include hissues

theorem program_keeps {dropped : Prop} [Decidable dropped] (pid : Int) {tracedFd fd : Int}
    (flags : BitVec 32) (h : S.touches (int32 tracedFd)) (hfd : S.holds fd) :
    Program S (do
      if dropped then
        let _ ← syscall (.close fd)
      else
        addFd pid tracedFd fd flags
      return fd : Replay Int) := by
  split
  · exact .bind (program_syscall (hissues.named trivial rfl hfd)) fun _ _ => .pure _ trivial
  · exact .bind (program_addFd _ _ h hfd) fun _ _ => .pure _ trivial

theorem program_open (pid flags : Int) {tracedFd : Int} (pathname : String)
    (modeVal : BitVec 32) (h : S.touches (int32 tracedFd)) :
    Program S (openProcessRow pid pathname modeVal flags tracedFd) := by
  refine .bind (program_getMode _ _) fun mode _ => ?_
  refine .bind (.prim (.opened rfl (hissues.unnamed trivial rfl))) fun fd hfd => ?_
  exact program_keeps hissues _ _ h hfd

theorem program_openat (pid : Int) {row : Row}
    (h : S.touches (int32 (row.int .return_value))) :
    Program S (openatProcessRow pid row) := by
  refine .bind (held_getFd _ _) fun dirfd hdirfd => .bind (program_getMode _ _) fun mode _ =>
    .ite (.pure _ trivial) ?_
  refine .bind (.prim (.opened rfl (hissues.named trivial rfl hdirfd))) fun fd hfd => ?_
  exact program_keeps hissues _ _ h hfd

theorem program_creat (pid : Int) {row : Row}
    (h : S.touches (int32 (row.int .return_value))) :
    Program S (creatProcessRow pid row) := by
  refine .bind (program_getMode _ _) fun mode _ => ?_
  refine .bind (.prim (.opened rfl (hissues.unnamed trivial rfl))) fun fd hfd => ?_
  exact .bind (program_addFd _ _ h hfd) fun _ _ => .pure _ trivial

theorem program_close (pid replayed : Int) {descVal : Int} (h : S.touches descVal) :
    Program S (closeProcessRow pid replayed descVal) :=
  .bind (.prim (.removeFd _ h)) fun _ hfd =>
    .ite (.pure _ trivial) (program_intSyscall (hissues.named trivial rfl hfd))

theorem program_dup (pid fileDescriptor : Int) {returnValue : Int}
    (h : S.touches (int32 returnValue)) (hvalue : S.holds (int32 returnValue)) :
    Program S (dupProcessRow pid returnValue fileDescriptor) := by
  refine .bind (held_getFd _ _) fun fd hfd => .bind (program_query _) fun flags _ => ?_
  have hadd : ∀ replayed, S.holds replayed → Program S (do
      addFd pid returnValue replayed (flags &&& ~~~oCloexec)
      return replayed : Replay Int) := fun replayed hreplayed =>
    .bind (program_addFd _ _ h hreplayed) fun _ _ => .pure _ trivial
  dsimp only
  split
  · exact .bind (held_pure hvalue) hadd
  · exact .bind (.prim (.opened rfl (hissues.named trivial rfl hfd))) hadd

theorem program_duplicateTo (pid oldFd : Int) {returnValue newFd : Int}
    (newFdFlags : BitVec 32 → BitVec 32) {call : Int → Int → SystemCall}
    (hcall : ∀ fd target, names (call fd target) = [fd, target] ∧ ∀ w : World, ∃ allowed,
      outcome w.openFds w.reply (call fd target) = redirected w.openFds allowed fd target)
    (hnew : S.touches newFd) (hvalue : S.touches (int32 returnValue)) :
    Program S (duplicateTo pid returnValue oldFd newFd newFdFlags call) := by
  have hint : S.touches (int32 (int32 returnValue)) := by rwa [int32_int32]
  have hrest : ∀ fd, S.holds fd → ∀ held, S.holds held → ∀ flags : BitVec 32, Program S (do
      if fd = syscallSimulated then
        addFd pid (int32 returnValue) syscallSimulated (newFdFlags flags)
        return int32 returnValue
      else
        let target ← if held = syscallSimulated then generateUnusedFd pid else pure held
        let replayed ← intSyscall (call fd target)
        addFd pid returnValue replayed (newFdFlags flags)
        return replayed : Replay Int) := by
    intro fd hfd held hheld flags
    refine .ite (.bind (program_addFd _ _ hint S.simulated) fun _ _ => .pure _ trivial) ?_
    have hredirected : ∀ target, S.holds target → Program S (do
        let replayed ← intSyscall (call fd target)
        addFd pid returnValue replayed (newFdFlags flags)
        return replayed : Replay Int) := by
      intro target htarget
      obtain ⟨hnames, houtcome⟩ := hcall fd target
      have hissued := hissues.named₂ trivial hnames hfd htarget
      refine .bind (.prim (.redirected houtcome htarget hissued)) fun replayed hreplayed => ?_
      exact .bind (program_addFd _ _ hvalue hreplayed) fun _ _ => .pure _ trivial
    dsimp only
    split
    · exact .bind (.prim (.generateUnusedFd _)) hredirected
    · exact .bind (held_pure hheld) hredirected
  refine .bind (held_getFd _ _) fun fd hfd => .bind (program_query _) fun flags _ =>
    .bind (program_query _) fun has _ => ?_
  dsimp only
  split
  · exact .bind (.prim (.removeFd _ hnew)) fun held hheld => hrest fd hfd held hheld flags
  · exact .bind (held_pure S.simulated) fun held hheld => hrest fd hfd held hheld flags

end Handling

/-- The traced descriptors whose entries `fcntl` makes or changes. -/
def touchedByFcntl (returnValue tracedFd command : Int) : List Int :=
  if command = fDupfd ∨ command = fDupfdCloexec then [int32 returnValue]
  else if command = fSetfd then [tracedFd] else []

theorem program_fcntl (hissues : S.Allows fun _ => True)
    (pid argVal type whence start length lockPid : Int) {returnValue tracedFd command : Int}
    (h : ∀ k ∈ touchedByFcntl returnValue tracedFd command, S.touches k) :
    Program S (fcntlProcessRow pid returnValue tracedFd command argVal type whence
      start length lockPid) := by
  refine .bind (held_getFd _ _) fun fd hfd => ?_
  have hissued : S.issues (.fcntl fd command
      (fcntlArgument command argVal type whence start length lockPid)) :=
    hissues.named trivial rfl hfd
  by_cases hdup : command = fDupfd ∨ command = fDupfdCloexec
  · rw [touchedByFcntl, if_pos hdup] at h
    have htable : ∀ replayed, S.holds replayed → Program S
        (fcntlTable pid returnValue replayed tracedFd command argVal) := by
      intro replayed hreplayed
      rw [fcntlTable, if_pos hdup]
      exact .bind (program_query _) fun flags _ =>
        program_addFd _ _ (h _ List.mem_cons_self) hreplayed
    have hopens : opensOne (.fcntl fd command
        (fcntlArgument command argVal type whence start length lockPid)) = true := by
      simpa [opensOne] using hdup
    exact .bind (.prim (.opened hopens hissued)) fun replayed hreplayed =>
      .bind (htable replayed hreplayed) fun _ _ => .pure _ trivial
  · rw [touchedByFcntl, if_neg hdup] at h
    have htable : ∀ replayed, Program S
        (fcntlTable pid returnValue replayed tracedFd command argVal) := by
      intro replayed
      rw [fcntlTable, if_neg hdup]
      split
      · rename_i hsetfd
        rw [if_pos hsetfd] at h
        exact .ite (.prim (.addFlags _ _ (h _ List.mem_cons_self))) (.pure _ trivial)
      · exact .pure _ trivial
    exact .bind (program_intSyscall hissued) fun replayed _ =>
      .bind (htable replayed) fun _ _ => .pure _ trivial

theorem program_addPair (pid : Int) {readFd writeFd : Int} (replayed : Int)
    (hread : S.touches (int32 readFd)) (hwrite : S.touches (int32 writeFd)) :
    Program S (do
      addFd pid readFd syscallSimulated 0
      addFd pid writeFd syscallSimulated 0
      return replayed : Replay Int) :=
  .bind (program_addFd _ _ hread S.simulated) fun _ _ =>
    .bind (program_addFd _ _ hwrite S.simulated) fun _ _ => .pure _ trivial

theorem program_exit (hissues : S.Allows fun _ => True) (pid replayed : Int) :
    Program S (exitProcessRow pid replayed) := by
  refine .bind (.prim (.removeUmask _)) fun _ _ =>
    .bind (.prim (.removeFdTable _)) fun fds hfds => ?_
  refine .bind (.forM fds fun fd hfd => ?_) fun _ _ => .pure _ trivial
  exact .bind (program_syscall (hissues.named trivial rfl (hfds fd hfd))) fun _ _ =>
    .pure _ trivial

theorem program_execve (pid replayed retVal : Int) :
    Program S (execveProcessRow pid replayed retVal) :=
  .bind (program_query _) fun fds _ =>
    .bind (.forM fds fun k _ => .prim (.execveEntry _ _ k)) fun _ _ => .pure _ trivial

theorem program_simulateDescriptor (pid : Int) {tracedFd : Int} (flags : BitVec 32)
    (h : S.touches (int32 tracedFd)) :
    Program S (simulateDescriptor pid tracedFd flags) :=
  .ite (.bind (program_addFd _ _ h S.simulated) fun _ _ => .pure _ trivial) (.pure _ trivial)

theorem program_accept4 (pid : Int) {returnValue : Int}
    (h : S.touches (int32 (int32 returnValue))) :
    Program S (accept4ProcessRow pid returnValue) := by
  unfold accept4ProcessRow
  dsimp only
  split
  · exact .bind (program_addFd _ _ h S.simulated) fun _ _ => .pure _ trivial
  · exact .pure _ trivial

theorem program_startProcess (ppid pid : Int) (sharedUmask sharedFiles : Bool) :
    Program S (startProcess ppid pid sharedUmask sharedFiles) :=
  .bind (.prim (.cloneUmask _ _ _)) fun _ _ => .bind (.prim (.cloneFdTable _ _ _)) fun _ _ =>
    .prim (.startThread _)

theorem program_mmap (h : S.maps) (hplain : S.Allows (plain · = true)) (pid replayed
    startAddress sizeOfMap protectionVal flagsVal descriptorVal offsetVal mmapReturnVal : Int) :
    Program S (mmapProcessRow pid replayed startAddress sizeOfMap protectionVal
      flagsVal descriptorVal offsetVal mmapReturnVal) := by
  refine .bind (held_getFd _ _) fun fd hfd => ?_
  refine .bind (program_syscall (hplain.named rfl rfl hfd)) fun address _ => ?_
  exact .ite (.pure _ trivial) (.bind (.prim (.modifyArea h _ _)) fun _ _ => .pure _ trivial)

theorem program_munmap (h : S.maps) (pid replayed startAddress sizeOfMap : Int) :
    Program S (munmapProcessRow pid replayed startAddress sizeOfMap) :=
  .bind (.prim (.modifyArea h _ _)) fun _ _ => .pure _ trivial

/-- The members of the calls that change an address map. -/
def changesArea : Members → Bool
  | .mmap .. | .munmap _ _ => true
  | _ => false

/-- The members of the calls that open, close or duplicate a descriptor. -/
def handlesDescriptors : Members → Bool
  | .open_ .. | .close _ | .dup _ | .dup2 _ _ | .dup3 _ _ _ | .fcntl .. | .pipe _ _
  | .exit _ _ => true
  | _ => false

/-- The traced descriptors whose entries a module on its members may make, remove or
change, apart from what `execve` closes. -/
def touched (m : ReplayModule) : List Int :=
  match m.members with
  | .open_ _ _ _ tracedFd => [int32 tracedFd]
  | .close descVal => [descVal]
  | .dup _ | .socket _ _ _ | .epoll_create _ | .accept _ | .accept4 _ =>
      [int32 m.common.returnVal]
  | .dup2 _ newFd | .dup3 _ newFd _ => [newFd, int32 m.common.returnVal]
  | .fcntl tracedFd command _ _ _ _ _ _ _ =>
      touchedByFcntl m.common.returnVal tracedFd command
  | .pipe readFd writeFd | .socketpair readFd writeFd => [int32 readFd, int32 writeFd]
  | _ => []

/-- A `dup` of a simulated descriptor enters what the traced call returned. -/
theorem program_processMembers (opts : Options) (m : ReplayModule)
    (hmaps : changesArea m.members = true → S.maps) (h : ∀ k ∈ touched m, S.touches k)
    (hplain : S.Allows (plain · = true))
    (hhandles : handlesDescriptors m.members = true → S.Allows fun _ => True)
    (hdup : ∀ k, m.members = .dup k → S.holds (int32 m.common.returnVal)) :
    Program S (processMembers opts m) := by
  obtain ⟨kind, c, replayed, members⟩ := m
  have hcall : ∀ {call}, plain call = true → names call = [] → Program S (intSyscall call) :=
    fun hcall hnames => program_intSyscall (hplain.unnamed hcall hnames)
  have hheld : ∀ {call fd}, S.holds fd → plain call = true → names call = [fd] →
      Program S (intSyscall call) :=
    fun hfd hcall hnames => program_intSyscall (hplain.named hcall hnames hfd)
  cases members
  case none | chroot => exact .pure _ trivial
  case open_ => exact program_open (hhandles rfl) _ _ _ _ (h _ List.mem_cons_self)
  case close => exact program_close (hhandles rfl) _ _ (h _ List.mem_cons_self)
  case mmappread =>
    exact program_onDescriptor _ _ (.pure _ trivial) fun fd _ =>
      .bind (.prim (.createArea _)) fun _ _ => .pure _ trivial
  case read | pread | write | lseek | fchdir | fstat | fstatat | fsync | fdatasync | fallocate
      | readahead | ioctl =>
    exact program_onDescriptor _ _ (.pure _ trivial) fun fd hfd => hheld hfd rfl rfl
  case pwrite =>
    refine program_onDescriptor _ _ (.pure _ trivial) fun fd hfd => .ite (hheld hfd rfl rfl) ?_
    exact .bind (.lift _ fun _ _ => trivial) fun size _ => hheld hfd rfl rfl
  case getdents =>
    refine program_onDescriptor _ _ (.pure _ trivial) fun fd hfd => ?_
    exact .bind (.lift _ fun _ _ => trivial) fun count _ => hheld hfd rfl rfl
  case access | mkdir | chmod =>
    exact .bind (program_getMode _ _) fun mode _ => hcall rfl rfl
  case chdir | link | unlink | rmdir | stat | lstat | statfs | readlink | chown | rename =>
    exact hcall rfl rfl
  case utime => exact .ite (hcall rfl rfl) (hcall rfl rfl)
  case fchmod =>
    exact .bind (held_getFd _ _) fun fd hfd => .bind (program_getMode _ _) fun mode _ =>
      .ite (.pure _ trivial) (hheld hfd rfl rfl)
  case ftruncate => exact .bind (held_getFd _ _) fun fd hfd => hheld hfd rfl rfl
  case pipe =>
    exact .bind (program_intSyscall ((hhandles rfl).unnamed trivial rfl)) fun _ _ =>
      program_addPair _ _ (h _ List.mem_cons_self) (h _ (.tail _ List.mem_cons_self))
  case socketpair =>
    exact program_addPair _ _ (h _ List.mem_cons_self) (h _ (.tail _ List.mem_cons_self))
  case dup k => exact program_dup (hhandles rfl) _ _ (h _ List.mem_cons_self) (hdup k rfl)
  case dup2 | dup3 =>
    exact program_duplicateTo (hhandles rfl) _ _ _ (fun _ _ => ⟨rfl, fun _ => ⟨_, rfl⟩⟩)
      (h _ List.mem_cons_self) (h _ (.tail _ List.mem_cons_self))
  case fcntl => exact program_fcntl (hhandles rfl) _ _ _ _ _ _ _ h
  case exit => exact program_exit (hhandles rfl) _ _
  case execve => exact program_execve _ _ _
  case mmap => exact program_mmap (hmaps rfl) hplain _ _ _ _ _ _ _ _ _
  case munmap => exact program_munmap (hmaps rfl) _ _ _ _
  case clone | vfork => exact .bind (program_startProcess _ _ _ _) fun _ _ => .pure _ trivial
  case umask => exact .bind (.prim (.setUmask _ _)) fun _ _ => .pure _ trivial
  case socket | epoll_create | accept =>
    refine program_simulateDescriptor _ _ ?_
    rw [int32_int32]
    exact h _ List.mem_cons_self
  case accept4 =>
    refine program_accept4 _ ?_
    rw [int32_int32]
    exact h _ List.mem_cons_self

theorem program_processCurrentRow (opts : Options) (m : ReplayModule) (row : Row)
    (rest : List Row) (program : Replay Int)
    (hprogram : processCurrentRow opts m row rest = some program)
    (h : m.sysCallName = .openat ∨ m.sysCallName = .creat →
      S.touches (int32 (row.int .return_value)) ∧ S.Allows fun _ => True)
    (hplain : S.Allows (plain · = true)) : Program S program := by
  obtain ⟨kind, c, replayed, members⟩ := m
  have hcall : ∀ {call}, plain call = true → names call = [] → Program S (intSyscall call) :=
    fun hcall hnames => program_intSyscall (hplain.unnamed hcall hnames)
  have hheld : ∀ {call fd}, S.holds fd → plain call = true → names call = [fd] →
      Program S (intSyscall call) :=
    fun hfd hcall hnames => program_intSyscall (hplain.named hcall hnames hfd)
  cases kind
  case openat =>
    obtain rfl := Option.some.inj hprogram
    exact program_openat (h (.inl rfl)).2 _ (h (.inl rfl)).1
  case creat =>
    obtain rfl := Option.some.inj hprogram
    exact program_creat (h (.inr rfl)).2 _ (h (.inr rfl)).1
  case faccessat | mkdirat | fchmodat =>
    obtain rfl := Option.some.inj hprogram
    exact .bind (held_getFd _ _) fun fd hfd => .bind (program_getMode _ _) fun mode _ =>
      .ite (.pure _ trivial) (hheld hfd rfl rfl)
  case unlinkat =>
    obtain rfl := Option.some.inj hprogram
    exact program_atDirectory _ _ _ _ fun dirfd hdirfd => hheld hdirfd rfl rfl
  case linkat =>
    obtain rfl := Option.some.inj hprogram
    exact .bind (held_getFd _ _) fun oldFd hold => .bind (held_getFd _ _) fun newFd hnew =>
      .ite (.pure _ trivial) (program_intSyscall (hplain.named₂ rfl rfl hold hnew))
  case utimes | truncate | symlink =>
    obtain rfl := Option.some.inj hprogram
    exact hcall rfl rfl
  case utimensat =>
    obtain rfl := Option.some.inj hprogram
    exact .bind (held_getFd _ _) fun dirfd hdirfd =>
      .ite (.pure _ trivial) (hheld hdirfd rfl rfl)
  case fstatfs =>
    obtain rfl := Option.some.inj hprogram
    exact program_onDescriptor _ _ (.pure _ trivial) fun fd hfd => hheld hfd rfl rfl
  case mknod =>
    obtain rfl := Option.some.inj hprogram
    exact .bind (program_getMode _ _) fun mode _ => hcall rfl rfl
  case readv | writev =>
    obtain rfl := Option.some.inj hprogram
    exact .bind (held_getFd _ _) fun fd hfd => .bind (.lift _ fun _ _ => trivial) fun count _ =>
      .ite (.pure _ trivial) (hheld hfd rfl rfl)
  case setxattr | lsetxattr =>
    obtain rfl := Option.some.inj hprogram
    exact .bind (.lift _ fun _ _ => trivial) fun value _ => hcall rfl rfl
  case fsetxattr =>
    obtain rfl := Option.some.inj hprogram
    refine program_onDescriptor _ _ (.pure _ trivial) fun fd hfd => ?_
    exact .bind (.lift _ fun _ _ => trivial) fun value _ => hheld hfd rfl rfl
  all_goals cases hprogram

end

/-- The programs that all operations come down to. -/
inductive Primitive (maps : Prop) : (α : Type) → Replay α → (α → Prop) → Prop
  | syscall (call : SystemCall) : Primitive maps Int (syscall call) fun _ => True
  | query {α : Type} (f : Manager → Option α) :
      Primitive maps α (queryManager f) fun _ => True
  | change {α : Type} (f : Manager → Option (α × Manager)) :
      Primitive maps α (changeManager f) fun _ => True
  | createArea (pid : Int) : Primitive maps Unit (modifyArea pid id) fun _ => True
  | modifyArea (h : maps) (pid : Int) (f : List VMNode → List VMNode) :
      Primitive maps Unit (modifyArea pid f) fun _ => True
  | startThread (pid : Int) : Primitive maps Unit (startThread pid) fun _ => True

section

variable {maps : Prop} {α : Type}

theorem Primitive.values {m : Replay α} {Q : α → Prop} (h : Primitive maps α m Q) :
    ∀ a, Q a := by
  cases h <;> exact fun _ => trivial

abbrev Plain (maps : Prop) (m : Replay α) : Prop :=
  Composed (Primitive maps) m fun _ => True

theorem primitive_change (f : Manager → Option (α × Manager)) : Plain maps (changeManager f) :=
  .prim (.change f)

theorem primitive_update (f : Manager → Option Manager) : Plain maps (updateManager f) :=
  primitive_change _

theorem primitive_intSyscall (call : SystemCall) : Plain maps (intSyscall call) :=
  .bind (.prim (.syscall call)) fun _ _ => .pure _ trivial

theorem primitive_execveEntry (pid retVal tracedFd : Int) :
    Plain maps (execveEntry pid retVal tracedFd) := by
  refine .bind (.prim (.query _)) fun flags _ => .bind (.prim (.query _)) fun fd _ => ?_
  have hremove : Plain maps (do
      let _ ← removeFd pid tracedFd : Replay Unit) :=
    .bind (primitive_change _) fun _ _ => .pure _ trivial
  have hsimulated : Plain maps (if fd = syscallSimulated then
      if closesOnExec flags then (do let _ ← removeFd pid tracedFd : Replay Unit)
      else pure () else pure ()) :=
    .ite (.ite hremove (.pure _ trivial)) (.pure _ trivial)
  dsimp only
  split
  · exact .bind (primitive_change _) fun _ _ => hsimulated
  · exact hsimulated

theorem primitive_cloneFdTable (ppid pid : Int) (shared : Bool) :
    Plain maps (cloneFdTable ppid pid shared) := by
  unfold cloneFdTable
  split
  · exact primitive_update _
  · refine .bind (.prim (.query _)) fun parent _ => ?_
    have hcopy : Plain maps (parent.toList.foldlM cloneEntry ∅) := by
      refine .foldlM _ (fun t _ entry _ => ?_) _ trivial
      unfold cloneEntry
      split
      · exact .bind (primitive_intSyscall _) fun _ _ => .lift _ fun _ _ => trivial
      · exact .bind (.pure (Q := fun _ => True) _ trivial) fun _ _ => .lift _ fun _ _ => trivial
    exact .bind hcopy fun child _ => primitive_update _

theorem primitive_of_program {S : Scope} (hall : ∀ fd, S.holds fd) {m : Replay α}
    (h : Program S m) : Plain S.maps m := by
  refine h.refine fun {β p Q} hop => ?_
  have hprimitive : Plain S.maps p := by
    cases hop with
    | syscall _ => exact .prim (.syscall _)
    | opened | redirected => exact primitive_intSyscall _
    | query | getFd | generateUnusedFd => exact .prim (.query _)
    | execveEntry pid retVal tracedFd => exact primitive_execveEntry pid retVal tracedFd
    | cloneFdTable ppid pid shared => exact primitive_cloneFdTable ppid pid shared
    | createArea pid => exact .prim (.createArea pid)
    | modifyArea hmaps pid f => exact .prim (.modifyArea hmaps pid f)
    | startThread pid => exact .prim (.startThread pid)
    | removeFd | removeFdTable => exact primitive_change _
    | addFd | addFlags | setUmask | removeUmask | cloneUmask => exact primitive_update _
  exact hprimitive.mono fun a _ => hop.values hall a

end

end SyscallReplayer.ModulePrograms
