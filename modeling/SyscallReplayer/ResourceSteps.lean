import SyscallReplayer.Isolation

/-!
# What one execution does to the umasks and the tables

Most modules change values of the descriptor tables at most; `umask` changes a
value, `clone` and `vfork` map a child, and `exit` removes a process.
-/

namespace SyscallReplayer.ResourceSteps

open Std (ExtTreeMap)
open CInt SharedEntries ReplayKernel ResourcesManager ReplayWorld ReplayModules
open StatePrograms TransitionSystem SnapshotFidelity World ReplayRuns
open Shared (Modified)
open Isolation (sharesFiles)

structure ValuesOnly (w w' : World) : Prop where
  umaskTable : w'.manager.umaskTable = w.manager.umaskTable
  fdTableMap : Modified w.manager.fdTableMap w'.manager.fdTableMap

namespace ValuesOnly

variable {w w' w'' : World}

theorem refl (w : World) : ValuesOnly w w :=
  ⟨rfl, .refl⟩

theorem trans (h : ValuesOnly w w') (h' : ValuesOnly w' w'') : ValuesOnly w w'' :=
  ⟨h'.umaskTable.trans h.umaskTable, h.fdTableMap.trans h'.fdTableMap⟩

theorem of_manager_eq (h : w'.manager = w.manager) : ValuesOnly w w' :=
  ⟨by rw [h], by rw [h]; exact .refl⟩

theorem setTable {pid : Int} {t : FdTable} (h : w.table pid = some t) (t' : FdTable) :
    ValuesOnly w (w.setTable pid t') := by
  obtain ⟨map, hmap, hset⟩ := World.exists_modify h t'
  refine ⟨rfl, ?_⟩
  rw [hset]
  exact .step .refl hmap

end ValuesOnly

/-- Every finished run of the program changes values at most. -/
def KeepsProcesses {α : Type} (program : Replay α) : Prop :=
  ∀ ⦃w a w'⦄, program w = some (a, w') → ValuesOnly w w'

namespace KeepsProcesses

variable {α β : Type}

theorem pure (a : α) : KeepsProcesses (pure a) := by
  intro w b w' h
  obtain rfl := (Prod.mk.inj (Option.some.inj h)).2
  exact .refl w

theorem bind {m : Replay α} {f : α → Replay β} (hm : KeepsProcesses m)
    (hf : ∀ a, KeepsProcesses (f a)) : KeepsProcesses (m >>= f) := by
  intro w b w' h
  obtain ⟨a, v, hmv, hfv⟩ := bind_eq_some.mp h
  exact (hm hmv).trans (hf a hfv)

theorem ite {c : Prop} [Decidable c] {m m' : Replay α} (hm : KeepsProcesses m)
    (hm' : KeepsProcesses m') : KeepsProcesses (if c then m else m') := by
  split
  · exact hm
  · exact hm'

theorem lift (o : Option α) : KeepsProcesses (liftM o) := by
  intro w a w' h
  obtain ⟨-, rfl⟩ := lift_eq_some.mp h
  exact .refl w'

theorem syscall (call : SystemCall) : KeepsProcesses (syscall call) := by
  intro w a w' h
  obtain rfl := (Prod.mk.inj (Option.some.inj h)).2
  exact .of_manager_eq rfl

theorem intSyscall (call : SystemCall) : KeepsProcesses (intSyscall call) :=
  bind (syscall call) fun value => pure (int32 value)

theorem queryManager (f : Manager → Option α) : KeepsProcesses (queryManager f) := by
  intro w a w' h
  obtain ⟨b, -, heq⟩ := Option.map_eq_some_iff.mp h
  obtain rfl := (Prod.mk.inj heq).2
  exact .refl w

theorem getMode (pid : Int) (mode : BitVec 32) : KeepsProcesses (getMode pid mode) :=
  bind (queryManager _) fun umask => pure (mode &&& ~~~umask)

theorem modifyArea (pid : Int) (f : List VirtualAddressSpace.VMNode → List _) :
    KeepsProcesses (modifyArea pid f) := by
  intro w a w' h
  obtain rfl := (Prod.mk.inj (Option.some.inj h)).2
  exact .of_manager_eq rfl

theorem addFd (pid tracedFd replayedFd : Int) (flags : BitVec 32) :
    KeepsProcesses (addFd pid tracedFd replayedFd flags) := by
  intro w a w' h
  obtain ⟨t, t', ht, -, rfl⟩ := addFd_eq_some h
  exact .setTable ht t'

theorem removeFd (pid tracedFd : Int) : KeepsProcesses (removeFd pid tracedFd) := by
  intro w a w' h
  obtain ⟨t, ht, -, rfl⟩ := removeFd_eq_some h
  exact .setTable ht _

theorem addFlags (pid tracedFd : Int) (flags : BitVec 32) :
    KeepsProcesses (addFlags pid tracedFd flags) := by
  intro w a w' h
  obtain ⟨t, e, ht, -, rfl⟩ := addFlags_eq_some h
  exact .setTable ht _

theorem forM {f : α → Replay PUnit} (l : List α) (h : ∀ a, KeepsProcesses (f a)) :
    KeepsProcesses (l.forM f) := by
  induction l with
  | nil => exact pure PUnit.unit
  | cons a l ih => exact bind (h a) fun _ => ih

theorem onDescriptor (pid tracedFd : Int) {simulated : Replay Int} {real : Int → Replay Int}
    (hsimulated : KeepsProcesses simulated) (hreal : ∀ fd, KeepsProcesses (real fd)) :
    KeepsProcesses (onDescriptor pid tracedFd simulated real) :=
  bind (queryManager _) fun fd => ite hsimulated (hreal fd)

theorem atDirectory (pid tracedFd : Int) (pathname : String) (simulated : Int)
    {real : Int → Replay Int} (hreal : ∀ fd, KeepsProcesses (real fd)) :
    KeepsProcesses (atDirectory pid tracedFd pathname simulated real) :=
  bind (queryManager _) fun fd => ite (pure _) (hreal fd)

end KeepsProcesses

/-- The members of the calls that change umasks or processes. -/
def changesProcesses : Members → Bool
  | .umask _ | .clone _ _ _ _ _ | .vfork | .exit _ _ => true
  | _ => false

section

open KeepsProcesses

theorem keepsProcesses_open (pid flags tracedFd : Int) (pathname : String) (modeVal : BitVec 32) :
    KeepsProcesses (openProcessRow pid pathname modeVal flags tracedFd) := by
  refine bind (getMode _ _) fun mode => bind (intSyscall _) fun replayed => ?_
  dsimp only
  split
  · exact bind (syscall _) fun _ => pure _
  · exact bind (addFd _ _ _ _) fun _ => pure _

theorem keepsProcesses_openat (pid : Int) (row : Row) :
    KeepsProcesses (openatProcessRow pid row) := by
  refine bind (queryManager _) fun dirfd => bind (getMode _ _) fun mode => ite (pure _) ?_
  refine bind (intSyscall _) fun replayed => ?_
  dsimp only
  split
  · exact bind (syscall _) fun _ => pure _
  · exact bind (addFd _ _ _ _) fun _ => pure _

theorem keepsProcesses_creat (pid : Int) (row : Row) :
    KeepsProcesses (creatProcessRow pid row) :=
  bind (getMode _ _) fun _ => bind (intSyscall _) fun _ => bind (addFd _ _ _ _) fun _ => pure _

theorem keepsProcesses_close (pid replayed descVal : Int) :
    KeepsProcesses (closeProcessRow pid replayed descVal) :=
  bind (removeFd _ _) fun _ => ite (pure _) (intSyscall _)

theorem keepsProcesses_dup (pid returnValue fileDescriptor : Int) :
    KeepsProcesses (dupProcessRow pid returnValue fileDescriptor) := by
  refine bind (queryManager _) fun fd => bind (queryManager _) fun flags => ?_
  dsimp only
  split
  · exact bind (pure _) fun _ => bind (addFd _ _ _ _) fun _ => pure _
  · exact bind (intSyscall _) fun _ => bind (addFd _ _ _ _) fun _ => pure _

theorem keepsProcesses_duplicateTo (pid returnValue oldFd newFd : Int)
    (newFdFlags : BitVec 32 → BitVec 32) (call : Int → Int → SystemCall) :
    KeepsProcesses (duplicateTo pid returnValue oldFd newFd newFdFlags call) := by
  intro w replayed w' h
  obtain ⟨t, e, w₁, ht, -, rfl, ⟨-, hadd⟩ | ⟨-, target, -, hadd⟩⟩ := duplicateTo_eq_some h
  · exact (ValuesOnly.setTable ht _).trans (addFd _ _ _ _ hadd)
  · have hserved : ValuesOnly (w.setTable pid (t.erase newFd))
        ((w.setTable pid (t.erase newFd)).serve (call e.fd target)) := .of_manager_eq rfl
    exact ((ValuesOnly.setTable ht _).trans hserved).trans (addFd _ _ _ _ hadd)

theorem keepsProcesses_fcntl
    (pid returnValue tracedFd command argVal type whence start length lockPid : Int) :
    KeepsProcesses (fcntlProcessRow pid returnValue tracedFd command argVal type whence start
      length lockPid) := by
  refine bind (queryManager _) fun fd => bind (intSyscall _) fun replayed => bind ?_ fun _ => pure _
  refine ite (bind (queryManager _) fun flags => addFd _ _ _ _) ?_
  exact ite (ite (addFlags _ _ _) (pure _)) (pure _)

theorem keepsProcesses_pipe (pid readFd writeFd : Int) :
    KeepsProcesses (pipeProcessRow pid readFd writeFd) :=
  bind (intSyscall _) fun _ => bind (addFd _ _ _ _) fun _ => bind (addFd _ _ _ _) fun _ => pure _

theorem keepsProcesses_execve (pid replayed retVal : Int) :
    KeepsProcesses (execveProcessRow pid replayed retVal) := by
  refine bind (queryManager _) fun fds => bind (forM fds fun k => ?_) fun _ => pure _
  refine bind (queryManager _) fun flags => bind (queryManager _) fun fd => ?_
  have hremove : KeepsProcesses (do
      let _ ← ReplayWorld.removeFd pid k : Replay Unit) := bind (removeFd _ _) fun _ => pure _
  have hsimulated : KeepsProcesses (if fd = syscallSimulated then
      if closesOnExec flags then (do let _ ← ReplayWorld.removeFd pid k : Replay Unit)
      else Pure.pure () else Pure.pure ()) :=
    ite (ite hremove (pure _)) (pure _)
  dsimp only
  split
  · exact bind (removeFd _ _) fun _ => hsimulated
  · exact hsimulated

theorem keepsProcesses_simulateDescriptor (pid tracedFd : Int) (flags : BitVec 32) :
    KeepsProcesses (simulateDescriptor pid tracedFd flags) :=
  ite (bind (addFd _ _ _ _) fun _ => pure _) (pure _)

theorem keepsProcesses_processMembers (opts : Options) (m : ReplayModule)
    (h : changesProcesses m.members = false) : KeepsProcesses (processMembers opts m) := by
  obtain ⟨kind, c, replayed, members⟩ := m
  cases members
  case none => exact pure _
  case open_ => exact keepsProcesses_open _ _ _ _ _
  case close => exact keepsProcesses_close _ _ _
  case read => exact onDescriptor _ _ (pure _) fun fd => intSyscall _
  case pread => exact onDescriptor _ _ (pure _) fun fd => intSyscall _
  case mmappread =>
    exact onDescriptor _ _ (pure _) fun fd => bind (modifyArea _ _) fun _ => pure _
  case write => exact onDescriptor _ _ (pure _) fun fd => intSyscall _
  case pwrite =>
    refine onDescriptor _ _ (pure _) fun fd => ite (intSyscall _) ?_
    exact bind (lift _) fun size => intSyscall _
  case lseek => exact onDescriptor _ _ (pure _) fun fd => intSyscall _
  case access => exact bind (getMode _ _) fun mode => intSyscall _
  case chdir => exact intSyscall _
  case fchdir => exact onDescriptor _ _ (pure _) fun fd => intSyscall _
  case chroot => exact pure _
  case link => exact intSyscall _
  case unlink => exact intSyscall _
  case rmdir => exact intSyscall _
  case mkdir => exact bind (getMode _ _) fun mode => intSyscall _
  case stat => exact intSyscall _
  case lstat => exact intSyscall _
  case fstat => exact onDescriptor _ _ (pure _) fun fd => intSyscall _
  case fstatat => exact onDescriptor _ _ (pure _) fun fd => intSyscall _
  case statfs => exact intSyscall _
  case readlink => exact intSyscall _
  case utime => exact ite (intSyscall _) (intSyscall _)
  case chmod => exact bind (getMode _ _) fun mode => intSyscall _
  case fchmod =>
    exact bind (queryManager _) fun fd => bind (getMode _ _) fun mode =>
      ite (pure _) (intSyscall _)
  case chown => exact intSyscall _
  case rename => exact intSyscall _
  case fsync => exact onDescriptor _ _ (pure _) fun fd => intSyscall _
  case fdatasync => exact onDescriptor _ _ (pure _) fun fd => intSyscall _
  case fallocate => exact onDescriptor _ _ (pure _) fun fd => intSyscall _
  case readahead => exact onDescriptor _ _ (pure _) fun fd => intSyscall _
  case pipe => exact keepsProcesses_pipe _ _ _
  case dup => exact keepsProcesses_dup _ _ _
  case dup2 => exact keepsProcesses_duplicateTo _ _ _ _ _ _
  case dup3 => exact keepsProcesses_duplicateTo _ _ _ _ _ _
  case fcntl => exact keepsProcesses_fcntl _ _ _ _ _ _ _ _ _ _
  case exit => cases h
  case execve => exact keepsProcesses_execve _ _ _
  case mmap =>
    refine bind (queryManager _) fun fd => bind (syscall _) fun replayedAddr => ?_
    exact ite (pure _) (bind (modifyArea _ _) fun _ => pure _)
  case munmap => exact bind (modifyArea _ _) fun _ => pure _
  case getdents =>
    exact onDescriptor _ _ (pure _) fun fd => bind (lift _) fun count => intSyscall _
  case ioctl => exact onDescriptor _ _ (pure _) fun fd => intSyscall _
  case clone => cases h
  case vfork => cases h
  case umask => cases h
  case ftruncate => exact bind (queryManager _) fun fd => intSyscall _
  case socket => exact keepsProcesses_simulateDescriptor _ _ _
  case socketpair =>
    exact bind (addFd _ _ _ _) fun _ => bind (addFd _ _ _ _) fun _ => pure _
  case epoll_create => exact keepsProcesses_simulateDescriptor _ _ _
  case accept => exact keepsProcesses_simulateDescriptor _ _ _
  case accept4 =>
    simp only [processMembers, accept4ProcessRow]
    split
    · exact bind (addFd _ _ _ _) fun _ => pure _
    · exact pure _

theorem keepsProcesses_processCurrentRow (opts : Options) (m : ReplayModule) (row : Row)
    (rest : List Row) (program : Replay Int)
    (h : processCurrentRow opts m row rest = some program) : KeepsProcesses program := by
  obtain ⟨kind, c, replayed, members⟩ := m
  cases kind
  case openat =>
    obtain rfl := Option.some.inj h
    exact keepsProcesses_openat _ _
  case creat =>
    obtain rfl := Option.some.inj h
    exact keepsProcesses_creat _ _
  case faccessat | mkdirat | fchmodat =>
    obtain rfl := Option.some.inj h
    exact bind (queryManager _) fun fd => bind (getMode _ _) fun mode =>
      ite (pure _) (intSyscall _)
  case unlinkat =>
    obtain rfl := Option.some.inj h
    exact atDirectory _ _ _ _ fun dirfd => intSyscall _
  case linkat =>
    obtain rfl := Option.some.inj h
    exact bind (queryManager _) fun oldFd => bind (queryManager _) fun newFd =>
      ite (pure _) (intSyscall _)
  case utimes | truncate | symlink =>
    obtain rfl := Option.some.inj h
    exact intSyscall _
  case utimensat =>
    obtain rfl := Option.some.inj h
    exact bind (queryManager _) fun dirfd => ite (pure _) (intSyscall _)
  case fstatfs =>
    obtain rfl := Option.some.inj h
    exact onDescriptor _ _ (pure _) fun fd => intSyscall _
  case mknod =>
    obtain rfl := Option.some.inj h
    exact bind (getMode _ _) fun mode => intSyscall _
  case readv | writev =>
    obtain rfl := Option.some.inj h
    exact bind (queryManager _) fun fd => bind (lift _) fun count =>
      ite (pure _) (intSyscall _)
  case setxattr | lsetxattr =>
    obtain rfl := Option.some.inj h
    exact bind (lift _) fun value => intSyscall _
  case fsetxattr =>
    obtain rfl := Option.some.inj h
    exact onDescriptor _ _ (pure _) fun fd => bind (lift _) fun value => intSyscall _
  all_goals exact nomatch h

end

theorem changesProcesses_of_prepareMembers {kind : SysCallKind} {held : Int} {row : Row}
    {rest : List Row} {members : Members} (h : prepareMembers kind held row rest = some members)
    (hkind : kind ≠ .umask ∧ kind ≠ .clone ∧ kind ≠ .vfork ∧ kind ≠ .exit) :
    changesProcesses members = false := by
  obtain ⟨humask, hclone, hvfork, hexit⟩ := hkind
  cases members
  case umask => exact absurd (kind_of_ownKind h rfl) humask
  case clone => exact absurd (kind_of_ownKind h rfl) hclone
  case vfork => exact absurd (kind_of_ownKind h rfl) hvfork
  case exit => exact absurd (kind_of_ownKind h rfl) hexit
  all_goals rfl

theorem changesProcesses_setMove (members : Members) :
    changesProcesses (setMove members) = changesProcesses members := by
  cases members <;> rfl

theorem executeStep_valuesOnly {opts : Options} {w w' : World} {a : Execution}
    (h : executeStep opts w a = some w')
    (hkind : a.kind ≠ .umask ∧ a.kind ≠ .clone ∧ a.kind ≠ .vfork ∧ a.kind ≠ .exit) :
    ValuesOnly w w' := by
  obtain ⟨m, replayed, hm, hrun⟩ := executeStep_eq_some h
  obtain ⟨members, hprepared, hmembers⟩ := members_of_module hm
  have hkeeps : changesProcesses m.members = false := by
    have hchanges := changesProcesses_of_prepareMembers hprepared hkind
    rcases hmembers with heq | heq
    · rw [heq, hchanges]
    · rw [heq, changesProcesses_setMove, hchanges]
  exact processRow_cases (keepsProcesses_processMembers opts m hkeeps)
    (keepsProcesses_processCurrentRow opts m _ _) hrun

def SameFlags (t copy : FdTable) : Prop :=
  ∀ k : Int, (copy[k]?).map FileDescriptorEntry.flags = (t[k]?).map FileDescriptorEntry.flags

theorem cloneEntries_eq_some {t copy : FdTable} {w w' : World}
    (h : t.toList.foldlM cloneEntry ∅ w = some (copy, w')) :
    w'.manager = w.manager ∧ SameFlags t copy := by
  have hloop := cloneEntries_loop
    (I := fun rest copy v => v.manager = w.manager ∧ ∀ k : Int,
      (∃ e, (k, e) ∈ rest) ∨
        (copy[k]?).map FileDescriptorEntry.flags = (t[k]?).map FileDescriptorEntry.flags) ?_ ?_ h
  · refine ⟨hloop.1, fun k => (hloop.2 k).resolve_left ?_⟩
    rintro ⟨e, he⟩
    exact List.not_mem_nil he
  · refine ⟨rfl, fun k => ?_⟩
    cases he : t[k]? with
    | none => exact .inr (by rw [ExtTreeMap.getElem?_empty])
    | some e => exact .inl ⟨e, ExtTreeMap.mem_toList_iff_getElem?_eq_some.mpr he⟩
  · rintro copy copy' k e rest v v' he hfresh ⟨hmanager, hcopied⟩ hstep
    obtain ⟨newFd, hadd, hv⟩ := cloneEntry_eq_some hstep
    rw [FdTable.addFdEntry_of_unmapped hfresh] at hadd
    obtain rfl := Option.some.inj hadd
    refine ⟨?_, fun a => ?_⟩
    · rcases hv with ⟨-, -, rfl⟩ | ⟨-, -, rfl⟩
      · exact hmanager
      · exact hmanager
    · rw [getElem?_insert]
      split
      · rename_i hka
        rw [← hka, he]
        exact .inr rfl
      · rename_i hka
        rcases hcopied a with ⟨e', he'⟩ | hsame
        · refine .inl ⟨e', (List.mem_cons.mp he').resolve_left ?_⟩
          intro heq
          exact hka (Prod.mk.inj heq).1.symm
        · exact .inr hsame

/-- Whether a child has the umask of its parent. -/
def sharesUmask (a : Execution) : Bool :=
  a.kind = .clone &&
    (BitVec.ofInt 32 (a.row.int .flag_value) &&& cloneFs ≠ 0 ||
      BitVec.ofInt 32 (a.row.int .flag_value) &&& cloneThread ≠ 0)

theorem cloneUmask_resources {pid child : Int} {shared : Bool} {u : Unit} {w w' : World}
    (h : cloneUmask pid child shared w = some (u, w')) :
    Shared.Cloned Eq w.manager.umaskTable pid child shared w'.manager.umaskTable ∧
      w'.manager.fdTableMap = w.manager.fdTableMap := by
  obtain ⟨m, hm, rfl⟩ := updateManager_eq_some h
  unfold Manager.cloneUmask at hm
  split at hm
  · rename_i hshared
    obtain ⟨table, hshare, heq⟩ := Option.bind_eq_some_iff.mp hm
    obtain rfl := Option.some.inj heq
    exact ⟨.inl ⟨hshared, hshare⟩, rfl⟩
  · rename_i hown
    obtain ⟨mode, hget, heq⟩ := Option.bind_eq_some_iff.mp hm
    obtain rfl := Option.some.inj heq
    exact ⟨.inr ⟨eq_false_of_ne_true hown, mode, mode, hget, rfl, rfl⟩, rfl⟩

theorem cloneFdTable_resources {pid child : Int} {shared : Bool} {u : Unit} {w w' : World}
    (h : cloneFdTable pid child shared w = some (u, w')) :
    w'.manager.umaskTable = w.manager.umaskTable ∧
      Shared.Cloned SameFlags w.manager.fdTableMap pid child shared w'.manager.fdTableMap := by
  unfold cloneFdTable at h
  split at h
  · rename_i hshared
    obtain ⟨m, hm, rfl⟩ := updateManager_eq_some h
    obtain ⟨map, hshare, rfl⟩ := Option.map_eq_some_iff.mp hm
    exact ⟨rfl, .inl ⟨hshared, hshare⟩⟩
  · rename_i hown
    obtain ⟨parent, w₁, hparent, hcopy⟩ := bind_eq_some.mp h
    obtain ⟨t, hget, heq⟩ := Option.map_eq_some_iff.mp hparent
    obtain ⟨rfl, rfl⟩ := Prod.mk.inj heq
    obtain ⟨copy, w₂, hloop, hcreate⟩ := bind_eq_some.mp hcopy
    obtain ⟨hmanager, hflags⟩ := cloneEntries_eq_some hloop
    obtain ⟨m, hm, rfl⟩ := updateManager_eq_some hcreate
    obtain rfl := Option.some.inj hm
    refine ⟨?_, .inr ⟨eq_false_of_ne_true hown, t, copy, hget, hflags, ?_⟩⟩
    · show w₂.manager.umaskTable = _
      rw [hmanager]
    · show w₂.manager.fdTableMap.create child copy = _
      rw [hmanager]

theorem startProcess_resources {pid child : Int} {sharedUmask sharedFiles : Bool} {u : Unit}
    {w w' : World} (h : startProcess pid child sharedUmask sharedFiles w = some (u, w')) :
    Shared.Cloned Eq w.manager.umaskTable pid child sharedUmask w'.manager.umaskTable ∧
      Shared.Cloned SameFlags w.manager.fdTableMap pid child sharedFiles
        w'.manager.fdTableMap := by
  obtain ⟨_, w₁, humask, hrest⟩ := bind_eq_some.mp h
  obtain ⟨_, w₂, hfiles, hstart⟩ := bind_eq_some.mp hrest
  obtain rfl := (Prod.mk.inj (Option.some.inj hstart)).2
  obtain ⟨humasks, htables⟩ := cloneUmask_resources humask
  obtain ⟨hsame, hcloned⟩ := cloneFdTable_resources hfiles
  rw [htables] at hcloned
  rw [← hsame] at humasks
  exact ⟨humasks, hcloned⟩

/-- What one execution does to the umasks and the tables. -/
inductive ResourceStep (a : Execution) (w w' : World) : Prop
  | values (hkind : a.kind ≠ .umask ∧ a.kind ≠ .clone ∧ a.kind ≠ .vfork ∧ a.kind ≠ .exit)
      (h : ValuesOnly w w')
  | umask (hkind : a.kind = .umask) (hfiles : w'.manager.fdTableMap = w.manager.fdTableMap)
      (humask : w.manager.umaskTable.modify a.pid (mode a.row) = some w'.manager.umaskTable)
  | started (hkind : a.kind = .clone ∨ a.kind = .vfork)
      (humask : Shared.Cloned Eq w.manager.umaskTable a.pid (int32 a.returnValue)
        (sharesUmask a) w'.manager.umaskTable)
      (hfiles : Shared.Cloned SameFlags w.manager.fdTableMap a.pid (int32 a.returnValue)
        (sharesFiles a) w'.manager.fdTableMap)
  | exited (hkind : a.kind = .exit) (freedUmask : Option (BitVec 32))
      (freedTable : Option FdTable)
      (humask : w.manager.umaskTable.release a.pid = some (freedUmask, w'.manager.umaskTable))
      (hfiles : w.manager.fdTableMap.release a.pid = some (freedTable, w'.manager.fdTableMap))

theorem exitProcessRow_resources {pid held replayed : Int} {w w' : World}
    (h : exitProcessRow pid held w = some (replayed, w')) :
    ∃ freedUmask freedTable,
      w.manager.umaskTable.release pid = some (freedUmask, w'.manager.umaskTable) ∧
      w.manager.fdTableMap.release pid = some (freedTable, w'.manager.fdTableMap) := by
  obtain ⟨_, w₁, humask, hrest⟩ := bind_eq_some.mp h
  obtain ⟨fds, w₂, hremove, hclose⟩ := bind_eq_some.mp hrest
  obtain ⟨-, a, hclosed⟩ := bind_pure_eq_some.mp hclose
  obtain ⟨hmanager, -, -⟩ := closeAll_eq_some hclosed
  obtain ⟨m, hm, rfl⟩ := updateManager_eq_some humask
  obtain ⟨⟨freedUmask, table⟩, hrelease, heq⟩ := Option.bind_eq_some_iff.mp hm
  obtain rfl := Option.some.inj heq
  obtain ⟨result, hresult, heq⟩ := Option.map_eq_some_iff.mp hremove
  obtain ⟨rfl, rfl⟩ := Prod.mk.inj heq
  obtain ⟨⟨freedTable, map⟩, hreleased, heq⟩ := Option.bind_eq_some_iff.mp hresult
  obtain rfl := Option.some.inj heq
  rw [hmanager]
  exact ⟨freedUmask, freedTable, hrelease, hreleased⟩

theorem executeStep_resources {opts : Options} {w w' : World} {a : Execution}
    (h : executeStep opts w a = some w') : ResourceStep a w w' := by
  by_cases hkind : a.kind ≠ .umask ∧ a.kind ≠ .clone ∧ a.kind ≠ .vfork ∧ a.kind ≠ .exit
  · exact .values hkind (executeStep_valuesOnly h hkind)
  have hspecial : a.kind = .umask ∨ a.kind = .clone ∨ a.kind = .vfork ∨ a.kind = .exit := by
    by_contra hnot
    simp only [not_or] at hnot
    exact hkind hnot
  clear hkind
  obtain ⟨m, replayed, hm, hrun⟩ := executeStep_eq_some h
  obtain hkind | hkind | hkind | hkind := hspecial
  · rw [processRow_umask hkind hm] at hrun
    obtain ⟨-, _, hset⟩ := bind_pure_eq_some.mp hrun
    obtain ⟨m', hm', rfl⟩ := updateManager_eq_some hset
    obtain ⟨table, hmodify, heq⟩ := Option.bind_eq_some_iff.mp hm'
    obtain rfl := Option.some.inj heq
    exact .umask hkind rfl hmodify
  · rw [processRow_clone hkind hm] at hrun
    obtain ⟨-, _, hstart⟩ := bind_pure_eq_some.mp hrun
    obtain ⟨humask, hfiles⟩ := startProcess_resources hstart
    refine .started (.inl hkind) ?_ ?_
    · unfold sharesUmask
      rw [hkind]
      exact humask
    · unfold sharesFiles
      rw [hkind]
      exact hfiles
  · rw [processRow_vfork hkind hm] at hrun
    obtain ⟨-, _, hstart⟩ := bind_pure_eq_some.mp hrun
    obtain ⟨humask, hfiles⟩ := startProcess_resources hstart
    refine .started (.inr hkind) ?_ ?_
    · unfold sharesUmask
      rw [hkind]
      exact humask
    · unfold sharesFiles
      rw [hkind]
      exact hfiles
  · rw [processRow_exit hkind hm] at hrun
    obtain ⟨freedUmask, freedTable, humask, hfiles⟩ := exitProcessRow_resources hrun
    exact .exited hkind freedUmask freedTable humask hfiles

/-- A start whose tables are those of `initialize`. -/
def Initialized (w : World) : Prop :=
  ∃ inUse maxFds pid fdMap,
    Manager.initializeTables inUse maxFds pid fdMap = some w.manager

theorem startWorld_initialized (replies : Nat → Reply) : Initialized (startWorld replies) :=
  ⟨_, 16, 1, stdFdMap, (startWorld_prepared replies).manager⟩

theorem addFds_modified {m m' : Manager} {pid : Int} {fdMap : List (Int × Int)}
    (h : fdMap.foldlM (fun m pair => m.addFd pid pair.1 pair.2 0) m = some m') :
    m'.umaskTable = m.umaskTable ∧ Modified m.fdTableMap m'.fdTableMap := by
  induction fdMap generalizing m with
  | nil =>
      obtain rfl := Option.some.inj h
      exact ⟨rfl, .refl⟩
  | cons pair fdMap ih =>
      rw [List.foldlM_cons] at h
      obtain ⟨m₁, hadd, hrest⟩ := Option.bind_eq_some_iff.mp h
      obtain ⟨t, t', map, -, -, hmodify, rfl⟩ := manager_addFd_eq_some hadd
      obtain ⟨humask, htables⟩ := ih hrest
      exact ⟨humask, (Modified.refl.step hmodify).trans htables⟩

theorem initializeTables_eq_some {inUse : Int → Bool} {maxFds : Nat} {pid : Int}
    {fdMap : List (Int × Int)} {m : Manager}
    (h : Manager.initializeTables inUse maxFds pid fdMap = some m) :
    m.umaskTable = Shared.empty.create pid 0 ∧
      Modified (Shared.empty.create pid ∅) m.fdTableMap := by
  obtain ⟨m₁, hadd, hrest⟩ := Option.bind_eq_some_iff.mp h
  obtain ⟨t, -, heq⟩ := Option.bind_eq_some_iff.mp hrest
  obtain rfl := Option.some.inj heq
  exact addFds_modified hadd

/-- Every process has both a umask and a table, or neither. -/
structure Coupled (w : World) : Prop where
  umasks : w.manager.umaskTable.Backed
  tables : w.manager.fdTableMap.Backed
  together : ∀ p : Int,
    (w.manager.umaskTable.map[p]?).isSome = (w.manager.fdTableMap.map[p]?).isSome

theorem coupled_of_initialized {w : World} (h : Initialized w) : Coupled w := by
  obtain ⟨inUse, maxFds, pid, fdMap, h⟩ := h
  obtain ⟨humask, htables⟩ := initializeTables_eq_some h
  refine ⟨?_, htables.backed (Shared.backed_empty.create pid ∅), fun p => ?_⟩
  · rw [humask]
    exact Shared.backed_empty.create pid 0
  · rw [humask, htables.map_eq]
    rfl

theorem Coupled.step {opts : Options} {w w' : World} {a : Execution} (h : Coupled w)
    (hstep : executeStep opts w a = some w') : Coupled w' := by
  cases executeStep_resources hstep with
  | values _ hvalues =>
      refine ⟨?_, hvalues.fdTableMap.backed h.tables, fun p => ?_⟩
      · rw [hvalues.umaskTable]
        exact h.umasks
      · rw [hvalues.umaskTable, hvalues.fdTableMap.map_eq]
        exact h.together p
  | umask _ hfiles humask =>
      refine ⟨h.umasks.modify humask, ?_, fun p => ?_⟩
      · rw [hfiles]
        exact h.tables
      · rw [hfiles, (Modified.refl.step humask).map_eq]
        exact h.together p
  | started _ humask hfiles =>
      refine ⟨humask.backed h.umasks, hfiles.backed h.tables, fun p => ?_⟩
      rw [humask.map_isSome, hfiles.map_isSome, h.together p]
  | exited _ _ _ humask hfiles =>
      refine ⟨h.umasks.release humask, h.tables.release hfiles, fun p => ?_⟩
      rw [Shared.map_release humask, Shared.map_release hfiles]
      split
      · rfl
      · exact h.together p

theorem reachable_coupled {opts : Options} {start w : World} (hstart : Initialized start)
    (h : (replaySystem opts start).Reachable w) : Coupled w :=
  System.ReachVia.invariant _ h (coupled_of_initialized hstart) fun _ _ _ _ hs _ hstep =>
    hs.step hstep

/-- A process with a table has a umask. -/
theorem Coupled.exists_umask {w : World} (h : Coupled w) {pid : Int} {t : FdTable}
    (ht : w.table pid = some t) : ∃ umask, w.manager.getUmask pid = some umask := by
  rw [← Option.isSome_iff_exists]
  show (w.manager.umaskTable.get pid).isSome
  rw [h.umasks.get_isSome_iff, h.together pid, ← h.tables.get_isSome_iff]
  exact Option.isSome_iff_exists.mpr ⟨t, ht⟩

theorem Coupled.exists_table {w : World} (h : Coupled w) {pid : Int} {umask : BitVec 32}
    (humask : w.manager.getUmask pid = some umask) : ∃ t, w.table pid = some t := by
  rw [← Option.isSome_iff_exists]
  show (w.manager.fdTableMap.get pid).isSome
  rw [h.tables.get_isSome_iff, ← h.together pid, ← h.umasks.get_isSome_iff]
  exact Option.isSome_iff_exists.mpr ⟨umask, humask⟩

end SyscallReplayer.ResourceSteps
