import SyscallReplayer.GroupedTables

/-!
# Calls that succeeded in the trace

Where the traced descriptors are as a successful call needs them, its module
fails no assertion, and the flags in the table of its process change as here.
-/

namespace SyscallReplayer.SuccessfulRecords

open Std (ExtTreeMap)
open CInt SharedEntries ReplayKernel ResourcesManager ReplayWorld ReplayModules
open StatePrograms World ReplayRuns ResourceSteps GroupedTables

section

variable {w w' : World} {pid : Int} {t s : FdTable}

def Replaced (w : World) (pid : Int) (s : FdTable) (w' : World) : Prop :=
  w'.manager.fdTableMap = (w.setTable pid s).manager.fdTableMap

theorem Replaced.of_eq (ht : w.table pid = some t)
    (h : w'.manager.fdTableMap = w.manager.fdTableMap) : Replaced w pid t w' := by
  unfold Replaced
  rw [h, setTable_eq_self ht]

theorem Replaced.refl (ht : w.table pid = some t) : Replaced w pid t w :=
  .of_eq ht rfl

theorem Replaced.serve (h : Replaced w pid s w') (call : SystemCall) :
    Replaced w pid s (w'.serve call) :=
  h

theorem Replaced.table (h : Replaced w pid s w') (ht : w.table pid = some t) :
    w'.table pid = some s := by
  have hself : (w.setTable pid s).table pid = some s := table_setTable_self ht
  rw [← hself]
  exact congrArg (fun map => map.get pid) h

theorem Replaced.setTable (h : Replaced w pid s w') (ht : w.table pid = some t) (s' : FdTable) :
    Replaced w pid s' (w'.setTable pid s') := by
  unfold Replaced at *
  have htwice : (w.setTable pid s).setTable pid s' = w.setTable pid s' := setTable_setTable ht s'
  rw [← htwice]
  show (w'.manager.fdTableMap.modify pid s').getD w'.manager.fdTableMap = _
  rw [h]
  rfl

theorem Replaced.table_eq (h : Replaced w pid s w') (ht : w.table pid = some t) (q : Int) :
    w'.table q = if w.tableOf q = w.tableOf pid then some s else w.table q := by
  rw [← table_setTable ht]
  exact congrArg (fun map => map.get q) h

/-- The program fails no assertion and leaves the table of `pid` with the flags
`f`. -/
def LeavesFlags (w : World) (pid : Int) (f : Flags) (run : Option (Int × World)) : Prop :=
  ∃ replayed w' s, run = some (replayed, w') ∧ Replaced w pid s w' ∧ flagsOf s = f

theorem leavesFlags_pure (h : Replaced w pid s w') (value : Int) :
    LeavesFlags w pid (flagsOf s) ((pure value : Replay Int) w') :=
  ⟨value, w', s, rfl, h, rfl⟩

theorem int32_of_isFd {fd : Int} (h : isFd fd = true) : int32 fd = fd := by
  simp only [isFd, Bool.and_eq_true, decide_eq_true_eq] at h
  exact int32_eq_self (by omega) h.2

theorem addFd_replaced (ht : w.table pid = some t) (h : Replaced w pid s w') {k : Int}
    (hk : isFd k = true) (hnew : s[k]? = none) (fd : Int) (flags : BitVec 32) :
    ∃ w'', addFd pid k fd flags w' = some ((), w'') ∧
      Replaced w pid (s.insert k ⟨fd, flags⟩) w'' := by
  refine ⟨w'.setTable pid (s.insert k ⟨fd, flags⟩), ?_, h.setTable ht _⟩
  rw [addFd_run (h.table ht), int32_of_isFd hk, FdTable.addFdEntry_of_unmapped hnew]
  rfl

theorem leavesFlags_addFd (ht : w.table pid = some t) (h : Replaced w pid s w') {k : Int}
    (hk : isFd k = true) (hnew : s[k]? = none) (fd : Int) (flags : BitVec 32) (value : Int) :
    LeavesFlags w pid (Function.update (flagsOf s) k (some flags))
      ((addFd pid k fd flags >>= fun _ => (pure value : Replay Int)) w') := by
  obtain ⟨w'', hadd, hreplaced⟩ := addFd_replaced ht h hk hnew fd flags
  rw [bind_of_eq_some hadd]
  have hflags := flagsOf_insert s k ⟨fd, flags⟩
  rw [← hflags]
  exact leavesFlags_pure hreplaced value

end

section

variable {w : World} {pid ret : Int} {t : FdTable}

theorem open_leavesFlags (ht : w.table pid = some t) {umask : BitVec 32}
    (humask : w.manager.getUmask pid = some umask) (hret : isFd ret = true)
    (hnew : t[ret]? = none) (pathname : String) (modeVal : BitVec 32) (flags : Int) :
    LeavesFlags w pid (Function.update (flagsOf t) ret (some (BitVec.ofInt 32 flags)))
      (openProcessRow pid pathname modeVal flags ret w) := by
  have hnonneg := isFd_nonneg hret
  unfold openProcessRow
  rw [bind_of_eq_some (getMode_run humask modeVal), bind_of_eq_some (intSyscall_apply _ w)]
  rw [if_neg fun hdropped => by omega]
  exact leavesFlags_addFd ht ((Replaced.refl ht).serve _) hret hnew _ _ _

theorem openat_leavesFlags (ht : w.table pid = some t) {umask : BitVec 32}
    (humask : w.manager.getUmask pid = some umask) {row : Row}
    (hret : isFd (row.int .return_value) = true) (hnew : t[row.int .return_value]? = none)
    (hreal : ¬(t.getFd (row.int .descriptor) = syscallSimulated ∧
      relative (row.text .given_pathname) = true)) :
    LeavesFlags w pid
      (Function.update (flagsOf t) (row.int .return_value)
        (some (BitVec.ofInt 32 (row.int .open_value))))
      (openatProcessRow pid row w) := by
  have hnonneg := isFd_nonneg hret
  unfold openatProcessRow
  rw [bind_of_eq_some (getFd_run ht _), bind_of_eq_some (getMode_run humask _)]
  dsimp only
  rw [if_neg hreal, bind_of_eq_some (intSyscall_apply _ w)]
  rw [if_neg fun hdropped => by omega]
  exact leavesFlags_addFd ht ((Replaced.refl ht).serve _) hret hnew _ _ _

theorem creat_leavesFlags (ht : w.table pid = some t) {umask : BitVec 32}
    (humask : w.manager.getUmask pid = some umask) {row : Row}
    (hret : isFd (row.int .return_value) = true) (hnew : t[row.int .return_value]? = none) :
    LeavesFlags w pid
      (Function.update (flagsOf t) (row.int .return_value) (some (oCreat ||| oWronly ||| oTrunc)))
      (creatProcessRow pid row w) := by
  unfold creatProcessRow
  rw [bind_of_eq_some (getMode_run humask _), bind_of_eq_some (intSyscall_apply _ w)]
  exact leavesFlags_addFd ht ((Replaced.refl ht).serve _) hret hnew _ _ _

theorem close_leavesFlags (ht : w.table pid = some t) (held descVal : Int) :
    LeavesFlags w pid (Function.update (flagsOf t) descVal none)
      (closeProcessRow pid held descVal w) := by
  have hreplaced := (Replaced.refl ht).setTable ht (t.erase descVal)
  unfold closeProcessRow
  rw [bind_of_eq_some (removeFd_run ht descVal), ← flagsOf_erase]
  split
  · exact leavesFlags_pure hreplaced held
  · exact ⟨_, _, _, rfl, hreplaced, rfl⟩

theorem dup_leavesFlags (ht : w.table pid = some t) {tracedFd : Int} {e : FileDescriptorEntry}
    (he : t[tracedFd]? = some e) (hret : isFd ret = true) (hnew : t[ret]? = none) :
    LeavesFlags w pid (Function.update (flagsOf t) ret (some (e.flags &&& ~~~oCloexec)))
      (dupProcessRow pid ret tracedFd w) := by
  unfold dupProcessRow
  rw [bind_of_eq_some (getFd_run ht _), bind_of_eq_some (getFlags_run ht he)]
  dsimp only
  split
  · rw [bind_of_eq_some (pure_apply _ w)]
    exact leavesFlags_addFd ht (.refl ht) hret hnew _ _ _
  · rw [bind_of_eq_some (intSyscall_apply _ w)]
    exact leavesFlags_addFd ht ((Replaced.refl ht).serve _) hret hnew _ _ _

theorem duplicateTo_leavesFlags (ht : w.table pid = some t) {oldFd : Int}
    {e : FileDescriptorEntry} (he : t[oldFd]? = some e) (hret : isFd ret = true)
    (newFdFlags : BitVec 32 → BitVec 32) (call : Int → Int → SystemCall) :
    LeavesFlags w pid (Function.update (flagsOf t) ret (some (newFdFlags e.flags)))
      (duplicateTo pid ret oldFd ret newFdFlags call w) := by
  have hreplaced := (Replaced.refl ht).setTable ht (t.erase ret)
  have herased : (w.setTable pid (t.erase ret)).table pid = some (t.erase ret) :=
    table_setTable_self ht
  have hnew : (t.erase ret)[ret]? = none := by
    rw [getElem?_erase, if_pos rfl]
  have hflags : Function.update (flagsOf t) ret (some (newFdFlags e.flags)) =
      Function.update (flagsOf (t.erase ret)) ret (some (newFdFlags e.flags)) := by
    rw [flagsOf_erase, Function.update_idem]
  rw [duplicateTo_run ht he, hflags]
  unfold duplicateEntry
  generalize (if t.hasFd ret = true then t.getFd ret else syscallSimulated) = held
  split
  · rw [int32_of_isFd hret]
    exact leavesFlags_addFd ht hreplaced hret hnew _ _ _
  · dsimp only
    split
    · obtain ⟨fd, hfd⟩ := generateUnusedFd_run herased
      rw [bind_of_eq_some hfd]
      rw [bind_of_eq_some (intSyscall_apply _ _)]
      exact leavesFlags_addFd ht (hreplaced.serve _) hret hnew _ _ _
    · rw [bind_of_eq_some (pure_apply _ _)]
      rw [bind_of_eq_some (intSyscall_apply _ _)]
      exact leavesFlags_addFd ht (hreplaced.serve _) hret hnew _ _ _

theorem fcntl_leavesFlags_of_table (ht : w.table pid = some t) {f : Flags}
    {tracedFd command argVal : Int} (type whence start length lockPid : Int)
    (h : ∀ replayed w', Replaced w pid t w' → ∃ w'' s,
      fcntlTable pid ret replayed tracedFd command argVal w' = some ((), w'') ∧
        Replaced w pid s w'' ∧ flagsOf s = f) :
    LeavesFlags w pid f (fcntlProcessRow pid ret tracedFd command argVal type whence start length
      lockPid w) := by
  unfold fcntlProcessRow
  rw [bind_of_eq_some (getFd_run ht _), bind_of_eq_some (intSyscall_apply _ w)]
  generalize hserved : w.serve _ = served
  generalize int32 (w.answer _) = replayed
  obtain ⟨w'', s, hrun, hreplaced, hflags⟩ :=
    h replayed served (.of_eq ht (by rw [← hserved, serve_manager]))
  rw [bind_of_eq_some hrun]
  exact ⟨_, w'', s, rfl, hreplaced, hflags⟩

theorem fcntl_dup_leavesFlags (ht : w.table pid = some t) {tracedFd command : Int}
    (argVal type whence start length lockPid : Int)
    (hcommand : command = fDupfd ∨ command = fDupfdCloexec) {e : FileDescriptorEntry}
    (he : t[tracedFd]? = some e) (hret : isFd ret = true) (hnew : t[ret]? = none) :
    LeavesFlags w pid
      (Function.update (flagsOf t) ret (some (if command = fDupfdCloexec then
        e.flags &&& ~~~oCloexec ||| oCloexec else e.flags &&& ~~~oCloexec)))
      (fcntlProcessRow pid ret tracedFd command argVal type whence start length lockPid w) := by
  apply fcntl_leavesFlags_of_table ht
  intro replayed w' hw'
  unfold fcntlTable
  rw [if_pos hcommand, bind_of_eq_some (getFlags_run (hw'.table ht) he)]
  obtain ⟨w'', hadd, hreplaced⟩ := addFd_replaced ht hw' hret hnew replayed
    (if command = fDupfdCloexec then e.flags &&& ~~~oCloexec ||| oCloexec
      else e.flags &&& ~~~oCloexec)
  exact ⟨w'', _, hadd, hreplaced, flagsOf_insert _ _ _⟩

theorem fcntl_setfd_leavesFlags (ht : w.table pid = some t) {tracedFd : Int}
    (type whence start length lockPid : Int) {e : FileDescriptorEntry}
    (he : t[tracedFd]? = some e) :
    LeavesFlags w pid (Function.update (flagsOf t) tracedFd (some (e.flags ||| oCloexec)))
      (fcntlProcessRow pid ret tracedFd fSetfd fdCloexec type whence start length lockPid w) := by
  apply fcntl_leavesFlags_of_table ht
  intro replayed w' hw'
  refine ⟨_, _, ?_, hw'.setTable ht _, flagsOf_insert t tracedFd ⟨e.fd, e.flags ||| oCloexec⟩⟩
  exact addFlags_run (hw'.table ht) he oCloexec

theorem fcntl_other_leavesFlags (ht : w.table pid = some t) (tracedFd : Int)
    {command argVal : Int} (type whence start length lockPid : Int)
    (hdup : ¬(command = fDupfd ∨ command = fDupfdCloexec))
    (hset : ¬(command = fSetfd ∧ argVal = fdCloexec)) :
    LeavesFlags w pid (flagsOf t)
      (fcntlProcessRow pid ret tracedFd command argVal type whence start length lockPid w) := by
  apply fcntl_leavesFlags_of_table ht
  intro replayed w' hw'
  refine ⟨w', t, ?_, hw', rfl⟩
  unfold fcntlTable
  rw [if_neg hdup]
  split
  · rename_i hcommand
    rw [if_neg fun harg => hset ⟨hcommand, harg⟩]
    rfl
  · rfl

theorem pair_leavesFlags (ht : w.table pid = some t) {w' : World} (hw' : w'.manager = w.manager)
    {readFd writeFd : Int} (hread : isFd readFd = true) (hwrite : isFd writeFd = true)
    (hnewRead : t[readFd]? = none) (hnewWrite : t[writeFd]? = none) (hne : readFd ≠ writeFd)
    (value : Int) :
    LeavesFlags w pid
      (Function.update (Function.update (flagsOf t) readFd (some 0)) writeFd (some 0))
      ((addFd pid readFd syscallSimulated 0 >>= fun _ =>
        addFd pid writeFd syscallSimulated 0 >>= fun _ => (pure value : Replay Int)) w') := by
  obtain ⟨w'', hadd, hreplaced⟩ := addFd_replaced ht (.of_eq ht (by rw [hw'])) hread hnewRead
    syscallSimulated 0
  rw [bind_of_eq_some hadd]
  have hflags := flagsOf_insert t readFd ⟨syscallSimulated, 0⟩
  rw [← hflags]
  apply leavesFlags_addFd ht hreplaced hwrite
  rw [getElem?_insert, if_neg hne]
  exact hnewWrite

theorem simulateDescriptor_leavesFlags (ht : w.table pid = some t) (hret : isFd ret = true)
    (hnew : t[ret]? = none) (flags : BitVec 32) :
    LeavesFlags w pid (Function.update (flagsOf t) ret (some flags))
      (simulateDescriptor pid (int32 ret) flags w) := by
  have hnonneg := isFd_nonneg hret
  unfold simulateDescriptor
  rw [int32_of_isFd hret, if_pos]
  · exact leavesFlags_addFd ht (.refl ht) hret hnew _ _ _
  · unfold syscallFailure
    omega

theorem accept4_leavesFlags (ht : w.table pid = some t) (hret : isFd ret = true)
    (hnew : t[ret]? = none) (hpos : ret ≠ 0) :
    LeavesFlags w pid (Function.update (flagsOf t) ret (some oCloexec))
      (accept4ProcessRow pid ret w) := by
  have hnonneg := isFd_nonneg hret
  unfold accept4ProcessRow
  rw [int32_of_isFd hret]
  dsimp only
  rw [if_pos (by omega)]
  exact leavesFlags_addFd ht (.refl ht) hret hnew _ _ _

theorem exists_cloneUmask {umask : BitVec 32} (humask : w.manager.getUmask pid = some umask)
    (child : Int) (shared : Bool) : ∃ w', cloneUmask pid child shared w = some ((), w') := by
  have hget : w.manager.umaskTable.get pid = some umask := humask
  unfold cloneUmask updateManager changeManager Manager.cloneUmask
  cases shared with
  | true =>
      obtain ⟨table, hshare⟩ := Shared.exists_share hget child
      simp [hshare]
  | false => simp [hget]

theorem exists_startProcess (ht : w.table pid = some t) {umask : BitVec 32}
    (humask : w.manager.getUmask pid = some umask) (child : Int) (sharedUmask sharedFiles : Bool) :
    ∃ w', startProcess pid child sharedUmask sharedFiles w = some ((), w') := by
  obtain ⟨w₁, humasks⟩ := exists_cloneUmask humask child sharedUmask
  obtain ⟨-, htables⟩ := cloneUmask_resources humasks
  have ht₁ : w₁.manager.fdTableMap.get pid = some t := by
    rw [htables]
    exact ht
  obtain ⟨w₂, hfiles⟩ := exists_cloneFdTable ht₁ child sharedFiles
  unfold startProcess
  rw [bind_of_eq_some humasks, bind_of_eq_some hfiles]
  exact ⟨_, rfl⟩

theorem exists_exit (hcoupled : Coupled w) (ht : w.table pid = some t) (held : Int) :
    ∃ w', exitProcessRow pid held w = some (held, w') := by
  obtain ⟨umask, humask⟩ := hcoupled.exists_umask ht
  obtain ⟨freedUmask, table, hreleased⟩ := hcoupled.umasks.exists_release humask
  obtain ⟨freed, map, hrelease⟩ := hcoupled.tables.exists_release ht
  have hclose : Total (fun _ => True)
      (((freed.map FdTable.getAllReplayedFds).getD []).forM fun fd =>
        (do let _ ← syscall (.close fd) : Replay PUnit)) fun _ _ => True := by
    refine Total.forM (I := fun _ _ => True) _ fun fd rest w' _ => ?_
    exact ⟨_, _, rfl, trivial⟩
  have htables : { w with manager := { w.manager with umaskTable := table } }.manager.fdTableMap.release
      pid = some (freed, map) := hrelease
  unfold exitProcessRow
  rw [bind_of_eq_some (removeUmask_run hreleased), bind_of_eq_some (removeFdTable_run htables)]
  obtain ⟨u, w', hrun, -⟩ := hclose (s := { w with manager :=
    { w.manager with umaskTable := table, fdTableMap := map } }) trivial
  rw [bind_of_eq_some hrun]
  exact ⟨w', rfl⟩

end

end SyscallReplayer.SuccessfulRecords
