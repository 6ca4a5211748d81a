import SyscallReplayer.Admission
import SyscallReplayer.InterleavedReplay
import SyscallReplayer.ModulePrograms

/-!
# Entries that no record names

An entry that every process has, and that no record names, is left alone: `execve`
keeps it unless it closes on exec, and a child gets it as it is unless it holds a
descriptor to duplicate. So `AT_FDCWD` stands for itself in every process. Threads
interleave between the modules that they run, not within them.
-/

namespace SyscallReplayer.UntouchedEntries

open CInt SharedEntries ReplayKernel ResourcesManager ReplayWorld ReplayModules
open StatePrograms StateFrames ComposedPrograms ModulePrograms World ReplayRuns
open InterleavedReplay SnapshotFidelity TransitionSystem RecordConservation ThreadOrder Admission
open Scheduler (Config Record)

/-- The programs that touch no entry of this descriptor. -/
def besides (k : Int) : Scope :=
  ⟨True, (· ≠ k), fun _ => True, fun _ => True, trivial⟩

/-- Every process has this entry for the traced descriptor. -/
structure Everywhere (k : Int) (e : FileDescriptorEntry) (w : World) : Prop where
  backed : w.manager.fdTableMap.Backed
  entry : ∀ p t, w.table p = some t → t[k]? = some e

namespace Everywhere

variable {k : Int} {e : FileDescriptorEntry} {w w' : World} {pid : Int} {t t' : FdTable}

theorem congr (h : Everywhere k e w) (htables : w'.manager.fdTableMap = w.manager.fdTableMap) :
    Everywhere k e w' where
  backed := htables ▸ h.backed
  entry := by
    intro p t ht
    unfold table at ht
    rw [htables] at ht
    exact h.entry p t ht

theorem setTable (h : Everywhere k e w) (ht : w.table pid = some t) (ht' : t'[k]? = t[k]?) :
    Everywhere k e (w.setTable pid t') where
  backed := by
    obtain ⟨map, hmap, hset⟩ := exists_modify ht t'
    rw [hset]
    exact h.backed.modify hmap
  entry := by
    intro p s hs
    rw [table_setTable ht] at hs
    split at hs
    · obtain rfl := Option.some.inj hs
      rw [ht', h.entry pid t ht]
    · exact h.entry p s hs

theorem addFd {tracedFd fd : Int} {flags : BitVec 32} {u : Unit} (h : Everywhere k e w)
    (hne : int32 tracedFd ≠ k) (hrun : addFd pid tracedFd fd flags w = some (u, w')) :
    Everywhere k e w' := by
  obtain ⟨t, t', ht, hentry, rfl⟩ := addFd_eq_some hrun
  refine h.setTable ht ?_
  rcases FdTable.addFdEntry_cases hentry with ⟨-, rfl⟩ | ⟨-, -, rfl⟩
  · rw [getElem?_insert, if_neg hne]
  · rfl

theorem erase (h : Everywhere k e w) (ht : w.table pid = some t) {tracedFd : Int}
    (hne : tracedFd ≠ k) : Everywhere k e (w.setTable pid (t.erase tracedFd)) := by
  refine h.setTable ht ?_
  rw [getElem?_erase, if_neg hne]

theorem addFlags {tracedFd : Int} {flags : BitVec 32} {u : Unit} (h : Everywhere k e w)
    (hne : tracedFd ≠ k) (hrun : addFlags pid tracedFd flags w = some (u, w')) :
    Everywhere k e w' := by
  obtain ⟨t, e', ht, -, rfl⟩ := addFlags_eq_some hrun
  refine h.setTable ht ?_
  rw [getElem?_insert, if_neg hne]

theorem execveEntry {retVal tracedFd : Int} {u : Unit} (h : Everywhere k e w)
    (hkept : closesOnExec e.flags = false)
    (hrun : execveEntry pid retVal tracedFd w = some (u, w')) : Everywhere k e w' := by
  obtain ⟨flags, w₁, hflags, -⟩ := bind_eq_some.mp hrun
  obtain ⟨flags', hget, -⟩ := Option.map_eq_some_iff.mp hflags
  obtain ⟨t, ht, hentry⟩ := Option.bind_eq_some_iff.mp hget
  obtain ⟨e', he', -⟩ := Option.map_eq_some_iff.mp hentry
  rw [execveEntry_run ht he' retVal] at hrun
  obtain rfl := (Prod.mk.inj (Option.some.inj hrun)).2
  refine h.setTable ht ?_
  split
  · rfl
  · rename_i hclosed
    rw [getElem?_erase, if_neg]
    rintro rfl
    obtain rfl := Option.some.inj (he'.symm.trans (h.entry pid t ht))
    exact hclosed (by simp [keptByExecve, hkept])

theorem removeFdTable {fds : List Int} (h : Everywhere k e w)
    (hrun : removeFdTable pid w = some (fds, w')) : Everywhere k e w' := by
  obtain ⟨result, hresult, heq⟩ := Option.map_eq_some_iff.mp hrun
  obtain ⟨-, rfl⟩ := Prod.mk.inj heq
  obtain ⟨⟨freed, map⟩, hrelease, hsome⟩ := Option.bind_eq_some_iff.mp hresult
  obtain rfl := Option.some.inj hsome
  constructor
  · exact h.backed.release hrelease
  · intro p t ht
    rw [table_of_release h.backed hrelease rfl p] at ht
    split at ht
    · cases ht
    · exact h.entry p t ht

theorem copied {copy : FdTable} {w₁ w₂ : World} (hk : t[k]? = some e) (hfd : ¬e.fd > 0)
    (hrun : t.toList.foldlM cloneEntry ∅ w₁ = some (copy, w₂)) :
    copy[k]? = some e ∧ w₂.manager = w₁.manager := by
  have hloop := cloneEntries_loop
    (I := fun rest copy v => ((k, e) ∈ rest ∨ copy[k]? = some e) ∧ v.manager = w₁.manager)
    ⟨.inl (Std.ExtTreeMap.mem_toList_iff_getElem?_eq_some.mpr hk), rfl⟩ ?_ hrun
  · exact ⟨hloop.1.resolve_left List.not_mem_nil, hloop.2⟩
  rintro copy copy' k' e' rest v v' he' hnew ⟨hcopy, hmanager⟩ hentry
  obtain ⟨newFd, hadd, hcase⟩ := cloneEntry_eq_some hentry
  rw [FdTable.addFdEntry_of_unmapped hnew] at hadd
  obtain rfl := Option.some.inj hadd
  constructor
  · rw [getElem?_insert]
    split
    · rename_i heq
      subst heq
      obtain rfl := Option.some.inj (hk.symm.trans he')
      rcases hcase with ⟨hpos, -, -⟩ | ⟨-, rfl, -⟩
      · exact absurd hpos hfd
      · exact .inr rfl
    · rename_i hne
      rcases hcopy with hmem | hcopy
      · rcases List.mem_cons.mp hmem with heq | hmem
        · exact absurd (Prod.mk.inj heq).1.symm hne
        · exact .inl hmem
      · exact .inr hcopy
  · rcases hcase with ⟨-, -, rfl⟩ | ⟨-, -, rfl⟩
    · exact hmanager
    · exact hmanager

theorem cloneFdTable {child : Int} {shared : Bool} {u : Unit} (h : Everywhere k e w)
    (hfd : ¬e.fd > 0) (hrun : cloneFdTable pid child shared w = some (u, w')) :
    Everywhere k e w' := by
  unfold ReplayWorld.cloneFdTable at hrun
  split at hrun
  · obtain ⟨m, hm, rfl⟩ := updateManager_eq_some hrun
    obtain ⟨map, hshare, rfl⟩ := Option.map_eq_some_iff.mp hm
    constructor
    · exact h.backed.share hshare
    · intro p t ht
      rw [table_of_share hshare rfl p] at ht
      exact h.entry _ t ht
  · obtain ⟨parent, w₁, hparent, hrest⟩ := bind_eq_some.mp hrun
    obtain ⟨parent', hget, heq⟩ := Option.map_eq_some_iff.mp hparent
    obtain ⟨rfl, rfl⟩ := Prod.mk.inj heq
    obtain ⟨copy, w₂, hloop, hcreate⟩ := bind_eq_some.mp hrest
    obtain ⟨m, hm, rfl⟩ := updateManager_eq_some hcreate
    obtain rfl := Option.some.inj hm
    obtain ⟨hcopy, hmanager⟩ := copied (h.entry pid _ hget) hfd hloop
    have htables : (w₂.manager.fdTableMap.create child copy) =
        w.manager.fdTableMap.create child copy := by rw [hmanager]
    constructor
    · exact htables ▸ h.backed.create child copy
    · intro p t ht
      rw [table_of_create h.backed htables p] at ht
      split at ht
      · obtain rfl := Option.some.inj ht
        exact hcopy
      · exact h.entry p t ht

theorem within_operation {α : Type} {m : Replay α} {Q : α → Prop} (hfd : ¬e.fd > 0)
    (hkept : closesOnExec e.flags = false) (hm : Operation (besides k) α m Q) :
    Within (Frame.preserving (Everywhere k e)) m := by
  intro w a w' hrun h
  cases hm with
  | syscall _ | opened | redirected | createArea pid | modifyArea _ pid f | startThread pid =>
      obtain rfl := (Prod.mk.inj (Option.some.inj hrun)).2
      exact h.congr rfl
  | query | getFd | generateUnusedFd =>
      obtain ⟨b, -, heq⟩ := Option.map_eq_some_iff.mp hrun
      obtain rfl := (Prod.mk.inj heq).2
      exact h
  | addFd pid flags hne _ => exact h.addFd hne hrun
  | removeFd pid hne =>
      obtain ⟨t, ht, -, rfl⟩ := removeFd_eq_some hrun
      exact h.erase ht hne
  | addFlags pid flags hne => exact h.addFlags hne hrun
  | execveEntry pid retVal tracedFd => exact h.execveEntry hkept hrun
  | removeFdTable pid => exact h.removeFdTable hrun
  | cloneFdTable ppid pid shared => exact h.cloneFdTable hfd hrun
  | setUmask pid mode =>
      obtain ⟨m, hm, rfl⟩ := updateManager_eq_some hrun
      obtain ⟨table, -, heq⟩ := Option.bind_eq_some_iff.mp hm
      obtain rfl := Option.some.inj heq
      exact h.congr rfl
  | removeUmask pid => exact h.congr (removeUmask_eq_some hrun).fdTableMap
  | cloneUmask ppid pid shared => exact h.congr (cloneUmask_eq_some hrun).fdTableMap

end Everywhere

/-- The traced descriptors whose entries a record may make, remove or change, apart
from what `execve` closes. -/
def touchedBy (a : Execution) : List Int :=
  match a.kind with
  | .open_ | .openat | .creat | .dup | .socket | .epoll_create | .accept | .accept4 =>
      [int32 a.returnValue]
  | .close => [a.row.int .descriptor]
  | .dup2 | .dup3 => [a.row.int .new_descriptor, int32 a.returnValue]
  | .fcntl =>
      touchedByFcntl a.returnValue (a.row.int .descriptor) (a.row.int .command_value)
  | .pipe | .socketpair =>
      [int32 (a.row.int .read_descriptor), int32 (a.row.int .write_descriptor)]
  | _ => []

theorem touchedByFcntl_int32 (returnValue tracedFd command : Int) :
    touchedByFcntl (int32 returnValue) tracedFd command =
      touchedByFcntl returnValue tracedFd command := by
  unfold touchedByFcntl
  rw [int32_int32]

theorem touched_move {m copy : ReplayModule} (h : move m = some copy) : touched copy = touched m := by
  obtain ⟨kind, -, rfl⟩ := Option.map_eq_some_iff.mp h
  obtain ⟨kind', c, replayed, members⟩ := m
  cases members
  case open_ | dup | dup2 | dup3 | socket | epoll_create | accept | accept4 =>
    simp only [touched, setMove, setCommon, int32_int32]
  case fcntl => exact touchedByFcntl_int32 _ _ _
  all_goals rfl

theorem touched_ownWith {kind : SysCallKind} {a : Execution} (hkind : a.kind = kind)
    {members : Members} (h : prepareMembers kind a.held a.row a.rest = some members) :
    touched (ownWith kind a.row members) ⊆ touchedBy a := by
  unfold touchedBy
  rw [hkind]
  cases kind
  case read | pread | mmappread | write | pwrite | mmappwrite | readlink | ioctl =>
    obtain ⟨_, -, heq⟩ := Option.bind_eq_some_iff.mp h
    obtain rfl := Option.some.inj heq
    exact List.nil_subset _
  case dup | dup2 | dup3 | socket | epoll_create | accept | accept4 | fcntl =>
    obtain rfl := Option.some.inj h
    simp only [touched, ownWith, rowCommon_returnVal]
    exact List.Subset.refl _
  case openat | creat =>
    obtain rfl := Option.some.inj h
    simp [touched, ownWith, Execution.returnValue]
  all_goals
    obtain rfl := Option.some.inj h
    exact List.Subset.refl _

theorem touched_of_module {a : Execution} {m : ReplayModule} (hm : a.module = some m) :
    touched m ⊆ touchedBy a := by
  obtain ⟨members, hmembers, hmoved⟩ := module_eq_some hm
  have hown := touched_ownWith rfl hmembers
  split at hmoved
  · rw [touched_move hmoved]
    exact hown
  · obtain rfl := Option.some.inj hmoved
    exact hown

theorem touched_of_current {a : Execution} {m : ReplayModule} (hm : a.module = some m)
    (hkind : m.sysCallName = .openat ∨ m.sysCallName = .creat) :
    int32 (a.position.1.int .return_value) ∈ touchedBy a := by
  obtain ⟨members, -, hmoved⟩ := module_eq_some hm
  cases hqueued : a.queued with
  | true =>
      rw [hqueued, if_pos rfl] at hmoved
      obtain ⟨kind, hmoves, rfl⟩ := Option.map_eq_some_iff.mp hmoved
      have hsame := movesTo_movesTo hmoves
      rcases hkind with heq | heq
      · obtain rfl : kind = .openat := heq
        cases hsame
      · obtain rfl : kind = .creat := heq
        cases hsame
  | false =>
      rw [hqueued, if_neg Bool.false_ne_true] at hmoved
      obtain rfl := Option.some.inj hmoved
      have hown : a.kind = .openat ∨ a.kind = .creat := hkind
      rw [Execution.position, hqueued, if_neg Bool.false_ne_true]
      unfold touchedBy
      rcases hown with heq | heq
      · rw [heq]
        exact List.mem_cons_self
      · rw [heq]
        exact List.mem_cons_self

section Steps

variable {opts : Options} {k : Int} {e : FileDescriptorEntry} {w w' : World}

theorem Everywhere.executeStep {a : Execution} (h : Everywhere k e w) (hfd : ¬e.fd > 0)
    (hkept : closesOnExec e.flags = false) (hnames : k ∉ touchedBy a)
    (hrun : executeStep opts w a = some w') : Everywhere k e w' := by
  obtain ⟨m, replayed, hm, hprocess⟩ := executeStep_eq_some hrun
  have hwithin : ∀ {α : Type} {p : Replay α},
      Program (besides k) p → Within (Frame.preserving (Everywhere k e)) p := fun hp =>
    hp.within (fun hop => hop.values fun _ => trivial) (Everywhere.within_operation hfd hkept)
  have hother : ∀ {k'}, k' ∈ touchedBy a → k' ≠ k := fun hmem heq => hnames (heq ▸ hmem)
  exact processRow_cases
    (hwithin (program_processMembers opts m (fun _ => trivial)
      (fun _ hk => hother (touched_of_module hm hk)) (fun _ _ _ => trivial)
      (fun _ _ _ _ => trivial) fun _ _ => trivial))
    (fun program hprogram => hwithin (program_processCurrentRow opts m _ _ program hprogram
      (fun hkind => ⟨hother (touched_of_current hm hkind), fun _ _ _ => trivial⟩)
      fun _ _ _ => trivial)) hprocess h

theorem Everywhere.sequential {call : Record → Execution} {log : List Record}
    (h : Everywhere k e w) (hfd : ¬e.fd > 0) (hkept : closesOnExec e.flags = false)
    (hnames : ∀ r ∈ log, k ∉ touchedBy (call r))
    (hrun : sequential opts call w log = some w') : Everywhere k e w' := by
  induction log generalizing w with
  | nil =>
      obtain rfl := Option.some.inj hrun
      exact h
  | cons r log ih =>
      obtain ⟨w₁, hstep, hrest⟩ := Option.bind_eq_some_iff.mp hrun
      have hfirst : k ∉ touchedBy { call r with queued := true } := hnames r List.mem_cons_self
      exact ih (h.executeStep hfd hkept hfirst hstep)
        (fun r' hr' => hnames r' (List.mem_cons_of_mem r hr')) hrest

end Steps

theorem everywhere_of_prepared {w : World} {pid : Int} {maxFds : Nat}
    (h : Prepared w pid maxFds) : Everywhere atFdcwd ⟨atFdcwd, 0⟩ w := by
  obtain ⟨hexact, htable, hothers, -⟩ := h.tables
  refine ⟨hexact.toBacked, fun p t ht => ?_⟩
  rcases eq_or_ne p pid with rfl | hne
  · obtain rfl := Option.some.inj (ht.symm.trans htable)
    rw [stdTable_getElem?, if_pos (.inl rfl)]
  · rw [hothers p hne] at ht
    cases ht

/-- If no record names `AT_FDCWD` where a descriptor is made, closed or changed, it
stands for the working directory of the replayer in every process, whatever the
threads, the tables they share and the schedule. -/
theorem working_directory_kept {opts : Options} {call : Record → Execution} {cfg : Config}
    {start : World} {pid : Int} {maxFds : Nat} (hstart : Prepared start pid maxFds)
    (hnames : ∀ r ∈ cfg.records, atFdcwd ∉ touchedBy (call r)) {s : State}
    (h : (interleaved opts call cfg start).Reachable s) {p : Int} {t : FdTable}
    (hlive : s.world.table p = some t) : s.world.resolves p atFdcwd = some atFdcwd := by
  obtain ⟨hworld, -, hscheduled⟩ := interleaved_sequential h
  have hlogged : ∀ r ∈ s.scheduler.executedLog, atFdcwd ∉ touchedBy (call r) := fun r hr =>
    hnames r ((mem_records (reachable_accounted hscheduled)).mpr (.inl hr))
  have hkept := (everywhere_of_prepared hstart).sequential (by decide) (by decide) hlogged hworld
  rw [resolves_of_table hlive, FdTable.getFd_of_mapped (hkept.entry p t hlive)]

def nearCall (r : Record) : Execution :=
  queuedCall r.sysCallName r.executingPid r.returnValue fun _ => 0

/-- The process that the `clone` started has a table of its own. -/
theorem nearTrace_working_directory :
    ∃ s : State, (s.world.table 2).isSome = true ∧ s.world.tableOf 2 ≠ s.world.tableOf 1 ∧
      s.world.resolves 2 atFdcwd = some atFdcwd := by
  obtain ⟨s, hreach, hs⟩ := (interleaved quiet nearCall nearTrace
    (startWorld inOrder)).exists_reachable
    (List.replicate 14 (.reader 0) ++ List.replicate 6 (.executor 0 0))
    (fun s => decide (s.scheduler.executedLog =
      [⟨.umask, 0, 1, 0, 1, 0⟩, ⟨.clone, 1, 1, 2, 3, 2⟩])) (by decide +kernel)
  have hworld := world_of_executedLog hreach
  rw [of_decide_eq_true hs] at hworld
  have hforked : (sequential quiet nearCall (startWorld inOrder)
      [⟨.umask, 0, 1, 0, 1, 0⟩, ⟨.clone, 1, 1, 2, 3, 2⟩]).any
      (fun w => decide ((w.table 2).isSome = true ∧ w.tableOf 2 ≠ w.tableOf 1)) = true := by
    decide
  rw [hworld, Option.any_some] at hforked
  obtain ⟨hlive, hown⟩ := of_decide_eq_true hforked
  obtain ⟨t, ht⟩ := Option.isSome_iff_exists.mp hlive
  exact ⟨s, hlive, hown,
    working_directory_kept (startWorld_prepared inOrder) (by decide) hreach ht⟩

end SyscallReplayer.UntouchedEntries
