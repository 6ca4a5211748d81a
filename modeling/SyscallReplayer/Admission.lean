import Mathlib.Data.List.Nodup
import Mathlib.Order.WellFounded
import SyscallReplayer.LoadedReplay
import SyscallReplayer.RunningTable

/-!
# Some waiting record passes the check

When every live thread waits with a record of its own, the interval test does
not hold back the one that returns first. Only the distance of its id to
`lastExecutedSyscallID` can.
-/

namespace SyscallReplayer.Admission

open SyscallReplayer.CInt
open SyscallReplayer.TransitionSystem
open SyscallReplayer.Scheduler
open SyscallReplayer.SchedulerSteps
open SyscallReplayer.ReaderProgress
open SyscallReplayer.RecordConservation
open SyscallReplayer.ThreadOrder
open SyscallReplayer.LoadedReplay
open SyscallReplayer.RunningTable

/-- Every live executor has popped a record and entered it, and has not executed
it. -/
def Entered (s : State) : Prop :=
  ∀ e ∈ s.executors, e.pc ≠ .exited →
    ∃ c, inHand e.pc = some c ∧ (e.threadID, some c) ∈ s.currentExecutions

/-- A record of the main thread, or one with a larger id than the record that
started its thread. -/
inductive Numbered (cfg : Config) : Record → Prop
  | main {r : Record} (hpid : r.executingPid = cfg.mainThreadID) : Numbered cfg r
  | child {k r : Record} (hk : k ∈ cfg.records) (hnum : Numbered cfg k)
      (hchild : k.child = some r.executingPid) (hlt : k.uniqueId < r.uniqueId) :
      Numbered cfg r

/-- The window of 150 ids reaches every record that may have to go first. That
is a record `r` alone, or one that returned before `q` was called, when nothing
with an id from `q` on has been executed. -/
def InWindow (cfg : Config) : Prop :=
  ∀ r ∈ cfg.records, ∀ q ∈ cfg.records, r = q ∨ r.timeReturned < q.timeCalled →
    r.uniqueId ≤ 150 ∨ ∃ p ∈ cfg.records, Numbered cfg p ∧ p.uniqueId < q.uniqueId ∧
      r.uniqueId ≤ p.uniqueId + 150

/-- The value an executor is about to store in `lastExecutedSyscallID`. -/
def pendingStore : ExecutorPc → Option Nat
  | .storing lastId => some lastId
  | .executed c => some c.record.uniqueId
  | _ => none

/-- The value that the next step of an executor stores there. -/
def storing : ExecutorPc → Option Nat
  | .storing lastId => some lastId
  | _ => none

/-- No store takes `lastExecutedSyscallID` back. -/
def KeepsLast (s : State) (a : Action) : Prop :=
  ∀ e ∈ actor s a, ∀ lastId ∈ storing e.pc, s.lastExecutedSyscallID ≤ lastId

def Steady (cfg : Config) (s : State) (a : Action) : Prop :=
  Timely cfg s a ∧ KeepsLast s a

instance (s : State) (a : Action) : Decidable (KeepsLast s a) := by
  unfold KeepsLast
  infer_instance

instance (cfg : Config) (s : State) (a : Action) : Decidable (Steady cfg s a) :=
  inferInstanceAs (Decidable (_ ∧ _))

section State

variable {cfg : Config} {s s' : State} {a : Action}

structure Table (cfg : Config) (s : State) : Prop where
  fresh : s.reader = .prepare → s.executedLog = [] ∧ s.currentExecutions = []
  idle : s.executors = [] → Prepared cfg s.executedLog s.currentExecutions
  keys : (s.currentExecutions.map Prod.fst).Nodup
  live : s.executors ≠ [] → ∀ entry ∈ s.currentExecutions,
    ∃ e ∈ s.executors, e.pc ≠ .exited ∧ e.threadID = entry.1
  last : ∀ r ∈ s.executedLog, r.uniqueId ≤ s.lastExecutedSyscallID ∨
    ∃ e ∈ s.executors, ∃ lastId, pendingStore e.pc = some lastId ∧ r.uniqueId ≤ lastId

theorem keys_filter {entries : List (Int × Option Copy)}
    (hkeys : (entries.map Prod.fst).Nodup) (tid : Int) :
    ((entries.filter fun e => e.1 ≠ tid).map Prod.fst).Nodup :=
  ((List.filter_sublist (p := fun e => decide (e.1 ≠ tid))).map Prod.fst).nodup hkeys

theorem keys_setRunning (hkeys : (s.currentExecutions.map Prod.fst).Nodup) (tid : Int)
    (running : Option Copy) :
    ((s.setRunning tid running).currentExecutions.map Prod.fst).Nodup := by
  refine List.nodup_cons.mpr ⟨?_, keys_filter hkeys tid⟩
  intro hmem
  obtain ⟨entry, hentry, heq⟩ := List.mem_map.mp hmem
  exact of_decide_eq_true (List.mem_filter.mp hentry).2 heq

theorem keys_of_executorTransition {t : State} {tid : Int} {pc pc' : ExecutorPc}
    (h : ExecutorTransition cfg s tid pc t pc')
    (hkeys : (s.currentExecutions.map Prod.fst).Nodup) :
    (t.currentExecutions.map Prod.fst).Nodup := by
  cases h with
  | register c => exact keys_setRunning hkeys tid _
  | park c => exact keys_setRunning hkeys tid _
  | unregister => exact keys_filter hkeys tid
  | execute c =>
      unfold State.execute
      cases c.record.child with
      | none => exact hkeys
      | some pid =>
          have hlogged := keys_setRunning
            (s := { s with executedLog := s.executedLog ++ [c.record] }) hkeys pid none
          exact hlogged
  | _ => exact hkeys

theorem key_of_setRunning {tid : Int} {running : Option Copy} {entry : Int × Option Copy}
    (hentry : entry ∈ (s.setRunning tid running).currentExecutions) :
    (∃ old ∈ s.currentExecutions, old.1 = entry.1) ∨ entry.1 = tid := by
  rcases List.mem_cons.mp hentry with rfl | hmem
  · exact .inr rfl
  · exact .inl ⟨entry, List.mem_of_mem_filter hmem, rfl⟩

theorem key_origin {t : State} {tid : Int} {pc pc' : ExecutorPc}
    (h : ExecutorTransition cfg s tid pc t pc') {entry : Int × Option Copy}
    (hentry : entry ∈ t.currentExecutions) :
    (pc' = .exited → entry.1 ≠ tid) ∧
      ((∃ old ∈ s.currentExecutions, old.1 = entry.1) ∨ entry.1 = tid ∨
        ∃ e ∈ newExecutors pc, e.threadID = entry.1) := by
  cases h with
  | register c => exact ⟨by rintro ⟨⟩, (key_of_setRunning hentry).imp_right .inl⟩
  | park c => exact ⟨by rintro ⟨⟩, (key_of_setRunning hentry).imp_right .inl⟩
  | unregister =>
      obtain ⟨hmem, hne⟩ := List.mem_filter.mp hentry
      exact ⟨fun _ => of_decide_eq_true hne, .inl ⟨entry, hmem, rfl⟩⟩
  | execute c =>
      refine ⟨by rintro ⟨⟩, ?_⟩
      unfold State.execute at hentry
      cases hchild : c.record.child with
      | none =>
          rw [hchild] at hentry
          exact .inl ⟨entry, hentry, rfl⟩
      | some pid =>
          rw [hchild] at hentry
          rcases List.mem_cons.mp hentry with rfl | hmem
          · refine .inr (.inr ⟨⟨pid, .top⟩, ?_, rfl⟩)
            simp only [newExecutors, spawned, hchild, List.mem_singleton]
          · exact .inl ⟨entry, List.mem_of_mem_filter hmem, rfl⟩
  | _ => exact ⟨by rintro ⟨⟩, .inl ⟨entry, hentry, rfl⟩⟩

theorem readerTransition_table (hreader : ReaderInv cfg s) (hinv : Table cfg s)
    (h : ReaderTransition cfg s s') : Table cfg s' := by
  obtain ⟨hfresh, hidle, hkeys, hlive, hlast⟩ := hinv
  have hpc := hreader.pc
  cases h with
  | prepareEmpty hr => exact ⟨by rintro ⟨⟩, hidle, hkeys, hlive, hlast⟩
  | prepareUmask hr c hc humask hid =>
      rw [hr] at hpc
      obtain ⟨hlog, hcur⟩ := hfresh hr
      have hlog' : (prepared cfg s c).executedLog = [c.record] := by
        change s.executedLog ++ [c.record] = _
        rw [hlog, List.nil_append]
      have hcur' : (prepared cfg s c).currentExecutions =
          [(c.record.executingPid, some c)] := by
        change (c.record.executingPid, some c) :: s.currentExecutions.filter _ = _
        rw [hcur, List.filter_nil]
      have hexec : (prepared cfg s c).executors = [] := hpc.1
      refine ⟨by rintro ⟨⟩, fun _ => .inr ⟨c, ⟨?_, ?_, ?_⟩, hlog', ?_⟩, ?_,
        fun h => absurd hexec h, ?_⟩
      · rw [Record.child, humask]
      · exact (mem_minima.mp hc).2.1
      · intro r _ _
        rw [hid]
        exact Nat.zero_le _
      · rw [hcur', (mem_minima.mp hc).2.1]
      · rw [hcur']
        exact List.pairwise_singleton _ _
      · rw [hlog']
        intro r hr
        rw [List.mem_singleton.mp hr]
        exact .inl le_rfl
  | firstBatchDone b hr htodo hfirst =>
      rw [hr] at hpc
      have hexec := (hpc.first hfirst).executors
      refine ⟨by rintro ⟨⟩, ?_, hkeys, fun _ entry hentry => ?_, ?_⟩
      · exact fun hnil => absurd hnil (List.append_ne_nil_of_right_ne_nil _ (List.cons_ne_nil _ _))
      · refine ⟨⟨cfg.mainThreadID, .top⟩, List.mem_append_right _ List.mem_cons_self,
          by rintro ⟨⟩, ?_⟩
        rcases hidle hexec with ⟨_, hentries⟩ | ⟨c, _, _, hentries⟩
        · rw [hentries] at hentry
          exact (List.not_mem_nil hentry).elim
        · rw [hentries] at hentry
          rw [List.mem_singleton.mp hentry]
      · intro r hr
        refine (hlast r hr).imp_right ?_
        rintro ⟨e, he, hstore⟩
        exact ⟨e, List.mem_append_left _ he, hstore⟩
  | spinWait hr => exact ⟨hfresh, hidle, hkeys, hlive, hlast⟩
  | _ => exact ⟨by rintro ⟨⟩, hidle, hkeys, hlive, hlast⟩

section Step

variable {t : State} {pc' : ExecutorPc} {e : Executor} {before after : List Executor}

theorem moved_live (hinv : Table cfg s) (hsplit : s.executors = before ++ e :: after)
    (h : ExecutorTransition cfg s e.threadID e.pc t pc') {entry : Int × Option Copy}
    (hentry : entry ∈ t.currentExecutions) :
    ∃ e' ∈ (moved t e pc' before after).executors,
      e'.pc ≠ .exited ∧ e'.threadID = entry.1 := by
  obtain ⟨hexited, horigin⟩ := key_origin h hentry
  have hself : entry.1 = e.threadID → ∃ e' ∈ (moved t e pc' before after).executors,
      e'.pc ≠ .exited ∧ e'.threadID = entry.1 := by
    intro heq
    refine ⟨⟨e.threadID, pc'⟩, ?_, fun hpc => hexited hpc heq, heq.symm⟩
    exact List.mem_append_right _ List.mem_cons_self
  rcases horigin with ⟨old, hold, hkey⟩ | heq | ⟨e', he', hkey⟩
  · have hne : s.executors ≠ [] := by
      rw [hsplit]
      exact List.append_ne_nil_of_right_ne_nil _ (List.cons_ne_nil _ _)
    obtain ⟨e', he', hlive, htid⟩ := hinv.live hne old hold
    rcases mem_moved_of_mem hsplit he' with rfl | hmem
    · exact hself (hkey.symm.trans htid.symm)
    · exact ⟨e', hmem, hlive, htid.trans hkey⟩
  · exact hself heq
  · refine ⟨e', ?_, ?_, hkey⟩
    · exact List.mem_append_right _ (List.mem_cons_of_mem _ (List.mem_append_right _ he'))
    · rw [(newExecutors_pc he').1]
      exact nofun

theorem moved_last (hinv : Table cfg s) (hsplit : s.executors = before ++ e :: after)
    (hkeeps : ∀ lastId ∈ storing e.pc, s.lastExecutedSyscallID ≤ lastId)
    (h : ExecutorTransition cfg s e.threadID e.pc t pc') {r : Record}
    (hr : r ∈ t.executedLog) :
    r.uniqueId ≤ t.lastExecutedSyscallID ∨
      ∃ e' ∈ (moved t e pc' before after).executors,
        ∃ lastId, pendingStore e'.pc = some lastId ∧ r.uniqueId ≤ lastId := by
  have hself : ∀ lastId, pendingStore pc' = some lastId → r.uniqueId ≤ lastId →
      ∃ e' ∈ (moved t e pc' before after).executors,
        ∃ lastId, pendingStore e'.pc = some lastId ∧ r.uniqueId ≤ lastId :=
    fun lastId hpc hle => ⟨⟨e.threadID, pc'⟩, List.mem_append_right _ List.mem_cons_self,
      lastId, hpc, hle⟩
  -- What the acting executor was about to store is the only thing a step can lose.
  have hold : r ∈ s.executedLog → s.lastExecutedSyscallID ≤ t.lastExecutedSyscallID →
      (∀ lastId, pendingStore e.pc = some lastId → lastId ≤ t.lastExecutedSyscallID ∨
        ∃ lastId', pendingStore pc' = some lastId' ∧ lastId ≤ lastId') →
      r.uniqueId ≤ t.lastExecutedSyscallID ∨
        ∃ e' ∈ (moved t e pc' before after).executors,
          ∃ lastId, pendingStore e'.pc = some lastId ∧ r.uniqueId ≤ lastId := by
    intro hlog hle hstore
    rcases hinv.last r hlog with hlast | ⟨e', he', lastId, hpc, hlast⟩
    · exact .inl (hlast.trans hle)
    · rcases mem_moved_of_mem hsplit he' with rfl | hmem
      · rcases hstore lastId hpc with hstored | ⟨lastId', hpc', hle'⟩
        · exact .inl (hlast.trans hstored)
        · exact .inr (hself lastId' hpc' (hlast.trans hle'))
      · exact .inr ⟨e', hmem, lastId, hpc, hlast⟩
  obtain ⟨tid, pc⟩ := e
  cases h with
  | execute c =>
      have hlast : (s.execute c).lastExecutedSyscallID = s.lastExecutedSyscallID := by
        unfold State.execute
        cases c.record.child <;> rfl
      rw [execute_log, List.mem_append, List.mem_singleton] at hr
      rcases hr with hr | rfl
      · exact hold hr hlast.ge nofun
      · exact .inr (hself _ rfl le_rfl)
  | readLast c =>
      refine hold hr le_rfl fun lastId hpc => .inr ⟨_, rfl, ?_⟩
      rw [pendingStore, Option.some_inj] at hpc
      rw [← hpc]
      exact le_max_right _ _
  | storeLast lastId =>
      refine hold hr (hkeeps lastId rfl) fun lastId' hpc => .inl ?_
      rw [pendingStore, Option.some_inj] at hpc
      exact hpc.ge
  | _ => exact hold hr le_rfl nofun

end Step

theorem transition_table (hreader : ReaderInv cfg s) (hinv : Table cfg s)
    (hkeeps : KeepsLast s a) (h : Transition cfg s a s') : Table cfg s' := by
  cases h with
  | reader pick h => exact readerTransition_table hreader hinv h
  | @executor t pc' index pick e before after he hsplit h =>
      refine ⟨fun hr => ?_, fun hnil => ?_, keys_of_executorTransition (t := t) h hinv.keys, ?_, ?_⟩
      · have hpc := hreader.pc
        have hnone : s.executors = [] := by
          rw [h.frame.2.2.1.symm.trans hr] at hpc
          exact hpc.1
        rw [hsplit] at hnone
        exact absurd hnone (List.append_ne_nil_of_right_ne_nil _ (List.cons_ne_nil _ _))
      · exact absurd hnil (List.append_ne_nil_of_right_ne_nil _ (List.cons_ne_nil _ _))
      · exact fun _ _ => moved_live hinv hsplit h
      · exact fun _ => moved_last hinv hsplit (hkeeps e he) h

theorem loadSyscallModules_table (cfg : Config) : Table cfg (loadSyscallModules cfg) :=
  ⟨fun _ => ⟨rfl, rfl⟩, fun _ => .inl ⟨rfl, rfl⟩, List.nodup_nil, fun h => absurd rfl h,
    fun _ hr => (List.not_mem_nil hr).elim⟩

theorem reachVia_table {ok : State → Action → Prop} (hok : ∀ s a, ok s a → KeepsLast s a)
    (h : (replay cfg).ReachVia ok s) : Table cfg s :=
  h.invariant _ (loadSyscallModules_table cfg) fun s a _ hreach hinv hstep hs =>
    transition_table (reachable_readerInv hreach) hinv (hok s a hstep) (transition_of_step hs)

theorem not_first_of_many {b : Batch} {active : Option Nat} (h : BatchOk cfg s b active)
    (hmany : 1 < s.nThreads) : (!b.isFirstTime) = true := by
  cases hfirst : b.isFirstTime with
  | false => rfl
  | true => exact absurd (h.first hfirst).nThreads hmany.ne'

theorem firstBatchOver_of_many (hreader : ReaderInv cfg s) (hmany : 1 < s.nThreads) :
    firstBatchOver s.reader = true := by
  have hpc := hreader.pc
  cases hr : s.reader <;> rw [hr] at hpc
  case prepare => exact absurd hpc.2.1 hmany.ne'
  case modules b => exact not_first_of_many hpc hmany
  case carry i b => exact not_first_of_many hpc.1 hmany
  case rows i b count => exact not_first_of_many hpc.1 hmany
  case counting c i b count => exact not_first_of_many hpc.1 hmany
  case finishing i b => exact not_first_of_many hpc.1 hmany
  case check | spin | done => rfl

/-- What is waited for is represented: a record that can be executed before
others has an entered record of no larger id. -/
theorem exists_entered_le (hperm : (accounted cfg s).Perm cfg.records)
    (hexec : ExecutorsInv s) (horder : InOrder cfg s) (hlife : Lifecycle cfg s)
    (hover : firstBatchOver s.reader = true) (hentered : Entered s) {p : Record}
    (hnum : Numbered cfg p) (hp : Pending cfg s p) :
    ∃ c ∈ copiesInHand s, c.record.uniqueId ≤ p.uniqueId := by
  have hstarted : ∀ p, Pending cfg s p →
      (∃ e ∈ s.executors, e.threadID = p.executingPid) →
        ∃ c ∈ copiesInHand s, c.record.uniqueId ≤ p.uniqueId := by
    rintro p hp ⟨e, he, htid⟩
    obtain ⟨c, hhand, _⟩ := hentered e he fun hpc =>
      hlife.ended e he (.inr hpc) p hp htid.symm
    refine ⟨c, mem_copiesInHand.mpr ⟨e, he, hhand⟩, ?_⟩
    refine hand_le_pending hexec horder he hhand hp ?_
    exact (hexec.pid e he c (copyOf_of_inHand hhand)).trans htid
  induction hnum with
  | @main p hpid =>
      have hmain := hlife.main hover
      rw [← hpid] at hmain
      exact hstarted p hp hmain
  | @child k p hk _ hchild hlt ih =>
      rcases (mem_records hperm).mp hk with hlog | hpending
      · exact hstarted p hp (hlife.started k hlog _ hchild)
      · obtain ⟨c, hc, hle⟩ := ih hpending
        exact ⟨c, hc, hle.trans hlt.le⟩

theorem compatible_of_le {check compare : Copy}
    (h : check.record.timeCalled ≤ compare.record.timeReturned) :
    State.compatible check (some compare) = true := by
  simp only [State.compatible]
  split
  · rfl
  · split
    · rfl
    · simpa using h

theorem inHand_of_pendingStore {pc : ExecutorPc} {lastId : Nat}
    (h : pendingStore pc = some lastId) : pc ≠ .exited ∧ inHand pc = none := by
  cases pc with
  | executed c => exact ⟨nofun, rfl⟩
  | storing lastId => exact ⟨nofun, rfl⟩
  | _ => exact absurd h (Option.some_ne_none _).symm

/-- Everything that can be executed before the least record in hand is stored in
`lastExecutedSyscallID`. -/
theorem checkSequential_of_window (htable : Table cfg s)
    (hperm : (accounted cfg s).Perm cfg.records) (hexec : ExecutorsInv s)
    (horder : InOrder cfg s) (hlife : Lifecycle cfg s)
    (hover : firstBatchOver s.reader = true) (hwindow : InWindow cfg) (hentered : Entered s)
    {c q : Copy} (hc : c ∈ copiesInHand s) (hq : q ∈ copiesInHand s)
    (hleast : ∀ c' ∈ copiesInHand s, q.record.uniqueId ≤ c'.record.uniqueId)
    (hfirst : c.record = q.record ∨ c.record.timeReturned < q.record.timeCalled) :
    s.checkSequential c = true := by
  refine decide_eq_true ?_
  have hrecord : ∀ c' ∈ copiesInHand s, c'.record ∈ cfg.records := fun c' hc' =>
    (mem_records hperm).mpr (.inr (.inl ⟨c', hc', rfl⟩))
  rcases hwindow _ (hrecord c hc) _ (hrecord q hq) hfirst with hsmall | ⟨p, hp, hnum, hlt, hle⟩
  · omega
  · rcases (mem_records hperm).mp hp with hlog | hpending
    · rcases htable.last p hlog with hlast | ⟨e, he, lastId, hstore, _⟩
      · omega
      · obtain ⟨hlive, hnone⟩ := inHand_of_pendingStore hstore
        obtain ⟨c', hhand, _⟩ := hentered e he hlive
        exact absurd (hhand.symm.trans hnone) (Option.some_ne_none c')
    · obtain ⟨c', hc', hle'⟩ :=
        exists_entered_le hperm hexec horder hlife hover hentered hnum hpending
      have hmin := hleast c' hc'
      omega

/-- The interval test holds back no record called before every other returns. -/
theorem validation_of_early (htable : Table cfg s) (hentered : Entered s) {c : Copy}
    (hc : c ∈ copiesInHand s) (hsequential : s.checkSequential c = true)
    (hearly : ∀ c' ∈ copiesInHand s, c.record.timeCalled ≤ c'.record.timeReturned) :
    s.checkExecutionValidation c = true := by
  rw [State.checkExecutionValidation, Bool.and_eq_true, List.all_eq_true]
  refine ⟨hsequential, fun entry hentry => ?_⟩
  have hne : s.executors ≠ [] := by
    obtain ⟨e, he, _⟩ := mem_copiesInHand.mp hc
    exact List.ne_nil_of_mem he
  obtain ⟨e, he, hlive, htid⟩ := htable.live hne entry hentry
  obtain ⟨c', hhand, hown⟩ := hentered e he hlive
  have heq : entry = (e.threadID, some c') :=
    List.inj_on_of_nodup_map htable.keys hentry hown htid.symm
  rw [heq]
  exact compatible_of_le (hearly c' (mem_copiesInHand.mpr ⟨e, he, hhand⟩))

theorem exists_least (f : Record → Nat) (hne : ∃ c, c ∈ copiesInHand s) :
    ∃ c ∈ copiesInHand s, ∀ c' ∈ copiesInHand s, f c.record ≤ f c'.record := by
  obtain ⟨c, hc, hmin⟩ := WellFounded.has_min
    (InvImage.wf (fun c : Copy => f c.record) Nat.lt_wfRel.wf) {c | c ∈ copiesInHand s} hne
  exact ⟨c, hc, fun c' hc' => not_lt.mp (hmin c' hc')⟩

end State

/-- If all live threads wait, the record of least id or the one that returns
first passes the check. -/
theorem steady_replay_admits {cfg : Config}
    (hinterval : ∀ r ∈ cfg.records, r.timeCalled ≤ r.timeReturned)
    (hwindow : InWindow cfg) {s : State} (hreach : (replay cfg).ReachVia (Steady cfg) s)
    (hmany : 1 < s.nThreads) (hlive : ∃ e ∈ s.executors, e.pc ≠ .exited)
    (hentered : Entered s) :
    ∃ e ∈ s.executors, ∃ c, inHand e.pc = some c ∧ s.checkExecutionValidation c = true := by
  have htimely : ∀ s a, Steady cfg s a → Timely cfg s a := fun _ _ h => h.1
  have hover := firstBatchOver_of_many (reachable_readerInv hreach) hmany
  have htable : Table cfg s := reachVia_table (fun _ _ h => h.2) hreach
  have hperm := reachable_accounted hreach
  have hexec := reachable_executorsInv hreach fun s a h => (htimely s a h).2
  have horder := reachable_inOrder hreach htimely
  have hlife := reachable_lifecycle hreach htimely
  have hne : ∃ c, c ∈ copiesInHand s := by
    obtain ⟨e, he, hpc⟩ := hlive
    obtain ⟨c, hhand, _⟩ := hentered e he hpc
    exact ⟨c, mem_copiesInHand.mpr ⟨e, he, hhand⟩⟩
  obtain ⟨q, hq, hleast⟩ := exists_least Record.uniqueId hne
  obtain ⟨c, hc, hfirst⟩ := exists_least Record.timeReturned hne
  have hsequential : ∀ c' ∈ copiesInHand s,
      c'.record = q.record ∨ c'.record.timeReturned < q.record.timeCalled →
        s.checkSequential c' = true := fun c' hc' =>
    checkSequential_of_window htable hperm hexec horder hlife hover hwindow hentered hc' hq hleast
  rcases le_or_gt q.record.timeCalled c.record.timeReturned with hearly | hlate
  · obtain ⟨e, he, hhand⟩ := mem_copiesInHand.mp hq
    exact ⟨e, he, q, hhand, validation_of_early htable hentered hq (hsequential q hq (.inl rfl))
      fun c' hc' => hearly.trans (hfirst c' hc')⟩
  · obtain ⟨e, he, hhand⟩ := mem_copiesInHand.mp hc
    have hcalled := hinterval _ ((mem_records hperm).mpr (.inr (.inl ⟨c, hc, rfl⟩)))
    exact ⟨e, he, c, hhand, validation_of_early htable hentered hc
      (hsequential c hc (.inr hlate)) fun c' hc' => hcalled.trans (hfirst c' hc')⟩

/-- Both executors have entered their records. -/
def bothEntered (c c' : Copy) (s : State) : Prop :=
  s.nThreads = 2 ∧ s.lastExecutedSyscallID = 1 ∧
    s.executors = [⟨1, .running c⟩, ⟨2, .running c'⟩] ∧
    s.currentExecutions = [(2, some c'), (1, some c)]

instance (c c' : Copy) (s : State) : Decidable (bothEntered c c' s) :=
  inferInstanceAs (Decidable (_ ∧ _ ∧ _ ∧ _))

theorem entered_of_bothEntered {c c' : Copy} {s : State} (h : bothEntered c c' s) :
    Entered s := by
  obtain ⟨_, _, hexec, hcur⟩ := h
  intro e he _
  rw [hexec, List.mem_cons, List.mem_singleton] at he
  rw [hcur]
  rcases he with rfl | rfl
  · exact ⟨c, rfl, List.mem_cons_of_mem _ List.mem_cons_self⟩
  · exact ⟨c', rfl, List.mem_cons_self⟩

theorem live_of_bothEntered {c c' : Copy} {s : State} (h : bothEntered c c' s) :
    ∃ e ∈ s.executors, e.pc ≠ .exited := by
  rw [h.2.2.1]
  exact ⟨⟨1, .running c⟩, List.mem_cons_self, nofun⟩

theorem nearTrace_admits : ∃ s : State, 1 < s.nThreads ∧ Entered s ∧
    ∃ e ∈ s.executors, ∃ c, inHand e.pc = some c ∧ s.checkExecutionValidation c = true := by
  obtain ⟨s, hreach, hs⟩ := (replay nearTrace).exists_reachVia
    (fun s a => decide (Steady nearTrace s a)) (fun _ _ h => of_decide_eq_true h)
    (List.replicate 14 (.reader 0) ++ List.replicate 12 (.executor 0 0) ++
      List.replicate 4 (.executor 1 0))
    (fun s => decide (bothEntered ⟨⟨.read, 3, 1, 6, 7, 0⟩, 2, 2⟩
      ⟨⟨.read, 2, 2, 4, 5, 0⟩, 2, 2⟩ s)) (by decide)
  have hboth := of_decide_eq_true hs
  have hentered := entered_of_bothEntered hboth
  have hmany : 1 < s.nThreads := by
    rw [hboth.1]
    decide
  have hwindow : InWindow nearTrace := by
    have hsmall : ∀ r ∈ nearTrace.records, r.uniqueId ≤ 150 := by decide
    exact fun r hr _ _ _ => .inl (hsmall r hr)
  exact ⟨s, hmany, hentered, steady_replay_admits (by decide) hwindow hreach hmany
    (live_of_bothEntered hboth) hentered⟩

/-- Two threads with one record each after the `clone`, with ids far from it. -/
def gapTrace : Config where
  modules :=
    [[⟨.umask, 0, 1, 0, 1, 0⟩], [⟨.clone, 1, 1, 2, 3, 2⟩],
      [⟨.read, 500, 1, 4, 5, 0⟩, ⟨.read, 600, 2, 6, 7, 0⟩]]
  order := [0, 1, 2]
  uninitialised i := i
  modules_nonempty := by simp
  order_perm := by decide

/-- Neither of the two is ever executed. -/
theorem gapTrace_stuck :
    (∀ r ∈ gapTrace.records, r.timeCalled ≤ r.timeReturned) ∧
      (gapTrace.records.map Record.uniqueId).Nodup ∧
      ∃ s : State, (replay gapTrace).Reachable s ∧ 1 < s.nThreads ∧
        (∃ e ∈ s.executors, e.pc ≠ .exited) ∧ Entered s ∧
        ∀ e ∈ s.executors, ∀ c, inHand e.pc = some c →
          s.checkExecutionValidation c = false := by
  refine ⟨by decide, by decide, ?_⟩
  obtain ⟨s, hreach, hs⟩ := (replay gapTrace).exists_reachable
    (List.replicate 14 (.reader 0) ++ List.replicate 12 (.executor 0 0) ++
      List.replicate 4 (.executor 1 0))
    (fun s => decide (bothEntered ⟨⟨.read, 500, 1, 4, 5, 0⟩, 2, 2⟩
      ⟨⟨.read, 600, 2, 6, 7, 0⟩, 2, 2⟩ s)) (by decide)
  have hboth := of_decide_eq_true hs
  have hentered := entered_of_bothEntered hboth
  have hlive := live_of_bothEntered hboth
  obtain ⟨hthreads, hlast, hexec, _⟩ := hboth
  refine ⟨s, hreach, ?_, hlive, hentered, ?_⟩
  · rw [hthreads]
    decide
  · intro e he c hc
    rw [hexec, List.mem_cons, List.mem_singleton] at he
    rw [State.checkExecutionValidation, State.checkSequential, hlast]
    rcases he with rfl | rfl
    · rw [← Option.some_inj.mp hc]
      rfl
    · rw [← Option.some_inj.mp hc]
      rfl

end SyscallReplayer.Admission
