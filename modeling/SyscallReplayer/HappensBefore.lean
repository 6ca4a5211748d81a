import SyscallReplayer.LoadedReplay
import SyscallReplayer.RunningTable

/-!
# What returned first is executed first

The entry of a thread in `currentExecutions` stands for all its unexecuted
records, because they follow it. It stands for the records of a thread that has
not been started only as far as they follow the `clone` or `vfork` record that
starts it, and a `vfork` record returns after its child has run.
-/

namespace SyscallReplayer.HappensBefore

open SyscallReplayer.TransitionSystem
open SyscallReplayer.Scheduler
open SyscallReplayer.SchedulerSteps
open SyscallReplayer.ReaderProgress
open SyscallReplayer.RecordConservation
open SyscallReplayer.ThreadOrder
open SyscallReplayer.LoadedReplay
open SyscallReplayer.RunningTable

/-- A record of the main thread, or one called no earlier than the record that
started its thread. -/
inductive Rooted (cfg : Config) : Record → Prop
  | main {r : Record} (hpid : r.executingPid = cfg.mainThreadID) : Rooted cfg r
  | child {k r : Record} (hk : k ∈ cfg.records) (hroot : Rooted cfg k)
      (hchild : k.child = some r.executingPid) (hcalled : k.timeCalled ≤ r.timeCalled) :
      Rooted cfg r

/-- A record of a thread that `k` starts, or of a thread started there. -/
inductive DescendsFrom (cfg : Config) (k : Record) : Record → Prop
  | child {r : Record} (hchild : k.child = some r.executingPid)
      (hcalled : k.timeCalled ≤ r.timeCalled) : DescendsFrom cfg k r
  | later {k' r : Record} (hk' : k' ∈ cfg.records) (hdesc : DescendsFrom cfg k k')
      (hchild : k'.child = some r.executingPid) (hcalled : k'.timeCalled ≤ r.timeCalled) :
      DescendsFrom cfg k r

/-- One of two records of a thread ends before the other, and has the smaller
id. -/
def Follows (r r' : Record) : Prop :=
  r.uniqueId < r'.uniqueId ∧ r.timeReturned ≤ r'.timeCalled

structure WellTimed (cfg : Config) : Prop where
  interval : ∀ r ∈ cfg.records, r.timeCalled ≤ r.timeReturned
  program : cfg.records.Pairwise fun r r' =>
    r.executingPid = r'.executingPid → Follows r r' ∨ Follows r' r
  rooted : ∀ r ∈ cfg.records, Rooted cfg r

/-- Every record of another thread that returned before a record was called is
executed before it. -/
def RespectsReturns (cfg : Config) (log : List Record) : Prop :=
  ∀ before b after, log = before ++ b :: after → ∀ a ∈ cfg.records,
    a.executingPid ≠ b.executingPid → a.timeReturned < b.timeCalled → a ∈ before

/-- When `b` passes the check of an executor, no running record that is not
executed yet starts a thread with an unexecuted record that returned before `b`
was called. -/
def AdmissionClear (cfg : Config) (s : State) (a : Action) : Prop :=
  ∀ e ∈ actor s a, ∀ b, e.pc = .validating b → s.checkExecutionValidation b = true →
    ∀ entry ∈ s.currentExecutions, ∀ k, entry.2 = some k → k.record ∉ s.executedLog →
      ∀ r ∈ cfg.records, r ∉ s.executedLog → DescendsFrom cfg k.record r →
        ¬r.timeReturned < b.record.timeCalled

def Clear (cfg : Config) (s : State) (a : Action) : Prop :=
  StartsFresh s a ∧ AdmissionClear cfg s a

theorem WellTimed.follows {cfg : Config} (h : WellTimed cfg) {r r' : Record}
    (hr : r ∈ cfg.records) (hr' : r' ∈ cfg.records)
    (hpid : r.executingPid = r'.executingPid) (hle : r.uniqueId ≤ r'.uniqueId) :
    r = r' ∨ r.timeReturned ≤ r'.timeCalled := by
  by_contra hnot
  rw [not_or] at hnot
  have hsymm : Std.Symm fun r r' : Record =>
      r.executingPid = r'.executingPid → Follows r r' ∨ Follows r' r :=
    ⟨fun _ _ h hpid => (h hpid.symm).symm⟩
  rcases h.program.forall hr hr' hnot.1 hpid with hfol | hfol
  · exact hnot.2 hfol.2
  · exact absurd hfol.1 (not_lt.mpr hle)

theorem WellTimed.nodup {cfg : Config} (h : WellTimed cfg) : cfg.records.Nodup := by
  refine h.program.imp fun {r r'} hfol heq => ?_
  rcases hfol (congrArg _ heq) with hfol | hfol
  · exact absurd hfol.1 (by rw [heq]; exact lt_irrefl _)
  · exact absurd hfol.1 (by rw [heq]; exact lt_irrefl _)

section State

variable {cfg : Config} {s s' : State} {a : Action}

theorem mem_records_of_pending (hperm : (accounted cfg s).Perm cfg.records) {r : Record}
    (hr : Pending cfg s r) : r ∈ cfg.records :=
  (mem_records hperm).mpr (.inr hr)

theorem not_mem_log_of_pending (htrace : WellTimed cfg)
    (hperm : (accounted cfg s).Perm cfg.records) {r : Record} (hr : Pending cfg s r) :
    r ∉ s.executedLog := by
  intro hlog
  have hnodup := hperm.nodup_iff.mpr htrace.nodup
  rw [accounted, List.append_assoc] at hnodup
  refine (List.nodup_append.mp hnodup).2.2 r hlog r ?_ rfl
  simpa only [copies, Pending, waiting, List.map_append, List.mem_append, List.mem_map,
    or_assoc] using hr

/-- The executor has written its record to `currentExecutions` and not executed
it yet. -/
def registeredCopy : ExecutorPc → Option Copy
  | .running c | .validating c | .admitted c => some c
  | _ => none

structure Frontier (cfg : Config) (s : State) : Prop where
  /-- With one counted thread only the main thread has been started. -/
  alone : s.nThreads ≤ 1 → (∀ e ∈ s.executors, e.threadID = cfg.mainThreadID) ∧
    ∀ r ∈ s.executedLog, r.child = none
  entry : ∀ tid c, (tid, some c) ∈ s.currentExecutions →
    c.record ∈ cfg.records ∧ c.record.executingPid = tid ∧
      ∀ r, Pending cfg s r → r.executingPid = tid → c.record.uniqueId ≤ r.uniqueId
  registered : ∀ e ∈ s.executors, ∀ c, registeredCopy e.pc = some c →
    (e.threadID, some c) ∈ s.currentExecutions
  live : 1 < s.nThreads → ∀ e ∈ s.executors, e.pc ≠ .exited →
    (∃ entry ∈ s.currentExecutions, entry.1 = e.threadID) ∨
      ∀ r, Pending cfg s r → r.executingPid ≠ e.threadID

/-- What a record admitted with `b` unexecuted can still be overtaken by. -/
def Overtaken (cfg : Config) (s : State) (b : Record) : Prop :=
  ∃ r, Pending cfg s r ∧ r.executingPid ≠ b.executingPid ∧ r.timeReturned < b.timeCalled

theorem timeCalled_le_of_compatible {check compare : Copy}
    (hinterval : check.record.timeCalled ≤ check.record.timeReturned)
    (hcompare : compare.record.timeCalled ≤ compare.record.timeReturned)
    (h : State.compatible check (some compare) = true) :
    check.record.timeCalled ≤ compare.record.timeReturned := by
  simp only [State.compatible] at h
  split at h
  · rename_i heq
    rw [heq]
    exact hcompare
  · split at h
    · omega
    · simpa using h

theorem pending_of_started (htrace : WellTimed cfg)
    (hperm : (accounted cfg s).Perm cfg.records) (hlife : Lifecycle cfg s)
    (hfront : Frontier cfg s) (hmany : 1 < s.nThreads) {b : Copy}
    (hb : b.record ∈ cfg.records) (hvalid : s.checkExecutionValidation b = true)
    {r : Record} (hr : Pending cfg s r)
    (hstarted : ∃ e ∈ s.executors, e.threadID = r.executingPid) :
    b.record.timeCalled ≤ r.timeCalled ∨
      ∃ entry ∈ s.currentExecutions, ∃ k, entry.2 = some k ∧ k.record = r ∧
        b.record.timeCalled ≤ r.timeReturned := by
  obtain ⟨e, he, htid⟩ := hstarted
  have hlive : e.pc ≠ .exited := fun hpc => hlife.ended e he (.inr hpc) r hr htid.symm
  rcases hfront.live hmany e he hlive with ⟨⟨tid, running⟩, hentry, hkey⟩ | hnone
  · simp only [State.checkExecutionValidation, Bool.and_eq_true, List.all_eq_true] at hvalid
    have hcompatible := hvalid.2 _ hentry
    cases running with
    | none => exact absurd hcompatible Bool.false_ne_true
    | some k =>
        obtain ⟨hk, hpid, hleast⟩ := hfront.entry tid k hentry
        have hsame : r.executingPid = tid := htid.symm.trans hkey.symm
        have hle := timeCalled_le_of_compatible (htrace.interval _ hb)
          (htrace.interval _ hk) hcompatible
        have hmem := mem_records_of_pending hperm hr
        rcases htrace.follows hk hmem (hpid.trans hsame.symm) (hleast r hr hsame) with
          heq | hret
        · exact .inr ⟨_, hentry, k, rfl, heq, heq ▸ hle⟩
        · exact .inl (hle.trans hret)
  · exact absurd htid.symm (hnone r hr)

/-- When `b` passes the check, an unexecuted record is called after `b`, or is
running itself, or waits for a running record to start its thread. -/
theorem pending_of_validation (htrace : WellTimed cfg)
    (hperm : (accounted cfg s).Perm cfg.records) (hlife : Lifecycle cfg s)
    (hdone : s.reader = .done) (hfront : Frontier cfg s) (hmany : 1 < s.nThreads)
    {b : Copy} (hb : b.record ∈ cfg.records)
    (hvalid : s.checkExecutionValidation b = true) {r : Record} (hroot : Rooted cfg r)
    (hr : Pending cfg s r) :
    b.record.timeCalled ≤ r.timeCalled ∨
      (∃ entry ∈ s.currentExecutions, ∃ k, entry.2 = some k ∧ k.record = r ∧
        b.record.timeCalled ≤ r.timeReturned) ∨
      ∃ entry ∈ s.currentExecutions, ∃ k, entry.2 = some k ∧ Pending cfg s k.record ∧
        DescendsFrom cfg k.record r := by
  have hof : ∀ r, Pending cfg s r → (∃ e ∈ s.executors, e.threadID = r.executingPid) → _ :=
    fun _ => pending_of_started htrace hperm hlife hfront hmany hb hvalid
  induction hroot with
  | main hpid =>
      have hmain := hlife.main (by rw [hdone]; rfl)
      rw [← hpid] at hmain
      exact (hof _ hr hmain).imp_right .inl
  | @child k r hk _ hchild hcalled ih =>
      rcases (mem_records hperm).mp hk with hlog | hpending
      · exact (hof r hr (hlife.started k hlog _ hchild)).imp_right .inl
      · rcases ih hpending with hle | ⟨entry, hentry, k', hk', rfl, _⟩ |
          ⟨entry, hentry, k', hk', hpending', hdesc⟩
        · exact .inl (hle.trans hcalled)
        · exact .inr (.inr ⟨entry, hentry, k', hk', hpending, .child hchild hcalled⟩)
        · exact .inr (.inr ⟨entry, hentry, k', hk', hpending',
            .later hk hdesc hchild hcalled⟩)

theorem not_overtaken_of_validation (htrace : WellTimed cfg)
    (hperm : (accounted cfg s).Perm cfg.records) (hlife : Lifecycle cfg s)
    (hdone : s.reader = .done) (hfront : Frontier cfg s) (hmany : 1 < s.nThreads)
    {e : Executor} (he : actor s a = some e) {b : Copy} (hpc : e.pc = .validating b)
    (hb : b.record ∈ cfg.records) (hvalid : s.checkExecutionValidation b = true)
    (hclear : AdmissionClear cfg s a) : ¬Overtaken cfg s b.record := by
  rintro ⟨r, hr, _, hret⟩
  have hmem := mem_records_of_pending hperm hr
  have hinterval := htrace.interval r hmem
  rcases pending_of_validation htrace hperm hlife hdone hfront hmany hb hvalid
      (htrace.rooted r hmem) hr with
    hle | ⟨_, _, _, _, _, hle⟩ | ⟨entry, hentry, k, hk, hpending, hdesc⟩
  · omega
  · omega
  · exact hclear e he b hpc hvalid entry hentry k hk
      (not_mem_log_of_pending htrace hperm hpending) r hmem
      (not_mem_log_of_pending htrace hperm hr) hdesc hret

/-- With one counted thread everything unexecuted follows the record in hand. -/
theorem not_overtaken_of_oneThread (htrace : WellTimed cfg)
    (hperm : (accounted cfg s).Perm cfg.records) (hexec : ExecutorsInv s)
    (horder : InOrder cfg s) (hfront : Frontier cfg s) (hone : s.nThreads ≤ 1)
    {e : Executor} (he : e ∈ s.executors) {b : Copy} (hhand : inHand e.pc = some b) :
    ¬Overtaken cfg s b.record := by
  obtain ⟨halone, hnone⟩ := hfront.alone hone
  have hpid : b.record.executingPid = cfg.mainThreadID :=
    (hexec.pid e he b (copyOf_of_inHand hhand)).trans (halone e he)
  have hcopy : b ∈ copiesInHand s := mem_copiesInHand.mpr ⟨e, he, hhand⟩
  have hb : b.record ∈ cfg.records :=
    mem_records_of_pending hperm (.inl ⟨b, hcopy, rfl⟩)
  have hcalled := htrace.interval _ hb
  have hfollows : ∀ r, Rooted cfg r → Pending cfg s r →
      b.record.timeCalled ≤ r.timeCalled := by
    intro r hroot hr
    induction hroot with
    | @main r hmain =>
        have hsame : b.record.executingPid = r.executingPid := hpid.trans hmain.symm
        have hle := hand_le_pending hexec horder he hhand hr hsame
        rcases htrace.follows hb (mem_records_of_pending hperm hr) hsame hle with
          heq | hret
        · rw [heq]
        · exact hcalled.trans hret
    | @child k r hk _ hchild hle ih =>
        rcases (mem_records hperm).mp hk with hlog | hpending
        · rw [hnone k hlog] at hchild
          exact absurd hchild (Option.some_ne_none _).symm
        · exact (ih hpending).trans hle
  rintro ⟨r, hr, _, hret⟩
  have hmem := mem_records_of_pending hperm hr
  have hinterval := htrace.interval r hmem
  have hle := hfollows r (htrace.rooted r hmem) hr
  omega

theorem registeredCopy_of_executorTransition {t : State} {tid : Int} {pc pc' : ExecutorPc}
    (h : ExecutorTransition cfg s tid pc t pc') {c : Copy} (hc : registeredCopy pc' = some c) :
    (registeredCopy pc = some c ∧ t = s) ∨
      pc = .guarded c ∧ t = s.setRunning tid (some c) := by
  cases h with
  | register c' =>
      rw [registeredCopy, Option.some_inj] at hc
      rw [hc]
      exact .inr ⟨rfl, rfl⟩
  | manyThreads c' => exact .inl ⟨hc, rfl⟩
  | oneThread c' => exact .inl ⟨hc, rfl⟩
  | validate c' => exact .inl ⟨hc, rfl⟩
  | _ => exact absurd hc (Option.some_ne_none c).symm

theorem live_of_registeredCopy {pc : ExecutorPc} {c : Copy} (h : registeredCopy pc = some c) :
    pc ≠ .exited := by
  rintro rfl
  exact absurd h (Option.some_ne_none c).symm

section Step

variable {t : State} {pc' : ExecutorPc} {e : Executor} {before after : List Executor}

theorem moved_alone (hfront : Frontier cfg s) (hpos : 1 ≤ s.nThreads)
    (hsplit : s.executors = before ++ e :: after)
    (h : ExecutorTransition cfg s e.threadID e.pc t pc') (hone : t.nThreads ≤ 1) :
    (∀ e' ∈ (moved t e pc' before after).executors, e'.threadID = cfg.mainThreadID) ∧
      ∀ r ∈ t.executedLog, r.child = none := by
  have hmem : e ∈ s.executors := by
    rw [hsplit]
    exact List.mem_append_right _ List.mem_cons_self
  have hnew : newExecutors e.pc = [] ∧ ∀ r ∈ t.executedLog, r ∈ s.executedLog ∨
      r.child = none := by
    rcases executedLog_of_executorTransition h with ⟨hlog, _, hnew⟩ | ⟨c, hpc, _, hlog, hcount⟩
    · exact ⟨hnew, fun r hr => .inl (hlog ▸ hr)⟩
    · have hnone : spawned c.record = [] :=
        List.eq_nil_of_length_eq_zero (by omega)
      rw [hpc]
      refine ⟨hnone, fun r hr => ?_⟩
      rw [hlog, List.mem_append, List.mem_singleton] at hr
      refine hr.imp_right fun hr => ?_
      rw [spawned, ← hr] at hnone
      cases hchild : r.child with
      | none => rfl
      | some pid =>
          rw [hchild] at hnone
          exact absurd hnone (List.cons_ne_nil _ _)
  have hold : s.nThreads ≤ 1 := by
    rcases executedLog_of_executorTransition h with ⟨_, hcount, _⟩ | ⟨c, _, _, _, hcount⟩
    · exact hcount ▸ hone
    · omega
  obtain ⟨hmain, hnone⟩ := hfront.alone hold
  refine ⟨fun e' he' => ?_, fun r hr => (hnew.2 r hr).elim (hnone r) id⟩
  rcases mem_replaced he' with he' | rfl | he'
  · exact hmain e' (mem_of_split hsplit he')
  · exact hmain e hmem
  · rw [hnew.1] at he'
    exact (List.not_mem_nil he').elim

theorem moved_entry (hperm : (accounted cfg s).Perm cfg.records) (hexec : ExecutorsInv s)
    (horder : InOrder cfg s) (hfront : Frontier cfg s) (he : e ∈ s.executors)
    (hpending : ∀ r, Pending cfg (moved t e pc' before after) r → Pending cfg s r)
    (h : ExecutorTransition cfg s e.threadID e.pc t pc') {tid : Int} {c : Copy}
    (hentry : (tid, some c) ∈ t.currentExecutions) :
    c.record ∈ cfg.records ∧ c.record.executingPid = tid ∧
      ∀ r, Pending cfg (moved t e pc' before after) r → r.executingPid = tid →
        c.record.uniqueId ≤ r.uniqueId := by
  rcases entry_of_executorTransition h hentry with hold | ⟨hpc, rfl⟩
  · obtain ⟨hmem, hpid, hleast⟩ := hfront.entry tid c hold
    exact ⟨hmem, hpid, fun r hr => hleast r (hpending r hr)⟩
  · have hhand : inHand e.pc = some c := by
      rw [hpc]
      rfl
    have hcopy : c ∈ copiesInHand s := mem_copiesInHand.mpr ⟨e, he, hhand⟩
    have hpid := hexec.pid e he c (copyOf_of_inHand hhand)
    refine ⟨mem_records_of_pending hperm (.inl ⟨c, hcopy, rfl⟩), hpid, fun r hr htid => ?_⟩
    exact hand_le_pending hexec horder he hhand (hpending r hr) (hpid.trans htid.symm)

theorem moved_registered (hexec : ExecutorsInv s) (hfront : Frontier cfg s)
    (hfresh : ∀ tid, starting e.pc = some tid → ∀ e' ∈ s.executors, e'.threadID = tid →
      e'.pc = .exited)
    (hsplit : s.executors = before ++ e :: after)
    (h : ExecutorTransition cfg s e.threadID e.pc t pc') {e' : Executor}
    (he' : e' ∈ (moved t e pc' before after).executors) {c : Copy}
    (hc : registeredCopy e'.pc = some c) :
    (e'.threadID, some c) ∈ t.currentExecutions := by
  rcases mem_replaced he' with he' | rfl | he'
  · have hmem := mem_of_split hsplit he'
    have hlive := live_of_registeredCopy hc
    refine entry_kept h (hfront.registered e' hmem c hc) ?_ ?_
    · exact threadID_ne_of_split hexec hsplit he' (executorTransition_pc_ne_exited h) hlive
    · exact fun hstart => hlive (hfresh _ hstart e' hmem rfl)
  · rcases registeredCopy_of_executorTransition h hc with ⟨hold, rfl⟩ | ⟨_, rfl⟩
    · refine hfront.registered e ?_ c hold
      rw [hsplit]
      exact List.mem_append_right _ List.mem_cons_self
    · exact List.mem_cons_self
  · rw [(newExecutors_pc he').1] at hc
    exact absurd hc (Option.some_ne_none c).symm

theorem moved_live (hexec : ExecutorsInv s) (hfront : Frontier cfg s)
    (hsplit : s.executors = before ++ e :: after)
    (hpending : ∀ r, Pending cfg (moved t e pc' before after) r → Pending cfg s r)
    (h : ExecutorTransition cfg s e.threadID e.pc t pc') (hmany : 1 < t.nThreads)
    {e' : Executor} (he' : e' ∈ (moved t e pc' before after).executors)
    (hlive' : e'.pc ≠ .exited) :
    (∃ entry ∈ t.currentExecutions, entry.1 = e'.threadID) ∨
      ∀ r, Pending cfg (moved t e pc' before after) r → r.executingPid ≠ e'.threadID := by
  have hmem : e ∈ s.executors := by
    rw [hsplit]
    exact List.mem_append_right _ List.mem_cons_self
  have hpc := executorTransition_pc_ne_exited h
  -- Before the first child the main thread has a record in `currentExecutions`.
  have hkeys : ∀ e'' ∈ s.executors, e''.pc ≠ .exited →
      (∃ entry ∈ s.currentExecutions, entry.1 = e''.threadID) ∨
        ∀ r, Pending cfg s r → r.executingPid ≠ e''.threadID := by
    intro e'' he'' hlive
    by_cases hold : 1 < s.nThreads
    · exact hfront.live hold e'' he'' hlive
    · rcases executedLog_of_executorTransition h with ⟨_, hcount, _⟩ | ⟨c, hadmitted, _⟩
      · omega
      · obtain ⟨hmain, _⟩ := hfront.alone (by omega)
        have hreg := hfront.registered e hmem c (by rw [hadmitted]; rfl)
        exact .inl ⟨_, hreg, (hmain e hmem).trans (hmain e'' he'').symm⟩
  have hkept : ∀ x, (∃ entry ∈ s.currentExecutions, entry.1 = x) ∨
      (∀ r, Pending cfg s r → r.executingPid ≠ x) → ¬(pc' = .exited ∧ x = e.threadID) →
        (∃ entry ∈ t.currentExecutions, entry.1 = x) ∨
          ∀ r, Pending cfg (moved t e pc' before after) r → r.executingPid ≠ x := by
    intro x hx hleave
    rcases hx with hx | hx
    · exact .inl ((key_kept h hx).resolve_right hleave)
    · exact .inr fun r hr => hx r (hpending r hr)
  rcases mem_replaced he' with he' | rfl | he'
  · refine hkept _ (hkeys e' (mem_of_split hsplit he') hlive') ?_
    exact fun hleave => threadID_ne_of_split hexec hsplit he' hpc hlive' hleave.2
  · exact hkept _ (hkeys e hmem hpc) fun hleave => hlive' hleave.1
  · exact .inl (key_of_newExecutors h he')

end Step

theorem step_frontier (hdrained : Drained cfg s)
    (hperm : (accounted cfg s).Perm cfg.records) (hexec : ExecutorsInv s)
    (horder : InOrder cfg s) (hfront : Frontier cfg s) (hfresh : StartsFresh s a)
    (h : step cfg s a = some s') : Frontier cfg s' := by
  have htrans := transition_of_step h
  have hpending : ∀ r, Pending cfg s' r → Pending cfg s r := fun r =>
    pending_of_flow (flow_of_transition hdrained.readerInv htrans)
  obtain ⟨index, pick, rfl⟩ := executor_of_step hdrained.reader h
  cases htrans with
  | @executor t pc' index pick e before after he hsplit hstep =>
      constructor
      · exact moved_alone (t := t) hfront hdrained.nThreads hsplit hstep
      · exact fun _ _ => moved_entry hperm hexec horder hfront (mem_of_actor he) hpending hstep
      · exact fun _ he' _ => moved_registered hexec hfront (hfresh e he) hsplit hstep he'
      · exact fun hmany _ he' => moved_live hexec hfront hsplit hpending hstep hmany he'

structure Ordered (cfg : Config) (s : State) : Prop where
  frontier : Frontier cfg s
  admitted : ∀ e ∈ s.executors, ∀ b, e.pc = .admitted b → ¬Overtaken cfg s b.record
  log : RespectsReturns cfg s.executedLog

theorem RespectsReturns.append (hlog : RespectsReturns cfg s.executedLog)
    (hperm : (accounted cfg s).Perm cfg.records) {b : Record}
    (hnot : ¬Overtaken cfg s b) : RespectsReturns cfg (s.executedLog ++ [b]) := by
  intro before b' after hsplit a ha hpid hret
  rcases List.eq_nil_or_concat after with rfl | ⟨after, last, rfl⟩
  · obtain ⟨rfl, hlast⟩ := List.append_inj' hsplit rfl
    rw [List.singleton_inj] at hlast
    rw [← hlast] at hpid hret
    rcases (mem_records hperm).mp ha with hmem | hpending
    · exact hmem
    · exact absurd ⟨a, hpending, hpid, hret⟩ hnot
  · rw [List.concat_eq_append, ← List.cons_append, ← List.append_assoc] at hsplit
    exact hlog before b' after (List.append_inj' hsplit rfl).1 a ha hpid hret

theorem step_ordered (htrace : WellTimed cfg) (hdrained : Drained cfg s)
    (hperm : (accounted cfg s).Perm cfg.records) (hexec : ExecutorsInv s)
    (horder : InOrder cfg s) (hlife : Lifecycle cfg s) (hinv : Ordered cfg s)
    (hclear : Clear cfg s a) (h : step cfg s a = some s') : Ordered cfg s' := by
  have htrans := transition_of_step h
  have hpending : ∀ r, Pending cfg s' r → Pending cfg s r := fun r =>
    pending_of_flow (flow_of_transition hdrained.readerInv htrans)
  have hstable : ∀ b, ¬Overtaken cfg s b → ¬Overtaken cfg s' b :=
    fun b hnot ⟨r, hr, hover⟩ => hnot ⟨r, hpending r hr, hover⟩
  refine ⟨step_frontier hdrained hperm hexec horder hinv.frontier hclear.1 h, ?_, ?_⟩
  · obtain ⟨index, pick, rfl⟩ := executor_of_step hdrained.reader h
    cases htrans with
    | @executor t pc' index pick e before after he hsplit hstep =>
        intro e' he' b hb
        rcases mem_replaced he' with he' | rfl | he'
        · exact hstable _ (hinv.admitted e' (mem_of_split hsplit he') b hb)
        · refine hstable _ ?_
          have hmem := mem_of_actor he
          have hrecord : ∀ c, inHand e.pc = some c → c.record ∈ cfg.records := fun c hc =>
            mem_records_of_pending hperm (.inl ⟨c, mem_copiesInHand.mpr ⟨e, hmem, hc⟩, rfl⟩)
          obtain ⟨tid, pc⟩ := e
          cases hstep with
          | oneThread c hone =>
              cases hb
              exact not_overtaken_of_oneThread htrace hperm hexec horder hinv.frontier hone
                hmem rfl
          | validate c hvalid =>
              cases hb
              rcases Nat.lt_or_ge 1 s.nThreads with hmany | hone
              · exact not_overtaken_of_validation htrace hperm hlife hdrained.reader
                  hinv.frontier hmany he rfl (hrecord _ rfl) hvalid hclear.2
              · exact not_overtaken_of_oneThread htrace hperm hexec horder hinv.frontier hone
                  hmem rfl
          | _ => exact ExecutorPc.noConfusion hb
        · rw [(newExecutors_pc he').1] at hb
          exact ExecutorPc.noConfusion hb
  · obtain ⟨index, pick, rfl⟩ := executor_of_step hdrained.reader h
    cases htrans with
    | @executor t pc' index pick e before after he hsplit hstep =>
        rcases executedLog_of_executorTransition hstep with ⟨hlog, _⟩ | ⟨c, hpc, _, hlog, _⟩
        · change RespectsReturns cfg t.executedLog
          rw [hlog]
          exact hinv.log
        · change RespectsReturns cfg t.executedLog
          rw [hlog]
          exact hinv.log.append hperm (hinv.admitted e (mem_of_actor he) c hpc)

theorem loaded_frontier (h₀ : Loaded cfg s) : Frontier cfg s where
  alone _ := by
    rw [h₀.executors]
    refine ⟨fun e he => by rw [List.mem_singleton.mp he], ?_⟩
    rcases h₀.prepared with ⟨hlog, _⟩ | ⟨c, hc, hlog, _⟩
    · rw [hlog]
      exact fun _ hr => (List.not_mem_nil hr).elim
    · rw [hlog]
      intro r hr
      rw [List.mem_singleton.mp hr]
      exact hc.child
  entry tid c hentry := by
    rcases h₀.prepared with ⟨_, hentries⟩ | ⟨c', hc, hlog, hentries⟩
    · rw [hentries] at hentry
      exact (List.not_mem_nil hentry).elim
    · rw [hentries, List.mem_singleton, Prod.mk.injEq, Option.some_inj] at hentry
      obtain ⟨rfl, rfl⟩ := hentry
      have hperm := loaded_accounted h₀
      refine ⟨(mem_records hperm).mpr (.inl ?_), hc.pid, fun r hr => ?_⟩
      · rw [hlog]
        exact List.mem_singleton_self _
      · exact hc.least r (mem_records_of_pending hperm hr)
  registered e he c hc := by
    rw [h₀.executors, List.mem_singleton] at he
    rw [he] at hc
    exact absurd hc (Option.some_ne_none c).symm
  live hmany := absurd h₀.nThreads.le (not_le.mpr hmany)

theorem FirstRecord.timeCalled_le (htrace : WellTimed cfg) {c : Copy}
    (hfirst : FirstRecord cfg c) (hc : c.record ∈ cfg.records) {r : Record}
    (hroot : Rooted cfg r) (hr : r ∈ cfg.records) :
    c.record.timeCalled ≤ r.timeCalled := by
  induction hroot with
  | main hpid =>
      rcases htrace.follows hc hr (hfirst.pid.trans hpid.symm) (hfirst.least _ hr hpid) with
        heq | hret
      · rw [heq]
      · exact (htrace.interval _ hc).trans hret
  | child hk _ _ hcalled ih => exact (ih hk).trans hcalled

theorem loaded_ordered (htrace : WellTimed cfg) (h₀ : Loaded cfg s) : Ordered cfg s where
  frontier := loaded_frontier h₀
  admitted e he b hb := by
    rw [h₀.executors, List.mem_singleton] at he
    rw [he] at hb
    exact ExecutorPc.noConfusion hb
  log before b after hsplit a ha _ hret := by
    rcases h₀.prepared with ⟨hlog, _⟩ | ⟨c, hc, hlog, _⟩
    · rw [hlog] at hsplit
      exact absurd hsplit.symm (List.append_ne_nil_of_right_ne_nil _ (List.cons_ne_nil _ _))
    · have hmem : c.record ∈ s.executedLog := by
        rw [hlog]
        exact List.mem_singleton_self _
      have hrecord := (mem_records (loaded_accounted h₀)).mpr (.inl hmem)
      have hle := FirstRecord.timeCalled_le htrace hc hrecord (htrace.rooted a ha) ha
      have hinterval := htrace.interval a ha
      rw [hlog, List.singleton_eq_append_iff] at hsplit
      rcases hsplit with ⟨_, hb⟩ | ⟨_, hb⟩
      · rw [(List.cons.inj hb).1] at hret
        omega
      · exact absurd hb (List.cons_ne_nil _ _)

end State

/-- A record that returned before a record of another thread was called is
executed before it, unless a record is admitted over a `clone` or `vfork` record
that runs longer than a record of the thread it starts. -/
theorem clear_replay_respectsReturns {cfg : Config} (htrace : WellTimed cfg) {s₀ s : State}
    (h₀ : Loaded cfg s₀) (hreach : (replayFrom cfg s₀).ReachVia (Clear cfg) s) :
    RespectsReturns cfg s.executedLog := by
  have hfresh : ∀ s a, Clear cfg s a → StartsFresh s a := fun _ _ h => h.1
  have hordered : Ordered cfg s := by
    refine hreach.invariant _ (loaded_ordered htrace h₀) ?_
    intro s a s' hreach hinv hclear hstep
    exact step_ordered htrace (reachVia_drained h₀ hreach) (reachVia_accounted h₀ hreach)
      (reachVia_executorsInv hfresh h₀ hreach) (reachVia_inOrder hfresh h₀ hreach)
      (reachVia_lifecycle hfresh h₀ hreach) hinv hclear hstep
  exact hordered.log

/-- Thread 1 starts thread 3 and then waits in a `vfork` for thread 2, whose
record returns before thread 3 calls its own. -/
def vforkTrace : Config where
  modules :=
    [[⟨.umask, 0, 1, 0, 1, 0⟩], [⟨.clone, 1, 1, 2, 3, 3⟩], [⟨.vfork, 2, 1, 10, 100, 2⟩],
      [⟨.read, 3, 2, 20, 30, 0⟩, ⟨.read, 4, 3, 50, 60, 0⟩]]
  order := [0, 1, 2, 3]
  uninitialised i := i
  modules_nonempty := by simp
  order_perm := by decide

/-- Where the reader leaves this trace. -/
def vforkLoaded : State :=
  ((replay vforkTrace).runVia (fun _ _ => true) (loadSyscallModules vforkTrace)
    (List.replicate 17 (.reader 0))).getD (loadSyscallModules vforkTrace)

theorem vforkTrace_loaded : Loaded vforkTrace vforkLoaded := by
  have hok : ∀ (s : State) a, decide (a = .reader 0) = true → ByReader s a := by
    intro s a ha
    rw [of_decide_eq_true ha]
    trivial
  have hrun : (replay vforkTrace).runVia (fun _ a => a = .reader 0)
      (loadSyscallModules vforkTrace) (List.replicate 17 (.reader 0)) = some vforkLoaded := rfl
  exact loaded_of_reachVia ((replay vforkTrace).reachVia_of_runVia hok .init hrun) rfl

theorem vforkTrace_wellTimed : WellTimed vforkTrace where
  interval := by decide
  program := by
    unfold Follows
    decide
  rooted := by
    have hclone : Rooted vforkTrace ⟨.clone, 1, 1, 2, 3, 3⟩ := .main rfl
    have hvfork : Rooted vforkTrace ⟨.vfork, 2, 1, 10, 100, 2⟩ := .main rfl
    intro r hr
    simp only [Config.records, vforkTrace, List.flatten_cons, List.flatten_nil,
      List.cons_append, List.nil_append, List.append_nil, List.mem_cons, List.not_mem_nil,
      or_false] at hr
    rcases hr with rfl | rfl | rfl | rfl | rfl
    · exact .main rfl
    · exact hclone
    · exact hvfork
    · exact .child (by decide) hvfork rfl (by decide)
    · exact .child (by decide) hclone rfl (by decide)

theorem DescendsFrom.timeCalled_le {cfg : Config} {k r : Record}
    (h : DescendsFrom cfg k r) : k.timeCalled ≤ r.timeCalled := by
  induction h with
  | child _ hcalled => exact hcalled
  | later _ _ _ hcalled ih => exact ih.trans hcalled

/-- No record is admitted after the call of a running record that is yet to
start a thread. -/
def AdmissionEarly (s : State) (a : Action) : Prop :=
  ∀ e ∈ actor s a, ∀ b, copyOf e.pc = some b → ∀ entry ∈ s.currentExecutions,
    ∀ k, entry.2 = some k → k.record ∈ s.executedLog ∨
      b.record.timeCalled ≤ k.record.timeCalled

instance (s : State) (a : Action) : Decidable (AdmissionEarly s a) := by
  unfold AdmissionEarly
  infer_instance

theorem admissionClear_of_early {cfg : Config} {s : State} {a : Action}
    (hinterval : ∀ r ∈ cfg.records, r.timeCalled ≤ r.timeReturned)
    (h : AdmissionEarly s a) : AdmissionClear cfg s a := by
  intro e he b hpc _ entry hentry k hk hnot r hr _ hdesc
  have hearly := h e he b (by rw [hpc]; rfl) entry hentry k hk
  have hcalled := hearly.resolve_left hnot
  have hdescends := hdesc.timeCalled_le
  have hreturned := hinterval r hr
  omega

theorem vforkTrace_ordered : ∃ s : State, s.executedLog.map Record.uniqueId = [0, 1, 2, 3, 4] ∧
    RespectsReturns vforkTrace s.executedLog := by
  have hok : ∀ (s : State) a, decide (StartsFresh s a ∧ AdmissionEarly s a) = true →
      Clear vforkTrace s a := by
    intro s a h
    exact (of_decide_eq_true h).imp_right
      (admissionClear_of_early vforkTrace_wellTimed.interval)
  obtain ⟨s, hreach, hlog⟩ := (replayFrom vforkTrace vforkLoaded).exists_reachVia _ hok
    (List.replicate 8 (.executor 0 0) ++ List.replicate 5 (.executor 1 0) ++
      List.replicate 9 (.executor 0 0) ++ List.replicate 11 (.executor 2 0) ++
      List.replicate 4 (.executor 1 0))
    (fun s => decide (s.executedLog.map Record.uniqueId = [0, 1, 2, 3, 4])) (by decide)
  exact ⟨s, of_decide_eq_true hlog,
    clear_replay_respectsReturns vforkTrace_wellTimed vforkTrace_loaded hreach⟩

/-- Thread 3 passes the check while the `vfork` is still running, and overtakes
the record of the thread that the `vfork` starts. -/
theorem vforkTrace_overtaken :
    WellTimed vforkTrace ∧ Loaded vforkTrace vforkLoaded ∧
      ∃ s, (replayFrom vforkTrace vforkLoaded).Reachable s ∧
        ¬RespectsReturns vforkTrace s.executedLog := by
  refine ⟨vforkTrace_wellTimed, vforkTrace_loaded, ?_⟩
  obtain ⟨s, hreach, hs⟩ := (replayFrom vforkTrace vforkLoaded).exists_reachable
    (List.replicate 8 (.executor 0 0) ++ List.replicate 5 (.executor 0 0) ++
      List.replicate 8 (.executor 1 0))
    (fun s => decide (s.executedLog = [⟨.umask, 0, 1, 0, 1, 0⟩, ⟨.clone, 1, 1, 2, 3, 3⟩,
      ⟨.read, 4, 3, 50, 60, 0⟩])) (by decide)
  refine ⟨s, hreach, fun hrespects => ?_⟩
  have hmem := hrespects [⟨.umask, 0, 1, 0, 1, 0⟩, ⟨.clone, 1, 1, 2, 3, 3⟩]
    ⟨.read, 4, 3, 50, 60, 0⟩ [] (of_decide_eq_true hs) ⟨.read, 3, 2, 20, 30, 0⟩ (by decide)
    (by decide) (by decide)
  exact absurd hmem (by decide)

end SyscallReplayer.HappensBefore
