import SyscallReplayer.Admission
import SyscallReplayer.FairRuns
import SyscallReplayer.HappensBefore
import SyscallReplayer.InterleavedReplay
import SyscallReplayer.ReplayMeasure

/-!
# A replay that can still be completed

No choice of the executors is wrong for good: once everything is read, the replay of
any number of threads can be brought to its end from wherever it is, if no store takes
`lastExecutedSyscallID` back.
-/

namespace SyscallReplayer.Completion

open TransitionSystem FairRuns
open Scheduler SchedulerSteps ReaderProgress RecordConservation ThreadOrder
open LoadedReplay RunningTable Admission ReplayMeasure
open HappensBefore (registeredCopy live_of_registeredCopy registeredCopy_of_executorTransition)

/-- No two records start the same thread, and none starts the main thread. -/
structure FreshThreads (cfg : Config) : Prop where
  distinct : (cfg.records.filterMap Record.child).Nodup
  main : ∀ r ∈ cfg.records, r.child ≠ some cfg.mainThreadID

def Origins (cfg : Config) (s : State) : Prop :=
  ∀ e ∈ s.executors, e.threadID = cfg.mainThreadID ∨
    ∃ r ∈ s.executedLog, r.child = some e.threadID

def Registered (s : State) : Prop :=
  ∀ e ∈ s.executors, ∀ c, registeredCopy e.pc = some c →
    (e.threadID, some c) ∈ s.currentExecutions

section Invariants

variable {cfg : Config} {s s' : State} {ok : State → Action → Prop}

theorem reachable_origins (h : (replay cfg).ReachVia ok s) : Origins cfg s := by
  refine h.invariant (P := Origins cfg) _ (fun e he => (List.not_mem_nil he).elim)
    fun s a s' _ hinv _ hs => ?_
  have hlog := InterleavedReplay.executedLog_of_step hs
  have hold : ∀ e ∈ s.executors, e.threadID = cfg.mainThreadID ∨
      ∃ r ∈ s'.executedLog, r.child = some e.threadID := by
    intro e he
    refine (hinv e he).imp_right ?_
    rintro ⟨r, hr, hchild⟩
    exact ⟨r, hlog ▸ List.mem_append_left _ hr, hchild⟩
  cases transition_of_step hs with
  | reader pick h =>
      cases h with
      | firstBatchDone =>
          intro e he
          rcases List.mem_append.mp he with he | he
          · exact hold e he
          · rw [List.mem_singleton.mp he]
            exact .inl rfl
      | _ => exact hold
  | executor index pick e before after he hsplit h =>
      intro e' he'
      rcases mem_replaced he' with he' | rfl | he'
      · exact hold e' (mem_of_split hsplit he')
      · exact hold e (mem_of_actor he)
      · have hstarting := (newExecutors_pc he').2
        cases hpc : e.pc with
        | admitted c =>
            rw [hpc] at hstarting
            refine .inr ⟨c.record, ?_, hstarting⟩
            have hget : s.executors[index]? = some e := he
            rw [hlog, InterleavedReplay.copyToExecute, hget, Option.bind_some, hpc]
            exact List.mem_append_right _ List.mem_cons_self
        | _ =>
            rw [hpc] at hstarting
            cases hstarting

/-- The threads of a trace are always started afresh. -/
theorem startsFresh (hfresh : FreshThreads cfg) (h : (replay cfg).ReachVia ok s) (a : Action) :
    StartsFresh s a := by
  intro e he tid htid e' he' heq
  have hperm := reachable_accounted h
  cases hpc : e.pc with
  | admitted c =>
      rw [hpc] at htid
      have hcopy : c ∈ copies s := List.mem_append_left _
        (mem_copiesInHand.mpr ⟨e, mem_of_actor he, by rw [hpc]; rfl⟩)
      have hrecord : c.record ∈ cfg.records := hperm.mem_iff.mp
        (List.mem_append_left _ (List.mem_append_right _ (List.mem_map_of_mem hcopy)))
      rcases reachable_origins h e' he' with hmain | ⟨r, hr, hchild⟩
      · rw [← heq, hmain] at htid
        exact absurd htid (hfresh.main c.record hrecord)
      · have hnodup := List.pairwise_filterMap.mp
          ((hperm.filterMap Record.child).nodup_iff.mpr hfresh.distinct)
        have happart := (List.pairwise_append.mp (List.pairwise_append.mp hnodup).1).2.2
        exact (happart r hr c.record (List.mem_map_of_mem hcopy) _ hchild tid htid heq).elim
  | _ =>
      rw [hpc] at htid
      cases htid

theorem reachable_registered (hok : ∀ s a, ok s a → StartsFresh s a)
    (h : (replay cfg).ReachVia ok s) : Registered s := by
  refine h.invariant (P := Registered) _ (fun e he => (List.not_mem_nil he).elim)
    fun s a s' hreach hinv hstep hs => ?_
  have hexec := reachable_executorsInv hreach hok
  cases transition_of_step hs with
  | reader pick h =>
      have hpc := (reachable_readerInv hreach).pc
      cases h with
      | prepareUmask hr c hc =>
          rw [hr] at hpc
          intro e he
          have hnone : e ∈ s.executors := he
          rw [hpc.1] at hnone
          cases hnone
      | firstBatchDone =>
          intro e he c hc
          rcases List.mem_append.mp he with he | he
          · exact hinv e he c hc
          · rw [List.mem_singleton.mp he] at hc
            cases hc
      | _ => exact hinv
  | @executor t pc' index pick e before after he hsplit h =>
      intro e' he' c hc
      rcases mem_replaced he' with he' | rfl | he'
      · have hmem := mem_of_split hsplit he'
        have hlive := live_of_registeredCopy hc
        refine entry_kept (t := t) h (hinv e' hmem c hc) ?_ ?_
        · exact threadID_ne_of_split hexec hsplit he' (executorTransition_pc_ne_exited h) hlive
        · exact fun hstart => hlive (hok s _ hstep e he _ hstart e' hmem rfl)
      · rcases registeredCopy_of_executorTransition h hc with ⟨hold, rfl⟩ | ⟨_, rfl⟩
        · exact hinv e (mem_of_actor he) c hold
        · exact List.mem_cons_self
      · rw [(newExecutors_pc he').1] at hc
        cases hc

theorem finished_of_done (h : (replay cfg).ReachVia ok s) :
    s.reader = .done → s.checkModulesFinished cfg = true := by
  refine h.invariant (P := fun s => s.reader = .done → s.checkModulesFinished cfg = true) _
    (by rintro ⟨⟩) fun s a s' _ hinv _ hs => ?_
  cases transition_of_step hs with
  | reader pick h =>
      intro hpc
      cases h with
      | checkDone _ hdone => exact hdone
      | spinWait hr => exact hinv hpc
      | _ => cases hpc
  | executor index pick e before after he hsplit h =>
      obtain ⟨_, hfin, hreader, _⟩ := h.frame
      intro hpc
      have hdone := hinv (hreader.symm.trans hpc)
      rwa [State.checkModulesFinished, ← hfin] at hdone

theorem drained_of_done (h : (replay cfg).ReachVia ok s) (hdone : s.reader = .done) :
    Drained cfg s := by
  have hreader := reachable_readerInv h
  have hall : ∀ i : Nat, i < cfg.replayerIdx → s.finishedModules i = true := fun i hi =>
    List.all_eq_true.mp (finished_of_done h hdone) i (List.mem_range.mpr hi)
  exact ⟨hdone, hreader.index, fun i hi => hreader.exhausted i hi (hall i hi), hall,
    hreader.nThreads⟩

end Invariants

def distance : ExecutorPc → Nat
  | .rejected _ => 11
  | .parked _ | .executed _ => 10
  | .repushed _ | .storing _ => 9
  | .top => 8
  | .popped _ => 7
  | .guard _ => 6
  | .guarded _ => 5
  | .running _ => 4
  | .validating _ => 3
  | .admitted _ => 2
  | .leaving => 1
  | .exited => 0

def distances (executors : List Executor) : Nat :=
  (executors.map fun e => distance e.pc).sum

/-- The turn of an executed record and that of a thread it has started are less
than what its execution counts for. -/
def toGo (cfg : Config) (s : State) : Nat :=
  20 * unexecuted cfg s + distances s.executors

/-- All stores that are under way will raise `lastExecutedSyscallID`. -/
def StoresRaise (s : State) : Prop :=
  ∀ e ∈ s.executors, ∀ lastId, e.pc = .storing lastId → s.lastExecutedSyscallID ≤ lastId

structure Completing (cfg : Config) (s : State) : Prop where
  steady : (replay cfg).ReachVia (Steady cfg) s
  reader : s.reader = .done
  stores : StoresRaise s

section Advance

variable {cfg : Config} {s s' t : State} {index pick : Nat} {e : Executor} {pc' : ExecutorPc}

theorem distances_append (l l' : List Executor) :
    distances (l ++ l') = distances l + distances l' := by
  simp [distances]

theorem distances_cons (e : Executor) (l : List Executor) :
    distances (e :: l) = distance e.pc + distances l := by
  simp [distances]

theorem distances_spawned_le (r : Record) : distances (spawned r) ≤ 8 := by
  unfold spawned
  cases r.child with
  | none => exact Nat.zero_le _
  | some pid => exact Nat.le_refl _

/-- A step forward, or one that executes a record. -/
def Advances (pc pc' : ExecutorPc) : Prop :=
  distance pc' < distance pc ∨ ∃ c, pc = .admitted c

theorem toGo_moved_lt (hperm : (accounted cfg s).Perm cfg.records)
    {before after : List Executor} (hsplit : s.executors = before ++ e :: after)
    (h : ExecutorTransition cfg s e.threadID e.pc t pc') (hadvances : Advances e.pc pc') :
    toGo cfg (moved t e pc' before after) < toGo cfg s := by
  have hmem : e ∈ s.executors := by
    rw [hsplit]
    exact List.mem_append_right _ List.mem_cons_self
  simp only [toGo, unexecuted, moved, hsplit, distances_append, distances_cons]
  obtain ⟨tid, pc⟩ := e
  rcases executedLog_of_executorTransition h with ⟨hlog, _, hnew⟩ | ⟨c, hpc, hpc', hlog, _⟩
  · rw [hlog, hnew]
    rcases hadvances with hlt | ⟨c, rfl⟩
    · have hcloser : distance pc' < distance pc := hlt
      simp only [distances, List.map_nil, List.sum_nil]
      omega
    · cases h with
      | execute =>
          have hlen := congrArg List.length hlog
          rw [execute_log, List.length_append, List.length_singleton] at hlen
          omega
  · cases hpc
    cases hpc'
    have hlt := lt_of_mem_copiesInHand hperm (mem_copiesInHand.mpr ⟨_, hmem, rfl⟩)
    have hspawned := distances_spawned_le c.record
    simp only [hlog, List.length_append, List.length_singleton, distance, newExecutors]
    omega

theorem moved_storesRaise (hstores : StoresRaise s) {before after : List Executor}
    (hsplit : s.executors = before ++ e :: after)
    (h : ExecutorTransition cfg s e.threadID e.pc t pc')
    (hleast : ∀ lastId, e.pc = .storing lastId → ∀ e' ∈ s.executors, ∀ lastId',
      e'.pc = .storing lastId' → lastId ≤ lastId') :
    StoresRaise (moved t e pc' before after) := by
  have hlast : (∃ lastId, e.pc = .storing lastId ∧ t.lastExecutedSyscallID = lastId) ∨
      t.lastExecutedSyscallID = s.lastExecutedSyscallID := by
    obtain ⟨tid, pc⟩ := e
    cases h with
    | storeLast lastId => exact .inl ⟨lastId, rfl, rfl⟩
    | execute c =>
        refine .inr ?_
        unfold State.execute
        cases c.record.child <;> rfl
    | _ => exact .inr rfl
  intro e' he' lastId' hpc
  rcases mem_replaced he' with he' | rfl | he'
  · have hmem := mem_of_split hsplit he'
    change t.lastExecutedSyscallID ≤ lastId'
    rcases hlast with ⟨lastId, hstoring, hlast⟩ | hlast
    · rw [hlast]
      exact hleast lastId hstoring e' hmem lastId' hpc
    · rw [hlast]
      exact hstores e' hmem lastId' hpc
  · obtain ⟨tid, pc⟩ := e
    change t.lastExecutedSyscallID ≤ lastId'
    cases h with
    | readLast c =>
        cases hpc
        exact le_max_left _ _
    | _ => cases hpc
  · rw [(newExecutors_pc he').1] at hpc
    cases hpc

theorem advance (hfresh : FreshThreads cfg) (hinv : Completing cfg s)
    (hget : s.executors[index]? = some e)
    (hstep : executorStep cfg s e.threadID e.pc pick = some (t, pc'))
    (hadvances : Advances e.pc pc')
    (hleast : ∀ lastId, e.pc = .storing lastId → ∀ e' ∈ s.executors, ∀ lastId',
      e'.pc = .storing lastId' → lastId ≤ lastId') :
    ∃ a s', (replay cfg).step s a = some s' ∧ Completing cfg s' ∧ toGo cfg s' < toGo cfg s := by
  have hs : step cfg s (.executor index pick) =
      some { t with executors := setPc t.executors index pc' } := by
    simp only [step, hget, hstep, Option.map_some]
  have htrans := executorTransition_of_executorStep hstep
  obtain ⟨hlt, hval⟩ := List.getElem?_eq_some_iff.mp hget
  have hsplit : s.executors = s.executors.take index ++ e :: s.executors.drop (index + 1) := by
    rw [← hval, List.getElem_cons_drop, List.take_append_drop]
  have hmoved : ({ t with executors := setPc t.executors index pc' } : State) =
      moved t e pc' (s.executors.take index) (s.executors.drop (index + 1)) := by
    have hlen : (s.executors.take index).length = index := by
      rw [List.length_take]
      omega
    have hlist := setPc_append (s.executors.take index)
      (s.executors.drop (index + 1) ++ newExecutors e.pc) e pc'
    rw [hlen, ← List.cons_append, ← List.append_assoc, ← hsplit, ← htrans.executors] at hlist
    rw [moved, hlist]
  have hdrained := drained_of_done hinv.steady hinv.reader
  have hkeeps : KeepsLast s (.executor index pick) := by
    intro e' he' lastId hstoring
    cases hget.symm.trans he'
    refine hinv.stores e (List.mem_of_getElem? hget) lastId ?_
    cases hpc : e.pc with
    | storing lastId' =>
        rw [hpc] at hstoring
        rw [Option.some.inj hstoring]
    | _ =>
        rw [hpc] at hstoring
        cases hstoring
  refine ⟨.executor index pick, _, hs, ⟨?_, ?_, ?_⟩, ?_⟩
  · exact .step hinv.steady
      ⟨⟨deliveredAhead_of_drained hdrained _, startsFresh hfresh hinv.steady _⟩, hkeeps⟩ hs
  · exact htrans.frame.2.2.1.trans hinv.reader
  · rw [hmoved]
    exact moved_storesRaise hinv.stores hsplit htrans hleast
  · rw [hmoved]
    exact toGo_moved_lt (reachable_accounted hinv.steady) hsplit htrans hadvances

end Advance

section Choice

variable {cfg : Config} {s : State}

theorem exists_advance (hfinished : s.checkModulesFinished cfg = true) (tid : Int)
    {pc : ExecutorPc} (hpc : pc ≠ .exited)
    (hentered : ∀ c, pc ≠ .running c ∧ pc ≠ .validating c) :
    ∃ pick t pc', executorStep cfg s tid pc pick = some (t, pc') ∧ Advances pc pc' := by
  cases pc with
  | top =>
      by_cases hempty : s.executionHeap tid = []
      · refine ⟨0, s, .leaving, ?_, .inl (by decide)⟩
        simp only [executorStep, if_pos hempty]
      · obtain ⟨c, hc⟩ := exists_mem_minima hempty
        obtain ⟨pick, hpick⟩ := List.mem_iff_getElem?.mp hc
        refine ⟨pick, { s with queued := s.queued.erase c }, .popped c, ?_,
          .inl (Nat.lt_succ_self 7)⟩
        simp only [executorStep, if_neg hempty, hpick, Option.map_some]
  | guard c =>
      refine ⟨0, s, .guarded c, ?_, .inl (Nat.lt_succ_self 5)⟩
      simp only [executorStep, hfinished, Bool.not_true, Bool.false_eq_true, and_false, if_false]
  | running c => exact absurd rfl (hentered c).1
  | validating c => exact absurd rfl (hentered c).2
  | exited => exact absurd rfl hpc
  | admitted c => exact ⟨0, _, _, rfl, .inr ⟨c, rfl⟩⟩
  | leaving => exact ⟨0, _, _, rfl, .inl Nat.zero_lt_one⟩
  | popped c => exact ⟨0, _, _, rfl, .inl (Nat.lt_succ_self 6)⟩
  | guarded c => exact ⟨0, _, _, rfl, .inl (Nat.lt_succ_self 4)⟩
  | rejected c => exact ⟨0, _, _, rfl, .inl (Nat.lt_succ_self 10)⟩
  | parked c => exact ⟨0, _, _, rfl, .inl (Nat.lt_succ_self 9)⟩
  | repushed c => exact ⟨0, _, _, rfl, .inl (Nat.lt_succ_self 8)⟩
  | executed c => exact ⟨0, _, _, rfl, .inl (Nat.lt_succ_self 9)⟩
  | storing lastId => exact ⟨0, _, _, rfl, .inl (Nat.lt_succ_self 8)⟩

/-- If all executors wait for the check, it admits the record of least id or the one
that returns first. -/
theorem exists_valid (hinterval : ∀ r ∈ cfg.records, r.timeCalled ≤ r.timeReturned)
    (hwindow : InWindow cfg) (hinv : Completing cfg s)
    (hlive : ∃ e ∈ s.executors, e.pc ≠ .exited) (hentered : Entered s) :
    ∃ e ∈ s.executors, ∃ c, inHand e.pc = some c ∧ s.checkExecutionValidation c = true := by
  have hfresh : ∀ s a, Steady cfg s a → StartsFresh s a := fun _ _ h => h.1.2
  have htable : Table cfg s := reachVia_table (fun _ _ h => h.2) hinv.steady
  have hperm := reachable_accounted hinv.steady
  have hexec := reachable_executorsInv hinv.steady hfresh
  have horder := reachable_inOrder hinv.steady fun _ _ h => h.1
  have hlife := reachable_lifecycle hinv.steady fun _ _ h => h.1
  have hover : firstBatchOver s.reader = true := by
    rw [hinv.reader]
    rfl
  obtain ⟨e₀, he₀, hpc₀⟩ := hlive
  obtain ⟨c₀, hhand₀, _⟩ := hentered e₀ he₀ hpc₀
  have hne : ∃ c, c ∈ copiesInHand s := ⟨c₀, mem_copiesInHand.mpr ⟨e₀, he₀, hhand₀⟩⟩
  obtain ⟨q, hq, hleast⟩ := exists_least Record.uniqueId hne
  obtain ⟨r, hr, hfirst⟩ := exists_least Record.timeReturned hne
  have hvalid : ∀ c ∈ copiesInHand s, c.record = q.record ∨
      c.record.timeReturned < q.record.timeCalled →
      c.record.timeCalled ≤ r.record.timeReturned →
      ∃ e ∈ s.executors, ∃ c, inHand e.pc = some c ∧ s.checkExecutionValidation c = true := by
    intro c hc hbefore hearly
    obtain ⟨e, he, hhand⟩ := mem_copiesInHand.mp hc
    have hsequential := checkSequential_of_window htable hperm hexec horder hlife hover hwindow
      hentered hc hq hleast hbefore
    exact ⟨e, he, c, hhand, validation_of_early htable hentered hc hsequential
      fun c' hc' => hearly.trans (hfirst c' hc')⟩
  rcases le_or_gt q.record.timeCalled r.record.timeReturned with hearly | hlate
  · exact hvalid q hq (.inl rfl) hearly
  · exact hvalid r hr (.inr hlate)
      (hinterval _ ((mem_records hperm).mpr (.inr (.inl ⟨r, hr, rfl⟩))))

theorem entered_of_waiting (hinv : Completing cfg s) (hwaits : ∀ e ∈ s.executors,
    e.pc ≠ .exited → ∃ c, e.pc = .running c ∨ e.pc = .validating c) : Entered s := by
  have hregistered := reachable_registered (fun _ _ h => h.1.2) hinv.steady
  intro e he hlive
  obtain ⟨c, hpc | hpc⟩ := hwaits e he hlive
  · exact ⟨c, by rw [hpc]; rfl, hregistered e he c (by rw [hpc]; rfl)⟩
  · exact ⟨c, by rw [hpc]; rfl, hregistered e he c (by rw [hpc]; rfl)⟩

theorem exists_admission (cfg : Config) (tid : Int) {pc : ExecutorPc} {c : Copy}
    (hvalid : s.checkExecutionValidation c = true)
    (hwaits : ∃ c, pc = .running c ∨ pc = .validating c) (hhand : inHand pc = some c) :
    ∃ pc', executorStep cfg s tid pc 0 = some (s, pc') ∧ Advances pc pc' := by
  obtain ⟨c', rfl | rfl⟩ := hwaits
  · obtain rfl := Option.some.inj hhand
    by_cases hmany : 1 < s.nThreads
    · exact ⟨.validating _, if_pos hmany, .inl (Nat.lt_succ_self 3)⟩
    · exact ⟨.admitted _, if_neg hmany, .inl (show 2 < 4 by decide)⟩
  · obtain rfl := Option.some.inj hhand
    exact ⟨.admitted _, if_pos hvalid, .inl (Nat.lt_succ_self 2)⟩

theorem exists_least_store (h : ∃ e ∈ s.executors, ∃ lastId, e.pc = .storing lastId) :
    ∃ e ∈ s.executors, ∃ lastId, e.pc = .storing lastId ∧
      ∀ e' ∈ s.executors, ∀ lastId', e'.pc = .storing lastId' → lastId ≤ lastId' := by
  obtain ⟨e₀, he₀, lastId₀, hpc₀⟩ := h
  obtain ⟨lastId, ⟨e, he, hpc⟩, hmin⟩ := WellFounded.has_min Nat.lt_wfRel.wf
    {lastId | ∃ e ∈ s.executors, e.pc = .storing lastId} ⟨lastId₀, e₀, he₀, hpc₀⟩
  exact ⟨e, he, lastId, hpc, fun e' he' lastId' hpc' => not_lt.mp (hmin _ ⟨e', he', hpc'⟩)⟩

/-- Until the replay has ended, some step brings the end closer. -/
theorem exists_step_closer (hinterval : ∀ r ∈ cfg.records, r.timeCalled ≤ r.timeReturned)
    (hwindow : InWindow cfg) (hfresh : FreshThreads cfg) (hinv : Completing cfg s)
    (hterm : ¬Terminated s) :
    ∃ a s', (replay cfg).step s a = some s' ∧ Completing cfg s' ∧ toGo cfg s' < toGo cfg s := by
  have hfinished := finished_of_done hinv.steady hinv.reader
  have hlive : ∃ e ∈ s.executors, e.pc ≠ .exited := by
    by_contra hnone
    exact hterm ⟨hinv.reader, fun e he => by_contra fun hpc => hnone ⟨e, he, hpc⟩⟩
  by_cases hstore : ∃ e ∈ s.executors, ∃ lastId, e.pc = .storing lastId
  · obtain ⟨e, he, lastId, hpc, hleast⟩ := exists_least_store hstore
    obtain ⟨index, hget⟩ := List.mem_iff_getElem?.mp he
    have hlive : e.pc ≠ .exited := by
      rw [hpc]
      rintro ⟨⟩
    have hentered : ∀ c, e.pc ≠ .running c ∧ e.pc ≠ .validating c := by
      rw [hpc]
      exact fun c => ⟨by rintro ⟨⟩, by rintro ⟨⟩⟩
    obtain ⟨pick, t, pc', hstep, hadvances⟩ :=
      exists_advance hfinished e.threadID hlive hentered
    refine advance hfresh hinv hget hstep hadvances fun lastId' hpc' => ?_
    cases hpc.symm.trans hpc'
    exact hleast
  · have hnone : ∀ e ∈ s.executors, ∀ lastId, e.pc = .storing lastId →
        ∀ e' ∈ s.executors, ∀ lastId', e'.pc = .storing lastId' → lastId ≤ lastId' :=
      fun e he lastId hpc => absurd ⟨e, he, lastId, hpc⟩ hstore
    by_cases hother : ∃ e ∈ s.executors, e.pc ≠ .exited ∧
        ∀ c, e.pc ≠ .running c ∧ e.pc ≠ .validating c
    · obtain ⟨e, he, hpc, hentered⟩ := hother
      obtain ⟨index, hget⟩ := List.mem_iff_getElem?.mp he
      obtain ⟨pick, t, pc', hstep, hadvances⟩ := exists_advance hfinished e.threadID hpc hentered
      exact advance hfresh hinv hget hstep hadvances (hnone e he)
    · have hwaits : ∀ e ∈ s.executors, e.pc ≠ .exited →
          ∃ c, e.pc = .running c ∨ e.pc = .validating c := by
        intro e he hpc
        by_contra hno
        exact hother ⟨e, he, hpc, fun c =>
          ⟨fun h => hno ⟨c, .inl h⟩, fun h => hno ⟨c, .inr h⟩⟩⟩
      obtain ⟨e, he, c, hhand, hvalid⟩ := exists_valid hinterval hwindow hinv hlive
        (entered_of_waiting hinv hwaits)
      obtain ⟨index, hget⟩ := List.mem_iff_getElem?.mp he
      obtain ⟨pc', hstep, hadvances⟩ := exists_admission cfg e.threadID hvalid
        (hwaits e he (live_of_inHand hhand)) hhand
      exact advance hfresh hinv hget hstep hadvances (hnone e he)

end Choice

/-- If the trace fits the window, a replay of any number of threads can be completed
from every state in which everything is read. -/
theorem completion_reachable {cfg : Config}
    (hinterval : ∀ r ∈ cfg.records, r.timeCalled ≤ r.timeReturned) (hwindow : InWindow cfg)
    (hfresh : FreshThreads cfg) (hcreated : ∀ r ∈ cfg.records, Created cfg r.executingPid)
    {s : State} (hreach : (replay cfg).ReachVia (Steady cfg) s) (hdone : s.reader = .done)
    (hstores : StoresRaise s) :
    ∃ t, Relation.ReflTransGen (replay cfg).Fires s t ∧ Terminated t ∧
      t.executedLog.Perm cfg.records := by
  obtain ⟨t, hruns, hinv, hterm⟩ := exists_reaches_of_measure
    (fun s hinv hterm => exists_step_closer hinterval hwindow hfresh hinv hterm)
    (⟨hreach, hdone, hstores⟩ : Completing cfg s)
  have htimely : (replay cfg).ReachVia (Timely cfg) t :=
    hinv.steady.mono _ fun _ _ _ h => h.1
  exact ⟨t, hruns, hterm, executedLog_perm_of_terminated hcreated htimely hterm⟩

theorem nearTrace_freshThreads : FreshThreads nearTrace where
  distinct := by decide
  main := by decide

theorem nearTrace_created : ∀ r ∈ nearTrace.records, Created nearTrace r.executingPid := by
  have hchild : Created nearTrace 2 :=
    .child (r := ⟨.clone, 1, 1, 2, 3, 2⟩) (by decide) .main rfl
  intro r hr
  have hpid : r.executingPid = nearTrace.mainThreadID ∨ r.executingPid = 2 :=
    (by decide : ∀ r ∈ nearTrace.records,
      r.executingPid = nearTrace.mainThreadID ∨ r.executingPid = 2) r hr
  rcases hpid with hpid | hpid
  · rw [hpid]
    exact .main
  · rw [hpid]
    exact hchild

/-- The main thread has been rejected once, and the new thread has not moved yet. -/
theorem nearTrace_completable :
    ∃ s, (∃ e ∈ s.executors, ∃ c, e.pc = .rejected c) ∧
      s.executedLog.map Record.uniqueId = [0, 1] ∧
      ∃ t, Relation.ReflTransGen (replay nearTrace).Fires s t ∧ Terminated t ∧
        t.executedLog.Perm nearTrace.records := by
  obtain ⟨s, hreach, hs⟩ := (replay nearTrace).exists_reachVia
    (fun s a => decide (Steady nearTrace s a)) (fun _ _ h => of_decide_eq_true h)
    (List.replicate 14 (.reader 0) ++ List.replicate 14 (.executor 0 0))
    (fun s => decide (s.reader = .done ∧ s.executedLog.map Record.uniqueId = [0, 1] ∧
      s.executors = [⟨1, .rejected ⟨⟨.read, 3, 1, 6, 7, 0⟩, 2, 2⟩⟩, ⟨2, .top⟩])) (by decide)
  obtain ⟨hdone, hlog, hexecutors⟩ := of_decide_eq_true hs
  have hwindow : InWindow nearTrace := by
    have hsmall : ∀ r ∈ nearTrace.records, r.uniqueId ≤ 150 := by decide
    exact fun r hr _ _ _ => .inl (hsmall r hr)
  have hstores : StoresRaise s := by
    intro e he lastId hpc
    rw [hexecutors, List.mem_pair] at he
    rcases he with rfl | rfl
    · cases hpc
    · cases hpc
  refine ⟨s, ⟨⟨1, .rejected ⟨⟨.read, 3, 1, 6, 7, 0⟩, 2, 2⟩⟩, ?_, _, rfl⟩, hlog, completion_reachable (by decide) hwindow
    nearTrace_freshThreads nearTrace_created hreach hdone hstores⟩
  rw [hexecutors]
  exact List.mem_cons_self

end SyscallReplayer.Completion
