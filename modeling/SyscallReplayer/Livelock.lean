import SyscallReplayer.Admission
import SyscallReplayer.EndlessRuns
import SyscallReplayer.InterleavedReplay
import SyscallReplayer.ReplayTermination

/-!
# Threads that keep each other waiting

A thread whose record is rejected takes its entry out of `currentExecutions` before it
tries again, and the check rejects every record while an entry is missing. Two threads
that try in turn can go on like this for ever.
-/

namespace SyscallReplayer.Livelock

open TransitionSystem FairRuns EndlessRuns
open Scheduler SchedulerSteps SchedulerRuns RecordConservation ThreadOrder
open Admission ReplayTermination

/-- The effect of a turn whose record is rejected. -/
def rejectedTurn (s : State) (tid : Int) (c : Copy) : State :=
  (({ ((taken s c).setRunning tid (some c)).setRunning tid none with
    queued := s.queued.erase c ++ [c] }).increment c.replayerIndex).touch c

def attempt (index : Nat) : List Action :=
  List.replicate 9 (.executor index 0)

section Turn

variable {cfg : Config} {s t : State} {index : Nat} {tid : Int} {c : Copy}

theorem step_executor {pc pc' : ExecutorPc} {pick : Nat}
    (hget : s.executors[index]? = some ⟨tid, pc⟩)
    (h : executorStep cfg s tid pc pick = some (t, pc')) :
    (replay cfg).step s (.executor index pick) =
      some { t with executors := setPc t.executors index pc' } := by
  change step cfg s (.executor index pick) = _
  simp only [step, hget, h, Option.map_some]

theorem runVia_rejectedTurn (hget : s.executors[index]? = some ⟨tid, .top⟩)
    (hpick : (s.minima tid)[0]? = some c) (hfinished : s.checkModulesFinished cfg = true)
    (hmany : 1 < s.nThreads)
    (hinvalid : ((taken s c).setRunning tid (some c)).checkExecutionValidation c = false) :
    (replay cfg).runVia (fun _ _ => true) s (attempt index) = some (rejectedTurn s tid c) := by
  let at_ : State → ExecutorPc → State := fun t pc =>
    { t with executors := setPc t.executors index pc }
  have hstep : ∀ {t t' : State} {pc pc' : ExecutorPc}, t.executors = s.executors →
      executorStep cfg (at_ t pc) tid pc 0 =
        some ({ t' with executors := setPc t.executors index pc }, pc') →
      t'.executors = t.executors →
      (replay cfg).step (at_ t pc) (.executor index 0) = some (at_ t' pc') := by
    intro t t' pc pc' hsame h hkept
    have hat := step_executor (getElem?_setPc (hsame ▸ hget) pc) h
    simpa only [at_, setPc_setPc, hkept] using hat
  have hheap : s.executionHeap tid ≠ [] := by
    intro hempty
    simp [State.minima, hempty] at hpick
  let popped : State := { s with queued := s.queued.erase c }
  let registered := (taken s c).setRunning tid (some c)
  let unregistered := registered.setRunning tid none
  let pushed : State := { unregistered with queued := s.queued.erase c ++ [c] }
  have hstart : at_ s .top = s := by
    simp only [at_, setPc_self hget]
  have hend : at_ (rejectedTurn s tid c) .top = rejectedTurn s tid c := by
    have hself : setPc (rejectedTurn s tid c).executors index .top =
        (rejectedTurn s tid c).executors := setPc_self hget
    simp only [at_, hself]
  have hpop : (replay cfg).step (at_ s .top) (.executor index 0) =
      some (at_ popped (.popped c)) := by
    refine hstep rfl ?_ rfl
    simp only [executorStep]
    rw [if_neg (by exact hheap)]
    exact congrArg (Option.map _) hpick
  have hcount : (replay cfg).step (at_ popped (.popped c)) (.executor index 0) =
      some (at_ (taken s c) (.guard c)) := hstep rfl rfl rfl
  have hpass : (replay cfg).step (at_ (taken s c) (.guard c)) (.executor index 0) =
      some (at_ (taken s c) (.guarded c)) := by
    refine hstep rfl ?_ rfl
    simp only [executorStep]
    refine if_neg fun hwait => ?_
    have hunfinished : (!s.checkModulesFinished cfg) = true := hwait.2
    rw [hfinished] at hunfinished
    cases hunfinished
  have hregister : (replay cfg).step (at_ (taken s c) (.guarded c)) (.executor index 0) =
      some (at_ registered (.running c)) := hstep rfl rfl rfl
  have hgate : (replay cfg).step (at_ registered (.running c)) (.executor index 0) =
      some (at_ registered (.validating c)) := hstep rfl (if_pos hmany) rfl
  have hreject : (replay cfg).step (at_ registered (.validating c)) (.executor index 0) =
      some (at_ registered (.rejected c)) := by
    refine hstep rfl ?_ rfl
    simp only [executorStep]
    exact if_neg fun hvalid => Bool.false_ne_true (hinvalid.symm.trans hvalid)
  have hpark : (replay cfg).step (at_ registered (.rejected c)) (.executor index 0) =
      some (at_ unregistered (.parked c)) := hstep rfl rfl rfl
  have hpush : (replay cfg).step (at_ unregistered (.parked c)) (.executor index 0) =
      some (at_ pushed (.repushed c)) := hstep rfl rfl rfl
  have hrecount : (replay cfg).step (at_ pushed (.repushed c)) (.executor index 0) =
      some (at_ (rejectedTurn s tid c) .top) := hstep rfl rfl rfl
  rw [hstart] at hpop
  rw [hend] at hrecount
  change (replay cfg).runVia _ s (_ :: _ :: _ :: _ :: _ :: _ :: _ :: _ :: [_]) = _
  rw [runVia_cons hpop, runVia_cons hcount, runVia_cons hpass, runVia_cons hregister,
    runVia_cons hgate, runVia_cons hreject, runVia_cons hpark, runVia_cons hpush,
    runVia_cons hrecount]
  rfl

end Turn

/-- Everything is read, there have been several threads, and each executor that has
not ended has a record to pop. -/
structure Contending (cfg : Config) (s : State) : Prop where
  reader : s.reader = .done
  finished : s.checkModulesFinished cfg = true
  nThreads : 1 < s.nThreads
  ready : ∀ e ∈ s.executors, e.pc = .exited ∨ e.pc = .top ∧ s.executionHeap e.threadID ≠ []

/-- The entry of another thread is missing. -/
def MissingBut (s : State) (tid : Int) : Prop :=
  ∃ tid', tid' ≠ tid ∧ (tid', none) ∈ s.currentExecutions

/-- Two entries are missing. -/
def TwoMissing (s : State) : Prop :=
  ∀ tid, MissingBut s tid

section Rejected

variable {cfg : Config} {s t : State} {index : Nat} {tid : Int} {c : Copy}

theorem exists_minimum (hne : s.executionHeap tid ≠ []) : ∃ c, (s.minima tid)[0]? = some c := by
  obtain ⟨c, hc⟩ := exists_mem_minima hne
  exact ⟨_, List.getElem?_eq_getElem (List.length_pos_of_mem hc)⟩

theorem not_valid_of_missing (hmissing : MissingBut s tid) :
    ((taken s c).setRunning tid (some c)).checkExecutionValidation c = false := by
  obtain ⟨tid', hne, hentry⟩ := hmissing
  rw [State.checkExecutionValidation, Bool.and_eq_false_iff]
  refine .inr (List.all_eq_false.mpr ⟨(tid', none), ?_, Bool.false_ne_true⟩)
  exact List.mem_cons_of_mem _ (List.mem_filter.mpr ⟨hentry, decide_eq_true hne⟩)

/-- What a rejected turn changes. -/
structure Rejected (tid : Int) (s t : State) : Prop where
  executors : t.executors = s.executors
  executedLog : t.executedLog = s.executedLog
  own : (tid, none) ∈ t.currentExecutions
  other : ∀ tid', tid' ≠ tid → (tid', none) ∈ s.currentExecutions →
    (tid', none) ∈ t.currentExecutions

theorem rejectedTurn_rejected (s : State) (tid : Int) (c : Copy) :
    Rejected tid s (rejectedTurn s tid c) where
  executors := rfl
  executedLog := rfl
  own := List.mem_cons_self
  other tid' hne hentry := by
    refine List.mem_cons_of_mem _ (List.mem_filter.mpr ⟨?_, decide_eq_true hne⟩)
    exact List.mem_cons_of_mem _ (List.mem_filter.mpr ⟨hentry, decide_eq_true hne⟩)

theorem rejectedTurn_contending (h : Contending cfg s) (hc : c ∈ s.queued) :
    Contending cfg (rejectedTurn s tid c) where
  reader := h.reader
  finished := h.finished
  nThreads := h.nThreads
  ready e he := by
    refine (h.ready e he).imp_right fun ⟨hpc, hheap⟩ => ⟨hpc, fun hempty => hheap ?_⟩
    have hperm : (s.queued.erase c ++ [c]).Perm s.queued :=
      (List.perm_append_singleton _ _).trans (List.perm_cons_erase hc).symm
    rw [executionHeap_eq_nil] at hempty ⊢
    exact fun c' hc' => hempty c' (hperm.mem_iff.mpr hc')

/-- The turn of a thread while the entry of another one is missing. -/
theorem exists_rejected (h : Contending cfg s)
    (hget : s.executors[index]? = some ⟨tid, .top⟩) (hmissing : MissingBut s tid) :
    ∃ t, (replay cfg).runVia (fun _ _ => true) s (attempt index) = some t ∧
      Contending cfg t ∧ Rejected tid s t := by
  obtain ⟨-, hheap⟩ := (h.ready _ (List.mem_of_getElem? hget)).resolve_left (by rintro ⟨⟩)
  obtain ⟨c, hc⟩ := exists_minimum hheap
  have hqueued := mem_queued_of_mem_minima (List.mem_of_getElem? hc)
  exact ⟨_, runVia_rejectedTurn hget hc h.finished h.nThreads (not_valid_of_missing hmissing),
    rejectedTurn_contending h hqueued, rejectedTurn_rejected s tid c⟩

theorem Rejected.twoMissing (h : Rejected tid s t) (hmissing : MissingBut s tid) :
    TwoMissing t := by
  obtain ⟨tid', hne, hentry⟩ := hmissing
  intro x
  by_cases hx : x = tid
  · exact ⟨tid', hx ▸ hne, h.other tid' hne hentry⟩
  · exact ⟨tid, Ne.symm hx, h.own⟩

/-- The turns of the executors with these indices that have not ended. -/
def attempts (executors : List Executor) (indices : List Nat) : List Action :=
  indices.flatMap fun index =>
    if (executors[index]?).any fun e => e.pc = .top then attempt index else []

theorem exists_all_rejected {executors : List Executor} (indices : List Nat)
    (h : Contending cfg s) (htwo : TwoMissing s) (hexecutors : s.executors = executors) :
    ∃ t, (replay cfg).runVia (fun _ _ => true) s (attempts executors indices) = some t ∧
      Contending cfg t ∧ TwoMissing t ∧ t.executors = executors ∧
      t.executedLog = s.executedLog := by
  induction indices generalizing s with
  | nil => exact ⟨s, rfl, h, htwo, hexecutors, rfl⟩
  | cons index indices ih =>
      rw [attempts, List.flatMap_cons]
      split
      · rename_i htop
        obtain ⟨⟨tid, pc⟩, hget, hpc⟩ := (Option.any_eq_true _ _).mp htop
        obtain rfl := of_decide_eq_true hpc
        rw [← hexecutors] at hget
        obtain ⟨u, hrun, hu, hrejected⟩ := exists_rejected h hget (htwo tid)
        obtain ⟨t, hrest, ht, htwo', hsame, hlog⟩ :=
          ih hu (hrejected.twoMissing (htwo tid)) (hrejected.executors.trans hexecutors)
        rw [runVia_append hrun]
        exact ⟨t, hrest, ht, htwo', hsame, hlog.trans hrejected.executedLog⟩
      · exact ih h htwo hexecutors

/-- A thread is about to try while the entry of another one is missing. -/
structure Standoff (cfg : Config) (s : State) : Prop extends Contending cfg s where
  missing : ∃ e ∈ s.executors, e.pc = .top ∧ MissingBut s e.threadID

theorem not_terminated_of_standoff (h : Standoff cfg s) : ¬Terminated s := by
  intro hterm
  obtain ⟨e, he, hpc, _⟩ := h.missing
  rw [hterm.2 e he] at hpc
  cases hpc

/-- In a standoff only the executors that are about to pop can act. -/
theorem exists_attempt_of_enabled (h : Contending cfg s) {p : Party}
    (henabled : Enabled (replay cfg) party p s) :
    ∃ a ∈ attempts s.executors (List.range s.executors.length), party a = p := by
  obtain ⟨a, rfl, hsome⟩ := henabled
  change (step cfg s a).isSome = true at hsome
  cases a with
  | reader pick =>
      simp only [step, readerStep, h.reader] at hsome
      cases hsome
  | executor index pick =>
      simp only [step] at hsome
      split at hsome
      · cases hsome
      · rename_i e hget
        have hpc : e.pc = .top := by
          refine ((h.ready e (List.mem_of_getElem? hget)).resolve_left fun hexited => ?_).1
          rw [hexited] at hsome
          cases hsome
        refine ⟨.executor index 0, List.mem_flatMap.mpr ⟨index, ?_, ?_⟩, rfl⟩
        · exact List.mem_range.mpr (List.getElem?_eq_some_iff.mp hget).1
        · rw [if_pos (by rw [hget, Option.any_some, hpc]; rfl)]
          exact List.mem_replicate.mpr ⟨by decide, rfl⟩

/-- The executors try one after another and are back where they were. -/
theorem standoff_rounds (cfg : Config) (executors : List Executor) (log : List Record) :
    Rounds (replay cfg) party fun s =>
      Standoff cfg s ∧ s.executors = executors ∧ s.executedLog = log := by
  rintro s ⟨h, rfl, rfl⟩
  obtain ⟨e, he, hpc, hmissing⟩ := h.missing
  obtain ⟨index, hget⟩ := List.mem_iff_getElem?.mp he
  obtain ⟨tid, pc⟩ := e
  cases hpc
  obtain ⟨u, hfirst, hu, hrejected⟩ := exists_rejected h.toContending hget hmissing
  obtain ⟨t, hall, ht, htwo, hexecutors, hlog⟩ := exists_all_rejected
    (List.range s.executors.length) hu (hrejected.twoMissing hmissing) hrejected.executors
  refine ⟨attempt index ++ attempts s.executors (List.range s.executors.length), ?_, ?_, ?_⟩
  · exact List.append_ne_nil_of_left_ne_nil (List.cons_ne_nil _ _) _
  · rw [runVia_append hfirst]
    refine ⟨t, hall, ⟨ht, ⟨tid, .top⟩, ?_, rfl, htwo tid⟩, hexecutors, ?_⟩
    · rw [hexecutors]
      exact he
    · exact hlog.trans hrejected.executedLog
  · intro p henabled
    obtain ⟨a, ha, hparty⟩ := exists_attempt_of_enabled h.toContending henabled
    exact ⟨a, List.mem_append_right _ ha, hparty⟩

theorem executedLog_prefix_of_step {a : Action} (h : (replay cfg).step s a = some t) :
    s.executedLog <+: t.executedLog :=
  ⟨_, (InterleavedReplay.executedLog_of_step h).symm⟩

/-- From every standoff a fair schedule can go on for ever without executing a record. -/
theorem standoff_endless (h : Standoff cfg s) :
    ∃ run : Run (replay cfg), run.state 0 = s ∧ Fair party run ∧
      ∀ n, (run.state n).executedLog = s.executedLog ∧ ¬Terminated (run.state n) := by
  obtain ⟨run, hstart, hfair, hback⟩ :=
    exists_fair_of_rounds (standoff_rounds cfg s.executors s.executedLog) ⟨h, rfl, rfl⟩
  refine ⟨run, hstart, hfair, fun n => ?_⟩
  obtain ⟨m, hm, hstandoff, -, hlog⟩ := hback n
  have hgrown : ∀ {i j}, i ≤ j → (run.state i).executedLog <+: (run.state j).executedLog :=
    run.related (R := fun s t => s.executedLog <+: t.executedLog)
      (fun _ => List.prefix_refl _) List.IsPrefix.trans executedLog_prefix_of_step
  constructor
  · have hle := (hgrown hm).length_le
    have hge := hgrown (Nat.zero_le n)
    rw [hlog] at hle
    rw [hstart] at hge
    exact (hge.eq_of_length_le hle).symm
  · intro hterm
    have hstays := run.stays (fun a => step_of_terminated hterm a) hm
    exact not_terminated_of_standoff hstandoff (hstays ▸ hterm)

end Rejected

/-- The main thread has executed the `clone`, and the new thread has not moved yet. -/
def childWaits (s : State) : Prop :=
  (s.reader = .done ∧ s.checkModulesFinished nearTrace = true ∧ s.nThreads = 2) ∧
    s.executors = [⟨1, .top⟩, ⟨2, .top⟩] ∧
    (∀ e ∈ s.executors, s.executionHeap e.threadID ≠ []) ∧ (2, none) ∈ s.currentExecutions

instance (s : State) : Decidable (childWaits s) :=
  inferInstanceAs (Decidable (_ ∧ _ ∧ _ ∧ _))

theorem standoff_of_childWaits {s : State} (h : childWaits s) : Standoff nearTrace s := by
  obtain ⟨⟨hreader, hfinished, hthreads⟩, hexecutors, hheaps, hentry⟩ := h
  refine ⟨⟨hreader, hfinished, by omega, fun e he => .inr ⟨?_, hheaps e he⟩⟩,
    ⟨1, .top⟩, ?_, rfl, 2, by decide, hentry⟩
  · rw [hexecutors] at he
    exact (by decide : ∀ e ∈ [(⟨1, .top⟩ : Executor), ⟨2, .top⟩], e.pc = .top) e he
  · rw [hexecutors]
    exact List.mem_cons_self

theorem nearTrace_endless :
    ∃ s, (replay nearTrace).Reachable s ∧ s.executedLog.map Record.uniqueId = [0, 1] ∧
      ∃ run : Run (replay nearTrace), run.state 0 = s ∧ Fair party run ∧
        ∀ n, (run.state n).executedLog = s.executedLog ∧ ¬Terminated (run.state n) := by
  obtain ⟨s, hreach, hs⟩ := (replay nearTrace).exists_reachable
    (List.replicate 14 (.reader 0) ++ List.replicate 8 (.executor 0 0))
    (fun s => decide (childWaits s ∧ s.executedLog.map Record.uniqueId = [0, 1])) (by decide)
  obtain ⟨hwaits, hlog⟩ := of_decide_eq_true hs
  exact ⟨s, hreach, hlog, standoff_endless (standoff_of_childWaits hwaits)⟩

end SyscallReplayer.Livelock
