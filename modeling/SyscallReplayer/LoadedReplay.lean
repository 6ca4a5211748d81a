import SyscallReplayer.ThreadOrder

/-!
# A replay whose records are all loaded

The reader has delivered every row before the executor of the main thread takes
its first step. From there on only executors move, and every pop is timely.
-/

namespace SyscallReplayer.LoadedReplay

open SyscallReplayer.TransitionSystem
open SyscallReplayer.Scheduler
open SyscallReplayer.SchedulerSteps
open SyscallReplayer.ReaderProgress
open SyscallReplayer.RecordConservation
open SyscallReplayer.ThreadOrder

/-- A record that `prepare_replay` may execute. -/
structure FirstRecord (cfg : Config) (c : Copy) : Prop where
  child : c.record.child = none
  pid : c.record.executingPid = cfg.mainThreadID
  least : ∀ r ∈ cfg.records, r.executingPid = cfg.mainThreadID →
    c.record.uniqueId ≤ r.uniqueId

/-- What `prepare_replay` leaves behind: nothing if it found no record of the
main thread. -/
def Prepared (cfg : Config) (log : List Record) (entries : List (Int × Option Copy)) :
    Prop :=
  log = [] ∧ entries = [] ∨
    ∃ c, FirstRecord cfg c ∧ log = [c.record] ∧ entries = [(cfg.mainThreadID, some c)]

/-- Every row is in a heap, and `main` has just started the executor of the
main thread. -/
structure Loaded (cfg : Config) (s : State) : Prop where
  reader : s.reader = .done
  index : ∀ i, i < cfg.replayerIdx → (s.series i).replayerIndex = i
  unread : ∀ i, i < cfg.replayerIdx → (s.series i).unread = []
  finished : ∀ i : Nat, i < cfg.replayerIdx → s.finishedModules i = true
  nThreads : s.nThreads = 1
  executors : s.executors = [⟨cfg.mainThreadID, .top⟩]
  records : (s.executedLog ++ s.queued.map Copy.record).Perm cfg.records
  prepared : Prepared cfg s.executedLog s.currentExecutions

/-- The replay from a given state on. -/
def replayFrom (cfg : Config) (s₀ : State) : System State Action where
  init := s₀
  step := step cfg

/-- Nothing is left to the reader. -/
structure Drained (cfg : Config) (s : State) : Prop where
  reader : s.reader = .done
  index : ∀ i, i < cfg.replayerIdx → (s.series i).replayerIndex = i
  unread : ∀ i, i < cfg.replayerIdx → (s.series i).unread = []
  finished : ∀ i : Nat, i < cfg.replayerIdx → s.finishedModules i = true
  nThreads : 1 ≤ s.nThreads

theorem Loaded.drained {cfg : Config} {s : State} (h : Loaded cfg s) : Drained cfg s :=
  ⟨h.reader, h.index, h.unread, h.finished, h.nThreads.ge⟩

theorem Drained.readerInv {cfg : Config} {s : State} (h : Drained cfg s) :
    ReaderInv cfg s where
  index := h.index
  exhausted i hi _ := h.unread i hi
  nThreads := h.nThreads
  pc := by
    rw [h.reader]
    trivial

theorem Drained.unqueuedRows {cfg : Config} {s : State} (h : Drained cfg s) :
    unqueuedRows cfg s = [] := by
  rw [RecordConservation.unqueuedRows, List.flatMap_eq_nil_iff]
  intro i hi
  have hlt := List.mem_range.mp hi
  rw [unqueued, h.reader, holdsRow, h.finished i hlt, h.unread i hlt]
  rfl

theorem Drained.waiting {cfg : Config} {s : State} (h : Drained cfg s) :
    waiting cfg s = s.queued.map Copy.record := by
  rw [ThreadOrder.waiting, h.unqueuedRows, List.append_nil]

theorem executor_of_step {cfg : Config} {s s' : State} {a : Action}
    (hdone : s.reader = .done) (h : step cfg s a = some s') :
    ∃ index pick, a = .executor index pick := by
  cases a with
  | reader pick =>
      simp only [step, readerStep, hdone] at h
      exact absurd h (Option.some_ne_none _).symm
  | executor index pick => exact ⟨index, pick, rfl⟩

theorem step_drained {cfg : Config} {s s' : State} {a : Action} (hinv : Drained cfg s)
    (h : step cfg s a = some s') : Drained cfg s' := by
  obtain ⟨index, pick, rfl⟩ := executor_of_step hinv.reader h
  cases transition_of_step h with
  | executor index pick e before after he hsplit hexec =>
      obtain ⟨hseries, hfinished, hreader, hthreads⟩ := hexec.frame
      refine ⟨hreader.trans hinv.reader, ?_, ?_, ?_, hinv.nThreads.trans hthreads⟩
      · intro i hi
        exact (congrArg _ (congrFun hseries i)).trans (hinv.index i hi)
      · intro i hi
        exact (congrArg _ (congrFun hseries i)).trans (hinv.unread i hi)
      · intro i hi
        exact (congrFun hfinished i).trans (hinv.finished i hi)

section Runs

variable {cfg : Config} {s₀ s : State} {ok : State → Action → Prop}

theorem reachVia_drained (h₀ : Loaded cfg s₀) (h : (replayFrom cfg s₀).ReachVia ok s) :
    Drained cfg s :=
  h.invariant _ h₀.drained fun _ _ _ _ hinv _ hstep => step_drained hinv hstep

theorem deliveredAhead_of_drained (h : Drained cfg s) (a : Action) :
    DeliveredAhead cfg s a := by
  intro e _ _ r hr
  rw [h.unqueuedRows] at hr
  exact (List.not_mem_nil hr).elim

theorem loaded_accounted (h₀ : Loaded cfg s₀) : (accounted cfg s₀).Perm cfg.records := by
  have hhand : copiesInHand s₀ = [] := by
    rw [copiesInHand, h₀.executors]
    rfl
  rw [accounted, copies, hhand, h₀.drained.unqueuedRows, List.append_nil, List.nil_append]
  exact h₀.records

theorem reachVia_accounted (h₀ : Loaded cfg s₀)
    (h : (replayFrom cfg s₀).ReachVia ok s) : (accounted cfg s).Perm cfg.records :=
  h.invariant _ (loaded_accounted h₀) fun _ _ _ hreach hperm _ hstep =>
    (flow_of_transition (reachVia_drained h₀ hreach).readerInv
      (transition_of_step hstep)).accounted_perm.trans hperm

theorem loaded_executorsInv (h₀ : Loaded cfg s₀) : ExecutorsInv s₀ where
  pid e he c hc := by
    rw [h₀.executors, List.mem_singleton] at he
    rw [he] at hc
    exact absurd hc (Option.some_ne_none c).symm
  distinct := by
    rw [h₀.executors]
    exact List.pairwise_singleton _ _

theorem reachVia_executorsInv (hok : ∀ s a, ok s a → StartsFresh s a)
    (h₀ : Loaded cfg s₀) (h : (replayFrom cfg s₀).ReachVia ok s) : ExecutorsInv s :=
  h.invariant _ (loaded_executorsInv h₀) fun s a _ hreach hinv hstep hs =>
    transition_executorsInv (reachVia_drained h₀ hreach).readerInv hinv (hok s a hstep)
      (transition_of_step hs)

theorem loaded_inOrder (h₀ : Loaded cfg s₀) : InOrder cfg s₀ := by
  have hhand : copiesInHand s₀ = [] := by
    rw [copiesInHand, h₀.executors]
    rfl
  have hwaiting := h₀.drained.waiting
  rcases h₀.prepared with ⟨hlog, _⟩ | ⟨c, hc, hlog, _⟩
  · constructor
    · rw [hlog]
      exact List.Pairwise.nil
    · rw [hlog]
      exact fun _ hr => (List.not_mem_nil hr).elim
    · rw [hlog]
      exact fun _ hr => (List.not_mem_nil hr).elim
    · rw [hhand]
      exact fun _ hc => (List.not_mem_nil hc).elim
    · rw [hhand]
      exact List.Pairwise.nil
  · constructor
    · rw [hlog]
      exact List.pairwise_singleton _ _
    · rw [hhand]
      exact fun _ _ _ hc => (List.not_mem_nil hc).elim
    · rw [hlog, hwaiting]
      intro r hr r' hr' hpid
      rw [List.mem_singleton.mp hr] at hpid ⊢
      refine hc.least r' ?_ (hpid.symm.trans hc.pid)
      exact h₀.records.mem_iff.mp (List.mem_append_right _ hr')
    · rw [hhand]
      exact fun _ hc => (List.not_mem_nil hc).elim
    · rw [hhand]
      exact List.Pairwise.nil

theorem reachVia_inOrder (hok : ∀ s a, ok s a → StartsFresh s a) (h₀ : Loaded cfg s₀)
    (h : (replayFrom cfg s₀).ReachVia ok s) : InOrder cfg s :=
  h.invariant _ (loaded_inOrder h₀) fun _ a _ hreach hinv _ hs =>
    have hdrained := reachVia_drained h₀ hreach
    inOrder_of_flow (reachVia_executorsInv hok h₀ hreach) hinv
      (deliveredAhead_of_drained hdrained a)
      (flow_of_transition hdrained.readerInv (transition_of_step hs))

theorem loaded_lifecycle (h₀ : Loaded cfg s₀) : Lifecycle cfg s₀ where
  main _ := ⟨⟨cfg.mainThreadID, .top⟩, by rw [h₀.executors]; exact List.mem_cons_self, rfl⟩
  started r hr tid hchild := by
    rcases h₀.prepared with ⟨hlog, _⟩ | ⟨c, hc, hlog, _⟩
    · rw [hlog] at hr
      exact (List.not_mem_nil hr).elim
    · rw [hlog, List.mem_singleton] at hr
      rw [hr, hc.child] at hchild
      exact absurd hchild (Option.some_ne_none tid).symm
  ended e he hpc := by
    rw [h₀.executors, List.mem_singleton] at he
    rw [he] at hpc
    rcases hpc with hpc | hpc <;> exact ExecutorPc.noConfusion hpc

theorem reachVia_lifecycle (hok : ∀ s a, ok s a → StartsFresh s a) (h₀ : Loaded cfg s₀)
    (h : (replayFrom cfg s₀).ReachVia ok s) : Lifecycle cfg s :=
  h.invariant _ (loaded_lifecycle h₀) fun _ a _ hreach hinv _ hs =>
    have hdrained := reachVia_drained h₀ hreach
    transition_lifecycle hdrained.readerInv (reachVia_executorsInv hok h₀ hreach) hinv
      (deliveredAhead_of_drained hdrained a) (transition_of_step hs)

end Runs

/-- A step of the reader. -/
def ByReader (_ : State) : Action → Prop
  | .reader _ => True
  | .executor _ _ => False

structure ReaderAlone (cfg : Config) (s : State) : Prop where
  nThreads : s.nThreads = 1
  executors : s.executors =
    if firstBatchOver s.reader then [⟨cfg.mainThreadID, .top⟩] else []
  finished : s.reader = .done → s.checkModulesFinished cfg = true
  fresh : s.reader = .prepare → s.executedLog = [] ∧ s.currentExecutions = []
  prepared : Prepared cfg s.executedLog s.currentExecutions

theorem loadSyscallModules_readerAlone (cfg : Config) :
    ReaderAlone cfg (loadSyscallModules cfg) :=
  ⟨rfl, rfl, by rintro ⟨⟩, fun _ => ⟨rfl, rfl⟩, .inl ⟨rfl, rfl⟩⟩

theorem readerTransition_readerAlone {cfg : Config} {s s' : State}
    (hinv : ReaderAlone cfg s) (h : ReaderTransition cfg s s') : ReaderAlone cfg s' := by
  obtain ⟨hthreads, hexec, hfin, hfresh, hprepared⟩ := hinv
  cases h with
  | prepareEmpty hr =>
      rw [hr] at hexec
      exact ⟨hthreads, hexec, by rintro ⟨⟩, by rintro ⟨⟩, hprepared⟩
  | prepareUmask hr c hc humask hid =>
      obtain ⟨hlog, hcur⟩ := hfresh hr
      obtain ⟨_, hpid, _⟩ := mem_minima.mp hc
      rw [hr] at hexec
      refine ⟨hthreads, hexec, by rintro ⟨⟩, by rintro ⟨⟩, .inr ⟨c, ⟨?_, hpid, ?_⟩, ?_, ?_⟩⟩
      · rw [Record.child, humask]
      · intro r _ _
        rw [hid]
        exact Nat.zero_le _
      · change s.executedLog ++ [c.record] = _
        rw [hlog, List.nil_append]
      · change (c.record.executingPid, some c) :: s.currentExecutions.filter _ = _
        rw [hcur, hpid]
        rfl
  | firstBatchDone b hr htodo hfirst =>
      rw [hr, firstBatchOver, hfirst] at hexec
      refine ⟨hthreads, ?_, by rintro ⟨⟩, by rintro ⟨⟩, hprepared⟩
      change s.executors ++ _ = _
      rw [hexec]
      rfl
  | batchDone b hr htodo hfirst =>
      rw [hr, firstBatchOver, hfirst] at hexec
      exact ⟨hthreads, hexec, by rintro ⟨⟩, by rintro ⟨⟩, hprepared⟩
  | checkDone hr hdone =>
      rw [hr] at hexec
      exact ⟨hthreads, hexec, fun _ => hdone, by rintro ⟨⟩, hprepared⟩
  | spinWait hr => exact ⟨hthreads, hexec, hfin, hfresh, hprepared⟩
  | skip b i rest hr | enterFirst b i rest hr | enterCarry b i rest hr | carry i b hr
  | count c i b count hr | rowsEnd i b hr | rowsFinish i b count hr
  | rowsHold i b r rest hr | rowsPush i b count r rest hr | finish i b hr
  | checkSpin hr | spinBatch hr =>
      rw [hr] at hexec
      exact ⟨hthreads, hexec, by rintro ⟨⟩, by rintro ⟨⟩, hprepared⟩

theorem reachVia_readerAlone {cfg : Config} {s : State}
    (h : (replay cfg).ReachVia ByReader s) : ReaderAlone cfg s :=
  h.invariant _ (loadSyscallModules_readerAlone cfg) fun _ a _ _ hinv hreader hstep => by
    cases transition_of_step hstep with
    | reader pick h => exact readerTransition_readerAlone hinv h
    | executor => exact hreader.elim

/-- A reader that has run to its end before any executor leaves a loaded
replay. -/
theorem loaded_of_reachVia {cfg : Config} {s : State}
    (h : (replay cfg).ReachVia ByReader s) (hdone : s.reader = .done) : Loaded cfg s := by
  obtain ⟨hthreads, hexec, hfin, _, hprepared⟩ := reachVia_readerAlone h
  have hreader := reachable_readerInv h
  have hperm := reachable_accounted h
  have hall : ∀ i : Nat, i < cfg.replayerIdx → s.finishedModules i = true := fun i hi =>
    List.all_eq_true.mp (hfin hdone) i (List.mem_range.mpr hi)
  have hunread : ∀ i, i < cfg.replayerIdx → (s.series i).unread = [] := fun i hi =>
    hreader.exhausted i hi (hall i hi)
  have hdrained : Drained cfg s :=
    ⟨hdone, hreader.index, hunread, hall, hreader.nThreads⟩
  rw [hdone] at hexec
  have hhand : copiesInHand s = [] := by
    rw [copiesInHand, hexec]
    rfl
  rw [accounted, copies, hhand, hdrained.unqueuedRows, List.append_nil,
    List.nil_append] at hperm
  exact ⟨hdone, hreader.index, hunread, hall, hthreads, hexec, hperm, hprepared⟩

end SyscallReplayer.LoadedReplay
