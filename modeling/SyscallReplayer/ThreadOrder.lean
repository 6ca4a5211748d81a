import SyscallReplayer.RecordConservation

/-!
# The order within a thread and the end of an executor

An executor ends as soon as its heap is empty, and pops the least record of its
heap, whatever the reader still has to deliver. A replay whose pops all come
after the reader has delivered the next record of the thread executes every
record once and keeps the order of each thread.
-/

namespace SyscallReplayer.ThreadOrder

open SyscallReplayer.TransitionSystem
open SyscallReplayer.Scheduler
open SyscallReplayer.SchedulerSteps
open SyscallReplayer.ReaderProgress
open SyscallReplayer.RecordConservation

/-- When an executor calls `try_pop`, its heap holds a record at least as early
as any record of its thread that is still unread. -/
def DeliveredAhead (cfg : Config) (s : State) (a : Action) : Prop :=
  ∀ e ∈ actor s a, e.pc = .top → ∀ r ∈ unqueuedRows cfg s,
    r.executingPid = e.threadID →
      ∃ c ∈ s.queued, c.record.executingPid = e.threadID ∧
        c.record.uniqueId ≤ r.uniqueId

def starting : ExecutorPc → Option Int
  | .admitted c => c.record.child
  | _ => none

/-- No thread is started while an executor of the same id is still there. -/
def StartsFresh (s : State) (a : Action) : Prop :=
  ∀ e ∈ actor s a, ∀ tid ∈ starting e.pc, ∀ e' ∈ s.executors,
    e'.threadID = tid → e'.pc = .exited

def Timely (cfg : Config) (s : State) (a : Action) : Prop :=
  DeliveredAhead cfg s a ∧ StartsFresh s a

instance (cfg : Config) (s : State) (a : Action) : Decidable (DeliveredAhead cfg s a) := by
  unfold DeliveredAhead
  infer_instance

instance (s : State) (a : Action) : Decidable (StartsFresh s a) := by
  unfold StartsFresh
  infer_instance

instance (cfg : Config) (s : State) (a : Action) : Decidable (Timely cfg s a) :=
  inferInstanceAs (Decidable (_ ∧ _))

/-- The threads the trace creates from the main thread. -/
inductive Created (cfg : Config) : Int → Prop
  | main : Created cfg cfg.mainThreadID
  | child {r : Record} {tid : Int} (hr : r ∈ cfg.records)
      (hparent : Created cfg r.executingPid) (hchild : r.child = some tid) :
      Created cfg tid

/-- The reader and all executors have ended. -/
def Terminated (s : State) : Prop :=
  s.reader = .done ∧ ∀ e ∈ s.executors, e.pc = .exited

instance (s : State) : Decidable (Terminated s) :=
  inferInstanceAs (Decidable (_ ∧ _))

structure ExecutorsInv (s : State) : Prop where
  pid : ∀ e ∈ s.executors, ∀ c, copyOf e.pc = some c → c.record.executingPid = e.threadID
  distinct : s.executors.Pairwise fun e e' =>
    e.pc ≠ .exited → e'.pc ≠ .exited → e.threadID ≠ e'.threadID

theorem newExecutors_pc {pc : ExecutorPc} {e : Executor} (he : e ∈ newExecutors pc) :
    e.pc = .top ∧ starting pc = some e.threadID := by
  cases pc with
  | admitted c =>
      simp only [newExecutors, spawned] at he
      simp only [starting]
      cases hchild : c.record.child with
      | none => simp [hchild] at he
      | some tid =>
          rw [hchild] at he
          cases List.mem_singleton.mp he
          exact ⟨rfl, rfl⟩
  | _ => cases he

theorem newExecutors_pairwise {R : Executor → Executor → Prop} (pc : ExecutorPc) :
    (newExecutors pc).Pairwise R := by
  cases pc with
  | admitted c =>
      simp only [newExecutors, spawned]
      cases c.record.child with
      | none => exact List.Pairwise.nil
      | some tid => exact List.pairwise_singleton R _
  | _ => exact List.Pairwise.nil

theorem executorTransition_pc_ne_exited {cfg : Config} {s s' : State} {tid : Int}
    {pc pc' : ExecutorPc} (h : ExecutorTransition cfg s tid pc s' pc') : pc ≠ .exited := by
  cases h <;> exact fun heq => nomatch heq

theorem transition_executorsInv {cfg : Config} {s s' : State} {a : Action}
    (hreader : ReaderInv cfg s) (hinv : ExecutorsInv s) (hfresh : StartsFresh s a)
    (h : Transition cfg s a s') : ExecutorsInv s' := by
  cases h with
  | reader pick h =>
      have hpc := hreader.pc
      cases h with
      | firstBatchDone b hr htodo hfirst =>
          rw [hr] at hpc
          have hempty := (hpc.first hfirst).executors
          refine ⟨?_, ?_⟩
          · intro e he c hc
            simp only [hempty, List.nil_append, List.mem_singleton] at he
            subst he
            cases hc
          · simp [hempty]
      | _ => exact ⟨hinv.pid, hinv.distinct⟩
  | executor index pick e before after he hsplit h =>
      have hmem : e ∈ s.executors := by simp [hsplit]
      obtain ⟨hpid, hdistinct⟩ := hinv
      refine ⟨?_, ?_⟩
      · intro e' he' c hc
        simp only [List.mem_append, List.mem_cons] at he'
        rcases he' with he' | rfl | he' | he'
        · exact hpid e' (by simp [hsplit, he']) c hc
        · rcases copyOf_of_executorTransition h hc with hc | hc
          · exact hpid e hmem c hc
          · exact (mem_minima.mp hc).2.1
        · exact hpid e' (by simp [hsplit, he']) c hc
        · rw [(newExecutors_pc he').1] at hc
          cases hc
      · have hlive := executorTransition_pc_ne_exited h
        rw [hsplit, List.pairwise_append, List.pairwise_cons] at hdistinct
        obtain ⟨hbefore, ⟨hhead, hafter⟩, hcross⟩ := hdistinct
        have hnew : ∀ e' ∈ s.executors, e'.pc ≠ .exited → ∀ e'' ∈ newExecutors e.pc,
            e'.threadID ≠ e''.threadID := by
          intro e' he' hlive' e'' he'' heq
          exact hlive' (hfresh e he _ (newExecutors_pc he'').2 e' he' heq)
        refine List.pairwise_append.mpr ⟨hbefore, List.pairwise_cons.mpr ⟨?_, ?_⟩, ?_⟩
        · intro e' he' _ hlive'
          rcases List.mem_append.mp he' with he' | he'
          · exact hhead e' he' hlive hlive'
          · exact hnew e hmem hlive e' he'
        · refine List.pairwise_append.mpr ⟨hafter, newExecutors_pairwise _, ?_⟩
          intro e' he' e'' he'' hlive' _
          exact hnew e' (by simp [hsplit, he']) hlive' e'' he''
        · intro e' he' e'' he'' hlive' hlive''
          simp only [List.mem_cons, List.mem_append] at he''
          rcases he'' with rfl | he'' | he''
          · exact hcross e' he' e (by simp) hlive' hlive
          · exact hcross e' he' e'' (by simp [he'']) hlive' hlive''
          · exact hnew e' (by simp [hsplit, he']) hlive' e'' he''

theorem loadSyscallModules_executorsInv (cfg : Config) :
    ExecutorsInv (loadSyscallModules cfg) :=
  ⟨fun _ he => (List.not_mem_nil he).elim, List.Pairwise.nil⟩

theorem reachable_executorsInv {cfg : Config} {ok : State → Action → Prop} {s : State}
    (h : (replay cfg).ReachVia ok s) (hok : ∀ s a, ok s a → StartsFresh s a) :
    ExecutorsInv s :=
  h.invariant _ (loadSyscallModules_executorsInv cfg) fun s a _ hreach hinv hstep hs =>
    transition_executorsInv (reachable_readerInv hreach) hinv (hok s a hstep)
      (transition_of_step hs)

theorem ExecutorsInv.eq_of_threadID {s : State} (hinv : ExecutorsInv s)
    {e e' : Executor} (he : e ∈ s.executors) (he' : e' ∈ s.executors)
    (hlive : e.pc ≠ .exited) (hlive' : e'.pc ≠ .exited)
    (htid : e.threadID = e'.threadID) : e = e' := by
  by_contra hne
  have hsymm : Std.Symm fun e e' : Executor =>
      e.pc ≠ .exited → e'.pc ≠ .exited → e.threadID ≠ e'.threadID :=
    ⟨fun _ _ h hlive hlive' htid => h hlive' hlive htid.symm⟩
  exact hinv.distinct.forall he he' hne hlive hlive' htid

theorem mem_of_actor {s : State} {a : Action} {e : Executor} (he : actor s a = some e) :
    e ∈ s.executors := by
  cases a with
  | reader pick => cases he
  | executor index pick => exact List.mem_of_getElem? he

theorem mem_copiesInHand {s : State} {c : Copy} :
    c ∈ copiesInHand s ↔ ∃ e ∈ s.executors, inHand e.pc = some c := by
  simp [copiesInHand, held]

theorem live_of_inHand {pc : ExecutorPc} {c : Copy} (h : inHand pc = some c) :
    pc ≠ .exited := by
  rintro rfl
  cases h

/-- Nobody else holds a record of a thread whose executor is not exited. -/
theorem ExecutorsInv.not_inHand {s : State} (hinv : ExecutorsInv s) {e : Executor}
    (he : e ∈ s.executors) (hlive : e.pc ≠ .exited) (hnone : inHand e.pc = none)
    {c : Copy} (hc : c ∈ copiesInHand s) : c.record.executingPid ≠ e.threadID := by
  intro hpid
  obtain ⟨e', he', hhand⟩ := mem_copiesInHand.mp hc
  have htid := (hinv.pid e' he' c (copyOf_of_inHand hhand)).symm.trans hpid
  have heq := hinv.eq_of_threadID he' he (live_of_inHand hhand) hlive htid
  rw [heq, hnone] at hhand
  cases hhand

def waiting (cfg : Config) (s : State) : List Record :=
  s.queued.map Copy.record ++ unqueuedRows cfg s

/-- `a` may run before `b`: they belong to different threads or `a` has the
smaller id. -/
def Before (a b : Record) : Prop :=
  a.executingPid = b.executingPid → a.uniqueId ≤ b.uniqueId

structure InOrder (cfg : Config) (s : State) : Prop where
  log : s.executedLog.Pairwise Before
  logHand : ∀ r ∈ s.executedLog, ∀ c ∈ copiesInHand s, Before r c.record
  logWaiting : ∀ r ∈ s.executedLog, ∀ r' ∈ waiting cfg s, Before r r'
  hand : ∀ c ∈ copiesInHand s, ∀ r ∈ waiting cfg s, Before c.record r
  single : (copiesInHand s).Pairwise fun c c' =>
    c.record.executingPid ≠ c'.record.executingPid

theorem waiting_subset_of_queue {cfg : Config} {s s' : State}
    (hqueued : ∀ c ∈ s'.queued, c ∈ s.queued)
    (hrows : ∀ i < cfg.replayerIdx, unqueued s' i = unqueued s i) {r : Record}
    (hr : r ∈ waiting cfg s') : r ∈ waiting cfg s := by
  simp only [waiting, unqueuedRows_congr hrows, List.mem_append, List.mem_map] at hr ⊢
  rcases hr with ⟨c, hc, rfl⟩ | hr
  · exact .inl ⟨c, hqueued c hc, rfl⟩
  · exact .inr hr

theorem waiting_subset_of_deliver {cfg : Config} {s s' : State} {i : Nat} {c : Copy}
    (hi : i < cfg.replayerIdx) (hqueued : s'.queued = s.queued ++ [c])
    (hcons : unqueued s i = c.record :: unqueued s' i)
    (hother : ∀ j, j ≠ i → unqueued s' j = unqueued s j) {r : Record}
    (hr : r ∈ waiting cfg s') : r ∈ waiting cfg s := by
  have hperm := unqueuedRows_deliver hi hcons hother
  simp only [waiting, hqueued, List.map_append, List.mem_append, hperm.mem_iff,
    List.mem_cons, List.map_cons, List.map_nil, List.not_mem_nil, or_false] at hr ⊢
  rcases hr with (hr | hr) | hr
  · exact .inl hr
  · exact .inr (.inl hr)
  · exact .inr (.inr hr)

theorem pairwise_single_perm {l l' : List Copy} (hperm : l.Perm l') :
    (l.Pairwise fun c c' => c.record.executingPid ≠ c'.record.executingPid) ↔
      l'.Pairwise fun c c' => c.record.executingPid ≠ c'.record.executingPid :=
  hperm.pairwise_iff fun h => h.symm

theorem InOrder.waiting_subset {cfg : Config} {s s' : State} (hinv : InOrder cfg s)
    (hlog : s'.executedLog = s.executedLog) (hhand : copiesInHand s' = copiesInHand s)
    (hsub : ∀ r ∈ waiting cfg s', r ∈ waiting cfg s) : InOrder cfg s' where
  log := hlog ▸ hinv.log
  logHand := hlog ▸ hhand ▸ hinv.logHand
  logWaiting := by
    rw [hlog]
    exact fun r hr r' hr' => hinv.logWaiting r hr r' (hsub r' hr')
  hand := by
    rw [hhand]
    exact fun c hc r hr => hinv.hand c hc r (hsub r hr)
  single := hhand ▸ hinv.single

theorem InOrder.log_append {cfg : Config} {s : State} (hinv : InOrder cfg s) {r : Record}
    (hr : ∀ r' ∈ s.executedLog, Before r' r) : (s.executedLog ++ [r]).Pairwise Before := by
  rw [List.pairwise_append]
  refine ⟨hinv.log, List.pairwise_singleton _ _, ?_⟩
  intro r₁ hr₁ r₂ hr₂
  rw [List.mem_singleton.mp hr₂]
  exact hr r₁ hr₁

theorem inOrder_of_flow {cfg : Config} {s s' : State} {a : Action}
    (hexec : ExecutorsInv s) (hinv : InOrder cfg s) (hahead : DeliveredAhead cfg s a)
    (h : Flow cfg s a s') : InOrder cfg s' := by
  cases h with
  | quiet hlog hhand hqueued hrows =>
      apply hinv.waiting_subset hlog hhand
      exact fun _ => waiting_subset_of_queue (fun c hc => hqueued ▸ hc) hrows
  | deliver i c hi _ hlog hhand hqueued hcons hother =>
      apply hinv.waiting_subset hlog hhand
      exact fun _ => waiting_subset_of_deliver hi hqueued hcons hother
  | prepare c hc _ hid hlog hhand hqueued hnoExec hrows =>
      have hsub : ∀ r ∈ waiting cfg s', r ∈ waiting cfg s := fun _ =>
        waiting_subset_of_queue (fun c hc => List.mem_of_mem_erase (hqueued ▸ hc)) hrows
      have hempty : copiesInHand s = [] := by simp [copiesInHand, held, hnoExec]
      have hleast : ∀ r, Before c.record r := fun r _ => by omega
      have hmem : c.record ∈ waiting cfg s := by
        simp only [waiting, List.mem_append, List.mem_map]
        exact .inl ⟨c, mem_queued_of_mem_minima hc, rfl⟩
      rw [hempty] at hhand
      refine ⟨?_, ?_, ?_, ?_, ?_⟩
      · rw [hlog]
        exact hinv.log_append fun r hr => hinv.logWaiting r hr _ hmem
      · simp [hhand]
      · intro r hr r' hr'
        rw [hlog, List.mem_append, List.mem_singleton] at hr
        rcases hr with hr | rfl
        · exact hinv.logWaiting r hr r' (hsub r' hr')
        · exact hleast r'
      · simp [hhand]
      · rw [hhand]
        exact List.Pairwise.nil
  | pop e c he hpc hc hlog hhand hqueued hrows =>
      have hsub : ∀ r ∈ waiting cfg s', r ∈ waiting cfg s := fun _ =>
        waiting_subset_of_queue (fun c hc => List.mem_of_mem_erase (hqueued ▸ hc)) hrows
      obtain ⟨hmem, hpid, hmin⟩ := mem_minima.mp hc
      have hleast : ∀ r ∈ waiting cfg s, Before c.record r := by
        intro r hr hsame
        simp only [waiting, List.mem_append, List.mem_map] at hr
        rcases hr with ⟨c', hc', rfl⟩ | hr
        · exact hmin c' hc' (hsame.symm.trans hpid)
        · obtain ⟨c', hc', hpid', hle⟩ :=
            hahead e he hpc r hr (hsame.symm.trans hpid)
          exact le_trans (hmin c' hc' hpid') hle
      refine ⟨hlog ▸ hinv.log, ?_, ?_, ?_, ?_⟩
      · intro r hr c' hc'
        rw [hlog] at hr
        rcases List.mem_cons.mp (hhand.mem_iff.mp hc') with rfl | hc'
        · refine hinv.logWaiting r hr _ ?_
          simp only [waiting, List.mem_append, List.mem_map]
          exact .inl ⟨c', hmem, rfl⟩
        · exact hinv.logHand r hr c' hc'
      · rw [hlog]
        exact fun r hr r' hr' => hinv.logWaiting r hr r' (hsub r' hr')
      · intro c' hc' r hr
        rcases List.mem_cons.mp (hhand.mem_iff.mp hc') with rfl | hc'
        · exact hleast r (hsub r hr)
        · exact hinv.hand c' hc' r (hsub r hr)
      · refine (pairwise_single_perm hhand).mpr (List.pairwise_cons.mpr ⟨?_, hinv.single⟩)
        intro c' hc' heq
        refine hexec.not_inHand (mem_of_actor he) ?_ ?_ hc' (heq.symm.trans hpid)
        · rw [hpc]
          rintro ⟨⟩
        · rw [hpc]
          rfl
  | repush e c he hpc hlog hhand hqueued hrows =>
      have hsingle' := (pairwise_single_perm hhand).mp hinv.single
      have hother := (List.pairwise_cons.mp hsingle').1
      have hsub : ∀ r ∈ waiting cfg s', r ∈ waiting cfg s ∨ r = c.record := by
        intro r hr
        simp only [waiting, hqueued, unqueuedRows_congr hrows, List.map_append,
          List.map_cons, List.map_nil, List.mem_append, List.mem_cons,
          List.not_mem_nil, or_false] at hr ⊢
        rcases hr with (hr | hr) | hr
        · exact .inl (.inl hr)
        · exact .inr hr
        · exact .inl (.inr hr)
      refine ⟨hlog ▸ hinv.log, ?_, ?_, ?_, (List.pairwise_cons.mp hsingle').2⟩
      · intro r hr c' hc'
        rw [hlog] at hr
        exact hinv.logHand r hr c' (hhand.mem_iff.mpr (List.mem_cons_of_mem _ hc'))
      · intro r hr r' hr'
        rw [hlog] at hr
        rcases hsub r' hr' with hr' | rfl
        · exact hinv.logWaiting r hr r' hr'
        · exact hinv.logHand r hr c (hhand.mem_iff.mpr List.mem_cons_self)
      · intro c' hc' r hr
        rcases hsub r hr with hr | rfl
        · exact hinv.hand c' (hhand.mem_iff.mpr (List.mem_cons_of_mem _ hc')) r hr
        · exact fun hsame => (hother c' hc' hsame.symm).elim
  | execute e c he hpc hlog hhand hqueued hrows =>
      have hsingle' := (pairwise_single_perm hhand).mp hinv.single
      have hother := (List.pairwise_cons.mp hsingle').1
      have hmem : c ∈ copiesInHand s := hhand.mem_iff.mpr List.mem_cons_self
      have hsub : ∀ r ∈ waiting cfg s', r ∈ waiting cfg s := fun _ =>
        waiting_subset_of_queue (fun c hc => hqueued ▸ hc) hrows
      refine ⟨?_, ?_, ?_, ?_, (List.pairwise_cons.mp hsingle').2⟩
      · rw [hlog]
        exact hinv.log_append fun r hr => hinv.logHand r hr c hmem
      · intro r hr c' hc'
        rw [hlog, List.mem_append, List.mem_singleton] at hr
        rcases hr with hr | rfl
        · exact hinv.logHand r hr c' (hhand.mem_iff.mpr (List.mem_cons_of_mem _ hc'))
        · exact fun hsame => (hother c' hc' hsame).elim
      · intro r hr r' hr'
        rw [hlog, List.mem_append, List.mem_singleton] at hr
        rcases hr with hr | rfl
        · exact hinv.logWaiting r hr r' (hsub r' hr')
        · exact hinv.hand c hmem r' (hsub r' hr')
      · intro c' hc' r hr
        exact hinv.hand c' (hhand.mem_iff.mpr (List.mem_cons_of_mem _ hc')) r (hsub r hr)

theorem loadSyscallModules_inOrder (cfg : Config) :
    InOrder cfg (loadSyscallModules cfg) where
  log := List.Pairwise.nil
  logHand _ hr := (List.not_mem_nil hr).elim
  logWaiting _ hr := (List.not_mem_nil hr).elim
  hand _ hc := (List.not_mem_nil hc).elim
  single := List.Pairwise.nil

theorem reachable_inOrder {cfg : Config} {ok : State → Action → Prop} {s : State}
    (h : (replay cfg).ReachVia ok s) (hok : ∀ s a, ok s a → Timely cfg s a) :
    InOrder cfg s :=
  h.invariant _ (loadSyscallModules_inOrder cfg) fun s a _ hreach hinv hstep hs =>
    inOrder_of_flow (reachable_executorsInv hreach fun s a h => (hok s a h).2) hinv
      (hok s a hstep).1
      (flow_of_transition (reachable_readerInv hreach) (transition_of_step hs))

def Pending (cfg : Config) (s : State) (r : Record) : Prop :=
  (∃ c ∈ copiesInHand s, c.record = r) ∨ r ∈ waiting cfg s

theorem pending_of_flow {cfg : Config} {s s' : State} {a : Action} {r : Record}
    (h : Flow cfg s a s') (hr : Pending cfg s' r) : Pending cfg s r := by
  cases h with
  | quiet hlog hhand hqueued hrows =>
      refine hr.imp (fun h => hhand ▸ h) fun h => ?_
      exact waiting_subset_of_queue (fun c hc => hqueued ▸ hc) hrows h
  | deliver i c hi _ hlog hhand hqueued hcons hother =>
      refine hr.imp (fun h => hhand ▸ h) fun h => ?_
      exact waiting_subset_of_deliver hi hqueued hcons hother h
  | prepare c hc _ _ hlog hhand hqueued _ hrows =>
      refine hr.imp (fun h => hhand ▸ h) fun h => ?_
      exact waiting_subset_of_queue (fun c hc => List.mem_of_mem_erase (hqueued ▸ hc))
        hrows h
  | pop e c _ _ hc hlog hhand hqueued hrows =>
      rcases hr with ⟨c', hc', rfl⟩ | hr
      · rcases List.mem_cons.mp (hhand.mem_iff.mp hc') with rfl | hc'
        · refine .inr (List.mem_append_left _ ?_)
          exact List.mem_map_of_mem (mem_queued_of_mem_minima hc)
        · exact .inl ⟨c', hc', rfl⟩
      · refine .inr (waiting_subset_of_queue ?_ hrows hr)
        exact fun c hc => List.mem_of_mem_erase (hqueued ▸ hc)
  | repush e c _ _ hlog hhand hqueued hrows =>
      rcases hr with ⟨c', hc', rfl⟩ | hr
      · exact .inl ⟨c', hhand.mem_iff.mpr (List.mem_cons_of_mem _ hc'), rfl⟩
      · simp only [waiting, hqueued, unqueuedRows_congr hrows, List.map_append,
          List.map_cons, List.map_nil, List.mem_append, List.mem_cons,
          List.not_mem_nil, or_false] at hr
        rcases hr with (hr | rfl) | hr
        · exact .inr (List.mem_append_left _ hr)
        · exact .inl ⟨c, hhand.mem_iff.mpr List.mem_cons_self, rfl⟩
        · exact .inr (List.mem_append_right _ hr)
  | execute e c _ _ hlog hhand hqueued hrows =>
      rcases hr with ⟨c', hc', rfl⟩ | hr
      · exact .inl ⟨c', hhand.mem_iff.mpr (List.mem_cons_of_mem _ hc'), rfl⟩
      · exact .inr (waiting_subset_of_queue (fun c hc => hqueued ▸ hc) hrows hr)

def firstBatchOver : ReaderPc → Bool
  | .prepare => false
  | .modules b | .carry _ b | .rows _ b _ | .counting _ _ b _ | .finishing _ b =>
      !b.isFirstTime
  | .check | .spin | .done => true

structure Lifecycle (cfg : Config) (s : State) : Prop where
  main : firstBatchOver s.reader = true →
    ∃ e ∈ s.executors, e.threadID = cfg.mainThreadID
  started : ∀ r ∈ s.executedLog, ∀ tid, r.child = some tid →
    ∃ e ∈ s.executors, e.threadID = tid
  ended : ∀ e ∈ s.executors, e.pc = .leaving ∨ e.pc = .exited →
    ∀ r, Pending cfg s r → r.executingPid ≠ e.threadID

theorem transition_keeps_threadID {cfg : Config} {s s' : State} {a : Action}
    (h : Transition cfg s a s') {tid : Int} (he : ∃ e ∈ s.executors, e.threadID = tid) :
    ∃ e ∈ s'.executors, e.threadID = tid := by
  obtain ⟨e, he, rfl⟩ := he
  cases h with
  | reader pick h =>
      cases h with
      | firstBatchDone => exact ⟨e, List.mem_append_left _ he, rfl⟩
      | _ => exact ⟨e, he, rfl⟩
  | @executor t pc' index pick e' before after _ hsplit h =>
      rw [hsplit, List.mem_append, List.mem_cons] at he
      rcases he with he | rfl | he
      · exact ⟨e, by simp [he], rfl⟩
      · exact ⟨⟨e.threadID, pc'⟩, by simp, rfl⟩
      · exact ⟨e, by simp [he], rfl⟩

theorem firstBatchOver_of_readerTransition {cfg : Config} {s s' : State}
    (h : ReaderTransition cfg s s') (hover : firstBatchOver s'.reader = true) :
    firstBatchOver s.reader = true ∨
      ∃ e ∈ s'.executors, e.threadID = cfg.mainThreadID := by
  cases h with
  | prepareEmpty => cases hover
  | prepareUmask => cases hover
  | firstBatchDone =>
      exact .inr ⟨⟨cfg.mainThreadID, .top⟩, by simp, rfl⟩
  | batchDone b hr htodo hfirst => exact .inl (by rw [hr]; simp [firstBatchOver, hfirst])
  | skip b i rest hr => exact .inl (by rw [hr]; exact hover)
  | enterFirst b i rest hr => exact .inl (by rw [hr]; exact hover)
  | enterCarry b i rest hr => exact .inl (by rw [hr]; exact hover)
  | carry i b hr => exact .inl (by rw [hr]; exact hover)
  | count c i b count hr => exact .inl (by rw [hr]; exact hover)
  | rowsEnd i b hr => exact .inl (by rw [hr]; exact hover)
  | rowsFinish i b count hr => exact .inl (by rw [hr]; exact hover)
  | rowsHold i b r rest hr => exact .inl (by rw [hr]; exact hover)
  | rowsPush i b count r rest hr => exact .inl (by rw [hr]; exact hover)
  | finish i b hr => exact .inl (by rw [hr]; exact hover)
  | checkDone hr => exact .inl (by rw [hr]; rfl)
  | checkSpin hr => exact .inl (by rw [hr]; rfl)
  | spinWait hr => exact .inl hover
  | spinBatch hr => exact .inl (by rw [hr]; rfl)

theorem started_of_transition {cfg : Config} {s s' : State} {a : Action}
    (hinv : Lifecycle cfg s) (hflow : Flow cfg s a s') (h : Transition cfg s a s')
    {r : Record} (hr : r ∈ s'.executedLog) {tid : Int} (hchild : r.child = some tid) :
    ∃ e ∈ s'.executors, e.threadID = tid := by
  have hold : r ∈ s.executedLog → ∃ e ∈ s'.executors, e.threadID = tid := fun hr =>
    transition_keeps_threadID h (hinv.started r hr tid hchild)
  cases hflow with
  | quiet hlog => exact hold (hlog ▸ hr)
  | deliver i c _ _ hlog => exact hold (hlog ▸ hr)
  | pop e c _ _ _ hlog => exact hold (hlog ▸ hr)
  | repush e c _ _ hlog => exact hold (hlog ▸ hr)
  | prepare c hc hnone _ hlog =>
      rw [hlog, List.mem_append, List.mem_singleton] at hr
      rcases hr with hr | rfl
      · exact hold hr
      · rw [hnone] at hchild
        cases hchild
  | execute e c he hpc hlog =>
      rw [hlog, List.mem_append, List.mem_singleton] at hr
      rcases hr with hr | rfl
      · exact hold hr
      · cases h with
        | reader pick h => cases he
        | executor index pick e' before after he' hsplit h =>
            cases he.symm.trans he'
            refine ⟨⟨tid, .top⟩, ?_, rfl⟩
            simp [hpc, newExecutors, spawned, hchild]

theorem ended_of_transition {cfg : Config} {s s' : State} {a : Action}
    (hreader : ReaderInv cfg s) (hexec : ExecutorsInv s) (hinv : Lifecycle cfg s)
    (hahead : DeliveredAhead cfg s a) (h : Transition cfg s a s') {e : Executor}
    (he : e ∈ s'.executors) (hpc : e.pc = .leaving ∨ e.pc = .exited) {r : Record}
    (hr : Pending cfg s' r) : r.executingPid ≠ e.threadID := by
  have hpending := pending_of_flow (flow_of_transition hreader h) hr
  cases h with
  | reader pick h =>
      cases h with
      | firstBatchDone =>
          rcases List.mem_append.mp he with he | he
          · exact hinv.ended e he hpc r hpending
          · rw [List.mem_singleton.mp he] at hpc
            rcases hpc with hpc | hpc <;> cases hpc
      | _ => exact hinv.ended e he hpc r hpending
  | executor index pick e' before after he' hsplit h =>
      simp only [List.mem_append, List.mem_cons] at he
      rcases he with he | rfl | he | he
      · exact hinv.ended e (by simp [hsplit, he]) hpc r hpending
      · have hmem : e' ∈ s.executors := by simp [hsplit]
        obtain ⟨tid, pc⟩ := e'
        cases h with
        | leave hempty =>
            have hheap := executionHeap_eq_nil.mp hempty
            rcases hpending with ⟨c, hc, rfl⟩ | hwaiting
            · exact hexec.not_inHand hmem (fun h => nomatch h) rfl hc
            · intro hpid
              simp only [waiting, List.mem_append, List.mem_map] at hwaiting
              rcases hwaiting with ⟨c, hc, rfl⟩ | hrow
              · exact hheap c hc hpid
              · obtain ⟨c, hc, hpid', _⟩ := hahead _ he' rfl r hrow hpid
                exact hheap c hc hpid'
        | unregister => exact hinv.ended _ hmem (.inl rfl) r hpending
        | _ => rcases hpc with hpc | hpc <;> cases hpc
      · exact hinv.ended e (by simp [hsplit, he]) hpc r hpending
      · rw [(newExecutors_pc he).1] at hpc
        rcases hpc with hpc | hpc <;> cases hpc

theorem transition_lifecycle {cfg : Config} {s s' : State} {a : Action}
    (hreader : ReaderInv cfg s) (hexec : ExecutorsInv s) (hinv : Lifecycle cfg s)
    (hahead : DeliveredAhead cfg s a) (h : Transition cfg s a s') : Lifecycle cfg s' where
  main hover := by
    cases h with
    | reader pick h =>
        rcases firstBatchOver_of_readerTransition h hover with hover | hmain
        · exact transition_keeps_threadID (.reader pick h) (hinv.main hover)
        · exact hmain
    | executor index pick e before after he hsplit h =>
        rw [h.frame.2.2.1] at hover
        exact transition_keeps_threadID (.executor index pick e before after he hsplit h)
          (hinv.main hover)
  started _ hr _ hchild :=
    started_of_transition hinv (flow_of_transition hreader h) h hr hchild
  ended _ he hpc _ hr := ended_of_transition hreader hexec hinv hahead h he hpc hr

theorem loadSyscallModules_lifecycle (cfg : Config) :
    Lifecycle cfg (loadSyscallModules cfg) where
  main hover := nomatch hover
  started _ hr := (List.not_mem_nil hr).elim
  ended _ he := (List.not_mem_nil he).elim

theorem reachable_lifecycle {cfg : Config} {ok : State → Action → Prop} {s : State}
    (h : (replay cfg).ReachVia ok s) (hok : ∀ s a, ok s a → Timely cfg s a) :
    Lifecycle cfg s :=
  h.invariant _ (loadSyscallModules_lifecycle cfg) fun s a _ hreach hinv hstep hs =>
    transition_lifecycle (reachable_readerInv hreach)
      (reachable_executorsInv hreach fun s a h => (hok s a h).2) hinv (hok s a hstep).1
      (transition_of_step hs)

theorem mem_records {cfg : Config} {s : State}
    (hperm : (accounted cfg s).Perm cfg.records) {r : Record} :
    r ∈ cfg.records ↔ r ∈ s.executedLog ∨ Pending cfg s r := by
  rw [← hperm.mem_iff]
  simp only [accounted, copies, Pending, waiting, List.map_append, List.mem_append,
    List.mem_map, or_assoc]

/-- At the end nothing of a created thread is left. -/
theorem not_pending_of_terminated {cfg : Config} {s : State}
    (hperm : (accounted cfg s).Perm cfg.records) (hinv : Lifecycle cfg s)
    (hterm : Terminated s) {tid : Int} (htid : Created cfg tid) {r : Record}
    (hr : Pending cfg s r) : r.executingPid ≠ tid := by
  have hthread : ∃ e ∈ s.executors, e.threadID = tid := by
    induction htid generalizing r with
    | main => exact hinv.main (by rw [hterm.1]; rfl)
    | @child p tid hp _ hchild ih =>
        refine hinv.started p ?_ tid hchild
        rcases (mem_records hperm).mp hp with hlog | hpending
        · exact hlog
        · obtain ⟨e, he, htid⟩ := ih hpending
          exact absurd htid.symm
            (hinv.ended e he (.inr (hterm.2 e he)) p hpending)
  obtain ⟨e, he, rfl⟩ := hthread
  exact hinv.ended e he (.inr (hterm.2 e he)) r hr

theorem executedLog_perm_of_not_pending {cfg : Config} {s : State}
    (hperm : (accounted cfg s).Perm cfg.records) (hnone : ∀ r, ¬Pending cfg s r) :
    s.executedLog.Perm cfg.records := by
  have hcopies : copies s = [] := by
    refine List.eq_nil_iff_forall_not_mem.mpr fun c hc => ?_
    rcases List.mem_append.mp hc with hc | hc
    · exact hnone c.record (.inl ⟨c, hc, rfl⟩)
    · exact hnone c.record (.inr (List.mem_append_left _ (List.mem_map_of_mem hc)))
  have hrows : unqueuedRows cfg s = [] :=
    List.eq_nil_iff_forall_not_mem.mpr fun r hr =>
      hnone r (.inr (List.mem_append_right _ hr))
  simpa [accounted, hcopies, hrows] using hperm

theorem executedLog_perm_of_terminated {cfg : Config}
    (hcreated : ∀ r ∈ cfg.records, Created cfg r.executingPid) {s : State}
    (hreach : (replay cfg).ReachVia (Timely cfg) s) (hterm : Terminated s) :
    s.executedLog.Perm cfg.records := by
  have hperm := reachable_accounted hreach
  have hinv := reachable_lifecycle hreach fun _ _ h => h
  refine executedLog_perm_of_not_pending hperm fun r hr => ?_
  have hmem := (mem_records hperm).mpr (.inr hr)
  exact not_pending_of_terminated hperm hinv hterm (hcreated r hmem) hr rfl

theorem executedLog_sorted {cfg : Config} {s : State}
    (hreach : (replay cfg).ReachVia (Timely cfg) s) (tid : Int) :
    ((s.executedLog.filter fun r => r.executingPid = tid).map
      Record.uniqueId).Pairwise (· ≤ ·) := by
  have horder := (reachable_inOrder hreach fun _ _ h => h).log
  rw [List.pairwise_map]
  refine (horder.filter _).imp_of_mem fun {r r'} hr hr' hbefore => hbefore ?_
  simp only [List.mem_filter, decide_eq_true_eq] at hr hr'
  exact hr.2.trans hr'.2.symm

/-- Two threads with one record each after the `clone`, with ids near to it. The
first batch loads all of them. -/
def nearTrace : Config where
  modules :=
    [[⟨.umask, 0, 1, 0, 1, 0⟩], [⟨.clone, 1, 1, 2, 3, 2⟩],
      [⟨.read, 2, 2, 4, 5, 0⟩, ⟨.read, 3, 1, 6, 7, 0⟩]]
  order := [0, 1, 2]
  uninitialised i := i
  modules_nonempty := by simp
  order_perm := by decide

end SyscallReplayer.ThreadOrder
