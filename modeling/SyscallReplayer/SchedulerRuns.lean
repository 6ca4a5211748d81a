import SyscallReplayer.SchedulerSteps

/-!
# Stretches of a run

One turn of an executor through its loop, and the rows that a batch reads from
one module, each as a sequence of steps of which only the end matters.
-/

namespace SyscallReplayer.SchedulerRuns

open SyscallReplayer.CInt
open SyscallReplayer.TransitionSystem
open SyscallReplayer.Scheduler
open SyscallReplayer.SchedulerSteps

def Runs (cfg : Config) : State → State → Prop :=
  Relation.ReflTransGen (replay cfg).Fires

theorem runs_of_readerStep {cfg : Config} {s s' : State} {pick : Nat}
    (h : readerStep cfg s pick = some s') : Runs cfg s s' :=
  .single ⟨.reader pick, h⟩

theorem getElem?_setPc {l : List Executor} {index : Nat} {tid : Int} {pc : ExecutorPc}
    (hget : l[index]? = some ⟨tid, pc⟩) (pc' : ExecutorPc) :
    (setPc l index pc')[index]? = some ⟨tid, pc'⟩ := by
  simp [setPc, hget]

theorem setPc_setPc (l : List Executor) (index : Nat) (pc pc' : ExecutorPc) :
    setPc (setPc l index pc) index pc' = setPc l index pc' := by
  refine List.ext_getElem? fun i => ?_
  by_cases hi : index = i
  · subst hi
    cases hget : l[index]? <;> simp [setPc, hget]
  · simp [setPc, hi]

theorem setPc_self {l : List Executor} {index : Nat} {tid : Int} {pc : ExecutorPc}
    (hget : l[index]? = some ⟨tid, pc⟩) : setPc l index pc = l := by
  refine List.ext_getElem? fun i => ?_
  by_cases hi : index = i
  · subst hi
    simp [setPc, hget]
  · simp [setPc, hi]

theorem runs_of_executorStep {cfg : Config} {s s' : State} (index pick : Nat) {tid : Int}
    {pc pc' : ExecutorPc} (hget : s.executors[index]? = some ⟨tid, pc⟩)
    (h : executorStep cfg s tid pc pick = some (s', pc')) :
    Runs cfg s { s' with executors := setPc s'.executors index pc' } := by
  refine .single ⟨.executor index pick, ?_⟩
  change step cfg s (.executor index pick) = _
  simp only [step, hget, h, Option.map_some]

theorem minima_head {s : State} {c : Copy} {l : List Copy} (hqueued : s.queued = c :: l)
    (hleast : ∀ c' ∈ l, c.record.uniqueId ≤ c'.record.uniqueId) :
    (s.minima c.record.executingPid)[0]? = some c := by
  have hheap : s.executionHeap c.record.executingPid =
      c :: l.filter fun c' => c'.record.executingPid = c.record.executingPid := by
    simp [State.executionHeap, hqueued]
  have hmin : (c :: l.filter fun c' =>
      c'.record.executingPid = c.record.executingPid).all
        (fun c' => c.record.uniqueId ≤ c'.record.uniqueId) = true := by
    simp only [List.all_cons, le_refl, decide_true, Bool.true_and, List.all_eq_true,
      decide_eq_true_eq]
    exact fun c' hc' => hleast c' (List.mem_of_mem_filter hc')
  simp only [State.minima, hheap, List.filter_cons, hmin, if_true]
  rfl

theorem le_foldl_min {f : Nat → Int} {l : List Nat} {init bound : Int}
    (hinit : bound ≤ init) (hall : ∀ i ∈ l, bound ≤ f i) :
    bound ≤ l.foldl (fun least i => min least (f i)) init := by
  induction l generalizing init with
  | nil => exact hinit
  | cons j l ih =>
      rw [List.foldl_cons]
      refine ih (le_min hinit (hall j List.mem_cons_self)) fun i hi => ?_
      exact hall i (List.mem_cons_of_mem _ hi)

theorem le_getMinSyscall {cfg : Config} {s : State} {bound : Int} (hmax : bound ≤ ulongMax)
    (hall : ∀ i : Nat, i < cfg.replayerIdx → bound ≤ uint64 (s.numberOfSyscalls i)) :
    bound ≤ s.getMinSyscall cfg :=
  le_foldl_min (f := fun i => uint64 (s.numberOfSyscalls i)) hmax fun i hi =>
    hall i (List.mem_range.mp hi)

def taken (s : State) (c : Copy) : State :=
  (({ s with queued := s.queued.erase c }).decrement c.replayerIndex).touch c

def turn (s : State) (tid : Int) (c : Copy) : State :=
  { ((taken s c).setRunning tid (some c)).execute c with
    lastExecutedSyscallID := max s.lastExecutedSyscallID c.record.uniqueId }

theorem setPc_append_of_getElem? {l l' : List Executor} {index : Nat} {e : Executor}
    (hget : l[index]? = some e) (pc : ExecutorPc) :
    setPc (l ++ l') index pc = setPc l index pc ++ l' := by
  obtain ⟨hlt, _⟩ := List.getElem?_eq_some_iff.mp hget
  refine List.ext_getElem? fun i => ?_
  by_cases hi : index = i
  · subst hi
    simp [setPc, List.getElem?_append_left hlt, List.getElem?_append_left, hlt]
  · rcases Nat.lt_or_ge i l.length with hil | hil
    · simp [setPc, hi, List.getElem?_append_left, hil]
    · simp [setPc, hi, List.getElem?_append_right, hil]

theorem execute_with_executors (s : State) (executors : List Executor) (c : Copy) :
    { s with executors := executors }.execute c =
      { s.execute c with executors := executors ++ spawned c.record } := by
  unfold State.execute spawned
  cases c.record.child <;> simp [State.setRunning]

theorem runs_turn {cfg : Config} {s : State} (index pick : Nat) {tid : Int} {c : Copy}
    (hget : s.executors[index]? = some ⟨tid, .top⟩)
    (hpick : (s.minima tid)[pick]? = some c)
    (hguard : ¬((taken s c).getMinSyscall cfg < 10 * s.nThreads ∧
      !(taken s c).checkModulesFinished cfg))
    (hvalid : 1 < s.nThreads →
      ((taken s c).setRunning tid (some c)).checkExecutionValidation c = true) :
    Runs cfg s (turn s tid c) := by
  let at_ : State → ExecutorPc → State := fun t pc =>
    { t with executors := setPc t.executors index pc }
  have hstep : ∀ {t t' : State} {pc pc' : ExecutorPc} (pick : Nat),
      t.executors[index]? = some ⟨tid, .top⟩ →
      executorStep cfg (at_ t pc) tid pc pick =
        some ({ t' with executors := setPc t.executors index pc }, pc') →
      t'.executors = t.executors → Runs cfg (at_ t pc) (at_ t' pc') := by
    intro t t' pc pc' pick htop h hsame
    have hruns := runs_of_executorStep index pick (getElem?_setPc htop pc) h
    simpa only [at_, setPc_setPc, hsame] using hruns
  have hheap : s.executionHeap tid ≠ [] := by
    intro hempty
    simp [State.minima, hempty] at hpick
  let popped : State := { s with queued := s.queued.erase c }
  let registered := (taken s c).setRunning tid (some c)
  let executed := registered.execute c
  have hstart : at_ s .top = s := by
    simp only [at_, setPc_self hget]
  have hpop : Runs cfg (at_ s .top) (at_ popped (.popped c)) := by
    refine hstep pick hget ?_ rfl
    simp only [executorStep]
    rw [if_neg (by exact hheap)]
    exact congrArg (Option.map _) hpick
  have hcount : Runs cfg (at_ popped (.popped c)) (at_ (taken s c) (.guard c)) :=
    hstep 0 hget rfl rfl
  have hpass : Runs cfg (at_ (taken s c) (.guard c)) (at_ (taken s c) (.guarded c)) := by
    refine hstep 0 hget ?_ rfl
    simp only [executorStep]
    exact if_neg hguard
  have hregister : Runs cfg (at_ (taken s c) (.guarded c)) (at_ registered (.running c)) :=
    hstep 0 hget rfl rfl
  have hadmit : Runs cfg (at_ registered (.running c)) (at_ registered (.admitted c)) := by
    by_cases hmany : 1 < s.nThreads
    · have hgate : Runs cfg (at_ registered (.running c)) (at_ registered (.validating c)) :=
        hstep 0 hget (if_pos hmany) rfl
      exact hgate.trans (hstep 0 hget (if_pos (hvalid hmany)) rfl)
    · exact hstep 0 hget (if_neg hmany) rfl
  have hregistered : registered.executors[index]? = some ⟨tid, .top⟩ := hget
  have hget' : executed.executors[index]? = some ⟨tid, .top⟩ := by
    rw [execute_executors,
      List.getElem?_append_left (List.getElem?_eq_some_iff.mp hregistered).1]
    exact hregistered
  have hexecute : Runs cfg (at_ registered (.admitted c)) (at_ executed (.executed c)) := by
    have hruns := @runs_of_executorStep cfg (at_ registered (.admitted c)) _ index 0 _ _ _
      (getElem?_setPc hregistered (.admitted c)) rfl
    simp only [at_, execute_with_executors] at hruns
    rw [setPc_append_of_getElem? (getElem?_setPc hregistered (.admitted c)), setPc_setPc,
      ← setPc_append_of_getElem? hregistered, ← execute_executors] at hruns
    exact hruns
  have hread : Runs cfg (at_ executed (.executed c))
      (at_ executed (.storing (max executed.lastExecutedSyscallID c.record.uniqueId))) :=
    hstep 0 hget' rfl rfl
  have hlast : executed.lastExecutedSyscallID = s.lastExecutedSyscallID := by
    simp only [executed, State.execute]
    cases c.record.child <;> rfl
  have hstore : Runs cfg
      (at_ executed (.storing (max executed.lastExecutedSyscallID c.record.uniqueId)))
      (at_ (turn s tid c) .top) := by
    rw [hlast]
    exact hstep 0 hget' rfl rfl
  have hend : at_ (turn s tid c) .top = turn s tid c := by
    simp only [at_, turn]
    rw [setPc_self hget']
  rw [hstart] at hpop
  rw [hend] at hstore
  exact ((((((hpop.trans hcount).trans hpass).trans hregister).trans hadmit).trans
    hexecute).trans hread).trans hstore

theorem runs_exit {cfg : Config} {s : State} (index : Nat) {tid : Int}
    (hget : s.executors[index]? = some ⟨tid, .top⟩) (hempty : s.executionHeap tid = []) :
    Runs cfg s { s with
      currentExecutions := s.currentExecutions.filter fun e => e.1 ≠ tid
      executors := setPc s.executors index .exited } := by
  have hleave : executorStep cfg s tid .top 0 = some (s, .leaving) := by
    simp only [executorStep, if_pos hempty]
  have hruns := runs_of_executorStep index 0 hget hleave
  have hruns' := @runs_of_executorStep cfg
    { s with executors := setPc s.executors index .leaving } _ index 0 _ _ _
    (getElem?_setPc hget .leaving) rfl
  simp only [setPc_setPc] at hruns'
  exact hruns.trans hruns'

structure SameExecutors (s s' : State) : Prop where
  nThreads : s'.nThreads = s.nThreads
  lastExecutedSyscallID : s'.lastExecutedSyscallID = s.lastExecutedSyscallID
  currentExecutions : s'.currentExecutions = s.currentExecutions
  executors : s'.executors = s.executors
  executedLog : s'.executedLog = s.executedLog

structure SameOutside (i : Nat) (s s' : State) : Prop extends SameExecutors s s' where
  series : ∀ j, j ≠ i → s'.series j = s.series j
  numberOfSyscalls : ∀ j, j ≠ (s.series i).replayerIndex →
    s'.numberOfSyscalls j = s.numberOfSyscalls j
  index : (s'.series i).replayerIndex = (s.series i).replayerIndex
  finishedModules : s'.finishedModules = s.finishedModules

theorem runs_rows {cfg : Config} {i : Nat} {b : Batch} {n : Nat} (rows rest : List Record)
    {s : State} (hreader : s.reader = .rows i b (rows.length + (n + 2)))
    (hunread : (s.series i).unread = rows ++ rest) :
    ∃ s', Runs cfg s s' ∧ SameOutside i s s' ∧ s'.reader = .rows i b (n + 2) ∧
      (s'.series i).unread = rest ∧
      s'.queued = s.queued ++ rows.map (fun r => ⟨r, (s.series i).replayerIndex, i⟩) ∧
      s'.numberOfSyscalls (s.series i).replayerIndex =
        s.numberOfSyscalls (s.series i).replayerIndex + rows.length := by
  induction rows generalizing s with
  | nil =>
      refine ⟨s, .refl, ⟨⟨rfl, rfl, rfl, rfl, rfl⟩, ?_, ?_, rfl, rfl⟩, ?_, hunread, ?_, ?_⟩
      · exact fun _ _ => rfl
      · exact fun _ _ => rfl
      · simpa using hreader
      · simp
      · simp
  | cons r rows ih =>
      let c : Copy := ⟨r, (s.series i).replayerIndex, i⟩
      let pushed : State := { readRow s i r (rows ++ rest) with
        queued := s.queued ++ [c]
        reader := .counting c i b (rows.length + (n + 2)) }
      let counted : State := { (pushed.increment c.replayerIndex).touch c with
        reader := .rows i b (rows.length + (n + 2)) }
      have hcount : (r :: rows).length + (n + 2) = (rows.length + n + 1) + 2 := by
        simp only [List.length_cons]
        omega
      have hpush : readerStep cfg s 0 = some pushed := by
        rw [hcount] at hreader
        simp only [readerStep, hreader, hunread, List.cons_append]
        rw [if_neg (by omega)]
        simp only [pushed, c, readRow, Series.move,
          show rows.length + n + 1 + 1 = rows.length + (n + 2) by omega]
      have hincrement : readerStep cfg pushed 0 = some counted := rfl
      have hseries : counted.series i = ⟨r, rows ++ rest, (s.series i).replayerIndex⟩ := by
        simp [counted, pushed, readRow, State.touch, State.increment]
      obtain ⟨s', hruns, hsame, hreader', hunread', hqueued, hnum⟩ :=
        ih (s := counted) rfl (by rw [hseries])
      rw [hseries] at hqueued hnum
      refine ⟨s', ((runs_of_readerStep hpush).trans
        (runs_of_readerStep hincrement)).trans hruns, ?_, hreader', hunread', ?_, ?_⟩
      · constructor
        · obtain ⟨hthreads, hlast, hcurrent, hexec, hlog⟩ := hsame.toSameExecutors
          exact ⟨hthreads, hlast, hcurrent, hexec, hlog⟩
        · intro j hj
          rw [hsame.series j hj]
          simp [counted, pushed, readRow, State.touch, State.increment, hj]
        · intro j hj
          rw [hsame.numberOfSyscalls j (by rw [hseries]; exact hj)]
          simp [counted, pushed, readRow, State.touch, State.increment, c, hj]
        · rw [hsame.index, hseries]
        · exact hsame.finishedModules
      · rw [hqueued]
        simp [counted, pushed, State.touch, State.increment, c]
      · rw [hnum]
        simp only [counted, pushed, State.touch, State.increment, c,
          Function.update_self, readRow, List.length_cons]
        push_cast
        omega

theorem runs_skip {cfg : Config} {s : State} {b : Batch} {i : Nat} {rest : List Nat}
    (hreader : s.reader = .modules b) (htodo : b.todo = i :: rest)
    (hfin : s.finishedModules (s.series i).replayerIndex = true) :
    Runs cfg s { s.touch ((s.series i).move i) with
      reader := .modules { b with todo := rest } } := by
  refine @runs_of_readerStep _ _ _ 0 ?_
  simp only [readerStep, hreader, htodo]
  exact if_pos (.inl hfin)

theorem runs_lastRow {cfg : Config} {s : State} {b : Batch} {i n : Nat} {rest : List Nat}
    (hreader : s.reader = .modules b) (htodo : b.todo = i :: rest)
    (hlater : b.isFirstTime = false) (hsize : b.batchSize = n + 2)
    (hunf : s.finishedModules (s.series i).replayerIndex = false)
    (hfew : uint64 (s.numberOfSyscalls (s.series i).replayerIndex) ≤ b.batchSize * 2)
    (hunread : (s.series i).unread = []) :
    ∃ s', Runs cfg s s' ∧ SameExecutors s s' ∧
      s'.reader = .modules { b with todo := rest } ∧
      s'.queued = s.queued ++ [(s.series i).move i] ∧
      s'.finishedModules =
        Function.update s.finishedModules (s.series i).replayerIndex true := by
  let b' : Batch := { b with todo := rest }
  let c := (s.series i).move i
  let entered : State := { s.touch c with reader := .carry i b' }
  let pushed : State := { entered with
    queued := s.queued ++ [c]
    reader := .counting c i b' b.batchSize }
  let counted : State :=
    { (pushed.increment c.replayerIndex).touch c with reader := .rows i b' (n + 2) }
  let finished : State := { counted.touch c with
    finishedModules := Function.update s.finishedModules c.replayerIndex true
    reader := .finishing i b' }
  let settled : State := { finished.touch c with
    numberOfSyscalls := Function.update finished.numberOfSyscalls c.replayerIndex longLongMax
    reader := .modules b' }
  have henter : readerStep cfg s 0 = some entered := by
    have hskip : ¬(s.finishedModules (s.series i).replayerIndex = true ∨
        uint64 (s.numberOfSyscalls (s.series i).replayerIndex) > b.batchSize * 2) := by
      rintro (hfin | hmany)
      · rw [hunf] at hfin
        cases hfin
      · omega
    simp only [readerStep, hreader, htodo, if_neg hskip]
    exact if_neg (by rw [hlater]; exact Bool.false_ne_true)
  have hpush : readerStep cfg entered 0 = some pushed := rfl
  have hcount : readerStep cfg pushed 0 = some counted := by
    simp only [readerStep, pushed, counted, hsize]
  have hfinish : readerStep cfg counted 0 = some finished := by
    have hseries : (counted.series i).unread = [] := hunread
    simp only [readerStep, counted] at hseries ⊢
    rw [hseries]
    rfl
  have hsettle : readerStep cfg finished 0 = some settled := rfl
  refine ⟨settled, ?_, ⟨rfl, rfl, rfl, rfl, rfl⟩, rfl, rfl, rfl⟩
  exact ((((runs_of_readerStep henter).trans (runs_of_readerStep hpush)).trans
    (runs_of_readerStep hcount)).trans (runs_of_readerStep hfinish)).trans
    (runs_of_readerStep hsettle)

end SyscallReplayer.SchedulerRuns
