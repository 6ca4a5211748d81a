import Mathlib.Order.WellFounded
import SyscallReplayer.RangeJoin
import SyscallReplayer.ReaderProgress

/-!
# No record is lost or made up in transit

At every moment each record of the trace is in exactly one place: executed, in
the hands of an executor, in a heap, or not queued yet.
-/

namespace SyscallReplayer.RecordConservation

open SyscallReplayer.RangeJoin
open SyscallReplayer.CInt
open SyscallReplayer.TransitionSystem
open SyscallReplayer.Scheduler
open SyscallReplayer.SchedulerSteps
open SyscallReplayer.ReaderProgress

/-- Between two modules a batch leaves in the members of an unfinished module a
row that no heap has got. Before the first visit that row is queued already. -/
def holdsBetween (s : State) (b : Batch) (i : Nat) : Bool :=
  !(b.isFirstTime && decide (i ∈ b.todo)) && !s.finishedModules i

/-- The members of module `i` hold a row that has not been queued. -/
def holdsRow (s : State) (i : Nat) : ReaderPc → Bool
  | .prepare => false
  | .modules b => holdsBetween s b i
  | .carry j b => if i = j then true else holdsBetween s b i
  | .rows j b count => if i = j then count == 1 else holdsBetween s b i
  | .counting _ j b _ => if i = j then false else holdsBetween s b i
  | .finishing j b => if i = j then false else holdsBetween s b i
  | .check | .spin | .done => !s.finishedModules i

/-- The rows of module `i` that have not been queued, in file order. -/
def unqueued (s : State) (i : Nat) : List Record :=
  if holdsRow s i s.reader then (s.series i).current :: (s.series i).unread
  else (s.series i).unread

def unqueuedRows (cfg : Config) (s : State) : List Record :=
  (List.range cfg.replayerIdx).flatMap (unqueued s)

/-- The copy an executor has popped and neither executed nor pushed back. -/
def inHand : ExecutorPc → Option Copy
  | .popped c | .guard c | .guarded c | .running c | .validating c | .admitted c
  | .rejected c | .parked c => some c
  | .top | .repushed _ | .executed _ | .storing _ | .leaving | .exited => none

/-- The copy in `execute_replayer`, whether or not it is also queued or executed. -/
def copyOf : ExecutorPc → Option Copy
  | .popped c | .guard c | .guarded c | .running c | .validating c | .admitted c
  | .rejected c | .parked c | .repushed c | .executed c => some c
  | .top | .storing _ | .leaving | .exited => none

/-- The copies that the executors hold in a role `f`. -/
def held (f : ExecutorPc → Option Copy) (executors : List Executor) : List Copy :=
  executors.filterMap fun e => f e.pc

def copiesInHand (s : State) : List Copy :=
  held inHand s.executors

/-- The copies that are queued or in hand. -/
def copies (s : State) : List Copy :=
  copiesInHand s ++ s.queued

def accounted (cfg : Config) (s : State) : List Record :=
  s.executedLog ++ (copies s).map Copy.record ++ unqueuedRows cfg s

theorem mem_minima {s : State} {tid : Int} {c : Copy} :
    c ∈ s.minima tid ↔ c ∈ s.queued ∧ c.record.executingPid = tid ∧
      ∀ c' ∈ s.queued, c'.record.executingPid = tid →
        c.record.uniqueId ≤ c'.record.uniqueId := by
  simp only [State.minima, State.executionHeap, List.mem_filter, List.all_eq_true,
    decide_eq_true_eq, and_imp, and_assoc]

theorem copyOf_of_inHand {pc : ExecutorPc} {c : Copy} (h : inHand pc = some c) :
    copyOf pc = some c := by
  cases pc with
  | repushed => cases h
  | executed => cases h
  | _ => exact h

theorem copyOf_of_executorTransition {cfg : Config} {s s' : State} {tid : Int}
    {pc pc' : ExecutorPc} (h : ExecutorTransition cfg s tid pc s' pc') {c : Copy}
    (hc : copyOf pc' = some c) : copyOf pc = some c ∨ c ∈ s.minima tid := by
  cases h with
  | pop c' hmin =>
      cases hc
      exact .inr hmin
  | countRepush => cases hc
  | readLast => cases hc
  | storeLast => cases hc
  | leave => cases hc
  | unregister => cases hc
  | _ => exact .inl hc

theorem exists_mem_minima {s : State} {tid : Int} (hne : s.executionHeap tid ≠ []) :
    ∃ c, c ∈ s.minima tid := by
  obtain ⟨c, hc, hmin⟩ := WellFounded.has_min
    (InvImage.wf (fun c : Copy => c.record.uniqueId) Nat.lt_wfRel.wf)
    {c | c ∈ s.executionHeap tid} (List.exists_mem_of_ne_nil _ hne)
  have hmem := List.mem_filter.mp hc
  refine ⟨c, mem_minima.mpr ⟨hmem.1, of_decide_eq_true hmem.2, fun c' hc' hpid => ?_⟩⟩
  exact Nat.not_lt.mp (hmin c' (List.mem_filter.mpr ⟨hc', decide_eq_true hpid⟩))

theorem executionHeap_eq_nil {s : State} {tid : Int} :
    s.executionHeap tid = [] ↔ ∀ c ∈ s.queued, c.record.executingPid ≠ tid := by
  simp [State.executionHeap, List.filter_eq_nil_iff]

theorem loadSyscallModules_accounted (cfg : Config) :
    (accounted cfg (loadSyscallModules cfg)).Perm cfg.records := by
  have hunqueued : ∀ i, unqueued (loadSyscallModules cfg) i = (cfg.rows i).tail := by
    intro i
    simp only [unqueued, holdsRow, loadSyscallModules]
    cases cfg.rows i <;> rfl
  have hfirst : ∀ i < cfg.replayerIdx,
      (cfg.firstCopy i).map Copy.record = (cfg.rows i).head? := by
    intro i _
    simp only [Config.firstCopy, Option.map_map]
    cases (cfg.rows i).head? <;> rfl
  have hrows : (List.range cfg.replayerIdx).flatMap cfg.rows = cfg.records :=
    getD_flatten cfg.modules
  rw [← hrows]
  simp only [accounted, unqueuedRows, flatMap_range_congr fun i _ => hunqueued i]
  simpa [copies, copiesInHand, held, loadSyscallModules] using
    heads_append_tails_perm cfg.firstCopy hfirst

/-- How a step moves records between the places. -/
inductive Flow (cfg : Config) (s : State) (a : Action) (s' : State) : Prop
  | quiet (hlog : s'.executedLog = s.executedLog)
      (hhand : copiesInHand s' = copiesInHand s) (hqueued : s'.queued = s.queued)
      (hrows : ∀ i < cfg.replayerIdx, unqueued s' i = unqueued s i)
  | deliver (i : Nat) (c : Copy) (hi : i < cfg.replayerIdx)
      (hproducer : c.producer = i ∧ c.replayerIndex = i)
      (hlog : s'.executedLog = s.executedLog)
      (hhand : copiesInHand s' = copiesInHand s) (hqueued : s'.queued = s.queued ++ [c])
      (hcons : unqueued s i = c.record :: unqueued s' i)
      (hother : ∀ j, j ≠ i → unqueued s' j = unqueued s j)
  | prepare (c : Copy) (hc : c ∈ s.minima cfg.mainThreadID)
      (hnone : c.record.child = none) (hid : c.record.uniqueId = 0)
      (hlog : s'.executedLog = s.executedLog ++ [c.record])
      (hhand : copiesInHand s' = copiesInHand s) (hqueued : s'.queued = s.queued.erase c)
      (hexec : s.executors = [])
      (hrows : ∀ i < cfg.replayerIdx, unqueued s' i = unqueued s i)
  | pop (e : Executor) (c : Copy) (he : actor s a = some e) (hpc : e.pc = .top)
      (hc : c ∈ s.minima e.threadID) (hlog : s'.executedLog = s.executedLog)
      (hhand : (copiesInHand s').Perm (c :: copiesInHand s))
      (hqueued : s'.queued = s.queued.erase c)
      (hrows : ∀ i < cfg.replayerIdx, unqueued s' i = unqueued s i)
  | repush (e : Executor) (c : Copy) (he : actor s a = some e) (hpc : e.pc = .parked c)
      (hlog : s'.executedLog = s.executedLog)
      (hhand : (copiesInHand s).Perm (c :: copiesInHand s'))
      (hqueued : s'.queued = s.queued ++ [c])
      (hrows : ∀ i < cfg.replayerIdx, unqueued s' i = unqueued s i)
  | execute (e : Executor) (c : Copy) (he : actor s a = some e) (hpc : e.pc = .admitted c)
      (hlog : s'.executedLog = s.executedLog ++ [c.record])
      (hhand : (copiesInHand s).Perm (c :: copiesInHand s'))
      (hqueued : s'.queued = s.queued)
      (hrows : ∀ i < cfg.replayerIdx, unqueued s' i = unqueued s i)

theorem unqueued_congr {s s' : State} {i : Nat}
    (hseries : s'.series i = s.series i)
    (hholds : holdsRow s' i s'.reader = holdsRow s i s.reader) :
    unqueued s' i = unqueued s i := by
  simp only [unqueued, hseries, hholds]

theorem holdsBetween_tail {s : State} {b : Batch} {i j : Nat} {rest : List Nat}
    (htodo : b.todo = j :: rest) (hne : i ≠ j) :
    holdsBetween s { b with todo := rest } i = holdsBetween s b i := by
  simp [holdsBetween, htodo, hne]

theorem holdsBetween_head {s : State} {b : Batch} {i : Nat} {rest : List Nat}
    (htodo : b.todo = i :: rest) (hunfinished : s.finishedModules i = false) :
    holdsBetween s b i = !b.isFirstTime := by
  simp [holdsBetween, htodo, hunfinished]

/-- A step after which every module holds a row as before moves no record. -/
theorem quiet_of_module {cfg : Config} {s s' : State} {a : Action} (i : Nat)
    (hseries : s'.series = s.series) (hlog : s'.executedLog = s.executedLog)
    (hexec : s'.executors = s.executors) (hqueued : s'.queued = s.queued)
    (hi : holdsRow s' i s'.reader = holdsRow s i s.reader)
    (hother : ∀ j, j ≠ i → holdsRow s' j s'.reader = holdsRow s j s.reader) :
    Flow cfg s a s' := by
  refine .quiet hlog (congrArg (held inHand) hexec) hqueued fun j _ => ?_
  apply unqueued_congr (congrFun hseries j)
  by_cases hji : j = i
  · subst hji
    exact hi
  · exact hother j hji

theorem flow_of_readerTransition {cfg : Config} {s s' : State} {a : Action}
    (hinv : ReaderInv cfg s) (h : ReaderTransition cfg s s') : Flow cfg s a s' := by
  have hpc := hinv.pc
  cases h with
  | prepareEmpty hreader hempty =>
      rw [hreader] at hpc
      refine .quiet rfl rfl rfl fun i hi => unqueued_congr rfl ?_
      have horder : i ∈ cfg.order := cfg.order_perm.mem_iff.mpr (List.mem_range.mpr hi)
      simp [hreader, holdsRow, holdsBetween, firstBatch, horder]
  | prepareUmask hreader c hc humask hid =>
      rw [hreader] at hpc
      refine .prepare c hc ?_ hid rfl rfl rfl hpc.1 fun i hi => unqueued_congr rfl ?_
      · simp [Record.child, humask]
      · have horder : i ∈ cfg.order := cfg.order_perm.mem_iff.mpr (List.mem_range.mpr hi)
        simp [prepared, State.setRunning, State.touch, State.decrement, hreader, holdsRow,
          holdsBetween, firstBatch, horder]
  | firstBatchDone b hreader htodo hfirst =>
      refine .quiet rfl ?_ rfl fun i _ => unqueued_congr rfl ?_
      · simp [copiesInHand, held, inHand]
      · simp [hreader, holdsRow, holdsBetween, htodo]
  | batchDone b hreader htodo hfirst =>
      refine .quiet rfl rfl rfl fun i _ => unqueued_congr rfl ?_
      simp [hreader, holdsRow, holdsBetween, htodo]
  | skip b i rest hreader htodo hskip =>
      rw [hreader] at hpc
      have hfirst := not_first_of_skip hinv hreader htodo hskip
      refine quiet_of_module i rfl rfl rfl rfl ?_ fun j hji => ?_
      · simp [hreader, holdsRow, holdsBetween, hfirst, State.touch]
      · simp only [hreader, holdsRow]
        exact holdsBetween_tail htodo hji
  | enterFirst b i rest hreader htodo hunfinished hfirst =>
      rw [hreader] at hpc
      obtain ⟨_, hlt, _⟩ := BatchOk.tail hpc htodo
      rw [hinv.index i hlt] at hunfinished
      have hsize := hpc.size
      refine quiet_of_module i rfl rfl rfl rfl ?_ fun j hji => ?_
      · simp only [hreader, holdsRow, holdsBetween_head htodo hunfinished, hfirst, if_true]
        simp
        omega
      · simp only [hreader, holdsRow, if_neg hji]
        exact holdsBetween_tail htodo hji
  | enterCarry b i rest hreader htodo hunfinished hfirst =>
      rw [hreader] at hpc
      obtain ⟨_, hlt, _⟩ := BatchOk.tail hpc htodo
      rw [hinv.index i hlt] at hunfinished
      refine quiet_of_module i rfl rfl rfl rfl ?_ fun j hji => ?_
      · simp [hreader, holdsRow, holdsBetween_head htodo hunfinished, hfirst]
      · simp only [hreader, holdsRow, if_neg hji]
        exact holdsBetween_tail htodo hji
  | carry i b hreader =>
      rw [hreader] at hpc
      obtain ⟨hb, hactive, hfirst⟩ := hpc
      refine .deliver i ((s.series i).move i) hactive.lt ⟨rfl, hinv.index i hactive.lt⟩
        rfl rfl rfl ?_ ?_
      · simp [unqueued, hreader, holdsRow, Series.move]
      · intro j hj
        refine unqueued_congr rfl ?_
        simp only [hreader, holdsRow, if_neg hj]
        rfl
  | count c i b count hreader =>
      rw [hreader] at hpc
      obtain ⟨_, _, hcount, _⟩ := hpc
      refine quiet_of_module i rfl rfl rfl rfl ?_ fun j hji => ?_
      · simp [hreader, holdsRow]
        omega
      · simp only [hreader, holdsRow, if_neg hji]
        rfl
  | rowsEnd i b hreader =>
      rw [hreader] at hpc
      obtain ⟨hb, hactive, _⟩ := hpc
      refine quiet_of_module i rfl rfl rfl rfl ?_ fun j hji => ?_
      · simp [hreader, holdsRow, holdsBetween, hactive.not_todo, hactive.unfinished]
      · simp only [hreader, holdsRow, if_neg hji]
        rfl
  | rowsFinish i b count hreader hunread =>
      rw [hreader] at hpc
      obtain ⟨hb, hactive, _⟩ := hpc
      refine quiet_of_module i rfl rfl rfl rfl ?_ fun j hji => ?_
      · simp [hreader, holdsRow]
      · simp [hreader, holdsRow, holdsBetween, hinv.index i hactive.lt, hji]
  | rowsHold i b r rest hreader hunread =>
      rw [hreader] at hpc
      refine .quiet rfl rfl rfl fun j _ => ?_
      by_cases hji : j = i
      · subst hji
        simp [unqueued, hreader, holdsRow, readRow, hunread]
      · simp [unqueued, hreader, holdsRow, readRow, hji, holdsBetween]
  | rowsPush i b count r rest hreader hunread =>
      rw [hreader] at hpc
      obtain ⟨hb, hactive, _⟩ := hpc
      refine .deliver i ⟨r, (s.series i).replayerIndex, i⟩ hactive.lt
        ⟨rfl, hinv.index i hactive.lt⟩ rfl rfl rfl ?_ ?_
      · simp [unqueued, hreader, holdsRow, readRow, hunread]
      · intro j hji
        simp [unqueued, hreader, holdsRow, readRow, hji, holdsBetween]
  | finish i b hreader =>
      rw [hreader] at hpc
      obtain ⟨hb, hlt, hnot, hfin⟩ := hpc
      refine quiet_of_module i rfl rfl rfl rfl ?_ fun j hji => ?_
      · simp [hreader, holdsRow, holdsBetween, hnot, hfin, State.touch]
      · simp only [hreader, holdsRow, if_neg hji]
        rfl
  | checkDone hreader hdone =>
      refine .quiet rfl rfl rfl fun j _ => unqueued_congr rfl ?_
      simp only [hreader, holdsRow]
  | checkSpin hreader hdone =>
      refine .quiet rfl rfl rfl fun j _ => unqueued_congr rfl ?_
      simp only [hreader, holdsRow]
  | spinWait hreader => exact .quiet rfl rfl rfl fun _ _ => rfl
  | spinBatch hreader =>
      refine .quiet rfl rfl rfl fun j _ => unqueued_congr rfl ?_
      simp [hreader, holdsRow, holdsBetween, nextBatch]

theorem held_append (f : ExecutorPc → Option Copy) (l l' : List Executor) :
    held f (l ++ l') = held f l ++ held f l' :=
  List.filterMap_append

theorem held_cons (f : ExecutorPc → Option Copy) (e : Executor) (l : List Executor) :
    held f (e :: l) = (f e.pc).toList ++ held f l := by
  simp only [held, List.filterMap_cons]
  cases f e.pc <;> rfl

theorem held_split (f : ExecutorPc → Option Copy) {l before after : List Executor}
    {e : Executor} (hsplit : l = before ++ e :: after) :
    held f l = held f before ++ ((f e.pc).toList ++ held f after) := by
  rw [hsplit, held_append, held_cons]

theorem held_newExecutors {f : ExecutorPc → Option Copy} (htop : f .top = none)
    (pc : ExecutorPc) : held f (newExecutors pc) = [] := by
  cases pc with
  | admitted c =>
      simp only [newExecutors, spawned]
      cases c.record.child with
      | none => rfl
      | some tid => simp [held, htop]
  | _ => rfl

theorem held_replace {f : ExecutorPc → Option Copy} (htop : f .top = none)
    (before after : List Executor) (tid : Int) (pc pc' : ExecutorPc) :
    held f (before ++ ⟨tid, pc'⟩ :: (after ++ newExecutors pc)) =
      held f before ++ ((f pc').toList ++ held f after) := by
  rw [held_append, held_cons, held_append, held_newExecutors htop, List.append_nil]

theorem held_perm {f : ExecutorPc → Option Copy} (htop : f .top = none)
    (before after : List Executor) (e : Executor) (pc' : ExecutorPc) :
    ((f e.pc).toList ++
        held f (before ++ ⟨e.threadID, pc'⟩ :: (after ++ newExecutors e.pc))).Perm
      ((f pc').toList ++ held f (before ++ e :: after)) := by
  rw [held_replace htop, held_split f rfl]
  refine List.perm_iff_count.mpr fun c => ?_
  simp only [List.count_append]
  omega

theorem holdsRow_congr {s s' : State} (hfin : s'.finishedModules = s.finishedModules)
    (i : Nat) (pc : ReaderPc) : holdsRow s' i pc = holdsRow s i pc := by
  cases pc <;> simp only [holdsRow, holdsBetween, hfin]

theorem unqueued_of_frame {s s' : State}
    (hseries : s'.series = s.series) (hfin : s'.finishedModules = s.finishedModules)
    (hreader : s'.reader = s.reader) (executors : List Executor) (i : Nat) :
    unqueued { s' with executors := executors } i = unqueued s i := by
  refine unqueued_congr (congrFun hseries i) ?_
  exact (holdsRow_congr hfin i _).trans (congrArg _ hreader)

theorem flow_of_executorTransition {cfg : Config} {s s' : State} {a : Action}
    {e : Executor} {pc' : ExecutorPc} {before after : List Executor}
    (he : actor s a = some e) (hsplit : s.executors = before ++ e :: after)
    (h : ExecutorTransition cfg s e.threadID e.pc s' pc') :
    Flow cfg s a { s' with
      executors := before ++ ⟨e.threadID, pc'⟩ :: (after ++ newExecutors e.pc) } := by
  obtain ⟨hseries, hfin, hreader, _⟩ := h.frame
  have hrows := fun i (_ : i < cfg.replayerIdx) => unqueued_of_frame hseries hfin hreader
    (before ++ ⟨e.threadID, pc'⟩ :: (after ++ newExecutors e.pc)) i
  have hhand := held_perm (f := inHand) rfl before after e pc'
  rw [← hsplit] at hhand
  obtain ⟨tid, pc⟩ := e
  cases h with
  | pop c hc => exact .pop _ c he rfl hc rfl hhand rfl hrows
  | repush c => exact .repush _ c he rfl rfl hhand.symm rfl hrows
  | execute c =>
      exact .execute _ c he rfl (execute_log s c) hhand.symm (execute_queued s c) hrows
  | _ =>
      refine .quiet rfl ?_ rfl hrows
      exact (held_replace rfl _ _ _ _ _).trans (held_split inHand hsplit).symm

theorem flow_of_transition {cfg : Config} {s s' : State} {a : Action}
    (hinv : ReaderInv cfg s) (h : Transition cfg s a s') : Flow cfg s a s' := by
  cases h with
  | reader pick h => exact flow_of_readerTransition hinv h
  | executor index pick e before after he hsplit h =>
      exact flow_of_executorTransition he hsplit h

theorem unqueuedRows_congr {cfg : Config} {s s' : State}
    (hrows : ∀ i < cfg.replayerIdx, unqueued s' i = unqueued s i) :
    unqueuedRows cfg s' = unqueuedRows cfg s :=
  flatMap_range_congr hrows

theorem unqueuedRows_deliver {cfg : Config} {s s' : State} {i : Nat} {r : Record}
    (hi : i < cfg.replayerIdx) (hcons : unqueued s i = r :: unqueued s' i)
    (hother : ∀ j, j ≠ i → unqueued s' j = unqueued s j) :
    (unqueuedRows cfg s).Perm (r :: unqueuedRows cfg s') :=
  flatMap_range_cons hi hcons fun j hj => (hother j hj).symm

theorem mem_queued_of_mem_minima {s : State} {tid : Int} {c : Copy}
    (hc : c ∈ s.minima tid) : c ∈ s.queued :=
  (mem_minima.mp hc).1

theorem Flow.accounted_perm {cfg : Config} {s s' : State} {a : Action}
    (h : Flow cfg s a s') : (accounted cfg s').Perm (accounted cfg s) := by
  refine List.perm_iff_count.mpr fun r => ?_
  simp only [accounted, copies, List.map_append, List.count_append]
  cases h with
  | quiet hlog hhand hqueued hrows =>
      rw [hlog, hhand, hqueued, unqueuedRows_congr hrows]
  | deliver i c hi _ hlog hhand hqueued hcons hother =>
      have hcount := (unqueuedRows_deliver hi hcons hother).count_eq r
      rw [hlog, hhand, hqueued, hcount]
      simp only [List.map_append, List.map_cons, List.map_nil, List.count_append,
        List.count_cons, List.count_nil]
      omega
  | prepare c hc _ _ hlog hhand hqueued _ hrows =>
      have hcount := ((List.perm_cons_erase (mem_queued_of_mem_minima hc)).map
        Copy.record).count_eq r
      rw [hlog, hhand, hqueued, unqueuedRows_congr hrows]
      simp only [List.map_cons, List.count_append, List.count_cons,
        List.count_nil] at hcount ⊢
      omega
  | pop e c _ _ hc hlog hhand hqueued hrows =>
      have hcount := ((List.perm_cons_erase (mem_queued_of_mem_minima hc)).map
        Copy.record).count_eq r
      have hhand := (hhand.map Copy.record).count_eq r
      rw [hlog, hqueued, unqueuedRows_congr hrows]
      simp only [List.map_cons, List.count_cons] at hcount hhand ⊢
      omega
  | repush e c _ _ hlog hhand hqueued hrows =>
      have hhand := (hhand.map Copy.record).count_eq r
      rw [hlog, hqueued, unqueuedRows_congr hrows]
      simp only [List.map_append, List.map_cons, List.map_nil, List.count_append,
        List.count_cons, List.count_nil] at hhand ⊢
      omega
  | execute e c _ _ hlog hhand hqueued hrows =>
      have hhand := (hhand.map Copy.record).count_eq r
      rw [hlog, hqueued, unqueuedRows_congr hrows]
      simp only [List.map_cons, List.count_append, List.count_cons,
        List.count_nil] at hhand ⊢
      omega

/-- Every record of the trace is in exactly one place, in every run. -/
theorem reachable_accounted {cfg : Config} {ok : State → Action → Prop} {s : State}
    (h : (replay cfg).ReachVia ok s) : (accounted cfg s).Perm cfg.records :=
  h.invariant _ (loadSyscallModules_accounted cfg) fun _ _ _ hreach hperm _ hstep =>
    (flow_of_transition (reachable_readerInv hreach)
      (transition_of_step hstep)).accounted_perm.trans hperm

end SyscallReplayer.RecordConservation
