import Mathlib.Data.List.Sort
import SyscallReplayer.QueueAccounting

/-!
# Replay of a single thread

With one executor the low-water guard leaves a queued record of every
unfinished module at each pop. Since the rows of a module are queued in order,
the least queued record is the least record that is left.
-/

namespace SyscallReplayer.SingleThreadReplay

open SyscallReplayer.TransitionSystem
open SyscallReplayer.Scheduler
open SyscallReplayer.SchedulerSteps
open SyscallReplayer.ReaderProgress
open SyscallReplayer.RecordConservation
open SyscallReplayer.ThreadOrder
open SyscallReplayer.QueueAccounting

/-- A trace of one thread that starts with its `umask` record. -/
structure SingleThread (cfg : Config) (pid : Int) : Prop where
  pid : ∀ r ∈ cfg.records, r.executingPid = pid
  noClone : ∀ r ∈ cfg.records, r.sysCallName ≠ .clone ∧ r.sysCallName ≠ .vfork
  first : ∃ rows ∈ cfg.modules, ∃ r, rows.head? = some r ∧ r.sysCallName = .umask ∧
    r.uniqueId = 0
  increasing : cfg.RowsIncreasing

theorem SingleThread.child_eq_none {cfg : Config} {pid : Int} (h : SingleThread cfg pid)
    {r : Record} (hr : r ∈ cfg.records) : r.child = none := by
  obtain ⟨hclone, hvfork⟩ := h.noClone r hr
  cases hname : r.sysCallName <;> simp_all [Record.child]

theorem foldl_umask_mem (l : List Record) (tid : Int) :
    let last := l.foldl
      (fun tid r => if r.sysCallName = .umask then r.executingPid else tid) tid
    (∃ r ∈ l, r.executingPid = last) ∨
      last = tid ∧ ∀ r ∈ l, r.sysCallName ≠ .umask := by
  induction l generalizing tid with
  | nil => exact .inr ⟨rfl, fun _ hr => (List.not_mem_nil hr).elim⟩
  | cons r l ih =>
      simp only [List.foldl_cons]
      rcases ih (if r.sysCallName = .umask then r.executingPid else tid) with
        ⟨r', hr', hlast⟩ | ⟨hlast, hnone⟩
      · exact .inl ⟨r', List.mem_cons_of_mem _ hr', hlast⟩
      · by_cases hname : r.sysCallName = .umask
        · refine .inl ⟨r, List.mem_cons_self, ?_⟩
          rw [hlast, if_pos hname]
        · refine .inr ⟨?_, ?_⟩
          · rw [hlast, if_neg hname]
          · rintro r' (_ | ⟨_, hr'⟩)
            · exact hname
            · exact hnone r' hr'

theorem mem_records_of_head {cfg : Config} {rows : List Record} (hrows : rows ∈ cfg.modules)
    {r : Record} (hr : rows.head? = some r) : r ∈ cfg.records :=
  List.mem_flatten.mpr ⟨rows, hrows, List.mem_of_mem_head? hr⟩

theorem SingleThread.mainThreadID {cfg : Config} {pid : Int} (h : SingleThread cfg pid) :
    cfg.mainThreadID = pid := by
  obtain ⟨rows, hrows, r, hr, hname, _⟩ := h.first
  have hmem : r ∈ cfg.modules.filterMap List.head? :=
    List.mem_filterMap.mpr ⟨rows, hrows, hr⟩
  rcases foldl_umask_mem (cfg.modules.filterMap List.head?) 0 with
    ⟨r', hr', hlast⟩ | ⟨_, hnone⟩
  · obtain ⟨rows', hrows', hr'⟩ := List.mem_filterMap.mp hr'
    exact hlast.symm.trans (h.pid r' (mem_records_of_head hrows' hr'))
  · exact absurd hname (hnone r hmem)

structure RowsInOrder (cfg : Config) (s : State) : Prop where
  sorted : ∀ i < cfg.replayerIdx,
    (unqueued s i).Pairwise fun r r' => r.uniqueId < r'.uniqueId
  ahead : ∀ c ∈ copies s, ∀ r ∈ unqueued s c.producer, c.record.uniqueId < r.uniqueId

theorem rowsInOrder_of_flow {cfg : Config} {s s' : State} {a : Action}
    (hproducer : ∀ c ∈ copies s, c.producer < cfg.replayerIdx)
    (hinv : RowsInOrder cfg s) (h : Flow cfg s a s') : RowsInOrder cfg s' := by
  have hsame : ∀ {s'}, (∀ c ∈ copies s', c ∈ copies s) →
      (∀ i < cfg.replayerIdx, unqueued s' i = unqueued s i) → RowsInOrder cfg s' := by
    intro s' hsub hrows
    refine ⟨fun i hi => hrows i hi ▸ hinv.sorted i hi, ?_⟩
    intro c hc r hr
    rw [hrows _ (hproducer c (hsub c hc))] at hr
    exact hinv.ahead c (hsub c hc) r hr
  cases h with
  | quiet hlog hhand hqueued hrows =>
      exact hsame (fun c hc => by simpa [copies, hhand, hqueued] using hc) hrows
  | deliver i c hi hc hlog hhand hqueued hcons hother =>
      have hsorted := hinv.sorted i hi
      rw [hcons, List.pairwise_cons] at hsorted
      refine ⟨?_, ?_⟩
      · intro j hj
        by_cases hji : j = i
        · subst hji
          exact hsorted.2
        · exact hother j hji ▸ hinv.sorted j hj
      · intro c' hc' r hr
        have hmem : c' ∈ copies s ∨ c' = c := by
          simpa [copies, hhand, hqueued, or_assoc] using hc'
        rcases hmem with hmem | rfl
        · refine hinv.ahead c' hmem r ?_
          by_cases hji : c'.producer = i
          · rw [hji] at hr ⊢
            rw [hcons]
            exact List.mem_cons_of_mem _ hr
          · rwa [hother _ hji] at hr
        · rw [hc.1] at hr
          exact hsorted.1 r hr
  | prepare c hc _ _ hlog hhand hqueued _ hrows =>
      refine hsame (fun c' hc' => ?_) hrows
      simp only [copies, hhand, hqueued, List.mem_append] at hc' ⊢
      exact hc'.imp id List.mem_of_mem_erase
  | pop e c _ _ hc hlog hhand hqueued hrows =>
      refine hsame (fun c' hc' => ?_) hrows
      simp only [copies, hqueued, List.mem_append, hhand.mem_iff, List.mem_cons] at hc' ⊢
      rcases hc' with (rfl | hc') | hc'
      · exact .inr (mem_queued_of_mem_minima hc)
      · exact .inl hc'
      · exact .inr (List.mem_of_mem_erase hc')
  | repush e c _ _ hlog hhand hqueued hrows =>
      refine hsame (fun c' hc' => ?_) hrows
      simp only [copies, hqueued, List.mem_append, hhand.mem_iff, List.mem_cons,
        List.not_mem_nil, or_false] at hc' ⊢
      rcases hc' with hc' | hc' | hc'
      · exact .inl (.inr hc')
      · exact .inr hc'
      · exact .inl (.inl hc')
  | execute e c _ _ hlog hhand hqueued hrows =>
      refine hsame (fun c' hc' => ?_) hrows
      simp only [copies, hqueued, List.mem_append, hhand.mem_iff, List.mem_cons] at hc' ⊢
      exact hc'.imp .inr id

theorem loadSyscallModules_unqueued (cfg : Config) (i : Nat) :
    unqueued (loadSyscallModules cfg) i = (cfg.rows i).tail := by
  simp only [unqueued, holdsRow, loadSyscallModules]
  cases cfg.rows i <;> rfl

theorem rows_increasing {cfg : Config} (h : cfg.RowsIncreasing) {i : Nat}
    (hi : i < cfg.replayerIdx) :
    (cfg.rows i).Pairwise fun r r' => r.uniqueId < r'.uniqueId := by
  simp only [Config.rows, List.getD_eq_getElem?_getD, List.getElem?_eq_getElem hi]
  exact h _ (List.getElem_mem hi)

theorem loadSyscallModules_rowsInOrder {cfg : Config} (h : cfg.RowsIncreasing) :
    RowsInOrder cfg (loadSyscallModules cfg) := by
  refine ⟨fun i hi => ?_, fun c hc r hr => ?_⟩
  · rw [loadSyscallModules_unqueued]
    exact (rows_increasing h hi).sublist (List.tail_sublist _)
  · rw [loadSyscallModules_unqueued] at hr
    have hqueued : c ∈ (loadSyscallModules cfg).queued := by
      simpa [copies, copiesInHand, held, loadSyscallModules] using hc
    simp only [loadSyscallModules, List.mem_filterMap, List.mem_range] at hqueued
    obtain ⟨i, hi, hfirst⟩ := hqueued
    obtain ⟨r₀, hhead, rfl⟩ := Option.map_eq_some_iff.mp hfirst
    obtain ⟨rest, hrows⟩ := List.head?_eq_some_iff.mp hhead
    have hsorted := rows_increasing h hi
    simp only [hrows, List.tail_cons] at hr
    rw [hrows, List.pairwise_cons] at hsorted
    exact hsorted.1 r hr

theorem reachable_rowsInOrder {cfg : Config} {ok : State → Action → Prop} {s : State}
    (hidx : cfg.IndexedCopies) (hrows : cfg.RowsIncreasing)
    (h : (replay cfg).ReachVia ok s) : RowsInOrder cfg s :=
  h.invariant _ (loadSyscallModules_rowsInOrder hrows) fun _ _ _ hreach hinv _ hs =>
    rowsInOrder_of_flow (fun _ hc => (reachable_indexed hidx hreach).producer_lt hc) hinv
      (flow_of_transition (reachable_readerInv hreach) (transition_of_step hs))

theorem unqueued_of_finished {cfg : Config} {s : State} (hinv : ReaderInv cfg s) {i : Nat}
    (hi : i < cfg.replayerIdx) (hfin : s.finishedModules i = true) :
    unqueued s i = [] := by
  have hholds : holdsRow s i s.reader = false := by
    have hpc := hinv.pc
    cases hr : s.reader with
    | carry j b =>
        rw [hr] at hpc
        have hne : i ≠ j := by
          rintro rfl
          rw [hpc.2.1.unfinished] at hfin
          cases hfin
        simp [holdsRow, hne, holdsBetween, hfin]
    | rows j b count =>
        rw [hr] at hpc
        have hne : i ≠ j := by
          rintro rfl
          rw [hpc.2.1.unfinished] at hfin
          cases hfin
        simp [holdsRow, hne, holdsBetween, hfin]
    | _ => simp [holdsRow, holdsBetween, hfin]
  simp [unqueued, hholds, hinv.exhausted i hi hfin]

theorem reachable_nThreads {cfg : Config} {ok : State → Action → Prop} {s : State}
    (hchild : ∀ r ∈ cfg.records, r.child = none) (h : (replay cfg).ReachVia ok s) :
    s.nThreads = 1 := by
  refine h.invariant (P := fun s => s.nThreads = 1) _ rfl fun s a s' hreach hinv _ hs => ?_
  have hperm := reachable_accounted hreach
  cases transition_of_step hs with
  | reader pick h => cases h <;> exact hinv
  | executor index pick e before after he hsplit h =>
      have hmem := mem_of_actor he
      obtain ⟨tid, pc⟩ := e
      cases h with
      | execute c =>
          have hrecord : c.record ∈ cfg.records := (mem_records hperm).mpr
            (.inr (.inl ⟨c, mem_copiesInHand.mpr ⟨_, hmem, rfl⟩, rfl⟩))
          rw [execute_nThreads, spawned, hchild _ hrecord]
          exact hinv
      | _ => exact hinv

theorem exists_queued_of_top {cfg : Config} {s : State} (hacc : Accounting cfg s)
    (hlow : LowWater cfg s) (hone : s.nThreads = 1) {e : Executor}
    (he : e ∈ s.executors) (hpc : e.pc = .top) {i : Nat} (hi : i < cfg.replayerIdx)
    (hunf : s.finishedModules i = false) : ∃ c ∈ s.queued, c.producer = i := by
  have hexecutors : s.executors = [e] := by
    have hlen := hlow.threads
    rw [hone] at hlen
    obtain ⟨e', he'⟩ := List.length_eq_one_iff.mp
      (Nat.le_antisymm hlen (List.length_pos_of_mem he))
    rw [he'] at he ⊢
    rw [List.mem_singleton.mp he]
  have hcounted := hlow.counted i hi hunf
  have hexact := hacc.exact i hi (by simp [settled, hunf])
  have hpos : 0 < s.queued.countP (producedBy i) := by
    simp only [hexecutors, totalWeight, List.map_cons, List.map_nil, hpc, weight,
      List.sum_cons, List.sum_nil] at hcounted
    simp only [balance, queuedOf, hexecutors, held, List.filterMap_cons, hpc, uncounted,
      List.filterMap_nil, List.countP_nil] at hexact
    omega
  obtain ⟨c, hc, hproducer⟩ := List.countP_pos_iff.mp hpos
  exact ⟨c, hc, by simpa [producedBy] using hproducer⟩

section

variable {cfg : Config} {pid : Int} (hsingle : SingleThread cfg pid)
  {s : State} (hreach : (replay cfg).Reachable s)

include hsingle hreach

theorem reachable_deliveredAhead (hidx : cfg.IndexedCopies) (a : Action) :
    DeliveredAhead cfg s a := by
  intro e he hpc r hr _
  have hreader := reachable_readerInv hreach
  have hperm := reachable_accounted hreach
  obtain ⟨i, hi, hri⟩ := List.mem_flatMap.mp hr
  rw [List.mem_range] at hi
  have hunf : s.finishedModules i = false := by
    by_contra hfin
    rw [unqueued_of_finished hreader hi (by simpa using hfin)] at hri
    cases hri
  obtain ⟨c, hc, rfl⟩ := exists_queued_of_top (reachable_accounting hidx hreach)
    (reachable_lowWater hidx hreach)
    (reachable_nThreads (fun _ => hsingle.child_eq_none) hreach) (mem_of_actor he) hpc hi hunf
  have hcopy : c.record ∈ cfg.records := (mem_records hperm).mpr
    (.inr (.inr (List.mem_append_left _ (List.mem_map_of_mem hc))))
  have hrecord : r ∈ cfg.records := (mem_records hperm).mpr
    (.inr (.inr (List.mem_append_right _ hr)))
  have hlt := (reachable_rowsInOrder hidx hsingle.increasing hreach).ahead c
    (List.mem_append_right _ hc) r hri
  refine ⟨c, hc, ?_, hlt.le⟩
  rw [hsingle.pid _ hcopy, ← hsingle.pid _ hrecord]
  assumption

theorem reachable_startsFresh (a : Action) : StartsFresh s a := by
  intro e he tid htid
  have hperm := reachable_accounted hreach
  cases hpc : e.pc with
  | admitted c =>
      have hrecord : c.record ∈ cfg.records := (mem_records hperm).mpr
        (.inr (.inl ⟨c, mem_copiesInHand.mpr ⟨e, mem_of_actor he, by rw [hpc]; rfl⟩, rfl⟩))
      rw [hpc] at htid
      simp only [starting, hsingle.child_eq_none hrecord] at htid
      cases htid
  | _ =>
      rw [hpc] at htid
      cases htid

end

theorem reachVia_timely {cfg : Config} {pid : Int} (hsingle : SingleThread cfg pid)
    (hidx : cfg.IndexedCopies) {s : State} (hreach : (replay cfg).Reachable s) :
    (replay cfg).ReachVia (Timely cfg) s :=
  hreach.mono _ fun _ a hs _ =>
    ⟨reachable_deliveredAhead hsingle hs hidx a, reachable_startsFresh hsingle hs a⟩

/-- The executed records are at every moment a prefix of the records sorted by
id, and all of them at the end. No copy is in hand while a row with a smaller id
is unread. -/
theorem single_thread_replay_sorted {cfg : Config} {pid : Int}
    (hsingle : SingleThread cfg pid) (hidx : cfg.IndexedCopies) {s : State}
    (hreach : (replay cfg).Reachable s) :
    (∃ sorted : List Record, sorted.Perm cfg.records ∧
      (sorted.Pairwise fun r r' => r.uniqueId ≤ r'.uniqueId) ∧
      s.executedLog <+: sorted ∧ (Terminated s → s.executedLog = sorted)) ∧
      ∀ c ∈ copiesInHand s, ∀ r ∈ unqueuedRows cfg s, c.record.uniqueId ≤ r.uniqueId := by
  have hperm := reachable_accounted hreach
  have htimely := reachVia_timely hsingle hidx hreach
  have horder := reachable_inOrder htimely fun _ _ h => h
  have hbefore : ∀ {r r'}, r ∈ cfg.records → r' ∈ cfg.records → Before r r' →
      r.uniqueId ≤ r'.uniqueId := fun hr hr' h =>
    h ((hsingle.pid _ hr).trans (hsingle.pid _ hr').symm)
  constructor
  · let le : Record → Record → Bool := fun r r' => r.uniqueId ≤ r'.uniqueId
    let left := (copies s).map Copy.record ++ unqueuedRows cfg s
    have hsorted : (left.mergeSort le).Pairwise fun r r' => r.uniqueId ≤ r'.uniqueId := by
      have hsort : (left.mergeSort le).Pairwise fun r r' => le r r' = true := by
        refine List.pairwise_mergeSort ?_ ?_ left
        · intro a b c hab hbc
          simp only [le, decide_eq_true_eq] at hab hbc ⊢
          exact le_trans hab hbc
        · intro a b
          simp only [le, Bool.or_eq_true, decide_eq_true_eq]
          exact le_total a.uniqueId b.uniqueId
      exact hsort.imp fun h => of_decide_eq_true h
    have hall : (s.executedLog ++ left.mergeSort le).Perm cfg.records := by
      refine ((List.mergeSort_perm left le).append_left _).trans ?_
      simpa only [left, accounted, List.append_assoc] using hperm
    refine ⟨s.executedLog ++ left.mergeSort le, hall, ?_, List.prefix_append _ _, ?_⟩
    · refine List.pairwise_append.mpr ⟨?_, hsorted, ?_⟩
      · refine horder.log.imp_of_mem fun hr hr' => hbefore ?_ ?_
        · exact (mem_records hperm).mpr (.inl hr)
        · exact (mem_records hperm).mpr (.inl hr')
      · intro r hr r' hr'
        have hleft : Pending cfg s r' := by
          rw [List.mem_mergeSort] at hr'
          simp only [left, copies, List.map_append, List.mem_append, List.mem_map] at hr'
          simpa only [Pending, waiting, List.mem_append, List.mem_map, or_assoc] using hr'
        refine hbefore ((mem_records hperm).mpr (.inl hr))
          ((mem_records hperm).mpr (.inr hleft)) ?_
        rcases hleft with ⟨c, hc, rfl⟩ | hwaiting
        · exact horder.logHand r hr c hc
        · exact horder.logWaiting r hr r' hwaiting
    · intro hterm
      have hcreated : ∀ r ∈ cfg.records, Created cfg r.executingPid := fun r hr => by
        rw [hsingle.pid r hr, ← hsingle.mainThreadID]
        exact .main
      have hlog := executedLog_perm_of_terminated hcreated htimely hterm
      have hlen := hall.length_eq.trans hlog.length_eq.symm
      have hnil : left.mergeSort le = [] := by
        rw [List.length_append] at hlen
        exact List.length_eq_zero_iff.mp (by omega)
      rw [hnil, List.append_nil]
  · intro c hc r hr
    refine hbefore ?_ ?_ (horder.hand c hc r (List.mem_append_right _ hr))
    · exact (mem_records hperm).mpr (.inr (.inl ⟨c, hc, rfl⟩))
    · exact (mem_records hperm).mpr (.inr (.inr (List.mem_append_right _ hr)))

/-- Records of three kinds, visited by the batches in another order. -/
def openTrace : Config where
  modules :=
    [[⟨.umask, 0, 7, 1, 2, 0⟩], [⟨.open_, 1, 7, 3, 4, 3⟩, ⟨.open_, 4, 7, 9, 10, 4⟩],
      [⟨.read, 2, 7, 5, 6, 0⟩]]
  order := [2, 0, 1]
  uninitialised i := i
  modules_nonempty := by simp
  order_perm := by decide

theorem openTrace_singleThread : SingleThread openTrace 7 where
  pid := by decide
  noClone := by decide
  first := ⟨[⟨.umask, 0, 7, 1, 2, 0⟩], by decide, ⟨.umask, 0, 7, 1, 2, 0⟩, by decide⟩
  increasing := by unfold Config.RowsIncreasing; decide

/-- The reader to its end, then the executor to its end. -/
theorem openTrace_replayed :
    ∃ s, Terminated s ∧ ∃ sorted : List Record, sorted.Perm openTrace.records ∧
      (sorted.Pairwise fun r r' => r.uniqueId ≤ r'.uniqueId) ∧
      s.executedLog = sorted := by
  obtain ⟨s, hreach, hs⟩ := (replay openTrace).exists_reachable
    (List.replicate 14 (.reader 0) ++ List.replicate 26 (.executor 0 0))
    (fun s => decide (Terminated s)) (by decide)
  have hterm := of_decide_eq_true hs
  obtain ⟨⟨sorted, hperm, hsorted, _, hdone⟩, _⟩ :=
    single_thread_replay_sorted openTrace_singleThread (fun _ _ => rfl) hreach
  exact ⟨s, hterm, sorted, hperm, hsorted, hdone hterm⟩

end SyscallReplayer.SingleThreadReplay
