import SyscallReplayer.Admission

/-!
# How far execution runs ahead

Once a thread has been started every record passes `checkSequential` before it is
executed. The log then grows by ids at most 150 above what it has reached.
-/

namespace SyscallReplayer.Lookahead

open SyscallReplayer.TransitionSystem
open SyscallReplayer.Scheduler
open SyscallReplayer.SchedulerSteps
open SyscallReplayer.ReaderProgress
open SyscallReplayer.RecordConservation
open SyscallReplayer.ThreadOrder
open SyscallReplayer.RunningTable
open SyscallReplayer.Admission

/-- The largest id of a log, or the initial `lastExecutedSyscallID`. -/
def reach (log : List Record) : Nat :=
  log.foldl (fun last r => max last r.uniqueId) 1

@[simp] theorem reach_append_singleton (log : List Record) (r : Record) :
    reach (log ++ [r]) = max (reach log) r.uniqueId := by
  rw [reach, List.foldl_append]
  rfl

theorem reach_le_append (log tail : List Record) : reach log ≤ reach (log ++ tail) := by
  induction tail using List.reverseRecOn with
  | nil => rw [List.append_nil]
  | append_singleton tail r ih =>
      rw [← List.append_assoc, reach_append_singleton]
      exact ih.trans (Nat.le_max_left _ _)

/-- The log reaches the id of one of its records, or has not passed the initial
value. -/
theorem reach_eq (log : List Record) :
    reach log = 1 ∨ ∃ r ∈ log, r.uniqueId = reach log := by
  induction log using List.reverseRecOn with
  | nil => exact .inl rfl
  | append_singleton log r ih =>
      rw [reach_append_singleton]
      rcases Nat.le_total (reach log) r.uniqueId with hle | hle
      · rw [Nat.max_eq_right hle]
        exact .inr ⟨r, List.mem_append_right _ (List.mem_singleton.mpr rfl), rfl⟩
      · rw [Nat.max_eq_left hle]
        exact ih.imp_right fun ⟨r', hr', heq⟩ => ⟨r', List.mem_append_left _ hr', heq⟩

def starters (log : List Record) : Nat :=
  log.countP fun r => r.child.isSome

/-- After the first thread start a log only grows within the window. -/
def Windowed (log : List Record) : Prop :=
  ∀ before r after, log = before ++ r :: after → 0 < starters before →
    r.uniqueId ≤ reach before + 150

theorem Windowed.append_singleton {log : List Record} (h : Windowed log) {r : Record}
    (hr : 0 < starters log → r.uniqueId ≤ reach log + 150) : Windowed (log ++ [r]) := by
  intro before q after hsplit hstart
  rcases List.eq_nil_or_concat after with rfl | ⟨after', last, rfl⟩
  · obtain ⟨rfl, hlast⟩ := List.append_inj' hsplit rfl
    cases hlast
    exact hr hstart
  · rw [List.concat_eq_append, ← List.cons_append, ← List.append_assoc] at hsplit
    obtain ⟨rfl, _⟩ := List.append_inj' hsplit rfl
    exact h before q after' rfl hstart

section State

variable {cfg : Config} {s s' t : State} {tid : Int} {pc pc' : ExecutorPc}
  {c : Copy}

structure WindowInv (s : State) : Prop where
  crowd : s.executors.length ≤ s.nThreads
  count : s.nThreads = 1 + starters s.executedLog
  last : s.lastExecutedSyscallID ≤ reach s.executedLog
  pending : ∀ e ∈ s.executors, ∀ n, pendingStore e.pc = some n → n ≤ reach s.executedLog
  admitted : ∀ e ∈ s.executors, ∀ c, e.pc = .admitted c → 1 < s.nThreads →
    c.record.uniqueId ≤ reach s.executedLog + 150
  log : Windowed s.executedLog

theorem starters_append_singleton (log : List Record) (r : Record) :
    starters (log ++ [r]) = starters log + (spawned r).length := by
  rw [starters, starters, List.countP_append, List.countP_singleton, spawned]
  cases r.child with
  | none => rfl
  | some tid => rfl

theorem spawned_of_umask {r : Record} (h : r.sysCallName = .umask) : spawned r = [] := by
  rw [spawned, Record.child, h]

theorem reach_mono_of_executorTransition (h : ExecutorTransition cfg s tid pc t pc') :
    reach s.executedLog ≤ reach t.executedLog := by
  rcases executedLog_of_executorTransition h with ⟨hlog, _⟩ | ⟨c, _, _, hlog, _⟩
  · rw [hlog]
  · rw [hlog]
    exact reach_le_append _ _

theorem last_of_executorTransition (h : ExecutorTransition cfg s tid pc t pc') :
    t.lastExecutedSyscallID = s.lastExecutedSyscallID ∨
      pendingStore pc = some t.lastExecutedSyscallID := by
  cases h with
  | storeLast n => exact .inr rfl
  | execute c =>
      refine .inl ?_
      unfold State.execute
      cases c.record.child <;> rfl
  | _ => exact .inl rfl

/-- An id comes up for storing when its record is executed. -/
theorem pendingStore_of_executorTransition (h : ExecutorTransition cfg s tid pc t pc') {n : Nat}
    (hn : pendingStore pc' = some n) :
    n ≤ reach t.executedLog ∨ ∃ m, pendingStore pc = some m ∧ n ≤ max s.lastExecutedSyscallID m := by
  cases h with
  | execute c =>
      cases hn
      rw [execute_log, reach_append_singleton]
      exact .inl (Nat.le_max_right _ _)
  | readLast c =>
      cases hn
      exact .inr ⟨_, rfl, Nat.le_refl _⟩
  | _ => cases hn

theorem admitted_of_executorTransition (h : ExecutorTransition cfg s tid pc t (.admitted c))
    (hmany : 1 < s.nThreads) : c.record.uniqueId ≤ s.lastExecutedSyscallID + 150 := by
  cases h with
  | oneThread _ hone => omega
  | validate _ hvalid =>
      rw [State.checkExecutionValidation, Bool.and_eq_true] at hvalid
      exact of_decide_eq_true hvalid.1

theorem readerTransition_windowInv (hreader : ReaderInv cfg s) (hinv : WindowInv s)
    (h : ReaderTransition cfg s s') : WindowInv s' := by
  obtain ⟨hcrowd, hcount, hlast, hpending, hadmitted, hlog⟩ := hinv
  have hpc := hreader.pc
  cases h with
  | firstBatchDone b hb _ hfirst =>
      rw [hb] at hpc
      have hnone : s.executors = [] := (hpc.first hfirst).executors
      have hmain : ∀ e ∈ s.executors ++ [⟨cfg.mainThreadID, .top⟩], e.pc = .top := by
        intro e he
        rw [hnone, List.nil_append, List.mem_singleton] at he
        rw [he]
      refine ⟨?_, hcount, hlast, fun e he n hn => ?_, fun e he c hc => ?_, hlog⟩
      · change (s.executors ++ [_]).length ≤ s.nThreads
        rw [hnone]
        exact hreader.nThreads
      · rw [hmain e he] at hn
        cases hn
      · rw [hmain e he] at hc
        cases hc
  | prepareUmask hprepare c hc humask hid =>
      rw [hprepare] at hpc
      have hnone : s.executors = [] := hpc.1
      refine ⟨hcrowd, ?_, ?_, fun e he => ?_, fun e he => ?_, hlog.append_singleton fun _ => ?_⟩
      · change s.nThreads = 1 + starters (s.executedLog ++ [c.record])
        rw [starters_append_singleton, spawned_of_umask humask]
        exact hcount
      · change c.record.uniqueId ≤ reach (s.executedLog ++ [c.record])
        rw [hid]
        exact Nat.zero_le _
      · change e ∈ s.executors at he
        rw [hnone] at he
        cases he
      · change e ∈ s.executors at he
        rw [hnone] at he
        cases he
      · rw [hid]
        exact Nat.zero_le _
  | _ => exact ⟨hcrowd, hcount, hlast, hpending, hadmitted, hlog⟩

variable {e : Executor} {before after : List Executor}

theorem moved_crowd (hinv : WindowInv s) (hsplit : s.executors = before ++ e :: after)
    (h : ExecutorTransition cfg s e.threadID e.pc t pc') :
    (moved t e pc' before after).executors.length ≤ t.nThreads ∧
      t.nThreads = 1 + starters t.executedLog := by
  have hlen : (moved t e pc' before after).executors.length =
      s.executors.length + (newExecutors e.pc).length := by
    rw [hsplit, moved]
    simp only [List.length_append, List.length_cons]
    omega
  rw [hlen]
  have hcrowd := hinv.crowd
  have hcount := hinv.count
  rcases executedLog_of_executorTransition h with ⟨hlog, hthreads, hnew⟩ | ⟨c, hpc, _, hlog, hthreads⟩
  · rw [hlog, hthreads, hnew]
    exact ⟨hcrowd, hcount⟩
  · rw [hlog, hthreads, hpc, starters_append_singleton, newExecutors]
    omega

/-- Only the executor of the main thread can start the second thread, and no other
one is there to be admitted before. -/
theorem admitted_of_other (hinv : WindowInv s) (hsplit : s.executors = before ++ e :: after)
    {e' : Executor} (he' : e' ∈ before ∨ e' ∈ after) (hc : e'.pc = .admitted c) :
    c.record.uniqueId ≤ reach s.executedLog + 150 := by
  refine hinv.admitted e' (mem_of_split hsplit he') c hc ?_
  have hcrowd := hinv.crowd
  have hlen : 2 ≤ s.executors.length := by
    rw [hsplit, List.length_append, List.length_cons]
    rcases he' with he' | he'
    · have := List.length_pos_of_mem he'
      omega
    · have := List.length_pos_of_mem he'
      omega
  omega

theorem moved_windowInv (hinv : WindowInv s) (hsplit : s.executors = before ++ e :: after)
    (h : ExecutorTransition cfg s e.threadID e.pc t pc') :
    WindowInv (moved t e pc' before after) := by
  obtain ⟨hcrowd, hcount⟩ := moved_crowd hinv hsplit h
  have hmono := reach_mono_of_executorTransition h
  have he : e ∈ s.executors := by
    rw [hsplit]
    exact List.mem_append_right _ List.mem_cons_self
  refine ⟨hcrowd, hcount, ?_, fun e' he' n hn => ?_, fun e' he' c hc hmany => ?_, ?_⟩
  · change t.lastExecutedSyscallID ≤ reach t.executedLog
    rcases last_of_executorTransition h with heq | hstored
    · rw [heq]
      exact hinv.last.trans hmono
    · exact (hinv.pending e he _ hstored).trans hmono
  · change n ≤ reach t.executedLog
    rcases mem_replaced he' with hold | rfl | hnew
    · exact (hinv.pending e' (mem_of_split hsplit hold) n hn).trans hmono
    · rcases pendingStore_of_executorTransition h hn with hle | ⟨m, hm, hle⟩
      · exact hle
      · exact (hle.trans (Nat.max_le.mpr ⟨hinv.last, hinv.pending e he m hm⟩)).trans hmono
    · rw [(newExecutors_pc hnew).1] at hn
      cases hn
  · change c.record.uniqueId ≤ reach t.executedLog + 150
    rcases mem_replaced he' with hold | rfl | hnew
    · have hle := admitted_of_other hinv hsplit hold hc
      omega
    · cases hc
      have hsame : t.nThreads = s.nThreads := by
        rcases executedLog_of_executorTransition h with ⟨_, hthreads, _⟩ | ⟨_, _, hpc', _⟩
        · exact hthreads
        · cases hpc'
      have hle := admitted_of_executorTransition h (hsame ▸ hmany)
      have hlast := hinv.last
      omega
    · rw [(newExecutors_pc hnew).1] at hc
      cases hc
  · change Windowed t.executedLog
    rcases executedLog_of_executorTransition h with ⟨hlog, _⟩ | ⟨c, hpc, _, hlog, _⟩
    · rw [hlog]
      exact hinv.log
    · rw [hlog]
      refine hinv.log.append_singleton fun hstart => hinv.admitted e he c hpc ?_
      rw [hinv.count]
      omega

theorem reachable_windowInv (h : (replay cfg).Reachable s) : WindowInv s := by
  refine h.invariant _ ?_ fun s a s' hreach hinv _ hstep => ?_
  · exact
      { crowd := Nat.zero_le _
        count := rfl
        last := Nat.le_refl _
        pending := fun _ he => (List.not_mem_nil he).elim
        admitted := fun _ he => (List.not_mem_nil he).elim
        log := fun before r after h =>
          (List.append_ne_nil_of_right_ne_nil before (List.cons_ne_nil r after) h.symm).elim }
  · cases transition_of_step hstep with
    | reader pick h => exact readerTransition_windowInv (reachable_readerInv hreach) hinv h
    | executor index pick e before after he hsplit h => exact moved_windowInv hinv hsplit h

/-- Once a record that starts a thread has been executed, no record is executed whose
id is more than 150 above every one executed before it. -/
theorem executed_in_window (h : (replay cfg).Reachable s) {before after : List Record}
    {r : Record} (hsplit : s.executedLog = before ++ r :: after)
    (hstarted : ∃ k ∈ before, k.child ≠ none) :
    r.uniqueId ≤ 151 ∨ ∃ p ∈ before, r.uniqueId ≤ p.uniqueId + 150 := by
  have hpos : 0 < starters before := by
    obtain ⟨k, hk, hchild⟩ := hstarted
    exact List.countP_pos_iff.mpr ⟨k, hk, Option.isSome_iff_ne_none.mpr hchild⟩
  have hle := (reachable_windowInv h).log before r after hsplit hpos
  rcases reach_eq before with hinit | ⟨p, hp, heq⟩
  · rw [hinit] at hle
    exact .inl hle
  · rw [← heq] at hle
    exact .inr ⟨p, hp, hle⟩

end State

/-- The first record of the started thread goes next. -/
theorem nearTrace_in_window :
    ∃ r : Record, r.uniqueId = 2 ∧ (r.uniqueId ≤ 151 ∨
      ∃ p ∈ nearTrace.records, r.uniqueId ≤ p.uniqueId + 150) := by
  let before : List Record := [⟨.umask, 0, 1, 0, 1, 0⟩, ⟨.clone, 1, 1, 2, 3, 2⟩]
  let r : Record := ⟨.read, 2, 2, 4, 5, 0⟩
  obtain ⟨s, hreach, hs⟩ := (replay nearTrace).exists_reachable
    (List.replicate 14 (.reader 0) ++ List.replicate 12 (.executor 0 0) ++
      List.replicate 7 (.executor 1 0))
    (fun s => decide (s.executedLog = before ++ r :: [])) (by decide)
  refine ⟨r, rfl, ?_⟩
  rcases executed_in_window hreach (of_decide_eq_true hs) (by decide) with hle | ⟨p, hp, hle⟩
  · exact .inl hle
  · exact .inr ⟨p, (by decide : ∀ p ∈ before, p ∈ nearTrace.records) p hp, hle⟩

end SyscallReplayer.Lookahead
