import SyscallReplayer.ThreadOrder

/-!
# The table of running calls

An executor enters the record it has popped into `currentExecutions`, empties
its entry when it gives the record back, and drops the entry when it ends. A
thread that is started gets an empty entry.
-/

namespace SyscallReplayer.RunningTable

open SyscallReplayer.TransitionSystem
open SyscallReplayer.Scheduler
open SyscallReplayer.SchedulerSteps
open SyscallReplayer.ReaderProgress
open SyscallReplayer.RecordConservation
open SyscallReplayer.ThreadOrder

section State

variable {cfg : Config} {s : State}

/-- The record in hand is the least unexecuted one of its thread. -/
theorem hand_le_pending (hexec : ExecutorsInv s) (horder : InOrder cfg s) {e : Executor}
    (he : e ∈ s.executors) {b : Copy} (hhand : inHand e.pc = some b) {r : Record}
    (hr : Pending cfg s r) (hpid : b.record.executingPid = r.executingPid) :
    b.record.uniqueId ≤ r.uniqueId := by
  have hcopy : b ∈ copiesInHand s := mem_copiesInHand.mpr ⟨e, he, hhand⟩
  rcases hr with ⟨c, hc, rfl⟩ | hr
  · obtain ⟨e', he', hhand'⟩ := mem_copiesInHand.mp hc
    have htid : e.threadID = e'.threadID := by
      rw [← hexec.pid e he b (copyOf_of_inHand hhand),
        ← hexec.pid e' he' c (copyOf_of_inHand hhand'), hpid]
    have heq := hexec.eq_of_threadID he he' (live_of_inHand hhand) (live_of_inHand hhand') htid
    rw [heq, hhand', Option.some_inj] at hhand
    rw [hhand]
  · exact horder.hand b hcopy r hr hpid

theorem threadID_ne_of_split (hinv : ExecutorsInv s) {e e' : Executor}
    {before after : List Executor} (hsplit : s.executors = before ++ e :: after)
    (he' : e' ∈ before ∨ e' ∈ after) (hlive : e.pc ≠ .exited) (hlive' : e'.pc ≠ .exited) :
    e'.threadID ≠ e.threadID := by
  have hdistinct := hinv.distinct
  rw [hsplit, List.pairwise_append, List.pairwise_cons] at hdistinct
  obtain ⟨_, ⟨hhead, _⟩, hcross⟩ := hdistinct
  rcases he' with he' | he'
  · exact hcross e' he' e List.mem_cons_self hlive' hlive
  · exact (hhead e' he' hlive hlive').symm

theorem mem_replaced {e e' : Executor} {pc' : ExecutorPc} {before after new : List Executor}
    (he' : e' ∈ before ++ ⟨e.threadID, pc'⟩ :: (after ++ new)) :
    (e' ∈ before ∨ e' ∈ after) ∨ e' = ⟨e.threadID, pc'⟩ ∨ e' ∈ new := by
  simp only [List.mem_append, List.mem_cons] at he'
  tauto

theorem mem_of_split {e e' : Executor} {before after : List Executor}
    (hsplit : s.executors = before ++ e :: after) (he' : e' ∈ before ∨ e' ∈ after) :
    e' ∈ s.executors := by
  rw [hsplit]
  exact he'.elim (List.mem_append_left _)
    fun h => List.mem_append_right _ (List.mem_cons_of_mem _ h)

def moved (t : State) (e : Executor) (pc' : ExecutorPc) (before after : List Executor) :
    State :=
  { t with executors := before ++ ⟨e.threadID, pc'⟩ :: (after ++ newExecutors e.pc) }

theorem mem_moved_of_mem {t : State} {pc' : ExecutorPc} {e : Executor}
    {before after : List Executor} (hsplit : s.executors = before ++ e :: after)
    {e' : Executor} (he' : e' ∈ s.executors) :
    e' = e ∨ e' ∈ (moved t e pc' before after).executors := by
  rw [hsplit, List.mem_append, List.mem_cons] at he'
  simp only [moved, List.mem_append, List.mem_cons]
  tauto

theorem entry_of_executorTransition {t : State} {tid : Int} {pc pc' : ExecutorPc}
    (h : ExecutorTransition cfg s tid pc t pc') {tid' : Int} {c : Copy}
    (hentry : (tid', some c) ∈ t.currentExecutions) :
    (tid', some c) ∈ s.currentExecutions ∨ pc = .guarded c ∧ tid' = tid := by
  cases h with
  | register c' =>
      rcases List.mem_cons.mp hentry with heq | hmem
      · rw [Prod.mk.injEq, Option.some_inj] at heq
        exact .inr ⟨congrArg _ heq.2.symm, heq.1⟩
      · exact .inl (List.mem_of_mem_filter hmem)
  | park c' =>
      rcases List.mem_cons.mp hentry with heq | hmem
      · exact absurd (congrArg Prod.snd heq) (Option.some_ne_none c)
      · exact .inl (List.mem_of_mem_filter hmem)
  | execute c' =>
      unfold State.execute at hentry
      cases hchild : c'.record.child with
      | none =>
          rw [hchild] at hentry
          exact .inl hentry
      | some pid =>
          rw [hchild] at hentry
          rcases List.mem_cons.mp hentry with heq | hmem
          · exact absurd (congrArg Prod.snd heq) (Option.some_ne_none c)
          · exact .inl (List.mem_of_mem_filter hmem)
  | unregister => exact .inl (List.mem_of_mem_filter hentry)
  | _ => exact .inl hentry

/-- A step only replaces the entries of its own thread and of the thread it
starts. -/
theorem entry_kept {t : State} {tid : Int} {pc pc' : ExecutorPc}
    (h : ExecutorTransition cfg s tid pc t pc') {entry : Int × Option Copy}
    (hentry : entry ∈ s.currentExecutions) (hown : entry.1 ≠ tid)
    (hchild : starting pc ≠ some entry.1) : entry ∈ t.currentExecutions := by
  have hfilter : ∀ x, entry.1 ≠ x → entry ∈ s.currentExecutions.filter fun e => e.1 ≠ x :=
    fun x hx => List.mem_filter.mpr ⟨hentry, decide_eq_true hx⟩
  cases h with
  | register c => exact List.mem_cons_of_mem _ (hfilter tid hown)
  | park c => exact List.mem_cons_of_mem _ (hfilter tid hown)
  | unregister => exact hfilter tid hown
  | execute c =>
      unfold State.execute
      rw [starting] at hchild
      cases hpid : c.record.child with
      | none => exact hentry
      | some pid =>
          refine List.mem_cons_of_mem _ (hfilter pid ?_)
          rw [hpid] at hchild
          exact fun heq => hchild (congrArg _ heq.symm)
  | _ => exact hentry

theorem key_setRunning {x tid : Int} {running : Option Copy}
    (hkey : ∃ entry ∈ s.currentExecutions, entry.1 = x) :
    ∃ entry ∈ (s.setRunning tid running).currentExecutions, entry.1 = x := by
  obtain ⟨entry, hentry, rfl⟩ := hkey
  rcases eq_or_ne entry.1 tid with heq | hne
  · exact ⟨(tid, running), List.mem_cons_self, heq.symm⟩
  · exact ⟨entry, List.mem_cons_of_mem _ (List.mem_filter.mpr ⟨hentry, decide_eq_true hne⟩),
      rfl⟩

/-- A thread stays registered until its executor leaves. -/
theorem key_kept {t : State} {tid : Int} {pc pc' : ExecutorPc}
    (h : ExecutorTransition cfg s tid pc t pc') {x : Int}
    (hkey : ∃ entry ∈ s.currentExecutions, entry.1 = x) :
    (∃ entry ∈ t.currentExecutions, entry.1 = x) ∨ pc' = .exited ∧ x = tid := by
  cases h with
  | register c => exact .inl (key_setRunning hkey)
  | park c => exact .inl (key_setRunning hkey)
  | execute c =>
      unfold State.execute
      cases c.record.child with
      | none => exact .inl hkey
      | some pid => exact .inl (key_setRunning hkey)
  | unregister =>
      obtain ⟨entry, hentry, rfl⟩ := hkey
      rcases eq_or_ne entry.1 tid with heq | hne
      · exact .inr ⟨rfl, heq⟩
      · exact .inl ⟨entry, List.mem_filter.mpr ⟨hentry, decide_eq_true hne⟩, rfl⟩
  | _ => exact .inl hkey

theorem key_of_newExecutors {t : State} {tid : Int} {pc pc' : ExecutorPc}
    (h : ExecutorTransition cfg s tid pc t pc') {e : Executor} (he : e ∈ newExecutors pc) :
    ∃ entry ∈ t.currentExecutions, entry.1 = e.threadID := by
  have hstart := (newExecutors_pc he).2
  cases h with
  | execute c =>
      rw [starting] at hstart
      unfold State.execute
      rw [hstart]
      exact ⟨_, List.mem_cons_self, rfl⟩
  | _ => exact absurd hstart (Option.some_ne_none _).symm

theorem executedLog_of_executorTransition {t : State} {tid : Int} {pc pc' : ExecutorPc}
    (h : ExecutorTransition cfg s tid pc t pc') :
    (t.executedLog = s.executedLog ∧ t.nThreads = s.nThreads ∧ newExecutors pc = []) ∨
      ∃ c, pc = .admitted c ∧ pc' = .executed c ∧
        t.executedLog = s.executedLog ++ [c.record] ∧
        t.nThreads = s.nThreads + (spawned c.record).length := by
  cases h with
  | execute c => exact .inr ⟨c, rfl, rfl, execute_log s c, execute_nThreads s c⟩
  | _ => exact .inl ⟨rfl, rfl, rfl⟩

end State

end SyscallReplayer.RunningTable
