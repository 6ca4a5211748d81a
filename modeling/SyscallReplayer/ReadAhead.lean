import SyscallReplayer.Lookahead
import SyscallReplayer.QueueAccounting

/-!
# How far the reader runs ahead

A batch passes over a module that has more than twice the batch size counted, and
pushes less than the batch size otherwise. Together they bound what a module may
have queued or in the hands of executors.
-/

namespace SyscallReplayer.ReadAhead

open SyscallReplayer.CInt
open SyscallReplayer.TransitionSystem
open SyscallReplayer.Scheduler
open SyscallReplayer.SchedulerSteps
open SyscallReplayer.ReaderProgress
open SyscallReplayer.RecordConservation
open SyscallReplayer.ThreadOrder
open SyscallReplayer.RunningTable
open SyscallReplayer.QueueAccounting
open SyscallReplayer.Lookahead

/-- The copies of module `i` that are queued or in hand. -/
def backlog (s : State) (i : Nat) : Nat :=
  (copies s).countP (producedBy i)

/-- What the backlog of a module stays below while a batch reads it. -/
def limit (s : State) (b : Batch) : Nat :=
  if b.isFirstTime then 1000 else 3 * b.batchSize + s.nThreads

def batchOf : ReaderPc → Option Batch
  | .modules b | .carry _ b | .rows _ b _ | .counting _ _ b _ | .finishing _ b => some b
  | .prepare | .check | .spin | .done => none

/-- The module that is read, with the batch and the rows that are still allowed. -/
def reading : ReaderPc → Option (Nat × Batch × Nat)
  | .rows i b count | .counting _ i b count => some (i, b, count)
  | _ => none

/-- The first batch has not come to module `i` yet. -/
def unvisited (i : Nat) (pc : ReaderPc) : Prop :=
  pc = .prepare ∨ ∃ b, batchOf pc = some b ∧ b.isFirstTime = true ∧ i ∈ b.todo

structure BacklogInv (s : State) (i : Nat) : Prop where
  total : backlog s i < max 1000 (451 * s.nThreads)
  size : ∀ b, batchOf s.reader = some b →
    b.batchSize ≤ if b.isFirstTime then 1000 else 150 * s.nThreads
  unvisited : unvisited i s.reader → backlog s i ≤ 1
  carry : ∀ b, s.reader = .carry i b → backlog s i ≤ 2 * b.batchSize + s.nThreads
  reading : ∀ b count, reading s.reader = some (i, b, count) →
    backlog s i + max 2 count ≤ limit s b + 1

section State

variable {cfg : Config} {s s' t : State} {i : Nat}

theorem limit_mono (hthreads : s.nThreads ≤ s'.nThreads) (b : Batch) : limit s b ≤ limit s' b := by
  unfold limit
  split
  · exact Nat.le_refl _
  · omega

theorem BacklogInv.anti (hinv : BacklogInv s i) (hreader : s'.reader = s.reader)
    (hthreads : s.nThreads ≤ s'.nThreads) (hle : backlog s' i ≤ backlog s i) :
    BacklogInv s' i := by
  obtain ⟨htotal, hsize, hunvisited, hcarry, hreading⟩ := hinv
  constructor
  · omega
  · rw [hreader]
    intro b hb
    refine (hsize b hb).trans ?_
    split
    · exact Nat.le_refl _
    · omega
  · rw [hreader]
    exact fun h => hle.trans (hunvisited h)
  · rw [hreader]
    intro b hb
    have := hcarry b hb
    omega
  · rw [hreader]
    intro b count hb
    have hbound := hreading b count hb
    have hlimit := limit_mono hthreads b
    omega

theorem backlog_moved {e : Executor} {pc' : ExecutorPc} {before after : List Executor}
    (hsplit : s.executors = before ++ e :: after)
    (h : ExecutorTransition cfg s e.threadID e.pc t pc') (i : Nat) :
    backlog (moved t e pc' before after) i ≤ backlog s i := by
  have hhand := (held_perm (f := inHand) rfl before after e pc').countP_eq (producedBy i)
  rw [← hsplit, List.countP_append, List.countP_append] at hhand
  simp only [backlog, copies, copiesInHand, moved, List.countP_append]
  generalize before ++ ⟨e.threadID, pc'⟩ :: (after ++ newExecutors e.pc) = executors' at hhand ⊢
  obtain ⟨tid, pc⟩ := e
  cases h with
  | pop c hc =>
      have hcount := queuedOf_erase (mem_queued_of_mem_minima hc) i
      simp only [inHand, queuedOf, Option.toList_some, Option.toList_none, List.countP_nil,
        countP_singleton_producedBy] at hhand hcount
      change _ + (s.queued.erase c).countP (producedBy i) ≤ _
      omega
  | repush c =>
      simp only [inHand, Option.toList_some, Option.toList_none, List.countP_nil,
        countP_singleton_producedBy] at hhand
      rw [queuedOf_append]
      omega
  | execute c =>
      simp only [inHand, Option.toList_some, Option.toList_none, List.countP_nil,
        countP_singleton_producedBy] at hhand
      rw [execute_queued]
      omega
  | _ =>
      simp only [inHand, Option.toList_some, Option.toList_none, List.countP_nil] at hhand
      change _ + s.queued.countP (producedBy i) ≤ _
      omega

/-- An executor has its copy in hand or has pushed it back, not both. -/
theorem countP_inHand_add_recounting (executors : List Executor) (i : Nat) :
    (held inHand executors).countP (producedBy i) +
      (held recounting executors).countP (producedBy i) ≤ executors.length := by
  induction executors with
  | nil => exact Nat.le_refl _
  | cons e executors ih =>
      have hone : (inHand e.pc).toList.countP (producedBy i) +
          (recounting e.pc).toList.countP (producedBy i) ≤ 1 := by
        have hle := List.countP_le_length (p := producedBy i) (l := (inHand e.pc).toList)
        have hle' := List.countP_le_length (p := producedBy i) (l := (recounting e.pc).toList)
        cases hpc : e.pc <;> simp [hpc, inHand, recounting] at hle hle' ⊢ <;> omega
      rw [held_cons, held_cons, List.countP_append, List.countP_append, List.length_cons]
      omega

/-- A counter that is not settled says how large the backlog is, up to one for each
executor. -/
theorem backlog_le_numberOfSyscalls (hacc : Accounting cfg s) (hwindow : WindowInv s)
    (hi : i < cfg.replayerIdx) (hsettled : settled s i = false)
    (hpushing : pushing s.reader = none) :
    (backlog s i : Int) ≤ s.numberOfSyscalls i + s.nThreads ∧
      s.numberOfSyscalls i ≤ (accounted cfg s).length := by
  have hexact := hacc.exact i hi hsettled
  have hone := countP_inHand_add_recounting s.executors i
  have hcopies := copiesOf_le cfg s i
  have hcrowd := hwindow.crowd
  have hback : backlog s i =
      (held inHand s.executors).countP (producedBy i) + queuedOf s i := by
    rw [backlog, copies, List.countP_append, copiesInHand, queuedOf]
  simp only [balance, hpushing, Option.toList_none, List.countP_nil] at hexact
  omega

theorem backlog_of_entered (hsize : (cfg.records.length : Int) ≤ longLongMax)
    (hperm : (accounted cfg s).Perm cfg.records) (hacc : Accounting cfg s)
    (hwindow : WindowInv s) (hi : i < cfg.replayerIdx) (hsettled : settled s i = false)
    (hpushing : pushing s.reader = none) {n : Nat}
    (henter : uint64 (s.numberOfSyscalls i) ≤ n) : backlog s i ≤ n + s.nThreads := by
  obtain ⟨hle, hlt⟩ := backlog_le_numberOfSyscalls hacc hwindow hi hsettled hpushing
  rw [hperm.length_eq] at hlt
  rcases Int.lt_or_le (s.numberOfSyscalls i) 0 with hneg | hnonneg
  · omega
  · have heq : uint64 (s.numberOfSyscalls i) = s.numberOfSyscalls i := by
      unfold uint64
      unfold longLongMax at hsize
      omega
    omega

theorem entered_of_readerStep {pick : Nat} {b b' : Batch} (hpc : s.reader = .modules b)
    (hcarry : s'.reader = .carry i b') (h : readerStep cfg s pick = some s') :
    uint64 (s.numberOfSyscalls (s.series i).replayerIndex) ≤ b.batchSize * 2 ∧
      b'.batchSize = b.batchSize := by
  simp only [readerStep, hpc] at h
  split at h
  · split at h
    · cases h
      cases hcarry
    · cases h
      cases hcarry
  · split at h
    · cases h
      cases hcarry
    · rename_i hguard
      split at h
      · cases h
        cases hcarry
      · cases h
        cases hcarry
        exact ⟨by omega, rfl⟩

theorem backlogInv_of_idle (htotal : backlog s i < max 1000 (451 * s.nThreads))
    (hidle : s.reader = .check ∨ s.reader = .spin ∨ s.reader = .done) : BacklogInv s i := by
  constructor
  · exact htotal
  · rcases hidle with h | h | h <;> rw [h] <;> exact fun _ hb => (Option.some_ne_none _ hb.symm).elim
  · rcases hidle with h | h | h <;> rw [h] <;>
      exact fun hu => hu.elim (fun heq => by cases heq)
        fun ⟨_, hb, _⟩ => (Option.some_ne_none _ hb.symm).elim
  · rcases hidle with h | h | h <;> rw [h] <;> exact fun _ hb => by cases hb
  · rcases hidle with h | h | h <;> rw [h] <;> exact fun _ _ hb => (Option.some_ne_none _ hb.symm).elim

theorem backlogInv_of_batch {b : Batch} {n : Nat} (hb : batchOf s.reader = some b)
    (hn : backlog s i = n) (htotal : n < max 1000 (451 * s.nThreads))
    (hsize : b.batchSize ≤ if b.isFirstTime then 1000 else 150 * s.nThreads)
    (hunvisited : b.isFirstTime = true → i ∈ b.todo → n ≤ 1)
    (hcarry : s.reader = .carry i b → n ≤ 2 * b.batchSize + s.nThreads)
    (hreading : ∀ count, reading s.reader = some (i, b, count) →
      n + max 2 count ≤ limit s b + 1) : BacklogInv s i := by
  subst hn
  have hunique : ∀ b', batchOf s.reader = some b' → b' = b := fun b' hb' =>
    Option.some.inj (hb'.symm.trans hb)
  constructor
  · exact htotal
  · intro b' hb'
    rw [hunique b' hb']
    exact hsize
  · rintro (hprepare | ⟨b', hb', hfirst, htodo⟩)
    · rw [hprepare] at hb
      cases hb
    · cases hunique b' hb'
      exact hunvisited hfirst htodo
  · intro b' hb'
    cases hunique b' (by rw [hb']; rfl)
    exact hcarry hb'
  · intro b' count hb'
    have hbatch : batchOf s.reader = some b' := by
      cases hpc : s.reader <;> rw [hpc] at hb' <;> cases hb' <;> rfl
    cases hunique b' hbatch
    exact hreading count hb'

theorem limit_le (hthreads : 1 ≤ s.nThreads) {b : Batch}
    (hsize : b.batchSize ≤ if b.isFirstTime then 1000 else 150 * s.nThreads) :
    limit s b ≤ max 1000 (451 * s.nThreads) := by
  unfold limit
  split
  · omega
  · rename_i hfirst
    rw [if_neg hfirst] at hsize
    omega

theorem backlog_push {c : Copy} (hexecutors : s'.executors = s.executors)
    (hqueued : s'.queued = s.queued ++ [c]) :
    backlog s' i = backlog s i + if c.producer = i then 1 else 0 := by
  rw [backlog, backlog, copies, copies, copiesInHand, copiesInHand, hexecutors, hqueued,
    List.countP_append, queuedOf_append, List.countP_append, Nat.add_assoc]

theorem backlog_same (hhand : copiesInHand s' = copiesInHand s) (hqueued : s'.queued = s.queued) :
    backlog s' i = backlog s i := by
  rw [backlog, backlog, copies, copies, hhand, hqueued]

theorem readerStep_backlogInv (hreader : ReaderInv cfg s)
    (hlow : ∀ n : Nat, (∃ b, s.reader = .modules b) →
      s.finishedModules i = false → uint64 (s.numberOfSyscalls i) ≤ n →
        backlog s i ≤ n + s.nThreads)
    (hi : i < cfg.replayerIdx) (hinv : BacklogInv s i) {pick : Nat}
    (h : readerStep cfg s pick = some s') : BacklogInv s' i := by
  have hpc := hreader.pc
  have hthreads := hreader.nThreads
  cases readerTransition_of_readerStep h with
  | prepareEmpty hprepare _ =>
      refine backlogInv_of_batch rfl rfl hinv.total (Nat.le_refl _) (fun _ _ => ?_) ?_ ?_
      · exact hinv.unvisited (.inl hprepare)
      · exact fun hcarry => by cases hcarry
      · exact fun _ hreading => by cases hreading
  | prepareUmask hprepare c hc humask hid =>
      have hle : backlog (prepared cfg s c) i ≤ backlog s i := by
        have hcount := queuedOf_erase (mem_queued_of_mem_minima hc) i
        simp only [backlog, copies, List.countP_append]
        change (copiesInHand s).countP _ + (s.queued.erase c).countP _ ≤
          (copiesInHand s).countP _ + queuedOf s i
        omega
      refine backlogInv_of_batch rfl rfl (hle.trans_lt hinv.total) (Nat.le_refl _) (fun _ _ => ?_) ?_ ?_
      · exact hle.trans (hinv.unvisited (.inl hprepare))
      · exact fun hcarry => by cases hcarry
      · exact fun _ hreading => by cases hreading
  | firstBatchDone b hb htodo hfirst =>
      refine backlogInv_of_idle (Eq.trans_lt ?_ hinv.total) (.inl rfl)
      exact backlog_same ((held_append _ _ _).trans (List.append_nil _)) rfl
  | batchDone b hb htodo hfirst => exact backlogInv_of_idle hinv.total (.inl rfl)
  | skip b j rest hb htodo hskip =>
      have hsize := hinv.size b (by rw [hb]; rfl)
      refine backlogInv_of_batch rfl rfl hinv.total hsize (fun hfirst hmem => ?_) ?_ ?_
      · exact hinv.unvisited (.inr ⟨b, by rw [hb]; rfl, hfirst, htodo ▸ List.mem_cons_of_mem _ hmem⟩)
      · exact fun hcarry => by cases hcarry
      · exact fun _ hreading => by cases hreading
  | enterFirst b j rest hb htodo hunfinished hfirst =>
      have hsize := hinv.size b (by rw [hb]; rfl)
      have hfresh : i ∈ b.todo → backlog s i ≤ 1 := fun hmem =>
        hinv.unvisited (.inr ⟨b, by rw [hb]; rfl, hfirst, hmem⟩)
      refine backlogInv_of_batch rfl rfl hinv.total hsize (fun _ hmem => ?_) ?_ fun count hreading => ?_
      · exact hfresh (htodo ▸ List.mem_cons_of_mem _ hmem)
      · exact fun hcarry => by cases hcarry
      · cases hreading
        have hone := hfresh (htodo ▸ List.mem_cons_self)
        rw [if_pos hfirst] at hsize
        change backlog s i + max 2 b.batchSize ≤ limit s b + 1
        rw [limit, if_pos hfirst]
        omega
  | enterCarry b j rest hb htodo hunfinished hfirst =>
      have hsize := hinv.size b (by rw [hb]; rfl)
      refine backlogInv_of_batch rfl rfl hinv.total hsize (fun hfirst' _ => ?_) (fun hcarry => ?_) ?_
      · rw [hfirst] at hfirst'
        cases hfirst'
      · cases hcarry
        obtain ⟨henter, _⟩ := entered_of_readerStep hb rfl h
        rw [hreader.index i hi] at henter hunfinished
        have hle := hlow (b.batchSize * 2) ⟨b, hb⟩ hunfinished (by exact_mod_cast henter)
        change backlog s i ≤ 2 * b.batchSize + s.nThreads
        omega
      · exact fun _ hreading => by cases hreading
  | carry j b hb =>
      have hsize := hinv.size b (by rw [hb]; rfl)
      rw [hb] at hpc
      obtain ⟨hbatch, _, hfirst⟩ := hpc
      have hthree := hbatch.size
      rw [hfirst, if_neg Bool.false_ne_true] at hsize
      refine backlogInv_of_batch rfl (backlog_push (s := s) rfl rfl) ?_ ?_ (fun hfirst' _ => ?_) ?_
        fun count hreading => ?_
      · change (backlog s i + if j = i then 1 else 0) < max 1000 (451 * s.nThreads)
        have htotal := hinv.total
        split
        · rename_i heq
          subst heq
          have hcarry := hinv.carry b hb
          omega
        · omega
      · rw [hfirst, if_neg Bool.false_ne_true]
        exact hsize
      · rw [hfirst] at hfirst'
        cases hfirst'
      · exact fun hcarry => by cases hcarry
      · cases hreading
        have hcarry := hinv.carry b hb
        change (backlog s i + if i = i then 1 else 0) + max 2 b.batchSize ≤ limit s b + 1
        rw [if_pos rfl, limit, if_neg (by rw [hfirst]; exact Bool.false_ne_true)]
        omega
  | count c j b count hb =>
      refine backlogInv_of_batch rfl rfl hinv.total (hinv.size b (by rw [hb]; rfl)) ?_ ?_ ?_
      · exact fun hfirst hmem => hinv.unvisited (.inr ⟨b, by rw [hb]; rfl, hfirst, hmem⟩)
      · exact fun hcarry => by cases hcarry
      · intro count' hreading
        exact hinv.reading b count' (by rw [hb]; exact hreading)
  | rowsEnd j b hb =>
      refine backlogInv_of_batch rfl rfl hinv.total (hinv.size b (by rw [hb]; rfl)) ?_ ?_ ?_
      · exact fun hfirst hmem => hinv.unvisited (.inr ⟨b, by rw [hb]; rfl, hfirst, hmem⟩)
      · exact fun hcarry => by cases hcarry
      · exact fun _ hreading => by cases hreading
  | rowsFinish j b count hb hunread =>
      refine backlogInv_of_batch rfl rfl hinv.total (hinv.size b (by rw [hb]; rfl)) ?_ ?_ ?_
      · exact fun hfirst hmem => hinv.unvisited (.inr ⟨b, by rw [hb]; rfl, hfirst, hmem⟩)
      · exact fun hcarry => by cases hcarry
      · exact fun _ hreading => by cases hreading
  | rowsHold j b r rest hb hunread =>
      refine backlogInv_of_batch rfl rfl hinv.total (hinv.size b (by rw [hb]; rfl)) ?_ ?_ ?_
      · exact fun hfirst hmem => hinv.unvisited (.inr ⟨b, by rw [hb]; rfl, hfirst, hmem⟩)
      · exact fun hcarry => by cases hcarry
      · intro count' hreading
        cases hreading
        exact hinv.reading b 2 (by rw [hb]; rfl)
  | rowsPush j b count r rest hb hunread =>
      have hsize := hinv.size b (by rw [hb]; rfl)
      have hreading : j = i → backlog s i + max 2 (count + 3) ≤ limit s b + 1 := fun heq =>
        hinv.reading b (count + 3) (by rw [hb, heq]; rfl)
      refine backlogInv_of_batch rfl (backlog_push (s := s) rfl rfl) ?_ hsize (fun hfirst hmem => ?_) ?_
        fun count' hcount => ?_
      · change (backlog s i + if j = i then 1 else 0) < max 1000 (451 * s.nThreads)
        have htotal := hinv.total
        have hlimit := limit_le hthreads hsize
        split
        · rename_i heq
          have hbound := hreading heq
          omega
        · omega
      · rw [hb] at hpc
        change (backlog s i + if j = i then 1 else 0) ≤ 1
        have hne : j ≠ i := fun heq => hpc.2.1.not_todo (heq ▸ hmem)
        rw [if_neg hne]
        exact hinv.unvisited (.inr ⟨b, by rw [hb]; rfl, hfirst, hmem⟩)
      · exact fun hcarry => by cases hcarry
      · cases hcount
        have hbound := hreading rfl
        change (backlog s i + if i = i then 1 else 0) + max 2 (count + 2) ≤ limit s b + 1
        rw [if_pos rfl]
        omega
  | finish j b hb =>
      refine backlogInv_of_batch rfl rfl hinv.total (hinv.size b (by rw [hb]; rfl)) ?_ ?_ ?_
      · exact fun hfirst hmem => hinv.unvisited (.inr ⟨b, by rw [hb]; rfl, hfirst, hmem⟩)
      · exact fun hcarry => by cases hcarry
      · exact fun _ hreading => by cases hreading
  | checkDone hb hdone => exact backlogInv_of_idle hinv.total (.inr (.inr rfl))
  | checkSpin hb hdone => exact backlogInv_of_idle hinv.total (.inr (.inl rfl))
  | spinWait hb => exact hinv
  | spinBatch hb =>
      refine backlogInv_of_batch rfl rfl hinv.total (Nat.le_refl _) (fun hfirst => ?_) ?_ ?_
      · cases hfirst
      · exact fun hcarry => by cases hcarry
      · exact fun _ hreading => by cases hreading

theorem loadSyscallModules_backlogInv (hi : i < cfg.replayerIdx) :
    BacklogInv (loadSyscallModules cfg) i := by
  have hone : backlog (loadSyscallModules cfg) i = 1 := loadSyscallModules_queuedOf hi
  constructor
  · rw [hone]
    exact lt_max_of_lt_left (by decide)
  · exact fun _ hb => by cases hb
  · exact fun _ => hone.le
  · exact fun _ hb => by cases hb
  · exact fun _ _ hb => by cases hb

theorem reachable_backlogInv (hidx : cfg.IndexedCopies)
    (hsize : (cfg.records.length : Int) ≤ longLongMax) (h : (replay cfg).Reachable s)
    (hi : i < cfg.replayerIdx) : BacklogInv s i := by
  refine h.invariant (P := fun s => BacklogInv s i) _ (loadSyscallModules_backlogInv hi)
    fun s a s' hreach hinv _ hstep => ?_
  have hreader := reachable_readerInv hreach
  cases a with
  | reader pick =>
      refine readerStep_backlogInv hreader (fun n hb hunfinished henter => ?_) hi hinv hstep
      obtain ⟨b, hb⟩ := hb
      have hsettled : settled s i = false := by
        rw [settled, hunfinished, Bool.false_and]
      exact backlog_of_entered hsize (reachable_accounted hreach) (reachable_accounting hidx hreach)
        (reachable_windowInv hreach) hi hsettled (by rw [hb]; rfl) henter
  | executor index pick =>
      have htrans : Transition cfg s (.executor index pick) s' := transition_of_step hstep
      cases htrans with
      | executor _ _ e before after _ hsplit h =>
          exact hinv.anti h.frame.2.2.1 h.frame.2.2.2 (backlog_moved hsplit h i)

/-- A module has fewer than 1000 copies queued or in hand, or fewer than 451 for each
thread that was started. -/
theorem backlog_bounded (hidx : cfg.IndexedCopies)
    (hsize : (cfg.records.length : Int) ≤ longLongMax) (h : (replay cfg).Reachable s)
    (hi : i < cfg.replayerIdx) : backlog s i < max 1000 (451 * s.nThreads) :=
  (reachable_backlogInv hidx hsize h hi).total

end State

/-- The set-up has run and the second row is queued. -/
theorem umaskTrace_backlog :
    ∃ s : State, backlog s 0 = 1 ∧ backlog s 0 < max 1000 (451 * s.nThreads) := by
  obtain ⟨s, hreach, hs⟩ := (replay (umaskTrace 0)).exists_reachable
    (List.replicate 4 (.reader 0)) (fun s => decide (backlog s 0 = 1)) (by decide)
  have hidx : (umaskTrace 0).IndexedCopies := by
    intro i hi
    have hlen : (umaskTrace 0).replayerIdx = 1 := rfl
    have hzero : i = 0 := by omega
    rw [hzero]
    rfl
  exact ⟨s, of_decide_eq_true hs, backlog_bounded hidx (by decide) hreach (by decide)⟩

end SyscallReplayer.ReadAhead
