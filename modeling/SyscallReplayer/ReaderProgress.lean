import Mathlib.Data.List.Range
import SyscallReplayer.SchedulerSteps

/-!
# The reader

What is known of the series, the finish flags and the counters at each point
of the reader, whatever the executors do.
-/

namespace SyscallReplayer.ReaderProgress

open SyscallReplayer.CInt
open SyscallReplayer.TransitionSystem
open SyscallReplayer.Scheduler
open SyscallReplayer.SchedulerSteps

/-- The first batch runs alone. A module it has not visited has at most its
first row queued, and one it has left unfinished has a queued row. -/
structure FirstBatch (cfg : Config) (s : State) (todo : List Nat)
    (active : Option Nat) : Prop where
  executors : s.executors = []
  nThreads : s.nThreads = 1
  ahead : ∀ i : Nat, i ∈ todo → s.finishedModules i = false ∧
    0 ≤ s.numberOfSyscalls i ∧ s.numberOfSyscalls i ≤ 1
  behind : ∀ i : Nat, i < cfg.replayerIdx → i ∉ todo → active ≠ some i →
    s.finishedModules i = false → 1 ≤ s.numberOfSyscalls i

structure BatchOk (cfg : Config) (s : State) (b : Batch) (active : Option Nat) :
    Prop where
  nodup : b.todo.Nodup
  lt : ∀ i ∈ b.todo, i < cfg.replayerIdx
  size : 3 ≤ b.batchSize
  first : b.isFirstTime = true → FirstBatch cfg s b.todo active

/-- Module `i` is the one a batch is reading. -/
structure Active (cfg : Config) (s : State) (i : Nat) (b : Batch) : Prop where
  lt : i < cfg.replayerIdx
  not_todo : i ∉ b.todo
  unfinished : s.finishedModules i = false

/-- In the first batch enough rows are counted to leave one when the loop ends
with `count = 0`. -/
def FirstCount (s : State) (i : Nat) (b : Batch) (count : Nat) : Prop :=
  b.isFirstTime = true →
    2 ≤ s.numberOfSyscalls i + count ∧ (2 ≤ count → 3 ≤ s.numberOfSyscalls i + count)

def ReaderAt (cfg : Config) (s : State) : ReaderPc → Prop
  | .prepare => s.executors = [] ∧ s.nThreads = 1 ∧
      (∀ i, s.finishedModules i = false) ∧ ∀ i, s.numberOfSyscalls i = 1
  | .modules b => BatchOk cfg s b none
  | .carry i b => BatchOk cfg s b (some i) ∧ Active cfg s i b ∧ b.isFirstTime = false
  | .rows i b count => BatchOk cfg s b (some i) ∧ Active cfg s i b ∧ 1 ≤ count ∧
      FirstCount s i b count
  | .counting c i b count => BatchOk cfg s b (some i) ∧ Active cfg s i b ∧ 2 ≤ count ∧
      c.replayerIndex = i ∧ c.producer = i ∧
      (b.isFirstTime = true → 2 ≤ s.numberOfSyscalls i + count)
  | .finishing i b => BatchOk cfg s b (some i) ∧ i < cfg.replayerIdx ∧ i ∉ b.todo ∧
      s.finishedModules i = true
  | .check | .spin | .done => True

structure ReaderInv (cfg : Config) (s : State) : Prop where
  index : ∀ i, i < cfg.replayerIdx → (s.series i).replayerIndex = i
  exhausted : ∀ i : Nat, i < cfg.replayerIdx → s.finishedModules i = true →
    (s.series i).unread = []
  nThreads : 1 ≤ s.nThreads
  pc : ReaderAt cfg s s.reader

theorem loadSyscallModules_readerInv (cfg : Config) :
    ReaderInv cfg (loadSyscallModules cfg) where
  index i _ := by
    simp only [loadSyscallModules]
    split <;> rfl
  exhausted i _ hfin := by simp [loadSyscallModules] at hfin
  nThreads := le_refl 1
  pc := ⟨rfl, rfl, fun _ => rfl, fun _ => rfl⟩

theorem BatchOk.congr {cfg : Config} {s s' : State} {b : Batch} {active : Option Nat}
    (h : BatchOk cfg s b active)
    (hfirst : b.isFirstTime = true → s'.executors = s.executors ∧
      s'.nThreads = s.nThreads ∧ s'.finishedModules = s.finishedModules ∧
      s'.numberOfSyscalls = s.numberOfSyscalls) : BatchOk cfg s' b active where
  nodup := h.nodup
  lt := h.lt
  size := h.size
  first hf := by
    obtain ⟨hexec, hthreads, hfin, hnum⟩ := hfirst hf
    have hold := h.first hf
    exact ⟨hexec ▸ hold.executors, hthreads ▸ hold.nThreads,
      by rw [hfin, hnum]; exact hold.ahead, by rw [hfin, hnum]; exact hold.behind⟩

theorem BatchOk.tail {cfg : Config} {s : State} {b : Batch} {i : Nat} {rest : List Nat}
    (h : BatchOk cfg s b none) (htodo : b.todo = i :: rest) :
    BatchOk cfg s { b with todo := rest } (some i) ∧ i < cfg.replayerIdx ∧ i ∉ rest := by
  have hnodup := h.nodup
  rw [htodo, List.nodup_cons] at hnodup
  refine ⟨⟨hnodup.2, ?_, h.size, ?_⟩, ?_, hnodup.1⟩
  · intro j hj
    exact h.lt j (by simp [htodo, hj])
  · intro hf
    have hold := h.first hf
    refine ⟨hold.executors, hold.nThreads, ?_, ?_⟩
    · intro j hj
      exact hold.ahead j (by simp [htodo, show j ∈ rest from hj])
    · intro j hlt hj hactive
      refine hold.behind j hlt ?_ (by simp)
      have hne : j ≠ i := fun heq => hactive (by rw [heq])
      have hrest : j ∉ rest := hj
      simp [htodo, hne, hrest]
  · exact h.lt i (by simp [htodo])

theorem BatchOk.active {cfg : Config} {s s' : State} {b : Batch} {i : Nat}
    (h : BatchOk cfg s b (some i))
    (hexec : s'.executors = s.executors) (hthreads : s'.nThreads = s.nThreads)
    (hfin : ∀ j : Nat, j ≠ i → s'.finishedModules j = s.finishedModules j)
    (hnum : ∀ j : Nat, j ≠ i → s'.numberOfSyscalls j = s.numberOfSyscalls j)
    (hnot : i ∉ b.todo) : BatchOk cfg s' b (some i) where
  nodup := h.nodup
  lt := h.lt
  size := h.size
  first hf := by
    have hold := h.first hf
    refine ⟨hexec ▸ hold.executors, hthreads ▸ hold.nThreads, ?_, ?_⟩
    · intro j hj
      have hne : j ≠ i := fun heq => hnot (heq ▸ hj)
      rw [hfin j hne, hnum j hne]
      exact hold.ahead j hj
    · intro j hlt hj hactive hunf
      have hne : j ≠ i := fun heq => hactive (by rw [heq])
      rw [hnum j hne]
      rw [hfin j hne] at hunf
      exact hold.behind j hlt hj hactive hunf

theorem BatchOk.deactivate {cfg : Config} {s : State} {b : Batch} {i : Nat}
    (h : BatchOk cfg s b (some i))
    (hi : b.isFirstTime = true → s.finishedModules i = false → 1 ≤ s.numberOfSyscalls i) :
    BatchOk cfg s b none where
  nodup := h.nodup
  lt := h.lt
  size := h.size
  first hf := by
    have hold := h.first hf
    refine ⟨hold.executors, hold.nThreads, hold.ahead, ?_⟩
    intro j hlt hj _ hunf
    by_cases heq : j = i
    · subst heq
      exact hi hf hunf
    · exact hold.behind j hlt hj (by simpa using fun h' => heq h'.symm) hunf

theorem BatchOk.leave {cfg : Config} {s s' : State} {b : Batch} {i : Nat}
    (h : BatchOk cfg s b (some i))
    (hexec : s'.executors = s.executors) (hthreads : s'.nThreads = s.nThreads)
    (hfin : s'.finishedModules = s.finishedModules)
    (hnum : ∀ j : Nat, j ≠ i → s'.numberOfSyscalls j = s.numberOfSyscalls j)
    (hnot : i ∉ b.todo)
    (hi : b.isFirstTime = true → s'.finishedModules i = false →
      1 ≤ s'.numberOfSyscalls i) : BatchOk cfg s' b none :=
  (h.active hexec hthreads (fun j _ => congrFun hfin j) hnum hnot).deactivate hi

theorem index_readRow {cfg : Config} {s : State} (hinv : ReaderInv cfg s) (i : Nat) (r : Record)
    (rest : List Record) (j : Nat) (hj : j < cfg.replayerIdx) :
    ((readRow s i r rest).series j).replayerIndex = j := by
  by_cases hji : j = i
  · subst hji
    simpa [readRow] using hinv.index j hj
  · simpa [readRow, Function.update_of_ne hji] using hinv.index j hj

theorem exhausted_readRow {cfg : Config} {s : State} (hinv : ReaderInv cfg s) {i : Nat}
    (hunfinished : s.finishedModules i = false) (r : Record) (rest : List Record) (j : Nat)
    (hj : j < cfg.replayerIdx) (hfin : s.finishedModules j = true) :
    ((readRow s i r rest).series j).unread = [] := by
  have hji : j ≠ i := by
    rintro rfl
    rw [hunfinished] at hfin
    cases hfin
  simpa [readRow, Function.update_of_ne hji] using hinv.exhausted j hj hfin

theorem update_natCast_ne {β : Type} (f : Int → β) {i j : Nat} (v : β) (h : j ≠ i) :
    Function.update f (i : Int) v (j : Int) = f j :=
  Function.update_of_ne (by omega) v f

theorem not_first_of_skip {cfg : Config} {s : State} {b : Batch} {i : Nat}
    {rest : List Nat} (hinv : ReaderInv cfg s) (hreader : s.reader = .modules b)
    (htodo : b.todo = i :: rest)
    (hskip : s.finishedModules (s.series i).replayerIndex = true ∨
      uint64 (s.numberOfSyscalls (s.series i).replayerIndex) > b.batchSize * 2) :
    b.isFirstTime = false := by
  have hpc := hinv.pc
  rw [hreader] at hpc
  rw [hinv.index i (hpc.lt i (by simp [htodo]))] at hskip
  by_contra hf
  have hahead := (hpc.first (by simpa using hf)).ahead i (by simp [htodo])
  rcases hskip with hfin | hmany
  · rw [hahead.1] at hfin
    cases hfin
  · have hsize := hpc.size
    have hle := uint64_le_self hahead.2.1
    omega

theorem prepared_readerAt {cfg : Config} {s : State} (hinv : ReaderInv cfg s)
    (hpc : s.reader = .prepare) {s' : State}
    (hexec : s'.executors = s.executors) (hthreads : s'.nThreads = s.nThreads)
    (hfin : s'.finishedModules = s.finishedModules)
    (hnum : ∀ i, 0 ≤ s'.numberOfSyscalls i ∧ s'.numberOfSyscalls i ≤ 1) :
    ReaderAt cfg s' (.modules (firstBatch cfg)) := by
  have hold := hinv.pc
  rw [hpc] at hold
  obtain ⟨hempty, hone, hunf, _⟩ := hold
  refine ⟨?_, ?_, ?_, ?_⟩
  · exact cfg.order_perm.nodup_iff.mpr List.nodup_range
  · intro i hi
    exact List.mem_range.mp (cfg.order_perm.mem_iff.mp hi)
  · simp [firstBatch]
  · intro _
    refine ⟨hexec.trans hempty, hthreads.trans hone, ?_, ?_⟩
    · intro i _
      exact ⟨hfin ▸ hunf i, hnum i⟩
    · intro i hlt hi
      exact absurd (cfg.order_perm.mem_iff.mpr (List.mem_range.mpr hlt)) hi

theorem readerTransition_readerInv {cfg : Config} {s s' : State}
    (hinv : ReaderInv cfg s) (h : ReaderTransition cfg s s') : ReaderInv cfg s' := by
  have hpc := hinv.pc
  cases h with
  | prepareEmpty hreader hempty =>
      rw [hreader] at hpc
      refine ⟨hinv.index, hinv.exhausted, hinv.nThreads, ?_⟩
      exact prepared_readerAt hinv hreader rfl rfl rfl fun i => by simp [hpc.2.2.2 i]
  | prepareUmask hreader c hc humask hid =>
      rw [hreader] at hpc
      refine ⟨hinv.index, hinv.exhausted, hinv.nThreads, ?_⟩
      refine prepared_readerAt hinv hreader rfl rfl rfl fun i => ?_
      have hone := hpc.2.2.2
      simp only [prepared, State.setRunning, State.touch, State.decrement]
      by_cases hi : i = c.replayerIndex
      · subst hi
        simp [hone]
      · simp [Function.update_of_ne hi, hone]
  | firstBatchDone b hreader htodo hfirst =>
      exact ⟨hinv.index, hinv.exhausted, hinv.nThreads, trivial⟩
  | batchDone b hreader htodo hfirst =>
      exact ⟨hinv.index, hinv.exhausted, hinv.nThreads, trivial⟩
  | skip b i rest hreader htodo hskip =>
      rw [hreader] at hpc
      obtain ⟨htail, hlt, hnot⟩ := BatchOk.tail hpc htodo
      refine ⟨hinv.index, hinv.exhausted, hinv.nThreads, ?_⟩
      have hlater := not_first_of_skip hinv hreader htodo hskip
      refine htail.leave rfl rfl rfl (fun _ _ => rfl) hnot fun hf _ => ?_
      rw [show b.isFirstTime = true from hf] at hlater
      cases hlater
  | enterFirst b i rest hreader htodo hunfinished hfirst =>
      rw [hreader] at hpc
      obtain ⟨htail, hlt, hnot⟩ := BatchOk.tail hpc htodo
      rw [hinv.index i hlt] at hunfinished
      refine ⟨hinv.index, hinv.exhausted, hinv.nThreads, ?_⟩
      refine ⟨htail.congr fun _ => ⟨rfl, rfl, rfl, rfl⟩, ⟨hlt, hnot, hunfinished⟩, ?_, ?_⟩
      · exact le_trans (by omega) hpc.size
      · intro hf
        have hahead := (hpc.first hf).ahead i (by simp [htodo])
        have hsize := hpc.size
        simp only [State.touch]
        omega
  | enterCarry b i rest hreader htodo hunfinished hfirst =>
      rw [hreader] at hpc
      obtain ⟨htail, hlt, hnot⟩ := BatchOk.tail hpc htodo
      rw [hinv.index i hlt] at hunfinished
      refine ⟨hinv.index, hinv.exhausted, hinv.nThreads, ?_⟩
      exact ⟨htail.congr fun _ => ⟨rfl, rfl, rfl, rfl⟩, ⟨hlt, hnot, hunfinished⟩, hfirst⟩
  | carry i b hreader =>
      rw [hreader] at hpc
      obtain ⟨hb, hactive, hfirst⟩ := hpc
      refine ⟨hinv.index, hinv.exhausted, hinv.nThreads, ?_⟩
      refine ⟨hb.congr fun _ => ⟨rfl, rfl, rfl, rfl⟩, ⟨hactive.1, hactive.2, hactive.3⟩,
        ?_, hinv.index i hactive.lt, rfl, ?_⟩
      · have hsize := hb.size
        omega
      · intro hf
        rw [hf] at hfirst
        cases hfirst
  | count c i b count hreader =>
      rw [hreader] at hpc
      obtain ⟨hb, hactive, hcount, hindex, _, hfirst⟩ := hpc
      refine ⟨hinv.index, hinv.exhausted, hinv.nThreads, ?_⟩
      refine ⟨?_, ⟨hactive.1, hactive.2, hactive.3⟩, by omega, ?_⟩
      · refine hb.active rfl rfl (fun _ _ => rfl) (fun j hj => ?_) hactive.not_todo
        simp only [State.touch, State.increment, hindex]
        exact update_natCast_ne _ _ hj
      · intro hf
        have hle := hfirst hf
        simp only [State.touch, State.increment, hindex, Function.update_self]
        omega
  | rowsEnd i b hreader =>
      rw [hreader] at hpc
      obtain ⟨hb, hactive, _, hfirst⟩ := hpc
      refine ⟨hinv.index, hinv.exhausted, hinv.nThreads, ?_⟩
      refine hb.leave rfl rfl rfl (fun _ _ => rfl) hactive.not_todo fun hf _ => ?_
      have hle := (hfirst hf).1
      push_cast at hle
      exact (by omega : (1 : Int) ≤ s.numberOfSyscalls i)
  | rowsFinish i b count hreader hunread =>
      rw [hreader] at hpc
      obtain ⟨hb, hactive, _, _⟩ := hpc
      have hindex := hinv.index i hactive.lt
      refine ⟨hinv.index, ?_, hinv.nThreads, ?_⟩
      · intro j hj hfin
        by_cases hji : j = i
        · subst hji
          exact hunread
        · refine hinv.exhausted j hj ?_
          simp only [hindex] at hfin
          rwa [update_natCast_ne _ _ hji] at hfin
      · refine ⟨?_, hactive.lt, hactive.not_todo, ?_⟩
        · refine hb.active rfl rfl (fun j hj => ?_) (fun _ _ => rfl) hactive.not_todo
          simp only [hindex]
          exact update_natCast_ne _ _ hj
        · simp [hindex]
  | rowsHold i b r rest hreader hunread =>
      rw [hreader] at hpc
      obtain ⟨hb, hactive, _, hfirst⟩ := hpc
      refine ⟨index_readRow hinv i r rest, exhausted_readRow hinv hactive.unfinished r rest,
        hinv.nThreads, ?_⟩
      refine ⟨hb.congr fun _ => ⟨rfl, rfl, rfl, rfl⟩, ⟨hactive.1, hactive.2, hactive.3⟩,
        le_refl 1, ?_⟩
      intro hf
      have hle := (hfirst hf).2 (le_refl 2)
      simp only [readRow]
      omega
  | rowsPush i b count r rest hreader hunread =>
      rw [hreader] at hpc
      obtain ⟨hb, hactive, _, hfirst⟩ := hpc
      refine ⟨index_readRow hinv i r rest, exhausted_readRow hinv hactive.unfinished r rest,
        hinv.nThreads, ?_⟩
      refine ⟨hb.congr fun _ => ⟨rfl, rfl, rfl, rfl⟩, ⟨hactive.1, hactive.2, hactive.3⟩,
        by omega, hinv.index i hactive.lt, rfl, ?_⟩
      intro hf
      have hle := (hfirst hf).2 (by omega)
      simp only [readRow]
      omega
  | finish i b hreader =>
      rw [hreader] at hpc
      obtain ⟨hb, hlt, hnot, hfin⟩ := hpc
      refine ⟨hinv.index, hinv.exhausted, hinv.nThreads, ?_⟩
      refine hb.leave rfl rfl rfl (fun j hj => ?_) hnot fun _ hunf => ?_
      · simp only [hinv.index i hlt]
        exact update_natCast_ne _ _ hj
      · simp only [State.touch, hfin] at hunf
        cases hunf
  | checkDone hreader hdone =>
      exact ⟨hinv.index, hinv.exhausted, hinv.nThreads, trivial⟩
  | checkSpin hreader hdone =>
      exact ⟨hinv.index, hinv.exhausted, hinv.nThreads, trivial⟩
  | spinWait hreader => exact hinv
  | spinBatch hreader =>
      refine ⟨hinv.index, hinv.exhausted, hinv.nThreads, ?_⟩
      refine ⟨cfg.order_perm.nodup_iff.mpr List.nodup_range, ?_, ?_, ?_⟩
      · intro i hi
        exact List.mem_range.mp (cfg.order_perm.mem_iff.mp hi)
      · have hthreads := hinv.nThreads
        simp only [nextBatch]
        omega
      · intro hf
        cases hf

/-- Before the first batch is over no executor can take a step, and after it the
reader does not rely on what executors change. -/
theorem executorTransition_readerInv {cfg : Config} {s s' : State} {tid : Int}
    {pc pc' : ExecutorPc} {executors : List Executor} (hinv : ReaderInv cfg s)
    (hexec : s.executors ≠ []) (h : ExecutorTransition cfg s tid pc s' pc') :
    ReaderInv cfg { s' with executors := executors } := by
  obtain ⟨hseries, hfin, hreader, hthreads⟩ := h.frame
  have hfirst : ∀ {b : Batch} {active : Option Nat}, BatchOk cfg s b active →
      b.isFirstTime = true → False := fun hb hf => hexec (hb.first hf).executors
  have hbatch : ∀ {b : Batch} {active : Option Nat}, BatchOk cfg s b active →
      BatchOk cfg { s' with executors := executors } b active := fun hb =>
    hb.congr fun hf => (hfirst hb hf).elim
  have hat : ∀ pc, ReaderAt cfg s pc →
      ReaderAt cfg { s' with executors := executors } pc := by
    intro pc hpc
    cases pc with
    | prepare => exact absurd hpc.1 hexec
    | modules b => exact hbatch hpc
    | carry i b =>
        obtain ⟨hb, hactive, hfirst'⟩ := hpc
        exact ⟨hbatch hb, ⟨hactive.1, hactive.2, hfin ▸ hactive.3⟩, hfirst'⟩
    | rows i b count =>
        obtain ⟨hb, hactive, hcount, _⟩ := hpc
        exact ⟨hbatch hb, ⟨hactive.1, hactive.2, hfin ▸ hactive.3⟩, hcount,
          fun hf => (hfirst hb hf).elim⟩
    | counting c i b count =>
        obtain ⟨hb, hactive, hcount, hindex, hproducer, _⟩ := hpc
        exact ⟨hbatch hb, ⟨hactive.1, hactive.2, hfin ▸ hactive.3⟩, hcount, hindex,
          hproducer, fun hf => (hfirst hb hf).elim⟩
    | finishing i b =>
        obtain ⟨hb, hlt, hnot, hflag⟩ := hpc
        exact ⟨hbatch hb, hlt, hnot, hfin ▸ hflag⟩
    | check => trivial
    | spin => trivial
    | done => trivial
  refine ⟨hseries ▸ hinv.index, ?_, le_trans hinv.nThreads hthreads, ?_⟩
  · rw [hfin, hseries]
    exact hinv.exhausted
  · have hpc := hat s.reader hinv.pc
    rwa [← hreader] at hpc

theorem transition_readerInv {cfg : Config} {s s' : State} {a : Action}
    (hinv : ReaderInv cfg s) (h : Transition cfg s a s') : ReaderInv cfg s' := by
  cases h with
  | reader pick h => exact readerTransition_readerInv hinv h
  | executor index pick e before after hget hsplit h =>
      exact executorTransition_readerInv hinv (by simp [hsplit]) h

theorem reachable_readerInv {cfg : Config} {ok : State → Action → Prop} {s : State}
    (h : (replay cfg).ReachVia ok s) : ReaderInv cfg s :=
  h.invariant _ (loadSyscallModules_readerInv cfg) fun _ _ _ _ hinv _ hstep =>
    transition_readerInv hinv (transition_of_step hstep)

end SyscallReplayer.ReaderProgress
