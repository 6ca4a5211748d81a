import Mathlib.Data.List.ReduceOption
import SyscallReplayer.RunningTable
import SyscallReplayer.SystemRefinement

/-!
# The lifetime of a copy

An executor keeps the copy it executed last in `prev_replayer` and pushes it to
`allocationQueue` once another entry has taken its place in `currentExecutions`.
The reader deletes what is in the queue while it waits for the executors. Copies are
values here, which are counted; `CopyPointers` has the pointers to them.
-/

namespace SyscallReplayer.CopyReclamation

open SyscallReplayer.TransitionSystem
open SyscallReplayer.SystemRefinement
open SyscallReplayer.Scheduler
open SyscallReplayer.SchedulerSteps
open SyscallReplayer.ReaderProgress
open SyscallReplayer.RecordConservation
open SyscallReplayer.ThreadOrder
open SyscallReplayer.RunningTable
open SyscallReplayer.RangeJoin

/-- The pointers of one executor, and whether `prev_replayer` has been pushed
since it was assigned. -/
structure Locals where
  executeReplayer : Option Copy
  prevReplayer : Option Copy
  pushed : Bool
deriving DecidableEq

namespace Locals

def start : Locals :=
  ⟨none, none, false⟩

/-- The assignments on the way from one program point to the next. -/
def next (l : Locals) : ExecutorPc → ExecutorPc → Locals
  | .top, .popped c => { l with executeReplayer := some c }
  | .repushed _, .top => { l with prevReplayer := none, pushed := false }
  | .storing _, .top => { l with prevReplayer := l.executeReplayer, pushed := false }
  | _, _ => l

end Locals

/-- The scheduler with its pointers. `draining` says that the reader is in its
inner loop, and `deleted` what it has deleted there. -/
structure State where
  scheduler : Scheduler.State
  locals : Nat → Locals
  allocationQueue : List (Option Copy)
  draining : Bool
  deleted : List Copy

/-- Where executor `index` stands; one that is not started yet is at the top. -/
def pcOf (t : Scheduler.State) (index : Nat) : ExecutorPc :=
  (t.executors[index]?).elim .top Executor.pc

namespace State

/-- Executor `index` has registered its copy and not pushed the one before. -/
def owesPush (s : State) (index : Nat) : Bool :=
  match pcOf s.scheduler index with
  | .running _ => !(s.locals index).pushed
  | _ => false

def push (s : State) (index : Nat) : State :=
  { s with
    allocationQueue := s.allocationQueue ++ [(s.locals index).prevReplayer]
    locals := Function.update s.locals index { s.locals index with pushed := true } }

@[simp] theorem push_locals_self (s : State) (index : Nat) :
    (s.push index).locals index = { s.locals index with pushed := true } :=
  Function.update_self _ _ _

@[simp] theorem push_locals_of_ne (s : State) {index i : Nat} (hne : i ≠ index) :
    (s.push index).locals i = s.locals i :=
  Function.update_of_ne hne _ _

@[simp] theorem push_scheduler (s : State) (index : Nat) :
    (s.push index).scheduler = s.scheduler := rfl

/-- `try_pop` of the inner loop of `readerThread`, with the `delete`. -/
def tryPop (s : State) : State :=
  match s.allocationQueue with
  | [] => { s with draining := false }
  | copy :: rest => { s with allocationQueue := rest, deleted := s.deleted ++ copy.toList }

end State

inductive Action
  | scheduler (a : Scheduler.Action)
  | push (index : Nat)
  | tryPop
deriving DecidableEq

/-- The reader enters its inner loop when it has found the heaps full enough. -/
def afterReader (s : State) (t : Scheduler.State) : State :=
  { s with
    scheduler := t
    draining := decide (s.scheduler.reader = .spin ∧ t.reader = .spin) }

def afterExecutor (s : State) (index : Nat) (t : Scheduler.State) : State :=
  { s with
    scheduler := t
    locals := Function.update s.locals index
      ((s.locals index).next (pcOf s.scheduler index) (pcOf t index)) }

def step (cfg : Config) (s : State) : Action → Option State
  | .scheduler (.reader pick) =>
      if s.draining then none
      else (Scheduler.step cfg s.scheduler (.reader pick)).map (afterReader s)
  | .scheduler (.executor index pick) =>
      if s.owesPush index then none
      else (Scheduler.step cfg s.scheduler (.executor index pick)).map (afterExecutor s index)
  | .push index => if s.owesPush index then some (s.push index) else none
  | .tryPop => if s.draining then some s.tryPop else none

def reclaiming (cfg : Config) : System State Action where
  init :=
    { scheduler := loadSyscallModules cfg
      locals := fun _ => .start
      allocationQueue := []
      draining := false
      deleted := [] }
  step := step cfg

variable {cfg : Config} {s s' : State}

theorem tryPop_frame (s : State) :
    s.tryPop.scheduler = s.scheduler ∧ s.tryPop.locals = s.locals := by
  unfold State.tryPop
  split
  · exact ⟨rfl, rfl⟩
  · exact ⟨rfl, rfl⟩

theorem reclaiming_refines (cfg : Config) :
    Refines (reclaiming cfg) (replay cfg) State.scheduler where
  init := rfl
  step := by
    intro s s' a h
    cases a with
    | scheduler a =>
        refine .inr ⟨a, ?_⟩
        cases a with
        | reader pick =>
            change (if s.draining then none else _) = some s' at h
            split at h
            · cases h
            · obtain ⟨t, ht, rfl⟩ := Option.map_eq_some_iff.mp h
              exact ht
        | executor index pick =>
            change (if s.owesPush index then none else _) = some s' at h
            split at h
            · cases h
            · obtain ⟨t, ht, rfl⟩ := Option.map_eq_some_iff.mp h
              exact ht
    | push index =>
        change (if s.owesPush index then some (s.push index) else none) = some s' at h
        split at h
        · cases h
          exact .inl rfl
        · cases h
    | tryPop =>
        change (if s.draining then some s.tryPop else none) = some s' at h
        split at h
        · cases h
          exact .inl (tryPop_frame s).1
        · cases h

/-- The copies an executor is responsible for: the one it has just executed and the
one before, until it is pushed. -/
def ownedBy (pc : ExecutorPc) (l : Locals) : List Copy :=
  (match pc with
    | .executed _ | .storing _ => l.executeReplayer.toList
    | _ => []) ++ if l.pushed then [] else l.prevReplayer.toList

namespace State

def ownedAt (s : State) (index : Nat) : List Copy :=
  ownedBy (pcOf s.scheduler index) (s.locals index)

def owned (s : State) : List Copy :=
  (List.range s.scheduler.executors.length).flatMap s.ownedAt

/-- The copies that were given away: they wait in the queue or are deleted. -/
def released (s : State) : List Copy :=
  s.deleted ++ s.allocationQueue.reduceOption

end State

/-- Whether a turn has pushed `prev_replayer`, where the program point tells. -/
def pushState : ExecutorPc → Option Bool
  | .running _ => none
  | .top | .popped _ | .guard _ | .guarded _ | .leaving | .exited => some false
  | .validating _ | .admitted _ | .rejected _ | .parked _ | .repushed _ | .executed _
  | .storing _ => some true

/-- The pointers of an executor belong to the place where it stands. -/
structure Follows (pc : ExecutorPc) (l : Locals) : Prop where
  current : ∀ c, copyOf pc = some c → l.executeReplayer = some c
  pushed : ∀ b, pushState pc = some b → l.pushed = b

section

variable {tid : Int} {pc pc' : ExecutorPc} {l : Locals} {t t' : Scheduler.State}

theorem follows_start : Follows .top .start :=
  ⟨fun _ h => (Option.some_ne_none _ h.symm).elim, fun _ h => Option.some.inj h⟩

theorem Follows.next (hinv : Follows pc l) (h : ExecutorTransition cfg t tid pc t' pc')
    (hrunning : ∀ c, pc = .running c → l.pushed = true) : Follows pc' (l.next pc pc') := by
  obtain ⟨hcurrent, hpushed⟩ := hinv
  cases h with
  | pop c hc => exact ⟨fun _ h => h, hpushed⟩
  | manyThreads c _ | oneThread c _ =>
      refine ⟨hcurrent, fun b hb => ?_⟩
      rw [← Option.some.inj hb]
      exact hrunning c rfl
  | register c => exact ⟨hcurrent, fun _ h => (Option.some_ne_none _ h.symm).elim⟩
  | countRepush c | storeLast n =>
      exact ⟨fun _ h => (Option.some_ne_none _ h.symm).elim, fun _ h => Option.some.inj h⟩
  | readLast c =>
      exact ⟨fun _ h => (Option.some_ne_none _ h.symm).elim, hpushed⟩
  | _ => exact ⟨hcurrent, hpushed⟩

/-- What a step of an executor makes of the copies it is responsible for. -/
theorem ownedBy_next (hinv : Follows pc l) (h : ExecutorTransition cfg t tid pc t' pc') :
    (t'.executedLog = t.executedLog ∧ ownedBy pc' (l.next pc pc') = ownedBy pc l) ∨
      ∃ c, t'.executedLog = t.executedLog ++ [c.record] ∧
        ownedBy pc' (l.next pc pc') = c :: ownedBy pc l := by
  obtain ⟨hcurrent, hpushed⟩ := hinv
  cases h with
  | execute c =>
      refine .inr ⟨c, execute_log t c, ?_⟩
      have hc := hcurrent c rfl
      simp [ownedBy, Locals.next, hc, hpushed true rfl]
  | countRepush c =>
      refine .inl ⟨rfl, ?_⟩
      simp [ownedBy, Locals.next, hpushed true rfl]
  | storeLast n =>
      refine .inl ⟨rfl, ?_⟩
      simp [ownedBy, Locals.next, hpushed true rfl]
  | _ => exact .inl ⟨rfl, rfl⟩

end

def movedTo (t t₀ : Scheduler.State) (index : Nat) (pc pc' : ExecutorPc) : Scheduler.State :=
  { t₀ with executors := setPc (t.executors ++ newExecutors pc) index pc' }

inductive Operation (cfg : Config) (s : State) : State → Prop
  | reader (t : Scheduler.State) (h : ReaderTransition cfg s.scheduler t) :
      Operation cfg s (afterReader s t)
  | executor (index : Nat) (e : Executor) (t₀ : Scheduler.State) (pc' : ExecutorPc)
      (hget : s.scheduler.executors[index]? = some e) (howes : s.owesPush index = false)
      (h : ExecutorTransition cfg s.scheduler e.threadID e.pc t₀ pc') :
      Operation cfg s (afterExecutor s index (movedTo s.scheduler t₀ index e.pc pc'))
  | push (index : Nat) (howes : s.owesPush index = true) : Operation cfg s (s.push index)
  | tryPop : Operation cfg s s.tryPop

theorem operation_of_step {a : Action} (h : (reclaiming cfg).step s a = some s') :
    Operation cfg s s' := by
  cases a with
  | scheduler a =>
      cases a with
      | reader pick =>
          change (if s.draining then none else _) = some s' at h
          split at h
          · cases h
          · obtain ⟨t, ht, rfl⟩ := Option.map_eq_some_iff.mp h
            exact .reader t (readerTransition_of_readerStep ht)
      | executor index pick =>
          change (if s.owesPush index then none else _) = some s' at h
          split at h
          · cases h
          · rename_i howes
            obtain ⟨t, ht, rfl⟩ := Option.map_eq_some_iff.mp h
            simp only [Scheduler.step] at ht
            split at ht
            · cases ht
            · rename_i e he
              obtain ⟨⟨t₀, pc'⟩, hstep, rfl⟩ := Option.map_eq_some_iff.mp ht
              have htrans := executorTransition_of_executorStep hstep
              rw [htrans.executors]
              exact .executor index e t₀ pc' he (Bool.eq_false_iff.mpr howes) htrans
  | push index =>
      change (if s.owesPush index then some (s.push index) else none) = some s' at h
      split at h
      · rename_i howes
        cases h
        exact .push index howes
      · cases h
  | tryPop =>
      change (if s.draining then some s.tryPop else none) = some s' at h
      split at h
      · cases h
        exact .tryPop
      · cases h

section

variable {t t₀ : Scheduler.State} {index : Nat} {e : Executor} {pc' : ExecutorPc}

theorem pcOf_of_getElem? (hget : t.executors[index]? = some e) : pcOf t index = e.pc := by
  rw [pcOf, hget]
  rfl

theorem pcOf_of_length_le (h : t.executors.length ≤ index) : pcOf t index = .top := by
  rw [pcOf, List.getElem?_eq_none h]
  rfl

theorem pcOf_append {t' : Scheduler.State} {new : List Executor} (hnew : ∀ e ∈ new, e.pc = .top)
    (h : t'.executors = t.executors ++ new) (i : Nat) : pcOf t' i = pcOf t i := by
  unfold pcOf
  rw [h]
  rcases Nat.lt_or_ge i t.executors.length with hlt | hge
  · rw [List.getElem?_append_left hlt]
  · rw [List.getElem?_append_right hge, List.getElem?_eq_none hge]
    cases hget : new[i - t.executors.length]? with
    | none => rfl
    | some e => exact hnew e (List.mem_of_getElem? hget)

theorem executors_of_readerTransition {t' : Scheduler.State} (h : ReaderTransition cfg t t') :
    ∃ new : List Executor, (∀ e ∈ new, e.pc = .top) ∧ t'.executors = t.executors ++ new := by
  cases h with
  | firstBatchDone b _ _ _ =>
      refine ⟨_, fun e he => ?_, rfl⟩
      rw [List.mem_singleton.mp he]
  | _ => exact ⟨[], fun _ h => (List.not_mem_nil h).elim, (List.append_nil _).symm⟩

theorem getElem?_movedTo (hget : t.executors[index]? = some e) :
    (movedTo t t₀ index e.pc pc').executors[index]? = some ⟨e.threadID, pc'⟩ := by
  obtain ⟨hlt, _⟩ := List.getElem?_eq_some_iff.mp hget
  rw [movedTo, setPc, List.getElem?_modify_eq, List.getElem?_append_left hlt, hget]
  rfl

theorem getElem?_movedTo_of_ne {i : Nat} (hne : i ≠ index) :
    (movedTo t t₀ index e.pc pc').executors[i]? = (t.executors ++ newExecutors e.pc)[i]? := by
  rw [movedTo, setPc, List.getElem?_modify_ne _ _ hne.symm]

theorem length_movedTo : (movedTo t t₀ index e.pc pc').executors.length =
    t.executors.length + (newExecutors e.pc).length := by
  rw [movedTo, setPc, List.length_modify, List.length_append]

theorem pcOf_movedTo_of_ne {i : Nat} (hne : i ≠ index) :
    pcOf (movedTo t t₀ index e.pc pc') i = pcOf t i := by
  let grown : Scheduler.State := { t with executors := t.executors ++ newExecutors e.pc }
  have hgrown : pcOf grown i = pcOf t i :=
    pcOf_append (fun e' he' => (newExecutors_pc he').1) rfl i
  rw [← hgrown, pcOf, pcOf, getElem?_movedTo_of_ne hne]

end

structure PointerInv (s : State) : Prop where
  fresh : ∀ i, s.scheduler.executors.length ≤ i → s.locals i = .start
  follows : ∀ i, Follows (pcOf s.scheduler i) (s.locals i)

theorem locals_afterExecutor {index : Nat} {e : Executor} (t₀ : Scheduler.State)
    (pc' : ExecutorPc) (hget : s.scheduler.executors[index]? = some e) :
    (afterExecutor s index (movedTo s.scheduler t₀ index e.pc pc')).locals =
      Function.update s.locals index ((s.locals index).next e.pc pc') := by
  rw [afterExecutor, pcOf_of_getElem? hget, pcOf_of_getElem? (getElem?_movedTo hget)]

theorem pushed_of_not_owesPush {index : Nat} {e : Executor} {c : Copy}
    (hget : s.scheduler.executors[index]? = some e) (howes : s.owesPush index = false)
    (hrunning : e.pc = .running c) : (s.locals index).pushed = true := by
  simpa only [State.owesPush, pcOf_of_getElem? hget, hrunning, Bool.not_eq_false'] using howes

theorem exists_running_of_owesPush {index : Nat} (howes : s.owesPush index = true) :
    ∃ e c, s.scheduler.executors[index]? = some e ∧ e.pc = .running c ∧
      (s.locals index).pushed = false := by
  unfold State.owesPush at howes
  split at howes
  · rename_i c hpc
    cases hget : s.scheduler.executors[index]? with
    | none =>
        rw [pcOf, hget] at hpc
        cases hpc
    | some e =>
        rw [pcOf_of_getElem? hget] at hpc
        exact ⟨e, c, rfl, hpc, Bool.not_eq_true' _ ▸ howes⟩
  · cases howes

theorem operation_pointerInv (hinv : PointerInv s) (h : Operation cfg s s') : PointerInv s' := by
  obtain ⟨hfresh, hfollows⟩ := hinv
  cases h with
  | reader t h =>
      obtain ⟨new, hnew, hexecutors⟩ := executors_of_readerTransition h
      refine ⟨fun i hi => hfresh i ?_, fun i => ?_⟩
      · simp only [afterReader, hexecutors, List.length_append] at hi
        omega
      · rw [show pcOf (afterReader s t).scheduler i = pcOf s.scheduler i from
          pcOf_append hnew hexecutors i]
        exact hfollows i
  | executor index e t₀ pc' hget howes h =>
      have hindex := (List.getElem?_eq_some_iff.mp hget).1
      have hlocals := locals_afterExecutor t₀ pc' hget
      refine ⟨fun i hi => ?_, fun i => ?_⟩
      · have hlen : (afterExecutor s index (movedTo s.scheduler t₀ index e.pc
          pc')).scheduler.executors.length = _ := length_movedTo
        rw [hlocals, Function.update_of_ne (by omega)]
        exact hfresh i (by omega)
      · rw [hlocals]
        rcases eq_or_ne i index with rfl | hne
        · rw [Function.update_self, afterExecutor, pcOf_of_getElem? (getElem?_movedTo hget)]
          have hfollow := hfollows i
          rw [pcOf_of_getElem? hget] at hfollow
          exact hfollow.next h fun c => pushed_of_not_owesPush hget howes
        · rw [Function.update_of_ne hne, afterExecutor, pcOf_movedTo_of_ne hne]
          exact hfollows i
  | push index howes =>
      obtain ⟨e, c, hget, hpc, _⟩ := exists_running_of_owesPush howes
      have hindex := (List.getElem?_eq_some_iff.mp hget).1
      refine ⟨fun i hi => ?_, fun i => ?_⟩
      · rw [State.push_scheduler] at hi
        rw [State.push_locals_of_ne s (by omega)]
        exact hfresh i hi
      · rcases eq_or_ne i index with rfl | hne
        · obtain ⟨hcurrent, _⟩ := hfollows i
          rw [pcOf_of_getElem? hget, hpc] at hcurrent
          rw [State.push_scheduler, State.push_locals_self, pcOf_of_getElem? hget, hpc]
          exact ⟨hcurrent, fun _ h => (Option.some_ne_none _ h.symm).elim⟩
        · rw [State.push_locals_of_ne s hne]
          exact hfollows i
  | tryPop =>
      obtain ⟨hscheduler, hlocals⟩ := tryPop_frame s
      constructor
      · rwa [hscheduler, hlocals]
      · rwa [hscheduler, hlocals]

theorem reachable_pointerInv (h : (reclaiming cfg).Reachable s) : PointerInv s :=
  h.invariant _
    { fresh := fun _ _ => rfl
      follows := fun _ => follows_start }
    fun _ _ _ _ hinv _ hstep => operation_pointerInv hinv (operation_of_step hstep)

theorem ownedBy_start : ownedBy .top .start = [] := rfl

theorem PointerInv.ownedAt_of_length_le (hinv : PointerInv s) {i : Nat}
    (hi : s.scheduler.executors.length ≤ i) : s.ownedAt i = [] := by
  rw [State.ownedAt, pcOf_of_length_le hi, hinv.fresh i hi, ownedBy_start]

theorem owned_exchange (hinv : PointerInv s) {index : Nat}
    (hi : index < s.scheduler.executors.length)
    (hle : s.scheduler.executors.length ≤ s'.scheduler.executors.length)
    (hother : ∀ i, i ≠ index → s'.ownedAt i = s.ownedAt i) :
    (s.ownedAt index ++ s'.owned).Perm (s'.ownedAt index ++ s.owned) := by
  have hgrown : (List.range s'.scheduler.executors.length).flatMap s.ownedAt = s.owned :=
    flatMap_range_extend hle fun i hi => hinv.ownedAt_of_length_le hi
  rw [← hgrown]
  exact flatMap_range_exchange (hi.trans_le hle) hother

theorem owned_reader (hinv : PointerInv s) {t : Scheduler.State}
    (h : ReaderTransition cfg s.scheduler t) : (afterReader s t).owned = s.owned := by
  obtain ⟨new, hnew, hexecutors⟩ := executors_of_readerTransition h
  have hat : ∀ i, (afterReader s t).ownedAt i = s.ownedAt i := fun i => by
    rw [State.ownedAt, State.ownedAt, afterReader, pcOf_append hnew hexecutors]
  have hle : s.scheduler.executors.length ≤ (afterReader s t).scheduler.executors.length := by
    rw [afterReader, hexecutors, List.length_append]
    omega
  rw [State.owned, flatMap_range_congr fun i _ => hat i]
  exact flatMap_range_extend hle fun i hi => hinv.ownedAt_of_length_le hi

theorem owned_executor (hinv : PointerInv s) {index : Nat} {e : Executor}
    {t₀ : Scheduler.State} {pc' : ExecutorPc} (hget : s.scheduler.executors[index]? = some e)
    (h : ExecutorTransition cfg s.scheduler e.threadID e.pc t₀ pc') :
    (t₀.executedLog = s.scheduler.executedLog ∧
      (afterExecutor s index (movedTo s.scheduler t₀ index e.pc pc')).owned.Perm s.owned) ∨
      ∃ c, t₀.executedLog = s.scheduler.executedLog ++ [c.record] ∧
        (afterExecutor s index (movedTo s.scheduler t₀ index e.pc pc')).owned.Perm
          (c :: s.owned) := by
  have hindex := (List.getElem?_eq_some_iff.mp hget).1
  have hlocals := locals_afterExecutor t₀ pc' hget
  have hother : ∀ i, i ≠ index →
      (afterExecutor s index (movedTo s.scheduler t₀ index e.pc pc')).ownedAt i =
        s.ownedAt i := fun i hne => by
    rw [State.ownedAt, hlocals, Function.update_of_ne hne, afterExecutor,
      pcOf_movedTo_of_ne hne, State.ownedAt]
  have hself : (afterExecutor s index (movedTo s.scheduler t₀ index e.pc pc')).ownedAt index =
      ownedBy pc' ((s.locals index).next e.pc pc') := by
    rw [State.ownedAt, hlocals, Function.update_self, afterExecutor,
      pcOf_of_getElem? (getElem?_movedTo hget)]
  have hbefore : s.ownedAt index = ownedBy e.pc (s.locals index) := by
    rw [State.ownedAt, pcOf_of_getElem? hget]
  have hexchange := owned_exchange hinv hindex
    (length_movedTo.ge.trans' (Nat.le_add_right _ _)) hother
  rw [hself, hbefore] at hexchange
  have hfollow := hinv.follows index
  rw [pcOf_of_getElem? hget] at hfollow
  rcases ownedBy_next hfollow h with ⟨hlog, hsame⟩ | ⟨c, hlog, hcons⟩
  · rw [hsame] at hexchange
    exact .inl ⟨hlog, (List.perm_append_left_iff _).mp hexchange⟩
  · rw [hcons, List.cons_append] at hexchange
    exact .inr ⟨c, hlog, (List.perm_append_left_iff _).mp
      (hexchange.trans List.perm_middle.symm)⟩

theorem owned_push (hinv : PointerInv s) {index : Nat} (howes : s.owesPush index = true) :
    ((s.locals index).prevReplayer.toList ++ (s.push index).owned).Perm s.owned := by
  obtain ⟨e, c, hget, hpc, hpushed⟩ := exists_running_of_owesPush howes
  have hother : ∀ i, i ≠ index → (s.push index).ownedAt i = s.ownedAt i := fun i hne => by
    rw [State.ownedAt, State.push_locals_of_ne s hne, State.push_scheduler, State.ownedAt]
  have hle : s.scheduler.executors.length ≤ (s.push index).scheduler.executors.length :=
    Nat.le_refl _
  have hexchange := owned_exchange hinv (List.getElem?_eq_some_iff.mp hget).1 hle hother
  rw [State.ownedAt, State.ownedAt, State.push_scheduler, State.push_locals_self,
    pcOf_of_getElem? hget, hpc] at hexchange
  simpa only [ownedBy, hpushed, List.nil_append, if_true, Bool.false_eq_true, if_false]
    using hexchange

theorem released_push (s : State) (index : Nat) :
    (s.push index).released = s.released ++ (s.locals index).prevReplayer.toList := by
  rw [State.released, State.released, State.push, List.reduceOption_append,
    List.reduceOption_singleton, List.append_assoc]

theorem released_tryPop (s : State) : s.tryPop.released = s.released := by
  unfold State.tryPop
  split
  · rfl
  · rename_i copy rest hqueue
    rw [State.released, State.released, hqueue, List.append_assoc,
      ← List.reduceOption_singleton, ← List.reduceOption_append, List.singleton_append]

/-- The record that `prepare_replay` has executed, if it has. -/
def SetUp (t : Scheduler.State) (setUp : List Record) : Prop :=
  setUp = [] ∨ t.reader ≠ .prepare ∧
    ∃ r, setUp = [r] ∧ r.sysCallName = .umask ∧ r.uniqueId = 0

/-- Every executed copy is kept by its executor, queued for the reader or deleted,
each once; only the copy of the set-up is not among them. -/
def Conserved (s : State) : Prop :=
  ∃ setUp, SetUp s.scheduler setUp ∧
    s.scheduler.executedLog.Perm (setUp ++ (s.released ++ s.owned).map Copy.record)

theorem SetUp.reader {t t' : Scheduler.State} {setUp : List Record} (hsetUp : SetUp t setUp)
    (h : ReaderTransition cfg t t') :
    ∃ added, t'.executedLog = t.executedLog ++ added ∧ SetUp t' (setUp ++ added) := by
  have hkept : t'.reader ≠ .prepare → t'.executedLog = t.executedLog →
      ∃ added, t'.executedLog = t.executedLog ++ added ∧ SetUp t' (setUp ++ added) := by
    intro hreader hlog
    refine ⟨[], by rw [hlog, List.append_nil], ?_⟩
    rw [List.append_nil]
    exact hsetUp.imp id fun hsome => ⟨hreader, hsome.2⟩
  cases h with
  | prepareUmask hpc c hc humask hid =>
      rcases hsetUp with rfl | ⟨hreader, _⟩
      · exact ⟨[c.record], rfl, .inr ⟨by rintro ⟨⟩, c.record, rfl, humask, hid⟩⟩
      · exact absurd hpc hreader
  | spinWait hpc => exact hkept (by rw [hpc]; rintro ⟨⟩) rfl
  | _ => exact hkept (by rintro ⟨⟩) rfl

theorem reachable_conserved (h : (reclaiming cfg).Reachable s) : Conserved s := by
  refine h.invariant _ ⟨[], .inl rfl, .refl _⟩ fun s a s' hreach hinv _ hstep => ?_
  have hpointers := reachable_pointerInv hreach
  obtain ⟨setUp, hsetUp, hperm⟩ := hinv
  cases operation_of_step hstep with
  | reader t h =>
      obtain ⟨added, hlog, hsetUp'⟩ := hsetUp.reader h
      refine ⟨setUp ++ added, hsetUp', ?_⟩
      rw [owned_reader hpointers h]
      change t.executedLog.Perm (setUp ++ added ++ (s.released ++ s.owned).map Copy.record)
      rw [hlog]
      refine (hperm.append_right added).trans ?_
      rw [List.append_assoc, List.append_assoc]
      exact List.perm_append_comm.append_left setUp
  | executor index e t₀ pc' hget howes h =>
      have hreader : t₀.reader = s.scheduler.reader := h.frame.2.2.1
      refine ⟨setUp, hsetUp.imp id fun hsome => ⟨hreader ▸ hsome.1, hsome.2⟩, ?_⟩
      rcases owned_executor hpointers hget h with ⟨hlog, howned⟩ | ⟨c, hlog, howned⟩
      · change t₀.executedLog.Perm _
        rw [hlog]
        exact hperm.trans (((howned.append_left _).map _).append_left _).symm
      · change t₀.executedLog.Perm _
        rw [hlog]
        refine (hperm.append_right _).trans ?_
        refine .trans ?_ (((howned.append_left _).map _).append_left _).symm
        rw [List.append_assoc]
        refine .append_left _ ?_
        rw [List.map_append, List.map_append, List.map_cons, List.append_assoc]
        exact .append_left _ (List.perm_append_singleton _ _)
  | push index howes =>
      refine ⟨setUp, hsetUp, hperm.trans (.append_left _ (.map _ ?_))⟩
      rw [released_push, List.append_assoc]
      exact (owned_push hpointers howes).symm.append_left _
  | tryPop =>
      obtain ⟨hscheduler, hlocals⟩ := tryPop_frame s
      have howned : s.tryPop.owned = s.owned := by
        unfold State.owned State.ownedAt
        rw [hscheduler, hlocals]
      rw [Conserved, hscheduler, released_tryPop, howned]
      exact ⟨setUp, hsetUp, hperm⟩

/-- An executor that has ended keeps the copy it executed last. -/
theorem owned_of_terminated (hinv : PointerInv s) (hterm : Terminated s.scheduler) :
    s.owned = (List.range s.scheduler.executors.length).flatMap fun i =>
      (s.locals i).prevReplayer.toList := by
  refine flatMap_range_congr fun i hi => ?_
  have hget := List.getElem?_eq_getElem hi
  have hexited := hterm.2 _ (List.getElem_mem hi)
  have hpushed := (hinv.follows i).pushed
  rw [pcOf_of_getElem? hget, hexited] at hpushed
  rw [State.ownedAt, pcOf_of_getElem? hget, hexited]
  unfold ownedBy
  rw [hpushed false rfl, List.nil_append, if_neg Bool.false_ne_true]

/-- At the end of a replay the copies that are never freed are the one of the set-up,
those the reader has left in the queue and the last one of every thread. -/
theorem executed_conserved (h : (reclaiming cfg).Reachable s) :
    Conserved s ∧ (Terminated s.scheduler →
      s.owned = (List.range s.scheduler.executors.length).flatMap fun i =>
        (s.locals i).prevReplayer.toList) :=
  ⟨reachable_conserved h, owned_of_terminated (reachable_pointerInv h)⟩

def umaskRows : List Record :=
  [⟨.umask, 0, 7, 1, 2, 0⟩, ⟨.umask, 1, 7, 3, 4, 0⟩, ⟨.umask, 2, 7, 5, 6, 0⟩]

theorem umaskRows_nonempty : ∀ rows ∈ [umaskRows], rows ≠ [] := by
  intro rows hrows
  rw [List.mem_singleton.mp hrows]
  exact List.cons_ne_nil _ _

/-- Three records of one thread. -/
def threeUmasks : Config where
  modules := [umaskRows]
  order := [0]
  uninitialised _ := 0
  modules_nonempty := umaskRows_nonempty
  order_perm := .refl _

/-- The reader to its end, a turn of the executor, and the next turn up to the push. -/
def twoTurns : List Action :=
  List.replicate 10 (.scheduler (.reader 0)) ++
    List.replicate 4 (.scheduler (.executor 0 0)) ++ [.push 0] ++
    List.replicate 8 (.scheduler (.executor 0 0)) ++ [.push 0]

theorem twoTurns_conserved :
    ∃ s : State, s.scheduler.executedLog.map Record.uniqueId = [0, 1] ∧
      s.released.map (fun c => c.record.uniqueId) = [1] ∧ Conserved s := by
  obtain ⟨s, hreach, hs⟩ := (reclaiming threeUmasks).exists_reachable twoTurns
    (fun s => decide (s.scheduler.executedLog.map Record.uniqueId = [0, 1] ∧
      s.released.map (fun c => c.record.uniqueId) = [1])) (by decide)
  obtain ⟨hlog, hreleased⟩ := of_decide_eq_true hs
  exact ⟨s, hlog, hreleased, (executed_conserved hreach).1⟩

end SyscallReplayer.CopyReclamation
