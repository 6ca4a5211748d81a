import Mathlib.Data.List.Count
import Mathlib.Logic.Relation
import SyscallReplayer.PointerSteps

/-!
# The owners of the copies

A copy has one owner at a time: a heap, the executor that has popped it, the executor
that has executed it last, `allocationQueue` or, at the end, nobody. What is owned is
not deleted. The table owns nothing, but its entries change before their copies are
given away.
-/

namespace SyscallReplayer.CopyOwnership

open TransitionSystem ObjectHeap CopyPointers PointerSteps
open Scheduler (Copy Config Action)

/-- The copy that the executor has popped and not pushed back. -/
def hand (e : Executor) : List Nat :=
  match e.place with
  | .top | .repushed | .leaving | .exited => []
  | _ => e.executeReplayer.toList

/-- The copy that it has executed last, until it is pushed to `allocationQueue`. -/
def kept (e : Executor) : List Nat :=
  match e.place with
  | .top | .popped | .guard | .guarded | .registered | .leaving | .exited =>
      e.prevReplayer.toList
  | _ => []

def owned (e : Executor) : List Nat :=
  hand e ++ kept e

/-- What is pushed next, now that its entry has been replaced. -/
def owed (e : Executor) : List Nat :=
  if e.place = .registered then e.prevReplayer.toList else []

def Uses (e : Executor) (p : Nat) : Prop :=
  e.executeReplayer = some p ∨ e.prevReplayer = some p

def setEntry (tid : Int) (syscall : Option Nat) (table : List (Int × Option Nat)) :
    List (Int × Option Nat) :=
  (tid, syscall) :: table.filter fun e => e.1 ≠ tid

def KeysNodup (table : List (Int × Option Nat)) : Prop :=
  (table.map Prod.fst).Nodup

/-- What one step, or a part of it, does to the pointers. -/
inductive Effect (ps : Pointers) : Pointers → Prop
  | allocate (c : Copy) : Effect ps { ps with heap := ps.heap.allocate c }
  | pushCopy (c : Copy) :
      Effect ps { ps with
        heap := ps.heap.allocate c
        queued := ps.queued ++ [(c.record.executingPid, ps.heap.next)] }
  | setUp (tid : Int) (p : Nat) (c : Copy) (hp : (tid, p) ∈ ps.queued)
      (hc : ps.heap.deref p = some c) :
      Effect ps { ps with
        queued := ps.queued.erase (tid, p)
        currentExecutions :=
          setEntry c.record.executingPid (some p) ps.currentExecutions }
  | start (tid : Int) : Effect ps { ps with executors := ps.executors ++ [startExecutor tid] }
  | deleteHead (q : Option Nat) (rest : List (Option Nat))
      (hqueue : ps.allocationQueue = q :: rest) :
      Effect ps { ps with
        heap := q.elim ps.heap ps.heap.delete
        allocationQueue := rest }
  | forget (table : List (Int × Option Nat))
      (hsub : ∀ tid p, (tid, some p) ∈ table → (tid, some p) ∈ ps.currentExecutions)
      (hkeys : KeysNodup ps.currentExecutions → KeysNodup table) :
      Effect ps { ps with currentExecutions := table }
  | move (before after : List Executor) (e e' : Executor)
      (hsplit : ps.executors = before ++ e :: after) (htid : e'.threadID = e.threadID)
      (howned : owned e' = owned e) (howed : owed e' = [])
      (huses : ∀ p, Uses e' p → Uses e p) :
      Effect ps { ps with executors := before ++ e' :: after }
  | pop (before after : List Executor) (e : Executor)
      (hsplit : ps.executors = before ++ e :: after) (hplace : e.place = .top) (p : Nat)
      (hp : (e.threadID, p) ∈ ps.queued) :
      Effect ps { ps with
        queued := ps.queued.erase (e.threadID, p)
        executors :=
          before ++ { e with place := .popped, executeReplayer := some p } :: after }
  | register (before after : List Executor) (e : Executor)
      (hsplit : ps.executors = before ++ e :: after) (hplace : e.place = .guarded) :
      Effect ps { ps with
        currentExecutions := setEntry e.threadID e.executeReplayer ps.currentExecutions
        executors := before ++ { e with place := .registered } :: after }
  | push (before after : List Executor) (e : Executor)
      (hsplit : ps.executors = before ++ e :: after) (hplace : e.place = .registered) :
      Effect ps { ps with
        allocationQueue := ps.allocationQueue ++ [e.prevReplayer]
        executors := before ++ { e with place := .running } :: after }
  | repush (before after : List Executor) (e : Executor)
      (hsplit : ps.executors = before ++ e :: after) (hplace : e.place = .parked) (p : Nat)
      (hp : e.executeReplayer = some p) :
      Effect ps { ps with
        queued := ps.queued ++ [(e.threadID, p)]
        executors := before ++ { e with place := .repushed } :: after }

/-- The number of owners. -/
def owners (ps : Pointers) (p : Nat) : Nat :=
  (ps.queued.map Prod.snd).count p + (ps.executors.flatMap hand).count p +
    (ps.executors.flatMap kept).count p + ps.allocationQueue.count (some p) +
    ps.heap.freed.count p

def PidOf (ps : Pointers) (p : Nat) (tid : Int) : Prop :=
  ∃ c, ps.heap.objects[p]? = some c ∧ c.record.executingPid = tid

/-- The pointer is not on its way to be deleted. -/
def Kept (ps : Pointers) (p : Nat) : Prop :=
  p ∉ ps.heap.freed ∧ some p ∉ ps.allocationQueue ∧ ∀ e ∈ ps.executors, p ∉ owed e

structure Owning (ps : Pointers) : Prop where
  once : ∀ p, owners ps p ≤ 1
  bound : ∀ p, 0 < owners ps p → p < ps.heap.next
  heaps : ∀ tid p, (tid, p) ∈ ps.queued → PidOf ps p tid
  pids : ∀ e ∈ ps.executors, ∀ p, Uses e p → PidOf ps p e.threadID
  keys : ∀ tid p, (tid, some p) ∈ ps.currentExecutions → PidOf ps p tid
  table : ∀ tid p, (tid, some p) ∈ ps.currentExecutions → Kept ps p

section

variable {ps ps' : Pointers} {p : Nat} {tid : Int}

theorem PidOf.allocate (h : PidOf ps p tid) (c : Copy) {queued : List (Int × Nat)} :
    PidOf { ps with heap := ps.heap.allocate c, queued := queued } p tid := by
  obtain ⟨c', hc', hpid⟩ := h
  obtain ⟨hlt, -⟩ := List.getElem?_eq_some_iff.mp hc'
  exact ⟨c', (List.getElem?_append_left hlt).trans hc', hpid⟩

theorem PidOf.eq {tid' : Int} (h : PidOf ps p tid) (h' : PidOf ps p tid') : tid = tid' := by
  obtain ⟨c, hc, rfl⟩ := h
  obtain ⟨c', hc', rfl⟩ := h'
  rw [Option.some.inj (hc.symm.trans hc')]

theorem PidOf.of_deref {c : Copy} (hc : ps.heap.deref p = some c) :
    PidOf ps p c.record.executingPid :=
  ⟨c, Heap.getElem?_of_deref hc, rfl⟩

theorem mem_setEntry {syscall : Option Nat} {table : List (Int × Option Nat)} {tid' : Int}
    (h : (tid', some p) ∈ setEntry tid syscall table) :
    tid' = tid ∧ syscall = some p ∨ tid' ≠ tid ∧ (tid', some p) ∈ table := by
  rcases List.mem_cons.mp h with heq | hmem
  · cases heq
    exact .inl ⟨rfl, rfl⟩
  · obtain ⟨hold, hne⟩ := List.mem_filter.mp hmem
    exact .inr ⟨of_decide_eq_true hne, hold⟩

theorem keysNodup_setEntry {table : List (Int × Option Nat)} (h : KeysNodup table)
    (syscall : Option Nat) : KeysNodup (setEntry tid syscall table) := by
  refine List.nodup_cons.mpr ⟨fun hmem => ?_, h.sublist (List.filter_sublist.map _)⟩
  obtain ⟨entry, hentry, htid⟩ := List.mem_map.mp hmem
  exact of_decide_eq_true (List.mem_filter.mp hentry).2 htid

theorem mem_kept_of_owed {e : Executor} (h : p ∈ owed e) : p ∈ kept e := by
  unfold owed at h
  split at h
  · rename_i hplace
    rw [kept, hplace]
    exact h
  · cases h

theorem not_mem_kept_of_owner (hone : owners ps p ≤ 1)
    (hp : 0 < (ps.queued.map Prod.snd).count p + (ps.executors.flatMap hand).count p) {e : Executor}
    (he : e ∈ ps.executors) : p ∉ kept e := by
  intro hkept
  have hcount := List.count_pos_iff.mpr (List.mem_flatMap.mpr ⟨e, he, hkept⟩)
  unfold owners at hone
  omega

/-- What is queued or in hand is not on its way to be deleted. -/
theorem kept_of_owner (hone : owners ps p ≤ 1)
    (hp : 0 < (ps.queued.map Prod.snd).count p + (ps.executors.flatMap hand).count p) :
    Kept ps p := by
  refine ⟨fun hfreed => ?_, fun hqueue => ?_, fun e he howed =>
    not_mem_kept_of_owner hone hp he (mem_kept_of_owed howed)⟩
  · have hcount := List.count_pos_iff.mpr hfreed
    unfold owners at hone
    omega
  · have hcount := List.count_pos_iff.mpr hqueue
    unfold owners at hone
    omega

theorem count_flatMap_split {before after : List Executor} {e : Executor} (p : Nat)
    (f : Executor → List Nat) :
    ((before ++ e :: after).flatMap f).count p =
      (before.flatMap f).count p + (f e).count p + (after.flatMap f).count p := by
  rw [List.flatMap_append, List.flatMap_cons, List.count_append, List.count_append, Nat.add_assoc]

theorem count_map_erase {queued : List (Int × Nat)} (h : (tid, p) ∈ queued) (q : Nat) :
    (queued.map Prod.snd).count q =
      ((queued.erase (tid, p)).map Prod.snd).count q + [p].count q := by
  have hcount := ((List.perm_cons_erase h).map Prod.snd).count_eq q
  rw [hcount, List.map_cons, ← List.singleton_append, List.count_append, Nat.add_comm]

/-- Only a push of a new copy adds an owner. -/
theorem effect_owners (h : Effect ps ps') (q : Nat) :
    owners ps' q ≤ owners ps q ∨
      q = ps.heap.next ∧ ps'.heap.next = ps.heap.next + 1 ∧ owners ps' q = owners ps q + 1 := by
  cases h with
  | allocate c => exact .inl le_rfl
  | pushCopy c =>
      unfold owners
      dsimp only
      rw [Heap.freed_allocate, List.map_append, List.count_append, List.map_singleton,
        List.count_singleton]
      split
      · rename_i heq
        refine .inr ⟨(beq_iff_eq.mp heq).symm, Heap.next_allocate _ _, ?_⟩
        omega
      · exact .inl (by omega)
  | setUp tid p c hp hc =>
      refine .inl ?_
      have hcount := count_map_erase hp q
      unfold owners
      dsimp only
      omega
  | start tid =>
      refine .inl ?_
      unfold owners
      dsimp only
      rw [List.flatMap_append, List.flatMap_append]
      simp [startExecutor, hand, kept]
  | deleteHead head rest hqueue =>
      refine .inl ?_
      unfold owners
      dsimp only
      rw [hqueue]
      cases head with
      | none =>
          rw [Option.elim_none, List.count_cons_of_ne (Option.some_ne_none q).symm]
      | some p =>
          simp only [Option.elim_some, Heap.freed_delete, List.count_append, List.count_cons,
            List.count_nil, beq_iff_eq, Option.some.injEq]
          omega
  | forget table hsub hkeys => exact .inl le_rfl
  | move before after e e' hsplit htid howned howed huses =>
      refine .inl ?_
      have hcount := congrArg (List.count q) howned
      unfold owned at hcount
      rw [List.count_append, List.count_append] at hcount
      unfold owners
      dsimp only
      rw [hsplit]
      simp only [count_flatMap_split]
      omega
  | pop before after e hsplit hplace p hp =>
      refine .inl ?_
      have hcount := count_map_erase hp q
      unfold owners
      dsimp only
      rw [hsplit]
      simp only [count_flatMap_split]
      simp only [hand, kept, hplace, Option.toList_some, List.count_nil]
      omega
  | register before after e hsplit hplace =>
      refine .inl ?_
      unfold owners
      dsimp only
      rw [hsplit]
      simp only [count_flatMap_split]
      simp only [hand, kept, hplace, le_refl]
  | push before after e hsplit hplace =>
      refine .inl ?_
      unfold owners
      dsimp only
      rw [hsplit]
      simp only [count_flatMap_split]
      rw [List.count_append]
      simp only [hand, kept, hplace, List.count_nil]
      cases e.prevReplayer with
      | none =>
          rw [List.count_singleton, if_neg (by rintro ⟨⟩), Option.toList_none, List.count_nil,
            Nat.add_zero, Nat.add_zero]
      | some p =>
          rw [Option.toList_some, List.count_singleton, List.count_singleton]
          simp only [beq_iff_eq, Option.some.injEq]
          omega
  | repush before after e hsplit hplace p hp =>
      refine .inl ?_
      unfold owners
      dsimp only
      rw [hsplit]
      simp only [count_flatMap_split]
      rw [List.map_append, List.count_append, List.map_singleton]
      simp only [hand, kept, hplace, hp, List.count_nil, Option.toList_some]
      omega

theorem Owning.effect_once (h : Owning ps) (heffect : Effect ps ps') (q : Nat) :
    owners ps' q ≤ 1 := by
  have hone := h.once q
  rcases effect_owners heffect q with hle | ⟨rfl, -, hmore⟩
  · exact hle.trans hone
  · have hbound := h.bound ps.heap.next
    have hirrefl := Nat.lt_irrefl ps.heap.next
    omega

theorem next_le_of_effect (h : Effect ps ps') : ps.heap.next ≤ ps'.heap.next := by
  cases h with
  | allocate c | pushCopy c =>
      rw [Heap.next_allocate]
      exact Nat.le_succ _
  | deleteHead head rest hqueue => cases head <;> exact le_rfl
  | _ => exact le_rfl

theorem Owning.effect_bound (h : Owning ps) (heffect : Effect ps ps') (q : Nat)
    (hq : 0 < owners ps' q) : q < ps'.heap.next := by
  have hnext := next_le_of_effect heffect
  rcases effect_owners heffect q with hle | ⟨rfl, hgrown, -⟩
  · exact (h.bound q (hq.trans_le hle)).trans_le hnext
  · rw [hgrown]
    exact Nat.lt_succ_self _

theorem PidOf.effect (h : PidOf ps p tid) (heffect : Effect ps ps') : PidOf ps' p tid := by
  cases heffect with
  | allocate c | pushCopy c => exact h.allocate c
  | deleteHead head rest hqueue => cases head <;> exact h
  | _ => exact h

theorem mem_split {before after : List Executor} {e e' : Executor}
    (h : e' ∈ before ++ e :: after) : e' = e ∨ e' ∈ before ++ after := by
  rcases List.mem_append.mp h with hbefore | hafter
  · exact .inr (List.mem_append_left _ hbefore)
  · exact (List.mem_cons.mp hafter).imp id (List.mem_append_right _)

theorem mem_of_split {before after : List Executor} {e e' : Executor}
    (hsplit : ps.executors = before ++ e :: after) (h : e' ∈ before ++ after) :
    e' ∈ ps.executors := by
  rw [hsplit]
  rcases List.mem_append.mp h with hbefore | hafter
  · exact List.mem_append_left _ hbefore
  · exact List.mem_append_right _ (List.mem_cons_of_mem _ hafter)

theorem mem_of_split_self {before after : List Executor} {e : Executor}
    (hsplit : ps.executors = before ++ e :: after) : e ∈ ps.executors := by
  rw [hsplit]
  exact List.mem_append_right _ List.mem_cons_self

theorem executor_of_effect (h : Effect ps ps') {e' : Executor} (he' : e' ∈ ps'.executors) :
    (∃ e ∈ ps.executors, e'.threadID = e.threadID ∧
      ∀ p, Uses e' p → Uses e p ∨ (e.threadID, p) ∈ ps.queued) ∨
      ∃ tid, e' = startExecutor tid := by
  have hsame : e' ∈ ps.executors → ∃ e ∈ ps.executors, e'.threadID = e.threadID ∧
      ∀ p, Uses e' p → Uses e p ∨ (e.threadID, p) ∈ ps.queued :=
    fun hmem => ⟨e', hmem, rfl, fun p hp => .inl hp⟩
  cases h with
  | start tid =>
      rcases List.mem_append.mp he' with hmem | hnew
      · exact .inl (hsame hmem)
      · exact .inr ⟨tid, List.mem_singleton.mp hnew⟩
  | move before after e e'' hsplit htid howned howed huses =>
      rcases mem_split he' with rfl | hother
      · exact .inl ⟨e, mem_of_split_self hsplit, htid, fun p hp => .inl (huses p hp)⟩
      · exact .inl (hsame (mem_of_split hsplit hother))
  | pop before after e hsplit hplace p hp =>
      rcases mem_split he' with rfl | hother
      · refine .inl ⟨e, mem_of_split_self hsplit, rfl, ?_⟩
        rintro q (hexecute | hprev)
        · obtain rfl := Option.some.inj hexecute
          exact .inr hp
        · exact .inl (.inr hprev)
      · exact .inl (hsame (mem_of_split hsplit hother))
  | register before after e hsplit hplace | push before after e hsplit hplace
  | repush before after e hsplit hplace p hp =>
      rcases mem_split he' with rfl | hother
      · exact .inl ⟨e, mem_of_split_self hsplit, rfl, fun p hp => .inl hp⟩
      · exact .inl (hsame (mem_of_split hsplit hother))
  | _ => exact .inl (hsame he')

theorem Owning.effect_pids (h : Owning ps) (heffect : Effect ps ps') {e' : Executor}
    (he' : e' ∈ ps'.executors) (hp : Uses e' p) : PidOf ps' p e'.threadID := by
  rcases executor_of_effect heffect he' with ⟨e, he, htid, huses⟩ | ⟨tid, rfl⟩
  · rw [htid]
    rcases huses p hp with hold | hqueued
    · exact (h.pids e he p hold).effect heffect
    · exact (h.heaps e.threadID p hqueued).effect heffect
  · rcases hp with hnone | hnone
    · cases hnone
    · cases hnone

theorem Owning.effect_heaps (h : Owning ps) (heffect : Effect ps ps')
    (hmem : (tid, p) ∈ ps'.queued) : PidOf ps' p tid := by
  have hold : (tid, p) ∈ ps.queued → PidOf ps' p tid :=
    fun hqueued => (h.heaps tid p hqueued).effect heffect
  cases heffect with
  | pushCopy c =>
      rcases List.mem_append.mp hmem with hqueued | hnew
      · exact hold hqueued
      · obtain ⟨rfl, rfl⟩ := Prod.mk.inj (List.mem_singleton.mp hnew)
        exact ⟨c, List.getElem?_concat_length, rfl⟩
  | setUp tid' q c hq hc | pop before after e hsplit hplace q hq =>
      exact hold (List.mem_of_mem_erase hmem)
  | repush before after e hsplit hplace q hq =>
      rcases List.mem_append.mp hmem with hqueued | hnew
      · exact hold hqueued
      · obtain ⟨rfl, rfl⟩ := Prod.mk.inj (List.mem_singleton.mp hnew)
        exact h.pids e (mem_of_split_self hsplit) p (.inl hq)
  | _ => exact hold hmem

theorem owed_of_split {before after : List Executor} {e e' : Executor}
    (hsplit : ps.executors = before ++ e :: after) (howed : owed e' = []) {e'' : Executor}
    (he'' : e'' ∈ before ++ e' :: after) (hp : p ∈ owed e'') : ∃ e ∈ ps.executors, p ∈ owed e := by
  rcases mem_split he'' with rfl | hother
  · rw [howed] at hp
    cases hp
  · exact ⟨e'', mem_of_split hsplit hother, hp⟩

/-- A copy that is kept stays so, unless its executor has just registered its next one. -/
theorem Kept.effect (h : Kept ps p) (heffect : Effect ps ps')
    (hregister : ∀ e ∈ ps.executors, e.place = .guarded →
      ps'.currentExecutions = setEntry e.threadID e.executeReplayer ps.currentExecutions →
        e.prevReplayer ≠ some p) : Kept ps' p := by
  obtain ⟨hfreed, hqueue, howed⟩ := h
  have hsplits : ∀ {before after e e' e''}, ps.executors = before ++ e :: after → owed e' = [] →
      e'' ∈ before ++ e' :: after → p ∉ owed e'' := by
    intro before after e e' e'' hsplit hnone hmem hp
    obtain ⟨e₀, he₀, hp₀⟩ := owed_of_split hsplit hnone hmem hp
    exact howed e₀ he₀ hp₀
  cases heffect with
  | start tid =>
      refine ⟨hfreed, hqueue, fun e he hp => ?_⟩
      rcases List.mem_append.mp he with hmem | hnew
      · exact howed e hmem hp
      · rw [List.mem_singleton.mp hnew] at hp
        cases hp
  | deleteHead head rest hrest =>
      rw [hrest, List.mem_cons, not_or] at hqueue
      refine ⟨?_, hqueue.2, howed⟩
      cases head with
      | none => exact hfreed
      | some q =>
          intro hmem
          rcases List.mem_append.mp hmem with hold | hnew
          · exact hfreed hold
          · exact hqueue.1 (congrArg some (List.mem_singleton.mp hnew))
  | move before after e e' hsplit htid howned hnone huses =>
      exact ⟨hfreed, hqueue, fun e'' he'' => hsplits hsplit hnone he''⟩
  | pop before after e hsplit hplace q hq =>
      exact ⟨hfreed, hqueue, fun e'' he'' => hsplits hsplit rfl he''⟩
  | register before after e hsplit hplace =>
      refine ⟨hfreed, hqueue, fun e'' he'' hp => ?_⟩
      rcases mem_split he'' with rfl | hother
      · exact hregister e (mem_of_split_self hsplit) hplace rfl (Option.mem_toList.mp hp)
      · exact howed e'' (mem_of_split hsplit hother) hp
  | push before after e hsplit hplace =>
      refine ⟨hfreed, fun hmem => ?_, fun e'' he'' => hsplits hsplit rfl he''⟩
      rcases List.mem_append.mp hmem with hold | hnew
      · exact hqueue hold
      · refine howed e (mem_of_split_self hsplit) ?_
        rw [owed, if_pos hplace, Option.mem_toList]
        exact (List.mem_singleton.mp hnew).symm
  | repush before after e hsplit hplace q hq =>
      exact ⟨hfreed, hqueue, fun e'' he'' => hsplits hsplit rfl he''⟩
  | _ => exact ⟨hfreed, hqueue, howed⟩

/-- An entry is an old one, or it has been made for a copy that was queued or is in
hand. -/
theorem entry_of_effect (h : Effect ps ps') (hmem : (tid, some p) ∈ ps'.currentExecutions) :
    (tid, some p) ∈ ps.currentExecutions ∨ PidOf ps p tid ∧ p ∈ ps.queued.map Prod.snd ∨
      ∃ e ∈ ps'.executors, e.threadID = tid ∧ p ∈ hand e ∧ Uses e p := by
  cases h with
  | setUp tid' q c hq hc =>
      rcases mem_setEntry hmem with ⟨rfl, heq⟩ | ⟨-, hold⟩
      · obtain rfl := Option.some.inj heq
        exact .inr (.inl ⟨PidOf.of_deref hc, List.mem_map_of_mem hq⟩)
      · exact .inl hold
  | forget table hsub hkeys => exact .inl (hsub tid p hmem)
  | register before after e hsplit hplace =>
      rcases mem_setEntry hmem with ⟨rfl, heq⟩ | ⟨-, hold⟩
      · refine .inr (.inr ⟨_, List.mem_append_right _ List.mem_cons_self, rfl, ?_, .inl heq⟩)
        exact Option.mem_toList.mpr heq
      · exact .inl hold
  | _ => exact .inl hmem

theorem Owning.effect_table (h : Owning ps) (heffect : Effect ps ps')
    (hmem : (tid, some p) ∈ ps'.currentExecutions) : PidOf ps' p tid ∧ Kept ps' p := by
  rcases entry_of_effect heffect hmem with hold | ⟨hpid, hqueued⟩ | ⟨e, he, rfl, hhand, huses⟩
  · refine ⟨(h.keys tid p hold).effect heffect, (h.table tid p hold).effect heffect ?_⟩
    intro e he hplace htable hprev
    have hkey := (h.keys tid p hold).eq (h.pids e he p (.inr hprev))
    rw [htable] at hmem
    rcases mem_setEntry hmem with ⟨-, hexecute⟩ | ⟨hne, -⟩
    · have hhand : p ∈ ps.executors.flatMap hand :=
        List.mem_flatMap.mpr ⟨e, he, by rw [hand, hplace]; exact Option.mem_toList.mpr hexecute⟩
      have hpos := Nat.add_pos_right ((ps.queued.map Prod.snd).count p)
        (List.count_pos_iff.mpr hhand)
      refine not_mem_kept_of_owner (h.once p) hpos he ?_
      rw [kept, hplace]
      exact Option.mem_toList.mpr hprev
    · exact hne hkey
  · have hpos := Nat.add_pos_left (List.count_pos_iff.mpr hqueued)
      ((ps.executors.flatMap hand).count p)
    refine ⟨hpid.effect heffect, (kept_of_owner (h.once p) hpos).effect heffect ?_⟩
    intro e he hplace _ hprev
    refine not_mem_kept_of_owner (h.once p) hpos he ?_
    rw [kept, hplace]
    exact Option.mem_toList.mpr hprev
  · have hpos := Nat.add_pos_right ((ps'.queued.map Prod.snd).count p)
      (List.count_pos_iff.mpr (List.mem_flatMap.mpr ⟨e, he, hhand⟩))
    exact ⟨h.effect_pids heffect he huses, kept_of_owner (h.effect_once heffect p) hpos⟩

theorem Owning.effect (h : Owning ps) (heffect : Effect ps ps') : Owning ps' where
  once := h.effect_once heffect
  bound := h.effect_bound heffect
  heaps _ _ hmem := h.effect_heaps heffect hmem
  pids _ he _ hp := h.effect_pids heffect he hp
  keys _ _ hmem := (h.effect_table heffect hmem).1
  table _ _ hmem := (h.effect_table heffect hmem).2

theorem Owning.effects (h : Owning ps) (heffects : Relation.ReflTransGen Effect ps ps') :
    Owning ps' := by
  induction heffects with
  | refl => exact h
  | tail _ hlast ih => exact ih.effect hlast

theorem exists_split {index : Nat} {e : Executor} (h : ps.executors[index]? = some e) :
    ∃ before after, ps.executors = before ++ e :: after ∧ ∀ e' new,
      (ps.executors ++ new).set index e' = before ++ e' :: (after ++ new) := by
  obtain ⟨hlt, hval⟩ := List.getElem?_eq_some_iff.mp h
  refine ⟨ps.executors.take index, ps.executors.drop (index + 1), ?_, fun e' new => ?_⟩
  · rw [← hval, List.getElem_cons_drop, List.take_append_drop]
  · rw [List.set_append_left _ _ hlt, List.set_eq_take_append_cons_drop, if_pos hlt,
      List.append_assoc, List.cons_append]

theorem Owning.live (h : Owning ps)
    (hp : ps.heap.freed.count p < owners ps p) : ps.heap.Live p := by
  refine ⟨h.bound p (Nat.zero_lt_of_lt hp), fun hfreed => ?_⟩
  have hone := h.once p
  have hcount := List.count_pos_iff.mpr hfreed
  omega

theorem Owning.count_flatMap {e : Executor} {f : Executor → List Nat}
    (he : e ∈ ps.executors) (hp : p ∈ f e) : 0 < (ps.executors.flatMap f).count p :=
  List.count_pos_iff.mpr (List.mem_flatMap.mpr ⟨e, he, hp⟩)

theorem Owning.live_queued (h : Owning ps) {entry : Int × Nat}
    (hentry : entry ∈ ps.queued) : ps.heap.Live entry.2 := by
  have hone := h.once entry.2
  have hpos := List.count_pos_iff.mpr (List.mem_map_of_mem (f := Prod.snd) hentry)
  apply h.live
  unfold owners
  omega

theorem Owning.live_hand {e : Executor} (h : Owning ps)
    (he : e ∈ ps.executors) (hp : p ∈ hand e) : ps.heap.Live p := by
  have hpos := Owning.count_flatMap he hp
  apply h.live
  unfold owners
  omega

end

section

variable {cfg : Config} {s s' : State} {pick : Nat}

theorem effects_of_readerStep (h : readerStep cfg s pick = some s') :
    Relation.ReflTransGen Effect s.toPointers s'.toPointers := by
  cases readerChange_of_readerStep h with
  | keep h => rw [h]
  | setUp p c hp hc h => exact h ▸ .single (.setUp _ p c hp hc)
  | start h => exact h ▸ .single (.start cfg.mainThreadID)
  | unused c h => exact h ▸ .single (.allocate c)
  | pushCopy c i b count h => exact h ▸ .single (.pushCopy c)
  | deleteHead q rest hqueue h => exact h ▸ .single (.deleteHead q rest hqueue)

theorem effects_of_move {ps : Pointers} {index : Nat} {e e' : Executor}
    (hget : ps.executors[index]? = some e) (htid : e'.threadID = e.threadID)
    (howned : owned e' = owned e) (howed : owed e' = []) (huses : ∀ p, Uses e' p → Uses e p) :
    Relation.ReflTransGen Effect ps { ps with executors := ps.executors.set index e' } := by
  obtain ⟨before, after, hsplit, hset⟩ := exists_split hget
  rw [← List.append_nil ps.executors, hset, List.append_nil]
  exact .single (.move before after e e' hsplit htid howned howed huses)

theorem effects_of_execute {index : Nat} {e e' : Executor} (c : Copy)
    (hget : s.executors[index]? = some e) (htid : e'.threadID = e.threadID)
    (howned : owned e' = owned e) (howed : owed e' = []) (huses : ∀ p, Uses e' p → Uses e p) :
    Relation.ReflTransGen Effect s.toPointers
      { (s.execute c).toPointers with executors := (s.execute c).executors.set index e' } := by
  have hmove := effects_of_move hget htid howned howed huses
  unfold State.execute
  dsimp only
  cases c.record.child with
  | none => exact hmove
  | some pid =>
      obtain ⟨before, after, hsplit, hset⟩ := exists_split hget
      have hold := hset e' []
      rw [List.append_nil, List.append_nil] at hold
      refine (hmove.tail (.start pid)).tail ?_
      have hnew : (s.executors ++ [startExecutor pid]).set index e' =
          s.executors.set index e' ++ [startExecutor pid] := by
        rw [hset, hold, List.append_assoc, List.cons_append]
      dsimp only
      rw [hnew]
      refine .forget _ (fun tid p hmem => ?_) fun hkeys => keysNodup_setEntry hkeys none
      rcases mem_setEntry hmem with ⟨-, hnull⟩ | ⟨-, hmem⟩
      · cases hnull
      · exact hmem
theorem execute_heap (s : State) (c : Copy) : (s.execute c).heap = s.heap := by
  unfold State.execute
  cases c.record.child <;> rfl

theorem execute_reader (s : State) (c : Copy) : (s.execute c).reader = s.reader := by
  unfold State.execute
  cases c.record.child <;> rfl

theorem effects_of_executorStep {index : Nat} {e e' : Executor} {t : State}
    (hget : s.executors[index]? = some e) (h : executorStep cfg s e pick = some (t, e')) :
    Relation.ReflTransGen Effect s.toPointers
      { t.toPointers with executors := t.executors.set index e' } ∧
        t.heap = s.heap ∧ t.reader = s.reader := by
  have htrans := executorTransition_of_executorStep h
  obtain ⟨before, after, hsplit, hset⟩ := exists_split hget
  have hold : ∀ e', s.executors.set index e' = before ++ e' :: after := by
    intro e'
    rw [← List.append_nil s.executors, hset, List.append_nil]
  generalize hplace : e.place = place at htrans
  cases htrans with
  | pop p hp =>
      dsimp only
      rw [hold]
      exact ⟨.single (.pop before after e hsplit hplace p (mem_minima hp)), rfl, rfl⟩
  | register =>
      dsimp only [State.setRunning]
      rw [hold]
      exact ⟨.single (.register before after e hsplit hplace), rfl, rfl⟩
  | push =>
      dsimp only
      rw [hold]
      exact ⟨.single (.push before after e hsplit hplace), rfl, rfl⟩
  | repush p hp =>
      dsimp only
      rw [hold]
      exact ⟨.single (.repush before after e hsplit hplace p hp), rfl, rfl⟩
  | park =>
      have hmove : Relation.ReflTransGen Effect s.toPointers
          { s.toPointers with executors := s.executors.set index { e with place := .parked } } :=
        effects_of_move hget rfl (by simp only [owned, hand, kept, hplace]) rfl fun _ h => h
      refine ⟨hmove.tail (.forget _ (fun tid p hmem => ?_)
        fun hkeys => keysNodup_setEntry hkeys none), rfl, rfl⟩
      rcases mem_setEntry hmem with ⟨-, hnull⟩ | ⟨-, hmem⟩
      · cases hnull
      · exact hmem
  | unregister =>
      have hmove : Relation.ReflTransGen Effect s.toPointers
          { s.toPointers with executors := s.executors.set index { e with place := .exited } } :=
        effects_of_move hget rfl (by simp only [owned, hand, kept, hplace]) rfl fun _ h => h
      exact ⟨hmove.tail (.forget _ (fun tid p hmem => (List.mem_filter.mp hmem).1)
        fun hkeys => hkeys.sublist (List.filter_sublist.map _)), rfl, rfl⟩
  | execute c hc =>
      exact ⟨effects_of_execute c hget rfl (by simp only [owned, hand, kept, hplace]) rfl
        fun _ h => h, execute_heap s c, execute_reader s c⟩
  | storeLast lastId =>
      refine ⟨effects_of_move hget rfl ?_ rfl ?_, rfl, rfl⟩
      · simp only [owned, hand, kept, hplace, List.nil_append, List.append_nil]
      · rintro p (hexecute | hprev)
        · exact .inl hexecute
        · exact .inl hprev
  | countRepush c hc =>
      refine ⟨effects_of_move hget rfl (by simp only [owned, hand, kept, hplace]; rfl) rfl ?_,
        rfl, rfl⟩
      rintro p (hexecute | hprev)
      · exact .inl hexecute
      · cases hprev
  | guardWait hguard =>
      exact ⟨effects_of_move hget rfl rfl (by rw [owed, hplace]; rfl) fun _ h => h, rfl, rfl⟩
  | compare todo =>
      rcases place_of_compareStep s e todo with heq | heq | ⟨_, heq⟩ | ⟨_, _, _, heq, -⟩
      all_goals
        rw [heq]
        exact ⟨effects_of_move hget rfl (by simp only [owned, hand, kept, hplace]) rfl fun _ h => h,
          rfl, rfl⟩
  | follow q todo place hfollow =>
      rcases place_of_followStep hfollow with rfl | rfl
      all_goals
        exact ⟨effects_of_move hget rfl (by simp only [owned, hand, kept, hplace]) rfl fun _ h => h,
          rfl, rfl⟩
  | leave | countPop | guardPass | manyThreads | oneThread | enterLoop | outOfWindow | readLast =>
      exact ⟨effects_of_move hget rfl (by simp only [owned, hand, kept, hplace]) rfl fun _ h => h,
        rfl, rfl⟩

theorem effects_of_step {a : Action} (h : step cfg s a = some s') :
    Relation.ReflTransGen Effect s.toPointers s'.toPointers := by
  cases a with
  | reader pick => exact effects_of_readerStep h
  | executor index pick =>
      obtain ⟨e, hget, hrest⟩ := Option.bind_eq_some_iff.mp h
      obtain ⟨⟨t, e'⟩, hstep, rfl⟩ := Option.map_eq_some_iff.mp hrest
      exact (effects_of_executorStep hget hstep).1

theorem map_snd_loaded (cfg : Config) :
    (loadSyscallModules cfg).queued.map Prod.snd = List.range (firstCopies cfg).length := by
  change (((firstCopies cfg).zipIdx.map _).map _) = _
  rw [List.map_map, List.range_eq_range']
  exact List.zipIdx_map_snd 0 (firstCopies cfg)

theorem loadSyscallModules_owning (cfg : Config) : Owning (loadSyscallModules cfg).toPointers := by
  have howners : ∀ p, owners (loadSyscallModules cfg).toPointers p =
      (List.range (firstCopies cfg).length).count p :=
    fun p => congrArg (List.count p) (map_snd_loaded cfg)
  constructor
  · intro p
    rw [howners]
    exact List.nodup_iff_count_le_one.mp List.nodup_range p
  · intro p hp
    rw [howners] at hp
    exact List.mem_range.mp (List.count_pos_iff.mp hp)
  · intro tid p hmem
    obtain ⟨⟨c, q⟩, hc, heq⟩ := List.mem_map.mp hmem
    obtain ⟨rfl, rfl⟩ := Prod.mk.inj heq
    exact ⟨c, List.mk_mem_zipIdx_iff_getElem?.mp hc, rfl⟩
  · intro e he
    cases he
  · intro tid p hmem
    cases hmem
  · intro tid p hmem
    cases hmem

theorem reachable_owning (h : (pointing cfg).Reachable s) : Owning s.toPointers :=
  h.invariant (P := fun s => Owning s.toPointers) _ (loadSyscallModules_owning cfg)
    fun _ _ _ _ hinv _ hstep => hinv.effects (effects_of_step hstep)

/-- The reader has not deleted anything since it pushed the copy that it counts. -/
theorem reachable_counting (h : (pointing cfg).Reachable s) :
    ∀ p i b count, s.reader = .counting p i b count → s.heap.Live p := by
  refine h.invariant (P := fun s => ∀ p i b count, s.reader = .counting p i b count →
    s.heap.Live p) _ (fun p i b count h => nomatch h) ?_
  intro s a s' hreach hinv _ hstep p i b count hcounting
  cases a with
  | reader pick =>
      cases readerChange_of_readerStep hstep with
      | pushCopy c i' b' count' h hreader =>
          cases hreader.symm.trans hcounting
          have hheap : s'.heap = s.heap.allocate c := congrArg Pointers.heap h
          have hbound := (reachable_owning hreach).bound s.heap.next
          refine ⟨?_, ?_⟩
          · rw [hheap, Heap.next_allocate]
            exact Nat.lt_succ_self _
          · rw [hheap, Heap.freed_allocate]
            intro hfreed
            have hcount := List.count_pos_iff.mpr hfreed
            unfold owners at hbound
            exact Nat.lt_irrefl _ (hbound (by omega))
      | keep h hreader => exact absurd hcounting (hreader p i b count)
      | setUp q c hq hc h hreader => exact absurd hcounting (hreader p i b count)
      | start h hreader => exact absurd hcounting (hreader p i b count)
      | unused c h hreader => exact absurd hcounting (hreader p i b count)
      | deleteHead q rest hqueue h hreader => exact absurd hcounting (hreader p i b count)
  | executor index pick =>
      obtain ⟨e, hget, hrest⟩ := Option.bind_eq_some_iff.mp hstep
      obtain ⟨⟨t, e'⟩, hrun, rfl⟩ := Option.map_eq_some_iff.mp hrest
      obtain ⟨-, hheap, hreader⟩ := effects_of_executorStep hget hrun
      have hlive := hinv p i b count (hreader.symm.trans hcounting)
      rw [← hheap] at hlive
      exact hlive
end

end SyscallReplayer.CopyOwnership
