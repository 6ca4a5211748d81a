import SyscallReplayer.ThreadOrder

/-!
# The counters and the heaps

`numberOfSyscalls[i]` counts the queued records of an unfinished module `i`, up
to the pushes and pops that are half done, as long as every copy carries the
index of its module. The low-water guard keeps enough of them for every
executor that may still pop.
-/

namespace SyscallReplayer.QueueAccounting

open SyscallReplayer.CInt
open SyscallReplayer.TransitionSystem
open SyscallReplayer.Scheduler
open SyscallReplayer.SchedulerSteps
open SyscallReplayer.ReaderProgress
open SyscallReplayer.RecordConservation
open SyscallReplayer.ThreadOrder

def Carries (cfg : Config) (c : Copy) : Prop :=
  c.producer < cfg.replayerIdx ∧ c.replayerIndex = c.producer

structure Indexed (cfg : Config) (s : State) : Prop where
  queued : ∀ c ∈ s.queued, Carries cfg c
  held : ∀ e ∈ s.executors, ∀ c, copyOf e.pc = some c → Carries cfg c
  touched : ∀ t ∈ s.touched, t.1 < cfg.replayerIdx ∧ t.2 = t.1

theorem loadSyscallModules_indexed {cfg : Config} (hidx : cfg.IndexedCopies) :
    Indexed cfg (loadSyscallModules cfg) where
  queued c hc := by
    simp only [loadSyscallModules, List.mem_filterMap, List.mem_range] at hc
    obtain ⟨i, hi, hc⟩ := hc
    obtain ⟨r, _, rfl⟩ := Option.map_eq_some_iff.mp hc
    exact ⟨hi, hidx i hi⟩
  held _ he := (List.not_mem_nil he).elim
  touched _ ht := (List.not_mem_nil ht).elim

theorem Indexed.touch {cfg : Config} {s : State} {c : Copy} (hinv : Indexed cfg s)
    (hc : Carries cfg c) {t : Nat × Int} (ht : t ∈ (s.touch c).touched) :
    t.1 < cfg.replayerIdx ∧ t.2 = t.1 := by
  rcases List.mem_append.mp ht with ht | ht
  · exact hinv.touched t ht
  · cases List.mem_singleton.mp ht
    exact hc

theorem readerTransition_indexed {cfg : Config} {s s' : State}
    (hreader : ReaderInv cfg s) (hinv : Indexed cfg s) (h : ReaderTransition cfg s s') :
    Indexed cfg s' := by
  have hpc := hreader.pc
  have hmove : ∀ i < cfg.replayerIdx, Carries cfg ((s.series i).move i) := fun i hi =>
    ⟨hi, hreader.index i hi⟩
  have hpush : ∀ c, Carries cfg c → ∀ c' ∈ s.queued ++ [c], Carries cfg c' := by
    intro c hc c' hc'
    rcases List.mem_append.mp hc' with hc' | hc'
    · exact hinv.queued c' hc'
    · exact List.mem_singleton.mp hc' ▸ hc
  cases h with
  | prepareUmask hr c hc =>
      have hcarries := hinv.queued c (mem_queued_of_mem_minima hc)
      refine ⟨fun c' hc' => hinv.queued c' (List.mem_of_mem_erase hc'), hinv.held, ?_⟩
      exact fun _ ht => hinv.touch hcarries ht
  | firstBatchDone b hr =>
      refine ⟨hinv.queued, ?_, hinv.touched⟩
      intro e he c hc
      rcases List.mem_append.mp he with he | he
      · exact hinv.held e he c hc
      · rw [List.mem_singleton.mp he] at hc
        cases hc
  | skip b i rest hr htodo | enterFirst b i rest hr htodo | enterCarry b i rest hr htodo =>
      rw [hr] at hpc
      have hlt := hpc.lt i (by simp [htodo])
      exact ⟨hinv.queued, hinv.held, fun _ ht => hinv.touch (hmove i hlt) ht⟩
  | carry i b hr =>
      rw [hr] at hpc
      exact ⟨hpush _ (hmove i hpc.2.1.lt), hinv.held, hinv.touched⟩
  | count c i b count hr =>
      rw [hr] at hpc
      obtain ⟨_, hactive, _, hindex, hproducer, _⟩ := hpc
      refine ⟨hinv.queued, hinv.held, fun _ ht => hinv.touch ⟨?_, ?_⟩ ht⟩
      · exact hproducer ▸ hactive.lt
      · rw [hindex, hproducer]
  | rowsFinish i b count hr =>
      rw [hr] at hpc
      exact ⟨hinv.queued, hinv.held, fun _ ht => hinv.touch (hmove i hpc.2.1.lt) ht⟩
  | rowsPush i b count r rest hr =>
      rw [hr] at hpc
      have hlt := hpc.2.1.lt
      exact ⟨hpush _ ⟨hlt, hreader.index i hlt⟩, hinv.held, hinv.touched⟩
  | finish i b hr =>
      rw [hr] at hpc
      exact ⟨hinv.queued, hinv.held, fun _ ht => hinv.touch (hmove i hpc.2.1) ht⟩
  | _ => exact ⟨hinv.queued, hinv.held, hinv.touched⟩

theorem transition_indexed {cfg : Config} {s s' : State} {a : Action}
    (hreader : ReaderInv cfg s) (hinv : Indexed cfg s) (h : Transition cfg s a s') :
    Indexed cfg s' := by
  cases h with
  | reader pick h => exact readerTransition_indexed hreader hinv h
  | executor index pick e before after he hsplit h =>
      have hmem : e ∈ s.executors := by simp [hsplit]
      refine ⟨?_, ?_, ?_⟩
      · intro c hc
        obtain ⟨tid, pc⟩ := e
        cases h with
        | pop => exact hinv.queued c (List.mem_of_mem_erase hc)
        | repush c' =>
            rcases List.mem_append.mp hc with hc | hc
            · exact hinv.queued c hc
            · exact List.mem_singleton.mp hc ▸ hinv.held _ hmem c' rfl
        | execute c' => exact hinv.queued c (execute_queued s c' ▸ hc)
        | _ => exact hinv.queued c hc
      · intro e' he' c hc
        simp only [List.mem_append, List.mem_cons] at he'
        rcases he' with he' | rfl | he' | he'
        · exact hinv.held e' (by simp [hsplit, he']) c hc
        · rcases copyOf_of_executorTransition h hc with hc | hc
          · exact hinv.held e hmem c hc
          · exact hinv.queued c (mem_queued_of_mem_minima hc)
        · exact hinv.held e' (by simp [hsplit, he']) c hc
        · rw [(newExecutors_pc he').1] at hc
          cases hc
      · intro t ht
        obtain ⟨tid, pc⟩ := e
        cases h with
        | countPop c => exact hinv.touch (hinv.held _ hmem c rfl) ht
        | countRepush c => exact hinv.touch (hinv.held _ hmem c rfl) ht
        | execute c =>
            exact hinv.touched t (execute_touched s c ▸ ht)
        | _ => exact hinv.touched t ht

theorem reachable_indexed {cfg : Config} {ok : State → Action → Prop} {s : State}
    (hidx : cfg.IndexedCopies) (h : (replay cfg).ReachVia ok s) : Indexed cfg s :=
  h.invariant _ (loadSyscallModules_indexed hidx) fun _ _ _ hreach hinv _ hs =>
    transition_indexed (reachable_readerInv hreach) hinv (transition_of_step hs)

theorem Indexed.producer_lt {cfg : Config} {s : State} (hidx : Indexed cfg s) {c : Copy}
    (hc : c ∈ copies s) : c.producer < cfg.replayerIdx := by
  rcases List.mem_append.mp hc with hc | hc
  · obtain ⟨e, he, hhand⟩ := mem_copiesInHand.mp hc
    exact (hidx.held e he c (copyOf_of_inHand hhand)).1
  · exact (hidx.queued c hc).1

def producedBy (i : Nat) (c : Copy) : Bool :=
  c.producer == i

/-- The copies of module `i` in all heaps. -/
def queuedOf (s : State) (i : Nat) : Nat :=
  s.queued.countP (producedBy i)

/-- Popped, with the counter not decremented yet. -/
def uncounted : ExecutorPc → Option Copy
  | .popped c => some c
  | _ => none

/-- Pushed back, with the counter not incremented yet. -/
def recounting : ExecutorPc → Option Copy
  | .repushed c => some c
  | _ => none

/-- Pushed by the reader, with the counter not incremented yet. -/
def pushing : ReaderPc → Option Copy
  | .counting c _ _ _ => some c
  | _ => none

/-- The counter of module `i` with all half done operations completed, less
the number of its queued copies. -/
def balance (s : State) (i : Nat) : Int :=
  s.numberOfSyscalls i + (pushing s.reader).toList.countP (producedBy i) +
    (held recounting s.executors).countP (producedBy i) - queuedOf s i -
    (held uncounted s.executors).countP (producedBy i)

/-- The counter of module `i` has been set to `LLONG_MAX`. -/
def settled (s : State) (i : Nat) : Bool :=
  s.finishedModules i && match s.reader with
    | .finishing j _ => j != i
    | _ => true

theorem countP_singleton_producedBy (i : Nat) (c : Copy) :
    [c].countP (producedBy i) = if c.producer = i then 1 else 0 := by
  simp [producedBy]

theorem queuedOf_erase {s : State} {c : Copy} (hc : c ∈ s.queued) (i : Nat) :
    queuedOf s i = (s.queued.erase c).countP (producedBy i) +
      if c.producer = i then 1 else 0 := by
  have hcount := (List.perm_cons_erase hc).countP_eq (producedBy i)
  rw [← List.singleton_append, List.countP_append, countP_singleton_producedBy] at hcount
  unfold queuedOf
  omega

theorem queuedOf_append (l : List Copy) (c : Copy) (i : Nat) :
    (l ++ [c]).countP (producedBy i) =
      l.countP (producedBy i) + if c.producer = i then 1 else 0 := by
  rw [List.countP_append, countP_singleton_producedBy]

theorem update_carried {cfg : Config} {c : Copy} (hc : Carries cfg c) (f : Int → Int)
    (v : Int) (i : Nat) :
    Function.update f c.replayerIndex (f c.replayerIndex + v) (i : Int) =
      f i + if c.producer = i then v else 0 := by
  rw [hc.2]
  by_cases h : c.producer = i
  · subst h
    simp
  · rw [update_natCast_ne _ _ fun h' => h h'.symm, if_neg h, add_zero]

theorem balance_of_readerTransition {cfg : Config} {s s' : State}
    (hreader : ReaderInv cfg s) (hinv : Indexed cfg s) (h : ReaderTransition cfg s s')
    {i : Nat} (hsettling : ∀ b, s.reader ≠ .finishing i b) :
    balance s' i = balance s i := by
  have hpc := hreader.pc
  cases h with
  | prepareUmask hr c hc =>
      have hmem := mem_queued_of_mem_minima hc
      have hcount := queuedOf_erase hmem i
      have hupdate := update_carried (hinv.queued c hmem) s.numberOfSyscalls (-1) i
      simp only [balance, queuedOf, prepared, State.setRunning, State.touch,
        State.decrement, Int.sub_eq_add_neg, hupdate, hr, pushing] at hcount ⊢
      by_cases hp : c.producer = i
      · simp only [hp, if_true] at hcount ⊢
        omega
      · simp only [hp, if_false] at hcount ⊢
        omega
  | firstBatchDone b hr =>
      simp [balance, queuedOf, held, hr, pushing, uncounted, recounting]
  | carry j b hr =>
      simp only [balance, queuedOf, queuedOf_append, hr, pushing,
        Option.toList_some, Option.toList_none, countP_singleton_producedBy,
        List.countP_nil]
      push_cast
      omega
  | count c j b count hr =>
      rw [hr] at hpc
      obtain ⟨_, hactive, _, hindex, hproducer, _⟩ := hpc
      have hcarries : Carries cfg c := ⟨hproducer ▸ hactive.lt, by rw [hindex, hproducer]⟩
      simp only [balance, queuedOf, State.touch, State.increment,
        update_carried hcarries, hr, pushing, Option.toList_some,
        Option.toList_none, countP_singleton_producedBy, List.countP_nil]
      push_cast
      omega
  | rowsPush j b count r rest hr =>
      simp only [balance, queuedOf, queuedOf_append, readRow, hr, pushing,
        Option.toList_some, Option.toList_none, countP_singleton_producedBy,
        List.countP_nil]
      push_cast
      omega
  | finish j b hr =>
      rw [hr] at hpc
      have hne : i ≠ j := by
        rintro rfl
        exact hsettling b hr
      simp only [balance, queuedOf, hr, pushing, hreader.index j hpc.2.1,
        update_natCast_ne _ _ hne]
      rfl
  | prepareEmpty hr | batchDone b hr | skip b j rest hr | enterFirst b j rest hr
  | enterCarry b j rest hr | rowsEnd j b hr | rowsFinish j b count hr
  | rowsHold j b r rest hr | checkDone hr | checkSpin hr | spinWait hr | spinBatch hr =>
      simp [balance, queuedOf, hr, pushing, State.touch, readRow]

theorem balance_of_executorTransition {cfg : Config} {s s' : State} {e : Executor}
    {pc' : ExecutorPc} {before after : List Executor} (hinv : Indexed cfg s)
    (hsplit : s.executors = before ++ e :: after)
    (h : ExecutorTransition cfg s e.threadID e.pc s' pc') (i : Nat) :
    balance { s' with
      executors := before ++ ⟨e.threadID, pc'⟩ :: (after ++ newExecutors e.pc) } i =
      balance s i := by
  have hmem : e ∈ s.executors := by simp [hsplit]
  have hpopped := (held_perm (f := uncounted) rfl before after e pc').countP_eq
    (producedBy i)
  have hrepushed := (held_perm (f := recounting) rfl before after e pc').countP_eq
    (producedBy i)
  have hreader := h.frame.2.2.1
  rw [← hsplit, List.countP_append, List.countP_append] at hpopped hrepushed
  simp only [balance, queuedOf, hreader]
  generalize before ++ ⟨e.threadID, pc'⟩ :: (after ++ newExecutors e.pc) = executors'
    at hpopped hrepushed ⊢
  obtain ⟨tid, pc⟩ := e
  cases h with
  | pop c hc =>
      have hcount := queuedOf_erase (mem_queued_of_mem_minima hc) i
      simp only [uncounted, recounting, queuedOf, Option.toList_some, Option.toList_none,
        countP_singleton_producedBy, List.countP_nil] at hpopped hrepushed hcount ⊢
      omega
  | countPop c =>
      have hupdate := update_carried (hinv.held _ hmem c rfl) s.numberOfSyscalls (-1) i
      simp only [uncounted, recounting, Option.toList_some, Option.toList_none,
        countP_singleton_producedBy, List.countP_nil] at hpopped hrepushed
      simp only [State.touch, State.decrement, Int.sub_eq_add_neg, hupdate]
      by_cases hp : c.producer = i
      · simp only [hp, if_true] at hpopped hrepushed ⊢
        omega
      · simp only [hp, if_false] at hpopped hrepushed ⊢
        omega
  | repush c =>
      simp only [uncounted, recounting, queuedOf_append, Option.toList_some,
        Option.toList_none, countP_singleton_producedBy, List.countP_nil]
        at hpopped hrepushed ⊢
      omega
  | countRepush c =>
      have hupdate := update_carried (hinv.held _ hmem c rfl) s.numberOfSyscalls 1 i
      simp only [uncounted, recounting, Option.toList_some, Option.toList_none,
        countP_singleton_producedBy, List.countP_nil] at hpopped hrepushed
      simp only [State.touch, State.increment, hupdate]
      by_cases hp : c.producer = i
      · simp only [hp, if_true] at hpopped hrepushed ⊢
        omega
      · simp only [hp, if_false] at hpopped hrepushed ⊢
        omega
  | execute c =>
      simp only [uncounted, recounting, Option.toList_none, List.countP_nil]
        at hpopped hrepushed
      rw [execute_numberOfSyscalls, execute_queued]
      omega
  | _ =>
      simp only [uncounted, recounting, Option.toList_none, List.countP_nil,
        State.setRunning] at hpopped hrepushed ⊢
      omega

theorem settled_of_readerTransition {cfg : Config} {s s' : State}
    (hreader : ReaderInv cfg s) (h : ReaderTransition cfg s s') {i : Nat}
    (hsettling : ∀ b, s.reader ≠ .finishing i b) : settled s' i = settled s i := by
  have hpc := hreader.pc
  cases h with
  | rowsFinish j b count hr =>
      rw [hr] at hpc
      have hactive := hpc.2.1
      simp only [settled, hr, hreader.index j hactive.lt]
      by_cases hij : i = j
      · subst hij
        simp [hactive.unfinished]
      · rw [update_natCast_ne _ _ hij]
        have hji : j ≠ i := fun h => hij h.symm
        simp [hji]
  | finish j b hr =>
      have hne : j ≠ i := by
        rintro rfl
        exact hsettling b hr
      simp [settled, hr, hne, State.touch]
  | prepareEmpty hr | prepareUmask hr | firstBatchDone b hr | batchDone b hr
  | skip b j rest hr | enterFirst b j rest hr | enterCarry b j rest hr | carry j b hr
  | count c j b count hr | rowsEnd j b hr | rowsHold j b r rest hr
  | rowsPush j b count r rest hr | checkDone hr | checkSpin hr | spinWait hr
  | spinBatch hr =>
      simp [settled, hr, prepared, State.setRunning, State.touch, State.increment,
        State.decrement, readRow]

theorem copiesOf_le (cfg : Config) (s : State) (i : Nat) :
    queuedOf s i + (held uncounted s.executors).countP (producedBy i) ≤
      (accounted cfg s).length := by
  have hqueued := List.countP_le_length (p := producedBy i) (l := s.queued)
  have hpopped := List.countP_le_length (p := producedBy i)
    (l := held uncounted s.executors)
  have hhand : (held uncounted s.executors).length ≤ (copiesInHand s).length := by
    have hsub : ∀ pc c, uncounted pc = some c → inHand pc = some c := by
      intro pc c h
      cases pc <;> first | exact h | cases h
    simp only [copiesInHand]
    induction s.executors with
    | nil => exact le_refl _
    | cons e l ih =>
        simp only [held_cons, List.length_append]
        cases hpc : uncounted e.pc with
        | none => exact le_trans (by simpa using ih) (Nat.le_add_left _ _)
        | some c =>
            rw [hsub _ _ hpc]
            simpa using ih
  simp only [accounted, copies, queuedOf, List.length_append, List.length_map] at *
  omega

/-- A counter is exact until it is set to `LLONG_MAX`, and then stays within the
number of records of that value. -/
structure Accounting (cfg : Config) (s : State) : Prop where
  exact : ∀ i < cfg.replayerIdx, settled s i = false → balance s i = 0
  settled : ∀ i < cfg.replayerIdx, settled s i = true →
    longLongMax ≤ balance s i + cfg.records.length

theorem transition_accounting {cfg : Config} {s s' : State} {a : Action}
    (hperm : (accounted cfg s).Perm cfg.records) (hreader : ReaderInv cfg s)
    (hidx : Indexed cfg s) (hinv : Accounting cfg s) (h : Transition cfg s a s') :
    Accounting cfg s' := by
  suffices hcase : ∀ i < cfg.replayerIdx,
      (balance s' i = balance s i ∧ settled s' i = settled s i) ∨
        settled s' i = true ∧ longLongMax ≤ balance s' i + cfg.records.length by
    constructor
    · intro i hi hset
      rcases hcase i hi with ⟨hbal, hsame⟩ | ⟨hset', _⟩
      · exact hbal.trans (hinv.exact i hi (hsame ▸ hset))
      · rw [hset'] at hset
        cases hset
    · intro i hi hset
      rcases hcase i hi with ⟨hbal, hsame⟩ | ⟨_, hle⟩
      · exact hbal ▸ hinv.settled i hi (hsame ▸ hset)
      · exact hle
  intro i hi
  cases h with
  | executor index pick e before after he hsplit h =>
      refine .inl ⟨balance_of_executorTransition hidx hsplit h i, ?_⟩
      simp only [settled, h.frame.2.1, h.frame.2.2.1]
  | reader pick h =>
      by_cases hsettling : ∃ b, s.reader = .finishing i b
      · obtain ⟨b, hr⟩ := hsettling
        have hpc := hreader.pc
        rw [hr] at hpc
        obtain ⟨_, _, _, hfin⟩ := hpc
        have hle := copiesOf_le cfg s i
        rw [hperm.length_eq] at hle
        have hexact := hinv.exact i hi (by simp [settled, hr])
        cases h with
        | finish j b' hr' =>
            cases hr.symm.trans hr'
            refine .inr ⟨by simp [settled, State.touch, hfin], ?_⟩
            simp only [balance, queuedOf, pushing, hreader.index i hi,
              Function.update_self, State.touch, Option.toList_none,
              List.countP_nil] at hle ⊢
            omega
        | prepareEmpty hr' | prepareUmask hr' | firstBatchDone _ hr' | batchDone _ hr'
        | skip _ _ _ hr' | enterFirst _ _ _ hr' | enterCarry _ _ _ hr' | carry _ _ hr'
        | count _ _ _ _ hr' | rowsEnd _ _ hr' | rowsFinish _ _ _ hr'
        | rowsHold _ _ _ _ hr' | rowsPush _ _ _ _ _ hr' | checkDone hr' | checkSpin hr'
        | spinWait hr' | spinBatch hr' =>
            cases hr.symm.trans hr'
      · have hsettling' : ∀ b, s.reader ≠ .finishing i b := fun b hr => hsettling ⟨b, hr⟩
        exact .inl ⟨balance_of_readerTransition hreader hidx h hsettling',
          settled_of_readerTransition hreader h hsettling'⟩

theorem firstCopy_eq_some (cfg : Config) {i : Nat} (hi : i < cfg.replayerIdx) :
    ∃ r, cfg.firstCopy i = some ⟨r, cfg.uninitialised i, i⟩ := by
  have hne : cfg.rows i ≠ [] := by
    simp only [Config.rows, List.getD_eq_getElem?_getD, List.getElem?_eq_getElem hi]
    exact cfg.modules_nonempty _ (List.getElem_mem hi)
  obtain ⟨r, rest, hrows⟩ := List.exists_cons_of_ne_nil hne
  exact ⟨r, by simp [Config.firstCopy, hrows]⟩

theorem map_producer_firstCopies {cfg : Config} {n : Nat} (hn : n ≤ cfg.replayerIdx) :
    ((List.range n).filterMap cfg.firstCopy).map Copy.producer = List.range n := by
  induction n with
  | zero => rfl
  | succ n ih =>
      obtain ⟨r, hr⟩ := firstCopy_eq_some cfg (Nat.lt_of_succ_le hn)
      rw [List.range_succ, List.filterMap_append, List.map_append, ih (by omega)]
      simp [hr]

theorem loadSyscallModules_queuedOf {cfg : Config} {i : Nat} (hi : i < cfg.replayerIdx) :
    queuedOf (loadSyscallModules cfg) i = 1 := by
  have hproducers := map_producer_firstCopies (le_refl cfg.replayerIdx)
  have hcount : (List.range cfg.replayerIdx).count i = 1 := by
    rw [List.count_range, if_pos hi]
  rw [← hproducers, List.count_eq_countP, List.countP_map] at hcount
  exact hcount

theorem loadSyscallModules_accounting (cfg : Config) :
    Accounting cfg (loadSyscallModules cfg) where
  exact i hi _ := by
    simp only [balance, loadSyscallModules_queuedOf hi]
    simp [loadSyscallModules, pushing, held]
  settled i _ hset := by simp [settled, loadSyscallModules] at hset

theorem reachable_accounting {cfg : Config} {ok : State → Action → Prop} {s : State}
    (hidx : cfg.IndexedCopies) (h : (replay cfg).ReachVia ok s) : Accounting cfg s :=
  h.invariant _ (loadSyscallModules_accounting cfg) fun _ _ _ hreach hinv _ hs =>
    transition_accounting (reachable_accounted hreach) (reachable_readerInv hreach)
      (reachable_indexed hidx hreach) hinv (transition_of_step hs)

/-- How many counted records an executor may still take before it has to pass
the guard, and before the executors it may start have to. -/
def weight : ExecutorPc → Nat
  | .guard _ | .leaving | .exited => 0
  | .top | .popped _ | .rejected _ | .parked _ | .repushed _ | .executed _
  | .storing _ => 1
  | .guarded _ | .running _ | .validating _ | .admitted _ => 2

def totalWeight (executors : List Executor) : Nat :=
  (executors.map fun e => weight e.pc).sum

theorem totalWeight_append (l l' : List Executor) :
    totalWeight (l ++ l') = totalWeight l + totalWeight l' := by
  simp [totalWeight]

theorem totalWeight_cons (e : Executor) (l : List Executor) :
    totalWeight (e :: l) = weight e.pc + totalWeight l := by
  simp [totalWeight]

theorem totalWeight_le (l : List Executor) : totalWeight l ≤ 2 * l.length := by
  induction l with
  | nil => exact le_refl _
  | cons e l ih =>
      have hle : weight e.pc ≤ 2 := by
        cases e.pc <;> simp [weight]
      rw [totalWeight_cons, List.length_cons]
      omega

theorem totalWeight_newExecutors (pc : ExecutorPc) :
    totalWeight (newExecutors pc) = (newExecutors pc).length := by
  cases pc with
  | admitted c =>
      simp only [newExecutors, spawned]
      cases c.record.child <;> rfl
  | _ => rfl

theorem length_newExecutors_le (pc : ExecutorPc) : (newExecutors pc).length ≤ 1 := by
  cases pc with
  | admitted c =>
      simp only [newExecutors, spawned]
      cases c.record.child <;> simp
  | _ => exact Nat.zero_le 1

theorem foldl_min_le {f : Nat → Int} (l : List Nat) (init : Int) :
    l.foldl (fun least i => min least (f i)) init ≤ init ∧
      ∀ i ∈ l, l.foldl (fun least i => min least (f i)) init ≤ f i := by
  induction l generalizing init with
  | nil => exact ⟨le_refl _, fun _ hi => (List.not_mem_nil hi).elim⟩
  | cons j l ih =>
      obtain ⟨hinit, hall⟩ := ih (min init (f j))
      simp only [List.foldl_cons, List.mem_cons]
      refine ⟨le_trans hinit (min_le_left _ _), ?_⟩
      rintro i (rfl | hi)
      · exact le_trans hinit (min_le_right _ _)
      · exact hall i hi

theorem getMinSyscall_le {cfg : Config} {s : State} {i : Nat} (hi : i < cfg.replayerIdx) :
    s.getMinSyscall cfg ≤ uint64 (s.numberOfSyscalls i) :=
  (foldl_min_le (f := fun i => uint64 (s.numberOfSyscalls i)) _ _).2 i
    (List.mem_range.mpr hi)

theorem finished_of_checkModulesFinished {cfg : Config} {s : State}
    (h : s.checkModulesFinished cfg = true) {i : Nat} (hi : i < cfg.replayerIdx) :
    s.finishedModules i = true :=
  List.all_eq_true.mp h i (List.mem_range.mpr hi)

/-- Every unfinished module has at least as many counted records as the
executors may take. -/
structure LowWater (cfg : Config) (s : State) : Prop where
  threads : s.executors.length ≤ s.nThreads
  counted : ∀ i : Nat, i < cfg.replayerIdx → s.finishedModules i = false →
    (totalWeight s.executors : Int) ≤ s.numberOfSyscalls i

theorem readerTransition_lowWater {cfg : Config} {s s' : State}
    (hreader : ReaderInv cfg s) (hinv : LowWater cfg s) (h : ReaderTransition cfg s s') :
    LowWater cfg s' := by
  obtain ⟨hthreads, hcounted⟩ := hinv
  have hpc := hreader.pc
  cases h with
  | prepareUmask hr c hc =>
      rw [hr] at hpc
      obtain ⟨hempty, _, _, hone⟩ := hpc
      refine ⟨hthreads, fun i _ _ => ?_⟩
      simp only [prepared, State.setRunning, State.touch, State.decrement, hempty]
      by_cases hi : (i : Int) = c.replayerIndex
      · rw [hi, Function.update_self, hone]
        exact le_refl _
      · rw [Function.update_of_ne hi, hone]
        exact zero_le_one
  | firstBatchDone b hr htodo hfirst =>
      rw [hr] at hpc
      have hbatch := hpc.first hfirst
      refine ⟨?_, fun i hi hunf => ?_⟩
      · simp [hbatch.executors, hbatch.nThreads]
      · have hle := hbatch.behind i hi (by simp [htodo]) (by simp) hunf
        simpa [hbatch.executors, totalWeight, weight] using hle
  | count c j b count hr =>
      refine ⟨hthreads, fun i hi hunf => le_trans (hcounted i hi hunf) ?_⟩
      simp only [State.touch, State.increment]
      by_cases hij : (i : Int) = c.replayerIndex
      · rw [hij, Function.update_self]
        omega
      · rw [Function.update_of_ne hij]
  | rowsFinish j b count hr =>
      refine ⟨hthreads, fun i hi hunf => hcounted i hi ?_⟩
      rw [hr] at hpc
      simp only [hreader.index j hpc.2.1.lt] at hunf
      by_cases hij : i = j
      · subst hij
        simp at hunf
      · rwa [update_natCast_ne _ _ hij] at hunf
  | finish j b hr =>
      rw [hr] at hpc
      refine ⟨hthreads, fun i hi hunf => ?_⟩
      have hne : i ≠ j := by
        rintro rfl
        simp only [State.touch, hpc.2.2.2] at hunf
        cases hunf
      simp only [hreader.index j hpc.2.1, update_natCast_ne _ _ hne]
      exact hcounted i hi hunf
  | _ => exact ⟨hthreads, hcounted⟩

theorem guard_counted {cfg : Config} {s : State} {n : Nat} (hinv : LowWater cfg s)
    (hguard : ¬s.getMinSyscall cfg < 10 * s.nThreads ∨
      s.checkModulesFinished cfg = true)
    (hn : n ≤ 10 * s.nThreads) {i : Nat} (hi : i < cfg.replayerIdx)
    (hunf : s.finishedModules i = false) : (n : Int) ≤ s.numberOfSyscalls i := by
  rcases hguard with hguard | hdone
  · have hmin := getMinSyscall_le (s := s) hi
    have hpos := hinv.counted i hi hunf
    have hle := uint64_le_self (x := s.numberOfSyscalls i) (by omega)
    omega
  · rw [finished_of_checkModulesFinished hdone hi] at hunf
    cases hunf

theorem executorTransition_lowWater {cfg : Config} {s s' : State} {e : Executor}
    {pc' : ExecutorPc} {before after : List Executor} (hidx : Indexed cfg s)
    (hinv : LowWater cfg s) (hsplit : s.executors = before ++ e :: after)
    (h : ExecutorTransition cfg s e.threadID e.pc s' pc') :
    LowWater cfg { s' with
      executors := before ++ ⟨e.threadID, pc'⟩ :: (after ++ newExecutors e.pc) } := by
  have hmem : e ∈ s.executors := by simp [hsplit]
  have hfin := h.frame.2.1
  have hinv' := hinv
  obtain ⟨hthreads, hcounted⟩ := hinv
  have hnew := totalWeight_newExecutors e.pc
  have hnew' := length_newExecutors_le e.pc
  have hbound := totalWeight_le before
  have hbound' := totalWeight_le after
  simp only [hsplit, totalWeight_append, totalWeight_cons, List.length_append,
    List.length_cons] at hthreads hcounted
  obtain ⟨tid, pc⟩ := e
  refine ⟨?_, fun i hi hunf => ?_⟩
  · cases h with
    | execute c =>
        rw [execute_nThreads]
        simp only [newExecutors, List.length_append, List.length_cons]
        omega
    | _ =>
        simp only [newExecutors, List.append_nil, List.length_append, List.length_cons]
        exact hthreads
  · have hle := hcounted i hi (hfin ▸ hunf)
    simp only [totalWeight_append, totalWeight_cons, hnew]
    cases h with
    | guardPass c hguard =>
        refine guard_counted hinv' hguard ?_ hi hunf
        simp only [newExecutors, weight, List.length_nil]
        omega
    | countPop c =>
        have hupdate := update_carried (hidx.held _ hmem c rfl) s.numberOfSyscalls (-1) i
        simp only [State.touch, State.decrement, Int.sub_eq_add_neg, hupdate,
          newExecutors, weight, List.length_nil] at hle ⊢
        split <;> omega
    | countRepush c =>
        have hupdate := update_carried (hidx.held _ hmem c rfl) s.numberOfSyscalls 1 i
        simp only [State.touch, State.increment, hupdate,
          newExecutors, weight, List.length_nil] at hle ⊢
        split <;> omega
    | execute c =>
        rw [execute_numberOfSyscalls]
        simp only [newExecutors, weight] at hle hnew' ⊢
        omega
    | _ =>
        simp only [newExecutors, weight, List.length_nil, State.setRunning] at hle ⊢
        omega

theorem transition_lowWater {cfg : Config} {s s' : State} {a : Action}
    (hreader : ReaderInv cfg s) (hidx : Indexed cfg s) (hinv : LowWater cfg s)
    (h : Transition cfg s a s') : LowWater cfg s' := by
  cases h with
  | reader pick h => exact readerTransition_lowWater hreader hinv h
  | executor index pick e before after he hsplit h =>
      exact executorTransition_lowWater hidx hinv hsplit h

theorem loadSyscallModules_lowWater (cfg : Config) :
    LowWater cfg (loadSyscallModules cfg) :=
  ⟨Nat.zero_le 1, fun _ _ _ => zero_le_one⟩

theorem reachable_lowWater {cfg : Config} {ok : State → Action → Prop} {s : State}
    (hidx : cfg.IndexedCopies) (h : (replay cfg).ReachVia ok s) : LowWater cfg s :=
  h.invariant _ (loadSyscallModules_lowWater cfg) fun _ _ _ hreach hinv _ hs =>
    transition_lowWater (reachable_readerInv hreach) (reachable_indexed hidx hreach) hinv
      (transition_of_step hs)

/-- A copy that was pushed back and not counted yet is still queued, since only
its own executor pops the heap it is in. -/
def RepushedQueued (s : State) : Prop :=
  (held recounting s.executors).Subperm s.queued

theorem copyOf_of_recounting {pc : ExecutorPc} {c : Copy} (h : recounting pc = some c) :
    copyOf pc = some c := by
  cases pc with
  | repushed => exact h
  | _ => cases h

theorem not_mem_held_recounting {s : State} (hexec : ExecutorsInv s) {e : Executor}
    (he : e ∈ s.executors) (hpc : e.pc = .top) {c : Copy}
    (hc : c.record.executingPid = e.threadID) : c ∉ held recounting s.executors := by
  intro hmem
  obtain ⟨e', he', hrec⟩ := List.mem_filterMap.mp hmem
  have hcopy := copyOf_of_recounting hrec
  have htid := (hexec.pid e' he' c hcopy).symm.trans hc
  have heq := hexec.eq_of_threadID he' he (fun h => by simp [h, recounting] at hrec)
    (fun h => by rw [hpc] at h; cases h) htid
  rw [heq, hpc] at hrec
  cases hrec

theorem transition_repushedQueued {cfg : Config} {s s' : State} {a : Action}
    (hreader : ReaderInv cfg s) (hexec : ExecutorsInv s) (hinv : RepushedQueued s)
    (h : Transition cfg s a s') : RepushedQueued s' := by
  unfold RepushedQueued at hinv ⊢
  cases h with
  | reader pick h =>
      have hpc := hreader.pc
      cases h with
      | prepareUmask hr c hc =>
          rw [hr] at hpc
          simp [prepared, State.setRunning, State.touch, State.decrement, held, hpc.1,
            List.nil_subperm]
      | firstBatchDone b hr =>
          rw [held_append]
          simpa [held, recounting] using hinv
      | carry i b hr => exact hinv.trans (List.sublist_append_left _ _).subperm
      | rowsPush i b count r rest hr =>
          exact hinv.trans (List.sublist_append_left _ _).subperm
      | _ => exact hinv
  | executor index pick e before after he hsplit h =>
      have hmem : e ∈ s.executors := by simp [hsplit]
      have hperm := held_perm (f := recounting) rfl before after e
      rw [← hsplit] at hperm
      obtain ⟨tid, pc⟩ := e
      cases h with
      | pop c hc =>
          have hnot := not_mem_held_recounting hexec hmem rfl (mem_minima.mp hc).2.1
          refine (hperm (.popped c)).subperm.trans ?_
          have herase := hinv.erase c
          rwa [List.erase_of_not_mem hnot] at herase
      | repush c =>
          refine (hperm (.repushed c)).subperm.trans ?_
          exact ((List.subperm_cons c).mpr hinv).trans
            (List.perm_append_singleton c s.queued).symm.subperm
      | countRepush c =>
          have hsub := (hperm .top).subperm
          exact ((List.sublist_cons_self c _).subperm.trans hsub).trans hinv
      | execute c =>
          rw [execute_queued]
          exact (hperm (.executed c)).subperm.trans hinv
      | leave | countPop | guardWait | guardPass | register | manyThreads | oneThread
      | validate | reject | park | readLast | storeLast | unregister =>
          exact (hperm _).subperm.trans hinv

theorem reachable_repushedQueued {cfg : Config} {ok : State → Action → Prop} {s : State}
    (hok : ∀ s a, ok s a → StartsFresh s a) (h : (replay cfg).ReachVia ok s) :
    RepushedQueued s :=
  h.invariant _ (List.nil_subperm) fun _ _ _ hreach hinv _ hs =>
    transition_repushedQueued (reachable_readerInv hreach)
      (reachable_executorsInv hreach hok) hinv (transition_of_step hs)

theorem pushing_unfinished {cfg : Config} {s : State} (hreader : ReaderInv cfg s)
    {i : Nat} (hfin : s.finishedModules i = true) :
    (pushing s.reader).toList.countP (producedBy i) = 0 := by
  have hpc := hreader.pc
  cases hr : s.reader with
  | counting c j b count =>
      rw [hr] at hpc
      obtain ⟨_, hactive, _, _, hproducer, _⟩ := hpc
      have hne : c.producer ≠ i := by
        rintro rfl
        rw [hproducer, hactive.unfinished] at hfin
        cases hfin
      simp [pushing, producedBy, hne]
  | _ => rfl

theorem numberOfSyscalls_nonneg {cfg : Config} {s : State} (hreader : ReaderInv cfg s)
    (hacc : Accounting cfg s) (hlow : LowWater cfg s) (hrep : RepushedQueued s)
    (hsize : (cfg.records.length : Int) ≤ longLongMax) {i : Nat}
    (hi : i < cfg.replayerIdx) : 0 ≤ s.numberOfSyscalls i := by
  cases hfin : s.finishedModules i with
  | false => exact le_trans (Int.natCast_nonneg _) (hlow.counted i hi hfin)
  | true =>
      have hpush := pushing_unfinished hreader hfin
      have hcount := hrep.countP_le (producedBy i)
      have hqueued : queuedOf s i = s.queued.countP (producedBy i) := rfl
      cases hset : settled s i with
      | false =>
          have hexact := hacc.exact i hi hset
          simp only [balance] at hexact
          omega
      | true =>
          have hle := hacc.settled i hi hset
          simp only [balance] at hle
          omega

/-- No push or pop is half done. -/
def Quiescent (s : State) : Prop :=
  pushing s.reader = none ∧ held uncounted s.executors = [] ∧
    held recounting s.executors = []

instance (s : State) : Decidable (Quiescent s) :=
  inferInstanceAs (Decidable (_ ∧ _))

/-- Between pushes and pops the counter of an unfinished module is the number of its
queued copies; every index used is that of the module that made the copy, and no
counter is negative. -/
structure Accounted (cfg : Config) (s : State) : Prop where
  counted : Quiescent s → ∀ i : Nat, i < cfg.replayerIdx →
    s.finishedModules i = false → s.numberOfSyscalls i = queuedOf s i
  touched : ∀ t ∈ s.touched, 0 ≤ t.2 ∧ t.2 < cfg.replayerIdx ∧ t.2 = t.1
  nonneg : ∀ i : Nat, i < cfg.replayerIdx → 0 ≤ s.numberOfSyscalls i

/-- The accounting holds in every run if the first copies carry the index of
their module and no thread is started twice at a time. -/
theorem reachVia_accounted_counters {cfg : Config} (hidx : cfg.IndexedCopies)
    (hsize : (cfg.records.length : Int) ≤ longLongMax) {s : State}
    (hreach : (replay cfg).ReachVia StartsFresh s) : Accounted cfg s := by
  have hreader := reachable_readerInv hreach
  have hacc := reachable_accounting hidx hreach
  have hrep := reachable_repushedQueued (fun _ _ h => h) hreach
  constructor
  · rintro ⟨hpush, hpop, hrec⟩ i hi hunf
    have hexact := hacc.exact i hi (by simp [settled, hunf])
    simp only [balance, hpush, hpop, hrec, Option.toList_none, List.countP_nil] at hexact
    omega
  · intro t ht
    obtain ⟨hlt, heq⟩ := (reachable_indexed hidx hreach).touched t ht
    omega
  · intro i hi
    exact numberOfSyscalls_nonneg hreader hacc (reachable_lowWater hidx hreach) hrep hsize hi

/-- A trace of two `umask` records, with `garbage` in the uninitialised index. -/
def umaskTrace (garbage : Int) : Config where
  modules := [[⟨.umask, 0, 7, 1, 2, 0⟩, ⟨.umask, 1, 7, 3, 4, 0⟩]]
  order := [0]
  uninitialised _ := garbage
  modules_nonempty := by simp
  order_perm := by decide

/-- The copy of the first row is moved out before `setReplayerIndex`, so the pop
of `prepare_replay` decrements whatever the garbage selects. -/
theorem umaskTrace_not_accounted :
    ∃ s, (replay (umaskTrace 5)).Reachable s ∧
      (Quiescent s ∧ s.finishedModules 0 = false ∧
        s.numberOfSyscalls 0 ≠ queuedOf s 0) ∧
      (∃ t ∈ s.touched, ¬t.2 < (umaskTrace 5).replayerIdx) ∧
      ¬Accounted (umaskTrace 5) s := by
  obtain ⟨s, hreach, hs⟩ := (replay (umaskTrace 5)).exists_reachable [.reader 0]
    (fun s => decide ((Quiescent s ∧ s.finishedModules 0 = false ∧
      s.numberOfSyscalls 0 ≠ queuedOf s 0) ∧
      ∃ t ∈ s.touched, ¬t.2 < (umaskTrace 5).replayerIdx)) (by decide)
  obtain ⟨hcount, t, ht, hlt⟩ := of_decide_eq_true hs
  exact ⟨s, hreach, hcount, ⟨t, ht, hlt⟩, fun h => hlt (h.touched t ht).2.1⟩

/-- The pop of `prepare_replay` and the first rows of the first batch. -/
theorem umaskTrace_accounted :
    ∃ s, s.executedLog ≠ [] ∧ s.queued ≠ [] ∧ Accounted (umaskTrace 0) s := by
  obtain ⟨s, hreach, hs⟩ := (replay (umaskTrace 0)).exists_reachVia
    (fun s a => decide (StartsFresh s a)) (fun _ _ h => of_decide_eq_true h)
    (List.replicate 4 (.reader 0))
    (fun s => decide (s.executedLog ≠ [] ∧ s.queued ≠ [])) (by decide)
  obtain ⟨hlog, hqueued⟩ := of_decide_eq_true hs
  refine ⟨s, hlog, hqueued, reachVia_accounted_counters ?_ (by decide) hreach⟩
  intro i hi
  have hzero : i = 0 := by
    have hlen : (umaskTrace 0).replayerIdx = 1 := rfl
    omega
  rw [hzero]
  rfl

end SyscallReplayer.QueueAccounting
