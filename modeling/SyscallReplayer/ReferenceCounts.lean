import SyscallReplayer.ResourceSteps

/-!
# Reference counts

As long as every child is a new process, the counts of the umasks and the
tables are the numbers of processes mapped to them, and an entry is freed when
its last process exits.
-/

namespace SyscallReplayer.ReferenceCounts

open CInt SharedEntries ReplayKernel ResourcesManager ReplayWorld ReplayModules
open StatePrograms TransitionSystem SnapshotFidelity World ReplayRuns ResourceSteps

/-- The process that a clone or vfork makes is not there yet. -/
def NewChild (w : World) (a : Execution) : Prop :=
  a.kind = .clone ∨ a.kind = .vfork →
    w.manager.umaskTable.map[int32 a.returnValue]? = none ∧
      w.manager.fdTableMap.map[int32 a.returnValue]? = none

structure ExactCounts (w : World) : Prop where
  umasks : w.manager.umaskTable.Exact
  tables : w.manager.fdTableMap.Exact

theorem exactCounts_of_initialized {w : World} (h : Initialized w) : ExactCounts w := by
  obtain ⟨inUse, maxFds, pid, fdMap, h⟩ := h
  obtain ⟨humask, htables⟩ := initializeTables_eq_some h
  refine ⟨?_, htables.exact (Shared.exact_empty.create ∅ rfl)⟩
  rw [humask]
  exact Shared.exact_empty.create 0 rfl

theorem ExactCounts.step {opts : Options} {w w' : World} {a : Execution} (h : ExactCounts w)
    (hnew : NewChild w a) (hstep : executeStep opts w a = some w') : ExactCounts w' := by
  cases executeStep_resources hstep with
  | values _ hvalues =>
      refine ⟨?_, hvalues.fdTableMap.exact h.tables⟩
      rw [hvalues.umaskTable]
      exact h.umasks
  | umask _ hfiles humask =>
      refine ⟨h.umasks.modify humask, ?_⟩
      rw [hfiles]
      exact h.tables
  | started hkind humask hfiles =>
      obtain ⟨hnewUmask, hnewTable⟩ := hnew hkind
      exact ⟨humask.exact h.umasks hnewUmask, hfiles.exact h.tables hnewTable⟩
  | exited _ _ _ humask hfiles => exact ⟨h.umasks.release humask, h.tables.release hfiles⟩

/-- Every entry that a process is mapped to is on the heap and counts the
processes mapped to it. -/
def CountsUsers {ν : Type} (s : Shared Int ν) : Prop :=
  ∀ (pid : Int) (p : Nat), s.map[pid]? = some p →
    ∃ e, s.heap[p]? = some e ∧ e.rc = (s.users p).card

theorem countsUsers_of_exact {ν : Type} {s : Shared Int ν} (h : s.Exact) : CountsUsers s := by
  intro pid p hp
  obtain ⟨e, he⟩ := h.present hp
  exact ⟨e, he, h.exact he⟩

/-- The entries that an execution frees are those whose last process exits. -/
def FreesLast {ν : Type} (a : Execution) (s s' : Shared Int ν) : Prop :=
  ∀ p : Nat, Shared.Freed s s' p ↔ a.kind = .exit ∧ s.users p = {a.pid}

theorem freesLast_of_not_freed {ν : Type} {a : Execution} {s s' : Shared Int ν}
    (hkind : a.kind ≠ .exit) (h : ∀ p, ¬Shared.Freed s s' p) : FreesLast a s s' :=
  fun p => iff_of_false (h p) fun hboth => hkind hboth.1

theorem freesLast_of_release {ν : Type} {a : Execution} {s s' : Shared Int ν} {freed : Option ν}
    (hkind : a.kind = .exit) (hs : s.Exact) (h : s.release a.pid = some (freed, s')) :
    FreesLast a s s' :=
  fun p => (hs.freed_iff h p).trans (and_iff_right hkind).symm

theorem ExactCounts.freesLast {opts : Options} {w w' : World} {a : Execution} (h : ExactCounts w)
    (hstep : executeStep opts w a = some w') :
    FreesLast a w.manager.umaskTable w'.manager.umaskTable ∧
      FreesLast a w.manager.fdTableMap w'.manager.fdTableMap := by
  cases executeStep_resources hstep with
  | values hkind hvalues =>
      refine ⟨freesLast_of_not_freed hkind.2.2.2 ?_,
        freesLast_of_not_freed hkind.2.2.2 hvalues.fdTableMap.not_freed⟩
      rw [hvalues.umaskTable]
      exact Shared.Modified.refl.not_freed
  | umask hkind hfiles humask =>
      have hexit : a.kind ≠ .exit := by rw [hkind]; decide
      refine ⟨freesLast_of_not_freed hexit (Shared.Modified.refl.step humask).not_freed,
        freesLast_of_not_freed hexit ?_⟩
      rw [hfiles]
      exact Shared.Modified.refl.not_freed
  | started hkind humask hfiles =>
      have hexit : a.kind ≠ .exit := by
        rcases hkind with hkind | hkind
        · rw [hkind]; decide
        · rw [hkind]; decide
      exact ⟨freesLast_of_not_freed hexit humask.not_freed,
        freesLast_of_not_freed hexit hfiles.not_freed⟩
  | exited hkind _ _ humask hfiles =>
      exact ⟨freesLast_of_release hkind h.umasks humask,
        freesLast_of_release hkind h.tables hfiles⟩

/-- A process that is there can be removed, and only the last process of a table
has descriptors to close. -/
theorem ExactCounts.removes {w : World} (h : ExactCounts w) {pid : Int} :
    ((w.manager.umaskTable.map[pid]?).isSome → ∃ m, w.manager.removeUmask pid = some m) ∧
      ((w.manager.fdTableMap.map[pid]?).isSome → ∃ fds m,
        w.manager.removeFdTable pid = some (fds, m) ∧
          (fds ≠ [] → ∃ p : Nat, w.manager.fdTableMap.users p = {pid})) := by
  constructor
  · intro hlive
    obtain ⟨x, hx⟩ := Option.isSome_iff_exists.mp ((h.umasks.get_isSome_iff pid).mpr hlive)
    obtain ⟨freed, table, hrelease⟩ := h.umasks.exists_release hx
    exact ⟨_, by rw [Manager.removeUmask, hrelease]; rfl⟩
  · intro hlive
    obtain ⟨t, ht⟩ := Option.isSome_iff_exists.mp ((h.tables.get_isSome_iff pid).mpr hlive)
    obtain ⟨freed, map, hrelease⟩ := h.tables.exists_release ht
    refine ⟨_, _, by rw [Manager.removeFdTable, hrelease]; rfl, ?_⟩
    intro hfds
    cases freed with
    | none => exact absurd rfl hfds
    | some t' =>
        obtain ⟨p, -, husers⟩ := h.tables.users_of_freed hrelease
        exact ⟨p, husers⟩

/-- In every state reached while children are new processes, the counts are exact,
an execution frees the entries whose last process exits and no others, and no
removal of a process finds a count of zero. -/
theorem counts_exact (opts : Options) (start w : World) (hstart : Initialized start)
    (hreach : (replaySystem opts start).ReachVia NewChild w) :
    CountsUsers w.manager.umaskTable ∧ CountsUsers w.manager.fdTableMap ∧
    (∀ a w', executeStep opts w a = some w' →
      FreesLast a w.manager.umaskTable w'.manager.umaskTable ∧
        FreesLast a w.manager.fdTableMap w'.manager.fdTableMap) ∧
    ∀ pid : Int,
      ((w.manager.umaskTable.map[pid]?).isSome → ∃ m, w.manager.removeUmask pid = some m) ∧
      ((w.manager.fdTableMap.map[pid]?).isSome → ∃ fds m,
        w.manager.removeFdTable pid = some (fds, m) ∧
          (fds ≠ [] → ∃ p : Nat, w.manager.fdTableMap.users p = {pid})) := by
  have hexact : ExactCounts w :=
    hreach.invariant _ (exactCounts_of_initialized hstart) fun _ _ _ _ hs hok hstep =>
      hs.step hok hstep
  refine ⟨countsUsers_of_exact hexact.umasks, countsUsers_of_exact hexact.tables, ?_, ?_⟩
  · intro a w' hstep
    exact hexact.freesLast hstep
  · intro pid
    exact hexact.removes

/-- Process 2 shares the table of process 1, and process 1 has exited. -/
def orphanedWorld : World :=
  worldAfter (worldAfter (startWorld inOrder) [queuedCall .clone 1 2 fun _ => 0x400])
    [queuedCall .exit 1 0 0]

theorem orphanedWorld_reached :
    (replaySystem quiet (startWorld inOrder)).ReachVia NewChild orphanedWorld := by
  have hcloned : (replaySystem quiet (startWorld inOrder)).ReachVia NewChild
      (worldAfter (startWorld inOrder) [queuedCall .clone 1 2 fun _ => 0x400]) :=
    .step .init (a := queuedCall .clone 1 2 fun _ => 0x400) (fun _ => ⟨rfl, rfl⟩) rfl
  exact .step hcloned (a := queuedCall .exit 1 0 0)
    (fun hkind => hkind.elim (fun h => nomatch h) fun h => nomatch h) rfl

theorem orphanedWorld_counts :
    CountsUsers orphanedWorld.manager.umaskTable ∧ CountsUsers orphanedWorld.manager.fdTableMap :=
  have h := counts_exact quiet (startWorld inOrder) orphanedWorld (startWorld_initialized inOrder)
    orphanedWorld_reached
  ⟨h.1, h.2.1⟩

end SyscallReplayer.ReferenceCounts
