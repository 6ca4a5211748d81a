import SyscallReplayer.InterleavedReplay
import SyscallReplayer.ReplayTermination

/-!
# What a replay comes to

If the records of a single thread can be executed one after another in the order of
their ids, every fair replay of them ends, and leaves just that.
-/

namespace SyscallReplayer.ReplayOutcome

open CInt TransitionSystem SystemRefinement FairRuns
open ReplayWorld ReplayModules ReplayRuns SnapshotFidelity
open Scheduler SchedulerSteps RecordConservation ThreadOrder SingleThreadReplay
open ReplayTermination InterleavedReplay

theorem prefix_of_before {α : Type*} {f : α → Nat} {l sorted : List α}
    (hids : (sorted.map f).Nodup) (hsorted : sorted.Pairwise fun a b => f a ≤ f b)
    (hl : l.Pairwise fun a b => f a ≤ f b) (hnodup : l.Nodup) (hsub : l ⊆ sorted)
    (hbefore : ∀ a ∈ l, ∀ b ∈ sorted, b ∉ l → f a ≤ f b) : l <+: sorted := by
  classical
  let rest := sorted.filter fun b => b ∉ l
  have hrest : ∀ b, b ∈ rest ↔ b ∈ sorted ∧ b ∉ l := by simp [rest]
  have hperm : (l ++ rest).Perm sorted := by
    refine (List.perm_ext_iff_of_nodup ?_ hids.of_map).mpr fun b => ?_
    · exact List.nodup_append.mpr ⟨hnodup, hids.of_map.filter _,
        fun a ha b hb heq => ((hrest b).mp hb).2 (heq ▸ ha)⟩
    · rw [List.mem_append, hrest]
      constructor
      · rintro (hb | hb)
        · exact hsub hb
        · exact hb.1
      · exact fun hb => or_iff_not_imp_left.mpr fun hnot => ⟨hb, hnot⟩
  have hpairwise : (l ++ rest).Pairwise fun a b => f a ≤ f b :=
    List.pairwise_append.mpr ⟨hl, hsorted.filter _,
      fun a ha b hb => hbefore a ha b ((hrest b).mp hb).1 ((hrest b).mp hb).2⟩
  have heq : l ++ rest = sorted := by
    refine hperm.eq_of_pairwise (fun a b ha hb hle hge => ?_) hpairwise hsorted
    exact List.inj_on_of_nodup_map hids (hperm.mem_iff.mp ha) hb (le_antisymm hle hge)
  exact heq ▸ List.prefix_append l rest

section

variable {opts : Options} {call : Record → Execution} {cfg : Config} {start w : World}
  {sorted : List Record} {pid : Int}

theorem executedLog_prefix_sorted (hsingle : SingleThread cfg pid) (hidx : cfg.IndexedCopies)
    (hids : (cfg.records.map Record.uniqueId).Nodup) (hperm : sorted.Perm cfg.records)
    (hsorted : sorted.Pairwise fun r r' => r.uniqueId ≤ r'.uniqueId) {t : Scheduler.State}
    (h : (replay cfg).Reachable t) : t.executedLog <+: sorted := by
  refine prefix_of_before ((hperm.map _).nodup_iff.mpr hids) hsorted
    (executedLog_increasing hsingle hidx h) (executedLog_nodup hids h) (fun r hr => ?_)
    fun r hr r' hr' hnot => ?_
  · exact hperm.mem_iff.mpr ((mem_records (reachable_accounted h)).mpr (.inl hr))
  · exact (executed_lt_pending hsingle hidx hids h hr (hperm.mem_iff.mp hr') hnot).le

theorem sequential_append (start : World) (log log' : List Record) :
    sequential opts call start (log ++ log') =
      (sequential opts call start log).bind fun w => sequential opts call w log' := by
  exact List.foldlM_append ..

theorem sequential_singleton (start : World) (r : Record) :
    sequential opts call start [r] = executeStep opts start { call r with queued := true } := by
  simp only [sequential, List.foldlM_cons, List.foldlM_nil, bind_pure]

theorem isSome_sequential_of_prefix {log log' : List Record}
    (h : (sequential opts call start log').isSome) (hle : log <+: log') :
    (sequential opts call start log).isSome := by
  obtain ⟨rest, rfl⟩ := hle
  rw [sequential_append] at h
  exact Option.isSome_of_isSome_bind h

theorem step_of_scheduler {s : InterleavedReplay.State} {a : Action}
    (h : Scheduler.step cfg s.scheduler a = none) :
    (interleaved opts call cfg start).step s a = none := by
  change InterleavedReplay.step opts call cfg s a = none
  simp only [InterleavedReplay.step, h, Option.bind_eq_bind, Option.bind_none]

/-- No record gets stuck. -/
theorem interleaved_mirrors (hsingle : SingleThread cfg pid) (hidx : cfg.IndexedCopies)
    (hids : (cfg.records.map Record.uniqueId).Nodup) (hperm : sorted.Perm cfg.records)
    (hsorted : sorted.Pairwise fun r r' => r.uniqueId ≤ r'.uniqueId)
    (hsome : (sequential opts call start sorted).isSome) :
    Mirrors (interleaved opts call cfg start) (replay cfg) InterleavedReplay.State.scheduler
      (interleaved opts call cfg start).Reachable where
  init := rfl
  invariant_init := .init
  invariant_step hreach hstep := .step hreach trivial hstep
  step := by
    intro s a hreach
    have hscheduled := (interleaved_refines_scheduler opts call cfg start).reachable hreach
    change (InterleavedReplay.step opts call cfg s a).map InterleavedReplay.State.scheduler =
      Scheduler.step cfg s.scheduler a
    unfold InterleavedReplay.step
    cases hstep : Scheduler.step cfg s.scheduler a with
    | none => rfl
    | some t =>
        have hlog := executedLog_of_step hstep
        have hle := executedLog_prefix_sorted hsingle hidx hids hperm hsorted
          (.step hscheduled trivial hstep : (replay cfg).Reachable t)
        have hnext := isSome_sequential_of_prefix hsome hle
        cases hcopy : copyToExecute cfg s.scheduler a with
        | none => rfl
        | some c =>
            rw [hlog, hcopy, sequential_append, world_of_executedLog hreach, Option.bind_some,
              Option.toList_some, List.map_singleton, sequential_singleton] at hnext
            obtain ⟨w', hcall⟩ := Option.isSome_iff_exists.mp hnext
            have hexecute : executeStep opts s.world (execution call s.scheduler c) = some w' :=
              (executeStep_later rfl _ _ _).trans hcall
            simp only [Option.bind_eq_bind, Option.bind_some, hexecute]
            rfl

theorem eventually_sequential (hsingle : SingleThread cfg pid) (hidx : cfg.IndexedCopies)
    (hids : (cfg.records.map Record.uniqueId).Nodup)
    (hsize : (cfg.records.length : Int) + 100 < longLongMax) (hperm : sorted.Perm cfg.records)
    (hsorted : sorted.Pairwise fun r r' => r.uniqueId ≤ r'.uniqueId)
    (hw : sequential opts call start sorted = some w)
    (run : Run (interleaved opts call cfg start))
    (hstart : (interleaved opts call cfg start).Reachable (run.state 0))
    (hfair : Fair party run) :
    ∃ n, Terminated (run.state n).scheduler ∧
      (run.state n).scheduler.executedLog = sorted ∧ (run.state n).world = w := by
  have hmirrors : Mirrors (interleaved opts call cfg start) (replay cfg) _ _ :=
    interleaved_mirrors hsingle hidx hids hperm hsorted (hw ▸ rfl)
  have hscheduled : ∀ {s}, (interleaved opts call cfg start).Reachable s →
      (replay cfg).Reachable s.scheduler :=
    (interleaved_refines_scheduler opts call cfg start).reachable
  obtain ⟨n, -, hterm⟩ := eventually_terminated hsingle hidx hsize
    (run.mirror hmirrors hstart) (hscheduled hstart) (hfair.mirror hmirrors hstart) 0
  have hreach := run.reachable hstart n
  have hlen :=
    (executedLog_of_terminated hsingle hidx (hscheduled hreach) hterm).1.length_eq
  have hlog : (run.state n).scheduler.executedLog = sorted :=
    (executedLog_prefix_sorted hsingle hidx hids hperm hsorted (hscheduled hreach)).eq_of_length
      (hlen.trans hperm.length_eq.symm)
  have hworld := world_of_executedLog hreach
  rw [hlog, hw] at hworld
  exact ⟨n, hterm, hlog, (Option.some.inj hworld).symm⟩

/-- Whatever the schedule, a fair replay of a single thread ends in the world that the
records leave in the order of their ids. -/
theorem fair_replay_leaves_sequential (hsingle : SingleThread cfg pid)
    (hidx : cfg.IndexedCopies) (hids : (cfg.records.map Record.uniqueId).Nodup)
    (hsize : (cfg.records.length : Int) + 100 < longLongMax) (hperm : sorted.Perm cfg.records)
    (hsorted : sorted.Pairwise fun r r' => r.uniqueId ≤ r'.uniqueId)
    (hw : sequential opts call start sorted = some w)
    (run : Run (interleaved opts call cfg start))
    (hstart : (interleaved opts call cfg start).Reachable (run.state 0))
    (hfair : Fair party run) :
    ∃ n, ∀ m, n ≤ m → Terminated (run.state m).scheduler ∧
      (run.state m).scheduler.executedLog = sorted ∧ (run.state m).world = w := by
  obtain ⟨n, hterm, hend⟩ :=
    eventually_sequential hsingle hidx hids hsize hperm hsorted hw run hstart hfair
  refine ⟨n, fun m hm => ?_⟩
  rw [run.stays (fun a => step_of_scheduler (step_of_terminated hterm a)) hm]
  exact ⟨hterm, hend⟩

end

def pipeReplay : System InterleavedReplay.State Action :=
  interleaved quiet pipeCall (pipeTrace [1, 0] (.swap _ _ _)) (startWorld inOrder)

theorem pipeTrace_leaves_sequential :
    ∃ (w : World) (run : Run pipeReplay), Fair party run ∧ run.state 0 = pipeReplay.init ∧
      sequential quiet pipeCall (startWorld inOrder) umaskAndPipe.flatten = some w ∧
      ∃ n, ∀ m, n ≤ m → Terminated (run.state m).scheduler ∧
        (run.state m).scheduler.executedLog = umaskAndPipe.flatten ∧ (run.state m).world = w := by
  obtain ⟨w, hw⟩ := Option.isSome_iff_exists.mp
    (by decide : (sequential quiet pipeCall (startWorld inOrder) umaskAndPipe.flatten).isSome)
  have hany : (pipeReplay.runVia (fun _ _ => true) pipeReplay.init
      (List.replicate 9 (.reader 0) ++ List.replicate 10 (.executor 0 0))).any
      (fun s => decide (Terminated s.scheduler)) = true := by decide
  obtain ⟨s, hrun, hterm⟩ := (Option.any_eq_true _ _).mp hany
  obtain ⟨run, hstart, hfair⟩ := exists_fair_of_dead party hrun fun a =>
    step_of_scheduler (step_of_terminated (of_decide_eq_true hterm) a)
  have hreach : pipeReplay.Reachable (run.state 0) := by
    rw [hstart]
    exact .init
  exact ⟨w, run, hfair, hstart, hw, fair_replay_leaves_sequential (pipeTrace_singleThread _)
    (fun _ _ => rfl) (by decide) (by decide) (.refl _) (by decide) hw run hreach hfair⟩

end SyscallReplayer.ReplayOutcome
