import SyscallReplayer.InterleavedReplay
import SyscallReplayer.ModulePrograms

/-!
# What the options do

The pattern option replaces the bytes that are written, and stops the replay where
`pwrite` deletes the buffer of a pattern twice; abort mode stops it at a mismatch. A
replay that is not stopped does what the replay without options does. Threads
interleave between the modules that they run, not within them.
-/

namespace SyscallReplayer.OptionEffects

open ReplayKernel ResourcesManager ReplayWorld ReplayModules ReplayRuns
open StatePrograms ComposedPrograms ModulePrograms
open TransitionSystem SystemRefinement InterleavedReplay
open Scheduler (Config Record Action)

/-- The call without the bytes that the pattern option replaces. -/
def withoutData : SystemCall → SystemCall
  | .write fd _ nbytes => .write fd ⟨nbytes, .bytes []⟩ nbytes
  | .pwrite fd _ nbytes offset => .pwrite fd ⟨nbytes, .bytes []⟩ nbytes offset
  | .writev fd iov count =>
      .writev fd (iov.map fun part => (part.1, ⟨part.2.size, .bytes []⟩)) count
  | .setxattr pathname name value flags =>
      .setxattr pathname name ⟨value.size, .bytes []⟩ flags
  | .lsetxattr pathname name value flags =>
      .lsetxattr pathname name ⟨value.size, .bytes []⟩ flags
  | .fsetxattr fd name value flags => .fsetxattr fd name ⟨value.size, .bytes []⟩ flags
  | call => call

/-- The worlds differ in the bytes written at most. -/
def SameButData (w w' : World) : Prop :=
  ∃ issued, w' = { w with issued := issued } ∧
    issued.map withoutData = w.issued.map withoutData

theorem SameButData.refl (w : World) : SameButData w w :=
  ⟨w.issued, rfl, rfl⟩

theorem outcome_withoutData (openFds : Finset Int) (reply : Reply) (call : SystemCall) :
    outcome openFds reply (withoutData call) = outcome openFds reply call := by
  cases call <;> rfl

section Programs

variable {opts : Options} {α : Type}

theorem simulates_syscall {call call' : SystemCall} (h : withoutData call' = withoutData call) :
    Simulates SameButData (syscall call) (syscall call') := by
  rintro w w₀ a w' ⟨issued, rfl, hissued⟩ hrun
  obtain ⟨rfl, rfl⟩ := Prod.mk.inj (Option.some.inj hrun)
  have hlength : issued.length = w.issued.length := by
    simpa only [List.length_map] using congrArg List.length hissued
  have hreply : World.reply { w with issued := issued } = w.reply :=
    congrArg w.replies hlength
  have houtcome : outcome w.openFds (World.reply { w with issued := issued }) call' =
      outcome w.openFds w.reply call := by
    rw [hreply, ← outcome_withoutData, h, outcome_withoutData]
  have hanswer : World.answer { w with issued := issued } call' = w.answer call :=
    congrArg Prod.fst houtcome
  refine ⟨World.serve { w with issued := issued } call', ?_, issued ++ [call'], ?_, ?_⟩
  · rw [← hanswer]
    rfl
  · unfold World.serve
    rw [houtcome, hanswer, hreply]
  · rw [List.map_append, hissued]
    simp only [World.serve_issued, List.map_append, List.map_singleton, h]

theorem simulates_intSyscall {call call' : SystemCall}
    (h : withoutData call' = withoutData call) :
    Simulates SameButData (intSyscall call) (intSyscall call') :=
  .bind (simulates_syscall h) fun _ _ => .pure _

/-- No primitive program looks at the bytes that were written. -/
theorem simulates_primitive {maps : Prop} {m : Replay α} {Q : α → Prop}
    (hm : Primitive maps α m Q) : Simulates SameButData m m := by
  cases hm with
  | syscall call => exact simulates_syscall rfl
  | query f =>
      rintro w w₀ a w' ⟨issued, rfl, hissued⟩ hrun
      obtain ⟨b, hb, heq⟩ := Option.map_eq_some_iff.mp hrun
      obtain ⟨rfl, rfl⟩ := Prod.mk.inj heq
      exact ⟨_, Option.map_eq_some_iff.mpr ⟨b, hb, rfl⟩, issued, rfl, hissued⟩
  | change f =>
      rintro w w₀ a w' ⟨issued, rfl, hissued⟩ hrun
      obtain ⟨result, hresult, heq⟩ := Option.map_eq_some_iff.mp hrun
      obtain ⟨rfl, rfl⟩ := Prod.mk.inj heq
      exact ⟨_, Option.map_eq_some_iff.mpr ⟨result, hresult, rfl⟩, issued, rfl, hissued⟩
  | createArea pid | modifyArea _ pid f | startThread pid =>
      rintro w w₀ a w' ⟨issued, rfl, hissued⟩ hrun
      obtain ⟨rfl, rfl⟩ := Prod.mk.inj (Option.some.inj hrun)
      exact ⟨_, rfl, issued, rfl, hissued⟩

theorem simulates_of_program {m : Replay α} (hm : Program anything m) :
    Simulates SameButData m m :=
  (primitive_of_program (fun _ => trivial) hm).simulates Primitive.values simulates_primitive

theorem simulates_onDescriptor (pid tracedFd : Int) {simulated : Replay Int}
    {real real' : Int → Replay Int} (hsimulated : Simulates SameButData simulated simulated)
    (hreal : ∀ fd, Simulates SameButData (real fd) (real' fd)) :
    Simulates SameButData (onDescriptor pid tracedFd simulated real)
      (onDescriptor pid tracedFd simulated real') :=
  .bind (simulates_of_program (program_query _)) fun fd _ =>
    .ite hsimulated (hreal fd)

theorem simulates_write (pid replayed : Int) (dataBuffer : Buffer) (nbytes tracedFd : Int) :
    Simulates SameButData (writeProcessRow opts pid replayed dataBuffer nbytes tracedFd)
      (writeProcessRow quiet pid replayed dataBuffer nbytes tracedFd) :=
  simulates_onDescriptor _ _ (.pure _) fun _ => simulates_intSyscall rfl

theorem simulates_pwrite (pid returnValue : Int) (dataBuffer : Buffer)
    (nbytes tracedFd off : Int) :
    Simulates SameButData (pwriteProcessRow opts pid returnValue dataBuffer nbytes tracedFd off)
      (pwriteProcessRow quiet pid returnValue dataBuffer nbytes tracedFd off) := by
  refine simulates_onDescriptor _ _ (.pure _) fun fd => ?_
  change Simulates SameButData _ (intSyscall (.pwrite fd dataBuffer nbytes off))
  split
  · exact simulates_intSyscall rfl
  · exact .lift_bind fun _ _ => simulates_intSyscall rfl

theorem writevIov_withoutData (row : Row) (rest : List Row) (fd count : Int) :
    withoutData (.writev fd (writevIov quiet row rest) count) =
      withoutData (.writev fd (writevIov opts row rest) count) := by
  unfold writevIov
  split
  · simp only [withoutData, List.map_map, Function.comp_def]
  · rfl

theorem simulates_writev (pid : Int) (row : Row) (rest : List Row) :
    Simulates SameButData (writevProcessRow opts pid row rest)
      (writevProcessRow quiet pid row rest) :=
  .bind (simulates_of_program (program_query _)) fun _ _ =>
    .bind (.lift fun _ h => h) fun _ _ => .ite (.pure _)
      (simulates_intSyscall (writevIov_withoutData _ _ _ _))

theorem exists_xattrValue {row : Row} {value : Buffer} {pattern pattern' : String}
    (hle : pattern.isEmpty = true → pattern'.isEmpty = true)
    (h : xattrValue pattern row = some value) :
    ∃ value', xattrValue pattern' row = some value' ∧ value'.size = value.size := by
  simp only [xattrValue] at h ⊢
  have hsize : value.size = CInt.uint64 (row.int .value_size) ∧ (pattern.isEmpty = false →
      newBuffer (CInt.uint64 (row.int .value_size)) = some value.size) := by
    split at h
    · rename_i hempty
      obtain rfl := Option.some.inj h
      refine ⟨rfl, fun hnot => ?_⟩
      rw [hempty] at hnot
      cases hnot
    · obtain ⟨size, hbuffer, rfl⟩ := Option.map_eq_some_iff.mp h
      refine ⟨?_, fun _ => hbuffer⟩
      unfold newBuffer at hbuffer
      split at hbuffer
      · exact (Option.some.inj hbuffer).symm
      · cases hbuffer
  cases hpattern : pattern'.isEmpty with
  | true => exact ⟨_, if_pos rfl, hsize.1.symm⟩
  | false =>
      rw [if_neg Bool.false_ne_true]
      have hnonempty : pattern.isEmpty = false := by
        rw [← Bool.not_eq_true]
        intro hempty
        have hempty' := hle hempty
        rw [hpattern] at hempty'
        cases hempty'
      rw [hsize.2 hnonempty]
      exact ⟨_, rfl, rfl⟩

theorem xattrPattern_isEmpty {row : Row} (h : (xattrPattern opts row).isEmpty = true) :
    (xattrPattern quiet row).isEmpty = true := by
  unfold xattrPattern at h ⊢
  cases hnull : row.isNull .value_written with
  | false => rfl
  | true =>
      rw [hnull, Bool.true_and] at h
      split at h
      · cases h
      · rename_i hnot
        exact absurd h hnot

theorem simulates_xattr {row : Row} {pattern pattern' : String}
    (hle : pattern.isEmpty = true → pattern'.isEmpty = true) {call : Buffer → SystemCall}
    (hcall : ∀ value value', value'.size = value.size →
      withoutData (call value') = withoutData (call value)) :
    Simulates SameButData
      (do let value ← (xattrValue pattern row : Option Buffer); intSyscall (call value))
      (do let value ← (xattrValue pattern' row : Option Buffer); intSyscall (call value)) := by
  refine .lift_bind fun value hvalue => ?_
  obtain ⟨value', hvalue', hsize⟩ := exists_xattrValue hle hvalue
  exact .bind_lift hvalue' (simulates_intSyscall (hcall value value' hsize))

theorem simulates_processMembers (opts : Options) (m : ReplayModule) :
    Simulates SameButData (processMembers opts m) (processMembers quiet m) := by
  have hsame := simulates_of_program
    (program_processMembers opts m (fun _ => trivial) (fun _ _ => trivial)
      (fun _ _ _ => trivial) (fun _ _ _ _ => trivial) fun _ _ => trivial)
  obtain ⟨kind, c, replayed, members⟩ := m
  cases members
  case write => exact simulates_write _ _ _ _ _
  case pwrite => exact simulates_pwrite _ _ _ _ _ _
  all_goals exact hsame

theorem simulates_processCurrentRow {opts : Options} {m : ReplayModule} {row : Row}
    {rest : List Row} {program : Replay Int}
    (hprogram : processCurrentRow opts m row rest = some program) :
    ∃ program', processCurrentRow quiet m row rest = some program' ∧
      Simulates SameButData program program' := by
  have hsame := simulates_of_program
    (program_processCurrentRow opts m row rest program hprogram
      (fun _ => ⟨trivial, fun _ _ _ => trivial⟩) fun _ _ _ => trivial)
  obtain ⟨kind, c, replayed, members⟩ := m
  cases kind
  case writev =>
    obtain rfl := Option.some.inj hprogram
    exact ⟨_, rfl, simulates_writev _ _ _⟩
  case setxattr | lsetxattr =>
    obtain rfl := Option.some.inj hprogram
    refine ⟨_, rfl, simulates_xattr xattrPattern_isEmpty fun value value' hsize => ?_⟩
    simp only [withoutData, hsize]
  case fsetxattr =>
    obtain rfl := Option.some.inj hprogram
    refine ⟨_, rfl, simulates_onDescriptor _ _ (.pure _) fun fd => ?_⟩
    refine simulates_xattr (fun _ => rfl) fun value value' hsize => ?_
    simp only [withoutData, hsize]
  all_goals exact ⟨_, hprogram, hsame⟩

theorem simulates_processRow (opts : Options) (m : ReplayModule) (row : Row)
    (rest : List Row) :
    Simulates SameButData (processRow opts m row rest) (processRow quiet m row rest) := by
  unfold processRow
  cases hprogram : processCurrentRow opts m row rest with
  | some program =>
      obtain ⟨program', hprogram', hsimulates⟩ := simulates_processCurrentRow hprogram
      rw [hprogram']
      exact hsimulates
  | none =>
      have hnone : processCurrentRow quiet m row rest = none := by
        obtain ⟨kind, c, replayed, members⟩ := m
        cases kind
        all_goals
          first
            | exact hprogram
            | cases hprogram
      rw [hnone]
      exact simulates_processMembers opts m

end Programs

section Steps

variable {opts : Options} {w w' w₀ : World} {a : Execution}

/-- A step runs the module, and goes on if its buffers are deleted once and the outcome is
not one to stop at. -/
theorem executeStep_iff : executeStep opts w a = some w' ↔
    ∃ m replayed, a.module = some m ∧
      processRow opts m a.position.1 a.position.2 w = some (replayed, w') ∧
      buffersHold opts m w' = true ∧ (afterSysCall opts m replayed w').isSome = true := by
  constructor
  · intro h
    obtain ⟨⟨result, w₁⟩, hrun, rfl⟩ := Option.map_eq_some_iff.mp h
    obtain ⟨m, w₂, hm, hexecute⟩ := bind_eq_some.mp hrun
    obtain ⟨hmodule, rfl⟩ := lift_eq_some.mp hm
    obtain ⟨replayed, w₃, hprocess, hrest⟩ := bind_eq_some.mp hexecute
    obtain ⟨u, w₄, hdelete, hcompare⟩ := bind_eq_some.mp hrest
    obtain ⟨hhold, rfl⟩ := deleteBuffers_eq_some.mp hdelete
    obtain ⟨verdict, w₅, hafter, hpure⟩ := bind_eq_some.mp hcompare
    obtain rfl := afterSysCall_world hafter
    obtain ⟨-, rfl⟩ := Prod.mk.inj (Option.some.inj hpure)
    exact ⟨m, replayed, hmodule, hprocess, hhold, by rw [hafter]; rfl⟩
  · rintro ⟨m, replayed, hm, hprocess, hhold, hafter⟩
    obtain ⟨⟨verdict, w₁⟩, hafter⟩ := Option.isSome_iff_exists.mp hafter
    obtain rfl := afterSysCall_world hafter
    have hdelete : deleteBuffers opts m w₁ = some ((), w₁) :=
      deleteBuffers_eq_some.mpr ⟨hhold, rfl⟩
    have hexecute : execute opts m a.position.1 a.position.2 w =
        some ((replayed, verdict), w₁) := by
      unfold execute
      rw [bind_of_eq_some hprocess, bind_of_eq_some hdelete, bind_of_eq_some hafter]
      rfl
    rw [executeStep_eq, hm, Option.bind_some, hexecute, Option.map_some]

theorem isSome_afterSysCall (h : opts.warnLevel ≠ abortMode) (m : ReplayModule)
    (replayed : Int) (w : World) : (afterSysCall opts m replayed w).isSome = true := by
  unfold afterSysCall
  split
  · dsimp only
    rw [if_neg fun hstops => h hstops.1]
    rfl
  · rfl

theorem buffersHold_quiet (hsame : SameButData w w₀) {m : ReplayModule}
    (h : buffersHold opts m w = true) : buffersHold quiet m w₀ = true := by
  obtain ⟨issued, rfl, -⟩ := hsame
  unfold buffersHold at h ⊢
  split
  · exact Bool.or_eq_true_iff.mpr (.inr rfl)
  · rename_i hmembers
    rw [hmembers] at h
    exact h
  · rfl

theorem executeStep_simulated (hsame : SameButData w w₀) (h : executeStep opts w a = some w') :
    ∃ w₁, executeStep quiet w₀ a = some w₁ ∧ SameButData w' w₁ := by
  obtain ⟨m, replayed, hm, hrun, hhold, -⟩ := executeStep_iff.mp h
  obtain ⟨w₁, hrun₁, hsame₁⟩ := simulates_processRow opts m _ _ hsame hrun
  have hafter := isSome_afterSysCall (show quiet.warnLevel ≠ abortMode by decide) m replayed w₁
  exact ⟨w₁, executeStep_iff.mpr
    ⟨m, replayed, hm, hrun₁, buffersHold_quiet hsame₁ hhold, hafter⟩, hsame₁⟩

end Steps

section Runs

variable {opts : Options} {call : Record → Execution} {cfg : Config} {start : World}

end Runs

/-- One byte is written after the `umask`, and the traced call returned 3. -/
def writeTrace : Config where
  modules := [[⟨.umask, 0, 1, 1, 2, 0⟩], [⟨.write, 1, 1, 3, 4, 3⟩]]
  order := [0, 1]
  uninitialised i := i
  modules_nonempty := by decide
  order_perm := .refl _

def writeCall (r : Record) : Execution :=
  queuedCall r.sysCallName r.executingPid r.returnValue fun
    | .descriptor | .bytes_requested => 1
    | _ => 0

/-- The steps that read both rows and execute them. -/
def writeActions : List Action :=
  List.replicate 9 (.reader 0) ++ List.replicate 6 (.executor 0 0)

def writeReplay (opts : Options) (replies : Nat → Reply) : System State Action :=
  interleaved opts writeCall writeTrace (startWorld replies)

end SyscallReplayer.OptionEffects
