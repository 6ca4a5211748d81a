import SyscallReplayer.ResourceSteps
import SyscallReplayer.SharingGroups

/-!
# The modes that the replay hands to the kernel

The replay runs with a umask of 0 and takes the traced umask out of every mode
itself. The kernel of the trace did so with the permission bits of the umask
alone, and only where a file is created.
-/

namespace SyscallReplayer.EffectiveModes

open CInt SharedEntries SharingGroups ReplayKernel ResourcesManager ReplayWorld
open ReplayModules StatePrograms SnapshotFidelity World ReplayRuns ResourceSteps

/-- The kernel's `S_IRWXUGO`: `umask` keeps these bits of its argument. -/
def permissionBits : BitVec 32 := 0o777

/-- Whether the kernel takes the umask out of the mode, for the calls that have
one. -/
def createsFile : SysCallKind → Option Bool
  | .open_ | .openat | .creat | .mkdir | .mkdirat | .mknod => some true
  | .access | .faccessat | .chmod | .fchmod | .fchmodat => some false
  | _ => none

/-- What the kernel of the trace made of `md` under the mask `m`. -/
def kernelMode (creates : Bool) (md m : BitVec 32) : BitVec 32 :=
  if creates then md &&& ~~~(m &&& permissionBits) else md

/-- The mask has no other bits of the mode than those that the kernel uses. -/
def MaskFits (creates : Bool) (md m : BitVec 32) : Prop :=
  if creates then md &&& m &&& ~~~permissionBits = 0 else md &&& m = 0

theorem and_not_eq_iff {w : Nat} (x y z : BitVec w) :
    x &&& ~~~y = x &&& ~~~(y &&& z) ↔ x &&& y &&& ~~~z = 0#w := by
  have hbits : ∀ a b c : Bool, (a && !b) = (a && !(b && c)) ↔ (a && b && !c) = false := by
    decide
  rw [BitVec.eq_of_getLsbD_eq_iff, BitVec.eq_of_getLsbD_eq_iff]
  apply forall_congr'
  intro i
  apply forall_congr'
  intro hi
  simp only [BitVec.getLsbD_and, BitVec.getLsbD_not, hi, decide_true, Bool.true_and,
    BitVec.getLsbD_zero]
  exact hbits _ _ _

theorem masked_eq_kernelMode_iff (creates : Bool) (md m : BitVec 32) :
    md &&& ~~~m = kernelMode creates md m ↔ MaskFits creates md m := by
  cases creates with
  | true => exact and_not_eq_iff md m permissionBits
  | false =>
      have h := and_not_eq_iff md m 0#32
      rwa [BitVec.and_zero, BitVec.not_zero, BitVec.and_allOnes, BitVec.and_allOnes] at h

def handedMode : SystemCall → Option (BitVec 32)
  | .open_ _ _ md | .openat _ _ _ md | .creat _ md | .access _ md | .faccessat _ _ md _
  | .mkdir _ md | .mkdirat _ _ md | .chmod _ md | .fchmod _ md | .fchmodat _ _ md _
  | .mknod _ md _ => some md
  | _ => none

/-- The modes of the calls that were issued on the way from `w` to `w'`. -/
def handedModes (w w' : World) : List (BitVec 32) :=
  (w'.issued.drop w.issued.length).filterMap handedMode

/-- The calls on the way hand over the modes `mds`. -/
def Handed (mds : List (BitVec 32)) (w w' : World) : Prop :=
  ∃ calls, w'.issued = w.issued ++ calls ∧ calls.filterMap handedMode = mds

namespace Handed

variable {mds mds' : List (BitVec 32)} {w w' w'' : World}

theorem of_issued (h : w'.issued = w.issued) : Handed [] w w' :=
  ⟨[], by rw [h, List.append_nil], rfl⟩

theorem trans (h : Handed mds w w') (h' : Handed mds' w' w'') : Handed (mds ++ mds') w w'' := by
  obtain ⟨calls, hcalls, hmodes⟩ := h
  obtain ⟨calls', hcalls', hmodes'⟩ := h'
  refine ⟨calls ++ calls', by rw [hcalls', hcalls, List.append_assoc], ?_⟩
  rw [List.filterMap_append, hmodes, hmodes']

theorem handedModes_eq (h : Handed mds w w') : handedModes w w' = mds := by
  obtain ⟨calls, hcalls, hmodes⟩ := h
  rw [handedModes, hcalls, List.drop_left, hmodes]

end Handed

/-- Every finished run of the program hands over the modes `mds`. -/
def Hands {α : Type} (mds : List (BitVec 32)) (program : Replay α) : Prop :=
  ∀ ⦃w a w'⦄, program w = some (a, w') → Handed mds w w'

namespace Hands

variable {α β : Type} {mds : List (BitVec 32)}

theorem pure (a : α) : Hands [] (pure a) := by
  intro w b w' h
  obtain rfl := (Prod.mk.inj (Option.some.inj h)).2
  exact .of_issued rfl

theorem bind {m : Replay α} {f : α → Replay β} (hm : Hands mds m)
    (hf : ∀ a, Hands [] (f a)) : Hands mds (m >>= f) := by
  intro w b w' h
  obtain ⟨a, v, hmv, hfv⟩ := bind_eq_some.mp h
  rw [← List.append_nil mds]
  exact (hm hmv).trans (hf a hfv)

theorem ite {c : Prop} [Decidable c] {m m' : Replay α} (hm : Hands mds m)
    (hm' : Hands mds m') : Hands mds (if c then m else m') := by
  split
  · exact hm
  · exact hm'

theorem syscall {call : SystemCall} (h : (handedMode call).toList = mds) :
    Hands mds (syscall call) := by
  intro w a w' hrun
  obtain rfl := (Prod.mk.inj (Option.some.inj hrun)).2
  refine ⟨[call], rfl, ?_⟩
  rw [← h]
  cases hmode : handedMode call with
  | none => exact List.filterMap_cons_none hmode
  | some md => exact List.filterMap_cons_some hmode

theorem intSyscall {call : SystemCall} (h : (handedMode call).toList = mds) :
    Hands mds (intSyscall call) :=
  bind (syscall h) fun value => pure (int32 value)

theorem addFd (pid tracedFd replayedFd : Int) (flags : BitVec 32) :
    Hands [] (addFd pid tracedFd replayedFd flags) := by
  intro w a w' h
  obtain ⟨t, t', -, -, rfl⟩ := addFd_eq_some h
  exact .of_issued rfl

end Hands

/-- A run from `w` that finishes hands over one mode, `md` without the umask of the
process, or, where it may skip the call, none. -/
def Masks {α : Type} (w : World) (pid : Int) (md : BitVec 32) (skips : Prop)
    (program : Replay α) : Prop :=
  ∀ ⦃a w'⦄, program w = some (a, w') → ∃ m, w.manager.getUmask pid = some m ∧
    (Handed [md &&& ~~~m] w w' ∨ skips ∧ Handed [] w w')

namespace Masks

variable {α β : Type} {w : World} {pid : Int} {md : BitVec 32} {skips : Prop}

theorem mode {f : BitVec 32 → Replay α}
    (h : ∀ md' ⦃a w'⦄, f md' w = some (a, w') →
      Handed [md'] w w' ∨ skips ∧ Handed [] w w') :
    Masks w pid md skips (getMode pid md >>= f) := by
  intro a w' hrun
  obtain ⟨md', v, hget, hrest⟩ := bind_eq_some.mp hrun
  obtain ⟨m, v', hquery, hpure⟩ := bind_eq_some.mp hget
  obtain ⟨m', hm, heq⟩ := Option.map_eq_some_iff.mp hquery
  obtain ⟨rfl, rfl⟩ := Prod.mk.inj heq
  obtain ⟨rfl, rfl⟩ := Prod.mk.inj (Option.some.inj hpure)
  exact ⟨m', hm, h _ hrest⟩

theorem getMode {f : BitVec 32 → Replay α} (h : ∀ md', Hands [md'] (f md')) :
    Masks w pid md skips (getMode pid md >>= f) :=
  mode fun md' _ _ hrun => .inl (h md' hrun)

theorem getMode_ite {c : Prop} [Decidable c] {value : α} {f : BitVec 32 → Replay α}
    (hc : c → skips) (h : ∀ md', Hands [md'] (f md')) :
    Masks w pid md skips (ReplayWorld.getMode pid md >>= fun md' =>
      if c then pure value else f md') := by
  refine mode fun md' a w' hrun => ?_
  split at hrun
  · rename_i hskip
    exact .inr ⟨hc hskip, Hands.pure value hrun⟩
  · exact .inl (h md' hrun)

theorem getFd {tracedFd : Int} {g : Int → Replay α}
    (h : ∀ fd, w.resolves pid tracedFd = some fd → Masks w pid md skips (g fd)) :
    Masks w pid md skips (getFd pid tracedFd >>= g) := by
  intro a w' hrun
  obtain ⟨fd, v, hquery, hrest⟩ := bind_eq_some.mp hrun
  obtain ⟨fd', hfd, heq⟩ := Option.map_eq_some_iff.mp hquery
  obtain ⟨rfl, rfl⟩ := Prod.mk.inj heq
  exact h fd' hfd hrest

end Masks

section

open Hands

variable {w : World} {skips : Prop}

theorem hands_opened {pid tracedFd : Int} {flags md : BitVec 32} {failed : Prop}
    [Decidable failed] {call : SystemCall} (h : handedMode call = some md) :
    Hands [md] (do
      let replayed ← ReplayWorld.intSyscall call
      if failed ∧ replayed ≠ -1 then
        let _ ← ReplayWorld.syscall (.close replayed)
      else
        ReplayWorld.addFd pid tracedFd replayed flags
      return replayed) := by
  refine bind (intSyscall (by rw [h]; rfl)) fun replayed => ?_
  dsimp only
  split
  · exact bind (syscall rfl) fun _ => pure _
  · exact bind (addFd _ _ _ _) fun _ => pure _

theorem masks_open (pid flags tracedFd : Int) (pathname : String) (modeVal : BitVec 32) :
    Masks w pid modeVal skips (openProcessRow pid pathname modeVal flags tracedFd) :=
  .getMode fun _ => hands_opened rfl

theorem masks_openat {pid : Int} {row : Row}
    (hskips : w.resolves pid (row.int .descriptor) = some syscallSimulated → skips) :
    Masks w pid (mode row) skips (openatProcessRow pid row) := by
  refine .getFd fun dirfd hdirfd => .getMode_ite ?_ fun _ => hands_opened rfl
  rintro ⟨rfl, -⟩
  exact hskips hdirfd

theorem masks_creat (pid : Int) (row : Row) :
    Masks w pid (mode row) skips (creatProcessRow pid row) :=
  .getMode fun md => bind (intSyscall rfl) fun _ =>
    bind (addFd _ _ _ _) fun _ => pure _

theorem masks_call {pid : Int} {modeVal : BitVec 32} {call : BitVec 32 → SystemCall}
    (h : ∀ md, handedMode (call md) = some md) :
    Masks w pid modeVal skips (do
      let md ← getMode pid modeVal
      ReplayWorld.intSyscall (call md)) :=
  .getMode fun md => intSyscall (by rw [h md]; rfl)

theorem masks_fchmod {pid returnValue tracedFd : Int} {modeVal : BitVec 32}
    (hskips : w.resolves pid tracedFd = some syscallSimulated → skips) :
    Masks w pid modeVal skips (fchmodProcessRow pid returnValue tracedFd modeVal) :=
  .getFd fun _ hfd => .getMode_ite (fun hsim => hskips (hsim ▸ hfd)) fun _ => intSyscall rfl

theorem masks_at {pid tracedFd : Int} {modeVal : BitVec 32} {value : Int} {c : Prop}
    [Decidable c] {call : Int → BitVec 32 → SystemCall}
    (h : ∀ fd md, handedMode (call fd md) = some md)
    (hskips : w.resolves pid tracedFd = some syscallSimulated → skips) :
    Masks w pid modeVal skips (do
      let fd ← getFd pid tracedFd
      let md ← getMode pid modeVal
      if fd = syscallSimulated ∧ c then return value
      else ReplayWorld.intSyscall (call fd md)) :=
  .getFd fun fd hfd => .getMode_ite (fun hsim => hskips (hsim.1 ▸ hfd)) fun md =>
    intSyscall (by rw [h fd md]; rfl)

end

/-- The calls with a mode that name a descriptor. -/
def namesDescriptor : SysCallKind → Bool
  | .openat | .faccessat | .mkdirat | .fchmod | .fchmodat => true
  | _ => false

/-- The descriptor that the record names is only simulated. -/
def OnSimulated (w : World) (a : Execution) : Prop :=
  namesDescriptor a.kind = true ∧
    w.resolves a.pid (a.row.int .descriptor) = some syscallSimulated

/-- The modules of the calls with a mode take the umask out of the traced one. -/
theorem masks_module {opts : Options} {w : World} {a : Execution} {m : ReplayModule}
    {creates : Bool} (hkind : createsFile a.kind = some creates) (hm : a.module = some m) :
    Masks w a.pid (mode a.row) (OnSimulated w a)
      (processRow opts m a.position.1 a.position.2) := by
  obtain ⟨kind, held, row, rest, queued, later, laterRest⟩ := a
  cases kind
  case open_ =>
    rw [processRow_of_ownMove rfl hm rfl]
    cases queued
    · exact masks_open _ _ _ _ _
    · exact masks_open _ _ _ _ _
  case access | mkdir | chmod =>
    rw [processRow_of_ownMove rfl hm rfl]
    cases queued
    · exact masks_call fun md => rfl
    · exact masks_call fun md => rfl
  case fchmod =>
    rw [processRow_of_ownMove rfl hm rfl]
    cases queued
    · exact masks_fchmod fun hfd => ⟨rfl, hfd⟩
    · exact masks_fchmod fun hfd => ⟨rfl, hfd⟩
  case openat =>
    obtain ⟨members, hmembers, hmoved⟩ := module_eq_some hm
    obtain rfl := Option.some.inj hmembers
    cases queued
    · obtain rfl := Option.some.inj hmoved
      exact masks_openat fun hfd => ⟨rfl, hfd⟩
    · obtain rfl := Option.some.inj hmoved
      exact masks_open _ _ _ _ _
  case creat =>
    obtain ⟨members, hmembers, hmoved⟩ := module_eq_some hm
    cases queued
    · obtain rfl := Option.some.inj hmoved
      exact masks_creat _ _
    · exact nomatch hmoved
  case faccessat | mkdirat =>
    obtain ⟨members, hmembers, hmoved⟩ := module_eq_some hm
    obtain rfl := Option.some.inj hmembers
    cases queued
    · obtain rfl := Option.some.inj hmoved
      exact masks_at (fun _ _ => rfl) fun hfd => ⟨rfl, hfd⟩
    · obtain rfl := Option.some.inj hmoved
      exact masks_call fun md => rfl
  case fchmodat =>
    obtain ⟨members, hmembers, hmoved⟩ := module_eq_some hm
    obtain rfl := Option.some.inj hmembers
    cases queued
    · obtain rfl := Option.some.inj hmoved
      exact masks_at (fun _ _ => rfl) fun hfd => ⟨rfl, hfd⟩
    · obtain rfl := Option.some.inj hmoved
      exact masks_fchmod fun hfd => ⟨rfl, hfd⟩
  case mknod =>
    obtain ⟨members, hmembers, hmoved⟩ := module_eq_some hm
    cases queued
    · obtain rfl := Option.some.inj hmoved
      exact masks_call fun md => rfl
    · exact nomatch hmoved
  all_goals exact nomatch hkind

theorem executeStep_masks {opts : Options} {w w' : World} {a : Execution} {creates : Bool}
    (hkind : createsFile a.kind = some creates) (h : executeStep opts w a = some w') :
    ∃ m, w.manager.getUmask a.pid = some m ∧
      (handedModes w w' = [mode a.row &&& ~~~m] ∨ OnSimulated w a ∧ handedModes w w' = []) := by
  obtain ⟨m, replayed, hm, hrun⟩ := executeStep_eq_some h
  obtain ⟨umask, humask, hhands⟩ := masks_module hkind hm hrun
  exact ⟨umask, humask, hhands.imp Handed.handedModes_eq (.imp_right Handed.handedModes_eq)⟩

/-- What a record does to the masks: `umask` sets the mask of the whole group, a
child joins the group of its parent or starts one with the same mask. -/
noncomputable def maskStep (g : Groups Int (BitVec 32)) (a : Execution) :
    Groups Int (BitVec 32) :=
  match a.kind with
  | .umask => g.update a.pid (mode a.row)
  | .clone | .vfork =>
      if sharesUmask a then g.join a.pid (int32 a.returnValue)
      else (g.value a.pid).elim g fun m => g.start (int32 a.returnValue) m
  | .exit => g.leave a.pid
  | _ => g

/-- The masks after a history that starts with process `pid` and no mask. -/
noncomputable def masks (pid : Int) (history : List Execution) : Groups Int (BitVec 32) :=
  history.foldl maskStep (Groups.single pid 0)

theorem maskStep_represents {opts : Options} {w w' : World} {a : Execution}
    {g : Groups Int (BitVec 32)} (h : Represents id w.manager.umaskTable g)
    (hstep : executeStep opts w a = some w') :
    Represents id w'.manager.umaskTable (maskStep g a) := by
  cases executeStep_resources hstep with
  | values hkind hvalues =>
      obtain ⟨humask, hclone, hvfork, hexit⟩ := hkind
      have hsame : maskStep g a = g := by
        unfold maskStep
        split
        · rename_i hk
          exact absurd hk humask
        · rename_i hk
          exact absurd hk hclone
        · rename_i hk
          exact absurd hk hvfork
        · rename_i hk
          exact absurd hk hexit
        · rfl
      rw [hsame, hvalues.umaskTable]
      exact h
  | umask hkind _ humask =>
      have hset : maskStep g a = g.update a.pid (mode a.row) := by
        rw [maskStep, hkind]
      rw [hset]
      exact h.modify humask
  | started hkind humask _ =>
      have hchild : maskStep g a = if sharesUmask a then g.join a.pid (int32 a.returnValue)
          else (g.value a.pid).elim g fun m => g.start (int32 a.returnValue) m := by
        rcases hkind with hkind | hkind
        · rw [maskStep, hkind]
        · rw [maskStep, hkind]
      rw [hchild]
      rcases humask with ⟨hshared, hshare⟩ | ⟨hown, m, _, hget, rfl, hcreate⟩
      · rw [if_pos hshared]
        exact h.share hshare
      · rw [if_neg (Bool.eq_false_iff.mp hown), h.value_eq hget, hcreate]
        exact h.create
  | exited hkind _ _ humask _ =>
      have hleave : maskStep g a = g.leave a.pid := by
        rw [maskStep, hkind]
      rw [hleave]
      exact h.release humask

theorem history_represents {opts : Options} {start w : World} {g : Groups Int (BitVec 32)}
    {history : List Execution} (h : Represents id start.manager.umaskTable g)
    (hrun : history.foldlM (executeStep opts) start = some w) :
    Represents id w.manager.umaskTable (history.foldl maskStep g) := by
  induction history generalizing start g with
  | nil =>
      obtain rfl := Option.some.inj hrun
      exact h
  | cons a history ih =>
      rw [List.foldlM_cons] at hrun
      obtain ⟨v, hstep, hrest⟩ := Option.bind_eq_some_iff.mp hrun
      exact ih (maskStep_represents h hstep) hrest

/-- After every history a record hands over one mode, or none on a simulated
descriptor, and the mode is what the kernel of the trace made of it exactly where the
mask in force fits the call. -/
theorem handed_modes_iff (opts : Options) (inUse : Int → Bool) (maxFds : Nat) (pid : Int)
    (fdMap : List (Int × Int)) (start w w' : World) (history : List Execution) (a : Execution)
    (creates : Bool)
    (hstart : Manager.initializeTables inUse maxFds pid fdMap = some start.manager)
    (hrun : history.foldlM (executeStep opts) start = some w)
    (hkind : createsFile a.kind = some creates) (hstep : executeStep opts w a = some w') :
    ∃ m, (masks pid history).value a.pid = some m ∧
      ((∃ md, handedModes w w' = [md]) ∨ OnSimulated w a ∧ handedModes w w' = []) ∧
      ∀ md ∈ handedModes w w',
        (md = kernelMode creates (mode a.row) m ↔ MaskFits creates (mode a.row) m) := by
  have hsingle : Represents id start.manager.umaskTable (Groups.single pid 0) := by
    rw [(initializeTables_eq_some hstart).1]
    exact .single 0
  obtain ⟨m, humask, hmodes⟩ := executeStep_masks hkind hstep
  refine ⟨m, (history_represents hsingle hrun).value_eq humask,
    hmodes.imp (fun hone => ⟨_, hone⟩) id, fun md hmem => ?_⟩
  rcases hmodes with hone | ⟨-, hnone⟩
  · rw [hone, List.mem_singleton] at hmem
    rw [hmem]
    exact masked_eq_kernelMode_iff creates (mode a.row) m
  · rw [hnone] at hmem
    cases hmem

/-- A call of process 1 with mode `md`. -/
def callWithMode (kind : SysCallKind) (md : Int) : Execution :=
  queuedCall kind 1 0 fun
    | .mode_value => md
    | _ => 0

/-- `chmod` to 0666 under the mask 022 becomes `chmod` to 0644. -/
theorem chmod_loses_mode :
    ∃ w w', [callWithMode .umask 0o22].foldlM (executeStep quiet) (startWorld inOrder) = some w ∧
      executeStep quiet w (callWithMode .chmod 0o666) = some w' ∧
      ∃ m, (masks 1 [callWithMode .umask 0o22]).value 1 = some m ∧
        ∃ md ∈ handedModes w w', md ≠ kernelMode false 0o666 m :=
  ⟨_, _, rfl, rfl, 0o22, Groups.value_update_of_mates ⟨rfl, rfl⟩, 0o644, .head _, by decide⟩

theorem mkdir_under_mask :
    ∃ w w', [callWithMode .umask 0o22].foldlM (executeStep quiet) (startWorld inOrder) = some w ∧
      executeStep quiet w (callWithMode .mkdir 0o777) = some w' ∧
      ∃ m, (masks 1 [callWithMode .umask 0o22]).value 1 = some m ∧
        ((∃ md, handedModes w w' = [md]) ∨
          OnSimulated w (callWithMode .mkdir 0o777) ∧ handedModes w w' = []) ∧
        ∀ md ∈ handedModes w w', (md = kernelMode true 0o777 m ↔ MaskFits true 0o777 m) :=
  ⟨_, _, rfl, rfl, handed_modes_iff quiet _ 16 1 stdFdMap (startWorld inOrder) _ _ _
    (callWithMode .mkdir 0o777) true (startWorld_prepared inOrder).manager rfl rfl rfl⟩

end SyscallReplayer.EffectiveModes
