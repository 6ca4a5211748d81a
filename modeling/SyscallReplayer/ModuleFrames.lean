import SyscallReplayer.ModulePrograms
import SyscallReplayer.ReplayRuns

/-!
# What the modules leave alone

Most modules issue calls and change the resources manager. Only `mmap` and `munmap`
change an address map, and only `clone` and `vfork` start a thread.
-/

namespace SyscallReplayer.ModuleFrames

open ReplayKernel ResourcesManager ReplayWorld ReplayModules VirtualAddressSpace
open StatePrograms StateFrames ComposedPrograms ModulePrograms ReplayRuns

/-- A frame that allows calls, changes of the manager and areas that are created
empty. -/
structure Neutral (R : Frame World) : Prop where
  serve : ∀ w call, R.rel w (w.serve call)
  manager : ∀ (w : World) m, R.rel w { w with manager := m }
  area : ∀ (w : World) pid, R.rel w { w with vmAreas := w.vmAreas.insert pid (w.vmArea pid) }

variable {R : Frame World} {α : Type}

theorem within_queryManager (f : Manager → Option α) : Within R (queryManager f) := by
  intro w a w' hrun
  obtain ⟨b, -, heq⟩ := Option.map_eq_some_iff.mp hrun
  obtain rfl := (Prod.mk.inj heq).2
  exact R.refl w

theorem Neutral.within_primitive (h : Neutral R) {maps : Prop}
    (hmaps : maps → ∀ (w : World) pid area,
      R.rel w { w with vmAreas := w.vmAreas.insert pid area })
    (hstarts : ∀ (w : World) pid, R.rel w { w with threads := w.threads ++ [pid] })
    {m : Replay α} {Q : α → Prop} (hm : Primitive maps α m Q) : Within R m := by
  intro w a w' hrun
  cases hm with
  | syscall call =>
      obtain rfl := (Prod.mk.inj (Option.some.inj hrun)).2
      exact h.serve w call
  | query f => exact within_queryManager f hrun
  | change f =>
      obtain ⟨result, -, heq⟩ := Option.map_eq_some_iff.mp hrun
      obtain rfl := (Prod.mk.inj heq).2
      exact h.manager w result.2
  | createArea pid =>
      obtain rfl := (Prod.mk.inj (Option.some.inj hrun)).2
      exact h.area w pid
  | modifyArea hallowed pid f =>
      obtain rfl := (Prod.mk.inj (Option.some.inj hrun)).2
      exact hmaps hallowed w pid _
  | startThread pid =>
      obtain rfl := (Prod.mk.inj (Option.some.inj hrun)).2
      exact hstarts w pid

theorem changesArea_setMove (members : Members) :
    changesArea (setMove members) = changesArea members := by
  cases members <;> rfl

theorem changesArea_of_prepareMembers {kind : SysCallKind} {held : Int} {row : Row}
    {rest : List Row} {members : Members} (h : prepareMembers kind held row rest = some members)
    (hkind : kind ≠ .mmap ∧ kind ≠ .munmap) : changesArea members = false := by
  obtain ⟨hmmap, hmunmap⟩ := hkind
  cases members
  case mmap => exact absurd (kind_of_ownKind h rfl) hmmap
  case munmap =>
    refine absurd ?_ hmunmap
    cases kind
    case read | pread | mmappread | write | pwrite | mmappwrite | readlink | ioctl =>
      obtain ⟨_, -, heq⟩ := Option.bind_eq_some_iff.mp h
      cases heq
    all_goals
      first
        | rfl
        | cases h
  all_goals rfl

/-- Every other module stays in a neutral frame that allows threads to start. -/
theorem executeStep_within (hR : Neutral R)
    (hstarts : ∀ (w : World) pid, R.rel w { w with threads := w.threads ++ [pid] })
    {opts : Options} {w w' : World} {a : Execution} (h : executeStep opts w a = some w')
    (hkind : a.kind ≠ .mmap ∧ a.kind ≠ .munmap) : R.rel w w' := by
  obtain ⟨m, replayed, hm, hrun⟩ := executeStep_eq_some h
  obtain ⟨members, hprepared, hmembers⟩ := members_of_module hm
  have hkeeps : changesArea m.members = false := by
    have hchanges := changesArea_of_prepareMembers hprepared hkind
    rcases hmembers with heq | heq
    · rw [heq, hchanges]
    · rw [heq, changesArea_setMove, hchanges]
  have hwithin : ∀ {β : Type} {p : Replay β},
      Program ⟨False, fun _ => True, fun _ => True, fun _ => True, trivial⟩ p → Within R p :=
    fun hp => (primitive_of_program (fun _ => trivial) hp).within Primitive.values
      (hR.within_primitive False.elim hstarts)
  have hmaps : changesArea m.members = true → False := by
    intro htrue
    rw [hkeeps] at htrue
    cases htrue
  exact processRow_cases
    (hwithin (program_processMembers opts m hmaps (fun _ _ => trivial) (fun _ _ _ => trivial)
      (fun _ _ _ _ => trivial) fun _ _ => trivial))
    (fun program hprogram => hwithin (program_processCurrentRow opts m _ _ program hprogram
      (fun _ => ⟨trivial, fun _ _ _ => trivial⟩) fun _ _ _ => trivial)) hrun

end SyscallReplayer.ModuleFrames
