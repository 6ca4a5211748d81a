import SyscallReplayer.SuccessfulRecords

/-!
# Duplicates of simulated descriptors

A duplicate of a simulated descriptor should be simulated as well, and nothing
else should. `dup2` and `dup3` map it so; `dup` maps the number of the trace and
`fcntl` what the kernel makes of a call on the marker.
-/

namespace SyscallReplayer.SimulatedDuplicates

open Std (ExtTreeMap)
open CInt SharedEntries ReplayKernel ResourcesManager ReplayWorld ReplayModules ReplayRuns
open StatePrograms TransitionSystem World SuccessfulRecords

/-- `dup2` and `dup3`, which are told the new descriptor. -/
def redirects (a : Execution) : Bool :=
  a.kind = .dup2 || a.kind = .dup3

def duplicates (a : Execution) : Bool :=
  a.kind = .dup || redirects a || a.kind = .fcntl &&
    (a.row.int .command_value = fDupfd || a.row.int .command_value = fDupfdCloexec)

def oldDescriptor (a : Execution) : Int :=
  if redirects a then a.row.int .old_descriptor else a.row.int .descriptor

/-- A duplication that succeeded in the traced program. -/
structure Duplication (a : Execution) : Prop where
  duplicates : duplicates a = true
  returned : isFd a.returnValue = true
  redirected : redirects a = true → a.returnValue = a.row.int .new_descriptor

/-- The table once `dup2` and `dup3` have freed the new descriptor. -/
def spared (redirects : Bool) (newFd : Int) (t : FdTable) : FdTable :=
  if redirects then t.erase newFd else t

/-- The new descriptor gets an entry, which is simulated where `dup2` and `dup3`
find the old one simulated. -/
structure Duplicated (redirects : Bool) (pid oldFd newFd : Int) (t : FdTable)
    (e : FileDescriptorEntry) (w w' : World) : Prop where
  table : w.table pid = some t
  entry : t[oldFd]? = some e
  free : (spared redirects newFd t)[newFd]? = none
  after : ∃ fd flags, (fd = syscallSimulated ↔ redirects = true ∧ e.fd = syscallSimulated) ∧
    Replaced w pid ((spared redirects newFd t).insert newFd ⟨fd, flags⟩) w'

section Effects

variable {w w' : World} {pid k fd : Int} {t : FdTable} {e : FileDescriptorEntry}
  {flags : BitVec 32}

theorem addFd_iff (ht : w.table pid = some t) (hk : isFd k = true) :
    addFd pid k fd flags w = some ((), w') ↔
      t[k]? = none ∧ w' = w.setTable pid (t.insert k ⟨fd, flags⟩) := by
  have hnonneg := isFd_nonneg hk
  rw [addFd_run ht, int32_of_isFd hk]
  constructor
  · intro h
    obtain ⟨t', hadd, heq⟩ := Option.map_eq_some_iff.mp h
    obtain rfl := (Prod.mk.inj heq).2
    rcases FdTable.addFdEntry_cases hadd with ⟨hnew, rfl⟩ | ⟨hneg, -⟩
    · exact ⟨hnew, rfl⟩
    · omega
  · rintro ⟨hnew, rfl⟩
    rw [FdTable.addFdEntry_of_unmapped hnew]
    rfl

/-- What a call opens or fails to open is never the marker. -/
theorem answer_ne_simulated {call : SystemCall} (h : opensOne call = true) :
    int32 (w.answer call) ≠ syscallSimulated := by
  unfold syscallSimulated
  rcases opensOne_cases (w := w) h with ⟨hnonneg, -⟩ | ⟨hfailed, -⟩ <;> omega

theorem redirected_ne_simulated {call : SystemCall} {allowed : Bool} {oldFd target : Int}
    (h : outcome w.openFds w.reply call = redirected w.openFds allowed oldFd target) :
    int32 (w.answer call) ≠ syscallSimulated := by
  unfold syscallSimulated
  rcases redirected_cases h with ⟨⟨-, -, htarget⟩, heq, -⟩ | ⟨-, heq, -⟩
  · have hnonneg := isFd_nonneg htarget
    omega
  · omega

variable {returnValue replayed oldFd : Int}

theorem addFd_serve_iff {call : SystemCall} (ht : w.table pid = some t) (hk : isFd k = true) :
    addFd pid k fd flags (w.serve call) = some ((), w') ↔
      t[k]? = none ∧ w' = (w.serve call).setTable pid (t.insert k ⟨fd, flags⟩) :=
  addFd_iff (w := w.serve call) ht hk

theorem dup_duplicated (hnew : isFd returnValue = true)
    (hrun : dupProcessRow pid returnValue oldFd w = some (replayed, w')) :
    ∃ t e, Duplicated false pid oldFd returnValue t e w w' := by
  obtain ⟨t, e, ht, he, ⟨-, hadd⟩ | ⟨-, hadd⟩⟩ := dupProcessRow_eq_some hrun
  · obtain ⟨hfree, rfl⟩ := (addFd_iff ht hnew).mp hadd
    refine ⟨t, e, ht, he, hfree, int32 returnValue, _, ?_, (Replaced.refl ht).setTable ht _⟩
    have hnonneg := isFd_nonneg hnew
    rw [int32_of_isFd hnew, syscallSimulated]
    constructor
    · omega
    · simp
  · obtain ⟨hfree, rfl⟩ := (addFd_serve_iff ht hnew).mp hadd
    refine ⟨t, e, ht, he, hfree, _, _, ?_, ((Replaced.refl ht).serve _).setTable ht _⟩
    have hne := answer_ne_simulated (w := w) (show opensOne (.dup e.fd) = true from rfl)
    simp [hne]

theorem fcntl_duplicated {command argVal type whence start length lockPid : Int}
    (hcommand : command = fDupfd ∨ command = fDupfdCloexec) (hnew : isFd returnValue = true)
    (hrun : fcntlProcessRow pid returnValue oldFd command argVal type whence start length
      lockPid w = some (replayed, w')) :
    ∃ t e, Duplicated false pid oldFd returnValue t e w w' := by
  obtain ⟨fd, argument, -, -, hreplayed, htable⟩ := fcntlProcessRow_eq_some hrun
  have hopens : opensOne (.fcntl fd command argument) = true := by
    simpa [opensOne] using hcommand
  unfold fcntlTable at htable
  rw [if_pos hcommand] at htable
  obtain ⟨fdFlags, w₁, hflags, hadd⟩ := bind_eq_some.mp htable
  obtain ⟨t, e, ht, he, -, rfl⟩ := getFlags_eq_some hflags
  obtain ⟨hfree, rfl⟩ := (addFd_serve_iff (w := w) ht hnew).mp hadd
  refine ⟨t, e, ht, he, hfree, replayed, _, ?_,
    ((Replaced.refl (w := w) ht).serve _).setTable ht _⟩
  have hne := answer_ne_simulated (w := w) hopens
  rw [← hreplayed] at hne
  simp [hne]

theorem spared_true_getElem? : (spared true k t)[k]? = none := by
  rw [spared, if_pos rfl, getElem?_erase, if_pos rfl]

theorem redirect_duplicated {newFdFlags : BitVec 32 → BitVec 32} {call : Int → Int → SystemCall}
    (hcall : ∀ (v : World) x y, int32 (v.answer (call x y)) ≠ syscallSimulated)
    (hnew : isFd returnValue = true)
    (hrun : duplicateTo pid returnValue oldFd returnValue newFdFlags call w =
      some (replayed, w')) :
    ∃ t e, Duplicated true pid oldFd returnValue t e w w' := by
  obtain ⟨t, e, w₁, ht, he, rfl, hcase⟩ := duplicateTo_eq_some hrun
  have ht₁ : (w.setTable pid (t.erase returnValue)).table pid = some (t.erase returnValue) :=
    table_setTable_self ht
  have hreplaced := (Replaced.refl ht).setTable ht (t.erase returnValue)
  refine ⟨t, e, ht, he, spared_true_getElem?, ?_⟩
  rcases hcase with ⟨hsim, hadd⟩ | ⟨hreal, target, -, hadd⟩
  · obtain ⟨-, rfl⟩ := (addFd_iff ht₁ hnew).mp hadd
    refine ⟨syscallSimulated, newFdFlags e.flags, ?_, hreplaced.setTable ht _⟩
    simp [hsim]
  · obtain ⟨-, rfl⟩ := (addFd_serve_iff ht₁ hnew).mp hadd
    refine ⟨int32 ((w.setTable pid (t.erase returnValue)).answer (call e.fd target)),
      newFdFlags e.flags, ?_, (hreplaced.serve _).setTable ht _⟩
    simp [hcall, hreal]

end Effects

/-- The record can be replayed, and what it duplicates is simulated for `dup2` and
`dup3` only. -/
def Duplicable (w : World) (a : Execution) : Prop :=
  ∃ t e, w.table a.pid = some t ∧ t[oldDescriptor a]? = some e ∧
    (spared (redirects a) a.returnValue t)[a.returnValue]? = none ∧
    (e.fd = syscallSimulated → redirects a = true)

/-- The module ends, and the new descriptor is simulated if and only if the old
one was. -/
def PreservesSimulation (opts : Options) (w : World) (a : Execution) : Prop :=
  ∃ m replayed w', a.module = some m ∧
    processRow opts m a.position.1 a.position.2 w = some (replayed, w') ∧
    (w'.resolves a.pid a.returnValue = some syscallSimulated ↔
      w.resolves a.pid (oldDescriptor a) = some syscallSimulated)

section Records

variable {opts : Options} {w w' : World} {a : Execution} {m : ReplayModule} {replayed : Int}
  {t : FdTable} {e : FileDescriptorEntry}

theorem kind_cases (h : Duplication a) :
    a.kind = .dup ∧ redirects a = false ∨
      (a.kind = .dup2 ∨ a.kind = .dup3) ∧ redirects a = true ∨
      a.kind = .fcntl ∧ redirects a = false ∧ (a.row.int .command_value = fDupfd ∨
        a.row.int .command_value = fDupfdCloexec) := by
  have hduplicates := h.duplicates
  unfold duplicates redirects at hduplicates
  cases hkind : a.kind <;> simp_all [redirects]

theorem changesTables_of_duplication (h : Duplication a) : changesTables a.kind = true := by
  rcases kind_cases h with ⟨hkind, -⟩ | ⟨hkind | hkind, -⟩ | ⟨hkind, -⟩ <;> rw [hkind] <;> rfl

theorem dup2_ne_simulated (v : World) (oldFd target : Int) :
    int32 (v.answer (.dup2 oldFd target)) ≠ syscallSimulated :=
  redirected_ne_simulated rfl

theorem dup3_ne_simulated (flags : Int) (v : World) (oldFd target : Int) :
    int32 (v.answer (.dup3 oldFd target flags)) ≠ syscallSimulated :=
  redirected_ne_simulated rfl

theorem duplicated_of_run (h : Duplication a) (hm : a.module = some m)
    (hrun : processRow opts m a.position.1 a.position.2 w = some (replayed, w')) :
    ∃ t e, Duplicated (redirects a) a.pid (oldDescriptor a) a.returnValue t e w w' := by
  have hprogram := @tableProgram_of_module opts a m (changesTables_of_duplication h) hm
  have hcases := kind_cases h
  generalize processRow opts m a.position.1 a.position.2 = program at hprogram hrun
  cases hprogram
  case dup hkind =>
    have hnot : redirects a = false := by simp [redirects, hkind]
    rw [oldDescriptor, hnot]
    exact dup_duplicated h.returned hrun
  case fcntl hkind =>
    have hnot : redirects a = false := by simp [redirects, hkind]
    rw [oldDescriptor, hnot]
    have hcommand : a.row.int .command_value = fDupfd ∨
        a.row.int .command_value = fDupfdCloexec := by
      simp [hkind, hnot] at hcases
      exact hcases
    exact fcntl_duplicated hcommand h.returned hrun
  case dup2 hkind =>
    have hredirects : redirects a = true := by simp [redirects, hkind]
    rw [oldDescriptor, hredirects]
    rw [dup2ProcessRow, ← h.redirected hredirects] at hrun
    exact redirect_duplicated dup2_ne_simulated h.returned hrun
  case dup3 hkind =>
    have hredirects : redirects a = true := by simp [redirects, hkind]
    rw [oldDescriptor, hredirects]
    rw [dup3ProcessRow, ← h.redirected hredirects] at hrun
    exact redirect_duplicated (dup3_ne_simulated _) h.returned hrun
  case open_ hkind _ => rcases hkind with hkind | ⟨hkind, -⟩ <;> simp_all
  all_goals simp_all

theorem exists_module (h : Duplication a) : ∃ m, a.module = some m := by
  have hcases := kind_cases h
  obtain ⟨kind, held, row, rest, queued, later, laterRest⟩ := a
  dsimp only at hcases
  rcases hcases with ⟨rfl, -⟩ | ⟨rfl | rfl, -⟩ | ⟨rfl, -⟩ <;> cases queued <;> exact ⟨_, rfl⟩

theorem exists_run (h : Duplication a) (hm : a.module = some m)
    (ht : w.table a.pid = some t) (he : t[oldDescriptor a]? = some e)
    (hfree : (spared (redirects a) a.returnValue t)[a.returnValue]? = none) :
    ∃ replayed w', processRow opts m a.position.1 a.position.2 w = some (replayed, w') := by
  have hprogram := @tableProgram_of_module opts a m (changesTables_of_duplication h) hm
  have hcases := kind_cases h
  suffices hleaves : ∃ f, LeavesFlags w a.pid f
      (processRow opts m a.position.1 a.position.2 w) by
    obtain ⟨f, replayed, w', s, hrun, -⟩ := hleaves
    exact ⟨replayed, w', hrun⟩
  generalize processRow opts m a.position.1 a.position.2 = program at hprogram
  cases hprogram
  case dup hkind =>
    have hnot : redirects a = false := by simp [redirects, hkind]
    rw [oldDescriptor, hnot] at he
    rw [hnot] at hfree
    exact ⟨_, dup_leavesFlags ht he h.returned hfree⟩
  case fcntl hkind =>
    have hnot : redirects a = false := by simp [redirects, hkind]
    rw [oldDescriptor, hnot] at he
    rw [hnot] at hfree
    simp [hkind, hnot] at hcases
    exact ⟨_, fcntl_dup_leavesFlags ht _ _ _ _ _ _ hcases he h.returned hfree⟩
  case dup2 hkind =>
    have hredirects : redirects a = true := by simp [redirects, hkind]
    rw [oldDescriptor, hredirects] at he
    rw [dup2ProcessRow, ← h.redirected hredirects]
    exact ⟨_, duplicateTo_leavesFlags ht he h.returned _ _⟩
  case dup3 hkind =>
    have hredirects : redirects a = true := by simp [redirects, hkind]
    rw [oldDescriptor, hredirects] at he
    rw [dup3ProcessRow, ← h.redirected hredirects]
    exact ⟨_, duplicateTo_leavesFlags ht he h.returned _ _⟩
  case open_ hkind _ => rcases hkind with hkind | ⟨hkind, -⟩ <;> simp_all
  all_goals simp_all

theorem resolves_iff_of_entry (ht : w.table a.pid = some t) {k : Int} (he : t[k]? = some e) :
    w.resolves a.pid k = some syscallSimulated ↔ e.fd = syscallSimulated := by
  rw [resolves_of_table ht, FdTable.getFd_of_mapped he, Option.some.injEq]

theorem Duplicated.table_after {redirecting : Bool} {pid oldFd newFd : Int}
    (h : Duplicated redirecting pid oldFd newFd t e w w') :
    ∃ fd flags, (fd = syscallSimulated ↔ redirecting = true ∧ e.fd = syscallSimulated) ∧
      ∀ q, w'.table q = if w.tableOf q = w.tableOf pid then
        some ((spared redirecting newFd t).insert newFd ⟨fd, flags⟩) else w.table q := by
  obtain ⟨fd, flags, hfd, hreplaced⟩ := h.after
  exact ⟨fd, flags, hfd, hreplaced.table_eq h.table⟩

theorem Duplicated.resolves_iff (h : Duplicated (redirects a) a.pid (oldDescriptor a)
    a.returnValue t e w w') :
    w'.resolves a.pid a.returnValue = some syscallSimulated ↔
      redirects a = true ∧ e.fd = syscallSimulated := by
  obtain ⟨fd, flags, hfd, htable⟩ := h.table_after
  have hafter := htable a.pid
  rw [if_pos rfl] at hafter
  rw [resolves_iff_of_entry hafter (by rw [getElem?_insert, if_pos rfl]), hfd]

/-- A duplication keeps to the simulation just when the record is duplicable. -/
theorem preservesSimulation_iff (h : Duplication a) :
    PreservesSimulation opts w a ↔ Duplicable w a := by
  constructor
  · rintro ⟨m, replayed, w', hm, hrun, hiff⟩
    obtain ⟨t, e, heffect⟩ := duplicated_of_run h hm hrun
    refine ⟨t, e, heffect.table, heffect.entry, heffect.free, ?_⟩
    intro hsim
    have hold := (resolves_iff_of_entry heffect.table heffect.entry).mpr hsim
    exact (heffect.resolves_iff.mp (hiff.mpr hold)).1
  · rintro ⟨t, e, ht, he, hfree, hsim⟩
    obtain ⟨m, hm⟩ := exists_module h
    obtain ⟨replayed, w', hrun⟩ := @exists_run opts w a m t e h hm ht he hfree
    refine ⟨m, replayed, w', hm, hrun, ?_⟩
    obtain ⟨s, x, heffect⟩ := duplicated_of_run h hm hrun
    obtain rfl := Option.some.inj (ht.symm.trans heffect.table)
    obtain rfl := Option.some.inj (he.symm.trans heffect.entry)
    rw [heffect.resolves_iff, resolves_iff_of_entry ht he]
    exact ⟨fun hboth => hboth.2, fun hold => ⟨hsim hold, hold⟩⟩

end Records

/-- The descriptors, with the process that has them, that come from simulated ones
by duplication: the new one of a record does if the old one did. -/
def derive (w : World) (derived : Set (Int × Int)) (a : Execution) : Set (Int × Int) :=
  { x | if w.tableOf x.1 = w.tableOf a.pid ∧ x.2 = a.returnValue then
      (a.pid, oldDescriptor a) ∈ derived
    else x ∈ derived }

/-- The replay, with the descriptors that come from those simulated at the start. -/
def derivingSystem (opts : Options) (start : World) :
    System (World × Set (Int × Int)) Execution where
  init := (start, { x | start.resolves x.1 x.2 = some syscallSimulated })
  step s a := (executeStep opts s.1 a).map fun w' => (w', derive s.1 s.2 a)

/-- Exactly the descriptors that come from simulated ones are simulated. -/
def Tracked (s : World × Set (Int × Int)) : Prop :=
  ∀ p k, (p, k) ∈ s.2 ↔ s.1.resolves p k = some syscallSimulated

theorem derive_tracked {opts : Options} {w w' : World} {derived : Set (Int × Int)}
    {a : Execution} (h : Tracked (w, derived)) (ha : Duplication a) (hok : Duplicable w a)
    (hstep : executeStep opts w a = some w') : Tracked (w', derive w derived a) := by
  obtain ⟨m, replayed, hm, hrun⟩ := executeStep_eq_some hstep
  obtain ⟨t, e, heffect⟩ := duplicated_of_run ha hm hrun
  obtain ⟨s, x, ht, he, hfree, hsim⟩ := hok
  obtain rfl := Option.some.inj (ht.symm.trans heffect.table)
  obtain rfl := Option.some.inj (he.symm.trans heffect.entry)
  obtain ⟨fd, flags, hfd, htable⟩ := heffect.table_after
  intro p k
  show (if w.tableOf p = w.tableOf a.pid ∧ k = a.returnValue then
    (a.pid, oldDescriptor a) ∈ derived else (p, k) ∈ derived) ↔ _
  rw [resolves_eq, htable p]
  by_cases hshares : w.tableOf p = w.tableOf a.pid
  · rw [if_pos hshares, Option.map_some, Option.some.injEq]
    by_cases hk : k = a.returnValue
    · rw [if_pos ⟨hshares, hk⟩, hk, h, resolves_iff_of_entry ht he,
        FdTable.getFd_of_mapped (by rw [getElem?_insert, if_pos rfl]), hfd]
      exact ⟨fun hold => ⟨hsim hold, hold⟩, fun hboth => hboth.2⟩
    · have hlookup : ((spared (redirects a) a.returnValue s).insert a.returnValue
          ⟨fd, flags⟩)[k]? = s[k]? := by
        rw [getElem?_insert, if_neg (Ne.symm hk), spared]
        split
        · rw [getElem?_erase, if_neg (Ne.symm hk)]
        · rfl
      have hsame : FdTable.getFd ((spared (redirects a) a.returnValue s).insert a.returnValue
          ⟨fd, flags⟩) k = s.getFd k := by
        unfold FdTable.getFd
        rw [hlookup]
      rw [if_neg fun hboth => hk hboth.2, hsame, h, resolves_eq,
        table_of_tableOf_eq hshares, ht, Option.map_some, Option.some.injEq]
  · rw [if_neg hshares, if_neg fun hboth => hshares hboth.1, h, resolves_eq]

/-- From any world, a successful duplication keeps to the simulation just when the
record is duplicable; and through any sequence of such records the descriptors that
come from simulated ones are simulated, and no others. -/
theorem duplication_preserves_simulation (opts : Options) (start : World) :
    (∀ a, Duplication a → (PreservesSimulation opts start a ↔ Duplicable start a)) ∧
      ∀ s, (derivingSystem opts start).ReachVia
        (fun s a => Duplication a ∧ Duplicable s.1 a) s → Tracked s := by
  constructor
  · intro a ha
    exact preservesSimulation_iff ha
  · intro s hreach
    apply hreach.invariant
    · intro p k
      rfl
    · rintro ⟨w, derived⟩ a s' - htracked ⟨ha, hok⟩ hstep
      obtain ⟨w', hw', rfl⟩ := Option.map_eq_some_iff.mp hstep
      exact derive_tracked htracked ha hok hw'

/-- Process 1 has a socket. -/
def socketWorld : World :=
  worldAfter (startWorld inOrder) [queuedCall .socket 1 3 0]

def socketTable : FdTable :=
  stdTable.insert 3 ⟨syscallSimulated, 0⟩

def dup2Socket : Execution :=
  queuedCall .dup2 1 5 fun
    | .old_descriptor => 3
    | .new_descriptor => 5
    | _ => 0

theorem dup2Socket_duplication : Duplication dup2Socket :=
  ⟨rfl, rfl, fun _ => rfl⟩

theorem dup2Socket_duplicable : Duplicable socketWorld dup2Socket :=
  ⟨socketTable, ⟨syscallSimulated, 0⟩, rfl, rfl, rfl, fun _ => rfl⟩

/-- `dup2` on a socket gives a simulated descriptor, which comes from the socket. -/
theorem dup2Socket_preserves :
    PreservesSimulation quiet socketWorld dup2Socket ∧
      Tracked (worldAfter socketWorld [dup2Socket], derive socketWorld
        { x | socketWorld.resolves x.1 x.2 = some syscallSimulated } dup2Socket) :=
  ⟨((duplication_preserves_simulation quiet socketWorld).1 dup2Socket
      dup2Socket_duplication).mpr dup2Socket_duplicable,
    (duplication_preserves_simulation quiet socketWorld).2 _
      (.step .init ⟨dup2Socket_duplication, dup2Socket_duplicable⟩ rfl)⟩

def dupSocket : Execution :=
  queuedCall .dup 1 4 fun
    | .descriptor => 3
    | _ => 0

/-- `dup` on a socket maps the traced number. -/
theorem dupSocket_maps_number :
    Duplication dupSocket ∧ ¬PreservesSimulation quiet socketWorld dupSocket ∧
      socketWorld.resolves 1 3 = some syscallSimulated ∧
      (worldAfter socketWorld [dupSocket]).resolves 1 4 = some 4 := by
  refine ⟨⟨rfl, rfl, fun hredirects => nomatch hredirects⟩, ?_, rfl, rfl⟩
  rintro ⟨m, replayed, w', hm, hrun, hiff⟩
  obtain rfl := Option.some.inj hm
  have hafter : w' = worldAfter socketWorld [dupSocket] :=
    (Prod.mk.inj (Option.some.inj hrun)).2.symm
  have hsimulated := hiff.mpr rfl
  rw [hafter] at hsimulated
  exact absurd hsimulated (by decide)

end SyscallReplayer.SimulatedDuplicates
