import SyscallReplayer.DuplicatedFiles

/-!
# The descriptor -1

No traced process has a descriptor -1, so the replay should never resolve it to a
descriptor that it has open. `open` and `openat` close what they opened for a call
that failed in the trace. `creat` and the duplications do not look, and enter it
for -1 unless -1 has an entry already.
-/

namespace SyscallReplayer.InvalidDescriptor

open Std (ExtTreeMap)
open CInt SharedEntries ReplayKernel ResourcesManager ReplayWorld ReplayModules ReplayRuns
open StatePrograms TransitionSystem World ResourceSteps SimulatedDuplicates DuplicatedFiles

/-- What -1 resolves to is no descriptor. -/
def InvalidStays (w : World) : Prop :=
  ∀ p fd, w.resolves p (-1) = some fd → fd < 0

/-- The module does not look whether a traced call that returned -1 failed. `open`
and `openat` take a value beyond an `int` for a success. -/
def overlooks (a : Execution) : Bool :=
  int32 a.returnValue = -1 &&
    match a.kind with
    | .open_ => !a.queued && -1 < a.returnValue
    | .openat => !a.queued && a.returnValue ≠ -1
    | .creat | .dup | .dup2 | .dup3 => true
    | .fcntl => a.row.int .command_value = fDupfd || a.row.int .command_value = fDupfdCloexec
    | _ => false

/-- The replayed call gives a descriptor. -/
def Succeeds (w : World) (a : Execution) : Prop :=
  match a.kind with
  | .open_ | .creat => opens w.openFds w.reply.value 0 = true
  | .openat =>
      ¬(w.resolves a.pid (a.row.int .descriptor) = some syscallSimulated ∧
        relative (a.row.text .given_pathname) = true) ∧
      opens w.openFds w.reply.value 0 = true
  | .dup =>
      ∃ fd ∈ w.openFds, w.resolves a.pid (a.row.int .descriptor) = some fd ∧
        fd ≠ syscallSimulated ∧ opens w.openFds w.reply.value 0 = true
  | .fcntl =>
      ∃ fd ∈ w.openFds, w.resolves a.pid (a.row.int .descriptor) = some fd ∧
        opens w.openFds w.reply.value (a.row.int .argument_value) = true
  | .dup2 | .dup3 =>
      ∃ t, ∃ fd ∈ w.openFds, w.table a.pid = some t ∧ fd = t.getFd (a.row.int .old_descriptor) ∧
        fd ≠ syscallSimulated ∧ w.reply.value ≠ -1 ∧
        isFd (target w a.pid (a.row.int .new_descriptor) t) = true ∧
        (a.kind = .dup3 → fd ≠ target w a.pid (a.row.int .new_descriptor) t)
  | _ => False

/-- The process has no entry for -1, or the record takes it out first. -/
def Free (w : World) (a : Execution) : Prop :=
  ∃ t, w.table a.pid = some t ∧
    (t.hasFd (-1) = false ∨ redirects a = true ∧ a.row.int .new_descriptor = -1)

/-- The replay succeeds where the traced call failed, and what it gives is entered
for -1. -/
def EntersInvalid (w : World) (a : Execution) : Prop :=
  overlooks a = true ∧ Succeeds w a ∧ Free w a

section Entries

variable {w w' : World} {pid k fd : Int} {t t' : FdTable} {flags : BitVec 32}

theorem invalidStays_iff :
    InvalidStays w ↔ ∀ p fd, w.Maps p (-1) fd → fd < 0 := by
  constructor
  · rintro h p fd ⟨t, ht, e, he, rfl⟩
    exact h p e.fd (by rw [resolves_of_table ht, FdTable.getFd_of_mapped he])
  · intro h p fd hfd
    obtain ⟨t, ht, rfl⟩ := Option.map_eq_some_iff.mp ((resolves_eq w p (-1)).symm.trans hfd)
    cases he : t[(-1 : Int)]? with
    | none =>
        rw [FdTable.getFd_of_unmapped he]
        decide
    | some e => exact h p _ ⟨t, ht, FdTable.maps_getFd he⟩

theorem InvalidStays.congr (h : InvalidStays w)
    (htables : w'.manager.fdTableMap = w.manager.fdTableMap) : InvalidStays w' := by
  rw [invalidStays_iff] at h ⊢
  intro p fd hmaps
  exact h p fd ((maps_congr htables p (-1) fd).mp hmaps)

/-- A table that maps -1 to nothing more. -/
theorem InvalidStays.setTable (h : InvalidStays w) (ht : w.table pid = some t)
    (hsub : ∀ fd, t'.Maps (-1) fd → t.Maps (-1) fd) : InvalidStays (w.setTable pid t') := by
  rw [invalidStays_iff] at h ⊢
  intro p fd hmaps
  rcases (maps_setTable ht p (-1) fd).mp hmaps with ⟨hshares, hmaps⟩ | ⟨-, hmaps⟩
  · exact h pid fd ((maps_iff ht (-1) fd).mpr (hsub fd hmaps))
  · exact h p fd hmaps

theorem InvalidStays.erase (h : InvalidStays w) (ht : w.table pid = some t) (k : Int) :
    InvalidStays (w.setTable pid (t.erase k)) :=
  h.setTable ht fun _ hmaps => (FdTable.maps_erase.mp hmaps).2

theorem InvalidStays.addFd_iff (h : InvalidStays w) (ht : w.table pid = some t)
    (hadd : addFd pid k fd flags w = some ((), w')) :
    InvalidStays w' ↔ ¬(int32 k = -1 ∧ 0 ≤ fd ∧ t.hasFd (-1) = false) := by
  rw [addFd_run ht] at hadd
  obtain ⟨t', hentry, heq⟩ := Option.map_eq_some_iff.mp hadd
  obtain rfl := (Prod.mk.inj heq).2
  constructor
  · rintro hstays ⟨hk, hnonneg, hfree⟩
    rw [hk, FdTable.addFdEntry_of_unmapped (FdTable.hasFd_eq_false_iff.mp hfree)] at hentry
    obtain rfl := Option.some.inj hentry
    have hmaps : (w.setTable pid (t.insert (-1) ⟨fd, flags⟩)).Maps pid (-1) fd :=
      ⟨_, table_setTable_self ht, ⟨fd, flags⟩, by rw [getElem?_insert, if_pos rfl], rfl⟩
    have hneg := invalidStays_iff.mp hstays pid fd hmaps
    omega
  · intro hharmless
    rcases FdTable.addFdEntry_cases hentry with ⟨hnew, rfl⟩ | ⟨-, -, rfl⟩
    · rw [invalidStays_iff]
      intro p x hmaps
      rcases (maps_setTable ht p (-1) x).mp hmaps with ⟨-, hmaps⟩ | ⟨-, hmaps⟩
      · rcases FdTable.maps_insert.mp hmaps with ⟨hk, rfl⟩ | ⟨-, hmaps⟩
        · by_contra hnonneg
          exact hharmless ⟨hk, not_lt.mp hnonneg,
            FdTable.hasFd_eq_false_iff.mpr (hk ▸ hnew)⟩
        · exact invalidStays_iff.mp h pid x ((maps_iff ht (-1) x).mpr hmaps)
      · exact invalidStays_iff.mp h p x hmaps
    · rwa [setTable_eq_self ht]

theorem answer_opened_iff {call : SystemCall} {least : Int}
    (h : outcome w.openFds w.reply call = opened w.openFds w.reply.value least) :
    0 ≤ int32 (w.answer call) ↔ opens w.openFds w.reply.value least = true := by
  rw [World.answer, h]
  rcases opened_cases w.openFds w.reply.value least with ⟨hopens, heq⟩ | ⟨hnot, heq⟩
  · obtain ⟨hlower, hupper, -⟩ := opens_iff.mp hopens
    rw [heq, int32_eq_self (by omega) hupper]
    simp [hlower, hopens]
  · rw [heq, hnot]
    exact iff_of_false (show ¬0 ≤ int32 (-1) by decide) Bool.false_ne_true

theorem answer_duplicated_iff {call : SystemCall} {least : Int}
    (h : outcome w.openFds w.reply call =
      if fd ∈ w.openFds then opened w.openFds w.reply.value least else (-1, w.openFds)) :
    0 ≤ int32 (w.answer call) ↔
      fd ∈ w.openFds ∧ opens w.openFds w.reply.value least = true := by
  by_cases hopen : fd ∈ w.openFds
  · rw [if_pos hopen] at h
    rw [answer_opened_iff h]
    exact (and_iff_right hopen).symm
  · rw [if_neg hopen] at h
    rw [World.answer, h]
    exact iff_of_false (show ¬0 ≤ int32 (-1) by decide) fun hboth => hopen hboth.1

theorem answer_redirected_iff {call : SystemCall} {allowed : Bool} {oldFd newFd : Int}
    (h : outcome w.openFds w.reply call = redirected w.openFds allowed oldFd newFd) :
    0 ≤ int32 (w.answer call) ↔ allowed = true ∧ oldFd ∈ w.openFds ∧ isFd newFd = true := by
  rcases redirected_cases h with ⟨hmade, hanswer, -⟩ | ⟨hrefused, hanswer, -⟩
  · rw [hanswer]
    exact iff_of_true (isFd_nonneg hmade.2.2) hmade
  · rw [hanswer]
    exact iff_of_false (by decide) hrefused

end Entries

section Programs

variable {w w' : World} {pid returnValue replayed fd k : Int} {flags : BitVec 32}

/-- The process has no entry for -1. -/
def NoEntry (w : World) (pid : Int) : Prop :=
  ∃ t, w.table pid = some t ∧ t.hasFd (-1) = false

theorem InvalidStays.entered_iff (h : InvalidStays w)
    (hadd : addFd pid k fd flags w = some ((), w')) :
    InvalidStays w' ↔ ¬(int32 k = -1 ∧ 0 ≤ fd ∧ NoEntry w pid) := by
  obtain ⟨t, t', ht, -, -⟩ := addFd_eq_some hadd
  rw [h.addFd_iff ht hadd]
  constructor
  · rintro hharmless ⟨hk, hnonneg, s, hs, hfree⟩
    obtain rfl := Option.some.inj (ht.symm.trans hs)
    exact hharmless ⟨hk, hnonneg, hfree⟩
  · rintro hharmless ⟨hk, hnonneg, hfree⟩
    exact hharmless ⟨hk, hnonneg, t, ht, hfree⟩

theorem InvalidStays.negative (h : InvalidStays w) (hneg : fd < 0)
    (hadd : addFd pid k fd flags w = some ((), w')) : InvalidStays w' := by
  rw [h.entered_iff hadd]
  rintro ⟨-, hnonneg, -⟩
  omega

theorem InvalidStays.serve (h : InvalidStays w) (call : SystemCall) :
    InvalidStays (w.serve call) :=
  h.congr rfl

theorem creat_stays_iff {row : Row} (h : InvalidStays w)
    (hrun : creatProcessRow pid row w = some (replayed, w')) :
    InvalidStays w' ↔ ¬(int32 (row.int .return_value) = -1 ∧
      opens w.openFds w.reply.value 0 = true ∧ NoEntry w pid) := by
  obtain ⟨call, mode, rfl, hadd⟩ := creatProcessRow_eq_some hrun
  rw [(h.serve _).entered_iff hadd, answer_opened_iff rfl]
  rfl

theorem keeps_stays_iff {dropped : Prop} {tracedFd : Int} {call : SystemCall}
    (h : InvalidStays w) (hkeeps : Keeps pid dropped tracedFd flags call w w') :
    InvalidStays w' ↔ ¬(¬dropped ∧ int32 tracedFd = -1 ∧ 0 ≤ int32 (w.answer call) ∧
      NoEntry w pid) := by
  rcases hkeeps with ⟨hdropped, rfl⟩ | ⟨hkept, hadd⟩
  · exact iff_of_true ((h.serve _).serve _) fun hharm => hharm.1 hdropped
  · rw [(h.serve _).entered_iff hadd, and_iff_right hkept]
    rfl

theorem open_stays_iff {pathname : String} {modeVal : BitVec 32} {openFlags tracedFd : Int}
    (h : InvalidStays w)
    (hrun : openProcessRow pid pathname modeVal openFlags tracedFd w = some (replayed, w')) :
    InvalidStays w' ↔ ¬((-1 < tracedFd ∧ int32 tracedFd = -1) ∧
      opens w.openFds w.reply.value 0 = true ∧ NoEntry w pid) := by
  obtain ⟨mode, hkeeps⟩ := openProcessRow_eq_some hrun
  rw [keeps_stays_iff h hkeeps, ← answer_opened_iff (w := w)
    (show outcome w.openFds w.reply (.open_ pathname openFlags mode) = _ from rfl)]
  apply not_congr
  constructor
  · rintro ⟨hkept, htraced, hnonneg, hnone⟩
    refine ⟨⟨?_, htraced⟩, hnonneg, hnone⟩
    by_contra hle
    exact hkept ⟨by omega, by omega⟩
  · rintro ⟨⟨hlt, htraced⟩, hnonneg, hnone⟩
    exact ⟨fun hdropped => by omega, htraced, hnonneg, hnone⟩

theorem openat_stays_iff {row : Row} (h : InvalidStays w)
    (hrun : openatProcessRow pid row w = some (replayed, w')) :
    InvalidStays w' ↔
      ¬((row.int .return_value ≠ -1 ∧ int32 (row.int .return_value) = -1) ∧
        (¬(w.resolves pid (row.int .descriptor) = some syscallSimulated ∧
          relative (row.text .given_pathname) = true) ∧
          opens w.openFds w.reply.value 0 = true) ∧ NoEntry w pid) := by
  obtain ⟨dirfd, hdirfd, ⟨⟨rfl, hrelative⟩, rfl⟩ | ⟨hreal, call, mode, rfl, hkeeps⟩⟩ :=
    openatProcessRow_eq_some hrun
  · exact iff_of_true h fun hharm => hharm.2.1.1 ⟨hdirfd, hrelative⟩
  · rw [hdirfd, Option.some.injEq, keeps_stays_iff h hkeeps, ← answer_opened_iff (w := w)
      (show outcome w.openFds w.reply (.openat dirfd (row.text .given_pathname)
        (row.int .open_value) mode) = _ from rfl)]
    apply not_congr
    constructor
    · rintro ⟨hkept, htraced, hnonneg, hnone⟩
      refine ⟨⟨fun hneg => hkept ⟨hneg, by omega⟩, htraced⟩, ⟨hreal, hnonneg⟩, hnone⟩
    · rintro ⟨⟨hne, htraced⟩, ⟨-, hnonneg⟩, hnone⟩
      exact ⟨fun hdropped => hne hdropped.1, htraced, hnonneg, hnone⟩

theorem dup_stays_iff {oldFd : Int} (h : InvalidStays w)
    (hrun : dupProcessRow pid returnValue oldFd w = some (replayed, w')) :
    InvalidStays w' ↔ ¬(int32 returnValue = -1 ∧
      (∃ fd ∈ w.openFds, w.resolves pid oldFd = some fd ∧ fd ≠ syscallSimulated ∧
        opens w.openFds w.reply.value 0 = true) ∧ NoEntry w pid) := by
  obtain ⟨t, e, ht, he, ⟨hsim, hadd⟩ | ⟨hreal, hadd⟩⟩ := dupProcessRow_eq_some hrun
  · have hold : w.resolves pid oldFd = some e.fd := by
      rw [resolves_of_table ht, FdTable.getFd_of_mapped he]
    rw [h.entered_iff hadd]
    refine iff_of_true ?_ ?_
    · rintro ⟨hfailed, hnonneg, -⟩
      omega
    · rintro ⟨-, ⟨fd, -, hfd, hne, -⟩, -⟩
      exact hne (Option.some.inj (hfd.symm.trans hold) ▸ hsim)
  · have hold : w.resolves pid oldFd = some e.fd := by
      rw [resolves_of_table ht, FdTable.getFd_of_mapped he]
    rw [(h.serve _).entered_iff hadd, @answer_duplicated_iff w e.fd (.dup e.fd) 0 rfl]
    apply not_congr
    constructor
    · rintro ⟨hfailed, ⟨hopen, hopens⟩, hnone⟩
      exact ⟨hfailed, ⟨e.fd, hopen, hold, hreal, hopens⟩, hnone⟩
    · rintro ⟨hfailed, ⟨fd, hopen, hfd, -, hopens⟩, hnone⟩
      obtain rfl := Option.some.inj (hfd.symm.trans hold)
      exact ⟨hfailed, ⟨hopen, hopens⟩, hnone⟩

theorem fcntlArgument_of_dup {command : Int} (h : command = fDupfd ∨ command = fDupfdCloexec)
    (argVal type whence start length lockPid : Int) :
    fcntlArgument command argVal type whence start length lockPid = .value argVal := by
  rw [fcntlArgument, if_neg]
  rcases h with rfl | rfl <;> decide

theorem fcntl_stays_iff {oldFd command argVal type whence start length lockPid : Int}
    (h : InvalidStays w)
    (hrun : fcntlProcessRow pid returnValue oldFd command argVal type whence start length
      lockPid w = some (replayed, w')) :
    InvalidStays w' ↔ ¬(((command = fDupfd ∨ command = fDupfdCloexec) ∧
      int32 returnValue = -1) ∧ (∃ fd ∈ w.openFds, w.resolves pid oldFd = some fd ∧
        opens w.openFds w.reply.value argVal = true) ∧ NoEntry w pid) := by
  obtain ⟨fd, argument, hargument, hfd, rfl, htable⟩ := fcntlProcessRow_eq_some hrun
  rcases fcntlTable_eq_some htable with ⟨hdup, flags, hadd⟩ | ⟨hother, hchange⟩
  · rw [fcntlArgument_of_dup hdup] at hargument
    subst hargument
    rw [(h.serve _).entered_iff hadd, @answer_duplicated_iff w fd _ argVal
      (by simp only [outcome, if_pos hdup])]
    apply not_congr
    constructor
    · rintro ⟨hfailed, ⟨hopen, hopens⟩, hnone⟩
      exact ⟨⟨hdup, hfailed⟩, ⟨fd, hopen, hfd, hopens⟩, hnone⟩
    · rintro ⟨⟨-, hfailed⟩, ⟨x, hopen, hx, hopens⟩, hnone⟩
      obtain rfl := Option.some.inj (hx.symm.trans hfd)
      exact ⟨hfailed, ⟨hopen, hopens⟩, hnone⟩
  · refine iff_of_true ?_ fun hharm => hother hharm.1.1
    rcases hchange with rfl | ⟨t, e, flags, ht, he, rfl⟩
    · exact h.serve _
    · refine (h.serve _).setTable ht ?_
      intro x hmaps
      rcases FdTable.maps_insert.mp hmaps with ⟨rfl, rfl⟩ | ⟨-, hmaps⟩
      · exact ⟨e, he, rfl⟩
      · exact hmaps

theorem hasFd_erase_eq_false_iff {t : FdTable} {newFd : Int} :
    FdTable.hasFd (t.erase newFd) (-1) = false ↔ t.hasFd (-1) = false ∨ newFd = -1 := by
  rw [FdTable.hasFd_eq_false_iff, FdTable.hasFd_eq_false_iff, getElem?_erase]
  split
  · simp_all
  · simp_all

theorem redirect_stays_iff {oldFd newFd : Int} {newFdFlags : BitVec 32 → BitVec 32}
    {call : Int → Int → SystemCall} {allowed : Int → Int → Bool}
    (hcall : ∀ x y, outcome w.openFds w.reply (call x y) =
      redirected w.openFds (allowed x y) x y) (h : InvalidStays w)
    (hrun : duplicateTo pid returnValue oldFd newFd newFdFlags call w = some (replayed, w')) :
    InvalidStays w' ↔ ¬(int32 returnValue = -1 ∧
      ∃ t, ∃ fd ∈ w.openFds, w.table pid = some t ∧ fd = t.getFd oldFd ∧
        fd ≠ syscallSimulated ∧ allowed fd (target w pid newFd t) = true ∧
        isFd (target w pid newFd t) = true ∧ (t.hasFd (-1) = false ∨ newFd = -1)) := by
  obtain ⟨t, e, w₁, ht, he, rfl, hcase⟩ := duplicateTo_eq_some hrun
  have hold : t.getFd oldFd = e.fd := FdTable.getFd_of_mapped he
  have herased := h.erase ht newFd
  have ht₁ : (w.setTable pid (t.erase newFd)).table pid = some (t.erase newFd) :=
    table_setTable_self ht
  rcases hcase with ⟨hsim, hadd⟩ | ⟨hreal, _, rfl, hadd⟩
  · refine iff_of_true (herased.negative (by decide) hadd) ?_
    rintro ⟨-, s, fd, -, hs, hfd, hne, -⟩
    obtain rfl := Option.some.inj (ht.symm.trans hs)
    exact hne (hfd.trans (hold.trans hsim))
  · rw [(herased.serve _).addFd_iff ht₁ hadd, hasFd_erase_eq_false_iff]
    have hanswer := answer_redirected_iff (hcall e.fd (target w pid newFd t))
    have hanswer' : 0 ≤ int32 ((w.setTable pid (t.erase newFd)).answer
        (call e.fd (target w pid newFd t))) ↔ _ := hanswer
    apply not_congr
    constructor
    · rintro ⟨hfailed, hnonneg, hnone⟩
      obtain ⟨hallowed, hopen, hisFd⟩ := hanswer'.mp hnonneg
      exact ⟨hfailed, t, e.fd, hopen, ht, hold.symm, hreal, hallowed, hisFd, hnone⟩
    · rintro ⟨hfailed, s, fd, hopen, hs, hfd, -, hallowed, hisFd, hnone⟩
      obtain rfl := Option.some.inj (ht.symm.trans hs)
      obtain rfl : fd = e.fd := hfd.trans hold
      exact ⟨hfailed, hanswer'.mpr ⟨hallowed, hopen, hisFd⟩, hnone⟩

theorem close_stays {held descVal : Int} (h : InvalidStays w)
    (hrun : closeProcessRow pid held descVal w = some (replayed, w')) : InvalidStays w' := by
  obtain ⟨t, ht, rfl⟩ := closeProcessRow_eq_some hrun
  split
  · exact h.erase ht descVal
  · exact (h.erase ht descVal).serve _

theorem pipe_stays {readFd writeFd : Int} (h : InvalidStays w)
    (hrun : pipeProcessRow pid readFd writeFd w = some (replayed, w')) : InvalidStays w' := by
  obtain ⟨call, w₁, -, hread, hwrite⟩ := pipeProcessRow_eq_some hrun
  exact ((h.serve call).negative (by decide) hread).negative (by decide) hwrite

theorem exit_stays {held : Int} (h : InvalidStays w) (hbacked : w.manager.fdTableMap.Backed)
    (hrun : exitProcessRow pid held w = some (replayed, w')) : InvalidStays w' := by
  obtain ⟨freed, map, fds, hrelease, -, htables, -⟩ := exitProcessRow_eq_some hrun
  rw [invalidStays_iff] at h ⊢
  intro p fd hmaps
  exact h p fd ((maps_of_release hbacked hrelease htables p (-1) fd).mp hmaps).2

theorem execve_stays {held retVal : Int} (h : InvalidStays w)
    (hrun : execveProcessRow pid held retVal w = some (replayed, w')) : InvalidStays w' := by
  obtain ⟨fds, w₁, hfds, -⟩ := bind_eq_some.mp hrun
  obtain ⟨fds', hget, -⟩ := Option.map_eq_some_iff.mp hfds
  obtain ⟨t, ht, -⟩ := Option.map_eq_some_iff.mp hget
  obtain ⟨t', hrun', ht'⟩ := @execveProcessRow_run w pid t ht held retVal
  obtain ⟨-, rfl⟩ := Prod.mk.inj (Option.some.inj (hrun'.symm.trans hrun))
  apply h.setTable ht
  rintro fd ⟨e, he, rfl⟩
  rw [ht'] at he
  exact ⟨e, (Option.filter_eq_some_iff.mp he).1, rfl⟩

theorem cloneEntries_stay {t copy : FdTable} {w₁ w₂ : World}
    (h : ∀ fd, t.Maps (-1) fd → fd < 0)
    (hrun : t.toList.foldlM cloneEntry ∅ w₁ = some (copy, w₂)) :
    (∀ fd, copy.Maps (-1) fd → fd < 0) ∧
      w₂.manager.fdTableMap = w₁.manager.fdTableMap := by
  refine cloneEntries_induction (t := t) (I := fun copy v =>
    (∀ fd, copy.Maps (-1) fd → fd < 0) ∧ v.manager.fdTableMap = w₁.manager.fdTableMap)
    ⟨fun fd hmaps => absurd hmaps FdTable.not_maps_empty, rfl⟩ ?_ hrun
  rintro copy copy' k e v v' he hnew ⟨hcopy, htables⟩ hentry
  obtain ⟨newFd, hadd, hcase⟩ := cloneEntry_eq_some hentry
  rw [FdTable.addFdEntry_of_unmapped hnew] at hadd
  obtain rfl := Option.some.inj hadd
  constructor
  · intro fd hmaps
    rcases FdTable.maps_insert.mp hmaps with ⟨rfl, rfl⟩ | ⟨-, hmaps⟩
    · have hneg := h e.fd ⟨e, he, rfl⟩
      rcases hcase with ⟨hpos, -, -⟩ | ⟨-, rfl, -⟩
      · omega
      · exact hneg
    · exact hcopy fd hmaps
  · rcases hcase with ⟨-, -, rfl⟩ | ⟨-, -, rfl⟩
    · exact htables
    · exact htables

theorem startProcess_stays {child : Int} {sharedUmask sharedFiles : Bool} {u : Unit}
    (h : InvalidStays w) (hbacked : w.manager.fdTableMap.Backed)
    (hrun : startProcess pid child sharedUmask sharedFiles w = some (u, w')) :
    InvalidStays w' := by
  rw [invalidStays_iff] at h ⊢
  rcases startProcess_eq_some hrun with ⟨-, map, hshare, htables, -⟩ |
    ⟨-, t, copy, w₁, w₂, hsame, ht, hloop, htables, -⟩
  · rintro p fd ⟨t, ht, hmaps⟩
    rw [table_of_share hshare htables] at ht
    exact h _ fd ⟨t, ht, hmaps⟩
  · have hcopied := cloneEntries_stay (fun fd hmaps => h pid fd ⟨t, ht, hmaps⟩) hloop
    rw [hcopied.2, hsame.fdTableMap] at htables
    intro p fd hmaps
    rcases (maps_of_create hbacked htables p (-1) fd).mp hmaps with ⟨-, hmaps⟩ | ⟨-, hmaps⟩
    · exact hcopied.1 fd hmaps
    · exact h p fd hmaps

theorem simulated_stays {simulated : Prop} [Decidable simulated] {tracedFd value other : Int}
    (h : InvalidStays w)
    (hrun : (if simulated then do
        addFd pid tracedFd syscallSimulated flags
        return value
      else return other : Replay Int) w = some (replayed, w')) : InvalidStays w' := by
  split at hrun
  · obtain ⟨-, u, hadd⟩ := bind_pure_eq_some.mp hrun
    exact h.negative (by decide) hadd
  · obtain rfl := (Prod.mk.inj (Option.some.inj hrun)).2
    exact h

theorem simulateDescriptor_stays {tracedFd : Int} (h : InvalidStays w)
    (hrun : simulateDescriptor pid tracedFd flags w = some (replayed, w')) :
    InvalidStays w' :=
  simulated_stays h hrun

theorem accept4_stays (h : InvalidStays w)
    (hrun : accept4ProcessRow pid returnValue w = some (replayed, w')) : InvalidStays w' :=
  simulated_stays h hrun

theorem socketpair_stays {held readFd writeFd : Int} (h : InvalidStays w)
    (hrun : socketpairProcessRow pid held readFd writeFd w = some (replayed, w')) :
    InvalidStays w' := by
  obtain ⟨u, w₁, hread, hrest⟩ := bind_eq_some.mp hrun
  obtain ⟨-, u', hwrite⟩ := bind_pure_eq_some.mp hrest
  exact (h.negative (by decide) hread).negative (by decide) hwrite

end Programs

theorem free_iff_noEntry {w : World} {a : Execution} (h : redirects a = false) :
    Free w a ↔ NoEntry w a.pid := by
  simp [Free, NoEntry, h]

/-- One record keeps -1 invalid just when it does not enter what it opened for it. -/
theorem step_stays_iff {opts : Options} {w w' : World} {a : Execution} (h : InvalidStays w)
    (hbacked : w.manager.fdTableMap.Backed) (hchanges : changesTables a.kind = true)
    (hstep : executeStep opts w a = some w') : InvalidStays w' ↔ ¬EntersInvalid w a := by
  obtain ⟨m, replayed, hm, hrun⟩ := executeStep_eq_some hstep
  have hprogram := @tableProgram_of_module opts _ _ hchanges hm
  generalize processRow opts m a.position.1 a.position.2 = program at hprogram hrun
  have hnever : InvalidStays w' → overlooks a = false → (InvalidStays w' ↔ ¬EntersInvalid w a) := by
    intro hstays hlooks
    refine iff_of_true hstays fun henters => ?_
    rw [EntersInvalid, hlooks] at henters
    exact Bool.false_ne_true henters.1
  cases hprogram with
  | open_ tracedFd hopen htraced =>
      cases hqueued : a.queued with
      | true =>
          rw [hqueued, if_pos rfl] at htraced
          refine hnever ?_ ?_
          · rw [open_stays_iff h hrun, htraced, int32_int32]
            rintro ⟨⟨hlt, heq⟩, -⟩
            omega
          · rcases hopen with hkind | ⟨hkind, -⟩ <;> simp [overlooks, hkind, hqueued]
      | false =>
          rw [hqueued, if_neg Bool.false_ne_true] at htraced
          have hkind : a.kind = .open_ := hopen.resolve_right fun hboth => by
            rw [hqueued] at hboth
            exact absurd hboth.2 Bool.false_ne_true
          have hfree := @free_iff_noEntry w a (by simp [redirects, hkind])
          have henters : EntersInvalid w a ↔ (-1 < a.returnValue ∧ int32 a.returnValue = -1) ∧
              opens w.openFds w.reply.value 0 = true ∧ NoEntry w a.pid := by
            simp [EntersInvalid, overlooks, Succeeds, hfree, hkind, hqueued,
              and_comm (b := int32 a.returnValue = -1)]
          rw [open_stays_iff h hrun, henters, htraced]
  | openat hkind hqueued =>
      have hfree := @free_iff_noEntry w a (by simp [redirects, hkind])
      have henters : EntersInvalid w a ↔ (a.returnValue ≠ -1 ∧ int32 a.returnValue = -1) ∧
          (¬(w.resolves a.pid (a.row.int .descriptor) = some syscallSimulated ∧
            relative (a.row.text .given_pathname) = true) ∧
            opens w.openFds w.reply.value 0 = true) ∧ NoEntry w a.pid := by
        simp [EntersInvalid, overlooks, Succeeds, hfree, hkind, hqueued,
          and_comm (b := int32 a.returnValue = -1)]
      rw [openat_stays_iff h hrun, henters]
      rfl
  | creat hkind _ =>
      have hfree := @free_iff_noEntry w a (by simp [redirects, hkind])
      have henters : EntersInvalid w a ↔ int32 a.returnValue = -1 ∧
          opens w.openFds w.reply.value 0 = true ∧ NoEntry w a.pid := by
        simp [EntersInvalid, overlooks, Succeeds, hfree, hkind]
      rw [creat_stays_iff h hrun, henters]
      rfl
  | dup hkind =>
      have hfree := @free_iff_noEntry w a (by simp [redirects, hkind])
      have henters : EntersInvalid w a ↔ int32 a.returnValue = -1 ∧
          (∃ fd ∈ w.openFds, w.resolves a.pid (a.row.int .descriptor) = some fd ∧
            fd ≠ syscallSimulated ∧ opens w.openFds w.reply.value 0 = true) ∧
          NoEntry w a.pid := by
        simp [EntersInvalid, overlooks, Succeeds, hfree, hkind]
      rw [dup_stays_iff h hrun, henters]
  | fcntl hkind =>
      have hfree := @free_iff_noEntry w a (by simp [redirects, hkind])
      have henters : EntersInvalid w a ↔ ((a.row.int .command_value = fDupfd ∨
          a.row.int .command_value = fDupfdCloexec) ∧ int32 a.returnValue = -1) ∧
          (∃ fd ∈ w.openFds, w.resolves a.pid (a.row.int .descriptor) = some fd ∧
            opens w.openFds w.reply.value (a.row.int .argument_value) = true) ∧
          NoEntry w a.pid := by
        simp [EntersInvalid, overlooks, Succeeds, hfree, hkind,
          and_comm (b := int32 a.returnValue = -1)]
      rw [fcntl_stays_iff h hrun, henters]
  | dup2 hkind =>
      have hredirects : redirects a = true := by simp [redirects, hkind]
      rw [@redirect_stays_iff w w' a.pid a.returnValue replayed _ _ _ _
        (fun _ _ => decide (w.reply.value ≠ -1)) (fun _ _ => rfl) h hrun]
      apply not_congr
      simp only [EntersInvalid, overlooks, Succeeds, Free, hkind, hredirects, Bool.and_true,
        decide_eq_true_eq]
      constructor
      · rintro ⟨hfailed, t, fd, hopen, ht, hfd, hne, hreply, hisFd, hnone⟩
        exact ⟨hfailed, ⟨t, fd, hopen, ht, hfd, hne, hreply, hisFd, by rintro ⟨⟩⟩, t, ht,
          hnone.imp_right fun hnew => ⟨trivial, hnew⟩⟩
      · rintro ⟨hfailed, ⟨t, fd, hopen, ht, hfd, hne, hreply, hisFd, -⟩, s, hs, hnone⟩
        obtain rfl := Option.some.inj (ht.symm.trans hs)
        exact ⟨hfailed, t, fd, hopen, ht, hfd, hne, hreply, hisFd, hnone.imp_right And.right⟩
  | dup3 hkind =>
      have hredirects : redirects a = true := by simp [redirects, hkind]
      rw [@redirect_stays_iff w w' a.pid a.returnValue replayed _ _ _ _
        (fun x y => decide (w.reply.value ≠ -1 ∧ x ≠ y)) (fun _ _ => rfl) h hrun]
      apply not_congr
      simp only [EntersInvalid, overlooks, Succeeds, Free, hkind, hredirects, Bool.and_true,
        decide_eq_true_eq]
      constructor
      · rintro ⟨hfailed, t, fd, hopen, ht, hfd, hne, ⟨hreply, hother⟩, hisFd, hnone⟩
        exact ⟨hfailed, ⟨t, fd, hopen, ht, hfd, hne, hreply, hisFd, fun _ => hother⟩, t, ht,
          hnone.imp_right fun hnew => ⟨trivial, hnew⟩⟩
      · rintro ⟨hfailed, ⟨t, fd, hopen, ht, hfd, hne, hreply, hisFd, hother⟩, s, hs, hnone⟩
        obtain rfl := Option.some.inj (ht.symm.trans hs)
        exact ⟨hfailed, t, fd, hopen, ht, hfd, hne, ⟨hreply, hother trivial⟩, hisFd,
          hnone.imp_right And.right⟩
  | close _ hkind => exact hnever (close_stays h hrun) (by simp [overlooks, hkind])
  | pipe hkind => exact hnever (pipe_stays h hrun) (by simp [overlooks, hkind])
  | exit hkind => exact hnever (exit_stays h hbacked hrun) (by simp [overlooks, hkind])
  | execve hkind => exact hnever (execve_stays h hrun) (by simp [overlooks, hkind])
  | clone hkind =>
      obtain ⟨sharedUmask, hstart⟩ := cloneProcessRow_eq_some hrun
      exact hnever (startProcess_stays h hbacked hstart) (by simp [overlooks, hkind])
  | vfork hkind =>
      exact hnever (startProcess_stays h hbacked (vforkProcessRow_eq_some hrun))
        (by simp [overlooks, hkind])
  | socket hkind => exact hnever (simulateDescriptor_stays h hrun) (by simp [overlooks, hkind])
  | socketpair hkind => exact hnever (socketpair_stays h hrun) (by simp [overlooks, hkind])
  | accept hkind => exact hnever (simulateDescriptor_stays h hrun) (by simp [overlooks, hkind])
  | accept4 hkind => exact hnever (accept4_stays h hrun) (by simp [overlooks, hkind])

/-- While no record enters for -1 what it opened, -1 resolves to no descriptor; and
the first record that does enter it makes -1 a descriptor. -/
theorem invalid_descriptor_stays_negative (opts : Options) (start : World) (pid : Int)
    (maxFds : Nat) (w : World) (hstart : Prepared start pid maxFds)
    (h : (replaySystem opts start).ReachVia
      (fun w a => changesTables a.kind = true ∧ ¬EntersInvalid w a) w) :
    InvalidStays w ∧ ∀ a w', changesTables a.kind = true → executeStep opts w a = some w' →
      (InvalidStays w' ↔ ¬EntersInvalid w a) := by
  have hinvariant : Coupled w ∧ InvalidStays w := by
    refine h.invariant (P := fun w => Coupled w ∧ InvalidStays w) _ ⟨?_, ?_⟩ ?_
    · exact coupled_of_initialized ⟨_, _, _, _, hstart.manager⟩
    · rw [invalidStays_iff]
      intro p fd hmaps
      obtain ⟨-, rfl, hstd⟩ := (hstart.maps_iff p (-1) fd).mp hmaps
      rcases hstd with hstd | hstd | hstd | hstd
      · exact absurd hstd (by decide)
      · omega
      · omega
      · omega
    · rintro s a s' - ⟨hcoupled, hstays⟩ ⟨hchanges, hharmless⟩ hstep
      exact ⟨hcoupled.step hstep,
        (step_stays_iff hstays hcoupled.tables hchanges hstep).mpr hharmless⟩
  refine ⟨hinvariant.2, ?_⟩
  intro a w' hchanges hstep
  exact step_stays_iff hinvariant.2 hinvariant.1.tables hchanges hstep

/-- A `dup` of 0 that failed in the traced program. -/
def failedDup : Execution :=
  queuedCall .dup 1 (-1) 0

/-- A `dup` that fails in both leaves -1 without a descriptor. -/
theorem refusedDup_stays :
    InvalidStays (worldAfter (startWorld firstRefused) [failedDup]) ∧
      ∀ a w', changesTables a.kind = true →
        executeStep quiet (worldAfter (startWorld firstRefused) [failedDup]) a = some w' →
        (InvalidStays w' ↔
          ¬EntersInvalid (worldAfter (startWorld firstRefused) [failedDup]) a) := by
  refine invalid_descriptor_stays_negative quiet (startWorld firstRefused) 1 16 _
    (startWorld_prepared firstRefused) (.step .init (a := failedDup) ⟨rfl, ?_⟩ rfl)
  rintro ⟨-, ⟨fd, -, -, -, hopens⟩, -⟩
  exact absurd (show opens {0, 1, 2} (-1) 0 = true from hopens) (by decide)

/-- A `dup` that failed in the trace and succeeds in the replay makes -1 a
descriptor. -/
theorem failedDup_enters_invalid :
    (worldAfter (startWorld inOrder) [failedDup]).resolves 1 (-1) = some 3 ∧
      ¬∀ opts start pid maxFds w, Prepared start pid maxFds →
        (replaySystem opts start).ReachVia (fun _ a => a.kind = .dup) w → InvalidStays w := by
  refine ⟨rfl, fun h => ?_⟩
  have hneg := h quiet (startWorld inOrder) 1 16 _ (startWorld_prepared inOrder)
    (.step .init (a := failedDup) rfl rfl) 1 3 rfl
  omega

end SyscallReplayer.InvalidDescriptor
