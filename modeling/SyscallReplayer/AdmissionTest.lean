import SyscallReplayer.Scheduler

/-!
# The admission test on machine words

`checkExecutionValidation` as the code computes it: times and ids are stored as
signed words and read back as unsigned ones, the records in the table are compared
by the addresses of their objects, and the loop returns early. It comes down to one
inequality for every other running record.
-/

namespace SyscallReplayer.AdmissionTest

open Scheduler

/-- The members of a module object that the test reads, and where the object is. -/
structure Running where
  address : Nat
  uniqueIdVal : Int64
  timeCalledVal : Int64
  timeReturnedVal : Int64
deriving DecidableEq

namespace Running

def timeCalled (m : Running) : UInt64 :=
  m.timeCalledVal.toUInt64

def timeReturned (m : Running) : UInt64 :=
  m.timeReturnedVal.toUInt64

end Running

def ullongMax : UInt64 :=
  0xFFFFFFFFFFFFFFFF

/-- The end of `ExitSystemCallTraceReplayModule::prepareRow`. -/
def exitPrepared (m : Running) : Running :=
  { m with timeReturnedVal := ullongMax.toInt64 }

def checkSequential (lastExecutedSyscallID : UInt64) (check : Running) : Bool :=
  check.uniqueIdVal.toUInt64 ≤ lastExecutedSyscallID + 150

/-- The loop over `currentExecutions`. -/
def runningLoop (check : Running) : List (Int × Option Running) → Bool
  | [] => true
  | running :: rest =>
      match running.2 with
      | none => false
      | some compare =>
          if check.address ≠ compare.address then
            if !((check.timeCalled ≥ compare.timeCalled &&
                check.timeCalled ≤ compare.timeReturned) ||
                (check.timeReturned ≥ compare.timeCalled &&
                check.timeReturned ≤ compare.timeReturned)) then
              if check.timeCalled > compare.timeReturned then false
              else runningLoop check rest
            else runningLoop check rest
          else runningLoop check rest

def checkExecutionValidation (lastExecutedSyscallID : UInt64)
    (currentExecutions : List (Int × Option Running)) (check : Running) : Bool :=
  if !checkSequential lastExecutedSyscallID check then false
  else runningLoop check currentExecutions

/-- `o` has not returned before `check` was called, if it is another object. -/
def Admits (check o : Running) : Prop :=
  o.address ≠ check.address → check.timeCalled ≤ o.timeReturned

variable {check : Running} {last : UInt64}

theorem overlaps_or_iff {a b c d : UInt64} (hab : a ≤ b) :
    ((c ≤ a ∧ a ≤ d) ∨ (c ≤ b ∧ b ≤ d) ∨ a ≤ d) ↔ a ≤ d := by
  constructor
  · rintro (⟨-, had⟩ | ⟨-, hbd⟩ | had)
    · exact had
    · exact UInt64.le_trans hab hbd
    · exact had
  · intro had
    exact .inr (.inr had)

theorem runningLoop_cons (hcheck : check.timeCalled ≤ check.timeReturned) (tid : Int)
    (o : Running) (rest : List (Int × Option Running)) :
    runningLoop check ((tid, some o) :: rest) = true ↔
      Admits check o ∧ runningLoop check rest = true := by
  rw [runningLoop, Admits]
  dsimp only
  split
  · rename_i hother
    have hiff := @overlaps_or_iff _ _ o.timeCalled o.timeReturned hcheck
    rw [forall_prop_of_true (Ne.symm hother)]
    split
    · split
      · rename_i hlate
        have hnot : ¬check.timeCalled ≤ o.timeReturned := UInt64.not_le.mpr hlate
        exact iff_of_false Bool.false_ne_true fun hboth => hnot hboth.1
      · rename_i hearly
        have hle : check.timeCalled ≤ o.timeReturned := UInt64.not_lt.mp hearly
        exact (and_iff_right hle).symm
    · rename_i hoverlaps
      simp only [ge_iff_le, Bool.not_eq_true', Bool.not_eq_false, Bool.or_eq_true,
        Bool.and_eq_true, decide_eq_true_eq] at hoverlaps
      have hle := hiff.mp (hoverlaps.imp_right .inl)
      exact (and_iff_right hle).symm
  · rename_i hsame
    rw [forall_prop_of_false (not_not.mpr (not_not.mp hsame).symm)]
    exact (and_iff_right trivial).symm

theorem runningLoop_iff (hcheck : check.timeCalled ≤ check.timeReturned)
    (entries : List (Int × Option Running)) :
    runningLoop check entries = true ↔
      (∀ e ∈ entries, e.2 ≠ none) ∧ ∀ e ∈ entries, ∀ o, e.2 = some o → Admits check o := by
  induction entries with
  | nil => simp [runningLoop]
  | cons running rest ih =>
      obtain ⟨tid, _ | o⟩ := running
      · simp [runningLoop]
      · rw [runningLoop_cons hcheck, ih]
        simp only [List.forall_mem_cons, Option.some.injEq, forall_eq', ne_eq, reduceCtorEq,
          not_false_eq_true, true_and]
        exact and_left_comm

theorem checkExecutionValidation_iff (hcheck : check.timeCalled ≤ check.timeReturned)
    (entries : List (Int × Option Running)) :
    checkExecutionValidation last entries check = true ↔
      checkSequential last check = true ∧
        (∀ e ∈ entries, e.2 ≠ none) ∧ ∀ e ∈ entries, ∀ o, e.2 = some o → Admits check o := by
  rw [← runningLoop_iff hcheck]
  unfold checkExecutionValidation
  cases checkSequential last check <;> simp

theorem admits_of_called_le {o : Running} (horder : check.timeCalled ≤ o.timeCalled)
    (ho : o.timeCalled ≤ o.timeReturned) : Admits check o :=
  fun _ => UInt64.le_trans horder ho

theorem admits_self : Admits check check :=
  fun hother => absurd rfl hother

theorem checkExecutionValidation_of_subset {entries fewer : List (Int × Option Running)}
    (hcheck : check.timeCalled ≤ check.timeReturned) (hsub : fewer ⊆ entries)
    (h : checkExecutionValidation last entries check = true) :
    checkExecutionValidation last fewer check = true := by
  rw [checkExecutionValidation_iff hcheck] at h ⊢
  obtain ⟨hid, hnull, hadmits⟩ := h
  exact ⟨hid, fun e he => hnull e (hsub he), fun e he => hadmits e (hsub he)⟩

/-- The id of a record, whose sign bit is clear, is compared as a number as long as
the window does not wrap around. -/
theorem checkSequential_iff (hid : 0 ≤ check.uniqueIdVal) (hlast : last.toNat + 150 < 2 ^ 64) :
    checkSequential last check = true ↔ check.uniqueIdVal.toInt ≤ last.toNat + 150 := by
  have hcast : (check.uniqueIdVal.toUInt64.toNat : Int) = check.uniqueIdVal.toInt := by
    rw [Int64.toNat_toUInt64_of_le hid, Int64.cast_toNatClampNeg _ hid]
  have hadd : (last + 150).toNat = last.toNat + 150 := by
    rw [UInt64.toNat_add]
    exact Nat.mod_eq_of_lt hlast
  rw [checkSequential, decide_eq_true_eq, UInt64.le_iff_toNat_le, hadd]
  omega

theorem pair_admits {o : Running} (hcheck : check.timeCalled ≤ check.timeReturned)
    (ho : o.timeCalled ≤ o.timeReturned) (hcheckId : checkSequential last check = true)
    (hoId : checkSequential last o = true) (p q : Int) :
    checkExecutionValidation last [(p, some check), (q, some o)] check = true ∨
      checkExecutionValidation last [(p, some check), (q, some o)] o = true := by
  rw [checkExecutionValidation_iff hcheck, checkExecutionValidation_iff ho]
  simp only [List.forall_mem_cons, Option.some.injEq, forall_eq', ne_eq, reduceCtorEq,
    not_false_eq_true, true_and, List.not_mem_nil, false_imp_iff, implies_true, and_true]
  rcases UInt64.le_total check.timeCalled o.timeCalled with horder | horder
  · exact .inl ⟨hcheckId, admits_self, admits_of_called_le horder ho⟩
  · exact .inr ⟨hoId, admits_of_called_le horder hcheck, admits_self⟩

theorem exitPrepared_timeReturned (m : Running) : (exitPrepared m).timeReturned = ullongMax :=
  UInt64.toUInt64_toInt64 ullongMax

/-- The copy that the scheduler has for a module object. -/
structure Shows (m : Running) (c : Copy) : Prop where
  uniqueId : c.record.uniqueId = m.uniqueIdVal.toUInt64.toNat
  timeCalled : c.record.timeCalled = m.timeCalled.toNat
  timeReturned : c.record.timeReturned = m.timeReturned.toNat

theorem compatible_iff {c d : Copy} {o : Running} (hc : Shows check c) (hd : Shows o d)
    (hsame : c = d ↔ check.address = o.address)
    (hcheck : check.timeCalled ≤ check.timeReturned) :
    State.compatible c (some d) = true ↔ Admits check o := by
  have hle : c.record.timeCalled ≤ c.record.timeReturned := by
    rw [hc.timeCalled, hc.timeReturned]
    exact UInt64.le_iff_toNat_le.mp hcheck
  have hadmits : Admits check o ↔ (c ≠ d → c.record.timeCalled ≤ d.record.timeReturned) := by
    rw [Admits, UInt64.le_iff_toNat_le, hc.timeCalled, hd.timeReturned, Ne, Ne, hsame,
      eq_comm (a := o.address)]
  rw [hadmits, State.compatible]
  split
  · rename_i hcd
    exact iff_of_true rfl fun hne => absurd hcd hne
  · rename_i hcd
    rw [forall_prop_of_true hcd]
    split
    · rename_i hoverlaps
      exact iff_of_true rfl (by omega)
    · rw [Bool.not_eq_true', decide_eq_false_iff_not, gt_iff_lt, not_lt]

/-- The scheduler, whose ids and times are numbers, decides as the code does while the
window does not wrap around. -/
theorem scheduler_checkExecutionValidation {s : State} {copyOf : Running → Copy}
    {entries : List (Int × Option Running)} (hshows : ∀ m, Shows m (copyOf m))
    (htable : s.currentExecutions = entries.map fun e => (e.1, e.2.map copyOf))
    (hlast : s.lastExecutedSyscallID = last.toNat) (hwindow : last.toNat + 150 < 2 ^ 64)
    (hsame : ∀ e ∈ entries, ∀ o, e.2 = some o →
      (copyOf check = copyOf o ↔ check.address = o.address))
    (hcheck : check.timeCalled ≤ check.timeReturned) :
    s.checkExecutionValidation (copyOf check) = checkExecutionValidation last entries check := by
  rw [Bool.eq_iff_iff, checkExecutionValidation_iff hcheck, State.checkExecutionValidation,
    Bool.and_eq_true, List.all_eq_true]
  apply and_congr
  · rw [State.checkSequential, checkSequential, decide_eq_true_eq, decide_eq_true_eq, hlast,
      (hshows check).uniqueId, UInt64.le_iff_toNat_le, UInt64.toNat_add]
    have hadd : (last.toNat + (150 : UInt64).toNat) % 2 ^ 64 = last.toNat + 150 :=
      Nat.mod_eq_of_lt hwindow
    rw [hadd]
  · rw [htable]
    simp only [List.forall_mem_map]
    constructor
    · intro hall
      constructor
      · intro e he hnone
        have hcompatible := hall e he
        rw [hnone] at hcompatible
        cases hcompatible
      · intro e he o ho
        have hcompatible := hall e he
        rw [ho] at hcompatible
        exact (compatible_iff (hshows check) (hshows o) (hsame e he o ho) hcheck).mp hcompatible
    · rintro ⟨hnull, hadmits⟩ e he
      cases ho : e.2 with
      | none => exact absurd ho (hnull e he)
      | some o =>
          exact (compatible_iff (hshows check) (hshows o) (hsame e he o ho) hcheck).mpr
            (hadmits e he o ho)

/-- The test is one inequality for every other running record: of two records in the
window one passes against the other, and a table with an entry less admits no less. An
`exit` has the greatest time there is. -/
theorem admission_test_characterised (last : UInt64) :
    (∀ entries check, check.timeCalled ≤ check.timeReturned →
      (∀ e ∈ entries, ∀ o, e.2 = some o → o.timeCalled ≤ o.timeReturned) →
      (checkExecutionValidation last entries check = true ↔
        check.uniqueIdVal.toUInt64 ≤ last + 150 ∧ (∀ e ∈ entries, e.2 ≠ none) ∧
          ∀ e ∈ entries, ∀ o, e.2 = some o → o.address ≠ check.address →
            check.timeCalled ≤ o.timeReturned)) ∧
    (∀ check : Running, 0 ≤ check.uniqueIdVal → last.toNat + 150 < 2 ^ 64 →
      (check.uniqueIdVal.toUInt64 ≤ last + 150 ↔
        check.uniqueIdVal.toInt ≤ last.toNat + 150)) ∧
    (∀ check o : Running, check.address ≠ o.address →
      check.timeCalled ≤ check.timeReturned → o.timeCalled ≤ o.timeReturned →
      check.uniqueIdVal.toUInt64 ≤ last + 150 → o.uniqueIdVal.toUInt64 ≤ last + 150 →
      ∀ p q, checkExecutionValidation last [(p, some check), (q, some o)] check = true ∨
        checkExecutionValidation last [(p, some check), (q, some o)] o = true) ∧
    (∀ entries check, check.timeCalled ≤ check.timeReturned → ∀ tid : Int,
      checkExecutionValidation last entries check = true →
      checkExecutionValidation last (entries.filter fun e => e.1 ≠ tid) check = true) ∧
    ∀ m, (exitPrepared m).timeReturned.toNat = 2 ^ 64 - 1 := by
  refine ⟨?_, ?_, ?_, ?_, ?_⟩
  · intro entries check hcheck _
    rw [checkExecutionValidation_iff hcheck, checkSequential, decide_eq_true_eq]
    rfl
  · intro check hid hlast
    rw [← checkSequential_iff hid hlast, checkSequential, decide_eq_true_eq]
  · intro check o _ hcheck ho hcheckId hoId p q
    exact pair_admits hcheck ho (decide_eq_true hcheckId) (decide_eq_true hoId) p q
  · intro entries check hcheck tid
    exact checkExecutionValidation_of_subset hcheck List.filter_sublist.subset
  · intro m
    rw [exitPrepared_timeReturned]
    rfl

/-- An `exit` that is called at 10. -/
def runningExit : Running :=
  exitPrepared ⟨1, 5, 10, 12⟩

/-- A record that is called at 20, after the traced `exit` returned. -/
def runningRead : Running :=
  ⟨2, 6, 20, 25⟩

def runningTable : List (Int × Option Running) :=
  [(1, some runningExit), (2, some runningRead)]

/-- A record is admitted beside an `exit`, which never returns. -/
theorem runningRead_admitted :
    checkExecutionValidation 1 runningTable runningRead = true ∧
      (runningRead.uniqueIdVal.toUInt64 ≤ 1 + 150 ↔ runningRead.uniqueIdVal.toInt ≤ 1 + 150) ∧
      (checkExecutionValidation 1 runningTable runningExit = true ∨
        checkExecutionValidation 1 runningTable runningRead = true) ∧
      checkExecutionValidation 1 (runningTable.filter fun e => e.1 ≠ 1) runningRead = true := by
  have hadmitted : checkExecutionValidation 1 runningTable runningRead = true :=
    ((admission_test_characterised 1).1 runningTable runningRead (by decide) (by decide)).mpr
      (by decide)
  exact ⟨hadmitted, (admission_test_characterised 1).2.1 runningRead (by decide) (by decide),
    (admission_test_characterised 1).2.2.1 runningExit runningRead (by decide) (by decide)
      (by decide) (by decide) (by decide) 1 2,
    (admission_test_characterised 1).2.2.2.1 runningTable runningRead (by decide) 1 hadmitted⟩

end SyscallReplayer.AdmissionTest
