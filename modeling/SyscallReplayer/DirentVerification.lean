import SyscallReplayer.ReadVerification

/-!
# Verifying directory entries

In verify mode `getdents` walks over the traced and the replayed entries side by
side. `compareResults` answers whether they agree, its caller reports a failure
when they do, and the names are compared by their addresses.
-/

namespace SyscallReplayer.DirentVerification

open CInt ReplayKernel ReplayWorld ReplayModules RowDecoding ReadVerification

abbrev Memory := Int → UInt8

/-- The bytes of a word, the lowest first. -/
def readWord (mem : Memory) (address : Int) : Nat → Nat
  | 0 => 0
  | size + 1 => (mem address).toNat + 256 * readWord mem (address + 1) size

def dOff (mem : Memory) (dirent : Int) : Int :=
  (readWord mem (dirent + 8) 8 : Int).bmod (2 ^ 64)

def dReclen (mem : Memory) (dirent : Int) : Nat :=
  readWord mem (dirent + 16) 2

/-- The address that the array `d_name` decays to. -/
def dName (dirent : Int) : Int :=
  dirent + 19

/-- The kernel puts the type at the end of the record. -/
def direntType (mem : Memory) (dirent : Int) : UInt8 :=
  mem (dirent + dReclen mem dirent - 1)

def getDirentTypeStr (type : UInt8) : String :=
  if type = 8 then "regular"
  else if type = 4 then "directory"
  else if type = 1 then "fifo"
  else if type = 12 then "socket"
  else if type = 10 then "symlink"
  else if type = 6 then "block dev"
  else if type = 2 then "char dev"
  else "unknown"

/-- The loop of `compareResults`, for as many records as there is fuel. -/
def compareFrom (mem : Memory) (returnVal realExecution replayed : Int) :
    Nat → Int → Option Bool
  | 0, _ => none
  | fuel + 1, pos =>
      if pos < returnVal then
        let direntRecOrg := realExecution + pos
        let direntRecReplayed := replayed + pos
        let typeStrOrg := getDirentTypeStr (direntType mem direntRecOrg)
        let typeStrReplayed := getDirentTypeStr (direntType mem direntRecReplayed)
        if typeStrOrg ≠ typeStrReplayed ∨ dOff mem direntRecOrg ≠ dOff mem direntRecReplayed ∨
            dReclen mem direntRecOrg ≠ dReclen mem direntRecReplayed ∨
            dName direntRecOrg ≠ dName direntRecReplayed then
          some false
        else
          compareFrom mem returnVal realExecution replayed fuel
            (int32 (pos + dReclen mem direntRecOrg))
      else some true

/-- Records are not empty, so that a byte of fuel each is enough. -/
def compareResults (mem : Memory) (returnVal realExecution sizeOfRealExecution replayed
    sizeOfReplay : Int) : Option Bool :=
  if sizeOfRealExecution ≠ sizeOfReplay ∨ sizeOfRealExecution = 0 then some false
  else compareFrom mem returnVal realExecution replayed (returnVal.toNat + 1) 0

/-- Whether `processRow` reports a failure after a call that returned `q`, with the
traced entries at `realExecution` and the replayed ones at `replayed`. -/
def verifiedDirents (mem : Memory) (o : ModuleObject) (realExecution replayed q : Int) :
    Option Bool :=
  match o.module.members with
  | .getdents _ _ returnVal =>
      compareResults mem returnVal realExecution returnVal replayed (int32 q)
  | _ => none

structure Dirent where
  type : UInt8
  off : Int
  reclen : Nat
  name : List UInt8
deriving DecidableEq

/-- The record at an address; its name ends at the first zero. -/
def direntAt (mem : Memory) (dirent : Int) : Dirent where
  type := direntType mem dirent
  off := dOff mem dirent
  reclen := dReclen mem dirent
  name := ((List.range (dReclen mem dirent - 19)).map fun i => mem (dirent + 18 + i)).takeWhile
    (· ≠ 0)

/-- The records that tile a buffer from an address on. -/
inductive Listing (mem : Memory) : Int → Nat → List Dirent → Prop
  | nil (address : Int) : Listing mem address 0 []
  | cons {address : Int} {rest : Nat} {records : List Dirent}
      (hreclen : 0 < dReclen mem address)
      (hrest : Listing mem (address + dReclen mem address) rest records) :
      Listing mem address (dReclen mem address + rest) (direntAt mem address :: records)

/-- What a `getdents` leaves: a failure, or records that tile the bytes it counts. -/
structure Result (mem : Memory) (address value : Int) (records : List Dirent) : Prop where
  failure : -1 ≤ value
  fits : value < 2 ^ 31
  listing : Listing mem address value.toNat records

/-- A failure is reported just where the lists of records differ. -/
def DecidesEquality (mem : Memory) (o : ModuleObject) (realExecution replayed q : Int)
    (traced records : List Dirent) : Prop :=
  ∃ reported, verifiedDirents mem o realExecution replayed q = some reported ∧
    (reported = true ↔ traced ≠ records)

section

variable {mem : Memory} {realExecution replayed v q : Int} {traced records : List Dirent}

theorem Result.fitsInt (h : Result mem replayed q records) : FitsInt q := by
  have hfailure := h.failure
  exact ⟨by omega, h.fits⟩

theorem Result.eq_nil (h : Result mem replayed q records) (hq : q < 0) : records = [] := by
  have hlisting := h.listing
  have hzero : q.toNat = 0 := by omega
  rw [hzero] at hlisting
  generalize hlength : 0 = length at hlisting
  cases hlisting with
  | nil => rfl
  | cons hreclen _ => omega

/-- Names in different buffers have different addresses, so that the walk ends at
the first record. -/
theorem compareFrom_distinct (h : realExecution ≠ replayed) {returnVal : Int} (fuel : Nat)
    (pos : Int) :
    compareFrom mem returnVal realExecution replayed (fuel + 1) pos =
      some (decide (returnVal ≤ pos)) := by
  have hname : dName (realExecution + pos) ≠ dName (replayed + pos) := by
    unfold dName
    omega
  rw [compareFrom]
  split
  · rename_i hpos
    rw [if_pos (.inr (.inr (.inr hname))), decide_eq_false (not_le.mpr hpos)]
  · rename_i hpos
    rw [decide_eq_true (not_lt.mp hpos)]

theorem compareResults_distinct (h : realExecution ≠ replayed) :
    compareResults mem v realExecution v replayed q = some (decide (v = q ∧ v < 0)) := by
  unfold compareResults
  split
  · rename_i hsizes
    have hnot : ¬(v = q ∧ v < 0) := by
      rintro ⟨heq, hneg⟩
      rcases hsizes with hne | hzero
      · exact hne heq
      · omega
    rw [decide_eq_false hnot]
  · rename_i hsizes
    rw [not_or, not_not] at hsizes
    rw [compareFrom_distinct h]
    congr 2
    apply propext
    constructor
    · intro hle
      exact ⟨hsizes.1, by omega⟩
    · rintro ⟨-, hneg⟩
      exact hneg.le

end

section

variable {p o : ModuleObject} {r : Record} {queued : Bool}

theorem executed_getdents (hkind : p.kind = .getdents) (h : executed p r queued = some o) :
    o.module.members = .getdents (r.row.int .descriptor) (r.row.int .count)
      (if queued then int32 (r.row.int .return_value) else r.row.int .return_value) := by
  obtain ⟨prepared, hprepared, hmoved⟩ := Option.bind_eq_some_iff.mp h
  obtain ⟨members, hmembers, heq⟩ := Option.bind_eq_some_iff.mp hprepared
  obtain rfl := Option.some.inj heq
  rw [hkind] at hmembers
  obtain rfl := Option.some.inj hmembers
  split at hmoved
  · rename_i hqueued
    obtain ⟨m, hm, rfl⟩ := Option.map_eq_some_iff.mp hmoved
    obtain ⟨kind, -, rfl⟩ := Option.map_eq_some_iff.mp hm
    rw [if_pos hqueued]
    rfl
  · rename_i hown
    obtain rfl := Option.some.inj hmoved
    rw [if_neg hown]

/-- The verification decides equality just where the lists are equal and the calls
did not both fail alike. -/
theorem decidesEquality_iff {mem : Memory} {realExecution replayed q : Int}
    {traced records : List Dirent} (hkind : p.kind = .getdents)
    (h : executed p r queued = some o) (hdistinct : realExecution ≠ replayed)
    (htraced : Result mem realExecution (r.row.int .return_value) traced)
    (hreplayed : Result mem replayed q records) :
    DecidesEquality mem o realExecution replayed q traced records ↔
      traced = records ∧ ¬(r.row.int .return_value = -1 ∧ q = -1) := by
  have hmembers := executed_getdents hkind h
  have hvalue := htraced.fitsInt
  have hq := hreplayed.fitsInt
  generalize r.row.int .return_value = v at *
  have hverified : verifiedDirents mem o realExecution replayed q =
      some (decide (v = q ∧ v < 0)) := by
    unfold verifiedDirents
    rw [hmembers]
    dsimp only
    rw [int32_eq_self hvalue.1 hvalue.2, ite_self, int32_eq_self hq.1 hq.2,
      compareResults_distinct hdistinct]
  have htracedFailure := htraced.failure
  have hboth : (v = q ∧ v < 0) ↔ (v = -1 ∧ q = -1) := by
    omega
  unfold DecidesEquality
  rw [hverified]
  by_cases hfailed : v = q ∧ v < 0
  · refine iff_of_false ?_ fun hequal => hequal.2 (hboth.mp hfailed)
    rintro ⟨reported, hreport, hdecides⟩
    rw [decide_eq_true hfailed] at hreport
    -- there are no records to differ
    refine hdecides.mp (Option.some.inj hreport).symm ?_
    rw [htraced.eq_nil hfailed.2, hreplayed.eq_nil (hfailed.1 ▸ hfailed.2)]
  · rw [decide_eq_false hfailed, ← hboth, and_iff_left hfailed]
    constructor
    · rintro ⟨reported, hreport, hdecides⟩
      by_contra hdiffer
      rw [hdecides.mpr hdiffer] at hreport
      cases hreport
    · intro hequal
      exact ⟨false, rfl, iff_of_false Bool.false_ne_true fun hdiffer => hdiffer hequal⟩

end

/-- Buffers at 0, 100 and 200 that hold one entry each, the names being `a`, `b`
and `a`. -/
def direntMemory : Memory := fun address =>
  if address = 16 ∨ address = 116 ∨ address = 216 then 24
  else if address = 18 ∨ address = 218 then 97
  else if address = 118 then 98
  else 0

theorem direntMemory_result {address : Int} (h : dReclen direntMemory address = 24) :
    Result direntMemory address 24 [direntAt direntMemory address] where
  failure := by decide
  fits := by decide
  listing := by
    have hlisting : Listing direntMemory address (dReclen direntMemory address + 0)
        [direntAt direntMemory address] := .cons (by omega) (.nil _)
    rw [h] at hlisting
    exact hlisting

def getdentsRecord (returnValue : Int) : Record where
  row :=
    { int := fun
        | .return_value => returnValue
        | .count => 64
        | _ => 0
      text := fun _ => ""
      bytes := fun _ => []
      isNull := fun _ => false }
  resultInt _ := 0
  resultBytes _ := []
  rest := []

def freshGetdents : ModuleObject where
  module := ⟨.getdents, ⟨0, 0, 0, 0, 0, 0, 0⟩, 0, .none⟩
  verification := ⟨none, [], [], []⟩

theorem equal_listings_decided :
    ∃ o, executed freshGetdents (getdentsRecord 24) true = some o ∧
      DecidesEquality direntMemory o 0 200 24 [direntAt direntMemory 0]
        [direntAt direntMemory 200] := by
  refine ⟨_, rfl, ?_⟩
  exact (@decidesEquality_iff freshGetdents _ (getdentsRecord 24) true direntMemory 0 200 24 _ _
    rfl rfl (by decide) (direntMemory_result rfl) (direntMemory_result rfl)).mpr
    ⟨by decide, by decide⟩

/-- Two failures are reported as different listings, and entries with different
names are not. -/
theorem getdents_check_wrong :
    (∃ o, executed freshGetdents (getdentsRecord (-1)) true = some o ∧
      Result direntMemory 0 (-1) [] ∧ Result direntMemory 100 (-1) [] ∧
      ¬DecidesEquality direntMemory o 0 100 (-1) [] []) ∧
    ∃ o, executed freshGetdents (getdentsRecord 24) true = some o ∧
      Result direntMemory 0 24 [direntAt direntMemory 0] ∧
      Result direntMemory 100 24 [direntAt direntMemory 100] ∧
      ¬DecidesEquality direntMemory o 0 100 24 [direntAt direntMemory 0]
        [direntAt direntMemory 100] := by
  constructor
  · refine ⟨_, rfl, ⟨by decide, by decide, .nil _⟩, ⟨by decide, by decide, .nil _⟩, ?_⟩
    rintro ⟨reported, hverified, hdecides⟩
    obtain rfl := Option.some.inj hverified
    exact hdecides.mp rfl rfl
  · refine ⟨_, rfl, direntMemory_result rfl, direntMemory_result rfl, ?_⟩
    rintro ⟨reported, hverified, hdecides⟩
    obtain rfl := Option.some.inj hverified
    exact absurd (hdecides.mpr (by decide)) (by decide)

end SyscallReplayer.DirentVerification
