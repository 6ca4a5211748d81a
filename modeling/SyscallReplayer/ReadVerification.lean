import SyscallReplayer.ByteBuffers
import SyscallReplayer.RowDecoding

/-!
# Verifying what a read returned

In verify mode `prepareRow` keeps the captured bytes of a read that returned some.
`read` and `pread` compare as many of them as the replayed call returned, and
`readlink` as many as the traced one.
-/

namespace SyscallReplayer.ReadVerification

open CInt ReplayKernel ReplayWorld ReplayModules RowDecoding ByteBuffers

/-- `verifyRow` of `read` and `pread`: whether it reports a failure, unless it
compares too much. -/
def verifyRow (o : ModuleObject) (replayedRetVal : Int) (buffer : List UInt8) : Option Bool :=
  match o.verification.dataReadBuf with
  | none => some false
  | some dataReadBuf =>
      if replayedRetVal ≥ 0 then
        (memcmp dataReadBuf buffer replayedRetVal.toNat).map fun value => decide (value ≠ 0)
      else some false

/-- The check in `readlink`, whose length is the traced value as a `size_t`. -/
def verifyPath (o : ModuleObject) (buffer : List UInt8) : Option Bool :=
  match o.verification.dataReadBuf with
  | none => some false
  | some dataReadBuf =>
      (memcmp dataReadBuf buffer (uint64 o.returnValue).toNat).map fun value =>
        decide (value ≠ 0)

/-- The check after a call that returned `q` and left these bytes in the buffer. -/
def verified (o : ModuleObject) (q : Int) (buffer : List UInt8) : Option Bool :=
  if o.kind = .readlink then verifyPath o buffer else verifyRow o (int32 q) buffer

/-- The module that is executed: the object that decoded the row, or its copy. -/
def executed (p : ModuleObject) (r : Record) (queued : Bool) : Option ModuleObject :=
  (prepareRow true p r).bind fun o => if queued then move true o else some o

/-- The check stays inside the captured and the returned bytes, and reports a
failure just where the values or the bytes differ. -/
def Exact (o : ModuleObject) (v q : Int) (captured buffer : List UInt8) : Prop :=
  ∃ reported, verified o q buffer = some reported ∧
    (reported = true ↔ q ≠ v ∨ captured.take v.toNat ≠ buffer.take v.toNat)

/-- How many bytes the check of a kind compares. -/
def comparedLength (kind : SysCallKind) (queued : Bool) (v q : Int) : Int :=
  if kind = .readlink then if queued then int32 v else v else q

section

variable {p o : ModuleObject} {r : Record} {queued : Bool} {v q : Int}
  {captured buffer : List UInt8}

/-- The kinds whose data is verified. -/
def verifiesData (kind : SysCallKind) : Prop :=
  kind = .read ∨ kind = .pread ∨ kind = .readlink

theorem executed_eq_some (hkind : verifiesData p.kind) (h : executed p r queued = some o) :
    o.kind = p.kind ∧
      o.verification.dataReadBuf =
        (if 0 < int32 (r.row.int .return_value) then
          some ((r.resultBytes (dataField p.kind)).take (int32 (r.row.int .return_value)).toNat)
        else none) ∧
      o.returnValue =
        if queued then int32 (r.row.int .return_value) else r.row.int .return_value := by
  have hkeeps : keepsReturnValue p.kind = true ∧ readsData p.kind = true ∧
      movesTo p.kind = some p.kind := by
    rcases hkind with hkind | hkind | hkind <;> rw [hkind] <;> exact ⟨rfl, rfl, rfl⟩
  obtain ⟨hvalue, hdata, hmoves⟩ := hkeeps
  obtain ⟨prepared, hprepared, hmoved⟩ := Option.bind_eq_some_iff.mp h
  obtain ⟨members, -, heq⟩ := Option.bind_eq_some_iff.mp hprepared
  obtain rfl := Option.some.inj heq
  simp only [hvalue, if_true] at hmoved
  have hbuffer : (decodeVerification true p.kind (int32 (r.row.int .return_value)) r
        p.verification).dataReadBuf =
      if 0 < int32 (r.row.int .return_value) then
        some ((r.resultBytes (dataField p.kind)).take (int32 (r.row.int .return_value)).toNat)
      else none :=
    if_pos hdata
  split at hmoved
  · rename_i hqueued
    obtain ⟨m, hm, rfl⟩ := Option.map_eq_some_iff.mp hmoved
    obtain ⟨kind, hmovesTo, rfl⟩ := Option.map_eq_some_iff.mp hm
    obtain rfl := Option.some.inj (hmoves.symm.trans hmovesTo)
    refine ⟨rfl, (if_pos hdata).trans hbuffer, ?_⟩
    rw [if_pos hqueued]
    exact congrArg int32 (rowCommon_returnVal p.kind r.row)
  · rename_i hown
    obtain rfl := Option.some.inj hmoved
    refine ⟨rfl, hbuffer, ?_⟩
    rw [if_neg hown]
    exact rowCommon_returnVal p.kind r.row

theorem memcmp_captured_iff {n : Nat} {limit : Int} (hlength : captured.length = v.toNat) :
    (memcmp (captured.take limit.toNat) buffer n).map (fun value => decide (value ≠ 0)) =
        some true ↔
      (n : Int) ≤ limit ∧ (n : Int) ≤ v ∧ n ≤ buffer.length ∧
        captured.take n ≠ buffer.take n := by
  rw [memcmp_eq_some_iff, List.length_take, hlength, List.take_take]
  constructor
  · rintro ⟨⟨hcaptured, hbuffer⟩, hdiffers⟩
    have hne := hdiffers.mp rfl
    have hpositive : n ≠ 0 := by
      rintro rfl
      exact hne (by rw [Nat.zero_min, List.take_zero, List.take_zero])
    rw [Nat.min_eq_left (by omega)] at hne
    exact ⟨by omega, by omega, hbuffer, hne⟩
  · rintro ⟨hlimit, hv, hbuffer, hne⟩
    refine ⟨⟨by omega, hbuffer⟩, ?_⟩
    rw [Nat.min_eq_left (by omega)]
    exact iff_of_true rfl hne

/-- A failure of `read` is reported just where bytes that both sides have differ. -/
theorem verifyRow_eq_true_iff
    (hdata : o.verification.dataReadBuf =
      if 0 < int32 v then some (captured.take (int32 v).toNat) else none)
    (hlength : captured.length = v.toNat) (hbuffer : buffer.length = q.toNat) :
    verifyRow o q buffer = some true ↔
      0 ≤ q ∧ q ≤ v ∧ q ≤ int32 v ∧ captured.take q.toNat ≠ buffer.take q.toNat := by
  unfold verifyRow
  rw [hdata]
  by_cases hreturned : 0 < int32 v
  · rw [if_pos hreturned]
    dsimp only
    split
    · rename_i hq
      rw [memcmp_captured_iff hlength]
      constructor
      · rintro ⟨hlimit, hv, -, hne⟩
        exact ⟨hq, by omega, by omega, hne⟩
      · rintro ⟨-, hv, hlimit, hne⟩
        exact ⟨by omega, by omega, hbuffer.ge, hne⟩
    · rename_i hq
      exact iff_of_false (fun h => by cases h) fun h => hq h.1
  · rw [if_neg hreturned]
    refine iff_of_false (fun h => by cases h) ?_
    rintro ⟨hq, -, hlimit, hne⟩
    have hzero : q.toNat = 0 := by omega
    exact hne (by rw [hzero, List.take_zero, List.take_zero])

/-- That of `readlink`, for the length that the traced value gives. -/
theorem verifyPath_eq_true_iff {n : Int} (hreturn : o.returnValue = n)
    (hdata : o.verification.dataReadBuf =
      if 0 < int32 v then some (captured.take (int32 v).toNat) else none)
    (hn : n = int32 v ∨ n = v) (hword : n ≤ longLongMax)
    (hlength : captured.length = v.toNat) (hbuffer : buffer.length = q.toNat) :
    verifyPath o buffer = some true ↔
      0 ≤ n ∧ n ≤ q ∧ n ≤ v ∧ n ≤ int32 v ∧
        captured.take n.toNat ≠ buffer.take n.toNat := by
  unfold verifyPath
  rw [hdata, hreturn]
  by_cases hreturned : 0 < int32 v
  · rw [if_pos hreturned]
    dsimp only
    rw [memcmp_captured_iff hlength]
    by_cases hnonneg : 0 ≤ n
    · rw [uint64_eq_self hnonneg (by unfold longLongMax at hword; omega)]
      constructor
      · rintro ⟨hlimit, hv, hproduced, hne⟩
        have hpositive : n.toNat ≠ 0 := by
          intro hzero
          exact hne (by rw [hzero, List.take_zero, List.take_zero])
        exact ⟨hnonneg, by omega, by omega, by omega, hne⟩
      · rintro ⟨-, hproduced, hv, hlimit, hne⟩
        exact ⟨by omega, by omega, by omega, hne⟩
    · -- a negative length is larger than anything captured
      refine iff_of_false ?_ fun h => hnonneg h.1
      rintro ⟨-, hv, -⟩
      omega
  · rw [if_neg hreturned]
    refine iff_of_false (fun h => by cases h) ?_
    rintro ⟨hnonneg, -, -, hlimit, hne⟩
    have hzero : n.toNat = 0 := by omega
    exact hne (by rw [hzero, List.take_zero, List.take_zero])

/-- The check decides the comparison just where the values are equal, or both sides
have the bytes that are compared and these differ. -/
theorem exact_iff (hkind : verifiesData p.kind) (h : executed p r queued = some o)
    (hword : r.row.int .return_value ≤ longLongMax)
    (hcaptured : (r.resultBytes (dataField p.kind)).length = (r.row.int .return_value).toNat)
    (hq : FitsInt q) (hbuffer : buffer.length = q.toNat) :
    Exact o (r.row.int .return_value) q (r.resultBytes (dataField p.kind)) buffer ↔
      let v := r.row.int .return_value
      let n := comparedLength p.kind queued v q
      q = v ∨ 0 ≤ n ∧ n ≤ q ∧ n ≤ v ∧ n ≤ int32 v ∧
        (r.resultBytes (dataField p.kind)).take n.toNat ≠ buffer.take n.toNat := by
  obtain ⟨hkept, hdata, hreturn⟩ := executed_eq_some hkind h
  generalize r.row.int .return_value = v at *
  generalize r.resultBytes (dataField p.kind) = captured at *
  by_cases hequal : q = v
  · obtain rfl := hequal
    refine iff_of_true ?_ (.inl rfl)
    rw [int32_eq_self hq.1 hq.2] at hdata
    have hsame : o.returnValue = q := by
      rw [hreturn, int32_eq_self hq.1 hq.2, ite_self]
    by_cases hreturned : 0 < q
    · rw [if_pos hreturned] at hdata
      have hchecked : verified o q buffer =
          (memcmp (captured.take q.toNat) buffer q.toNat).map fun value =>
            decide (value ≠ 0) := by
        unfold verified verifyPath verifyRow
        rw [hdata, hsame, uint64_eq_self hreturned.le (by unfold longLongMax at hword; omega),
          int32_eq_self hq.1 hq.2]
        dsimp only
        rw [if_pos hreturned.le, ite_self]
      refine ⟨decide (captured.take q.toNat ≠ buffer.take q.toNat), ?_, ?_⟩
      · rw [hchecked, memcmp_eq_some_iff, List.length_take, List.take_take, Nat.min_self,
          decide_eq_true_iff]
        exact ⟨⟨by omega, hbuffer.ge⟩, Iff.rfl⟩
      · simp
    · rw [if_neg hreturned] at hdata
      refine ⟨false, ?_, ?_⟩
      · unfold verified verifyPath verifyRow
        rw [hdata, ite_self]
      · have hzero : q.toNat = 0 := by omega
        simp [hzero]
  · have hreport : Exact o v q captured buffer ↔ verified o q buffer = some true := by
      unfold Exact
      constructor
      · rintro ⟨reported, hverified, hreported⟩
        rw [hverified, hreported.mpr (.inl hequal)]
      · intro hverified
        exact ⟨true, hverified, iff_of_true rfl (.inl hequal)⟩
    rw [hreport, or_iff_right hequal]
    unfold verified comparedLength
    rw [hkept]
    split
    · refine verifyPath_eq_true_iff hreturn hdata ?_ ?_ hcaptured hbuffer
      · split
        · exact .inl rfl
        · exact .inr rfl
      · have hupper := int32_upper v
        unfold longLongMax at *
        split <;> omega
    · rw [int32_eq_self hq.1 hq.2, verifyRow_eq_true_iff hdata hcaptured hbuffer]
      simp

end

/-- A `read` of eight bytes that returned these. -/
def readRecord (captured : List UInt8) : Record where
  row :=
    { int := fun
        | .return_value => captured.length
        | .bytes_requested => 8
        | _ => 0
      text := fun _ => ""
      bytes := fun _ => []
      isNull := fun _ => false }
  resultInt _ := 0
  resultBytes _ := captured
  rest := []

def freshRead : ModuleObject where
  module := ⟨.read, ⟨0, 0, 0, 0, 0, 0, 0⟩, 0, .none⟩
  verification := ⟨none, [], [], []⟩

theorem equal_read_exact :
    ∃ o, executed freshRead (readRecord [1, 2]) true = some o ∧
      Exact o 2 2 [1, 2] [1, 3] := by
  have hword : (readRecord [1, 2]).row.int .return_value ≤ longLongMax := by decide
  have hq : FitsInt 2 := ⟨by decide, by decide⟩
  refine ⟨_, rfl, ?_⟩
  exact (@exact_iff freshRead _ (readRecord [1, 2]) true 2 [1, 3] (.inl rfl) rfl hword rfl hq
    rfl).mpr (.inl rfl)

/-- A replay that returns fewer bytes than were captured passes if these agree, and
one that returns more is compared with what was not captured. -/
theorem read_check_wrong :
    ∃ o, executed freshRead (readRecord [1, 2, 3]) true = some o ∧
      verified o 2 [1, 2] = some false ∧ ¬Exact o 3 2 [1, 2, 3] [1, 2] ∧
      verified o 4 [1, 2, 3, 4] = none := by
  refine ⟨_, rfl, rfl, ?_, rfl⟩
  rintro ⟨reported, hverified, hreported⟩
  obtain rfl := Option.some.inj hverified
  exact absurd (hreported.mpr (.inl (by decide))) (by decide)

end SyscallReplayer.ReadVerification
