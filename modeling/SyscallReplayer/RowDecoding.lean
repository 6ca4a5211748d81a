import SyscallReplayer.ReplayModules

/-!
# One module object decodes many rows

The reader keeps one object for each kind and lets it decode the rows one after
another. `prepareRow` first assigns the members of the derived class and then, in
the base class, the common ones, so what it reads of the object is left over from
the rows before.
-/

namespace SyscallReplayer.RowDecoding

open CInt ReplayKernel ReplayWorld ReplayModules

/-- The fields that hold what a traced call returned. -/
inductive ResultField
  | stat_result_dev | stat_result_ino | stat_result_mode | stat_result_nlink
  | stat_result_uid | stat_result_gid | stat_result_rdev | stat_result_blksize
  | stat_result_blocks | stat_result_size | stat_result_atime | stat_result_mtime
  | stat_result_ctime | statfs_result_type | statfs_result_bsize
  | statfs_result_blocks | statfs_result_bfree | statfs_result_bavail
  | statfs_result_files | statfs_result_ffree | statfs_result_namelen
  | statfs_result_frsize | statfs_result_flags | data_read | link_value
  | dirent_buffer
deriving DecidableEq

/-- The rows of a call: the first one, with its results, and those after it. -/
structure Record where
  row : Row
  resultInt : ResultField → Int
  resultBytes : ResultField → List UInt8
  rest : List Row

/-- The members that the replayed results are compared with. -/
structure Verification where
  dataReadBuf : Option (List UInt8)
  direntBufferVal : List UInt8
  statResult : List Int
  statfsResult : List Int
deriving DecidableEq

structure ModuleObject where
  module : ReplayModule
  verification : Verification
deriving DecidableEq

namespace ModuleObject

def kind (o : ModuleObject) : SysCallKind :=
  o.module.sysCallName

/-- The accessor `return_value()`. -/
def returnValue (o : ModuleObject) : Int :=
  o.module.common.returnVal

end ModuleObject

def decodeWriteMembers (replayed : Int) (row : Row) : Option (Buffer × Int) := do
  let nbytes := uint64 (row.int .bytes_requested)
  if nbytes = 0 then return (⟨0, .bytes []⟩, 0)
  else
    let size ← newBuffer nbytes
    return (copied size replayed (row.bytes .data_written), nbytes)

def decodeIoctlBuffer (replayed : Int) (row : Row) (size : Int) : Option (Option Buffer) :=
  if row.isNull .ioctl_buffer then some none
  else (newBuffer size).map fun size => some (copied size replayed (row.bytes .ioctl_buffer))

/-- The members of the derived class. `execve` reads `return_value()`, and the
buffers that are copied are as long as `replayed_ret_val_` says; everything else
comes from the row. -/
def decodeMembers (kind : SysCallKind) (returnValue replayed : Int) (r : Record) :
    Option Members :=
  match kind with
  | .write => do
      let (dataBuffer, nbytes) ← decodeWriteMembers replayed r.row
      return .write dataBuffer nbytes (r.row.int .descriptor)
  | .pwrite | .mmappwrite => do
      let (dataBuffer, nbytes) ← decodeWriteMembers replayed r.row
      return .pwrite dataBuffer nbytes (r.row.int .descriptor) (r.row.int .offset)
  | .ioctl => do
      let size := uint64 (r.row.int .buffer_size)
      let buffer ← decodeIoctlBuffer replayed r.row size
      return .ioctl (r.row.int .descriptor) (r.row.int .request % 2 ^ 32)
        (uint64 (r.row.int .parameter)) buffer size
  | .execve =>
      some (.execve
        (continuationNumber (r.row.int .continuation_number) (r.row :: r.rest)) returnValue)
  | kind => prepareMembers kind 0 r.row r.rest

def readsData : SysCallKind → Bool
  | .read | .pread | .mmappread | .readlink => true
  | _ => false

def decodesStat : SysCallKind → Bool
  | .stat | .lstat | .fstat | .fstatat => true
  | _ => false

def decodesStatfs : SysCallKind → Bool
  | .statfs | .fstatfs => true
  | _ => false

/-- `read` and its kin compare the data, `readlink` the target. -/
def dataField : SysCallKind → ResultField
  | .readlink => .link_value
  | _ => .data_read

def statFields : List ResultField :=
  [.stat_result_dev, .stat_result_ino, .stat_result_mode, .stat_result_nlink, .stat_result_uid,
    .stat_result_gid, .stat_result_rdev, .stat_result_blksize, .stat_result_blocks,
    .stat_result_size, .stat_result_atime, .stat_result_mtime, .stat_result_ctime]

def statfsFields : List ResultField :=
  [.statfs_result_type, .statfs_result_bsize, .statfs_result_blocks, .statfs_result_bfree,
    .statfs_result_bavail, .statfs_result_files, .statfs_result_ffree, .statfs_result_namelen,
    .statfs_result_frsize, .statfs_result_flags]

/-- The members for verification; those that a class does not have, or fills in
verify mode only, stay as they are. -/
def decodeVerification (verify : Bool) (kind : SysCallKind) (replayed : Int) (r : Record)
    (v : Verification) : Verification where
  dataReadBuf :=
    if verify && readsData kind then
      if replayed > 0 then some ((r.resultBytes (dataField kind)).take replayed.toNat) else none
    else v.dataReadBuf
  direntBufferVal :=
    if verify && kind = .getdents then
      (r.resultBytes .dirent_buffer).take (r.row.int .count).toNat
    else v.direntBufferVal
  statResult := if decodesStat kind then statFields.map r.resultInt else v.statResult
  statfsResult := if decodesStatfs kind then statfsFields.map r.resultInt else v.statfsResult

/-- `prepareRow` of the object's class. The base class comes last, so that
`return_value()` is still that of the row before. -/
def prepareRow (verify : Bool) (o : ModuleObject) (r : Record) : Option ModuleObject := do
  let replayed :=
    if keepsReturnValue o.kind then int32 (r.row.int .return_value) else o.module.replayedRetVal
  let members ← decodeMembers o.kind o.returnValue replayed r
  return {
    module := {
      sysCallName := o.kind
      common := rowCommon o.kind r.row
      replayedRetVal := replayed
      members := members }
    verification := decodeVerification verify o.kind replayed r o.verification }

def move (verify : Bool) (o : ModuleObject) : Option ModuleObject :=
  (ReplayModules.move o.module).map fun m => {
    module := m
    verification := {
      dataReadBuf := if readsData o.kind then o.verification.dataReadBuf else none
      direntBufferVal := if o.kind = .getdents then o.verification.direntBufferVal else []
      statResult := if verify && decodesStat o.kind then o.verification.statResult else []
      statfsResult :=
        if verify && decodesStatfs o.kind then o.verification.statfsResult else [] } }

theorem decodeMembers_eq (kind : SysCallKind) (returnValue : Int) (r : Record) :
    decodeMembers kind returnValue
        (if keepsReturnValue kind then int32 (r.row.int .return_value) else 0) r =
      prepareMembers kind returnValue r.row r.rest := by
  cases kind <;> rfl

theorem prepareRow_module {verify : Bool} {o : ModuleObject} (r : Record)
    (h : o.module.replayedRetVal = 0) :
    (prepareRow verify o r).map ModuleObject.module =
      ReplayModules.prepareRow o.kind o.returnValue r.row r.rest := by
  unfold prepareRow ReplayModules.prepareRow
  rw [h]
  dsimp only
  rw [decodeMembers_eq]
  cases prepareMembers o.kind o.returnValue r.row r.rest with
  | none => rfl
  | some members => rfl

/-- What the rows of a history have not changed in the object. -/
structure SameObject (verify : Bool) (o p : ModuleObject) : Prop where
  kind : p.kind = o.kind
  replayed : keepsReturnValue o.kind = false →
    p.module.replayedRetVal = o.module.replayedRetVal
  data : (verify && readsData o.kind) = false →
    p.verification.dataReadBuf = o.verification.dataReadBuf
  dirents : (verify && o.kind = .getdents) = false →
    p.verification.direntBufferVal = o.verification.direntBufferVal
  stat : decodesStat o.kind = false → p.verification.statResult = o.verification.statResult
  statfs : decodesStatfs o.kind = false →
    p.verification.statfsResult = o.verification.statfsResult

section

variable {verify : Bool} {o p p' : ModuleObject} {r : Record}

theorem SameObject.refl (o : ModuleObject) : SameObject verify o o :=
  ⟨rfl, fun _ => rfl, fun _ => rfl, fun _ => rfl, fun _ => rfl, fun _ => rfl⟩

theorem prepareRow_eq_some (h : prepareRow verify p r = some p') :
    p'.returnValue = r.row.int .return_value ∧ SameObject verify p p' := by
  obtain ⟨members, hmembers, heq⟩ := Option.bind_eq_some_iff.mp h
  obtain rfl := Option.some.inj heq
  refine ⟨rowCommon_returnVal p.kind r.row, ⟨rfl, fun hk => ?_, fun hk => ?_, fun hk => ?_,
    fun hk => ?_, fun hk => ?_⟩⟩
  all_goals exact if_neg (Bool.not_eq_true _ ▸ hk)

theorem SameObject.trans {q : ModuleObject} (h : SameObject verify o p)
    (h' : SameObject verify p q) : SameObject verify o q where
  kind := h'.kind.trans h.kind
  replayed hk := (h'.replayed (h.kind ▸ hk)).trans (h.replayed hk)
  data hk := (h'.data (h.kind ▸ hk)).trans (h.data hk)
  dirents hk := (h'.dirents (h.kind ▸ hk)).trans (h.dirents hk)
  stat hk := (h'.stat (h.kind ▸ hk)).trans (h.stat hk)
  statfs hk := (h'.statfs (h.kind ▸ hk)).trans (h.statfs hk)

/-- What `return_value()` gives while the row after the history is prepared. -/
def heldReturnValue (o : ModuleObject) (history : List Record) : Int :=
  history.foldl (fun _ r => r.row.int .return_value) o.returnValue

theorem history_sameObject {history : List Record}
    (h : history.foldlM (prepareRow verify) o = some p) :
    p.returnValue = heldReturnValue o history ∧ SameObject verify o p := by
  induction history generalizing o with
  | nil =>
      obtain rfl := Option.some.inj h
      exact ⟨rfl, .refl o⟩
  | cons r history ih =>
      rw [List.foldlM_cons] at h
      obtain ⟨q, hstep, hrest⟩ := Option.bind_eq_some_iff.mp h
      obtain ⟨hreturn, hsame⟩ := prepareRow_eq_some hstep
      obtain ⟨hreturn', hsame'⟩ := ih hrest
      refine ⟨?_, hsame.trans hsame'⟩
      rw [hreturn', heldReturnValue, heldReturnValue, List.foldl_cons, hreturn]

def returning (o : ModuleObject) (returnValue : Int) : ModuleObject :=
  { o with module := { o.module with
      common := { o.module.common with returnVal := returnValue } } }

theorem decodeVerification_eq (h : SameObject verify o p) (replayed : Int) :
    decodeVerification verify p.kind replayed r p.verification =
      decodeVerification verify o.kind replayed r o.verification := by
  rw [h.kind]
  unfold decodeVerification
  congr 1
  · split
    · rfl
    · rename_i hk
      exact h.data (Bool.eq_false_iff.mpr hk)
  · split
    · rfl
    · rename_i hk
      exact h.dirents (Bool.eq_false_iff.mpr hk)
  · split
    · rfl
    · rename_i hk
      exact h.stat (Bool.eq_false_iff.mpr hk)
  · split
    · rfl
    · rename_i hk
      exact h.statfs (Bool.eq_false_iff.mpr hk)

/-- Nothing else of a history than the last return value matters. -/
theorem prepareRow_returning (h : SameObject verify o p) (r : Record) :
    prepareRow verify p r = prepareRow verify (returning o p.returnValue) r := by
  have hreplayed : (if keepsReturnValue p.kind then int32 (r.row.int .return_value)
      else p.module.replayedRetVal) =
        if keepsReturnValue o.kind then int32 (r.row.int .return_value)
          else o.module.replayedRetVal := by
    rw [h.kind]
    split
    · rfl
    · rename_i hk
      exact h.replayed (Bool.eq_false_iff.mpr hk)
  unfold prepareRow
  dsimp only
  rw [hreplayed, decodeVerification_eq h, h.kind]
  rfl

/-- Only `execve` reads the return value that is held over. -/
theorem decodeMembers_returnValue {kind : SysCallKind} (h : kind ≠ .execve)
    (returnValue returnValue' replayed : Int) (r : Record) :
    decodeMembers kind returnValue replayed r = decodeMembers kind returnValue' replayed r := by
  cases kind
  case execve => exact absurd rfl h
  all_goals rfl

end

/-- The object captures the same values of the call and passes them on to its
copy. -/
def SameDecoding (verify : Bool) (p p' : ModuleObject) (r : Record) : Prop :=
  prepareRow verify p r = prepareRow verify p' r ∧
    (prepareRow verify p r).bind (move verify) = (prepareRow verify p' r).bind (move verify)

/-- Two histories of an object lead to the same values just where they leave
`execve` the same return value. -/
theorem same_decoding_iff {verify : Bool} {o p p' : ModuleObject}
    {history history' : List Record} (current : Record)
    (h : history.foldlM (prepareRow verify) o = some p)
    (h' : history'.foldlM (prepareRow verify) o = some p') :
    SameDecoding verify p p' current ↔
      (o.kind = .execve → heldReturnValue o history = heldReturnValue o history') := by
  obtain ⟨hreturn, hsame⟩ := history_sameObject h
  obtain ⟨hreturn', hsame'⟩ := history_sameObject h'
  unfold SameDecoding
  rw [prepareRow_returning hsame, prepareRow_returning hsame', ← hreturn, ← hreturn']
  constructor
  · rintro ⟨hprepared, -⟩ hkind
    have hexecve : ∀ value, ∃ q number,
        prepareRow verify (returning o value) current = some q ∧
          q.module.members = .execve number value := by
      intro value
      have hmembers : ∀ replayed, decodeMembers (returning o value).kind
          (returning o value).returnValue replayed current =
            some (.execve (continuationNumber (current.row.int .continuation_number)
              (current.row :: current.rest)) value) := by
        intro replayed
        show decodeMembers o.kind value replayed current = _
        rw [hkind]
        rfl
      unfold prepareRow
      dsimp only
      rw [hmembers]
      exact ⟨_, _, rfl, rfl⟩
    obtain ⟨q, number, hq, hmembers⟩ := hexecve p.returnValue
    obtain ⟨q', number', hq', hmembers'⟩ := hexecve p'.returnValue
    obtain rfl : q = q' := Option.some.inj (hq.symm.trans (hprepared.trans hq'))
    exact (Members.execve.inj (hmembers.symm.trans hmembers')).2
  · intro hcondition
    have hprepared : prepareRow verify (returning o p.returnValue) current =
        prepareRow verify (returning o p'.returnValue) current := by
      by_cases hkind : o.kind = .execve
      · rw [hcondition hkind]
      · unfold prepareRow
        dsimp only
        rw [show decodeMembers (returning o p.returnValue).kind
            (returning o p.returnValue).returnValue = decodeMembers
              (returning o p'.returnValue).kind (returning o p'.returnValue).returnValue from
          funext fun replayed => funext fun r => decodeMembers_returnValue hkind _ _ replayed r]
        rfl
    exact ⟨hprepared, by rw [hprepared]⟩

def execveRecord (returnValue : Int) : Record where
  row :=
    { int := fun
        | .continuation_number => -1
        | .return_value => returnValue
        | _ => 0
      text := fun _ => ""
      bytes := fun _ => []
      isNull := fun _ => false }
  resultInt _ := 0
  resultBytes _ := []
  rest := []

def freshExecve : ModuleObject where
  module := ⟨.execve, ⟨0, 0, 0, 0, 0, 0, 0⟩, 0, .none⟩
  verification := ⟨none, [], [], []⟩

/-- A successful `execve` is decoded with the failure of the one before. -/
theorem execve_decodes_stale_value :
    ∃ p p', [execveRecord 0].foldlM (prepareRow false) freshExecve = some p ∧
      [execveRecord (-1)].foldlM (prepareRow false) freshExecve = some p' ∧
      ¬SameDecoding false p p' (execveRecord 0) := by
  refine ⟨_, _, rfl, rfl, ?_⟩
  rintro ⟨hprepared, -⟩
  exact absurd hprepared (by decide)

theorem execve_same_decoding_iff :
    ∃ p p', [execveRecord 0].foldlM (prepareRow false) freshExecve = some p ∧
      [execveRecord (-1), execveRecord 0].foldlM (prepareRow false) freshExecve = some p' ∧
      (SameDecoding false p p' (execveRecord (-1)) ↔
        (freshExecve.kind = .execve → heldReturnValue freshExecve [execveRecord 0] =
          heldReturnValue freshExecve [execveRecord (-1), execveRecord 0])) :=
  ⟨_, _, rfl, rfl, same_decoding_iff (execveRecord (-1)) rfl rfl⟩

end SyscallReplayer.RowDecoding
