import SyscallReplayer.ByteBuffers
import SyscallReplayer.ReplayRuns

/-!
# The data that `write` and `pwrite` pass

`prepareRow` makes a buffer of the requested size and copies as many bytes into
it as were written, `setMove` takes the size as an `int`, and `processRow` may
fill the buffer with a pattern before it passes it on.
-/

namespace SyscallReplayer.WriteBuffers

open CInt ReplayKernel ResourcesManager ReplayWorld ReplayModules
open StatePrograms SnapshotFidelity World ReplayRuns ByteBuffers

/-- What `rand` and `/dev/urandom` give. -/
structure RandomSource where
  rand : Nat → Nat
  urandom : Nat → UInt8

def wordBytes (num : Nat) : List UInt8 :=
  List.ofFn fun i : Fin 8 => UInt8.ofNat (num / 256 ^ i.val)

theorem wordBytes_length (num : Nat) : (wordBytes num).length = 8 :=
  List.length_ofFn

/-- The loop of `random_fill_buffer`; `k` numbers were drawn before. -/
def randomFillLoop (source : RandomSource) (k : Nat) (buffer : Contents) (i bytes : Nat) :
    Option Contents :=
  if i < bytes then do
    let buffer ← memcpy buffer i (wordBytes (source.rand k)) 8
    randomFillLoop source (k + 1) buffer (i + 8) bytes
  else some buffer
termination_by bytes - i

def randomFillBuffer (source : RandomSource) (buffer : Contents) (nbytes : Nat) :
    Option Contents := do
  let remaining := nbytes % 8
  let bytes := nbytes - remaining
  let buffer ← memcpy buffer 0 (wordBytes (source.rand 0)) remaining
  randomFillLoop source 1 buffer remaining bytes

/-- `random_file_.read`, of a file that never ends. -/
def readUrandom (source : RandomSource) (buffer : Contents) (nbytes : Nat) : Option Contents :=
  memcpy buffer 0 ((List.range nbytes).map source.urandom) nbytes

/-- The first byte of a pattern that starts with this character. -/
def patternByte (first : Char) : UInt8 :=
  (String.utf8EncodeChar first).headD 0

def fillBuffer (source : RandomSource) (patternData : String) (buffer : Contents)
    (nbytes : Nat) : Option Contents :=
  if patternData = "random" then randomFillBuffer source buffer nbytes
  else if patternData = "urandom" then readUrandom source buffer nbytes
  else memset buffer (patternByte patternData.front) nbytes

/-- The `data_buffer` that `prepareRow` leaves; nothing is kept of no bytes. -/
def preparedContents (row : Row) : Option Contents := do
  let nbytes := uint64 (row.int .bytes_requested)
  let replayedRetVal := int32 (row.int .return_value)
  if nbytes ≠ 0 then
    let buffer := fresh (← newBuffer nbytes).toNat
    if replayedRetVal > 0 then memcpy buffer 0 (row.bytes .data_written) replayedRetVal.toNat
    else some buffer
  else some []

/-- The `nbytes` of a queued copy. -/
def movedNbytes (row : Row) : Int :=
  uint64 (int32 (uint64 (row.int .bytes_requested)))

/-- The bytes behind the pointer that a queued copy passes to the kernel. `pwrite`
fills a buffer of its own. -/
def passedContents (opts : Options) (source : RandomSource) (kind : SysCallKind) (row : Row) :
    Option Contents := do
  let buffer ← preparedContents row
  let nbytes := (movedNbytes row).toNat
  if opts.patternData.isEmpty then some buffer
  else fillBuffer source opts.patternData (if kind = .pwrite then fresh nbytes else buffer) nbytes

/-- The bytes of the numbers drawn from the `k`-th on. -/
def randomBlocks (source : RandomSource) (k blocks : Nat) : List UInt8 :=
  (List.range blocks).flatMap fun j => wordBytes (source.rand (k + j))

theorem randomBlocks_succ (source : RandomSource) (k blocks : Nat) :
    randomBlocks source k (blocks + 1) =
      wordBytes (source.rand k) ++ randomBlocks source (k + 1) blocks := by
  unfold randomBlocks
  rw [List.range_succ_eq_map, List.flatMap_cons, List.flatMap_map]
  congr 1
  apply List.flatMap_congr
  intro j _
  rw [Nat.succ_eq_add_one, Nat.add_right_comm, Nat.add_assoc]

theorem randomBlocks_length (source : RandomSource) (k blocks : Nat) :
    (randomBlocks source k blocks).length = 8 * blocks := by
  induction blocks generalizing k with
  | zero => rfl
  | succ blocks ih =>
      rw [randomBlocks_succ, List.length_append, wordBytes_length, ih]
      omega

theorem randomFillLoop_eq (source : RandomSource) {k blocks remaining bytes : Nat}
    {done : List UInt8} {rest : Contents} (hrest : rest.length = 8 * blocks)
    (hremaining : remaining < 8) (hdone : remaining ≤ done.length)
    (hbytes : bytes + remaining = done.length + 8 * blocks) :
    randomFillLoop source k (done.map some ++ rest) done.length bytes =
      some ((done ++ randomBlocks source k blocks).map some) := by
  induction blocks generalizing k done rest with
  | zero =>
      have hnil : rest = [] := List.eq_nil_of_length_eq_zero hrest
      rw [randomFillLoop, if_neg (by omega), hnil, List.append_nil]
      exact congrArg some (congrArg (List.map some) (List.append_nil done).symm)
  | succ blocks ih =>
      have hcopy : memcpy (done.map some ++ rest) done.length (wordBytes (source.rand k)) 8 =
          some ((done ++ (wordBytes (source.rand k)).take 8).map some ++ rest.drop 8) :=
        memcpy_append (by omega) (wordBytes_length _).ge
      rw [List.take_of_length_le (wordBytes_length _).le] at hcopy
      have hlength : (done ++ wordBytes (source.rand k)).length = done.length + 8 := by
        rw [List.length_append, wordBytes_length]
      rw [randomFillLoop, if_pos (by omega), hcopy, Option.bind_eq_bind, Option.bind_some,
        ← hlength, ih, randomBlocks_succ, List.append_assoc]
      · rw [List.length_drop, hrest]
        omega
      · rw [hlength]
        omega
      · rw [hlength]
        omega

def randomBytes (source : RandomSource) (nbytes : Nat) : List UInt8 :=
  (wordBytes (source.rand 0)).take (nbytes % 8) ++ randomBlocks source 1 (nbytes / 8)

theorem randomFillBuffer_eq (source : RandomSource) (buffer : Contents) :
    randomFillBuffer source buffer buffer.length =
      some ((randomBytes source buffer.length).map some) := by
  have hremaining : buffer.length % 8 < 8 := Nat.mod_lt _ (by decide)
  have hword : ((wordBytes (source.rand 0)).take (buffer.length % 8)).length =
      buffer.length % 8 := by
    rw [List.length_take, wordBytes_length, Nat.min_eq_left hremaining.le]
  have hcopy : memcpy buffer 0 (wordBytes (source.rand 0)) (buffer.length % 8) =
      some (((wordBytes (source.rand 0)).take (buffer.length % 8)).map some ++
        buffer.drop (buffer.length % 8)) :=
    memcpy_zero (Nat.mod_le _ _) (hremaining.le.trans (wordBytes_length _).ge)
  have hrest : (buffer.drop (buffer.length % 8)).length = 8 * (buffer.length / 8) := by
    rw [List.length_drop]
    omega
  have hbytes : buffer.length - buffer.length % 8 + buffer.length % 8 =
      ((wordBytes (source.rand 0)).take (buffer.length % 8)).length + 8 * (buffer.length / 8) := by
    rw [hword]
    omega
  have hloop := @randomFillLoop_eq source 1 _ _ _ _ _ hrest hremaining hword.ge hbytes
  rw [hword] at hloop
  rw [randomFillBuffer, hcopy]
  exact hloop

def fillBytes (source : RandomSource) (size : Nat) : Fill → List UInt8
  | .bytes copied => copied
  | .pattern first => List.replicate size (patternByte first)
  | .random => randomBytes source size
  | .urandom => (List.range size).map source.urandom

theorem fillBuffer_eq (source : RandomSource) (patternData : String) (buffer : Contents) :
    fillBuffer source patternData buffer buffer.length =
      some ((fillBytes source buffer.length (patternFill patternData)).map some) := by
  unfold fillBuffer patternFill
  split
  · exact randomFillBuffer_eq source buffer
  · split
    · have hlength : ((List.range buffer.length).map source.urandom).length = buffer.length := by
        rw [List.length_map, List.length_range]
      rw [readUrandom, memcpy_zero le_rfl hlength.ge, List.take_of_length_le hlength.le,
        List.drop_length, List.append_nil, fillBytes]
    · rw [memset_length rfl, fillBytes, List.map_replicate]

theorem fillBytes_length (source : RandomSource) (patternData : String) (size : Nat) :
    (fillBytes source size (patternFill patternData)).length = size := by
  unfold patternFill
  split
  · rw [fillBytes, randomBytes, List.length_append, randomBlocks_length, List.length_take,
      wordBytes_length]
    omega
  · split
    · rw [fillBytes, List.length_map, List.length_range]
    · rw [fillBytes, List.length_replicate]

section

variable {row : Row} {n : Nat}

/-- The captured bytes are as many as were requested. -/
structure Captured (row : Row) (n : Nat) : Prop where
  requested : row.int .bytes_requested = n
  length : (row.bytes .data_written).length = n
  allocates : (n : Int) ≤ longLongMax

theorem Captured.uint64 (h : Captured row n) : uint64 (row.int .bytes_requested) = n := by
  have hle := h.allocates
  rw [h.requested, uint64_eq_self (Int.natCast_nonneg n) (by unfold longLongMax at hle; omega)]

theorem Captured.movedNbytes_iff (h : Captured row n) :
    movedNbytes row = n ↔ (n : Int) < 2 ^ 31 := by
  rw [movedNbytes, h.uint64]
  exact uint64_int32_eq_iff (Int.natCast_nonneg n) h.allocates

theorem preparedContents_zero (h : Captured row 0) : preparedContents row = some [] := by
  rw [preparedContents, h.uint64]
  rfl

theorem preparedContents_pos (h : Captured row n) (hn : n ≠ 0) :
    preparedContents row =
      if 0 < int32 (row.int .return_value) then
        memcpy (fresh n) 0 (row.bytes .data_written) (int32 (row.int .return_value)).toNat
      else some (fresh n) := by
  have hne : (n : Int) ≠ 0 := Int.natCast_ne_zero.mpr hn
  rw [preparedContents, h.uint64]
  simp only [if_pos hne, newBuffer_of_le (Int.natCast_nonneg n) h.allocates]
  rfl

/-- The copy stays inside the buffer. -/
def CopyFits (row : Row) (n : Nat) : Prop :=
  n = 0 ∨ int32 (row.int .return_value) ≤ n

theorem preparedContents_eq_some_iff (h : Captured row n) {contents : Contents} :
    preparedContents row = some contents ↔
      CopyFits row n ∧ contents =
        ((row.bytes .data_written).take (int32 (row.int .return_value)).toNat).map some ++
          fresh (n - (int32 (row.int .return_value)).toNat) := by
  by_cases hn : n = 0
  · obtain rfl := hn
    have hdata := List.eq_nil_of_length_eq_zero h.length
    simp [preparedContents_zero h, CopyFits, hdata, fresh, eq_comm]
  · rw [preparedContents_pos h hn]
    split
    · rename_i hpositive
      by_cases hfits : int32 (row.int .return_value) ≤ n
      · have hcount : (int32 (row.int .return_value)).toNat ≤ n := by omega
        rw [memcpy_zero (by rw [fresh, List.length_replicate]; exact hcount)
          (by rw [h.length]; exact hcount), fresh, List.drop_replicate]
        simp [CopyFits, hfits, fresh, eq_comm]
      · have hnone : memcpy (fresh n) 0 (row.bytes .data_written)
            (int32 (row.int .return_value)).toNat = none := by
          rw [memcpy, if_neg]
          rintro ⟨hdest, -⟩
          rw [fresh, List.length_replicate] at hdest
          omega
        simp [hnone, CopyFits, hn, hfits]
    · rename_i hnonpositive
      have hcount : (int32 (row.int .return_value)).toNat = 0 :=
        Int.toNat_eq_zero.mpr (not_lt.mp hnonpositive)
      have hfits : int32 (row.int .return_value) ≤ n := by omega
      simp [hcount, CopyFits, hfits, eq_comm]

theorem preparedContents_length (h : Captured row n) {contents : Contents}
    (hcontents : preparedContents row = some contents) : contents.length = n := by
  obtain ⟨hfits, rfl⟩ := (preparedContents_eq_some_iff h).mp hcontents
  have hlength := h.length
  rw [List.length_append, List.length_map, List.length_take, fresh, List.length_replicate, hlength]
  rcases hfits with hzero | hfits <;> omega

/-- The buffer holds the captured bytes just where all of them were written. -/
theorem preparedContents_eq_captured_iff (h : Captured row n) :
    preparedContents row = some ((row.bytes .data_written).map some) ↔
      n = 0 ∨ int32 (row.int .return_value) = n := by
  have hlength := h.length
  rw [preparedContents_eq_some_iff h]
  constructor
  · rintro ⟨hfits, heq⟩
    have hnone : none ∉ fresh (n - (int32 (row.int .return_value)).toNat) := by
      intro hmem
      have hfilled := List.mem_append_right
        (((row.bytes .data_written).take (int32 (row.int .return_value)).toNat).map some) hmem
      rw [← heq] at hfilled
      obtain ⟨byte, -, hbyte⟩ := List.mem_map.mp hfilled
      exact Option.some_ne_none byte hbyte
    have hcount : n ≤ (int32 (row.int .return_value)).toNat := by
      by_contra hshort
      exact hnone (List.mem_replicate.mpr ⟨by omega, rfl⟩)
    rcases hfits with hzero | hfits
    · exact .inl hzero
    · omega
  · rintro (hzero | hall)
    · have hdata := List.eq_nil_of_length_eq_zero (hlength.trans hzero)
      refine ⟨.inl hzero, ?_⟩
      rw [hdata, hzero, Nat.zero_sub, List.take_nil]
      rfl
    · refine ⟨.inr hall.le, ?_⟩
      rw [hall, Int.toNat_natCast, Nat.sub_self, List.take_of_length_le hlength.le]
      exact (List.append_nil _).symm

theorem prepareWriteMembers_eq (h : Captured row n) :
    prepareWriteMembers row = some (⟨n, .bytes ((row.bytes .data_written).take
      (int32 (row.int .return_value)).toNat)⟩, (n : Int)) := by
  unfold prepareWriteMembers
  rw [h.uint64]
  by_cases hn : n = 0
  · obtain rfl := hn
    rw [List.eq_nil_of_length_eq_zero h.length, List.take_nil]
    rfl
  · simp only [if_neg (Int.natCast_ne_zero.mpr hn),
      newBuffer_of_le (Int.natCast_nonneg n) h.allocates]
    rfl

end

def bufferContents (source : RandomSource) (data : Buffer) : Contents :=
  let filled := fillBytes source data.size.toNat data.fill
  filled.map some ++ fresh (data.size.toNat - filled.length)

/-- The call of a module, with the descriptor it is made on. -/
def dataCall (a : Execution) (fd : Int) (data : Buffer) (nbytes : Int) : SystemCall :=
  if a.kind = .pwrite then .pwrite fd data nbytes (a.row.int .offset) else .write fd data nbytes

/-- The captured bytes, or those of the fill that the options ask for. -/
def tracedBytes (opts : Options) (source : RandomSource) (captured : List UInt8) : List UInt8 :=
  if opts.patternData.isEmpty then captured
  else fillBytes source captured.length (patternFill opts.patternData)

/-- On a simulated descriptor the copy makes no call. On any other it makes one, and
passes a buffer of the requested length that holds the traced bytes. -/
def PassesTraced (opts : Options) (source : RandomSource) (w : World) (a : Execution)
    (m : ReplayModule) (fd : Int) (n : Nat) : Prop :=
  ∃ replayed w', processRow opts m a.position.1 a.position.2 w = some (replayed, w') ∧
    (fd = syscallSimulated ∧ w'.issued = w.issued ∨ ∃ data contents,
      w'.issued = w.issued ++ [dataCall a fd data n] ∧
      passedContents opts source a.kind a.row = some contents ∧
      contents = bufferContents source data ∧
      contents = (tracedBytes opts source (a.row.bytes .data_written)).map some)

section

variable {opts : Options} {w : World} {a : Execution} {m : ReplayModule} {n : Nat} {fd : Int}

def preparedBuffer (row : Row) (n : Nat) : Buffer :=
  ⟨n, .bytes ((row.bytes .data_written).take (int32 (row.int .return_value)).toNat)⟩

theorem processRow_write (hkind : a.kind = .write) (hqueued : a.queued = true)
    (hm : a.module = some m) (h : Captured a.row n) :
    processRow opts m a.position.1 a.position.2 =
      writeProcessRow opts a.pid 0 (preparedBuffer a.row n) (movedNbytes a.row)
        (a.row.int .descriptor) := by
  obtain ⟨kind, held, row, rest, queued, later, laterRest⟩ := a
  obtain rfl : kind = .write := hkind
  obtain rfl : queued = true := hqueued
  have hprepared : prepareMembers .write held row rest =
      some (.write (preparedBuffer row n) n (row.int .descriptor)) := by
    simp [prepareMembers, prepareWriteMembers_eq h, preparedBuffer]
  rw [processRow_of_ownMove rfl hm hprepared, movedNbytes, h.uint64]
  rfl

theorem processRow_pwrite (hkind : a.kind = .pwrite) (hqueued : a.queued = true)
    (hm : a.module = some m) (h : Captured a.row n) :
    processRow opts m a.position.1 a.position.2 =
      pwriteProcessRow opts a.pid a.returnValue (preparedBuffer a.row n) (movedNbytes a.row)
        (a.row.int .descriptor) (a.row.int .offset) := by
  obtain ⟨kind, held, row, rest, queued, later, laterRest⟩ := a
  obtain rfl : kind = .pwrite := hkind
  obtain rfl : queued = true := hqueued
  have hprepared : prepareMembers .pwrite held row rest =
      some (.pwrite (preparedBuffer row n) n (row.int .descriptor) (row.int .offset)) := by
    simp [prepareMembers, prepareWriteMembers_eq h, preparedBuffer]
  rw [processRow_of_ownMove rfl hm hprepared, movedNbytes, h.uint64]
  rfl

theorem processRow_simulated (hkind : a.kind = .write ∨ a.kind = .pwrite)
    (hqueued : a.queued = true) (hm : a.module = some m) (h : Captured a.row n)
    (hfd : w.resolves a.pid (a.row.int .descriptor) = some syscallSimulated) :
    ∃ replayed, processRow opts m a.position.1 a.position.2 w = some (replayed, w) := by
  rcases hkind with hkind | hkind
  · rw [processRow_write hkind hqueued hm h, writeProcessRow, onDescriptor_apply, hfd]
    exact ⟨0, rfl⟩
  · rw [processRow_pwrite hkind hqueued hm h, pwriteProcessRow, onDescriptor_apply, hfd]
    exact ⟨_, rfl⟩

def passedBuffer (opts : Options) (a : Execution) (n : Nat) : Buffer :=
  if opts.patternData.isEmpty then preparedBuffer a.row n
  else ⟨if a.kind = .pwrite then movedNbytes a.row else n, patternFill opts.patternData⟩

theorem processRow_real (hkind : a.kind = .write ∨ a.kind = .pwrite) (hqueued : a.queued = true)
    (hm : a.module = some m) (h : Captured a.row n)
    (hfd : w.resolves a.pid (a.row.int .descriptor) = some fd) (hreal : fd ≠ syscallSimulated) :
    processRow opts m a.position.1 a.position.2 w =
      if a.kind = .pwrite ∧ opts.patternData.isEmpty = false ∧ newBuffer (movedNbytes a.row) = none
      then none
      else intSyscall (dataCall a fd (passedBuffer opts a n) (movedNbytes a.row)) w := by
  rcases hkind with hkind | hkind
  · rw [processRow_write hkind hqueued hm h, writeProcessRow, onDescriptor_apply, hfd,
      Option.bind_some, if_neg hreal, dataCall, passedBuffer]
    simp only [hkind, reduceCtorEq, if_false, false_and]
    rfl
  · rw [processRow_pwrite hkind hqueued hm h, pwriteProcessRow, onDescriptor_apply, hfd,
      Option.bind_some, if_neg hreal, dataCall, passedBuffer]
    simp only [hkind, if_true, true_and]
    cases hempty : opts.patternData.isEmpty with
    | true => simp
    | false =>
        cases hsize : newBuffer (movedNbytes a.row) with
        | none => rfl
        | some size =>
            have hpassed : size = movedNbytes a.row := by
              unfold newBuffer at hsize
              split at hsize
              · exact (Option.some.inj hsize).symm
              · cases hsize
            rw [hpassed]
            rfl

theorem passedContents_eq_traced_iff (source : RandomSource) (h : Captured a.row n)
    (hlength : (n : Int) < 2 ^ 31) :
    passedContents opts source a.kind a.row =
        some ((tracedBytes opts source (a.row.bytes .data_written)).map some) ↔
      if opts.patternData.isEmpty then n = 0 ∨ int32 a.returnValue = n else CopyFits a.row n := by
  have hmoved := h.movedNbytes_iff.mpr hlength
  unfold passedContents tracedBytes
  split
  · have hwritten := preparedContents_eq_captured_iff h
    cases hprepared : preparedContents a.row with
    | none =>
        rw [hprepared] at hwritten
        exact hwritten
    | some contents =>
        rw [hprepared] at hwritten
        exact hwritten
  · cases hprepared : preparedContents a.row with
    | none =>
        refine iff_of_false (fun heq => by cases heq) fun hfits => ?_
        have hsome := (preparedContents_eq_some_iff h).mpr ⟨hfits, rfl⟩
        rw [hprepared] at hsome
        cases hsome
    | some contents =>
        refine iff_of_true ?_ ((preparedContents_eq_some_iff h).mp hprepared).1
        show fillBuffer source opts.patternData
          (if a.kind = .pwrite then fresh (movedNbytes a.row).toNat else contents)
          (movedNbytes a.row).toNat = _
        rw [hmoved, Int.toNat_natCast, h.length]
        -- both buffers have the requested length
        split
        · have hfilled := fillBuffer_eq source opts.patternData (fresh n)
          rwa [fresh, List.length_replicate] at hfilled
        · have hfilled := fillBuffer_eq source opts.patternData contents
          rwa [preparedContents_length h hprepared] at hfilled

theorem bufferContents_passedBuffer (source : RandomSource) (h : Captured a.row n)
    (hlength : (n : Int) < 2 ^ 31) {contents : Contents}
    (hcontents : passedContents opts source a.kind a.row = some contents)
    (htraced : contents = (tracedBytes opts source (a.row.bytes .data_written)).map some) :
    contents = bufferContents source (passedBuffer opts a n) := by
  have hmoved := h.movedNbytes_iff.mpr hlength
  by_cases hempty : opts.patternData.isEmpty = true
  · have hprepared : preparedContents a.row = some contents := by
      unfold passedContents at hcontents
      cases hprepared : preparedContents a.row with
      | none =>
          rw [hprepared] at hcontents
          cases hcontents
      | some buffer =>
          rw [hprepared, Option.bind_eq_bind, Option.bind_some, if_pos hempty] at hcontents
          exact hcontents
    obtain ⟨hfits, rfl⟩ := (preparedContents_eq_some_iff h).mp hprepared
    rw [passedBuffer, if_pos hempty]
    simp only [bufferContents, preparedBuffer, fillBytes, Int.toNat_natCast, List.length_take,
      h.length]
    congr 2
    omega
  · have hsize : (if a.kind = .pwrite then movedNbytes a.row else n) = n := by
      rw [hmoved, ite_self]
    rw [passedBuffer, if_neg hempty, hsize, htraced, tracedBytes, if_neg hempty, h.length]
    simp only [bufferContents, Int.toNat_natCast, fillBytes_length, Nat.sub_self]
    exact (List.append_nil _).symm

theorem dataCall_nbytes {data data' : Buffer} {nbytes nbytes' : Int}
    (h : dataCall a fd data nbytes = dataCall a fd data' nbytes') : nbytes = nbytes' := by
  unfold dataCall at h
  split at h
  · injection h
  · injection h

/-- The copy passes the traced data just where the length is that of an `int` and,
without a pattern, every requested byte was written. -/
theorem passesTraced_iff (source : RandomSource) (hkind : a.kind = .write ∨ a.kind = .pwrite)
    (hqueued : a.queued = true) (hm : a.module = some m) (h : Captured a.row n)
    (hfd : w.resolves a.pid (a.row.int .descriptor) = some fd) :
    PassesTraced opts source w a m fd n ↔
      fd = syscallSimulated ∨ (n : Int) < 2 ^ 31 ∧
        if opts.patternData.isEmpty then n = 0 ∨ int32 a.returnValue = n
        else CopyFits a.row n := by
  by_cases hreal : fd = syscallSimulated
  · refine iff_of_true ?_ (.inl hreal)
    rw [hreal] at hfd
    obtain ⟨replayed, hrun⟩ := processRow_simulated hkind hqueued hm h hfd
    exact ⟨replayed, w, hrun, .inl ⟨hreal, rfl⟩⟩
  have hrun := @processRow_real opts w a m n fd hkind hqueued hm h hfd hreal
  rw [or_iff_right hreal]
  constructor
  · rintro ⟨replayed, w', hfinished, hpassed⟩
    rw [hrun] at hfinished
    split at hfinished
    · cases hfinished
    · obtain ⟨-, rfl⟩ := Prod.mk.inj (Option.some.inj hfinished)
      rcases hpassed with ⟨hsimulated, -⟩ | ⟨data, contents, hissued, hcontents, -, htraced⟩
      · exact absurd hsimulated hreal
      · rw [serve_issued, List.append_cancel_left_eq, List.singleton_inj] at hissued
        have hlength := h.movedNbytes_iff.mp (dataCall_nbytes hissued)
        rw [htraced] at hcontents
        exact ⟨hlength, (passedContents_eq_traced_iff source h hlength).mp hcontents⟩
  · rintro ⟨hlength, htraced⟩
    have hmoved := h.movedNbytes_iff.mpr hlength
    have hcontents := (passedContents_eq_traced_iff source h hlength).mpr htraced
    have hallocates : newBuffer (movedNbytes a.row) ≠ none := by
      rw [hmoved, newBuffer_of_le (Int.natCast_nonneg n) h.allocates]
      exact Option.some_ne_none _
    rw [if_neg fun hthrows => hallocates hthrows.2.2, hmoved] at hrun
    refine ⟨_, _, hrun, .inr ⟨passedBuffer opts a n, _, rfl, hcontents, ?_, rfl⟩⟩
    exact bufferContents_passedBuffer source h hlength hcontents rfl

end

/-- The copy of a `write` of the captured bytes to a descriptor of the start. -/
def writeOf (captured : List UInt8) (returnValue : Int) : Execution :=
  let call := queuedCall .write 1 returnValue fun
    | .descriptor => 1
    | .bytes_requested => captured.length
    | _ => 0
  { call with row := { call.row with bytes := fun _ => captured } }

def noRandom : RandomSource :=
  ⟨fun _ => 0, fun _ => 0⟩

theorem full_write_passesTraced :
    ∃ m, (writeOf [7, 8] 2).module = some m ∧
      PassesTraced quiet noRandom (startWorld inOrder) (writeOf [7, 8] 2) m 1 2 := by
  refine ⟨_, rfl, (passesTraced_iff noRandom (.inl rfl) rfl rfl ⟨rfl, rfl, by decide⟩ rfl).mpr ?_⟩
  refine .inr ⟨by decide, ?_⟩
  rw [if_pos (show quiet.patternData.isEmpty = true from rfl)]
  exact .inr rfl

/-- Of four bytes that were requested, only the two that were written are copied. -/
theorem short_write_not_passesTraced :
    ∃ m, (writeOf [7, 8, 9, 10] 2).module = some m ∧
      passedContents quiet noRandom .write (writeOf [7, 8, 9, 10] 2).row =
        some [some 7, some 8, none, none] ∧
      ¬PassesTraced quiet noRandom (startWorld inOrder) (writeOf [7, 8, 9, 10] 2) m 1 4 := by
  have hpassed : passedContents quiet noRandom .write (writeOf [7, 8, 9, 10] 2).row =
      some [some 7, some 8, none, none] := rfl
  refine ⟨_, rfl, hpassed, ?_⟩
  rintro ⟨replayed, w', hrun, ⟨hsimulated, -⟩ | ⟨data, contents, -, hcontents, -, htraced⟩⟩
  · exact absurd hsimulated (by decide)
  · rw [Option.some.inj (hcontents.symm.trans hpassed)] at htraced
    exact absurd htraced (by decide)

end SyscallReplayer.WriteBuffers
