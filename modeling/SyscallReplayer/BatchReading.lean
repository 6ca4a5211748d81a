import SyscallReplayer.ExtentSeries
import SyscallReplayer.ReplayModules

/-!
# Reading the rows of one module in batches

A module decodes its rows one by one, from one extent after another, and the
copies are queued. The last row that a batch decodes stays in the module and is
queued by the next batch.
-/

namespace SyscallReplayer.BatchReading

open ReplayModules ExtentSeries

structure Reader where
  kind : SysCallKind
  /-- The extent that the series has, empty when it was cleared. -/
  series : Series Row
  /-- The extents that the source has not handed out yet. -/
  source : List (List Row)
  /-- The members after the last `prepareRow`. -/
  decoded : Option ReplayModule
  /-- The copies that were pushed on the heaps, in this order. -/
  pushed : List ReplayModule
  finishedModules : Bool

namespace Reader

def getSharedExtent (r : Reader) : Bool × Reader :=
  match r.source with
  | [] => (false, r)
  | extent :: source => (true, { r with series := .ofExtent extent, source := source })

def curExtentHasMoreRecord (r : Reader) : Bool × Reader :=
  if r.series.morerecords then (true, r) else (false, { r with series := .ofExtent [] })

/-- `cur_extent_has_more_record() || getSharedExtent() != nullptr`. -/
def hasRow (r : Reader) : Bool × Reader :=
  match r.curExtentHasMoreRecord with
  | (true, r) => (true, r)
  | (false, r) => r.getSharedExtent

/-- A kind whose calls are one row each: `rows_per_call_` stays 1. -/
def prepareRow (r : Reader) : Option Reader := do
  let row ← r.series.row?
  let held := r.decoded.elim 0 fun m => m.common.returnVal
  let m ← ReplayModules.prepareRow r.kind held row r.series.rest.tail
  let series ← r.series.next
  return { r with series := series, decoded := some m }

/-- A copy of the module is pushed on the heap of its pid; `move` gives a null
pointer for the kinds that have none. -/
def push (r : Reader) : Option Reader := do
  let m ← r.decoded
  let copy ← move m
  return { r with pushed := r.pushed ++ [copy] }

end Reader

/-- What `load_syscall_modules` does with a module. -/
def loadSyscallModule (kind : SysCallKind) (extents : List (List Row)) : Option Reader :=
  match (Reader.mk kind (.ofExtent []) extents none [] false).getSharedExtent with
  | (true, r) => r.prepareRow.bind Reader.push
  | (false, _) => none

/-- The loop of `batch_syscall_modules`, which leaves the last row that it
prepares in the module. -/
def batchLoop : Nat → Reader → Option Reader
  | 0, r => some r
  | count + 1, r =>
      match r.hasRow with
      | (true, r) => do
          let r ← r.prepareRow
          let r ← if count + 1 ≠ 1 then r.push else some r
          batchLoop count r
      | (false, r) => some { r with finishedModules := true }

/-- One call: its size, an `unsigned int`, and what the counter
`numberOfSyscalls` of the module is when it starts. -/
structure Batch where
  batchSize : Nat
  numberOfSyscalls : Nat

namespace Batch

def returnsEarly (b : Batch) : Prop :=
  b.numberOfSyscalls > b.batchSize * 2 % 2 ^ 32

instance (b : Batch) : Decidable b.returnsEarly :=
  inferInstanceAs (Decidable (_ > _))

end Batch

def batchSyscallModules (isFirstTime : Bool) (r : Reader) (b : Batch) : Option Reader :=
  if r.finishedModules ∨ b.returnsEarly then some r
  else do
    let r ← if isFirstTime then some r else r.push
    batchLoop (b.batchSize - 1) r

/-- The first call has `isFirstTime` set, the others do not. -/
def runBatches (r : Reader) : List Batch → Option Reader
  | [] => some r
  | first :: others => do
      let r ← batchSyscallModules true r first
      others.foldlM (batchSyscallModules false) r

def SingleRow (kind : SysCallKind) : Prop :=
  kind ≠ .execve ∧ kind ≠ .readv ∧ kind ≠ .writev

instance (kind : SysCallKind) : Decidable (SingleRow kind) :=
  inferInstanceAs (Decidable (_ ∧ _ ∧ _))

/-- What a module decodes from a row of its own. -/
def recordOf (kind : SysCallKind) (row : Row) : Option ReplayModule :=
  ReplayModules.prepareRow kind 0 row []

def copyOf (kind : SysCallKind) (row : Row) : Option ReplayModule :=
  (recordOf kind row).bind move

/-- The rows up to `k` are pushed, each once and in order, and the module has
decoded the last of them or the next one; a finished module has pushed all. -/
structure ReadsExactly (kind : SysCallKind) (rows : List Row) (r : Reader) (k : Nat) : Prop where
  inRange : k < rows.length
  pushed : r.pushed.map some = (rows.take (k + 1)).map (copyOf kind)
  decoded : r.decoded = rows[k]?.bind (recordOf kind) ∨
    k + 1 < rows.length ∧ r.decoded = rows[k + 1]?.bind (recordOf kind)
  finished : r.finishedModules = true → k + 1 = rows.length

theorem prepareRow_eq_recordOf {kind : SysCallKind} (h : SingleRow kind) (held : Int) (row : Row)
    (rest : List Row) : ReplayModules.prepareRow kind held row rest = recordOf kind row := by
  have hmembers : prepareMembers kind held row rest = prepareMembers kind 0 row [] := by
    cases kind
    case execve => exact absurd rfl h.1
    all_goals rfl
  unfold recordOf ReplayModules.prepareRow
  rw [hmembers]

/-- A result meets `P`, and under the condition `total` there is one. -/
def Yields {α : Type*} (total : Prop) (P : α → Prop) (o : Option α) : Prop :=
  (∀ a, o = some a → P a) ∧ (total → o.isSome)

namespace Yields

variable {α β : Type*} {total : Prop} {P : α → Prop} {Q : β → Prop} {o : Option α}

theorem pure {a : α} (h : P a) : Yields total P (some a) := by
  refine ⟨fun b hb => ?_, fun _ => rfl⟩
  obtain rfl := Option.some.inj hb
  exact h

theorem bind {f : α → Option β} (h : Yields total P o)
    (hf : ∀ a, P a → Yields total Q (f a)) : Yields total Q (o.bind f) := by
  constructor
  · intro b hb
    obtain ⟨a, ha, hfa⟩ := Option.bind_eq_some_iff.mp hb
    exact (hf a (h.1 a ha)).1 b hfa
  · intro htotal
    obtain ⟨a, ha⟩ := Option.isSome_iff_exists.mp (h.2 htotal)
    rw [ha]
    exact (hf a (h.1 a ha)).2 htotal

theorem foldlM {γ : Type*} {f : α → γ → Option α} {l : List γ} {a : α}
    (hf : ∀ a, P a → ∀ c ∈ l, Yields total P (f a c)) (ha : P a) :
    Yields total P (l.foldlM f a) := by
  induction l generalizing a with
  | nil => exact pure ha
  | cons c l ih =>
      rw [List.foldlM_cons]
      refine bind (hf a ha c List.mem_cons_self) fun b hb => ?_
      exact ih (fun a ha c hc => hf a ha c (List.mem_cons_of_mem _ hc)) hb

end Yields

/-- `n` rows are decoded and the first `p` of them are pushed. -/
structure Progress (kind : SysCallKind) (rows : List Row) (n p : Nat) (finished : Bool)
    (r : Reader) : Prop where
  sameKind : r.kind = kind
  bound : n ≤ rows.length
  unread : r.series.rest ++ r.source.flatten = rows.drop n
  extents : ∀ extent ∈ r.source, extent ≠ []
  decoded : ∀ i, n = i + 1 → r.decoded = rows[i]?.bind (recordOf kind)
  pushed : r.pushed.map some = (rows.take p).map (copyOf kind)
  finished : r.finishedModules = finished

section

variable {kind : SysCallKind} {rows : List Row} {n p : Nat} {r : Reader}

/-- Every row can be decoded and copied. -/
def Copies (kind : SysCallKind) (rows : List Row) : Prop :=
  ∀ row ∈ rows, (copyOf kind row).isSome

theorem hasRow_of_lt (h : Progress kind rows n p false r) (hn : n < rows.length) :
    ∃ r', r.hasRow = (true, r') ∧ Progress kind rows n p false r' ∧ r'.series.rest ≠ [] := by
  unfold Reader.hasRow Reader.curExtentHasMoreRecord
  cases hmore : r.series.morerecords with
  | true => exact ⟨r, rfl, h, Series.morerecords_iff.mp hmore⟩
  | false =>
      have hempty : r.series.rest = [] := by
        by_contra hne
        rw [Series.morerecords_iff.mpr hne] at hmore
        cases hmore
      have hunread := h.unread
      rw [hempty, List.nil_append] at hunread
      cases hsource : r.source with
      | nil =>
          rw [hsource, List.flatten_nil] at hunread
          exact absurd (List.drop_eq_nil_iff.mp hunread.symm) (by omega)
      | cons extent source =>
          have hextents := h.extents
          rw [hsource] at hunread hextents
          refine ⟨{ r with series := .ofExtent extent, source := source }, rfl, ?_, ?_⟩
          · exact { h with
              unread := hunread
              extents := fun e he => hextents e (List.mem_cons_of_mem _ he) }
          · exact hextents extent List.mem_cons_self

theorem hasRow_of_eq (h : Progress kind rows rows.length p false r) :
    ∃ r', r.hasRow = (false, r') ∧ Progress kind rows rows.length p false r' := by
  have hunread := h.unread
  rw [List.drop_length, List.append_eq_nil_iff] at hunread
  obtain ⟨hrest, hsource⟩ := hunread
  have hnone : r.source = [] := by
    cases hs : r.source with
    | nil => rfl
    | cons extent source =>
        have hempty : extent = [] := by
          rw [hs, List.flatten_cons, List.append_eq_nil_iff] at hsource
          exact hsource.1
        exact absurd hempty (h.extents extent (hs ▸ List.mem_cons_self))
  have hmore : r.series.morerecords = false := by
    by_contra hne
    exact Series.morerecords_iff.mp (Bool.eq_true_of_not_eq_false hne) hrest
  refine ⟨{ r with series := .ofExtent [] }, ?_, ?_⟩
  · unfold Reader.hasRow Reader.curExtentHasMoreRecord
    rw [hmore]
    simp only [Reader.getSharedExtent, hnone]
    rfl
  · exact { h with
      unread := by
        rw [List.drop_length]
        show [] ++ r.source.flatten = []
        rw [hnone]
        rfl }

theorem prepareRow_yields (hkind : SingleRow kind) (h : Progress kind rows n p false r)
    (hrest : r.series.rest ≠ []) :
    Yields (Copies kind rows) (Progress kind rows (n + 1) p false) r.prepareRow := by
  obtain ⟨row, rest, hrow⟩ := List.exists_cons_of_ne_nil hrest
  have hunread := h.unread
  rw [hrow, List.cons_append] at hunread
  have hn : n < rows.length := by
    by_contra hge
    rw [List.drop_eq_nil_of_le (by omega)] at hunread
    cases hunread
  rw [List.drop_eq_getElem_cons hn] at hunread
  obtain ⟨rfl, htail⟩ := List.cons.inj hunread
  obtain ⟨series, hnext, hseries⟩ := Series.exists_next hrow
  have hprepare : r.prepareRow = (recordOf kind rows[n]).map fun m =>
      { r with series := series, decoded := some m } := by
    have hrecord : ∀ held, ReplayModules.prepareRow r.kind held rows[n] rest =
        recordOf kind rows[n] := by
      intro held
      rw [h.sameKind]
      exact prepareRow_eq_recordOf hkind held rows[n] rest
    unfold Reader.prepareRow
    rw [Series.row?_eq, hrow, hnext]
    simp only [List.head?_cons, List.tail_cons, Option.bind_eq_bind, Option.bind_some, hrecord]
    cases recordOf kind rows[n] with
    | none => rfl
    | some m => rfl
  rw [hprepare]
  constructor
  · intro r' hr'
    obtain ⟨m, hm, rfl⟩ := Option.map_eq_some_iff.mp hr'
    exact {
      sameKind := h.sameKind
      bound := hn
      unread := by rw [← htail, ← hseries]
      extents := h.extents
      decoded := fun i hi => by
        obtain rfl : n = i := by omega
        rw [List.getElem?_eq_getElem hn, Option.bind_some, hm]
      pushed := h.pushed
      finished := h.finished }
  · intro hcopies
    have hcopy := hcopies rows[n] (List.getElem_mem hn)
    unfold copyOf at hcopy
    rw [Option.isSome_map]
    exact Option.isSome_of_isSome_bind hcopy

theorem push_yields (h : Progress kind rows (n + 1) n false r) :
    Yields (Copies kind rows) (Progress kind rows (n + 1) (n + 1) false) r.push := by
  have hn : n < rows.length := h.bound
  have hdecoded := h.decoded n rfl
  rw [List.getElem?_eq_getElem hn, Option.bind_some] at hdecoded
  have hpush : r.push = (copyOf kind rows[n]).map fun copy =>
      { r with pushed := r.pushed ++ [copy] } := by
    unfold Reader.push copyOf
    rw [hdecoded]
    cases recordOf kind rows[n] with
    | none => rfl
    | some m =>
        cases hmove : move m with
        | none => simp [hmove]
        | some copy => simp [hmove]
  rw [hpush]
  constructor
  · intro r' hr'
    obtain ⟨copy, hcopy, rfl⟩ := Option.map_eq_some_iff.mp hr'
    exact { h with
      pushed := by
        dsimp only
        rw [List.map_append, h.pushed, List.take_succ_eq_append_getElem hn, List.map_append,
          List.map_singleton, List.map_singleton, hcopy] }
  · intro hcopies
    rw [Option.isSome_map]
    exact hcopies rows[n] (List.getElem_mem hn)

/-- Between two calls after the first one: all rows are read, or one row is
pending. -/
def Settled (kind : SysCallKind) (rows : List Row) (r : Reader) : Prop :=
  Progress kind rows rows.length rows.length true r ∨
    ∃ n, 0 < n ∧ Progress kind rows (n + 1) n false r

theorem batchLoop_yields (hkind : SingleRow kind) (count : Nat) (hn : 0 < n)
    (h : Progress kind rows n n false r) :
    Yields (Copies kind rows) (Settled kind rows) (batchLoop (count + 1) r) := by
  induction count generalizing n r with
  | zero =>
      rcases h.bound.lt_or_eq with hlt | rfl
      · obtain ⟨r', hrow, hprogress, hrest⟩ := hasRow_of_lt h hlt
        rw [batchLoop, hrow]
        refine (prepareRow_yields hkind hprogress hrest).bind fun s hs => ?_
        exact .pure (.inr ⟨n, hn, hs⟩)
      · obtain ⟨r', hrow, hprogress⟩ := hasRow_of_eq h
        rw [batchLoop, hrow]
        exact .pure (.inl { hprogress with finished := rfl })
  | succ count ih =>
      rcases h.bound.lt_or_eq with hlt | rfl
      · obtain ⟨r', hrow, hprogress, hrest⟩ := hasRow_of_lt h hlt
        rw [batchLoop, hrow]
        refine (prepareRow_yields hkind hprogress hrest).bind fun s hs => ?_
        refine (push_yields hs).bind fun t ht => ?_
        exact ih (Nat.succ_pos n) ht
      · obtain ⟨r', hrow, hprogress⟩ := hasRow_of_eq h
        rw [batchLoop, hrow]
        exact .pure (.inl { hprogress with finished := rfl })

/-- Row 0 is pushed when a module is loaded. -/
theorem load_yields {extents : List (List Row)} (hkind : SingleRow kind)
    (hextents : ∀ extent ∈ extents, extent ≠ []) :
    ∀ r, loadSyscallModule kind extents = some r → Progress kind extents.flatten 1 1 false r := by
  intro r hr
  cases extents with
  | nil => cases hr
  | cons extent source =>
      have hstart : Progress kind (extent :: source).flatten 0 0 false
          ⟨kind, .ofExtent extent, source, none, [], false⟩ :=
        { sameKind := rfl
          bound := Nat.zero_le _
          unread := rfl
          extents := fun e he => hextents e (List.mem_cons_of_mem _ he)
          decoded := fun i hi => absurd hi (Nat.succ_ne_zero i).symm
          pushed := rfl
          finished := rfl }
      have hrest : extent ≠ [] := hextents extent List.mem_cons_self
      exact ((prepareRow_yields hkind hstart hrest).bind fun s hs => push_yields hs).1 r hr

theorem first_batch_yields (hkind : SingleRow kind) {b : Batch} (hsize : 2 ≤ b.batchSize)
    (hfirst : ¬b.returnsEarly) (h : Progress kind rows 1 1 false r) :
    Yields (Copies kind rows) (Settled kind rows) (batchSyscallModules true r b) := by
  obtain ⟨count, hcount⟩ : ∃ count, b.batchSize - 1 = count + 1 := ⟨b.batchSize - 2, by omega⟩
  have hgo : ¬(r.finishedModules = true ∨ b.returnsEarly) := by
    rw [h.finished]
    exact fun hor => hor.elim Bool.false_ne_true hfirst
  rw [batchSyscallModules, if_neg hgo, hcount]
  exact batchLoop_yields hkind count Nat.one_pos h

theorem later_batch_yields (hkind : SingleRow kind) {b : Batch} (hsize : 2 ≤ b.batchSize)
    (h : Settled kind rows r) :
    Yields (Copies kind rows) (Settled kind rows) (batchSyscallModules false r b) := by
  obtain ⟨count, hcount⟩ : ∃ count, b.batchSize - 1 = count + 1 := ⟨b.batchSize - 2, by omega⟩
  unfold batchSyscallModules
  split
  · exact .pure h
  · rename_i hgo
    rcases h with hall | ⟨n, hn, hpending⟩
    · exact absurd (.inl hall.finished) hgo
    · rw [hcount]
      exact (push_yields hpending).bind fun s hs => batchLoop_yields hkind count (Nat.succ_pos n) hs

theorem Settled.readsExactly (hrows : rows ≠ []) (h : Settled kind rows r) :
    ∃ k, ReadsExactly kind rows r k := by
  have hlength : 0 < rows.length := List.length_pos_of_ne_nil hrows
  rcases h with hall | ⟨n, hn, hpending⟩
  · obtain ⟨k, hk⟩ : ∃ k, rows.length = k + 1 := ⟨rows.length - 1, by omega⟩
    refine ⟨k, by omega, ?_, .inl ?_, fun _ => hk.symm⟩
    · rw [hall.pushed, hk]
    · exact hall.decoded k hk
  · obtain ⟨k, rfl⟩ : ∃ k, n = k + 1 := ⟨n - 1, by omega⟩
    have hbound := hpending.bound
    refine ⟨k, by omega, ?_, .inr ⟨by omega, ?_⟩, fun hfinished => ?_⟩
    · exact hpending.pushed
    · exact hpending.decoded (k + 1) rfl
    · rw [hpending.finished] at hfinished
      cases hfinished

end

/-- Whatever the extents and the batches, no row is lost or repeated, as long as
the first call does not return early. -/
theorem batches_read_exactly {kind : SysCallKind} {extents : List (List Row)} {loaded : Reader}
    {first : Batch} {others : List Batch} (hkind : SingleRow kind)
    (hextents : ∀ extent ∈ extents, extent ≠ [])
    (hloaded : loadSyscallModule kind extents = some loaded)
    (hsize : ∀ b ∈ first :: others, 2 ≤ b.batchSize) (hfirst : ¬first.returnsEarly) :
    (∀ r, runBatches loaded (first :: others) = some r →
      ∃ k, ReadsExactly kind extents.flatten r k) ∧
      (Copies kind extents.flatten → (runBatches loaded (first :: others)).isSome) := by
  have hprogress := load_yields hkind hextents loaded hloaded
  have hrows : extents.flatten ≠ [] := by
    intro hnil
    have hbound := hprogress.bound
    rw [hnil] at hbound
    exact absurd hbound (by decide)
  have hyields : Yields (Copies kind extents.flatten) (Settled kind extents.flatten)
      (runBatches loaded (first :: others)) := by
    refine (first_batch_yields hkind (hsize first List.mem_cons_self) hfirst hprogress).bind ?_
    intro r hr
    refine .foldlM (fun s hs b hb => ?_) hr
    exact later_batch_yields hkind (hsize b (List.mem_cons_of_mem _ hb)) hs
  exact ⟨fun r hr => (hyields.1 r hr).readsExactly hrows, hyields.2⟩

/-- A `close` of this descriptor. -/
def closeRow (fd : Int) : Row where
  int := fun
    | .descriptor => fd
    | _ => 0
  text _ := ""
  bytes _ := []
  isNull _ := false

/-- When the first call returns early, the second one pushes row 0 again. -/
theorem early_batch_repeats_row :
    ∃ loaded r, loadSyscallModule .close [[closeRow 3]] = some loaded ∧
      runBatches loaded [⟨2, 5⟩, ⟨2, 0⟩] = some r ∧
      ¬∃ k, ReadsExactly .close [closeRow 3] r k := by
  refine ⟨_, _, rfl, rfl, ?_⟩
  rintro ⟨k, hk⟩
  have hlength := congrArg List.length hk.pushed
  rw [List.length_map, List.length_map, List.length_take] at hlength
  have htwo : (2 : Nat) = min (k + 1) 1 := hlength
  omega

theorem three_batches_read_exactly :
    ∃ loaded, loadSyscallModule .close [[closeRow 3], [closeRow 4, closeRow 5]] = some loaded ∧
      (∀ r, runBatches loaded [⟨2, 1⟩, ⟨2, 5⟩, ⟨3, 1⟩] = some r →
        ∃ k, ReadsExactly .close [closeRow 3, closeRow 4, closeRow 5] r k) ∧
      (Copies .close [closeRow 3, closeRow 4, closeRow 5] →
        (runBatches loaded [⟨2, 1⟩, ⟨2, 5⟩, ⟨3, 1⟩]).isSome) := by
  have hkind : SingleRow .close := by decide
  have hextents : ∀ extent ∈ [[closeRow 3], [closeRow 4, closeRow 5]], extent ≠ [] := by
    intro extent hextent
    rcases List.mem_pair.mp hextent with rfl | rfl
    · exact List.cons_ne_nil _ _
    · exact List.cons_ne_nil _ _
  have hsize : ∀ b ∈ [(⟨2, 1⟩ : Batch), ⟨2, 5⟩, ⟨3, 1⟩], 2 ≤ b.batchSize := by decide
  have hfirst : ¬(⟨2, 1⟩ : Batch).returnsEarly := by decide
  exact ⟨_, rfl, batches_read_exactly hkind hextents rfl hsize hfirst⟩

end SyscallReplayer.BatchReading
