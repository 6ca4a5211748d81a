import SyscallReplayer.ExtentSeries
import SyscallReplayer.ReplayModules

/-!
# The rows of one call

An `execve`, `readv` or `writev` call takes several rows of its extent. A module
object reads the first of them and then steps over the rows of the call.
-/

namespace SyscallReplayer.CallFraming

open ReplayModules ExtentSeries

structure Reader where
  series : Series Row
  rowsPerCall : Nat

/-- An object on the first row of an extent; its constructor sets `rows_per_call_`. -/
def Reader.start (extent : List Row) : Reader :=
  ⟨.ofExtent extent, 1⟩

/-- `SystemCallTraceReplayModule::prepareRow`: the fields of the row are read, then
the cursor moves. -/
def prepareRowBase (r : Reader) : Option Reader := do
  let _ ← r.series.row?
  let series ← r.series.advance r.rowsPerCall
  return { r with series := series }

/-- The loop of `execve`'s `prepareRow` over the rows from the cursor on. -/
def countRows (continuationNum : Int) (count : Nat) : List Row → Nat
  | [] => count
  | row :: rows =>
      if continuationNum ≥ 0 then
        countRows (row.int .continuation_number) (count + 1) rows
      else count

/-- The cursor is set back to the first row before the base class steps over the
rows. -/
def prepareRowExecve (r : Reader) : Option Reader := do
  let row ← r.series.row?
  prepareRowBase { r with
    rowsPerCall := countRows (row.int .continuation_number) 1 r.series.rest }

/-- `readv` and `writev` have no `prepareRow` of their own. -/
def prepareRow (kind : SysCallKind) (r : Reader) : Option Reader :=
  match kind with
  | .execve => prepareRowExecve r
  | _ => prepareRowBase r

def afterPrepares (kind : SysCallKind) (extent : List Row) : Nat → Option Reader
  | 0 => some (.start extent)
  | n + 1 => (afterPrepares kind extent n).bind (prepareRow kind)

def continuation (row : Row) : Int :=
  row.int .continuation_number

/-- One row for the pathname, one for each argument and environment variable and
one for the common fields, which may stand alone. -/
inductive ExecveRows : List Row → Prop
  | lone (row : Row) (h : continuation row = -1) : ExecveRows [row]
  | call (first last : Row) (arguments : List Row) (hfirst : continuation first = 0)
      (hnumbers : arguments.map continuation =
        (List.range arguments.length).map fun i : Nat => (i : Int) + 1)
      (hlast : continuation last = -1) : ExecveRows (first :: arguments ++ [last])

/-- One row with the number of buffers and one for each buffer. -/
inductive VectorRows : List Row → Prop
  | call (first : Row) (buffers : List Row) (hfirst : first.int .iov_number = -1)
      (hcount : first.int .count = buffers.length)
      (hnumbers : buffers.map (fun row => row.int .iov_number) =
        (List.range buffers.length).map fun i : Nat => (i : Int)) :
      VectorRows (first :: buffers)

def CallRows : SysCallKind → List Row → Prop
  | .execve, rows => ExecveRows rows
  | .readv, rows | .writev, rows => VectorRows rows
  | _, _ => False

/-- Each `prepareRow` starts on the first row of a call and leaves the cursor on
the first row of the next one. -/
def Framed (kind : SysCallKind) (calls : List (List Row)) : Prop :=
  ∀ i ≤ calls.length, ∃ r, afterPrepares kind calls.flatten i = some r ∧
    r.series.pos = (calls.take i).flatten.length

theorem countRows_append {rows rest : List Row} {last : Row} {c : Int} {k : Nat}
    (hc : 0 ≤ c) (hrows : ∀ row ∈ rows, 0 ≤ continuation row)
    (hlast : continuation last = -1) :
    countRows c k (rows ++ last :: rest) = k + rows.length + 1 := by
  induction rows generalizing c k with
  | nil =>
      rw [List.nil_append, countRows, if_pos hc]
      show countRows (continuation last) _ _ = _
      rw [hlast]
      cases rest with
      | nil => rfl
      | cons row rest => rfl
  | cons row rows ih =>
      have hrest := ih (c := continuation row) (k := k + 1) (hrows row List.mem_cons_self)
        fun r hr => hrows r (List.mem_cons_of_mem row hr)
      rw [List.cons_append, countRows, if_pos hc, List.length_cons]
      show countRows (continuation row) _ _ = _
      rw [hrest]
      omega

/-- The rows that `execve` steps over: one too many when the call has more than
one. -/
theorem countRows_execve {rows : List Row} (rest : List Row) (h : ExecveRows rows) :
    ∃ first others, rows = first :: others ∧
      countRows (continuation first) 1 (rows ++ rest) =
        if rows.length = 1 then 1 else rows.length + 1 := by
  cases h with
  | lone row h =>
      refine ⟨row, [], rfl, ?_⟩
      rw [h]
      rfl
  | call first last arguments hfirst hnumbers hlast =>
      refine ⟨first, arguments ++ [last], rfl, ?_⟩
      have hnonneg : ∀ row ∈ first :: arguments, 0 ≤ continuation row := by
        intro row hrow
        rcases List.mem_cons.mp hrow with rfl | hmem
        · exact hfirst.ge
        · have hnumber := List.mem_map_of_mem (f := continuation) hmem
          rw [hnumbers] at hnumber
          obtain ⟨i, -, hi⟩ := List.mem_map.mp hnumber
          rw [← hi]
          exact Int.natCast_nonneg (i + 1)
      rw [List.append_assoc, List.singleton_append,
        countRows_append hfirst.ge hnonneg hlast, if_neg (by simp)]
      simp only [List.cons_append, List.length_cons, List.length_append, List.length_nil]
      omega

/-- How many rows further the cursor is after the call. -/
def steps (kind : SysCallKind) (call : List Row) : Nat :=
  if kind = .execve ∧ call.length ≠ 1 then call.length + 1 else 1

theorem steps_eq_length_iff {kind : SysCallKind} {call : List Row} :
    steps kind call = call.length ↔ call.length = 1 := by
  unfold steps
  split
  · omega
  · omega

theorem prepareRow_eq_some {kind : SysCallKind} {r r' : Reader}
    (h : prepareRow kind r = some r') :
    r'.series.extent = r.series.extent ∧ (kind ≠ .execve → r'.rowsPerCall = r.rowsPerCall) := by
  have hbase : ∀ {r r' : Reader}, prepareRowBase r = some r' →
      r'.series.extent = r.series.extent ∧ r'.rowsPerCall = r.rowsPerCall := by
    intro r r' h
    obtain ⟨row, -, hrest⟩ := Option.bind_eq_some_iff.mp h
    obtain ⟨series, hadvance, heq⟩ := Option.bind_eq_some_iff.mp hrest
    obtain rfl := Option.some.inj heq
    exact ⟨(Series.pos_of_advance hadvance).1, rfl⟩
  unfold prepareRow at h
  split at h
  · obtain ⟨row, -, hrest⟩ := Option.bind_eq_some_iff.mp h
    exact ⟨(hbase hrest).1, fun hne => absurd rfl hne⟩
  · exact ⟨(hbase h).1, fun _ => (hbase h).2⟩

theorem prepareRow_call {kind : SysCallKind} {before call after : List Row} {n : Nat}
    (hcall : CallRows kind call) (hn : kind ≠ .execve → n = 1) :
    prepareRow kind ⟨⟨before ++ (call ++ after), before.length⟩, n⟩ =
      ((⟨before ++ (call ++ after), before.length⟩ : Series Row).advance (steps kind call)).map
        fun series => ⟨series, steps kind call⟩ := by
  have hbase : ∀ (first : Row) (others : List Row) (k : Nat), call = first :: others →
      prepareRowBase ⟨⟨before ++ (call ++ after), before.length⟩, k⟩ =
        ((⟨before ++ (call ++ after), before.length⟩ : Series Row).advance k).map
          fun series => ⟨series, k⟩ := by
    intro first others k heq
    unfold prepareRowBase
    rw [heq, List.cons_append, Series.row?_append]
    cases (⟨before ++ first :: (others ++ after), before.length⟩ : Series Row).advance k with
    | none => rfl
    | some series => rfl
  cases kind
  case execve =>
    obtain ⟨first, others, heq, hcount⟩ := countRows_execve after hcall
    have hsteps : steps .execve call = if call.length = 1 then 1 else call.length + 1 := by
      unfold steps
      split_ifs with h h' h'
      · exact absurd h' h.2
      · rfl
      · rfl
      · exact absurd ⟨rfl, h'⟩ h
    have hrow : (⟨before ++ (call ++ after), before.length⟩ : Series Row).row? = some first := by
      rw [heq, List.cons_append, Series.row?_append]
    show prepareRowExecve _ = _
    unfold prepareRowExecve
    dsimp only
    rw [hrow, Series.rest_append]
    show prepareRowBase ⟨_, countRows (continuation first) 1 (call ++ after)⟩ = _
    rw [hcount, ← hsteps]
    exact hbase first others _ heq
  case readv | writev =>
    obtain ⟨first, buffers, -, -, -⟩ := hcall
    obtain rfl := hn (fun heq => nomatch heq)
    exact hbase first buffers 1 rfl
  all_goals exact hcall.elim

section

variable {kind : SysCallKind} {calls : List (List Row)}

theorem afterPrepares_eq_some {extent : List Row} {n : Nat} {r : Reader}
    (h : afterPrepares kind extent n = some r) :
    r.series.extent = extent ∧ (kind ≠ .execve → r.rowsPerCall = 1) := by
  induction n generalizing r with
  | zero =>
      obtain rfl := Option.some.inj h
      exact ⟨rfl, fun _ => rfl⟩
  | succ n ih =>
      obtain ⟨t, ht, hprepare⟩ := Option.bind_eq_some_iff.mp h
      obtain ⟨hextent, hrows⟩ := ih ht
      obtain ⟨hextent', hrows'⟩ := prepareRow_eq_some hprepare
      exact ⟨hextent'.trans hextent, fun hne => (hrows' hne).trans (hrows hne)⟩

theorem flatten_take_succ {i : Nat} (hi : i < calls.length) :
    (calls.take (i + 1)).flatten.length = (calls.take i).flatten.length + calls[i].length := by
  rw [List.take_succ_eq_append_getElem hi, List.flatten_append, List.length_append,
    List.flatten_singleton]

theorem flatten_split {i : Nat} (hi : i < calls.length) :
    calls.flatten = (calls.take i).flatten ++ (calls[i] ++ (calls.drop (i + 1)).flatten) := by
  conv_lhs => rw [← List.take_append_drop i calls]
  rw [List.flatten_append, List.drop_eq_getElem_cons hi, List.flatten_cons]

theorem afterPrepares_succ {i : Nat} {r : Reader} (hi : i < calls.length)
    (hcalls : ∀ call ∈ calls, CallRows kind call)
    (h : afterPrepares kind calls.flatten i = some r)
    (hpos : r.series.pos = (calls.take i).flatten.length) :
    afterPrepares kind calls.flatten (i + 1) =
      (r.series.advance (steps kind calls[i])).map fun series => ⟨series, steps kind calls[i]⟩ := by
  obtain ⟨hextent, hrows⟩ := afterPrepares_eq_some h
  obtain ⟨⟨extent, pos⟩, n⟩ := r
  dsimp only at hextent hpos hrows
  subst hextent hpos
  rw [afterPrepares, h, Option.bind_some]
  rw [flatten_split hi]
  exact prepareRow_call (hcalls calls[i] (List.getElem_mem hi)) hrows

/-- A stream is framed correctly just where every call is one row. -/
theorem framed_iff (hcalls : ∀ call ∈ calls, CallRows kind call) :
    Framed kind calls ↔ ∀ call ∈ calls, call.length = 1 := by
  constructor
  · intro hframed call hmem
    obtain ⟨i, hi, rfl⟩ := List.getElem_of_mem hmem
    obtain ⟨r, hr, hpos⟩ := hframed i hi.le
    obtain ⟨r', hr', hpos'⟩ := hframed (i + 1) hi
    rw [afterPrepares_succ hi hcalls hr hpos] at hr'
    obtain ⟨series, hadvance, rfl⟩ := Option.map_eq_some_iff.mp hr'
    have hmoved := (Series.pos_of_advance hadvance).2
    dsimp only at hpos'
    rw [flatten_take_succ hi] at hpos'
    have hsteps : steps kind calls[i] = calls[i].length := by omega
    exact steps_eq_length_iff.mp hsteps
  · intro hlone i
    induction i with
    | zero => exact fun _ => ⟨_, rfl, rfl⟩
    | succ i ih =>
        intro hi
        obtain ⟨r, hr, hpos⟩ := ih (by omega)
        have hlength := hlone calls[i] (List.getElem_mem hi)
        have hsteps : steps kind calls[i] = 1 := by
          rw [steps_eq_length_iff.mpr hlength, hlength]
        have hfits : r.series.pos + steps kind calls[i] ≤ r.series.extent.length := by
          rw [(afterPrepares_eq_some hr).1, hpos, flatten_split hi, hsteps, List.length_append,
            List.length_append, hlength]
          omega
        rw [afterPrepares_succ hi hcalls hr hpos, Series.advance_eq_some hfits]
        refine ⟨_, rfl, ?_⟩
        dsimp only
        rw [flatten_take_succ hi, hpos, hsteps, hlength]

end

/-- A row of `execve` with this continuation number. -/
def numberedRow (number : Int) : Row where
  int := fun
    | .continuation_number => number
    | _ => 0
  text _ := ""
  bytes _ := []
  isNull _ := false

/-- An `execve` without arguments, and one whose common fields stand alone. -/
def twoExecves : List (List Row) :=
  [[numberedRow 0, numberedRow (-1)], [numberedRow (-1)]]

theorem twoExecves_rows : ∀ call ∈ twoExecves, CallRows .execve call := by
  intro call hcall
  rcases List.mem_pair.mp hcall with rfl | rfl
  · exact .call (numberedRow 0) (numberedRow (-1)) [] rfl rfl rfl
  · exact .lone (numberedRow (-1)) rfl

/-- The second call is stepped over with the first one. -/
theorem twoExecves_not_framed :
    (∀ call ∈ twoExecves, CallRows .execve call) ∧ ¬Framed .execve twoExecves := by
  refine ⟨twoExecves_rows, fun hframed => ?_⟩
  obtain ⟨r, hr, hpos⟩ := hframed 1 (by decide)
  have hskipped : (afterPrepares .execve twoExecves.flatten 1).map (fun r => r.series.pos) =
      some 3 := rfl
  rw [hr, Option.map_some, hpos] at hskipped
  cases hskipped

theorem twoExecves_framed_iff :
    Framed .execve twoExecves ↔ ∀ call ∈ twoExecves, call.length = 1 :=
  framed_iff twoExecves_rows

end SyscallReplayer.CallFraming
