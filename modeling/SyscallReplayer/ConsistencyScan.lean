import SyscallReplayer.CInt
import SyscallReplayer.ResourcesManager

/-!
# The scan for inconsistent descriptors

`validate_consistency` asks the kernel about one descriptor after another.
`is_fd_in_use` keeps the 64-bit offset in an `int`, and reads `errno` also after
an `lseek` that has not set it.
-/

namespace SyscallReplayer.ConsistencyScan

open CInt ResourcesManager

def ebadf : Int := 9
def espipe : Int := 29

/-- What a descriptor number stands for in the kernel. -/
inductive OsDescriptor
  | closed
  | unseekable
  | seekable (offset : Int)
deriving DecidableEq

def OsDescriptor.isOpen : OsDescriptor → Bool
  | .closed => false
  | .unseekable | .seekable _ => true

/-- `lseek(fd, 0, SEEK_CUR)`, with `errno` before and after it. -/
def lseek (descriptor : OsDescriptor) (errno : Int) : Int × Int :=
  match descriptor with
  | .closed => (-1, ebadf)
  | .unseekable => (-1, espipe)
  | .seekable offset => (offset, errno)

def isFdInUse (files : Int → OsDescriptor) (fd errno : Int) : Bool × Int :=
  let (offset, errno) := lseek (files fd) errno
  let result := int32 offset
  (0 ≤ result || ebadf ≠ errno, errno)

theorem filterMap_one {α β : Type} (f : α → Option β) (a : α) :
    [a].filterMap f = (f a).toList := by
  rw [List.filterMap_cons]
  cases f a <;> rfl

theorem isFdInUse_iff {files : Int → OsDescriptor} {fd errno : Int} :
    (isFdInUse files fd errno).1 = true ↔
      0 ≤ int32 (lseek (files fd) errno).1 ∨ ebadf ≠ (lseek (files fd) errno).2 := by
  unfold isFdInUse
  rw [Bool.or_eq_true, decide_eq_true_iff, decide_eq_true_iff]

/-- What is logged about one descriptor. -/
def check (m : Manager) (fd : Int) (fdUsed : Bool) : Option Manager.Inconsistency :=
  if fdUsed ∧ fd ∉ m.usedFds then some (.unknown fd)
  else if ¬fdUsed ∧ fd ∈ m.usedFds then some (.unused fd)
  else none

/-- The log and `errno` after the first `maxFds` descriptors. -/
def validateConsistency (m : Manager) (files : Int → OsDescriptor) (errno : Int) :
    Nat → List Manager.Inconsistency × Int
  | 0 => ([], errno)
  | fd + 1 =>
      let (log, errno) := validateConsistency m files errno fd
      let (fdUsed, errno) := isFdInUse files fd errno
      (log ++ (check m fd fdUsed).toList, errno)

section

variable {m : Manager} {files : Int → OsDescriptor} {errno : Int}

def errnoBefore (files : Int → OsDescriptor) (errno : Int) : Nat → Int
  | 0 => errno
  | fd + 1 => (lseek (files fd) (errnoBefore files errno fd)).2

theorem validateConsistency_errno (n : Nat) :
    (validateConsistency m files errno n).2 = errnoBefore files errno n := by
  induction n with
  | zero => rfl
  | succ n ih =>
      simp only [validateConsistency, isFdInUse, errnoBefore]
      rw [ih]

/-- The scan is that of a manager which takes the answers of `is_fd_in_use`. -/
theorem validateConsistency_log (n : Nat) (inUse : Int → Bool)
    (h : ∀ fd : Nat, fd < n →
      inUse fd = (isFdInUse files fd (errnoBefore files errno fd)).1) :
    (validateConsistency m files errno n).1 = m.validateConsistency inUse n := by
  induction n with
  | zero => rfl
  | succ n ih =>
      have hlog := ih fun fd hfd => h fd (Nat.lt_succ_of_lt hfd)
      have hused := h n (Nat.lt_succ_self n)
      simp only [validateConsistency, validateConsistency_errno]
      rw [hlog, ← hused, Manager.validateConsistency, Manager.validateConsistency,
        List.range_succ, List.map_append, List.filterMap_append, List.map_singleton,
        filterMap_one]
      rfl

/-- The numbers whose lower half is negative as an `int`. -/
def NegativeInt (offset : Int) : Prop :=
  2 ^ 31 ≤ offset % 2 ^ 32

theorem int32_neg_iff {x : Int} : int32 x < 0 ↔ NegativeInt x := by
  unfold int32 NegativeInt
  rw [Int.bmod_def]
  split <;> omega

/-- The scan comes to the descriptor with `EBADF`: the last one below it that is
not seekable is closed, or all below it are seekable and `errno` was so before. -/
def StaleBadFd (files : Int → OsDescriptor) (errno : Int) (fd : Nat) : Prop :=
  (∃ p : Nat, p < fd ∧ files p = .closed ∧
      ∀ q : Nat, p < q → q < fd → ∃ offset, files q = .seekable offset) ∨
    (errno = ebadf ∧ ∀ q : Nat, q < fd → ∃ offset, files q = .seekable offset)

theorem staleBadFd_succ {fd : Nat} : StaleBadFd files errno (fd + 1) ↔
    files fd = .closed ∨ (∃ offset, files fd = .seekable offset) ∧ StaleBadFd files errno fd := by
  constructor
  · rintro (⟨p, hp, hclosed, hbetween⟩ | ⟨herrno, hbelow⟩)
    · rcases Nat.lt_succ_iff_lt_or_eq.mp hp with hlt | rfl
      · refine .inr ⟨hbetween fd hlt (Nat.lt_succ_self fd), .inl ⟨p, hlt, hclosed, ?_⟩⟩
        intro q hpq hq
        exact hbetween q hpq (Nat.lt_succ_of_lt hq)
      · exact .inl hclosed
    · refine .inr ⟨hbelow fd (Nat.lt_succ_self fd), .inr ⟨herrno, ?_⟩⟩
      intro q hq
      exact hbelow q (Nat.lt_succ_of_lt hq)
  · rintro (hclosed | ⟨hseekable, ⟨p, hp, hclosed, hbetween⟩ | ⟨herrno, hbelow⟩⟩)
    · refine .inl ⟨fd, Nat.lt_succ_self fd, hclosed, ?_⟩
      intro q hlt hq
      omega
    · refine .inl ⟨p, Nat.lt_succ_of_lt hp, hclosed, ?_⟩
      intro q hpq hq
      rcases Nat.lt_succ_iff_lt_or_eq.mp hq with hlt | rfl
      · exact hbetween q hpq hlt
      · exact hseekable
    · refine .inr ⟨herrno, ?_⟩
      intro q hq
      rcases Nat.lt_succ_iff_lt_or_eq.mp hq with hlt | rfl
      · exact hbelow q hlt
      · exact hseekable

theorem errnoBefore_eq_ebadf_iff (fd : Nat) :
    errnoBefore files errno fd = ebadf ↔ StaleBadFd files errno fd := by
  induction fd with
  | zero => simp [errnoBefore, StaleBadFd]
  | succ fd ih =>
      rw [staleBadFd_succ, ← ih, errnoBefore]
      cases files fd with
      | closed => simp [lseek]
      | unseekable => simp [lseek, ebadf, espipe]
      | seekable offset => simp [lseek]

/-- An answer is wrong just where a negative `int` meets a stale `EBADF`. -/
theorem isFdInUse_eq_isOpen_iff (fd : Nat) :
    (isFdInUse files fd (errnoBefore files errno fd)).1 = (files fd).isOpen ↔
      ∀ offset, files fd = .seekable offset → NegativeInt offset →
        ¬StaleBadFd files errno fd := by
  rw [← errnoBefore_eq_ebadf_iff, Bool.eq_iff_iff, isFdInUse_iff]
  cases files fd with
  | closed =>
      have hfailed : ¬0 ≤ int32 (-1) := by decide
      simp [lseek, OsDescriptor.isOpen, hfailed]
  | unseekable => simp [lseek, OsDescriptor.isOpen, ebadf, espipe]
  | seekable offset =>
      simp only [lseek, OsDescriptor.isOpen, iff_true, OsDescriptor.seekable.injEq]
      constructor
      · rintro hfound _ rfl hnegative hstale
        rcases hfound with hresult | herrno
        · exact absurd hresult (not_le_of_gt (int32_neg_iff.mpr hnegative))
        · exact herrno hstale.symm
      · intro h
        by_contra hlost
        rw [not_or, not_le, not_not] at hlost
        exact h offset rfl (int32_neg_iff.mp hlost.1) hlost.2.symm

/-- The log names the open descriptors that the manager does not know, and the
known ones that are not open. -/
def Exact (m : Manager) (files : Int → OsDescriptor) (maxFds : Nat)
    (log : List Manager.Inconsistency) : Prop :=
  ∀ fd : Int,
    (.unknown fd ∈ log ↔ (0 ≤ fd ∧ fd < maxFds) ∧ (files fd).isOpen = true ∧ fd ∉ m.usedFds) ∧
    (.unused fd ∈ log ↔ (0 ≤ fd ∧ fd < maxFds) ∧ (files fd).isOpen = false ∧ fd ∈ m.usedFds)

theorem check_eq_unknown_iff {k fd : Int} {fdUsed : Bool} :
    check m k fdUsed = some (.unknown fd) ↔ k = fd ∧ fdUsed = true ∧ k ∉ m.usedFds := by
  unfold check
  cases fdUsed <;> by_cases hknown : k ∈ m.usedFds <;> simp [hknown]

theorem check_eq_unused_iff {k fd : Int} {fdUsed : Bool} :
    check m k fdUsed = some (.unused fd) ↔ k = fd ∧ fdUsed = false ∧ k ∈ m.usedFds := by
  unfold check
  cases fdUsed <;> by_cases hknown : k ∈ m.usedFds <;> simp [hknown]

theorem mem_validateConsistency (inUse : Int → Bool) (maxFds : Nat) (fd : Int) :
    (.unknown fd ∈ m.validateConsistency inUse maxFds ↔
      (0 ≤ fd ∧ fd < maxFds) ∧ inUse fd = true ∧ fd ∉ m.usedFds) ∧
    (.unused fd ∈ m.validateConsistency inUse maxFds ↔
      (0 ≤ fd ∧ fd < maxFds) ∧ inUse fd = false ∧ fd ∈ m.usedFds) := by
  have hscanned : ∀ fd : Int, fd ∈ (List.range maxFds).map Int.ofNat ↔ 0 ≤ fd ∧ fd < maxFds := by
    intro fd
    rw [List.mem_map]
    constructor
    · rintro ⟨n, hn, rfl⟩
      rw [List.mem_range] at hn
      exact ⟨Int.natCast_nonneg n, Int.ofNat_lt.mpr hn⟩
    · rintro ⟨hnonneg, hlt⟩
      exact ⟨fd.toNat, List.mem_range.mpr (by omega), Int.toNat_of_nonneg hnonneg⟩
  have hlogged : ∀ found : Manager.Inconsistency, found ∈ m.validateConsistency inUse maxFds ↔
      ∃ k : Int, (0 ≤ k ∧ k < maxFds) ∧ check m k (inUse k) = some found := by
    intro found
    rw [Manager.validateConsistency, List.mem_filterMap]
    exact exists_congr fun k => and_congr_left fun _ => hscanned k
  constructor
  · rw [hlogged]
    simp only [check_eq_unknown_iff]
    constructor
    · rintro ⟨k, hk, rfl, hopen⟩
      exact ⟨hk, hopen⟩
    · rintro ⟨hfd, hopen⟩
      exact ⟨fd, hfd, rfl, hopen⟩
  · rw [hlogged]
    simp only [check_eq_unused_iff]
    constructor
    · rintro ⟨k, hk, rfl, hclosed⟩
      exact ⟨hk, hclosed⟩
    · rintro ⟨hfd, hclosed⟩
      exact ⟨fd, hfd, rfl, hclosed⟩

theorem exact_validateConsistency_iff (inUse : Int → Bool) (maxFds : Nat) :
    Exact m files maxFds (m.validateConsistency inUse maxFds) ↔
      ∀ fd : Nat, fd < maxFds → inUse fd = (files fd).isOpen := by
  constructor
  · intro h fd hfd
    have hscanned : 0 ≤ (fd : Int) ∧ (fd : Int) < maxFds :=
      ⟨Int.natCast_nonneg fd, Int.ofNat_lt.mpr hfd⟩
    obtain ⟨hunknown, hunused⟩ := mem_validateConsistency (m := m) inUse maxFds fd
    obtain ⟨hopen, hclosed⟩ := h fd
    rw [hunknown] at hopen
    rw [hunused] at hclosed
    by_cases hknown : (fd : Int) ∈ m.usedFds
    · rw [and_congr_right_iff] at hclosed
      have hagree := hclosed hscanned
      rw [and_iff_left hknown, and_iff_left hknown] at hagree
      exact Bool.eq_iff_iff.mpr (by rw [← Bool.not_eq_false, ← Bool.not_eq_false, hagree])
    · rw [and_congr_right_iff] at hopen
      have hagree := hopen hscanned
      rw [and_iff_left hknown, and_iff_left hknown] at hagree
      exact Bool.eq_iff_iff.mpr hagree
  · intro h fd
    rw [(mem_validateConsistency inUse maxFds fd).1, (mem_validateConsistency inUse maxFds fd).2]
    have hsame : 0 ≤ fd ∧ fd < maxFds → inUse fd = (files fd).isOpen := by
      rintro ⟨hnonneg, hlt⟩
      have hfd := h fd.toNat (by omega)
      rwa [Int.toNat_of_nonneg hnonneg] at hfd
    constructor
    · exact and_congr_right fun hfd => by rw [hsame hfd]
    · exact and_congr_right fun hfd => by rw [hsame hfd]

/-- The scan is exact just where no seekable descriptor whose offset is negative
as an `int` is reached with a stale `EBADF`. -/
theorem validateConsistency_exact_iff (m : Manager) (files : Int → OsDescriptor) (errno : Int)
    (maxFds : Nat) :
    Exact m files maxFds (validateConsistency m files errno maxFds).1 ↔
      ∀ fd : Nat, fd < maxFds → ∀ offset, files fd = .seekable offset → NegativeInt offset →
        ¬StaleBadFd files errno fd := by
  let inUse : Int → Bool := fun fd =>
    (isFdInUse files fd (errnoBefore files errno fd.toNat)).1
  have hlog : (validateConsistency m files errno maxFds).1 = m.validateConsistency inUse maxFds :=
    validateConsistency_log maxFds inUse fun fd _ => rfl
  rw [hlog, exact_validateConsistency_iff]
  exact forall_congr' fun fd => forall_congr' fun _ => isFdInUse_eq_isOpen_iff fd

end

/-- Above a closed descriptor, two files are open at an offset of 2 GiB, of which
the manager knows one. -/
def largeFiles : Int → OsDescriptor
  | 1 | 2 => .seekable (2 ^ 31)
  | _ => .closed

def knowsOne : Manager :=
  ⟨.empty, .empty, {2}⟩

theorem validateConsistency_largeFiles :
    (validateConsistency knowsOne largeFiles 0 3).1 = [.unused 2] ∧
      ¬Exact knowsOne largeFiles 3 (validateConsistency knowsOne largeFiles 0 3).1 := by
  have hlog : (validateConsistency knowsOne largeFiles 0 3).1 = [.unused 2] := by decide
  refine ⟨hlog, ?_⟩
  rw [hlog]
  intro h
  exact absurd ((h 1).1.mpr (by decide)) (by decide)

end SyscallReplayer.ConsistencyScan
