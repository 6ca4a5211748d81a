import Mathlib.Data.Int.Interval
import SyscallReplayer.DuplicatedFiles
import SyscallReplayer.WhileLoops

/-!
# The descriptor that is not in use

`generate_unused_fd` collects the replayed descriptors of all processes and
those of the replayer, and counts up from 0 past them. The set is finite, so the
count comes to an end, at the least number that is not in it.
-/

namespace SyscallReplayer.UnusedDescriptor

open Std (ExtTreeMap)
open SharedEntries ReplayKernel ResourcesManager ReplayWorld World WhileLoops
open DuplicatedFiles

def insertTable (m : Manager) (used : Finset Int) (entry : Int × Nat) : Finset Int :=
  match m.fdTableMap.heap[entry.2]? with
  | none => used
  | some e => used ∪ e.value.getAllReplayedFds.toFinset

def collectUsed (m : Manager) : Finset Int :=
  m.fdTableMap.map.toList.foldl (insertTable m) ∅ ∪ m.replayerUsedFds

def search (used : Finset Int) : Loop Int where
  guard unused := unused ∈ used
  body unused := some (unused + 1)

section

variable {w : World}

theorem mem_insertTable_iff {m : Manager} {used : Finset Int} {entry : Int × Nat} {n : Int} :
    n ∈ insertTable m used entry ↔
      n ∈ used ∨ ∃ e, m.fdTableMap.heap[entry.2]? = some e ∧ ∃ k, e.value.Maps k n := by
  unfold insertTable
  split
  · rename_i hnone
    simp [hnone]
  · rename_i e he
    rw [Finset.mem_union, List.mem_toFinset, FdTable.mem_getAllReplayedFds_iff, he]
    simp

theorem mem_foldl_insertTable_iff {m : Manager} {n : Int} (l : List (Int × Nat))
    (used : Finset Int) :
    n ∈ l.foldl (insertTable m) used ↔
      n ∈ used ∨ ∃ entry ∈ l, ∃ e, m.fdTableMap.heap[entry.2]? = some e ∧
        ∃ k, e.value.Maps k n := by
  induction l generalizing used with
  | nil => simp
  | cons entry l ih =>
      rw [List.foldl_cons, ih, mem_insertTable_iff, or_assoc]
      simp only [List.mem_cons, exists_eq_or_imp]

theorem mem_collectUsed_iff {n : Int} :
    n ∈ collectUsed w.manager ↔
      (∃ p k, w.Maps p k n) ∨ n ∈ w.manager.replayerUsedFds := by
  unfold collectUsed
  rw [Finset.mem_union, mem_foldl_insertTable_iff]
  apply or_congr_left
  simp only [Finset.notMem_empty, false_or]
  constructor
  · rintro ⟨⟨p, slot⟩, hmem, e, he, k, hk⟩
    have hslot := ExtTreeMap.mem_toList_iff_getElem?_eq_some.mp hmem
    exact ⟨p, k, e.value, Shared.get_eq_some.mpr ⟨slot, e, hslot, he, rfl⟩, hk⟩
  · rintro ⟨p, k, t, ht, hk⟩
    obtain ⟨slot, e, hslot, he, rfl⟩ := Shared.get_eq_some.mp ht
    exact ⟨(p, slot), ExtTreeMap.mem_toList_iff_getElem?_eq_some.mpr hslot, e, he, k, hk⟩

theorem collectUsed_eq (w : World) : collectUsed w.manager = w.manager.usedFds := by
  ext n
  rw [mem_collectUsed_iff, mem_usedFds_iff]

end

section

variable {used : Finset Int}

/-- Every number that the search has passed is in use. -/
def Passed (used : Finset Int) (unused : Int) : Prop :=
  0 ≤ unused ∧ ∀ n, 0 ≤ n → n < unused → n ∈ used

def ahead (used : Finset Int) (unused : Int) : Nat :=
  (used.filter fun n => unused ≤ n).card

theorem Passed.next {unused : Int} (h : Passed used unused) (hused : unused ∈ used) :
    Passed used (unused + 1) := by
  refine ⟨by have := h.1; omega, fun n hn hlt => ?_⟩
  rcases (Int.lt_add_one_iff.mp hlt).lt_or_eq with hbefore | rfl
  · exact h.2 n hn hbefore
  · exact hused

theorem ahead_next {unused : Int} (hused : unused ∈ used) :
    ahead used (unused + 1) < ahead used unused := by
  apply Finset.card_lt_card
  rw [Finset.ssubset_iff_of_subset]
  · exact ⟨unused, by simp [hused], by simp⟩
  · intro n hn
    rw [Finset.mem_filter] at hn ⊢
    exact ⟨hn.1, by omega⟩

theorem Passed.le_card {unused : Int} (h : Passed used unused) : unused ≤ used.card := by
  have hsub : Finset.Ico 0 unused ⊆ used := by
    intro n hn
    rw [Finset.mem_Ico] at hn
    exact h.2 n hn.1 hn.2
  have hcard := Finset.card_le_card hsub
  rw [Int.card_Ico] at hcard
  omega

theorem search_ends (used : Finset Int) :
    ∃ r, (search used).Ends 0 r ∧ Passed used r ∧ r ∉ used := by
  have hturn : ∀ unused, Passed used unused → (search used).guard unused = true →
      ∃ next, (search used).body unused = some next ∧ Passed used next ∧
        ahead used next < ahead used unused := by
    intro unused hpassed hguard
    have hused : unused ∈ used := of_decide_eq_true hguard
    exact ⟨unused + 1, rfl, hpassed.next hused, ahead_next hused⟩
  obtain ⟨r, hends, hpassed, hguard⟩ := Loop.exists_ends (ahead used) hturn
    (s := 0) ⟨le_rfl, fun n hn hlt => absurd hlt (not_lt.mpr hn)⟩
  exact ⟨r, hends, hpassed, of_decide_eq_false hguard⟩

theorem le_of_ends {unused r : Int} (h : (search used).Ends unused r) : unused ≤ r := by
  induction h with
  | leave _ => exact le_rfl
  | turn _ hbody _ ih =>
      obtain rfl := Option.some.inj hbody
      exact (Int.le_add_one le_rfl).trans ih

theorem leastUnused_eq_of_ends {unused r : Int} (h : (search used).Ends unused r) {fuel : Nat}
    (hfuel : r ≤ unused + fuel) : Manager.leastUnused used fuel unused = r := by
  induction h generalizing fuel with
  | leave hguard =>
      cases fuel with
      | zero => rfl
      | succ fuel => rw [Manager.leastUnused, if_neg (of_decide_eq_false hguard)]
  | turn hguard hbody hrest ih =>
      obtain rfl := Option.some.inj hbody
      have hle := le_of_ends hrest
      cases fuel with
      | zero => omega
      | succ fuel =>
          rw [Manager.leastUnused, if_pos (of_decide_eq_true hguard)]
          exact ih (by omega)

end

/-- No process has the number for a replayed descriptor, nor has the replayer. -/
def Unused (w : World) (n : Int) : Prop :=
  (∀ p k, ¬w.Maps p k n) ∧ n ∉ w.manager.replayerUsedFds

theorem notMem_usedFds_iff {w : World} {n : Int} : n ∉ w.manager.usedFds ↔ Unused w n := by
  rw [mem_usedFds_iff, not_or]
  simp only [Unused, not_exists]

/-- The search ends, at the least number that nobody uses, which is the same for
every process. It counts to no more than there are numbers in use, and stays
within an `int` as long as one of these is left. -/
theorem generateUnusedFd_least (w : World) :
    ∃ r, (∀ n, (search (collectUsed w.manager)).Ends 0 n ↔ n = r) ∧
      IsLeast {n | 0 ≤ n ∧ Unused w n} r ∧ r ≤ (collectUsed w.manager).card ∧
      (isFd r = true ↔ ∃ n, isFd n = true ∧ Unused w n) ∧
      ∀ pid t, w.table pid = some t → w.manager.generateUnusedFd pid = some r := by
  rw [collectUsed_eq]
  obtain ⟨r, hends, hpassed, hnot⟩ := search_ends w.manager.usedFds
  have hcount : Manager.leastUnused w.manager.usedFds w.manager.usedFds.card 0 = r :=
    leastUnused_eq_of_ends hends (by have := hpassed.le_card; omega)
  refine ⟨r, fun n => ⟨fun h => h.unique hends, fun h => h ▸ hends⟩, ⟨⟨hpassed.1, ?_⟩, ?_⟩,
    hpassed.le_card, ?_, fun pid t ht => ?_⟩
  · exact notMem_usedFds_iff.mp hnot
  · rintro n ⟨hn, hunused⟩
    by_contra hlt
    exact notMem_usedFds_iff.mpr hunused (hpassed.2 n hn (not_le.mp hlt))
  · have hleft := isFd_leastUnused_iff w.manager
    rw [hcount] at hleft
    simpa only [notMem_usedFds_iff] using hleft
  · have hget : w.manager.fdTableMap.get pid = some t := ht
    rw [Manager.generateUnusedFd, hget, Option.map_some, hcount]

end SyscallReplayer.UnusedDescriptor
