import SyscallReplayer.ModuleEffects

/-!
# Which process maps which descriptor

`Maps w p k fd` says that the table of process `p` maps the traced descriptor
`k` to the replayed descriptor `fd`. Each operation on the tables changes it in
one place.
-/

namespace SyscallReplayer

open Std (ExtTreeMap)
open CInt SharedEntries ReplayKernel ResourcesManager ReplayWorld ReplayModules

namespace ResourcesManager.FdTable

def Maps (t : FdTable) (k fd : Int) : Prop :=
  ∃ e, t[k]? = some e ∧ e.fd = fd

variable {t t' : FdTable} {k fd : Int} {flags : BitVec 32}

theorem not_maps_empty : ¬Maps ∅ k fd := by
  rintro ⟨e, he, -⟩
  simp at he

theorem maps_getFd {e : FileDescriptorEntry} (h : t[k]? = some e) : Maps t k (t.getFd k) :=
  ⟨e, h, (getFd_of_mapped h).symm⟩

theorem mem_getAllReplayedFds_iff : fd ∈ getAllReplayedFds t ↔ ∃ k, Maps t k fd :=
  mem_getAllReplayedFds

theorem maps_erase {a : Int} : Maps (t.erase k) a fd ↔ k ≠ a ∧ Maps t a fd := by
  unfold Maps
  rw [getElem?_erase]
  split
  · simp_all
  · simp_all

theorem maps_insert {a fd' : Int} {e : FileDescriptorEntry} :
    Maps (t.insert k e) a fd' ↔ (k = a ∧ e.fd = fd') ∨ (k ≠ a ∧ Maps t a fd') := by
  unfold Maps
  rw [getElem?_insert]
  split
  · simp_all
  · simp_all

theorem maps_addFdEntry (h : addFdEntry t k fd flags = some t') (a fd' : Int) :
    (Maps t' a fd' ↔ Maps t a fd' ∨ (a = k ∧ fd' = fd)) ∨ (k = -1 ∧ t' = t ∧ ∃ x, Maps t k x) := by
  rcases addFdEntry_cases h with ⟨hnew, rfl⟩ | ⟨hneg, ⟨e, he⟩, rfl⟩
  · left
    rw [maps_insert]
    constructor
    · rintro (⟨rfl, rfl⟩ | ⟨-, hmaps⟩)
      · exact .inr ⟨rfl, rfl⟩
      · exact .inl hmaps
    · rintro (⟨e, he, rfl⟩ | ⟨rfl, rfl⟩)
      · refine .inr ⟨?_, e, he, rfl⟩
        rintro rfl
        rw [hnew] at he
        cases he
      · exact .inl ⟨rfl, rfl⟩
  · exact .inr ⟨hneg, rfl, e.fd, e, he, rfl⟩

end ResourcesManager.FdTable

namespace ReplayWorld.World

def Maps (w : World) (p k fd : Int) : Prop :=
  ∃ t, w.table p = some t ∧ t.Maps k fd

variable {w w' : World} {pid : Int} {t t' : FdTable}

theorem maps_iff (h : w.table pid = some t) (k fd : Int) : w.Maps pid k fd ↔ t.Maps k fd := by
  constructor
  · rintro ⟨s, hs, hmaps⟩
    rw [h] at hs
    exact Option.some.inj hs ▸ hmaps
  · intro hmaps
    exact ⟨t, h, hmaps⟩

theorem table_of_tableOf_eq {q : Int} (h : w.tableOf q = w.tableOf pid) :
    w.table q = w.table pid := by
  unfold table
  rw [Shared.get_eq_bind, Shared.get_eq_bind]
  show (w.tableOf q).bind _ = (w.tableOf pid).bind _
  rw [h]

theorem maps_of_tableOf_eq {q k fd : Int} (h : w.tableOf q = w.tableOf pid)
    (hmaps : w.Maps q k fd) : w.Maps pid k fd := by
  obtain ⟨s, hs, hk⟩ := hmaps
  exact ⟨s, (table_of_tableOf_eq h).symm.trans hs, hk⟩

theorem maps_setTable (h : w.table pid = some t) (q k fd : Int) :
    (w.setTable pid t').Maps q k fd ↔
      (w.tableOf q = w.tableOf pid ∧ t'.Maps k fd) ∨
        (w.tableOf q ≠ w.tableOf pid ∧ w.Maps q k fd) := by
  unfold Maps
  rw [table_setTable h]
  split
  · simp_all
  · simp_all

theorem maps_setTable_erase (h : w.table pid = some t) (a q k fd : Int) :
    (w.setTable pid (t.erase a)).Maps q k fd ↔
      w.Maps q k fd ∧ ¬(w.tableOf q = w.tableOf pid ∧ a = k) := by
  rw [maps_setTable h, FdTable.maps_erase]
  constructor
  · rintro (⟨hsame, hne, hmaps⟩ | ⟨hother, hmaps⟩)
    · exact ⟨maps_of_tableOf_eq hsame.symm ((maps_iff h k fd).mpr hmaps), fun hboth => hne hboth.2⟩
    · exact ⟨hmaps, fun hboth => hother hboth.1⟩
  · rintro ⟨hmaps, hnot⟩
    by_cases hsame : w.tableOf q = w.tableOf pid
    · refine .inl ⟨hsame, fun ha => hnot ⟨hsame, ha⟩, ?_⟩
      exact (maps_iff h k fd).mp (maps_of_tableOf_eq hsame hmaps)
    · exact .inr ⟨hsame, hmaps⟩

theorem maps_setTable_addFdEntry {a fd₀ : Int} {flags : BitVec 32} (h : w.table pid = some t)
    (hadd : t.addFdEntry a fd₀ flags = some t') (hnew : t.hasFd a = false) (q k fd : Int) :
    (w.setTable pid t').Maps q k fd ↔
      w.Maps q k fd ∨ (w.tableOf q = w.tableOf pid ∧ k = a ∧ fd = fd₀) := by
  have hcases : t'.Maps k fd ↔ t.Maps k fd ∨ (k = a ∧ fd = fd₀) := by
    rcases FdTable.maps_addFdEntry hadd k fd with hiff | ⟨-, -, x, e, he, -⟩
    · exact hiff
    · rw [FdTable.hasFd_eq_false_iff.mp hnew] at he
      cases he
  rw [maps_setTable h, hcases]
  constructor
  · rintro (⟨hsame, hmaps | hnew⟩ | ⟨-, hmaps⟩)
    · exact .inl (maps_of_tableOf_eq hsame.symm ((maps_iff h k fd).mpr hmaps))
    · exact .inr ⟨hsame, hnew⟩
    · exact .inl hmaps
  · rintro (hmaps | ⟨hsame, hnew⟩)
    · by_cases hsame : w.tableOf q = w.tableOf pid
      · exact .inl ⟨hsame, .inl ((maps_iff h k fd).mp (maps_of_tableOf_eq hsame hmaps))⟩
      · exact .inr ⟨hsame, hmaps⟩
    · exact .inl ⟨hsame, .inr hnew⟩

theorem maps_congr (h : w'.manager.fdTableMap = w.manager.fdTableMap) (p k fd : Int) :
    w'.Maps p k fd ↔ w.Maps p k fd := by
  unfold Maps table
  rw [h]

theorem tableOf_congr (h : w'.manager.fdTableMap = w.manager.fdTableMap) (p : Int) :
    w'.tableOf p = w.tableOf p := by
  unfold tableOf
  rw [h]

theorem table_of_share {child : Int} {map : Shared Int FdTable}
    (hshare : w.manager.fdTableMap.share pid child = some map)
    (htables : w'.manager.fdTableMap = map) (p : Int) :
    w'.table p = w.table (if child = p then pid else p) := by
  unfold table
  rw [htables, Shared.get_share hshare]
  split <;> rfl

theorem tableOf_of_share {child : Int} {map : Shared Int FdTable}
    (hshare : w.manager.fdTableMap.share pid child = some map)
    (htables : w'.manager.fdTableMap = map) (p : Int) :
    w'.tableOf p = w.tableOf (if child = p then pid else p) := by
  obtain ⟨slot, e, hslot, -, rfl⟩ := Shared.share_eq_some hshare
  unfold tableOf
  rw [htables]
  simp only [getElem?_insert]
  split
  · exact hslot.symm
  · rfl

theorem table_of_create {child : Int} {copy : FdTable} (h : w.manager.fdTableMap.Backed)
    (htables : w'.manager.fdTableMap = w.manager.fdTableMap.create child copy) (p : Int) :
    w'.table p = if child = p then some copy else w.table p := by
  unfold table
  rw [htables, h.get_create]

theorem tableOf_of_create {child : Int} {copy : FdTable}
    (htables : w'.manager.fdTableMap = w.manager.fdTableMap.create child copy) {p : Int}
    (hp : child ≠ p) : w'.tableOf p = w.tableOf p := by
  unfold tableOf
  rw [htables]
  simp only [Shared.create, getElem?_insert, if_neg hp]

theorem maps_of_create {child : Int} {copy : FdTable} (h : w.manager.fdTableMap.Backed)
    (htables : w'.manager.fdTableMap = w.manager.fdTableMap.create child copy) (p k fd : Int) :
    w'.Maps p k fd ↔ (child = p ∧ copy.Maps k fd) ∨ (child ≠ p ∧ w.Maps p k fd) := by
  unfold Maps
  rw [table_of_create h htables]
  split
  · simp_all
  · simp_all

theorem table_of_release {freed : Option FdTable} {map : Shared Int FdTable}
    (h : w.manager.fdTableMap.Backed)
    (hrelease : w.manager.fdTableMap.release pid = some (freed, map))
    (htables : w'.manager.fdTableMap = map) (p : Int) :
    w'.table p = if pid = p then none else w.table p := by
  unfold table
  rw [htables, h.get_release hrelease]

theorem tableOf_of_release {freed : Option FdTable} {map : Shared Int FdTable}
    (hrelease : w.manager.fdTableMap.release pid = some (freed, map))
    (htables : w'.manager.fdTableMap = map) (p : Int) :
    w'.tableOf p = if pid = p then none else w.tableOf p := by
  unfold tableOf
  rw [htables]
  exact Shared.map_release hrelease p

theorem maps_of_release {freed : Option FdTable} {map : Shared Int FdTable}
    (h : w.manager.fdTableMap.Backed)
    (hrelease : w.manager.fdTableMap.release pid = some (freed, map))
    (htables : w'.manager.fdTableMap = map) (p k fd : Int) :
    w'.Maps p k fd ↔ pid ≠ p ∧ w.Maps p k fd := by
  unfold Maps
  rw [table_of_release h hrelease htables]
  split
  · simp_all
  · simp_all

theorem mem_usedFds_iff {fd : Int} :
    fd ∈ w.manager.usedFds ↔ (∃ p k, w.Maps p k fd) ∨ fd ∈ w.manager.replayerUsedFds := by
  unfold Manager.usedFds
  rw [Finset.mem_union, List.mem_toFinset, List.mem_flatMap]
  apply or_congr_left
  constructor
  · rintro ⟨p, -, hmem⟩
    cases hget : w.manager.fdTableMap.get p with
    | none =>
        rw [hget] at hmem
        exact absurd hmem List.not_mem_nil
    | some s =>
        rw [hget] at hmem
        obtain ⟨k, hk⟩ := FdTable.mem_getAllReplayedFds_iff.mp hmem
        exact ⟨p, k, s, hget, hk⟩
  · rintro ⟨p, k, s, hs, hk⟩
    have hget : w.manager.fdTableMap.get p = some s := hs
    refine ⟨p, ?_, ?_⟩
    · obtain ⟨slot, e, hslot, -, -⟩ := Shared.get_eq_some.mp hget
      rw [ExtTreeMap.mem_keys, ExtTreeMap.mem_iff_isSome_getElem?, hslot]
      rfl
    · rw [hget]
      exact FdTable.mem_getAllReplayedFds_iff.mpr ⟨k, hk⟩

end ReplayWorld.World

namespace ResourcesManager.Manager

theorem leastUnused_not_mem (used : Finset Int) (fuel : Nat) (start : Int)
    (h : (used.filter fun fd => start ≤ fd).card ≤ fuel) :
    leastUnused used fuel start ∉ used := by
  induction fuel generalizing start with
  | zero =>
      intro hmem
      have hpos : 0 < (used.filter fun fd => start ≤ fd).card :=
        Finset.card_pos.mpr ⟨start, Finset.mem_filter.mpr ⟨hmem, le_rfl⟩⟩
      omega
  | succ fuel ih =>
      unfold leastUnused
      split
      · rename_i hmem
        apply ih
        have hsub : (used.filter fun fd => start + 1 ≤ fd) ⊂
            used.filter fun fd => start ≤ fd := by
          refine Finset.ssubset_iff_subset_ne.mpr ⟨?_, ?_⟩
          · intro fd hfd
            rw [Finset.mem_filter] at hfd ⊢
            exact ⟨hfd.1, by omega⟩
          · intro heq
            have hstart : start ∈ used.filter fun fd => start + 1 ≤ fd := by
              rw [heq]
              exact Finset.mem_filter.mpr ⟨hmem, le_rfl⟩
            have hle := (Finset.mem_filter.mp hstart).2
            omega
        have hlt := Finset.card_lt_card hsub
        omega
      · assumption

theorem leastUnused_usedFds (m : Manager) :
    leastUnused m.usedFds m.usedFds.card 0 ∉ m.usedFds :=
  leastUnused_not_mem _ _ _ (Finset.card_filter_le _ _)

end ResourcesManager.Manager

end SyscallReplayer
