import Mathlib.Data.Finset.Card
import Mathlib.Order.Basic

/-!
# Entries shared by reference counting

Keys are mapped to heap entries that count their users: a key gets an entry of
its own, joins the entry of another key, or leaves its entry, which is freed
when the count reaches zero. As long as the counts cover the users, a key that
leaves takes no other key's entry with it; when they are exact, nothing on the
heap is out of reach.
-/

namespace SyscallReplayer.SharedEntries

open Std (ExtTreeMap)

section OrderedMaps

variable {κ : Type} {ν : Type} [Ord κ] [Std.TransOrd κ] [Std.LawfulEqOrd κ] [DecidableEq κ]

theorem getElem?_insert (t : ExtTreeMap κ ν) (k a : κ) (x : ν) :
    (t.insert k x)[a]? = if k = a then some x else t[a]? := by
  rw [ExtTreeMap.getElem?_insert]
  simp only [Std.compare_eq_iff_eq]

theorem getElem?_erase (t : ExtTreeMap κ ν) (k a : κ) :
    (t.erase k)[a]? = if k = a then none else t[a]? := by
  rw [ExtTreeMap.getElem?_erase]
  simp only [Std.compare_eq_iff_eq]

end OrderedMaps

structure Counted (ν : Type) where
  rc : Nat
  value : ν
deriving DecidableEq

structure Shared (κ : Type) (ν : Type) [Ord κ] where
  map : ExtTreeMap κ Nat
  heap : ExtTreeMap Nat (Counted ν)
  next : Nat

namespace Shared

variable {κ : Type} {ν : Type} [Ord κ] [Std.TransOrd κ]

def empty : Shared κ ν :=
  ⟨∅, ∅, 0⟩

def find (s : Shared κ ν) (k : κ) : Option (Nat × Counted ν) := do
  let p ← s.map[k]?
  let e ← s.heap[p]?
  return (p, e)

def get (s : Shared κ ν) (k : κ) : Option ν :=
  (s.find k).map fun found => found.2.value

/-- Gives `k` a new entry, whatever it was mapped to. -/
def create (s : Shared κ ν) (k : κ) (x : ν) : Shared κ ν :=
  { map := s.map.insert k s.next
    heap := s.heap.insert s.next ⟨1, x⟩
    next := s.next + 1 }

/-- Maps `k'` to the entry of `k`. -/
def share (s : Shared κ ν) (k k' : κ) : Option (Shared κ ν) := do
  let (p, e) ← s.find k
  return { s with map := s.map.insert k' p, heap := s.heap.insert p { e with rc := e.rc + 1 } }

def modify (s : Shared κ ν) (k : κ) (x : ν) : Option (Shared κ ν) := do
  let (p, e) ← s.find k
  return { s with heap := s.heap.insert p { e with value := x } }

/-- Removes `k`, and its entry when no user is left; the value of an entry that
is freed is handed back. -/
def release (s : Shared κ ν) (k : κ) : Option (Option ν × Shared κ ν) := do
  let (p, e) ← s.find k
  if e.rc = 0 then none
  else if e.rc - 1 = 0 then
    return (some e.value, { s with map := s.map.erase k, heap := s.heap.erase p })
  else
    return (none, { s with
      map := s.map.erase k
      heap := s.heap.insert p { e with rc := e.rc - 1 } })

theorem find_eq_some {s : Shared κ ν} {k : κ} {p : Nat} {e : Counted ν} :
    s.find k = some (p, e) ↔ s.map[k]? = some p ∧ s.heap[p]? = some e := by
  unfold find
  constructor
  · intro h
    obtain ⟨q, hq, h⟩ := Option.bind_eq_some_iff.mp h
    obtain ⟨e', he', h⟩ := Option.bind_eq_some_iff.mp h
    obtain ⟨rfl, rfl⟩ := Prod.mk.inj (Option.some.inj h)
    exact ⟨hq, he'⟩
  · rintro ⟨hp, he⟩
    simp [hp, he]

theorem get_eq_some {s : Shared κ ν} {k : κ} {x : ν} :
    s.get k = some x ↔ ∃ p e, s.map[k]? = some p ∧ s.heap[p]? = some e ∧ e.value = x := by
  unfold get
  rw [Option.map_eq_some_iff]
  constructor
  · rintro ⟨⟨p, e⟩, hfind, hx⟩
    obtain ⟨hp, he⟩ := find_eq_some.mp hfind
    exact ⟨p, e, hp, he, hx⟩
  · rintro ⟨p, e, hp, he, hx⟩
    exact ⟨(p, e), find_eq_some.mpr ⟨hp, he⟩, hx⟩

theorem get_eq_bind (s : Shared κ ν) (k : κ) :
    s.get k = (s.map[k]?).bind fun p => (s.heap[p]?).map Counted.value := by
  cases hp : s.map[k]? with
  | none => simp [get, find, hp]
  | some p => cases he : s.heap[p]? <;> simp [get, find, hp, he]

theorem share_eq_some {s s' : Shared κ ν} {k k' : κ} (h : s.share k k' = some s') :
    ∃ p e, s.map[k]? = some p ∧ s.heap[p]? = some e ∧
      s' = { s with
        map := s.map.insert k' p
        heap := s.heap.insert p { e with rc := e.rc + 1 } } := by
  unfold share at h
  obtain ⟨⟨p, e⟩, hfind, h⟩ := Option.bind_eq_some_iff.mp h
  obtain ⟨hp, he⟩ := find_eq_some.mp hfind
  exact ⟨p, e, hp, he, (Option.some.inj h).symm⟩

theorem modify_eq_some {s s' : Shared κ ν} {k : κ} {x : ν} (h : s.modify k x = some s') :
    ∃ p e, s.map[k]? = some p ∧ s.heap[p]? = some e ∧
      s' = { s with heap := s.heap.insert p { e with value := x } } := by
  unfold modify at h
  obtain ⟨⟨p, e⟩, hfind, h⟩ := Option.bind_eq_some_iff.mp h
  obtain ⟨hp, he⟩ := find_eq_some.mp hfind
  exact ⟨p, e, hp, he, (Option.some.inj h).symm⟩

theorem release_eq_some {s s' : Shared κ ν} {k : κ} {freed : Option ν}
    (h : s.release k = some (freed, s')) :
    ∃ p e, s.map[k]? = some p ∧ s.heap[p]? = some e ∧
      ((e.rc = 1 ∧ freed = some e.value ∧
          s' = { s with map := s.map.erase k, heap := s.heap.erase p }) ∨
        (1 < e.rc ∧ freed = none ∧
          s' = { s with
            map := s.map.erase k
            heap := s.heap.insert p { e with rc := e.rc - 1 } })) := by
  unfold release at h
  obtain ⟨⟨p, e⟩, hfind, h⟩ := Option.bind_eq_some_iff.mp h
  obtain ⟨hp, he⟩ := find_eq_some.mp hfind
  refine ⟨p, e, hp, he, ?_⟩
  dsimp only at h
  split at h
  · cases h
  · split at h
    · obtain ⟨rfl, rfl⟩ := Prod.mk.inj (Option.some.inj h)
      exact .inl ⟨by omega, rfl, rfl⟩
    · obtain ⟨rfl, rfl⟩ := Prod.mk.inj (Option.some.inj h)
      exact .inr ⟨by omega, rfl, rfl⟩

theorem get_modify {s s' : Shared κ ν} {k : κ} {x : ν} (hs : s.modify k x = some s') (a : κ) :
    s'.get a = if s.map[a]? = s.map[k]? then some x else s.get a := by
  obtain ⟨p, e, hp, he, rfl⟩ := modify_eq_some hs
  simp only [get_eq_bind, getElem?_insert]
  split
  · rename_i hap
    rw [hap, hp]
    simp
  · rename_i hap
    cases hq : s.map[a]? with
    | none => rfl
    | some q =>
        have hne : p ≠ q := by
          rintro rfl
          exact hap (hq.trans hp.symm)
        rw [Option.bind_some, Option.bind_some, if_neg hne]

theorem get_congr {s : Shared κ ν} {k a : κ} (h : s.map[k]? = s.map[a]?) : s.get k = s.get a := by
  rw [get_eq_bind, get_eq_bind, h]

theorem exists_find {s : Shared κ ν} {k : κ} {x : ν} (h : s.get k = some x) :
    ∃ p e, s.find k = some (p, e) := by
  obtain ⟨p, e, hp, he, -⟩ := get_eq_some.mp h
  exact ⟨p, e, find_eq_some.mpr ⟨hp, he⟩⟩

theorem exists_modify {s : Shared κ ν} {k : κ} {x : ν} (h : s.get k = some x) (y : ν) :
    ∃ s', s.modify k y = some s' := by
  obtain ⟨p, e, hfind⟩ := exists_find h
  exact ⟨_, by rw [modify, hfind]; rfl⟩

theorem exists_share {s : Shared κ ν} {k : κ} {x : ν} (h : s.get k = some x) (k' : κ) :
    ∃ s', s.share k k' = some s' := by
  obtain ⟨p, e, hfind⟩ := exists_find h
  exact ⟨_, by rw [share, hfind]; rfl⟩

theorem modify_eq_none {s : Shared κ ν} {k : κ} (h : s.get k = none) (y : ν) :
    s.modify k y = none := by
  rw [modify, Option.map_eq_none_iff.mp h]
  rfl

theorem share_eq_none {s : Shared κ ν} {k : κ} (h : s.get k = none) (k' : κ) :
    s.share k k' = none := by
  rw [share, Option.map_eq_none_iff.mp h]
  rfl

theorem release_eq_none {s : Shared κ ν} {k : κ} (h : s.get k = none) : s.release k = none := by
  rw [release, Option.map_eq_none_iff.mp h]
  rfl

/-- What changing values any number of times leads to. -/
inductive Modified (s : Shared κ ν) : Shared κ ν → Prop
  | refl : Modified s s
  | step {t t' : Shared κ ν} {k : κ} {x : ν} :
      Modified s t → t.modify k x = some t' → Modified s t'

theorem Modified.trans {s t u : Shared κ ν} (hst : Modified s t) (htu : Modified t u) :
    Modified s u := by
  induction htu with
  | refl => exact hst
  | step _ hmodify ih => exact ih.step hmodify

theorem Modified.map_eq {s t : Shared κ ν} (h : Modified s t) : t.map = s.map := by
  induction h with
  | refl => rfl
  | step _ hmodify ih =>
      obtain ⟨_, _, _, _, rfl⟩ := modify_eq_some hmodify
      exact ih

/-- An entry is on the heap before and not after. -/
def Freed (s s' : Shared κ ν) (p : Nat) : Prop :=
  (s.heap[p]?).isSome ∧ s'.heap[p]? = none

theorem Modified.not_freed {s s' : Shared κ ν} (h : Modified s s') (p : Nat) : ¬Freed s s' p := by
  have hkept : (s.heap[p]?).isSome → (s'.heap[p]?).isSome := by
    induction h with
    | refl => exact fun hsome => hsome
    | step _ hmodify ih =>
        intro hsome
        obtain ⟨q, e, -, -, rfl⟩ := modify_eq_some hmodify
        simp only [getElem?_insert]
        split
        · rfl
        · exact ih hsome
  rintro ⟨hsome, hnone⟩
  have hstill := hkept hsome
  rw [hnone] at hstill
  cases hstill

variable [DecidableEq κ]

/-- The keys mapped to the entry `p`. -/
def users (s : Shared κ ν) (p : Nat) : Finset κ :=
  s.map.keys.toFinset.filter fun k => s.map[k]? = some p

/-- Every key has its entry, and no entry has more users than it counts. -/
structure Backed (s : Shared κ ν) : Prop where
  present : ∀ {k : κ} {p : Nat}, s.map[k]? = some p → ∃ e, s.heap[p]? = some e
  covered : ∀ {p : Nat} {e : Counted ν}, s.heap[p]? = some e → (s.users p).card ≤ e.rc
  fresh : ∀ {p : Nat}, s.next ≤ p → s.heap[p]? = none

theorem backed_empty : Backed (empty : Shared κ ν) where
  present := by
    intro k p h
    simp [empty] at h
  covered := by
    intro p e h
    simp [empty] at h
  fresh := by
    intro p _
    simp [empty]

theorem Backed.lt_next {s : Shared κ ν} (h : s.Backed) {k : κ} {p : Nat}
    (hp : s.map[k]? = some p) : p < s.next := by
  obtain ⟨e, he⟩ := h.present hp
  by_contra hnot
  rw [h.fresh (by omega)] at he
  cases he

theorem Backed.fresh_insert {s : Shared κ ν} (h : s.Backed) {k : κ} {p : Nat}
    (hp : s.map[k]? = some p) (e : Counted ν) {q : Nat} (hq : s.next ≤ q) :
    (s.heap.insert p e)[q]? = none := by
  have hlt := h.lt_next hp
  rw [getElem?_insert, if_neg (by omega)]
  exact h.fresh hq

theorem users_heap (s : Shared κ ν) (heap : ExtTreeMap Nat (Counted ν)) (next : Nat) (q : Nat) :
    users ⟨s.map, heap, next⟩ q = s.users q := rfl

theorem Backed.modify {s s' : Shared κ ν} (h : s.Backed) {k : κ} {x : ν}
    (hs : s.modify k x = some s') : s'.Backed := by
  obtain ⟨p, e, hp, he, rfl⟩ := modify_eq_some hs
  refine ⟨?_, ?_, ?_⟩
  · intro a q hq
    simp only [getElem?_insert]
    split
    · exact ⟨_, rfl⟩
    · exact h.present hq
  · intro q e' he'
    simp only [getElem?_insert] at he'
    rw [users_heap]
    split at he'
    · rename_i hq
      subst hq
      obtain rfl := Option.some.inj he'
      show (s.users p).card ≤ e.rc
      exact h.covered he
    · exact h.covered he'
  · exact fun hq => h.fresh_insert hp _ hq

/-- The counts are those of the users. -/
structure Exact (s : Shared κ ν) : Prop extends s.Backed where
  exact : ∀ {p : Nat} {e : Counted ν}, s.heap[p]? = some e → e.rc = (s.users p).card
  used : ∀ {p : Nat} {e : Counted ν}, s.heap[p]? = some e → 0 < e.rc

theorem exact_empty : Exact (empty : Shared κ ν) where
  toBacked := backed_empty
  exact := by
    intro p e h
    simp [empty] at h
  used := by
    intro p e h
    simp [empty] at h

theorem Exact.modify {s s' : Shared κ ν} (h : s.Exact) {k : κ} {x : ν}
    (hs : s.modify k x = some s') : s'.Exact := by
  refine ⟨h.toBacked.modify hs, ?_, ?_⟩
  · obtain ⟨p, e, hp, he, rfl⟩ := modify_eq_some hs
    intro q e' he'
    simp only [getElem?_insert] at he'
    rw [users_heap]
    split at he'
    · rename_i hq
      subst hq
      obtain rfl := Option.some.inj he'
      exact h.exact (e := e) he
    · exact h.exact he'
  · obtain ⟨p, e, hp, he, rfl⟩ := modify_eq_some hs
    intro q e' he'
    simp only [getElem?_insert] at he'
    split at he'
    · obtain rfl := Option.some.inj he'
      exact h.used (e := e) he
    · exact h.used he'

theorem Modified.backed {s t : Shared κ ν} (h : Modified s t) (hs : s.Backed) : t.Backed := by
  induction h with
  | refl => exact hs
  | step _ hmodify ih => exact ih.modify hmodify

theorem Modified.exact {s t : Shared κ ν} (h : Modified s t) (hs : s.Exact) : t.Exact := by
  induction h with
  | refl => exact hs
  | step _ hmodify ih => exact ih.modify hmodify

theorem Backed.get_isSome_iff {s : Shared κ ν} (h : s.Backed) (k : κ) :
    (s.get k).isSome ↔ (s.map[k]?).isSome := by
  rw [get_eq_bind]
  constructor
  · intro hsome
    cases hp : s.map[k]? with
    | none =>
        rw [hp] at hsome
        exact hsome
    | some p => rfl
  · intro hsome
    obtain ⟨p, hp⟩ := Option.isSome_iff_exists.mp hsome
    obtain ⟨e, he⟩ := h.present hp
    rw [hp, Option.bind_some, he]
    rfl

variable [Std.LawfulEqOrd κ]

theorem mem_users {s : Shared κ ν} {p : Nat} {k : κ} :
    k ∈ s.users p ↔ s.map[k]? = some p := by
  simp only [users, Finset.mem_filter, List.mem_toFinset, ExtTreeMap.mem_keys,
    and_iff_right_iff_imp]
  intro h
  rw [ExtTreeMap.mem_iff_isSome_getElem?, h]
  rfl

theorem users_insert (s : Shared κ ν) (heap : ExtTreeMap Nat (Counted ν)) (next : Nat)
    (k : κ) (p q : Nat) :
    users ⟨s.map.insert k p, heap, next⟩ q =
      if p = q then insert k (s.users q) else (s.users q).erase k := by
  ext a
  rw [mem_users, getElem?_insert]
  split
  · split
    · rw [Finset.mem_insert, mem_users]
      simp_all
    · simp_all [mem_users]
  · split
    · rw [Finset.mem_insert, mem_users]
      simp_all [eq_comm]
    · rw [Finset.mem_erase, mem_users]
      simp_all [eq_comm]

theorem users_erase (s : Shared κ ν) (heap : ExtTreeMap Nat (Counted ν)) (next : Nat)
    (k : κ) (q : Nat) : users ⟨s.map.erase k, heap, next⟩ q = (s.users q).erase k := by
  ext a
  rw [mem_users, getElem?_erase, Finset.mem_erase, mem_users]
  split <;> simp_all [eq_comm]

theorem Backed.users_next {s : Shared κ ν} (h : s.Backed) : s.users s.next = ∅ := by
  rw [Finset.eq_empty_iff_forall_notMem]
  intro k hk
  exact absurd (h.lt_next (mem_users.mp hk)) (by omega)

theorem Backed.create {s : Shared κ ν} (h : s.Backed) (k : κ) (x : ν) :
    (s.create k x).Backed where
  present := by
    intro a p hp
    simp only [Shared.create, getElem?_insert] at hp ⊢
    split at hp
    · rw [if_pos (Option.some.inj hp)]
      exact ⟨_, rfl⟩
    · rw [if_neg (by have := h.lt_next hp; omega)]
      exact h.present hp
  covered := by
    intro p e he
    simp only [Shared.create, getElem?_insert] at he ⊢
    rw [users_insert]
    split at he
    · rename_i hp
      subst hp
      rw [if_pos rfl, h.users_next, ← Option.some.inj he]
      simp
    · rename_i hp
      rw [if_neg hp]
      exact (Finset.card_erase_le).trans (h.covered he)
  fresh := by
    intro p hp
    simp only [Shared.create, getElem?_insert] at hp ⊢
    rw [if_neg (by omega)]
    exact h.fresh (by omega)

theorem Backed.share {s s' : Shared κ ν} (h : s.Backed) {k k' : κ}
    (hs : s.share k k' = some s') : s'.Backed := by
  obtain ⟨p, e, hp, he, rfl⟩ := share_eq_some hs
  refine ⟨?_, ?_, ?_⟩
  · intro a q hq
    simp only [getElem?_insert] at hq ⊢
    split
    · exact ⟨_, rfl⟩
    · rename_i hne
      split at hq
      · exact absurd (Option.some.inj hq) hne
      · exact h.present hq
  · intro q e' he'
    simp only [getElem?_insert] at he' ⊢
    rw [users_insert]
    split at he'
    · rename_i hq
      subst hq
      rw [if_pos rfl, ← Option.some.inj he']
      exact (Finset.card_insert_le _ _).trans (Nat.succ_le_succ (h.covered he))
    · rename_i hq
      rw [if_neg hq]
      exact (Finset.card_erase_le).trans (h.covered he')
  · exact fun hq => h.fresh_insert hp _ hq

/-- The last user of an entry is the only one. -/
theorem Backed.eq_of_rc_one {s : Shared κ ν} (h : s.Backed) {k a : κ} {p : Nat} {e : Counted ν}
    (hk : s.map[k]? = some p) (ha : s.map[a]? = some p) (he : s.heap[p]? = some e)
    (hrc : e.rc = 1) : a = k := by
  have hcard := h.covered he
  rw [hrc] at hcard
  exact Finset.card_le_one.mp hcard a (mem_users.mpr ha) k (mem_users.mpr hk)

theorem Backed.release {s s' : Shared κ ν} (h : s.Backed) {k : κ} {freed : Option ν}
    (hs : s.release k = some (freed, s')) : s'.Backed := by
  obtain ⟨p, e, hp, he, hcase⟩ := release_eq_some hs
  rcases hcase with ⟨hrc, -, rfl⟩ | ⟨hrc, -, rfl⟩
  · refine ⟨?_, ?_, ?_⟩
    · intro a q hq
      simp only [getElem?_erase] at hq ⊢
      split at hq
      · cases hq
      · rename_i hne
        rw [if_neg]
        · exact h.present hq
        · rintro rfl
          exact hne (h.eq_of_rc_one hp hq he hrc).symm
    · intro q e' he'
      simp only [getElem?_erase] at he'
      rw [users_erase]
      split at he'
      · cases he'
      · exact (Finset.card_erase_le).trans (h.covered he')
    · intro q hq
      simp only [getElem?_erase]
      split
      · rfl
      · exact h.fresh hq
  · refine ⟨?_, ?_, ?_⟩
    · intro a q hq
      simp only [getElem?_erase, getElem?_insert] at hq ⊢
      split at hq
      · cases hq
      · split
        · exact ⟨_, rfl⟩
        · exact h.present hq
    · intro q e' he'
      simp only [getElem?_insert] at he'
      rw [users_erase]
      split at he'
      · rename_i hq
        subst hq
        rw [← Option.some.inj he', Finset.card_erase_of_mem (mem_users.mpr hp)]
        have hcard := h.covered he
        dsimp only
        omega
      · exact (Finset.card_erase_le).trans (h.covered he')
    · exact fun hq => h.fresh_insert hp _ hq

theorem Backed.get_create {s : Shared κ ν} (h : s.Backed) (k a : κ) (x : ν) :
    (s.create k x).get a = if k = a then some x else s.get a := by
  rw [get_eq_bind, get_eq_bind]
  simp only [Shared.create, getElem?_insert]
  split
  · simp
  · cases hp : s.map[a]? with
    | none => rfl
    | some p =>
        have hlt := h.lt_next hp
        rw [Option.bind_some, Option.bind_some, if_neg (by omega)]

theorem get_share {s s' : Shared κ ν} {k k' : κ} (hs : s.share k k' = some s') (a : κ) :
    s'.get a = if k' = a then s.get k else s.get a := by
  obtain ⟨p, e, hp, he, rfl⟩ := share_eq_some hs
  have hvalue : ∀ q : Nat, ((if p = q then some { e with rc := e.rc + 1 } else s.heap[q]?).map
      Counted.value) = (s.heap[q]?).map Counted.value := by
    intro q
    split
    · rename_i hq
      rw [← hq, he]
      rfl
    · rfl
  simp only [get_eq_bind, getElem?_insert, hvalue]
  split
  · rw [hp]
  · rfl

theorem Backed.exists_release {s : Shared κ ν} (h : s.Backed) {k : κ} {x : ν}
    (hx : s.get k = some x) : ∃ freed s', s.release k = some (freed, s') := by
  obtain ⟨p, e, hp, he, -⟩ := get_eq_some.mp hx
  have hcard : 0 < (s.users p).card := Finset.card_pos.mpr ⟨k, mem_users.mpr hp⟩
  have hrc : e.rc ≠ 0 := by
    have := h.covered he
    omega
  unfold Shared.release
  rw [find_eq_some.mpr ⟨hp, he⟩, Option.bind_eq_bind, Option.bind_some]
  dsimp only
  rw [if_neg hrc]
  split
  · exact ⟨_, _, rfl⟩
  · exact ⟨_, _, rfl⟩

theorem map_release {s s' : Shared κ ν} {k : κ} {freed : Option ν}
    (h : s.release k = some (freed, s')) (a : κ) :
    s'.map[a]? = if k = a then none else s.map[a]? := by
  obtain ⟨p, e, -, -, ⟨-, -, rfl⟩ | ⟨-, -, rfl⟩⟩ := release_eq_some h
  · exact getElem?_erase _ _ _
  · exact getElem?_erase _ _ _

theorem Backed.get_release {s s' : Shared κ ν} (h : s.Backed) {k : κ} {freed : Option ν}
    (hs : s.release k = some (freed, s')) (a : κ) :
    s'.get a = if k = a then none else s.get a := by
  obtain ⟨p, e, hp, he, hcase⟩ := release_eq_some hs
  rw [get_eq_bind, get_eq_bind, map_release hs]
  split
  · rfl
  · rename_i hka
    cases hq : s.map[a]? with
    | none => rfl
    | some q =>
        rw [Option.bind_some, Option.bind_some]
        rcases hcase with ⟨hrc, -, rfl⟩ | ⟨-, -, rfl⟩
        · rw [getElem?_erase, if_neg]
          rintro rfl
          exact hka (h.eq_of_rc_one hp hq he hrc).symm
        · rw [getElem?_insert]
          split
          · rename_i hpq
            rw [← hpq, he]
            rfl
          · rfl

theorem not_mem_users {s : Shared κ ν} {k : κ} (hk : s.map[k]? = none) (p : Nat) :
    k ∉ s.users p := by
  rw [mem_users, hk]
  exact nofun

theorem Exact.create {s : Shared κ ν} (h : s.Exact) {k : κ} (x : ν)
    (hk : s.map[k]? = none) : (s.create k x).Exact where
  toBacked := h.toBacked.create k x
  exact := by
    intro p e he
    simp only [Shared.create, getElem?_insert] at he ⊢
    rw [users_insert]
    split at he
    · rename_i hp
      subst hp
      rw [if_pos rfl, h.users_next, ← Option.some.inj he]
      rfl
    · rename_i hp
      rw [if_neg hp, Finset.erase_eq_of_notMem (not_mem_users hk p)]
      exact h.exact he
  used := by
    intro p e he
    simp only [Shared.create, getElem?_insert] at he
    split at he
    · rw [← Option.some.inj he]
      exact Nat.one_pos
    · exact h.used he

theorem Exact.share {s s' : Shared κ ν} (h : s.Exact) {k k' : κ}
    (hs : s.share k k' = some s') (hk' : s.map[k']? = none) : s'.Exact := by
  refine ⟨h.toBacked.share hs, ?_, ?_⟩
  · obtain ⟨p, e, hp, he, rfl⟩ := share_eq_some hs
    intro q e' he'
    simp only [getElem?_insert] at he' ⊢
    rw [users_insert]
    split at he'
    · rename_i hq
      subst hq
      rw [if_pos rfl, Finset.card_insert_of_notMem (not_mem_users hk' p),
        ← Option.some.inj he', h.exact he]
    · rename_i hq
      rw [if_neg hq, Finset.erase_eq_of_notMem (not_mem_users hk' q)]
      exact h.exact he'
  · obtain ⟨p, e, hp, he, rfl⟩ := share_eq_some hs
    intro q e' he'
    simp only [getElem?_insert] at he'
    split at he'
    · rw [← Option.some.inj he']
      exact Nat.succ_pos _
    · exact h.used he'

theorem Exact.release {s s' : Shared κ ν} (h : s.Exact) {k : κ} {freed : Option ν}
    (hs : s.release k = some (freed, s')) : s'.Exact := by
  have herase : ∀ {p q : Nat}, s.map[k]? = some p → p ≠ q →
      ((s.users q).erase k).card = (s.users q).card := by
    intro p q hp hne
    rw [Finset.erase_eq_of_notMem]
    rw [mem_users, hp]
    exact fun heq => hne (Option.some.inj heq)
  refine ⟨h.toBacked.release hs, ?_, ?_⟩
  · obtain ⟨p, e, hp, he, hcase⟩ := release_eq_some hs
    rcases hcase with ⟨hrc, -, rfl⟩ | ⟨hrc, -, rfl⟩
    · intro q e' he'
      simp only [getElem?_erase] at he'
      rw [users_erase]
      split at he'
      · cases he'
      · rename_i hne
        rw [herase hp hne]
        exact h.exact he'
    · intro q e' he'
      simp only [getElem?_insert] at he'
      rw [users_erase]
      split at he'
      · rename_i hq
        subst hq
        rw [← Option.some.inj he', Finset.card_erase_of_mem (mem_users.mpr hp), h.exact he]
      · rename_i hne
        rw [herase hp hne]
        exact h.exact he'
  · obtain ⟨p, e, hp, he, hcase⟩ := release_eq_some hs
    rcases hcase with ⟨hrc, -, rfl⟩ | ⟨hrc, -, rfl⟩
    · intro q e' he'
      simp only [getElem?_erase] at he'
      split at he'
      · cases he'
      · exact h.used he'
    · intro q e' he'
      simp only [getElem?_insert] at he'
      split at he'
      · rw [← Option.some.inj he']
        dsimp only
        omega
      · exact h.used he'

/-- An entry is freed exactly when its last user leaves. -/
theorem Exact.freed_iff {s s' : Shared κ ν} (h : s.Exact) {k : κ} {freed : Option ν}
    (hs : s.release k = some (freed, s')) (p : Nat) : Freed s s' p ↔ s.users p = {k} := by
  have hmapped : s.users p = {k} → s.map[k]? = some p := by
    intro husers
    rw [← mem_users, husers]
    exact Finset.mem_singleton_self k
  obtain ⟨q, e, hq, he, ⟨hrc, -, rfl⟩ | ⟨hrc, -, rfl⟩⟩ := release_eq_some hs
  · have hcard : (s.users q).card = 1 := by rw [← h.exact he, hrc]
    have husers : s.users q = {k} := by
      obtain ⟨a, ha⟩ := Finset.card_eq_one.mp hcard
      rw [ha]
      have hk : k ∈ s.users q := mem_users.mpr hq
      rw [ha, Finset.mem_singleton] at hk
      rw [hk]
    unfold Freed
    simp only [getElem?_erase]
    split
    · rename_i hpq
      subst hpq
      exact iff_of_true ⟨by rw [he]; rfl, rfl⟩ husers
    · rename_i hpq
      refine iff_of_false ?_ fun husers => hpq (Option.some.inj (hq.symm.trans (hmapped husers)))
      rintro ⟨hsome, hnone⟩
      rw [hnone] at hsome
      cases hsome
  · refine iff_of_false ?_ ?_
    · rintro ⟨hsome, hnone⟩
      simp only [getElem?_insert] at hnone
      split at hnone
      · cases hnone
      · rw [hnone] at hsome
        cases hsome
    · intro husers
      obtain rfl := Option.some.inj (hq.symm.trans (hmapped husers))
      have hexact := h.exact he
      rw [husers, Finset.card_singleton] at hexact
      omega

/-- The value of an entry is handed back when the last user leaves. -/
theorem Exact.users_of_freed {s s' : Shared κ ν} (h : s.Exact) {k : κ} {x : ν}
    (hs : s.release k = some (some x, s')) : ∃ p, s.map[k]? = some p ∧ s.users p = {k} := by
  obtain ⟨p, e, hp, he, ⟨-, -, heq⟩ | ⟨-, hnone, -⟩⟩ := release_eq_some hs
  · refine ⟨p, hp, (h.freed_iff hs p).mp ⟨by rw [he]; rfl, ?_⟩⟩
    rw [heq]
    simp only [getElem?_erase, if_pos]
  · cases hnone

/-- `k'` joins the entry of `k`, or gets an entry of its own with a copy. -/
def Cloned (copies : ν → ν → Prop) (s : Shared κ ν) (k k' : κ) (shared : Bool)
    (s' : Shared κ ν) : Prop :=
  (shared = true ∧ s.share k k' = some s') ∨
    (shared = false ∧ ∃ x y, s.get k = some x ∧ copies x y ∧ s' = s.create k' y)

namespace Cloned

variable {copies : ν → ν → Prop} {s s' : Shared κ ν} {k k' : κ} {shared : Bool}

theorem backed (h : Cloned copies s k k' shared s') (hs : s.Backed) : s'.Backed := by
  rcases h with ⟨-, hshare⟩ | ⟨-, x, y, -, -, rfl⟩
  · exact hs.share hshare
  · exact hs.create k' y

theorem exact (h : Cloned copies s k k' shared s') (hs : s.Exact) (hk' : s.map[k']? = none) :
    s'.Exact := by
  rcases h with ⟨-, hshare⟩ | ⟨-, x, y, -, -, rfl⟩
  · exact hs.share hshare hk'
  · exact hs.create y hk'

omit [DecidableEq κ] [Std.LawfulEqOrd κ] in
theorem not_freed (h : Cloned copies s k k' shared s') (p : Nat) : ¬Freed s s' p := by
  rintro ⟨hsome, hnone⟩
  rcases h with ⟨-, hshare⟩ | ⟨-, x, y, -, -, rfl⟩
  · obtain ⟨q, e, -, -, rfl⟩ := share_eq_some hshare
    simp only [getElem?_insert] at hnone
    split at hnone
    · cases hnone
    · rw [hnone] at hsome
      cases hsome
  · simp only [Shared.create, getElem?_insert] at hnone
    split at hnone
    · cases hnone
    · rw [hnone] at hsome
      cases hsome

theorem map_isSome (h : Cloned copies s k k' shared s') (a : κ) :
    (s'.map[a]?).isSome = (decide (k' = a) || (s.map[a]?).isSome) := by
  rcases h with ⟨-, hshare⟩ | ⟨-, x, y, -, -, rfl⟩
  · obtain ⟨p, e, -, -, rfl⟩ := share_eq_some hshare
    simp only [getElem?_insert]
    split <;> simp_all
  · simp only [Shared.create, getElem?_insert]
    split <;> simp_all

end Cloned

end Shared

end SyscallReplayer.SharedEntries
