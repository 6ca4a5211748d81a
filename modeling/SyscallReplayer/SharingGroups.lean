import Mathlib.Logic.Function.Basic
import SyscallReplayer.SharedEntries

/-!
# Members that share a value

Live members form groups, and each group has one value. A member joins the
group of another, starts a group of its own, changes the value of its group or
leaves. Entries with reference counts represent such groups.
-/

namespace SyscallReplayer.SharingGroups

open SharedEntries

universe u v

variable {κ : Type u} {ν : Type v}

structure Groups (κ : Type u) (ν : Type v) where
  /-- What a member sees; only live members see anything. -/
  value : κ → Option ν
  mates : κ → κ → Prop
  refl : ∀ {a}, (value a).isSome → mates a a
  symm : ∀ {a b}, mates a b → mates b a
  trans : ∀ {a b c}, mates a b → mates b c → mates a c
  same : ∀ {a b}, mates a b → value a = value b
  live : ∀ {a b}, mates a b → (value a).isSome

namespace Groups

section

variable [DecidableEq κ]

def single (k : κ) (x : ν) : Groups κ ν where
  value a := if a = k then some x else none
  mates a b := a = k ∧ b = k
  refl := by
    intro a h
    split at h
    · rename_i hak
      exact ⟨hak, hak⟩
    · cases h
  symm h := ⟨h.2, h.1⟩
  trans h h' := ⟨h.1, h'.2⟩
  same h := by rw [h.1, h.2]
  live h := by rw [if_pos h.1]; rfl

def join (g : Groups κ ν) (k k' : κ) : Groups κ ν where
  value a := g.value (if a = k' then k else a)
  mates a b := g.mates (if a = k' then k else a) (if b = k' then k else b)
  refl h := g.refl h
  symm h := g.symm h
  trans h h' := g.trans h h'
  same h := g.same h
  live h := g.live h

def start (g : Groups κ ν) (k : κ) (x : ν) : Groups κ ν where
  value a := if a = k then some x else g.value a
  mates a b := (a = k ∧ b = k) ∨ (a ≠ k ∧ b ≠ k ∧ g.mates a b)
  refl := by
    intro a h
    split at h
    · rename_i hak
      exact .inl ⟨hak, hak⟩
    · rename_i hak
      exact .inr ⟨hak, hak, g.refl h⟩
  symm h := h.imp And.symm fun h => ⟨h.2.1, h.1, g.symm h.2.2⟩
  trans := by
    rintro a b c (⟨ha, hb⟩ | ⟨ha, hb, hab⟩) (⟨hb', hc⟩ | ⟨hb', hc, hbc⟩)
    · exact .inl ⟨ha, hc⟩
    · exact absurd hb hb'
    · exact absurd hb' hb
    · exact .inr ⟨ha, hc, g.trans hab hbc⟩
  same := by
    rintro a b (⟨rfl, rfl⟩ | ⟨ha, hb, hab⟩)
    · rfl
    · rw [if_neg ha, if_neg hb, g.same hab]
  live := by
    rintro a b (⟨rfl, -⟩ | ⟨ha, -, hab⟩)
    · rw [if_pos rfl]
      rfl
    · rw [if_neg ha]
      exact g.live hab

def leave (g : Groups κ ν) (k : κ) : Groups κ ν where
  value a := if a = k then none else g.value a
  mates a b := a ≠ k ∧ b ≠ k ∧ g.mates a b
  refl := by
    intro a h
    split at h
    · cases h
    · rename_i hak
      exact ⟨hak, hak, g.refl h⟩
  symm h := ⟨h.2.1, h.1, g.symm h.2.2⟩
  trans h h' := ⟨h.1, h'.2.1, g.trans h.2.2 h'.2.2⟩
  same h := by rw [if_neg h.1, if_neg h.2.1, g.same h.2.2]
  live h := by
    rw [if_neg h.1]
    exact g.live h.2.2

end

open Classical in
noncomputable def update (g : Groups κ ν) (k : κ) (x : ν) : Groups κ ν where
  value a := if g.mates a k then some x else g.value a
  mates := g.mates
  refl := by
    intro a h
    split at h
    · rename_i hak
      exact g.trans hak (g.symm hak)
    · exact g.refl h
  symm := g.symm
  trans := g.trans
  same := by
    intro a b hab
    have hiff : g.mates a k ↔ g.mates b k := ⟨g.trans (g.symm hab), g.trans hab⟩
    rw [g.same hab]
    simp only [hiff]
  live := by
    intro a b hab
    split
    · rfl
    · exact g.live hab

noncomputable def change (g : Groups κ ν) (k : κ) (f : ν → Option ν) : Option (Groups κ ν) :=
  (g.value k).bind fun x => (f x).map fun y => g.update k y

section

variable [DecidableEq κ]

/-- A new member joins the group of `k`, or starts one with its value. -/
def clone (g : Groups κ ν) (k k' : κ) (shared : Bool) : Option (Groups κ ν) :=
  if (g.value k').isSome then none
  else (g.value k).map fun x => if shared then g.join k k' else g.start k' x

def exit (g : Groups κ ν) (k : κ) : Option (Groups κ ν) :=
  (g.value k).map fun _ => g.leave k

end

theorem value_update_of_mates {g : Groups κ ν} {a k : κ} {x : ν} (h : g.mates a k) :
    (g.update k x).value a = some x :=
  if_pos h

theorem value_update_of_not_mates {g : Groups κ ν} {a k : κ} {x : ν} (h : ¬g.mates a k) :
    (g.update k x).value a = g.value a :=
  if_neg h

end Groups

section

variable {μ : Type v}

/-- The same groups, with values that are related. -/
structure Related (r : ν → μ → Prop) (g : Groups κ ν) (g' : Groups κ μ) : Prop where
  value : ∀ a, Option.Rel r (g.value a) (g'.value a)
  mates : ∀ a b, g.mates a b ↔ g'.mates a b

namespace Related

variable {r : ν → μ → Prop} {g : Groups κ ν} {g' : Groups κ μ} {k : κ} {x : ν} {y : μ}

theorem exists_value (h : Related r g g') (hy : g'.value k = some y) :
    ∃ x, g.value k = some x ∧ r x y := by
  have hk := h.value k
  rw [hy] at hk
  generalize g.value k = o at hk
  cases hk with
  | some hxy => exact ⟨_, rfl, hxy⟩

theorem update (h : Related r g g') (hxy : r x y) : Related r (g.update k x) (g'.update k y) where
  value a := by
    by_cases hmate : g.mates a k
    · rw [Groups.value_update_of_mates hmate, Groups.value_update_of_mates ((h.mates a k).mp hmate)]
      exact .some hxy
    · rw [Groups.value_update_of_not_mates hmate,
        Groups.value_update_of_not_mates fun hmate' => hmate ((h.mates a k).mpr hmate')]
      exact h.value a
  mates := h.mates

variable [DecidableEq κ]

theorem single (hxy : r x y) : Related r (.single k x) (.single k y) where
  value a := by
    show Option.Rel r (if a = k then some x else none) (if a = k then some y else none)
    split
    · exact .some hxy
    · exact .none
  mates _ _ := Iff.rfl

theorem join (h : Related r g g') (k' : κ) : Related r (g.join k k') (g'.join k k') where
  value _ := h.value _
  mates _ _ := h.mates _ _

theorem start (h : Related r g g') (hxy : r x y) : Related r (g.start k x) (g'.start k y) where
  value a := by
    show Option.Rel r (if a = k then some x else g.value a) (if a = k then some y else g'.value a)
    split
    · exact .some hxy
    · exact h.value a
  mates a b := by
    show _ ∨ _ ∧ _ ∧ g.mates a b ↔ _ ∨ _ ∧ _ ∧ g'.mates a b
    rw [h.mates]

theorem leave (h : Related r g g') (k : κ) : Related r (g.leave k) (g'.leave k) where
  value a := by
    show Option.Rel r (if a = k then none else g.value a) (if a = k then none else g'.value a)
    split
    · exact .none
    · exact h.value a
  mates a b := by
    show _ ∧ _ ∧ g.mates a b ↔ _ ∧ _ ∧ g'.mates a b
    rw [h.mates]

theorem update_start (h : Related r g g') (hlive : (g'.value k).isSome)
    (halone : ∀ a, g'.mates a k → a = k) (hxy : r x y) :
    Related r (g.update k x) (g'.start k y) := by
  have hmates : ∀ a, g'.mates a k ↔ a = k := by
    intro a
    constructor
    · exact halone a
    · rintro rfl
      exact g'.refl hlive
  constructor
  · intro a
    show Option.Rel r ((g.update k x).value a) (if a = k then some y else g'.value a)
    split
    · rename_i hak
      rw [Groups.value_update_of_mates ((h.mates a k).mpr ((hmates a).mpr hak))]
      exact .some hxy
    · rename_i hak
      rw [Groups.value_update_of_not_mates fun hmate => hak ((hmates a).mp ((h.mates a k).mp hmate))]
      exact h.value a
  · intro a b
    show g.mates a b ↔ (a = k ∧ b = k) ∨ (a ≠ k ∧ b ≠ k ∧ g'.mates a b)
    rw [h.mates]
    constructor
    · intro hab
      by_cases hb : b = k
      · subst hb
        exact .inl ⟨halone a hab, rfl⟩
      · refine .inr ⟨?_, hb, hab⟩
        rintro rfl
        exact hb (halone b (g'.symm hab))
    · rintro (⟨rfl, rfl⟩ | ⟨-, -, hab⟩)
      · exact g'.refl hlive
      · exact hab

end Related

end

variable {κ ν : Type} {μ : Type v} [Ord κ] [Std.TransOrd κ] [DecidableEq κ]

/-- The keys of one entry are the members of one group; `view` is what a member
sees of the entry's value. -/
structure Represents (view : ν → μ) (s : Shared κ ν) (g : Groups κ μ) : Prop where
  backed : s.Backed
  value : ∀ a, g.value a = (s.get a).map view
  mates : ∀ a b, g.mates a b ↔ s.map[a]? = s.map[b]? ∧ (s.map[a]?).isSome

namespace Represents

variable {view : ν → μ} {s s' : Shared κ ν} {g : Groups κ μ} {k k' : κ}

theorem value_eq (h : Represents view s g) {x : ν} (hx : s.get k = some x) :
    g.value k = some (view x) := by
  rw [h.value, hx, Option.map_some]

theorem value_eq_none (h : Represents view s g) (hk : s.get k = none) : g.value k = none := by
  rw [h.value, hk, Option.map_none]

theorem modify {x : ν} (h : Represents view s g) (hs : s.modify k x = some s') :
    Represents view s' (g.update k (view x)) := by
  obtain ⟨p, e, hp, -, -⟩ := Shared.modify_eq_some hs
  have hmap : s'.map = s.map := (Shared.Modified.refl.step hs).map_eq
  have hmates : ∀ a, g.mates a k ↔ s.map[a]? = s.map[k]? := by
    intro a
    rw [h.mates]
    refine and_iff_left_of_imp fun heq => ?_
    rw [heq, hp]
    rfl
  refine ⟨h.backed.modify hs, fun a => ?_, fun a b => ?_⟩
  · rw [Shared.get_modify hs]
    split
    · rename_i hsame
      rw [Groups.value_update_of_mates ((hmates a).mpr hsame), Option.map_some]
    · rename_i hother
      rw [Groups.value_update_of_not_mates fun hmate => hother ((hmates a).mp hmate), h.value]
  · rw [hmap]
    exact h.mates a b

theorem rel_change {f : ν → Option ν} {f' : μ → Option μ} (h : Represents view s g)
    (hf : ∀ x, (f x).map view = f' (view x)) :
    Option.Rel (Represents view) ((s.get k).bind fun x => (f x).bind fun y => s.modify k y)
      (g.change k f') := by
  unfold Groups.change
  cases hx : s.get k with
  | none =>
      rw [h.value_eq_none hx]
      exact .none
  | some x =>
      rw [h.value_eq hx, Option.bind_some, Option.bind_some, ← hf]
      cases f x with
      | none => exact .none
      | some y =>
          obtain ⟨s', hs⟩ := Shared.exists_modify hx y
          rw [Option.bind_some, hs]
          exact .some (h.modify hs)

variable [Std.LawfulEqOrd κ]

theorem create {x : ν} (h : Represents view s g) :
    Represents view (s.create k x) (g.start k (view x)) := by
  refine ⟨h.backed.create k x, fun a => ?_, fun a b => ?_⟩
  · rw [h.backed.get_create]
    show (if a = k then some (view x) else g.value a) = _
    rw [h.value]
    simp only [eq_comm (a := k)]
    split
    · rfl
    · rfl
  · have hnew : ∀ c : κ, s.map[c]? ≠ some s.next := by
      intro c hc
      exact absurd (h.backed.lt_next hc) (Nat.lt_irrefl _)
    show (a = k ∧ b = k) ∨ (a ≠ k ∧ b ≠ k ∧ g.mates a b) ↔ _
    simp only [h.mates, Shared.create, getElem?_insert, eq_comm (a := k)]
    by_cases ha : a = k
    · by_cases hb : b = k
      · simp [ha, hb]
      · simp [ha, hb, (hnew b).symm]
    · by_cases hb : b = k
      · simp [ha, hb, hnew a]
      · simp [ha, hb]

theorem share (h : Represents view s g) (hs : s.share k k' = some s') :
    Represents view s' (g.join k k') := by
  have hbacked := h.backed.share hs
  have hget := Shared.get_share hs
  obtain ⟨p, e, hp, -, rfl⟩ := Shared.share_eq_some hs
  have hmap : ∀ a : κ, (s.map.insert k' p)[a]? = s.map[if a = k' then k else a]? := by
    intro a
    rw [getElem?_insert]
    simp only [eq_comm (a := k')]
    split
    · exact hp.symm
    · rfl
  refine ⟨hbacked, fun a => ?_, fun a b => ?_⟩
  · rw [hget]
    show g.value (if a = k' then k else a) = _
    rw [h.value]
    simp only [eq_comm (a := k')]
    split
    · rfl
    · rfl
  · show g.mates (if a = k' then k else a) (if b = k' then k else b) ↔ _
    rw [hmap, hmap]
    exact h.mates _ _

theorem release {freed : Option ν} (h : Represents view s g)
    (hs : s.release k = some (freed, s')) : Represents view s' (g.leave k) := by
  refine ⟨h.backed.release hs, fun a => ?_, fun a b => ?_⟩
  · rw [h.backed.get_release hs]
    show (if a = k then none else g.value a) = _
    rw [h.value]
    simp only [eq_comm (a := k)]
    split
    · rfl
    · rfl
  · show a ≠ k ∧ b ≠ k ∧ g.mates a b ↔ _
    rw [h.mates, Shared.map_release hs, Shared.map_release hs]
    simp only [eq_comm (a := k)]
    by_cases ha : a = k
    · simp [ha]
    · by_cases hb : b = k
      · cases s.map[a]? <;> simp [ha, hb]
      · simp [ha, hb]

theorem single (x : ν) : Represents view (Shared.empty.create k x) (Groups.single k (view x)) := by
  refine ⟨Shared.backed_empty.create k x, fun a => ?_, fun a b => ?_⟩
  · rw [Shared.backed_empty.get_create]
    show (if a = k then some (view x) else none) = _
    simp only [eq_comm (a := k)]
    split
    · rfl
    · rfl
  · show a = k ∧ b = k ↔ _
    simp only [Shared.create, Shared.empty, getElem?_insert, eq_comm (a := k)]
    by_cases ha : a = k
    · by_cases hb : b = k
      · simp [ha, hb]
      · simp [ha, hb]
    · simp [ha]

/-- A new key joins the entry of `k` or gets one with a copy of its value. -/
theorem rel_clone {shared : Bool} {o : Option (Shared κ ν)} (h : Represents view s g)
    (hnew : s.get k' = none) (hnone : s.get k = none → o = none)
    (hsome : ∀ x, s.get k = some x →
      ∃ s', o = some s' ∧ Shared.Cloned (fun x y => view y = view x) s k k' shared s') :
    Option.Rel (Represents view) o (g.clone k k' shared) := by
  unfold Groups.clone
  rw [h.value_eq_none hnew, if_neg (by simp)]
  cases hx : s.get k with
  | none =>
      rw [hnone hx, h.value_eq_none hx]
      exact .none
  | some x =>
      obtain ⟨s', rfl, hcloned⟩ := hsome x hx
      rw [h.value_eq hx, Option.map_some]
      refine .some ?_
      rcases hcloned with ⟨hshared, hs⟩ | ⟨hown, x', y, hx', hview, rfl⟩
      · rw [hshared, if_pos rfl]
        exact h.share hs
      · obtain rfl := Option.some.inj (hx.symm.trans hx')
        rw [hown, if_neg Bool.false_ne_true, ← hview]
        exact h.create

theorem rel_exit (h : Represents view s g) :
    Option.Rel (Represents view) ((s.release k).map Prod.snd) (g.exit k) := by
  unfold Groups.exit
  cases hx : s.get k with
  | none =>
      rw [Shared.release_eq_none hx, h.value_eq_none hx]
      exact .none
  | some x =>
      obtain ⟨freed, s', hs⟩ := h.backed.exists_release hx
      rw [hs, h.value_eq hx]
      exact .some (h.release hs)

end Represents

end SyscallReplayer.SharingGroups
