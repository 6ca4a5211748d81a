import Mathlib.Data.Nat.Basic

/-!
# While loops

A loop has a guard and a body, and the body may be undefined in a state. A loop
ends only after finitely many turns that are all defined.
-/

namespace SyscallReplayer.WhileLoops

universe u

structure Loop (σ : Type u) where
  guard : σ → Bool
  body : σ → Option σ

namespace Loop

variable {σ : Type u} (loop : Loop σ)

/-- Entered in `s`, the loop ends in `t`. -/
inductive Ends : σ → σ → Prop
  | leave {s : σ} (hguard : loop.guard s = false) : Ends s s
  | turn {s s' t : σ} (hguard : loop.guard s = true) (hbody : loop.body s = some s')
      (hrest : Ends s' t) : Ends s t

variable {loop} {s t t' : σ}

theorem Ends.unique (h : loop.Ends s t) (h' : loop.Ends s t') : t = t' := by
  induction h with
  | leave hguard =>
      cases h' with
      | leave _ => rfl
      | turn hguard' _ _ => exact nomatch hguard.symm.trans hguard'
  | turn hguard hbody _ ih =>
      cases h' with
      | leave hguard' => exact nomatch hguard.symm.trans hguard'
      | turn _ hbody' hrest' =>
          obtain rfl := Option.some.inj (hbody.symm.trans hbody')
          exact ih hrest'

/-- An invariant with a measure that every turn makes smaller: the loop ends, and
the invariant holds where it is left. -/
theorem exists_ends {I : σ → Prop} (measure : σ → Nat)
    (hturn : ∀ s, I s → loop.guard s = true →
      ∃ s', loop.body s = some s' ∧ I s' ∧ measure s' < measure s) (hs : I s) :
    ∃ t, loop.Ends s t ∧ I t ∧ loop.guard t = false := by
  induction hn : measure s using Nat.strong_induction_on generalizing s with
  | _ n ih =>
      cases hguard : loop.guard s with
      | false => exact ⟨s, .leave hguard, hs, hguard⟩
      | true =>
          obtain ⟨s', hbody, hs', hless⟩ := hturn s hs hguard
          obtain ⟨t, hends, ht⟩ := ih (measure s') (hn ▸ hless) hs' rfl
          exact ⟨t, .turn hguard hbody hends, ht⟩

end Loop

end SyscallReplayer.WhileLoops
