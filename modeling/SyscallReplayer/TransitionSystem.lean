import Mathlib.Data.List.Basic
import Mathlib.Logic.Relation

/-!
# Guarded transition systems

A system is an initial state with an executable step function: `step s a` is
`some s'` when action `a` is enabled in `s`. Runs may be restricted to steps
that meet a side condition, which is how a property that holds only of
well-behaved schedules is stated.
-/

namespace SyscallReplayer.TransitionSystem

universe u v

structure System (σ : Type u) (α : Type v) where
  init : σ
  step : σ → α → Option σ

namespace System

variable {σ : Type u} {α : Type v} (sys : System σ α)

/-- The states reached from the initial one by steps that all meet `ok`. -/
inductive ReachVia (ok : σ → α → Prop) : σ → Prop
  | init : ReachVia ok sys.init
  | step {s s' : σ} {a : α} :
      ReachVia ok s → ok s a → sys.step s a = some s' → ReachVia ok s'

/-- The states of all runs. -/
def Reachable : σ → Prop :=
  sys.ReachVia fun _ _ => True

/-- An invariant of the steps that meet `ok` holds in every state they reach. -/
theorem ReachVia.invariant {ok : σ → α → Prop} {P : σ → Prop} {s : σ}
    (h : sys.ReachVia ok s) (hinit : P sys.init)
    (hstep : ∀ s a s', sys.ReachVia ok s → P s → ok s a →
      sys.step s a = some s' → P s') : P s := by
  induction h with
  | init => exact hinit
  | step hs hok hst ih => exact hstep _ _ _ hs ih hok hst

theorem ReachVia.mono {ok ok' : σ → α → Prop} {s : σ}
    (h : sys.ReachVia ok s)
    (himp : ∀ s a, sys.ReachVia ok s → ok s a → ok' s a) : sys.ReachVia ok' s := by
  induction h with
  | init => exact .init
  | step hs hok hst ih => exact .step ih (himp _ _ hs hok) hst

/-- Fires the actions in order, `none` as soon as one is disabled or does not
meet the side condition. -/
def runVia (ok : σ → α → Bool) : σ → List α → Option σ
  | s, [] => some s
  | s, a :: as => if ok s a then (sys.step s a).bind fun s' => runVia ok s' as else none

theorem reachVia_of_runVia {ok : σ → α → Prop} {okb : σ → α → Bool}
    (hok : ∀ s a, okb s a = true → ok s a) {s s' : σ} {as : List α}
    (hs : sys.ReachVia ok s) (h : sys.runVia okb s as = some s') :
    sys.ReachVia ok s' := by
  induction as generalizing s with
  | nil =>
      simp only [runVia, Option.some.injEq] at h
      exact h ▸ hs
  | cons a as ih =>
      simp only [runVia] at h
      split at h
      · rename_i hokb
        obtain ⟨t, hst, hrest⟩ := Option.bind_eq_some_iff.mp h
        exact ih (.step hs (hok s a hokb) hst) hrest
      · cases h

theorem exists_reachVia {ok : σ → α → Prop} (okb : σ → α → Bool)
    (hok : ∀ s a, okb s a = true → ok s a) (as : List α) (p : σ → Bool)
    (h : (sys.runVia okb sys.init as).any p = true) :
    ∃ s, sys.ReachVia ok s ∧ p s = true := by
  cases hrun : sys.runVia okb sys.init as with
  | none => simp [hrun] at h
  | some s =>
      refine ⟨s, sys.reachVia_of_runVia hok .init hrun, ?_⟩
      simpa only [hrun, Option.any_some] using h

theorem exists_reachable (as : List α) (p : σ → Bool)
    (h : (sys.runVia (fun _ _ => true) sys.init as).any p = true) :
    ∃ s, sys.Reachable s ∧ p s = true :=
  sys.exists_reachVia _ (fun _ _ _ => trivial) as p h

def Fires (s s' : σ) : Prop :=
  ∃ a, sys.step s a = some s'

theorem Reachable.fires {s s' : σ} (h : sys.Reachable s)
    (hfires : Relation.ReflTransGen sys.Fires s s') : sys.Reachable s' := by
  induction hfires with
  | refl => exact h
  | tail _ hlast ih =>
      obtain ⟨a, ha⟩ := hlast
      exact .step ih trivial ha

end System

end SyscallReplayer.TransitionSystem
