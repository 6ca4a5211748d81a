import SyscallReplayer.TransitionSystem

/-!
# Refinement of systems

An abstraction forgets a part of the state. A system refines a coarser one when
each of its steps is one coarse step or none behind the abstraction. It mirrors one
with the same actions when each action has the same outcome.
-/

namespace SyscallReplayer.SystemRefinement

open SyscallReplayer.TransitionSystem

universe u v u' v'

variable {σ : Type u} {α : Type v} {τ : Type u'} {β : Type v'}

structure Refines (fine : System σ α) (coarse : System τ β) (abs : σ → τ) : Prop where
  init : abs fine.init = coarse.init
  step : ∀ {s s' : σ} {a : α}, fine.step s a = some s' →
    abs s' = abs s ∨ ∃ b, coarse.step (abs s) b = some (abs s')

variable {fine : System σ α} {coarse : System τ β} {abs : σ → τ}

theorem Refines.reachable (h : Refines fine coarse abs) {s : σ} (hs : fine.Reachable s) :
    coarse.Reachable (abs s) := by
  induction hs with
  | init =>
      rw [h.init]
      exact .init
  | step _ _ hstep ih =>
      rcases h.step hstep with heq | ⟨b, hb⟩
      · rw [heq]
        exact ih
      · exact .step ih trivial hb

/-- As long as the invariant holds, each action does the same on both sides. -/
structure Mirrors (fine : System σ α) (coarse : System τ α) (abs : σ → τ)
    (Inv : σ → Prop) : Prop where
  init : abs fine.init = coarse.init
  invariant_init : Inv fine.init
  invariant_step : ∀ {s s' : σ} {a : α}, Inv s → fine.step s a = some s' → Inv s'
  step : ∀ {s : σ} (a : α), Inv s → (fine.step s a).map abs = coarse.step (abs s) a

namespace Mirrors

variable {coarse : System τ α} {Inv : σ → Prop}

theorem invariant (h : Mirrors fine coarse abs Inv) {s : σ} (hs : fine.Reachable s) : Inv s :=
  System.ReachVia.invariant _ hs h.invariant_init
    fun _ _ _ _ hinv _ hstep => h.invariant_step hinv hstep

theorem step_of_step (h : Mirrors fine coarse abs Inv) {s s' : σ} {a : α} (hs : Inv s)
    (hstep : fine.step s a = some s') : coarse.step (abs s) a = some (abs s') := by
  rw [← h.step a hs, hstep, Option.map_some]

theorem exists_step (h : Mirrors fine coarse abs Inv) {s : σ} {t : τ} {a : α} (hs : Inv s)
    (hstep : coarse.step (abs s) a = some t) : ∃ s', fine.step s a = some s' ∧ abs s' = t := by
  rw [← h.step a hs] at hstep
  exact Option.map_eq_some_iff.mp hstep

theorem isSome_step (h : Mirrors fine coarse abs Inv) {s : σ} (hs : Inv s) (a : α) :
    (coarse.step (abs s) a).isSome = (fine.step s a).isSome := by
  rw [← h.step a hs, Option.isSome_map]

theorem dead (h : Mirrors fine coarse abs Inv) {s : σ} {a : α} (hs : Inv s)
    (hdead : coarse.step (abs s) a = none) : fine.step s a = none := by
  rw [← h.step a hs] at hdead
  exact Option.map_eq_none_iff.mp hdead

theorem reachable_iff (h : Mirrors fine coarse abs Inv) (t : τ) :
    coarse.Reachable t ↔ ∃ s, fine.Reachable s ∧ abs s = t := by
  constructor
  · intro ht
    induction ht with
    | init => exact ⟨fine.init, .init, h.init⟩
    | step _ _ hstep ih =>
        obtain ⟨s, hs, rfl⟩ := ih
        obtain ⟨s', hs', heq⟩ := h.exists_step (h.invariant hs) hstep
        exact ⟨s', .step hs trivial hs', heq⟩
  · rintro ⟨s, hs, rfl⟩
    induction hs with
    | init =>
        rw [h.init]
        exact .init
    | step hreach _ hstep ih =>
        exact .step ih trivial (h.step_of_step (h.invariant hreach) hstep)

end Mirrors

theorem runVia_simulated {sys : System σ α} {sys' : System τ α} {R : σ → τ → Prop}
    (hstep : ∀ {s t a s'}, R s t → sys.step s a = some s' →
      ∃ t', sys'.step t a = some t' ∧ R s' t') {s s' : σ} {t : τ} {as : List α} (hR : R s t)
    (h : sys.runVia (fun _ _ => true) s as = some s') :
    ∃ t', sys'.runVia (fun _ _ => true) t as = some t' ∧ R s' t' := by
  induction as generalizing s t with
  | nil =>
      obtain rfl := Option.some.inj h
      exact ⟨t, rfl, hR⟩
  | cons a as ih =>
      obtain ⟨s₁, hs₁, hrest⟩ := Option.bind_eq_some_iff.mp h
      obtain ⟨t₁, ht₁, hR₁⟩ := hstep hR hs₁
      obtain ⟨t', ht', hR'⟩ := ih hR₁ hrest
      exact ⟨t', Option.bind_eq_some_iff.mpr ⟨t₁, ht₁, ht'⟩, hR'⟩

end SyscallReplayer.SystemRefinement
