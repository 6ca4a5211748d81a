import SyscallReplayer.SystemRefinement

/-!
# Fair runs

The actions of a system belong to parties. In a fair run no party that can act
from some moment on is left out for ever. A property is reached by every fair run
if each step that changes the state decreases a measure, and some party can only
make such steps as long as the property fails.
-/

namespace SyscallReplayer.FairRuns

open SyscallReplayer.TransitionSystem
open SyscallReplayer.SystemRefinement

universe u v w

variable {σ : Type u} {α : Type v} {ι : Type w}

/-- An infinite run. Nothing happens at the moments without an action. -/
structure Run (sys : System σ α) where
  state : Nat → σ
  action : Nat → Option α
  idle : ∀ n, action n = none → state (n + 1) = state n
  step : ∀ n a, action n = some a → sys.step (state n) a = some (state (n + 1))

/-- Party `p` has an enabled action. -/
def Enabled (sys : System σ α) (party : α → ι) (p : ι) (s : σ) : Prop :=
  ∃ a, party a = p ∧ (sys.step s a).isSome

/-- A party that can act from some moment on acts again. -/
def Fair {sys : System σ α} (party : α → ι) (r : Run sys) : Prop :=
  ∀ p n, (∀ m, n ≤ m → Enabled sys party p (r.state m)) →
    ∃ m, n ≤ m ∧ ∃ a, r.action m = some a ∧ party a = p

section Measure

variable {sys : System σ α} {party : α → ι} {P Q : σ → Prop} {μ : σ → Nat} {r : Run sys}

theorem Run.invariant (r : Run sys) (hinit : P (r.state 0))
    (hstep : ∀ s a s', P s → sys.step s a = some s' → P s') (n : Nat) : P (r.state n) := by
  induction n with
  | zero => exact hinit
  | succ n ih =>
      cases haction : r.action n with
      | none => rwa [r.idle n haction]
      | some a => exact hstep _ a _ ih (r.step n a haction)

theorem Run.reachable (r : Run sys) (h : sys.Reachable (r.state 0)) (n : Nat) :
    sys.Reachable (r.state n) :=
  r.invariant h (fun _ _ _ hs hstep => .step hs trivial hstep) n

theorem Run.related {R : σ → σ → Prop} (r : Run sys) (hrefl : ∀ s, R s s)
    (htrans : ∀ {s t u}, R s t → R t u → R s u)
    (hstep : ∀ {s a s'}, sys.step s a = some s' → R s s') {n m : Nat} (hnm : n ≤ m) :
    R (r.state n) (r.state m) := by
  induction hnm with
  | refl => exact hrefl _
  | @step m _ ih =>
      cases haction : r.action m with
      | none =>
          rw [r.idle m haction]
          exact ih
      | some a => exact htrans ih (hstep (r.step m a haction))

theorem Run.stays (r : Run sys) {n m : Nat} (hdead : ∀ a, sys.step (r.state n) a = none)
    (hnm : n ≤ m) : r.state m = r.state n := by
  induction hnm with
  | refl => rfl
  | @step m _ ih =>
      cases haction : r.action m with
      | none => rw [r.idle m haction, ih]
      | some a =>
          have hstep := r.step m a haction
          rw [ih, hdead a] at hstep
          cases hstep

theorem Run.same_or_lt (hP : ∀ n, P (r.state n))
    (hdecrease : ∀ s a s', P s → sys.step s a = some s' → s' = s ∨ μ s' < μ s) {n m : Nat}
    (hnm : n ≤ m) : r.state m = r.state n ∨ μ (r.state m) < μ (r.state n) := by
  obtain ⟨d, rfl⟩ := Nat.exists_eq_add_of_le hnm
  clear hnm
  induction d with
  | zero => exact .inl rfl
  | succ d ih =>
      have hlast : r.state (n + d + 1) = r.state (n + d) ∨
          μ (r.state (n + d + 1)) < μ (r.state (n + d)) := by
        cases haction : r.action (n + d) with
        | none => exact .inl (r.idle _ haction)
        | some a => exact hdecrease _ a _ (hP _) (r.step _ a haction)
      rw [← Nat.add_assoc]
      rcases hlast with hsame | hlt
      · rwa [hsame]
      · rcases ih with hsame | hlt'
        · rw [hsame] at hlt
          exact .inr hlt
        · exact .inr (Nat.lt_trans hlt hlt')

/-- The rule of fair progress. -/
theorem eventually_of_measure (hfair : Fair party r) (hP : ∀ n, P (r.state n))
    (hdecrease : ∀ s a s', P s → sys.step s a = some s' → s' = s ∨ μ s' < μ s)
    (hprogress : ∀ s, P s → ¬Q s → ∃ p, Enabled sys party p s ∧
      ∀ a s', party a = p → sys.step s a = some s' → s' ≠ s) (n : Nat) :
    ∃ m, n ≤ m ∧ Q (r.state m) := by
  -- induction on the measure of the state from which on `Q` is looked for
  induction hk : μ (r.state n) using Nat.strongRecOn generalizing n with
  | ind k ih =>
  by_cases hQ : Q (r.state n)
  · exact ⟨n, Nat.le_refl n, hQ⟩
  · have hmoves : ∃ m, n ≤ m ∧ μ (r.state m) < μ (r.state n) := by
      by_contra hnone
      have hsame : ∀ m, n ≤ m → r.state m = r.state n := by
        intro m hm
        rcases Run.same_or_lt hP hdecrease hm with hsame | hlt
        · exact hsame
        · exact absurd ⟨m, hm, hlt⟩ hnone
      obtain ⟨p, henabled, hchange⟩ := hprogress _ (hP n) hQ
      obtain ⟨m, hm, a, haction, hparty⟩ := hfair p n fun m hm => by
        rw [hsame m hm]
        exact henabled
      have hstep := r.step m a haction
      rw [hsame m hm, hsame (m + 1) (by omega)] at hstep
      exact hchange a _ hparty hstep rfl
    obtain ⟨m, hm, hlt⟩ := hmoves
    obtain ⟨m', hm', hQ'⟩ := ih _ (hk ▸ hlt) m rfl
    exact ⟨m', Nat.le_trans hm hm', hQ'⟩

end Measure

section Mirror

universe x

variable {τ : Type x} {fine : System σ α} {coarse : System τ α} {abs : σ → τ}
  {Inv : σ → Prop} {party : α → ι}

theorem Run.mirrored_invariant (h : Mirrors fine coarse abs Inv) (r : Run fine)
    (hstart : Inv (r.state 0)) (n : Nat) : Inv (r.state n) :=
  r.invariant hstart (fun _ _ _ hs hstep => h.invariant_step hs hstep) n

def Run.mirror (h : Mirrors fine coarse abs Inv) (r : Run fine) (hstart : Inv (r.state 0)) :
    Run coarse where
  state n := abs (r.state n)
  action := r.action
  idle n hnone := congrArg abs (r.idle n hnone)
  step n a ha := h.step_of_step (r.mirrored_invariant h hstart n) (r.step n a ha)

theorem Fair.mirror (h : Mirrors fine coarse abs Inv) {r : Run fine}
    (hstart : Inv (r.state 0)) (hfair : Fair party r) : Fair party (r.mirror h hstart) := by
  intro p n henabled
  refine hfair p n fun m hm => ?_
  obtain ⟨a, ha, hsome⟩ := henabled m hm
  refine ⟨a, ha, ?_⟩
  rw [← h.isSome_step (r.mirrored_invariant h hstart m) a]
  exact hsome

end Mirror

theorem runVia_cons {sys : System σ α} {s t : σ} {a : α} (h : sys.step s a = some t)
    (as : List α) :
    sys.runVia (fun _ _ => true) s (a :: as) = sys.runVia (fun _ _ => true) t as := by
  simp only [System.runVia, if_true, h, Option.bind_some]

theorem runVia_append {sys : System σ α} {s t : σ} {as : List α}
    (h : sys.runVia (fun _ _ => true) s as = some t) (as' : List α) :
    sys.runVia (fun _ _ => true) s (as ++ as') = sys.runVia (fun _ _ => true) t as' := by
  induction as generalizing s with
  | nil =>
      cases h
      rfl
  | cons a as ih =>
      simp only [System.runVia, if_true] at h
      obtain ⟨u, hstep, hrest⟩ := Option.bind_eq_some_iff.mp h
      rw [List.cons_append, runVia_cons hstep]
      exact ih hrest

/-- If some step always brings `Q` closer, it can be reached. -/
theorem exists_reaches_of_measure {sys : System σ α} {P Q : σ → Prop} {μ : σ → Nat}
    (hstep : ∀ s, P s → ¬Q s → ∃ a s', sys.step s a = some s' ∧ P s' ∧ μ s' < μ s) {s : σ}
    (hs : P s) : ∃ t, Relation.ReflTransGen sys.Fires s t ∧ P t ∧ Q t := by
  induction hk : μ s using Nat.strongRecOn generalizing s with
  | ind k ih =>
  by_cases hQ : Q s
  · exact ⟨s, .refl, hs, hQ⟩
  · obtain ⟨a, s', hfires, hs', hlt⟩ := hstep s hs hQ
    obtain ⟨t, hrest, ht, hQ'⟩ := ih _ (hk ▸ hlt) hs' rfl
    exact ⟨t, .head ⟨a, hfires⟩ hrest, ht, hQ'⟩

def after (sys : System σ α) : σ → List α → Nat → σ
  | s, a :: as, n + 1 => after sys ((sys.step s a).getD s) as n
  | s, _, _ => s

section Finite

variable {sys : System σ α} {s t : σ} {as : List α}

theorem after_zero (s : σ) (as : List α) : after sys s as 0 = s := by
  cases as <;> rfl

theorem after_step (h : sys.runVia (fun _ _ => true) s as = some t) (n : Nat) :
    (as[n]? = none → after sys s as (n + 1) = after sys s as n) ∧
      ∀ a, as[n]? = some a → sys.step (after sys s as n) a = some (after sys s as (n + 1)) := by
  induction as generalizing s n with
  | nil => exact ⟨fun _ => rfl, fun a ha => by cases ha⟩
  | cons a as ih =>
      simp only [System.runVia, if_true] at h
      obtain ⟨u, hstep, hrest⟩ := Option.bind_eq_some_iff.mp h
      cases n with
      | zero =>
          refine ⟨fun hnone => absurd hnone (Option.some_ne_none a), fun b hb => ?_⟩
          cases hb
          simp only [after, hstep, Option.getD_some, after_zero]
      | succ n =>
          simp only [after, hstep, Option.getD_some, List.getElem?_cons_succ]
          exact ih hrest n

theorem after_of_le (h : sys.runVia (fun _ _ => true) s as = some t) {n : Nat}
    (hn : as.length ≤ n) : after sys s as n = t := by
  induction as generalizing s n with
  | nil =>
      cases h
      rfl
  | cons a as ih =>
      simp only [System.runVia, if_true] at h
      obtain ⟨u, hstep, hrest⟩ := Option.bind_eq_some_iff.mp h
      obtain ⟨n, rfl⟩ : ∃ k, n = k + 1 := ⟨n - 1, by rw [List.length_cons] at hn; omega⟩
      simp only [after, hstep, Option.getD_some]
      exact ih hrest (by rw [List.length_cons] at hn; omega)

theorem exists_fair_of_dead (party : α → ι) (h : sys.runVia (fun _ _ => true) s as = some t)
    (hdead : ∀ a, sys.step t a = none) : ∃ r : Run sys, r.state 0 = s ∧ Fair party r := by
  let r : Run sys :=
    { state := after sys s as
      action n := as[n]?
      idle n := (after_step h n).1
      step n := (after_step h n).2 }
  refine ⟨r, after_zero s as, fun p n henabled => ?_⟩
  obtain ⟨a, _, hsome⟩ := henabled (max n as.length) (Nat.le_max_left _ _)
  change (sys.step (after sys s as (max n as.length)) a).isSome = true at hsome
  rw [after_of_le h (Nat.le_max_right _ _), hdead a] at hsome
  cases hsome

end Finite

end SyscallReplayer.FairRuns
