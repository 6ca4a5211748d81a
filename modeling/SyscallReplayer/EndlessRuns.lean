import SyscallReplayer.FairRuns

/-!
# Endless runs

If from every state of a kind some actions lead back to such a state, and no party
that can act there is left out, there is a fair run that comes back for ever.
-/

namespace SyscallReplayer.EndlessRuns

open SyscallReplayer.TransitionSystem
open SyscallReplayer.FairRuns

universe u v w

variable {σ : Type u} {α : Type v} {ι : Type w}

/-- The actions lead from `s` back to a state of `P`. -/
structure Round (sys : System σ α) (party : α → ι) (P : σ → Prop) (s : σ) (as : List α) :
    Prop where
  nonempty : as ≠ []
  returns : ∃ t, sys.runVia (fun _ _ => true) s as = some t ∧ P t
  complete : ∀ p, Enabled sys party p s → ∃ a ∈ as, party a = p

def Rounds (sys : System σ α) (party : α → ι) (P : σ → Prop) : Prop :=
  ∀ s, P s → ∃ as, Round sys party P s as

section Itinerary

variable {sys : System σ α} {party : α → ι} {P : σ → Prop}

open Classical in
noncomputable def plan (h : Rounds sys party P) (s : σ) : List α :=
  if hs : P s then (h s hs).choose else []

theorem round_plan (h : Rounds sys party P) {s : σ} (hs : P s) :
    Round sys party P s (plan h s) := by
  rw [plan, dif_pos hs]
  exact (h s hs).choose_spec

noncomputable def next (h : Rounds sys party P) : σ × List α → σ × List α
  | (s, []) => (s, [])
  | (s, [a]) => ((sys.step s a).getD s, plan h ((sys.step s a).getD s))
  | (s, a :: as) => ((sys.step s a).getD s, as)

def OnTheWay (sys : System σ α) (P : σ → Prop) (x : σ × List α) : Prop :=
  x.2 ≠ [] ∧ ∃ t, sys.runVia (fun _ _ => true) x.1 x.2 = some t ∧ P t

theorem onTheWay_plan (h : Rounds sys party P) {s : σ} (hs : P s) :
    OnTheWay sys P (s, plan h s) :=
  ⟨(round_plan h hs).nonempty, (round_plan h hs).returns⟩

theorem next_spec (h : Rounds sys party P) {x : σ × List α} (hx : OnTheWay sys P x) :
    ∃ a as, x.2 = a :: as ∧ sys.step x.1 a = some (next h x).1 ∧ OnTheWay sys P (next h x) ∧
      (as ≠ [] → (next h x).2 = as) ∧
      (as = [] → P (next h x).1 ∧ (next h x).2 = plan h (next h x).1) := by
  obtain ⟨s, as⟩ := x
  obtain ⟨hne, t, hrun, ht⟩ := hx
  cases as with
  | nil => exact absurd rfl hne
  | cons a as =>
      simp only [System.runVia, if_true] at hrun
      obtain ⟨u, hstep, hrest⟩ := Option.bind_eq_some_iff.mp hrun
      refine ⟨a, as, rfl, ?_⟩
      cases as with
      | nil =>
          cases hrest
          simp only [next, hstep, Option.getD_some]
          exact ⟨trivial, onTheWay_plan h ht, fun hnil => absurd rfl hnil, fun _ => ⟨ht, trivial⟩⟩
      | cons b as =>
          simp only [next, hstep, Option.getD_some]
          exact ⟨trivial, ⟨List.cons_ne_nil _ _, t, hrest, ht⟩, fun _ => trivial,
            fun hnil => absurd hnil (List.cons_ne_nil _ _)⟩

section

variable (h : Rounds sys party P) {s : σ}

/-- Where the run from `s` is at each moment, and what it is going to do. -/
noncomputable def itinerary (s : σ) : Nat → σ × List α
  | 0 => (s, plan h s)
  | n + 1 => next h (itinerary s n)

theorem itinerary_onTheWay (hs : P s) (n : Nat) : OnTheWay sys P (itinerary h s n) := by
  induction n with
  | zero => exact onTheWay_plan h hs
  | succ n ih =>
      obtain ⟨_, _, _, _, hnext, _⟩ := next_spec h ih
      exact hnext

theorem itinerary_drop (hs : P s) {n : Nat} {done todo : List α} {a : α}
    (hplan : (itinerary h s n).2 = done ++ a :: todo) :
    (itinerary h s (n + done.length)).2 = a :: todo := by
  induction done generalizing n with
  | nil => exact hplan
  | cons b done ih =>
      obtain ⟨b', as, hcons, _, _, hleft, _⟩ := next_spec h (itinerary_onTheWay h hs n)
      rw [hplan, List.cons_append, List.cons.injEq] at hcons
      obtain ⟨rfl, rfl⟩ := hcons
      rw [List.length_cons, ← Nat.add_assoc, Nat.add_right_comm]
      exact ih (hleft (List.append_ne_nil_of_right_ne_nil _ (List.cons_ne_nil _ _)))

theorem exists_begin (hs : P s) (n : Nat) :
    ∃ m, n ≤ m ∧ P (itinerary h s m).1 ∧
      (itinerary h s m).2 = plan h (itinerary h s m).1 := by
  obtain ⟨hne, -⟩ := itinerary_onTheWay h hs n
  obtain ⟨done, a, hplan⟩ := (itinerary h s n).2.eq_nil_or_concat'.resolve_left hne
  have hlast := itinerary_drop h hs hplan
  obtain ⟨b, as, hcons, _, _, _, hbegin⟩ :=
    next_spec h (itinerary_onTheWay h hs (n + done.length))
  rw [hlast, List.cons.injEq] at hcons
  exact ⟨n + done.length + 1, by omega, hbegin hcons.2.symm⟩

noncomputable def endless (hs : P s) : Run sys where
  state n := (itinerary h s n).1
  action n := (itinerary h s n).2.head?
  idle n hnone := absurd (List.head?_eq_none_iff.mp hnone) (itinerary_onTheWay h hs n).1
  step n a ha := by
    obtain ⟨b, as, hcons, hstep, _⟩ := next_spec h (itinerary_onTheWay h hs n)
    rw [hcons] at ha
    cases ha
    exact hstep

theorem endless_fair (hs : P s) : Fair party (endless h hs) := by
  intro p n henabled
  obtain ⟨m, hm, hP, hbegin⟩ := exists_begin h hs n
  obtain ⟨a, ha, hparty⟩ := (round_plan h hP).complete p (henabled m hm)
  obtain ⟨done, todo, hsplit⟩ := List.append_of_mem ha
  rw [← hbegin] at hsplit
  refine ⟨m + done.length, by omega, a, ?_, hparty⟩
  exact congrArg List.head? (itinerary_drop h hs hsplit)

end

/-- The rule of endless runs. -/
theorem exists_fair_of_rounds (h : Rounds sys party P) {s : σ} (hs : P s) :
    ∃ r : Run sys, r.state 0 = s ∧ Fair party r ∧ ∀ n, ∃ m, n ≤ m ∧ P (r.state m) := by
  refine ⟨endless h hs, rfl, endless_fair h hs, fun n => ?_⟩
  obtain ⟨m, hm, hP, _⟩ := exists_begin h hs n
  exact ⟨m, hm, hP⟩

end Itinerary

end SyscallReplayer.EndlessRuns
