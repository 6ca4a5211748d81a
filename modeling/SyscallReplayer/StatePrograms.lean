import Mathlib.Data.Option.Basic

/-!
# Programs over a state

A program reads and changes a state, and may stop short. `Triple` says what
holds of every run that reaches its end, `Total` also that the end is reached.
-/

namespace SyscallReplayer.StatePrograms

variable {σ α β γ : Type}

theorem bind_apply (m : StateT σ Option α) (f : α → StateT σ Option β) (s : σ) :
    (m >>= f) s = (m s).bind fun result => f result.1 result.2 := rfl

theorem pure_apply (a : α) (s : σ) : (pure a : StateT σ Option α) s = some (a, s) := rfl

theorem bind_of_eq_some {m : StateT σ Option α} {s s' : σ} {a : α} (h : m s = some (a, s'))
    (f : α → StateT σ Option β) : (m >>= f) s = f a s' := by
  rw [bind_apply, h, Option.bind_some]

theorem bind_of_eq_none {m : StateT σ Option α} {s : σ} (h : m s = none)
    (f : α → StateT σ Option β) : (m >>= f) s = none := by
  rw [bind_apply, h, Option.bind_none]

theorem bind_eq_some {m : StateT σ Option α} {f : α → StateT σ Option β} {s : σ}
    {result : β × σ} :
    (m >>= f) s = some result ↔ ∃ a s', m s = some (a, s') ∧ f a s' = some result := by
  rw [bind_apply, Option.bind_eq_some_iff]
  constructor
  · rintro ⟨⟨a, s'⟩, hm, hf⟩
    exact ⟨a, s', hm, hf⟩
  · rintro ⟨a, s', hm, hf⟩
    exact ⟨(a, s'), hm, hf⟩

theorem bind_pure_eq_some {m : StateT σ Option α} {b b' : β} {s s' : σ} :
    (m >>= fun _ => (pure b : StateT σ Option β)) s = some (b', s') ↔
      b' = b ∧ ∃ a, m s = some (a, s') := by
  rw [bind_eq_some]
  constructor
  · rintro ⟨a, t, hm, hpure⟩
    rw [pure_apply, Option.some.injEq, Prod.mk.injEq] at hpure
    exact ⟨hpure.1.symm, a, hpure.2 ▸ hm⟩
  · rintro ⟨rfl, a, hm⟩
    exact ⟨a, s', hm, rfl⟩

theorem lift_eq_some {o : Option α} {s s' : σ} {a : α} :
    (liftM o : StateT σ Option α) s = some (a, s') ↔ o = some a ∧ s' = s := by
  cases o with
  | none =>
      show (none : Option (α × σ)) = _ ↔ _
      simp
  | some b =>
      show some (b, s) = _ ↔ _
      simp [eq_comm]

def Triple (P : σ → Prop) (m : StateT σ Option α) (Q : α → σ → Prop) : Prop :=
  ∀ ⦃s a s'⦄, P s → m s = some (a, s') → Q a s'

namespace Triple

variable {P : σ → Prop} {Q : α → σ → Prop} {R : β → σ → Prop}

theorem pure (a : α) (h : ∀ s, P s → Q a s) : Triple P (pure a) Q := by
  intro s b s' hs hrun
  rw [pure_apply, Option.some.injEq, Prod.mk.injEq] at hrun
  obtain ⟨rfl, rfl⟩ := hrun
  exact h s hs

theorem bind {m : StateT σ Option α} {f : α → StateT σ Option β} (hm : Triple P m Q)
    (hf : ∀ a, Triple (Q a) (f a) R) : Triple P (m >>= f) R := by
  intro s b s' hs hrun
  obtain ⟨a, t, hmt, hft⟩ := bind_eq_some.mp hrun
  exact hf a (hm hs hmt) hft

/-- A loop that carries a value, with a property that may speak of what is left
to do. -/
theorem foldlM {f : β → α → StateT σ Option β} {I : List α → β → σ → Prop} (l : List α)
    (h : ∀ b a rest, (a :: rest) <:+ l → Triple (I (a :: rest) b) (f b a) (I rest)) (b : β) :
    Triple (I l b) (l.foldlM f b) (I []) := by
  induction l generalizing b with
  | nil => exact pure _ fun _ hs => hs
  | cons a l ih =>
      rw [List.foldlM_cons]
      refine bind (h b a l List.suffix_rfl) fun b' => ih ?_ b'
      intro b'' a' rest hsuffix
      exact h b'' a' rest (hsuffix.trans (List.suffix_cons a l))

end Triple

def Total (P : σ → Prop) (m : StateT σ Option α) (Q : α → σ → Prop) : Prop :=
  ∀ ⦃s⦄, P s → ∃ a s', m s = some (a, s') ∧ Q a s'

namespace Total

variable {P : σ → Prop} {Q : α → σ → Prop} {R : β → σ → Prop}

theorem pure (a : α) (h : ∀ s, P s → Q a s) : Total P (pure a) Q := by
  intro s hs
  exact ⟨a, s, rfl, h s hs⟩

theorem bind {m : StateT σ Option α} {f : α → StateT σ Option β} (hm : Total P m Q)
    (hf : ∀ a, Total (Q a) (f a) R) : Total P (m >>= f) R := by
  intro s hs
  obtain ⟨a, t, hmt, hQ⟩ := hm hs
  obtain ⟨b, s', hft, hR⟩ := hf a hQ
  exact ⟨b, s', by rw [bind_of_eq_some hmt, hft], hR⟩

theorem forM {f : α → StateT σ Option PUnit} {I : List α → σ → Prop} (l : List α)
    (h : ∀ a rest, Total (I (a :: rest)) (f a) fun _ => I rest) :
    Total (I l) (l.forM f) fun _ => I [] := by
  induction l with
  | nil => exact pure _ fun _ hs => hs
  | cons a l ih =>
      show Total (I (a :: l)) (f a >>= fun _ => l.forM f) fun _ => I []
      exact bind (h a l) fun _ => ih

theorem foldlM {f : β → α → StateT σ Option β} {I : List α → β → σ → Prop} (l : List α)
    (h : ∀ b a rest, Total (I (a :: rest) b) (f b a) (I rest)) (b : β) :
    Total (I l b) (l.foldlM f b) (I []) := by
  induction l generalizing b with
  | nil => exact pure _ fun _ hs => hs
  | cons a l ih =>
      rw [List.foldlM_cons]
      exact bind (h b a l) fun b' => ih b'

end Total

end SyscallReplayer.StatePrograms
