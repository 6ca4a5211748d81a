import SyscallReplayer.StateFrames

/-!
# Programs composed of primitive ones

What the primitive programs keep, the programs composed of them keep as well: they
stay in the same frames, and they do not tell related states apart.
-/

namespace SyscallReplayer.ComposedPrograms

open StatePrograms StateFrames

variable {σ : Type}

/-- The programs made of `prim`, of values and of values that may be missing. Each
comes with what its value satisfies, which the rest of the program may rely on. -/
inductive Composed (prim : (α : Type) → StateT σ Option α → (α → Prop) → Prop) :
    {α : Type} → StateT σ Option α → (α → Prop) → Prop
  | prim {α : Type} {m : StateT σ Option α} {Q : α → Prop} (h : prim α m Q) : Composed prim m Q
  | pure {α : Type} {Q : α → Prop} (a : α) (h : Q a) :
      Composed prim (pure a : StateT σ Option α) Q
  | lift {α : Type} {Q : α → Prop} (o : Option α) (h : ∀ a, o = some a → Q a) :
      Composed prim (liftM o : StateT σ Option α) Q
  | bind {α β : Type} {m : StateT σ Option α} {f : α → StateT σ Option β} {Q : α → Prop}
      {R : β → Prop} (hm : Composed prim m Q) (hf : ∀ a, Q a → Composed prim (f a) R) :
      Composed prim (m >>= f) R
  | mono {α : Type} {m : StateT σ Option α} {Q Q' : α → Prop} (h : Composed prim m Q)
      (himp : ∀ a, Q a → Q' a) : Composed prim m Q'

/-- Whatever the program does from a state, the other one does from every related
state, with the same value and a related end. -/
def Simulates {α : Type} (R : σ → σ → Prop) (m m' : StateT σ Option α) : Prop :=
  ∀ ⦃s t a s'⦄, R s t → m s = some (a, s') → ∃ t', m' t = some (a, t') ∧ R s' t'

namespace Simulates

variable {α β : Type} {R : σ → σ → Prop}

theorem pure (a : α) : Simulates R (pure a) (pure a) := by
  intro s t b s' hR h
  obtain ⟨rfl, rfl⟩ := Prod.mk.inj (Option.some.inj h)
  exact ⟨t, rfl, hR⟩

theorem lift {o o' : Option α} (hle : ∀ a, o = some a → o' = some a) :
    Simulates R (liftM o) (liftM o') := by
  intro s t a s' hR h
  obtain ⟨hsome, rfl⟩ := lift_eq_some.mp h
  exact ⟨t, lift_eq_some.mpr ⟨hle a hsome, rfl⟩, hR⟩

theorem bind {m m' : StateT σ Option α} {f f' : α → StateT σ Option β} (hm : Simulates R m m')
    (hf : ∀ a, (∃ s s', m s = some (a, s')) → Simulates R (f a) (f' a)) :
    Simulates R (m >>= f) (m' >>= f') := by
  intro s t b s' hR h
  obtain ⟨a, s₁, hms, hfs⟩ := bind_eq_some.mp h
  obtain ⟨t₁, hmt, hR₁⟩ := hm hR hms
  obtain ⟨t', hft, hR'⟩ := hf a ⟨s, s₁, hms⟩ hR₁ hfs
  exact ⟨t', bind_eq_some.mpr ⟨a, t₁, hmt, hft⟩, hR'⟩

theorem lift_bind {o : Option α} {f : α → StateT σ Option β} {m' : StateT σ Option β}
    (h : ∀ a, o = some a → Simulates R (f a) m') : Simulates R (liftM o >>= f) m' := by
  intro s t b s' hR hrun
  obtain ⟨a, s₁, hlift, hf⟩ := bind_eq_some.mp hrun
  obtain ⟨ha, rfl⟩ := lift_eq_some.mp hlift
  exact h a ha hR hf

theorem bind_lift {o : Option α} {m : StateT σ Option β} {f' : α → StateT σ Option β} {a : α}
    (ha : o = some a) (h : Simulates R m (f' a)) : Simulates R m (liftM o >>= f') := by
  intro s t b s' hR hrun
  obtain ⟨t', hf, hR'⟩ := h hR hrun
  exact ⟨t', bind_eq_some.mpr ⟨a, t, lift_eq_some.mpr ⟨ha, rfl⟩, hf⟩, hR'⟩

theorem ite {c : Prop} [Decidable c] {m₁ m₂ m₁' m₂' : StateT σ Option α}
    (h₁ : Simulates R m₁ m₁') (h₂ : Simulates R m₂ m₂') :
    Simulates R (if c then m₁ else m₂) (if c then m₁' else m₂') := by
  split
  · exact h₁
  · exact h₂

end Simulates

namespace Composed

variable {α β : Type} {prim : (α : Type) → StateT σ Option α → (α → Prop) → Prop}
variable {Q : α → Prop} {R : β → Prop}

theorem ite {c : Prop} [Decidable c] {m m' : StateT σ Option α} (h : Composed prim m Q)
    (h' : Composed prim m' Q) : Composed prim (if c then m else m') Q := by
  split
  · exact h
  · exact h'

theorem forM {f : α → StateT σ Option PUnit} (l : List α)
    (h : ∀ a ∈ l, Composed prim (f a) fun _ => True) :
    Composed prim (l.forM f) fun _ => True := by
  induction l with
  | nil => exact pure PUnit.unit trivial
  | cons a l ih =>
      show Composed prim (f a >>= fun _ => l.forM f) _
      exact bind (h a List.mem_cons_self) fun _ _ =>
        ih fun a' ha' => h a' (List.mem_cons_of_mem a ha')

theorem foldlM {f : β → α → StateT σ Option β} (l : List α)
    (h : ∀ b, R b → ∀ a ∈ l, Composed prim (f b a) R) (b : β) (hb : R b) :
    Composed prim (l.foldlM f b) R := by
  induction l generalizing b with
  | nil => exact pure b hb
  | cons a l ih =>
      rw [List.foldlM_cons]
      exact bind (h b hb a List.mem_cons_self) fun b' hb' =>
        ih (fun b hb a' ha' => h b hb a' (List.mem_cons_of_mem a ha')) b' hb'

theorem refine {prim' : (α : Type) → StateT σ Option α → (α → Prop) → Prop}
    (hprim : ∀ {α : Type} {m : StateT σ Option α} {Q : α → Prop},
      prim α m Q → Composed prim' m Q)
    {m : StateT σ Option α} (h : Composed prim m Q) : Composed prim' m Q := by
  induction h with
  | prim h => exact hprim h
  | pure a h => exact .pure a h
  | lift o h => exact .lift o h
  | bind _ _ ihm ihf => exact .bind ihm ihf
  | mono _ himp ih => exact .mono ih himp

theorem yields {I : σ → Prop} (hprim : ∀ {α : Type} {m : StateT σ Option α} {Q : α → Prop},
      prim α m Q → Yields I m Q)
    {m : StateT σ Option α} (h : Composed prim m Q) : Yields I m Q := by
  induction h with
  | prim h => exact hprim h
  | pure a h => exact .pure a h
  | lift o h => exact .lift o h
  | bind _ _ ihm ihf => exact .bind ihm ihf
  | mono _ himp ih => exact .mono ih himp

/-! The values of the primitive programs, where nothing depends on the state: -/

section

variable (hvalues : ∀ {α : Type} {m : StateT σ Option α} {Q : α → Prop}, prim α m Q → ∀ a, Q a)

include hvalues

theorem value {m : StateT σ Option α} (h : Composed prim m Q) {s s' : σ} {a : α}
    (hrun : m s = some (a, s')) : Q a := by
  have hyields : Yields (fun _ => True) m Q :=
    h.yields fun hprim _ b _ _ _ => ⟨trivial, hvalues hprim b⟩
  exact (hyields trivial hrun).2

theorem within {R : Frame σ} (hprim : ∀ {α : Type} {m : StateT σ Option α} {Q : α → Prop},
      prim α m Q → Within R m)
    {m : StateT σ Option α} (h : Composed prim m Q) : Within R m := by
  intro s a s' hrun
  have hyields : Yields (R.rel s) m Q :=
    h.yields fun hp _ b _ ht hrun => ⟨R.trans ht (hprim hp hrun), hvalues hp b⟩
  exact (hyields (R.refl s) hrun).1

theorem simulates {R : σ → σ → Prop} (hprim : ∀ {α : Type} {m : StateT σ Option α}
      {Q : α → Prop}, prim α m Q → Simulates R m m)
    {m : StateT σ Option α} (h : Composed prim m Q) : Simulates R m m := by
  induction h with
  | prim h => exact hprim h
  | pure a _ => exact .pure a
  | lift o _ => exact .lift fun _ ho => ho
  | bind hm _ ihm ihf =>
      refine .bind ihm fun a ha => ihf a ?_
      obtain ⟨s, s', hrun⟩ := ha
      exact hm.value hvalues hrun
  | mono _ _ ih => exact ih

end

end Composed

end SyscallReplayer.ComposedPrograms
