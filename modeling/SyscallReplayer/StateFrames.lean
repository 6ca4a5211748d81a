import SyscallReplayer.StatePrograms

/-!
# Frames of programs

A frame says what a program leaves as it is: a relation between the state before
and the state after that every step of the program keeps.
-/

namespace SyscallReplayer.StateFrames

open StatePrograms

/-- A reflexive and transitive relation on states. -/
structure Frame (σ : Type) where
  rel : σ → σ → Prop
  refl : ∀ s, rel s s
  trans : ∀ {s t u}, rel s t → rel t u → rel s u

variable {σ α β : Type}

def Frame.keeping {γ : Type} (f : σ → γ) : Frame σ where
  rel s t := f t = f s
  refl _ := rfl
  trans h h' := h'.trans h

def Frame.preserving (P : σ → Prop) : Frame σ where
  rel s t := P s → P t
  refl _ := id
  trans h h' := h' ∘ h

/-- Every finished run of the program stays in the frame. -/
def Within (R : Frame σ) (m : StateT σ Option α) : Prop :=
  ∀ ⦃s a s'⦄, m s = some (a, s') → R.rel s s'

namespace Within

variable {R : Frame σ}

theorem pure (a : α) : Within R (pure a : StateT σ Option α) := by
  intro s b s' h
  obtain rfl := (Prod.mk.inj (Option.some.inj h)).2
  exact R.refl s

theorem bind {m : StateT σ Option α} {f : α → StateT σ Option β} (hm : Within R m)
    (hf : ∀ a, Within R (f a)) : Within R (m >>= f) := by
  intro s b s' h
  obtain ⟨a, t, hmt, hft⟩ := bind_eq_some.mp h
  exact R.trans (hm hmt) (hf a hft)

theorem ite {c : Prop} [Decidable c] {m m' : StateT σ Option α} (hm : Within R m)
    (hm' : Within R m') : Within R (if c then m else m') := by
  split
  · exact hm
  · exact hm'

theorem lift (o : Option α) : Within R (liftM o : StateT σ Option α) := by
  intro s a s' h
  obtain ⟨-, rfl⟩ := lift_eq_some.mp h
  exact R.refl s'

end Within

/-- Every finished run keeps the invariant, and its value satisfies `Q`. -/
def Yields (I : σ → Prop) (m : StateT σ Option α) (Q : α → Prop) : Prop :=
  Triple I m fun a s => I s ∧ Q a

namespace Yields

variable {I : σ → Prop} {Q : α → Prop} {R : β → Prop}

theorem pure (a : α) (h : Q a) : Yields I (pure a : StateT σ Option α) Q :=
  Triple.pure a fun _ hs => ⟨hs, h⟩

theorem lift (o : Option α) (h : ∀ a, o = some a → Q a) :
    Yields I (liftM o : StateT σ Option α) Q := by
  intro s a s' hs hrun
  obtain ⟨ha, rfl⟩ := lift_eq_some.mp hrun
  exact ⟨hs, h a ha⟩

theorem bind {m : StateT σ Option α} {f : α → StateT σ Option β} (hm : Yields I m Q)
    (hf : ∀ a, Q a → Yields I (f a) R) : Yields I (m >>= f) R :=
  Triple.bind hm fun a _ _ _ hs hrun => hf a hs.2 hs.1 hrun

theorem ite {c : Prop} [Decidable c] {m m' : StateT σ Option α} (hm : Yields I m Q)
    (hm' : Yields I m' Q) : Yields I (if c then m else m') Q := by
  split
  · exact hm
  · exact hm'

theorem mono {Q' : α → Prop} {m : StateT σ Option α} (h : Yields I m Q)
    (himp : ∀ a, Q a → Q' a) : Yields I m Q' := by
  intro s a s' hs hrun
  obtain ⟨hs', ha⟩ := h hs hrun
  exact ⟨hs', himp a ha⟩

theorem foldlM {f : β → α → StateT σ Option β} (l : List α)
    (h : ∀ b, R b → ∀ a ∈ l, Yields I (f b a) R) (b : β) (hb : R b) :
    Yields I (l.foldlM f b) R := by
  induction l generalizing b with
  | nil => exact pure b hb
  | cons a l ih =>
      rw [List.foldlM_cons]
      exact bind (h b hb a List.mem_cons_self) fun b' hb' =>
        ih (fun b hb a' ha' => h b hb a' (List.mem_cons_of_mem a ha')) b' hb'

end Yields

end SyscallReplayer.StateFrames
