import Mathlib.Data.Nat.Notation
import Mathlib.Logic.Relation

/-! Total correctness for a machine given by its steps: a triple says that from every state with
    the precondition some run comes to a state with the postcondition. -/

namespace Hoare

variable {σ : Type*} {step : σ → σ → Prop} {P Q R : σ → Prop}

/-- Every state with `P` has a run to one with `Q`. -/
def Triple (step : σ → σ → Prop) (P Q : σ → Prop) : Prop :=
  ∀ s, P s → ∃ t, Relation.ReflTransGen step s t ∧ Q t

theorem Triple.skip (h : ∀ s, P s → Q s) : Triple step P Q :=
  fun s hs => ⟨s, .refl, h s hs⟩

theorem Triple.seq (h : Triple step P Q) (h' : Triple step Q R) : Triple step P R := by
  intro s hs
  obtain ⟨t, hst, ht⟩ := h s hs
  obtain ⟨u, htu, hu⟩ := h' t ht
  exact ⟨u, hst.trans htu, hu⟩

/-- One step, and what follows it. -/
theorem Triple.first (h : ∀ s, P s → ∃ t, step s t ∧ Q t) (h' : Triple step Q R) :
    Triple step P R := by
  intro s hs
  obtain ⟨t, hst, ht⟩ := h s hs
  obtain ⟨u, htu, hu⟩ := h' t ht
  exact ⟨u, .head hst htu, hu⟩

theorem Triple.pre {P' : σ → Prop} (h : Triple step P Q) (hP : ∀ s, P' s → P s) :
    Triple step P' Q :=
  fun s hs => h s (hP s hs)

/-- A loop whose body takes the invariant from `k` left turns to one less. -/
theorem Triple.loop {I : ℕ → σ → Prop} (h : ∀ k, Triple step (I (k + 1)) (I k)) (n : ℕ) :
    Triple step (I n) (I 0) := by
  induction n with
  | zero => exact Triple.skip fun _ => id
  | succ n ih => exact (h n).seq ih

end Hoare
