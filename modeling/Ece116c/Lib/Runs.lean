import Mathlib.Order.Basic
import Mathlib.Data.Nat.Find

/-! Runs indexed by the number of steps: when a run that makes progress has to stop, and stamps,
    which keep the number of the step that set them. -/

namespace Runs

variable {P : ℕ → Prop} {f : ℕ → ℕ} {B : ℕ}

/-- Up to the first step that reaches `P`, a measure that grows in every other step is at least
    the number of steps. -/
theorem le_measure (hstep : ∀ c, f c < f (c + 1) ∨ P (c + 1)) (c : ℕ)
    (h : ∀ c', 1 ≤ c' → c' ≤ c → ¬ P c') : c ≤ f c := by
  induction c with
  | zero => exact Nat.zero_le _
  | succ c ih =>
    have hc := ih fun c' h1 hc => h c' h1 (Nat.le_succ_of_le hc)
    rcases hstep c with hlt | hP
    · omega
    · exact absurd hP (h (c + 1) (by omega) (le_refl _))

/-- A run whose every step moves a measure bounded by `B`, or reaches `P`, reaches `P` for the
    first time within `B + 1` steps. -/
theorem exists_first [DecidablePred P] (hB : ∀ c, f c ≤ B)
    (hstep : ∀ c, f c < f (c + 1) ∨ P (c + 1)) :
    ∃ c, 1 ≤ c ∧ c ≤ B + 1 ∧ P c ∧ ∀ c', 1 ≤ c' → c' < c → ¬ P c' := by
  have hex : ∃ c, 1 ≤ c ∧ c ≤ B + 1 ∧ P c := by
    by_contra hno
    have hlate := le_measure hstep (B + 1) fun c' h1 hc hP => hno ⟨c', h1, hc, hP⟩
    have := hB (B + 1)
    omega
  obtain ⟨h1, hle, hP⟩ := Nat.find_spec hex
  refine ⟨Nat.find hex, h1, hle, hP, fun c' hc' hlt hP' => ?_⟩
  exact Nat.find_min hex hlt ⟨hc', by omega, hP'⟩

/-! ### Stamps -/

/-- A stamp is 0 until some step sets it to the step's own number, and then stays. -/
structure IsStamp (f : ℕ → ℕ) : Prop where
  zero : f 0 = 0
  step : ∀ c, f (c + 1) = f c ∨ (f c = 0 ∧ f (c + 1) = c + 1)

namespace IsStamp

/-- The step in which a counter passes `i` is a stamp of `i`. -/
theorem of_counter {N : ℕ → ℕ} {i : ℕ} (h0 : f 0 = 0)
    (hstep : ∀ c, f (c + 1) = if N c < i ∧ i ≤ N (c + 1) then c + 1 else f c)
    (hset : ∀ c, f c ≠ 0 → i ≤ N c) : IsStamp f where
  zero := h0
  step c := by
    rw [hstep]
    split
    · rename_i hi
      refine Or.inr ⟨?_, rfl⟩
      by_contra hne
      exact absurd (hset c hne) (Nat.not_le_of_lt hi.1)
    · exact Or.inl rfl

theorem le (h : IsStamp f) (c : ℕ) : f c ≤ c := by
  induction c with
  | zero => exact le_of_eq h.zero
  | succ c ih => rcases h.step c with hs | ⟨-, hs⟩ <;> omega

theorem stable (h : IsStamp f) {c d : ℕ} (hc : f c ≠ 0) (hd : c ≤ d) : f d = f c := by
  induction d, hd using Nat.le_induction with
  | base => rfl
  | succ d _ ih =>
    rcases h.step d with hs | ⟨h0, -⟩
    · rw [hs, ih]
    · rw [ih] at h0; exact absurd h0 hc

/-- A later stamp tells the earlier one. -/
theorem back (h : IsStamp f) {c d : ℕ} (hd : c ≤ d) : f c = if f d ≤ c then f d else 0 := by
  induction d, hd using Nat.le_induction with
  | base => rw [if_pos (h.le c)]
  | succ d hcd ih =>
    rcases h.step d with hs | ⟨h0, hs⟩
    · rw [hs]; exact ih
    · rw [hs, if_neg (by omega), ih, h0, ite_self]

/-- What is stamped by step `c` carries an early stamp later. -/
theorem set_by (h : IsStamp f) {c d : ℕ} (hd : c ≤ d) : f c ≠ 0 ↔ f d ≠ 0 ∧ f d ≤ c := by
  rw [h.back hd]
  split <;> omega

/-- A later value is the earlier one or a late stamp. -/
theorem early_or_late (h : IsStamp f) {c d : ℕ} (hd : c ≤ d) :
    f c = f d ∨ (f c = 0 ∧ c < f d) := by
  rw [h.back hd]
  split <;> omega

end IsStamp

end Runs
