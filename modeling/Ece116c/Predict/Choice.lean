import Ece116c.Predict.Model
import Mathlib.Data.BitVec

/-! The meta-predictor: every update moves its counter one step towards the values of one
    component, or not at all. -/

namespace Predict

/-- One step into the range from `lo` to `hi`. -/
def moveInto (lo hi c : BitVec 8) : BitVec 8 :=
  if c < lo then c + 1 else if hi < c then c - 1 else c

/-- The component an update favours: the used one when it was right, else the first that was. -/
def favoured (correct : Fin 5 → Bool) (used : Fin 5) : Option (Fin 5) :=
  if correct used then some used else (List.finRange 5).find? correct

/-- Where the counter rests when a component is favoured. -/
def restLow : Fin 5 → BitVec 8
  | 0 => 0
  | 1 => 2
  | 2 => 4
  | 3 => 6
  | 4 => 7

def restHigh : Fin 5 → BitVec 8
  | 0 => 0
  | 1 => 3
  | 2 => 5
  | 3 => 6
  | 4 => 7

variable {c : BitVec 8}

theorem moveInto_zero : (if 0 < c then c - 1 else c) = moveInto 0 0 c := by
  have h : ¬ c < 0 := by bv_omega
  rw [moveInto, if_neg h]

theorem moveInto_seven (hc : c ≤ 7) : (if c < 7 then c + 1 else c) = moveInto 7 7 c := by
  have h : ¬ 7 < c := by bv_omega
  rw [moveInto, if_neg h]

/-- The two ways the source writes a step. -/
theorem moveInto_or (lo hi : BitVec 8) :
    (if c < lo ∨ hi < c then (if c < lo then c + 1 else c - 1) else c) = moveInto lo hi c := by
  rw [moveInto]
  by_cases hlo : c < lo
  · rw [if_pos (Or.inl hlo), if_pos hlo, if_pos hlo]
  · by_cases hhi : hi < c
    · rw [if_pos (Or.inr hhi), if_neg hlo, if_neg hlo, if_pos hhi]
    · rw [if_neg (not_or.mpr ⟨hlo, hhi⟩), if_neg hlo, if_neg hhi]

theorem moveInto_ne (m : BitVec 8) :
    (if c ≠ m then (if c < m then c + 1 else c - 1) else c) = moveInto m m c := by
  have hne : c ≠ m ↔ c < m ∨ m < c := by bv_omega
  rw [← moveInto_or]
  exact if_congr hne rfl rfl

theorem moveInto_le {lo hi : BitVec 8} (hlo : lo ≤ 7) (hc : c ≤ 7) : moveInto lo hi c ≤ 7 := by
  rw [moveInto]
  split
  · bv_omega
  · split <;> bv_omega

theorem restLow_le : ∀ j, restLow j ≤ 7
  | 0 | 1 | 2 | 3 | 4 => by decide

/-- What an update does to the choice counter. -/
theorem trainChoice_eq (correct : Fin 5 → Bool) (used : Fin 5) (hc : c ≤ 7) :
    trainChoice correct used c =
      (favoured correct used).elim c fun j => moveInto (restLow j) (restHigh j) c := by
  have hfive : List.finRange 5 = [0, 1, 2, 3, 4] := rfl
  unfold trainChoice favoured
  rw [hfive]
  by_cases hu : correct used = true
  · rw [if_neg (by rw [hu]; decide), if_pos hu, Option.elim_some]
    match used with
    | 0 => exact moveInto_zero
    | 1 | 2 | 3 => rfl
    | 4 => exact moveInto_seven hc
  · rw [if_pos (by simpa using hu), if_neg hu]
    by_cases h0 : correct 0 = true
    · rw [if_pos h0, List.find?_cons_of_pos h0]
      exact moveInto_zero
    rw [if_neg h0, List.find?_cons_of_neg h0]
    by_cases h1 : correct 1 = true
    · rw [if_pos h1, List.find?_cons_of_pos h1]
      exact moveInto_or 2 3
    rw [if_neg h1, List.find?_cons_of_neg h1]
    by_cases h2 : correct 2 = true
    · rw [if_pos h2, List.find?_cons_of_pos h2]
      exact moveInto_or 4 5
    rw [if_neg h2, List.find?_cons_of_neg h2]
    by_cases h3 : correct 3 = true
    · rw [if_pos h3, List.find?_cons_of_pos h3]
      exact moveInto_ne 6
    rw [if_neg h3, List.find?_cons_of_neg h3]
    by_cases h4 : correct 4 = true
    · rw [if_pos h4, List.find?_cons_of_pos h4]
      exact moveInto_seven hc
    · rw [if_neg h4, List.find?_cons_of_neg h4]
      rfl

theorem trainChoice_le (correct : Fin 5 → Bool) (used : Fin 5) (hc : c ≤ 7) :
    trainChoice correct used c ≤ 7 := by
  rw [trainChoice_eq correct used hc]
  cases favoured correct used with
  | none => exact hc
  | some j => exact moveInto_le (restLow_le j) hc

end Predict
