import Mathlib.Data.Nat.Notation

/-! Walks on the natural numbers that move one step at a time into an interval. -/

namespace Walk

variable {lo hi n : ℕ}

/-- One step towards the interval from `lo` to `hi`, none inside it. -/
def stepInto (lo hi n : ℕ) : ℕ := if n < lo then n + 1 else if hi < n then n - 1 else n

/-- How many steps are missing. -/
def distance (lo hi n : ℕ) : ℕ := (lo - n) + (n - hi)

theorem distance_eq_zero : distance lo hi n = 0 ↔ lo ≤ n ∧ n ≤ hi := by
  rw [distance]
  omega

theorem distance_le {m : ℕ} (hle : lo ≤ hi) (hlo : lo ≤ m) (hn : n ≤ m) : distance lo hi n ≤ m := by
  rw [distance]
  omega

/-- Every step comes one closer. -/
theorem distance_stepInto (hle : lo ≤ hi) :
    distance lo hi (stepInto lo hi n) = distance lo hi n - 1 := by
  unfold distance stepInto
  split
  · omega
  · split <;> omega

/-- A step does not leave an interval around its target. -/
theorem stepInto_mem {a b : ℕ} (ha : a ≤ lo) (hle : lo ≤ hi) (hb : hi ≤ b) (hn : a ≤ n ∧ n ≤ b) :
    a ≤ stepInto lo hi n ∧ stepInto lo hi n ≤ b := by
  unfold stepInto
  split
  · omega
  · split <;> omega

end Walk
