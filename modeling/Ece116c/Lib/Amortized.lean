import Mathlib.Algebra.BigOperators.Group.Finset.Basic
import Mathlib.Algebra.Order.BigOperators.Group.Finset

/-! Amortised bounds for a run over many places, such as the entries of a table: every step goes
    to one place at most, and what it costs beyond its bound is paid from what is stored there. -/

namespace Amortized

variable {σ τ ι : Type*} (step : σ → τ → σ)

/-- The costs of a run, added up. -/
def tally (cost : σ → τ → ℕ) : σ → List τ → ℕ
  | _, [] => 0
  | s, t :: ts => cost s t + tally cost (step s t) ts

/-- The places a run goes to. -/
def places [DecidableEq ι] (place : σ → τ → Option ι) : σ → List τ → Finset ι
  | _, [] => ∅
  | s, t :: ts => (place s t).toFinset ∪ places place (step s t) ts

section Tally

variable {step} {cost : σ → τ → ℕ} {s : σ} {ts : List τ}

theorem tally_mul (k : ℕ) :
    tally step (fun s t => k * cost s t) s ts = k * tally step cost s ts := by
  induction ts generalizing s with
  | nil => rfl
  | cons t ts ih => rw [tally, tally, ih, Nat.mul_add]

/-- A cost of one at most that is only paid at steps with a weight, and no longer once `n` of
    these are over, comes to `n` at most. -/
theorem tally_le_of_settled {n : ℕ} (weight : τ → Bool) (pre : List τ)
    (hcost : ∀ s t, cost s t ≤ (weight t).toNat)
    (hsettled : ∀ l t r, ts = l ++ t :: r → n ≤ (pre ++ l).countP weight →
      cost (l.foldl step s) t = 0) :
    tally step cost s ts + min n (pre.countP weight) ≤ n := by
  induction ts generalizing s pre with
  | nil => exact le_trans (le_of_eq (Nat.zero_add _)) (Nat.min_le_left _ _)
  | cons t ts ih =>
    have hrest := ih (s := step s t) (pre ++ [t]) fun l u r hts hn => by
      refine hsettled (t :: l) u r (by rw [hts]; rfl) ?_
      rwa [List.append_assoc] at hn
    have hnow := hsettled [] t ts rfl
    rw [List.append_nil, List.foldl_nil] at hnow
    have hle := hcost s t
    rw [List.countP_append, List.countP_singleton] at hrest
    rw [tally]
    cases hw : weight t with
    | true =>
      rw [hw, if_pos rfl] at hrest
      rw [hw, Bool.toNat_true] at hle
      omega
    | false =>
      rw [hw, if_neg Bool.false_ne_true] at hrest
      rw [hw, Bool.toNat_false] at hle
      omega

end Tally

variable [DecidableEq ι] {step} {place : σ → τ → Option ι} {s : σ} {ts : List τ}

theorem places_subset {S : Finset ι}
    (h : ∀ l t r, ts = l ++ t :: r → ∀ i, place (l.foldl step s) t = some i → i ∈ S) :
    places step place s ts ⊆ S := by
  induction ts generalizing s with
  | nil => exact Finset.empty_subset _
  | cons t ts ih =>
    refine Finset.union_subset (fun i hi => ?_) (ih fun l u r hts => ?_)
    · exact h [] t ts rfl i (Option.mem_toFinset.mp hi)
    · exact h (t :: l) u r (by rw [hts]; rfl)

/-- The change of one place in a sum over many. -/
theorem sum_le_of_place {f g : ι → ℕ} {S : Finset ι} {i : ι} {c b : ℕ}
    (hplace : c + g i ≤ f i + b) (hframe : ∀ j, j ≠ i → g j ≤ f j) :
    c + ∑ j ∈ S, g j ≤ ∑ j ∈ insert i S, f j + b := by
  have hsub : ∑ j ∈ S, g j ≤ ∑ j ∈ insert i S, g j :=
    Finset.sum_le_sum_of_subset (Finset.subset_insert i S)
  have hf := Finset.add_sum_erase (insert i S) f (Finset.mem_insert_self i S)
  have hg := Finset.add_sum_erase (insert i S) g (Finset.mem_insert_self i S)
  have hrest : ∑ j ∈ (insert i S).erase i, g j ≤ ∑ j ∈ (insert i S).erase i, f j :=
    Finset.sum_le_sum fun j hj => hframe j (Finset.ne_of_mem_erase hj)
  omega

/-- The rule, for the states with an invariant: `stored` is what every place holds back. A step
    adds to no other place than its own, and there it pays what it costs beyond its bound. Then the
    run costs its bounds and what the places it goes to held at first, at most. -/
theorem tally_le {cost bound : σ → τ → ℕ} (Inv : σ → Prop) (stored : σ → ι → ℕ)
    (hinv : ∀ s t, Inv s → Inv (step s t))
    (hframe : ∀ s t i, place s t ≠ some i → stored (step s t) i ≤ stored s i)
    (hnone : ∀ s t, place s t = none → cost s t ≤ bound s t)
    (hplace : ∀ s t i, Inv s → place s t = some i →
      cost s t + stored (step s t) i ≤ stored s i + bound s t) (hs : Inv s) :
    tally step cost s ts ≤ tally step bound s ts + ∑ i ∈ places step place s ts, stored s i := by
  induction ts generalizing s with
  | nil => exact Nat.zero_le _
  | cons t ts ih =>
    have hrest := ih (hinv s t hs)
    rw [tally, tally, places]
    cases hp : place s t with
    | none =>
      have hbound := hnone s t hp
      have hsum : ∑ i ∈ places step place (step s t) ts, stored (step s t) i ≤
          ∑ i ∈ places step place (step s t) ts, stored s i :=
        Finset.sum_le_sum fun i _ => hframe s t i (by rw [hp]; nofun)
      rw [Option.toFinset_none, Finset.empty_union]
      omega
    | some i =>
      have hsum := sum_le_of_place (S := places step place (step s t) ts) (hplace s t i hs hp)
        fun j hj => hframe s t j fun h => hj (Option.some.inj (h.symm.trans hp))
      rw [Option.toFinset_some, ← Finset.insert_eq]
      omega

end Amortized
