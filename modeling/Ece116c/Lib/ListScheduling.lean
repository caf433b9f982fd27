import Mathlib.Data.Nat.Count
import Mathlib.Data.List.Chain
import Mathlib.Algebra.BigOperators.Group.Finset.Piecewise
import Mathlib.Algebra.Order.BigOperators.Group.Finset
import Mathlib.Data.Finset.Max
import Mathlib.Data.Fintype.Basic

/-! Graham's argument about list scheduling. Where every wait has a reason, the time of an item is
    that of a chain of predecessors and of the slots that were stalled, and there are few of these:
    a slot stalls for being filled to its capacity. -/

namespace ListScheduling

variable {α τ : Type*} {l : List α} {f : α → ℕ} {a b B M : ℕ}

/-! ### Full slots -/

/-- Slot `c` takes `B` of the items, and some item comes later. -/
def Crowded (l : List α) (f : α → ℕ) (B c : ℕ) : Prop :=
  l.countP (fun x => decide (f x = c)) = B ∧ ∃ x ∈ l, c < f x

instance : DecidablePred (Crowded l f B) := fun _ => inferInstanceAs (Decidable (_ ∧ ∃ x ∈ l, _))

theorem sum_countP (S : Finset ℕ) : ∑ c ∈ S, l.countP (fun x => decide (f x = c)) =
    l.countP fun x => decide (f x ∈ S) := by
  induction l with
  | nil => simp
  | cons x l ih =>
    simp only [List.countP_cons, decide_eq_true_eq, Finset.sum_add_distrib, ih, Finset.sum_ite_eq]

/-- The last item is in none of the crowded slots. -/
theorem count_crowded_le (hB : l ≠ [] → 1 ≤ B) (M : ℕ) :
    Nat.count (Crowded l f B) M ≤ (l.length - 1) / B := by
  rw [Nat.count_eq_card_filter_range]
  rcases Finset.eq_empty_or_nonempty ((Finset.range M).filter (Crowded l f B)) with hS | hS
  · rw [hS]
    exact Nat.zero_le _
  · obtain ⟨c, hc, hmax⟩ := Finset.exists_max_image _ id hS
    obtain ⟨-, x, hx, hlt⟩ := (Finset.mem_filter.mp hc).2
    have hout : f x ∉ (Finset.range M).filter (Crowded l f B) :=
      fun h => absurd (hmax _ h) (Nat.not_le.mpr hlt)
    have hcount : l.countP (fun x => decide (f x ∈ (Finset.range M).filter (Crowded l f B))) <
        l.length := by
      refine lt_of_le_of_ne List.countP_le_length fun heq => hout ?_
      exact of_decide_eq_true (List.countP_eq_length.mp heq x hx)
    have hfull : ∀ c ∈ (Finset.range M).filter (Crowded l f B),
        l.countP (fun x => decide (f x = c)) = B := fun c hc => (Finset.mem_filter.mp hc).2.1
    rw [← sum_countP, Finset.sum_const_nat hfull] at hcount
    rw [Nat.le_div_iff_mul_le (hB (List.ne_nil_of_mem hx))]
    exact Nat.le_sub_one_of_lt hcount

/-! ### Stalled slots -/

section Stalled

variable {stalled : ℕ → Prop} [DecidablePred stalled]

theorem count_of_stalled (hab : a ≤ b) (h : ∀ c, a ≤ c → c < b → stalled c) :
    Nat.count stalled b = Nat.count stalled a + (b - a) := by
  induction b, hab using Nat.le_induction with
  | base => rw [Nat.sub_self, Nat.add_zero]
  | succ b hab ih =>
    rw [Nat.count_succ, if_pos (h b hab (Nat.lt_succ_self b)),
      ih fun c hac hcb => h c hac (Nat.lt_succ_of_lt hcb)]
    omega

/-- Slots of several reasons are no more than the slots of each. -/
theorem count_le_sum [Fintype τ] {p : ℕ → Prop} {q : τ → ℕ → Prop} [DecidablePred p]
    [∀ t, DecidablePred (q t)] (h : ∀ c, stalled c → p c ∨ ∃ t, q t c) (M : ℕ) :
    Nat.count stalled M ≤ Nat.count p M + ∑ t, Nat.count (q t) M := by
  induction M with
  | zero => simp
  | succ M ih =>
    simp only [Nat.count_succ, Finset.sum_add_distrib]
    have hstep : (if stalled M then 1 else 0) ≤
        (if p M then 1 else 0) + ∑ t, if q t M then 1 else 0 := by
      split
      · rename_i hM
        rcases h M hM with hp | ⟨t, hq⟩
        · rw [if_pos hp]
          exact Nat.le_add_right _ _
        · have hone : (if q t M then 1 else 0) ≤ ∑ t, if q t M then 1 else 0 :=
            Finset.single_le_sum (f := fun t => if q t M then 1 else 0)
              (fun _ _ => Nat.zero_le _) (Finset.mem_univ t)
          rw [if_pos hq] at hone
          exact hone.trans (Nat.le_add_left _ _)
      · exact Nat.zero_le _
    omega

/-- Take an item back to what it waited for, and so on to an item that waited for its entry only:
    the members of this chain take `cost` slots each, and the rest of the time is stalled. -/
theorem exists_chain {R : ℕ → ℕ → Prop} {S : ℕ → Prop} {enter done : ℕ → ℕ} {cost : ℕ}
    (h : ∀ i, S i → done i ≤ enter i + cost + Nat.count stalled (done i) ∨
      ∃ p, S p ∧ p < i ∧ R p i ∧
        done i + Nat.count stalled (done p) ≤ done p + cost + Nat.count stalled (done i))
    (i : ℕ) (hi : S i) : ∃ j l, (j :: l).IsChain R ∧ (∀ k ∈ j :: l, S k) ∧
      (j :: l).getLast? = some i ∧
        done i ≤ enter j + cost * (l.length + 1) + Nat.count stalled (done i) := by
  induction i using Nat.strong_induction_on with
  | _ i ih =>
    rcases h i hi with hfree | ⟨p, hp, hpi, hR, hwait⟩
    · refine ⟨i, [], .singleton i, ?_, rfl, ?_⟩
      · intro k hk
        rwa [List.mem_singleton.mp hk]
      · rw [List.length_nil, Nat.zero_add, Nat.mul_one]
        exact hfree
    · obtain ⟨j, l, hchain, hmem, hlast, hle⟩ := ih p hpi hp
      refine ⟨j, l ++ [i], ?_, ?_, ?_, ?_⟩
      · rw [← List.cons_append]
        refine hchain.append (.singleton i) fun x hx y hy => ?_
        rw [hlast] at hx
        obtain rfl := Option.some.inj hx
        obtain rfl := Option.some.inj hy
        exact hR
      · intro k hk
        rw [← List.cons_append, List.mem_append, List.mem_singleton] at hk
        rcases hk with hk | rfl
        · exact hmem k hk
        · exact hi
      · rw [← List.cons_append, List.getLast?_concat]
      · rw [List.length_append, List.length_singleton, Nat.mul_succ]
        omega

end Stalled

end ListScheduling
