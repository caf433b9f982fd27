import Ece116c.Lib.Amortized
import Ece116c.Lib.TwoLevel
import Mathlib.Data.Finset.Option

/-! Regret of a two-level predictor: it is wrong at most about twice as often as the best table of
    fixed directions. When its one register is as long as a loop, such a table is wrong in the
    first turn only, so the predictor learns the loop, however often it is repeated. -/

namespace TwoLevel
open Amortized

/-- An outcome is a bit of its code. -/
theorem code_testBit (l : List Bool) (j : ℕ) : (code l).testBit j = l[j]?.getD false := by
  induction l generalizing j with
  | nil => exact Nat.zero_testBit j
  | cons b l ih =>
    have hb : b.toNat < 2 := b.toNat_lt
    rw [code_cons]
    cases j with
    | zero =>
      rw [Nat.testBit_zero]
      cases b <;> simp
    | succ j =>
      have hdiv : (b.toNat + 2 * code l) / 2 = code l := by omega
      rw [Nat.testBit_succ, hdiv, ih]
      rfl

namespace Scheme

variable {α κ ι : Type*} [DecidableEq κ] [DecidableEq ι] {P : Scheme α κ ι}

/-! ### Mispredictions -/

def State.step (s : P.State) (x : α × Bool) : P.State := s.update x.1 x.2

theorem run_eq (l : List (α × Bool)) : P.run l = l.foldl State.step P.start := rfl

def State.missed (s : P.State) (x : α × Bool) : ℕ := (s.predict x.1 != x.2).toNat

/-- The fixed directions `f` are wrong at the counter a branch selects. -/
def State.fixedMissed (f : ι → Bool) (s : P.State) (x : α × Bool) : ℕ :=
  (f (s.slot x.1) != x.2).toNat

/-- The mispredictions of a list of branches. -/
def misses (P : Scheme α κ ι) (l : List (α × Bool)) : ℕ :=
  tally State.step State.missed P.start l

def fixedMisses (P : Scheme α κ ι) (f : ι → Bool) (l : List (α × Bool)) : ℕ :=
  tally State.step (State.fixedMissed f) P.start l

/-- The counters it selects. -/
def slots (P : Scheme α κ ι) (l : List (α × Bool)) : Finset ι :=
  places State.step (fun s x => some (s.slot x.1)) P.start l

/-- How far a counter is from predicting `d`. -/
def away (P : Scheme α κ ι) (d : Bool) (t : ℕ) : ℕ :=
  if d then P.threshold - t else t + 1 - P.threshold

omit [DecidableEq κ] [DecidableEq ι] in
/-- A miss is paid by the distance to a direction or by a miss of that direction. -/
theorem push_pays (d b : Bool) (t : ℕ) :
    (decide (P.threshold ≤ t) != b).toNat + P.away d (push P.top b t) ≤
      P.away d t + 2 * (d != b).toNat := by
  have hle := P.threshold_le
  have hone : (decide (P.threshold ≤ t) != b).toNat ≤ 1 := Bool.toNat_le _
  cases b with
  | true =>
    cases d with
    | true =>
      change _ + (P.threshold - min P.top (t + 1)) ≤ (P.threshold - t) + 0
      by_cases ht : P.threshold ≤ t
      · rw [decide_eq_true ht, bne_self_eq_false, Bool.toNat_false]
        omega
      · omega
    | false =>
      change _ + (min P.top (t + 1) + 1 - P.threshold) ≤ (t + 1 - P.threshold) + 2
      omega
  | false =>
    cases d with
    | true =>
      change _ + (P.threshold - (t - 1)) ≤ (P.threshold - t) + 2
      omega
    | false =>
      have hpos := P.threshold_pos
      change _ + (t - 1 + 1 - P.threshold) ≤ (t + 1 - P.threshold) + 0
      by_cases ht : P.threshold ≤ t
      · omega
      · rw [decide_eq_false ht, bne_self_eq_false, Bool.toNat_false]
        omega

/-- The regret against fixed directions: twice their misses, and for each counter selected the way
    from its first value to its direction. -/
theorem misses_le (f : ι → Bool) (l : List (α × Bool)) :
    P.misses l ≤ 2 * P.fixedMisses f l + ∑ i ∈ P.slots l, P.away (f i) P.init := by
  rw [misses, fixedMisses, ← tally_mul]
  refine tally_le (fun _ => True) (fun (s : P.State) i => P.away (f i) (s.count i))
    (fun _ _ _ => trivial) ?_ (fun _ _ h => absurd h (Option.some_ne_none _)) ?_ trivial
  · intro s x i hi
    have hne : i ≠ s.slot x.1 := fun h => hi (congrArg some h.symm)
    rw [State.step, State.update_count, if_neg hne]
  · rintro s x i - hi
    obtain rfl := Option.some.inj hi
    rw [State.step, State.update_count, if_pos rfl]
    exact push_pays _ _ _

end Scheme

/-! ### Loops -/

section Repeats

variable {α : Type*} {n : ℕ} {l : List α}

/-- In a list that repeats itself after `n` places, a part of it comes again `n` places later. -/
theorem drop_take_of_repeats (hl : l.drop n <+: l) {j k : ℕ} (hk : k + n ≤ l.length) :
    (l.take (k + n)).drop (j + n) = (l.take k).drop j := by
  have hpre : l.drop n = l.take (l.length - n) := by
    have h := List.prefix_iff_eq_take.mp hl
    rwa [List.length_drop] at h
  rw [List.drop_take, List.drop_take, Nat.add_comm j n, ← List.drop_drop, hpre, List.drop_take,
    List.take_take]
  congr 1
  omega

theorem getElem?_of_repeats (hl : l.drop n <+: l) {k : ℕ} (hk : k + n < l.length) :
    l[k + n]? = l[k]? := by
  have h := hl.getElem (i := k) (by rw [List.length_drop]; omega)
  rw [List.getElem_drop] at h
  rw [List.getElem?_eq_getElem hk, List.getElem?_eq_getElem (by omega), ← h]
  congr 2
  omega

end Repeats

namespace Scheme

section OneRegister

variable {α ι : Type*} [DecidableEq ι] {P : Scheme α Unit ι} {n : ℕ} {l : List (α × Bool)}

/-- A register for all branches has seen all outcomes. -/
theorem run_hist_unit (l : List (α × Bool)) :
    (P.run l).hist () = code ((l.map Prod.snd).reverse.take P.length) := by
  have hall : l.filter (fun x => decide (P.key x.1 = ())) = l :=
    List.filter_eq_self.mpr fun _ _ => decide_eq_true rfl
  rw [run_hist, seen, hall]

/-- In a loop the register repeats itself once it is filled. -/
theorem run_hist_of_repeats (hl : l.drop n <+: l) {k : ℕ} (hP : P.length ≤ k)
    (hk : k + n ≤ l.length) :
    (P.run (l.take (k + n))).hist () = (P.run (l.take k)).hist () := by
  have hcut : k + n - P.length = k - P.length + n := by omega
  rw [run_hist_unit, run_hist_unit, List.take_reverse, List.take_reverse, List.length_map,
    List.length_map, List.length_take, List.length_take, Nat.min_eq_left hk,
    Nat.min_eq_left (by omega), ← List.map_drop, ← List.map_drop, hcut, drop_take_of_repeats hl hk]

/-- What the next branch of a loop finds: itself and the value of the register. -/
def situation (P : Scheme α Unit ι) (l : List (α × Bool)) (k : ℕ) : Option (α × ℕ) :=
  l[k]?.map fun x => (x.1, (P.run (l.take k)).hist ())

/-- A loop of `n` branches has few situations: those of a turn, and those before the register is
    filled. -/
def situations (P : Scheme α Unit ι) [DecidableEq α] (n : ℕ) (l : List (α × Bool)) :
    Finset (α × ℕ) :=
  ((Finset.range (P.length + n)).image (P.situation l)).eraseNone

variable [DecidableEq α]

theorem card_situations_le : (P.situations n l).card ≤ P.length + n := by
  refine le_trans (Finset.card_eraseNone_le _) (le_trans Finset.card_image_le ?_)
  rw [Finset.card_range]

theorem situation_mem (hl : l.drop n <+: l) (h1 : 1 ≤ n) {k : ℕ} (hk : k < l.length) :
    P.situation l k ∈ (Finset.range (P.length + n)).image (P.situation l) := by
  induction k using Nat.strong_induction_on with
  | _ k ih =>
    by_cases hearly : k < P.length + n
    · exact Finset.mem_image_of_mem _ (Finset.mem_range.mpr hearly)
    · obtain ⟨j, rfl⟩ : ∃ j, k = j + n := ⟨k - n, by omega⟩
      have hsame : P.situation l (j + n) = P.situation l j := by
        rw [situation, situation, getElem?_of_repeats hl hk,
          run_hist_of_repeats hl (by omega) (by omega)]
      rw [hsame]
      exact ih j (by omega) (by omega)

theorem mem_situations (hl : l.drop n <+: l) (h1 : 1 ≤ n) {l₁ l₂ : List (α × Bool)}
    {x : α × Bool} (hsplit : l = l₁ ++ x :: l₂) :
    (x.1, (P.run l₁).hist ()) ∈ P.situations n l := by
  have hlen : l₁.length < l.length := by
    rw [hsplit, List.length_append, List.length_cons]
    omega
  have hhere : P.situation l l₁.length = some (x.1, (P.run l₁).hist ()) := by
    rw [situation, hsplit, List.getElem?_append_right (le_refl _), Nat.sub_self,
      List.take_left]
    rfl
  rw [situations, Finset.mem_eraseNone, ← hhere]
  exact situation_mem hl h1 hlen

/-- So a loop selects few counters. -/
theorem card_slots_le (hl : l.drop n <+: l) (h1 : 1 ≤ n) :
    (P.slots l).card ≤ P.length + n := by
  have hsub : P.slots l ⊆ (P.situations n l).image fun x => P.index x.1 x.2 := by
    refine places_subset fun l₁ x l₂ hsplit i hi => ?_
    obtain rfl := Option.some.inj hi
    have hmem := @mem_situations _ _ _ P n l _ hl h1 _ _ _ hsplit
    have hslot : (P.run l₁).slot x.1 = P.index x.1 ((P.run l₁).hist ()) := rfl
    rw [← run_eq, hslot]
    exact Finset.mem_image.mpr ⟨_, hmem, rfl⟩
  exact le_trans (Finset.card_le_card hsub) (le_trans Finset.card_image_le card_situations_le)

omit [DecidableEq α] in
/-- In a loop the outcome of one turn before is in the register, so directions that read it there
    are wrong in the first turn only. -/
theorem fixedMisses_le (hl : l.drop n <+: l) (h1 : 1 ≤ n) (hn : n ≤ P.length) {f : ι → Bool}
    (hf : ∀ x ∈ l, ∀ h < 2 ^ P.length, f (P.index x.1 h) = h.testBit (n - 1)) :
    P.fixedMisses f l ≤ n := by
  refine le_trans (Nat.le_add_right _ _) (tally_le_of_settled (fun _ => true) []
    (fun _ _ => Bool.toNat_le _) fun l₁ x l₂ hsplit hlate => ?_)
  rw [List.nil_append, List.countP_true] at hlate
  have hx : x ∈ l := by
    rw [hsplit]
    exact List.mem_append_right _ (List.mem_cons_self ..)
  have hlen : l₁.length < l.length := by
    rw [hsplit, List.length_append, List.length_cons]
    omega
  have hback : l₁[l₁.length - n]? = some x := by
    have hrep := @getElem?_of_repeats _ n l hl (l₁.length - n) (by omega)
    rw [Nat.sub_add_cancel hlate, hsplit, List.getElem?_append_right (le_refl _), Nat.sub_self,
      List.getElem?_append_left (by omega)] at hrep
    exact hrep.symm
  have hbit : ((P.run l₁).hist ()).testBit (n - 1) = x.2 := by
    have hplace : l₁.length - 1 - (n - 1) = l₁.length - n := by omega
    rw [run_hist_unit, code_testBit, List.getElem?_take_of_lt (by omega),
      List.getElem?_reverse (by rw [List.length_map]; omega), List.length_map, hplace,
      List.getElem?_map, hback]
    rfl
  have hslot : f ((P.run l₁).slot x.1) = x.2 := by
    rw [← hbit]
    exact hf x hx _ ((P.run l₁).hist_lt ())
  change (f ((P.run l₁).slot x.1) != x.2).toNat = 0
  rw [hslot, bne_self_eq_false, Bool.toNat_false]

end OneRegister

end Scheme

end TwoLevel
