import Ece116c.Lib.Regret
import Ece116c.Predict.Aliasing
import Ece116c.Predict.Converge

/-! How far the predictor can fall behind others. The meta-predictor tries the long component first
    when it looks for one that was right, so the five together are wrong at most about twice as
    often as that one alone, and at most about four times as often as the best table of fixed
    directions; in particular they learn a loop, however often it is repeated. -/

namespace Predict
open Amortized TwoLevel

namespace MyPredictor

/-- The direction is mispredicted. -/
def missed (p : MyPredictor) (t : Trace) : ℕ := (t.directionMissed (p.predict t.bi).u).toNat

/-- The prediction of component `j` alone would be wrong. -/
def componentMissed (j : Fin 4) (p : MyPredictor) (t : Trace) : ℕ :=
  (t.bi.conditional && (p.predict t.bi).u.pred j != t.taken).toNat

/-- The entry of `choice_tab` that a branch goes through. -/
def choiceEntry (p : MyPredictor) (t : Trace) : Option (BitVec 32) :=
  if t.bi.conditional then some (p.predict t.bi).u.choiceIndex else none

end MyPredictor

open MyPredictor

/-- The entries of `choice_tab` that the branches of a file go through. -/
def choiceEntries (u : MyUpdate) (bi : BranchInfo) (ts : List Trace) : Finset (BitVec 32) :=
  places MyPredictor.branch choiceEntry (MyPredictor.new u bi) ts

/-! ### The choice counter -/

section Counter

variable {correct : Fin 5 → Bool} {c : BitVec 8}

theorem restLow_le_selectLow : ∀ j, restLow j ≤ selectLow j
  | 0 | 1 | 2 | 3 | 4 => by decide

theorem moveInto_le_succ {lo hi : BitVec 8} (hlo : lo ≤ 7) :
    (moveInto lo hi c).toNat ≤ c.toNat + 1 := by
  rw [moveInto_toNat hlo, Walk.stepInto]
  split_ifs <;> omega

theorem trainChoice_le_succ (used : Fin 5) (hc : c ≤ 7) :
    (trainChoice correct used c).toNat ≤ c.toNat + 1 := by
  rw [trainChoice_eq correct used hc]
  cases favoured correct used with
  | none => exact Nat.le_succ _
  | some j => exact moveInto_le_succ (restLow_le j)

/-- The counter does not rise when the component it selects was right. -/
theorem trainChoice_of_right (hc : c ≤ 7) (h : correct (selects c) = true) :
    (trainChoice correct (selects c) c).toNat ≤ c.toNat := by
  have hlow := BitVec.le_def.mp
    (BitVec.le_trans (restLow_le_selectLow (selects c)) (inRange_selects hc).low)
  rw [trainChoice_eq _ _ hc, favoured, if_pos h, Option.elim_some, moveInto_toNat (restLow_le _),
    Walk.stepInto, if_neg (Nat.not_lt_of_le hlow)]
  split <;> omega

/-- It falls when that one was wrong and the long one right, and it has room to fall. -/
theorem trainChoice_of_long (hc : c ≤ 7) (h : ¬ correct (selects c) = true)
    (h0 : correct 0 = true) :
    2 ≤ c.toNat ∧ (trainChoice correct (selects c) c).toNat = c.toNat - 1 := by
  have hother : ¬ c ≤ 1 := by
    intro hle
    rw [selects, if_pos hle] at h
    exact h h0
  have hfind : (List.finRange 5).find? correct = some 0 := List.find?_cons_of_pos h0
  have hlow : ¬ c.toNat < (restLow 0).toNat := Nat.not_lt_zero _
  rw [trainChoice_eq _ _ hc, favoured, if_neg h, hfind, Option.elim_some,
    moveInto_toNat (restLow_le 0), Walk.stepInto, if_neg hlow]
  change 2 ≤ c.toNat ∧ (if 0 < c.toNat then c.toNat - 1 else c.toNat) = c.toNat - 1
  rw [if_pos (by bv_omega)]
  exact ⟨by bv_omega, rfl⟩

/-- A miss is paid by the choice counter, or by a miss of the long component. -/
theorem trainChoice_pays (correct : Fin 5 → Bool) (hc : c ≤ 7) :
    (!correct (selects c)).toNat + ((trainChoice correct (selects c) c).toNat - 1) ≤
      (c.toNat - 1) + 2 * (!correct 0).toNat := by
  have hone : (!correct (selects c)).toNat ≤ 1 := Bool.toNat_le _
  by_cases h : correct (selects c) = true
  · have hle := trainChoice_of_right hc h
    rw [h, Bool.not_true, Bool.toNat_false]
    omega
  · by_cases h0 : correct 0 = true
    · obtain ⟨hroom, hfall⟩ := trainChoice_of_long hc h h0
      omega
    · have hrise := @trainChoice_le_succ correct c (selects c) hc
      rw [Bool.not_eq_true] at h0
      rw [h0, Bool.not_false, Bool.toNat_true]
      omega

end Counter

/-! ### The runs -/

section Run

variable {l : List (BitVec 32 × Bool)} {p : MyPredictor} {t : Trace} {ts : List Trace}
  {e : BitVec 32}

theorem choiceEntry_eq_some : p.choiceEntry t = some e ↔ p.through e t = true := by
  rw [choiceEntry, through]
  by_cases hc : t.bi.conditional = true
  · rw [if_pos hc, hc, Bool.true_and, beq_iff_eq, Option.some_inj]
  · rw [if_neg hc, Bool.and_eq_true]
    exact ⟨fun h => absurd h.symm (Option.some_ne_none _), fun h => absurd h.1 hc⟩

theorem missed_of_unconditional (hc : ¬ t.bi.conditional = true) : p.missed t = 0 := by
  rw [Bool.not_eq_true] at hc
  rw [missed, Trace.directionMissed, hc, Bool.false_and, Bool.toNat_false]

/-- What a conditional branch does to its entry of `choice_tab`, beside what it misses. -/
theorem Rep.branch_pays (h : Rep l p) (he : p.through e t = true) :
    p.missed t + (((p.branch t).choiceTab e).toNat - 1) ≤
      ((p.choiceTab e).toNat - 1) + 2 * componentMissed 0 p t := by
  obtain ⟨hc, hindex⟩ := Bool.and_eq_true_iff.mp he
  rw [beq_iff_eq, predict_u p hc] at hindex
  have hb : (p.predict t.bi).bi.conditional = true := by rw [predict_bi, hc]
  have hframe : (p.predict t.bi).choiceTab = p.choiceTab := by
    obtain ⟨u, hu⟩ := predict_frame p t.bi
    rw [hu]
  have hused : (p.lookup t.bi).predictorUsed = selects (p.choiceTab e) := by
    rw [← hindex]
    rfl
  have hpays := trainChoice_pays
    (fun j => componentPred (p.lookup t.bi).pred (p.lookup t.bi).localPred j == t.taken)
    (h.choiceTab e)
  rw [← hused] at hpays
  rw [MyPredictor.branch, update_choiceTab _ hb, hframe, missed, Trace.directionMissed,
    componentMissed, predict_u p hc, hc, setEntry, if_pos hindex.symm]
  exact hpays

/-- The regret against the long component, in terms of the entries used. -/
theorem Rep.tally_missed_le (h : Rep l p) :
    tally MyPredictor.branch missed p ts ≤ 2 * tally MyPredictor.branch (componentMissed 0) p ts +
      ∑ e ∈ places MyPredictor.branch choiceEntry p ts, ((p.choiceTab e).toNat - 1) := by
  rw [← tally_mul]
  refine tally_le (fun p => ∃ l, Rep l p) (fun (p : MyPredictor) e => (p.choiceTab e).toNat - 1)
    ?_ ?_ ?_ ?_ ⟨l, h⟩
  · rintro p t ⟨l, h⟩
    exact ⟨_, h.branch t⟩
  · intro p t e he
    have hnot : ¬ p.through e t = true := mt choiceEntry_eq_some.mpr he
    rw [branch_choiceTab_of_not_through hnot]
  · intro p t hp
    have hc : ¬ t.bi.conditional = true := by
      intro hc
      rw [choiceEntry, if_pos hc] at hp
      exact absurd hp (Option.some_ne_none _)
    rw [missed_of_unconditional hc]
    exact Nat.zero_le _
  · rintro p t e ⟨l, h⟩ he
    exact h.branch_pays (choiceEntry_eq_some.mp he)

theorem conditionals_cons (hc : t.bi.conditional = true) (ts : List Trace) :
    conditionals (t :: ts) = (t.bi.address, t.taken) :: conditionals ts := by
  rw [conditionals, List.filter_cons, if_pos hc]
  rfl

theorem conditionals_cons_of_not (hc : ¬ t.bi.conditional = true) (ts : List Trace) :
    conditionals (t :: ts) = conditionals ts := by
  rw [conditionals, List.filter_cons, if_neg hc]
  rfl

/-- The long component is the two-level predictor it stands for. -/
theorem Rep.tally_componentMissed (h : Rep l p) :
    tally MyPredictor.branch (componentMissed 0) p ts =
      tally Scheme.State.step Scheme.State.missed ((globalScheme 0).run l) (conditionals ts) := by
  induction ts generalizing l p with
  | nil => rfl
  | cons t ts ih =>
    have hrest := ih (h.branch t)
    by_cases hc : t.bi.conditional = true
    · have hone : conditionals [t] = [(t.bi.address, t.taken)] := conditionals_cons hc []
      rw [hone, Scheme.run_concat] at hrest
      rw [conditionals_cons hc, tally, tally, hrest, componentMissed, predict_u p hc, hc,
        Bool.true_and, h.lookup_pred t.bi 0]
      rfl
    · have hnone : conditionals [t] = [] := conditionals_cons_of_not hc []
      rw [hnone, List.append_nil] at hrest
      rw [conditionals_cons_of_not hc, tally, hrest, componentMissed,
        Bool.eq_false_of_not_eq_true hc, Bool.false_and, Bool.toNat_false, Nat.zero_add]

theorem foldl_step_dmiss (ts : List Trace) (s : Simulation) :
    (ts.foldl Simulation.step s).dmiss = s.dmiss + tally MyPredictor.branch missed s.p ts := by
  induction ts generalizing s with
  | nil => rfl
  | cons t ts ih =>
    rw [List.foldl_cons, ih, tally, ← Nat.add_assoc]
    rfl

theorem dmiss_eq (u : MyUpdate) (bi : BranchInfo) (ts : List Trace) :
    (main u bi ts).dmiss = tally MyPredictor.branch missed (MyPredictor.new u bi) ts := by
  rw [main, foldl_step_dmiss, Nat.zero_add]

/-- From the first branch on, where every entry of `choice_tab` has room for one step. -/
theorem tally_new_le (u : MyUpdate) (bi : BranchInfo) (ts : List Trace) :
    tally MyPredictor.branch missed (MyPredictor.new u bi) ts ≤
      2 * (globalScheme 0).misses (conditionals ts) + (choiceEntries u bi ts).card := by
  have hnew := Rep.new u bi
  have hle := @Rep.tally_missed_le _ _ ts hnew
  have hstart : ∀ e, ((MyPredictor.new u bi).choiceTab e).toNat - 1 = 1 := fun _ => rfl
  rw [hnew.tally_componentMissed, Finset.sum_congr rfl fun e _ => hstart e,
    ← Finset.card_eq_sum_ones] at hle
  exact hle

/-- A counter of the long component starts at most 2 away from any direction. -/
theorem sum_away_le (f : BitVec 32 → Bool) (S : Finset (BitVec 32)) :
    ∑ i ∈ S, (globalScheme 0).away (f i) (globalScheme 0).init ≤ 2 * S.card := by
  have haway : ∀ d, (globalScheme 0).away d (globalScheme 0).init ≤ 2
    | true | false => by decide
  rw [Nat.mul_comm]
  exact Finset.sum_le_card_nsmul S _ 2 fun i _ => haway (f i)

theorem tally_new_le_fixed (f : BitVec 32 → Bool) (u : MyUpdate) (bi : BranchInfo)
    (ts : List Trace) :
    tally MyPredictor.branch missed (MyPredictor.new u bi) ts ≤
      4 * (globalScheme 0).fixedMisses f (conditionals ts) +
        4 * ((globalScheme 0).slots (conditionals ts)).card + (choiceEntries u bi ts).card := by
  have hlong := tally_new_le u bi ts
  have hfixed := @Scheme.misses_le _ _ _ _ _ (globalScheme 0) f (conditionals ts)
  have haway := sum_away_le f ((globalScheme 0).slots (conditionals ts))
  omega

end Run

/-- The regret of the meta-predictor: on any file the directions are mispredicted at most twice as
    often as by the two-level predictor with the longest history on its own, and once for each
    entry of `choice_tab` that is used. -/
theorem dmiss_le_long (u : MyUpdate) (bi : BranchInfo) (ts : List Trace) :
    (main u bi ts).dmiss ≤
      2 * (globalScheme 0).misses (conditionals ts) + (choiceEntries u bi ts).card := by
  rw [dmiss_eq]
  exact tally_new_le u bi ts

/-- The regret of the whole predictor against fixed directions, chosen in hindsight, for the indices
    of the long table: four times their misses, 4 for each entry of that table that is used, and
    one for each entry of `choice_tab`. -/
theorem dmiss_le_fixed (f : BitVec 32 → Bool) (u : MyUpdate) (bi : BranchInfo) (ts : List Trace) :
    (main u bi ts).dmiss ≤ 4 * (globalScheme 0).fixedMisses f (conditionals ts) +
      4 * ((globalScheme 0).slots (conditionals ts)).card + (choiceEntries u bi ts).card := by
  rw [dmiss_eq]
  exact tally_new_le_fixed f u bi ts

/-! ### Loops -/

section Loop

theorem mask_getLsbD {n : ℕ} (hn : n < 32) (x : BitVec 32) (j : ℕ) :
    (x &&& mask n).getLsbD j = (decide (j < n) && x.getLsbD j) := by
  rw [BitVec.getLsbD, mask_toNat hn, Nat.testBit_mod_two_pow]
  rfl

/-- Bit `n - 1` of the long history is mixed with bit `n + 5` of the address. -/
theorem globalIndex_getLsbD {n h : ℕ} (h1 : 1 ≤ n) (hn : n ≤ 18) (a : BitVec 32) :
    (globalIndex 0 (BitVec.ofNat 32 h) (a >>> 2)).getLsbD (n + 3) =
      (h.testBit (n - 1) ^^ a.getLsbD (n + 5)) := by
  have hshift : n + 3 - 4 = n - 1 := by omega
  have hword : n - 1 < 32 := by omega
  have hbit : ((BitVec.ofNat 32 h) <<< 4).getLsbD (n + 3) = h.testBit (n - 1) := by
    rw [BitVec.getLsbD_shiftLeft, hshift, BitVec.getLsbD_ofNat, decide_eq_true hword,
      decide_eq_true (by omega : n + 3 < 32), decide_eq_false (by omega : ¬ n + 3 < 4)]
    simp
  change ((((BitVec.ofNat 32 h) <<< 4) ^^^ (a >>> 2)) &&& mask 22).getLsbD (n + 3) = _
  rw [mask_getLsbD (by omega), decide_eq_true (by omega : n + 3 < 22), Bool.true_and,
    BitVec.getLsbD_xor, hbit, BitVec.getLsbD_ushiftRight, Nat.add_comm 2]

variable {n : ℕ} {u : MyUpdate} {bi : BranchInfo} {ts : List Trace}

/-- The index into `choice_tab`, from what the long predictor finds; the medium history is the low
    end of the long one. -/
def situationChoice (x : BitVec 32 × ℕ) : BitVec 32 :=
  choiceIndex (x.1 >>> 2) (BitVec.ofNat 32 x.2) (BitVec.ofNat 32 x.2 &&& mask 11)

theorem choiceEntries_subset (hl : (conditionals ts).drop n <+: conditionals ts) (h1 : 1 ≤ n) :
    choiceEntries u bi ts ⊆
      ((globalScheme 0).situations n (conditionals ts)).image situationChoice := by
  refine places_subset fun pre t post hsplit e he => ?_
  obtain ⟨hc, hindex⟩ := Bool.and_eq_true_iff.mp (choiceEntry_eq_some.mp he)
  have hrep : Rep (conditionals pre) ((MyPredictor.new u bi).run pre) := (Rep.new u bi).run pre
  have hreach := (Reachable.new u bi).run pre
  have hlong : ((MyPredictor.new u bi).run pre).historyLong =
      BitVec.ofNat 32 (((globalScheme 0).run (conditionals pre)).hist ()) := by
    rw [← hrep.history 0, BitVec.ofNat_toNat, BitVec.setWidth_eq]
    rfl
  have hconds : conditionals ts =
      conditionals pre ++ (t.bi.address, t.taken) :: conditionals post := by
    rw [hsplit, ← conditionals_cons hc, conditionals, List.filter_append, List.map_append]
    rfl
  have hmem := @Scheme.mem_situations _ _ _ (globalScheme 0) n _ _ hl h1 _ _ _ hconds
  refine Finset.mem_image.mpr ⟨_, hmem, ?_⟩
  change ((((MyPredictor.new u bi).run pre).predict t.bi).u.choiceIndex == e) = true at hindex
  rw [beq_iff_eq, predict_u _ hc, lookup_choiceIndex, hreach.historyMedium_eq, hlong] at hindex
  exact hindex

end Loop

/-- The predictor learns a loop: when the conditional branches and their outcomes repeat themselves
    after at most 18 branches, whose addresses agree in one bit, at most `9 * n + 90` directions are
    mispredicted, however long the file is. -/
theorem dmiss_le_of_loop {n : ℕ} {ts : List Trace} (h1 : 1 ≤ n) (hn : n ≤ 18)
    (hloop : (conditionals ts).drop n <+: conditionals ts) {c : Bool}
    (hbit : ∀ x ∈ conditionals ts, x.1.getLsbD (n + 5) = c) (u : MyUpdate) (bi : BranchInfo) :
    (main u bi ts).dmiss ≤ 9 * n + 90 := by
  have hfixed : (globalScheme 0).fixedMisses (fun i => i.getLsbD (n + 3) ^^ c)
      (conditionals ts) ≤ n := by
    refine Scheme.fixedMisses_le hloop h1 hn fun x hx h _ => ?_
    change ((globalIndex 0 (BitVec.ofNat 32 h) (x.1 >>> 2)).getLsbD (n + 3) ^^ c) = _
    rw [globalIndex_getLsbD h1 hn, hbit x hx, Bool.xor_assoc, Bool.xor_self, Bool.xor_false]
  have hslots : ((globalScheme 0).slots (conditionals ts)).card ≤ 18 + n :=
    Scheme.card_slots_le hloop h1
  have hsituations : ((globalScheme 0).situations n (conditionals ts)).card ≤ 18 + n :=
    Scheme.card_situations_le
  have hentries : (choiceEntries u bi ts).card ≤ 18 + n :=
    le_trans (Finset.card_le_card (choiceEntries_subset hloop h1))
      (le_trans Finset.card_image_le hsituations)
  have hmiss := tally_new_le_fixed (fun i => i.getLsbD (n + 3) ^^ c) u bi ts
  rw [dmiss_eq]
  omega

/-- Two hundred turns of a loop in which one branch alternates. -/
theorem dmiss_le_of_loop_three :
    let turn : List Trace := [⟨true, 64, ⟨8, 0, 1⟩⟩, ⟨true, 64, ⟨12, 0, 1⟩⟩, ⟨false, 64, ⟨8, 0, 1⟩⟩]
    (main ⟨⟨false, 0⟩, fun _ => 0, 0, 0, 0, fun _ => false, false, 0⟩ ⟨0, 0, 0⟩
      (List.replicate 200 turn).flatten).dmiss ≤ 117 := by
  intro turn
  have hloop : (conditionals (List.replicate 200 turn).flatten).drop 3 <+:
      conditionals (List.replicate 200 turn).flatten := by decide +kernel
  have hbit : (conditionals (List.replicate 200 turn).flatten).all
      (fun x => x.1.getLsbD (3 + 5) == false) = true := by decide +kernel
  exact dmiss_le_of_loop (by decide) (by decide) hloop
    (fun x hx => eq_of_beq (List.all_eq_true.mp hbit x hx)) _ _

end Predict
