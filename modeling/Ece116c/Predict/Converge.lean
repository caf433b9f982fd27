import Ece116c.Lib.Walk
import Ece116c.Predict.WarmUp
import Mathlib.Order.Fin.Basic

/-! Convergence of the meta-predictor: an entry of its table through which one component alone is
    right moves into the values that select it, whichever components it passes on the way. -/

namespace Predict
open Walk

/-- The values of `choice_tab` that select a component, from `selectLow` to `selectHigh`. -/
def selectLow : Fin 5 → BitVec 8
  | 0 => 0
  | 1 => 2
  | 2 => 4
  | 3 => 6
  | 4 => 7

def selectHigh : Fin 5 → BitVec 8
  | 0 => 1
  | 1 => 3
  | 2 => 5
  | 3 => 6
  | 4 => 7

/-- The counter `c` selects component `j`. -/
structure InRange (j : Fin 5) (c : BitVec 8) : Prop where
  low : selectLow j ≤ c
  high : c ≤ selectHigh j

/-- A conditional branch whose choice index is `e`. -/
def MyPredictor.through (e : BitVec 32) (p : MyPredictor) (t : Trace) : Bool :=
  t.bi.conditional && (p.predict t.bi).u.choiceIndex == e

/-- How many of them `ts` has, from state `p` on. -/
def passes (e : BitVec 32) (p : MyPredictor) : List Trace → ℕ
  | [] => 0
  | t :: ts => (p.through e t).toNat + passes e (p.branch t) ts

/-- Component `j` alone predicts the outcome of `t`. -/
def OnlyRight (j : Fin 5) (p : MyPredictor) (t : Trace) : Prop :=
  ∀ i, componentPred (p.predict t.bi).u.pred (p.predict t.bi).u.localPred i = t.taken ↔ i = j

/-- At every branch of `ts` through `e`, component `j` alone is right. -/
def Favours (e : BitVec 32) (j : Fin 5) (p : MyPredictor) (ts : List Trace) : Prop :=
  ∀ pre t post, ts = pre ++ t :: post → (p.run pre).through e t = true →
    OnlyRight j (p.run pre) t

/-! ### The counter -/

section Counter

variable {c : BitVec 8} {j : Fin 5}

theorem inRange_selects (hc : c ≤ 7) : InRange (selects c) c := by
  rw [selects]
  split_ifs with h1 h3 h5 h6
  · exact ⟨(by bv_omega : 0 ≤ c), h1⟩
  · exact ⟨(by bv_omega : 2 ≤ c), h3⟩
  · exact ⟨(by bv_omega : 4 ≤ c), h5⟩
  · rw [h6]
    exact ⟨BitVec.le_refl 6, BitVec.le_refl 6⟩
  · exact ⟨(by bv_omega : 7 ≤ c), hc⟩

theorem selectHigh_lt : ∀ i j, i < j → selectHigh i < selectLow j := by decide

theorem selects_iff (hc : c ≤ 7) : selects c = j ↔ InRange j c := by
  refine ⟨fun h => h ▸ inRange_selects hc, fun h => ?_⟩
  have hs := inRange_selects hc
  rcases lt_trichotomy (selects c) j with hlt | heq | hlt
  · have := selectHigh_lt _ _ hlt
    have := h.low
    have := hs.high
    bv_omega
  · exact heq
  · have := selectHigh_lt _ _ hlt
    have := h.high
    have := hs.low
    bv_omega

theorem rest_spec : ∀ j, selectLow j ≤ restLow j ∧ restLow j ≤ restHigh j ∧
    restHigh j ≤ selectHigh j
  | 0 | 1 | 2 | 3 | 4 => by decide

/-- The steps of the choice counter are those of a walk. -/
theorem moveInto_toNat {lo hi : BitVec 8} (hlo : lo ≤ 7) :
    (moveInto lo hi c).toNat = stepInto lo.toNat hi.toNat c.toNat := by
  rw [moveInto, stepInto]
  by_cases h1 : c < lo
  · rw [if_pos h1, if_pos (BitVec.lt_def.mp h1)]
    bv_omega
  · rw [if_neg h1, if_neg (mt BitVec.lt_def.mpr h1)]
    by_cases h2 : hi < c
    · rw [if_pos h2, if_pos (BitVec.lt_def.mp h2)]
      bv_omega
    · rw [if_neg h2, if_neg (mt BitVec.lt_def.mpr h2)]

theorem InRange.moveInto (h : InRange j c) :
    InRange j (moveInto (restLow j) (restHigh j) c) := by
  obtain ⟨hlow, hle, hhigh⟩ := rest_spec j
  have hmem := stepInto_mem (BitVec.le_def.mp hlow) (BitVec.le_def.mp hle)
    (BitVec.le_def.mp hhigh) ⟨BitVec.le_def.mp h.low, BitVec.le_def.mp h.high⟩
  rw [← moveInto_toNat (restLow_le j)] at hmem
  exact ⟨BitVec.le_def.mpr hmem.1, BitVec.le_def.mpr hmem.2⟩

/-- How far the counter is from where it rests when component `j` is favoured. -/
def restDistance (j : Fin 5) (c : BitVec 8) : ℕ :=
  distance (restLow j).toNat (restHigh j).toNat c.toNat

theorem restDistance_le (hc : c ≤ 7) : restDistance j c ≤ 7 :=
  distance_le (BitVec.le_def.mp (rest_spec j).2.1) (BitVec.le_def.mp (restLow_le j))
    (BitVec.le_def.mp hc)

theorem restDistance_moveInto :
    restDistance j (moveInto (restLow j) (restHigh j) c) = restDistance j c - 1 := by
  rw [restDistance, moveInto_toNat (restLow_le j)]
  exact distance_stepInto (BitVec.le_def.mp (rest_spec j).2.1)

theorem inRange_of_restDistance (h : restDistance j c = 0) : InRange j c := by
  obtain ⟨hlow, -, hhigh⟩ := rest_spec j
  obtain ⟨h1, h2⟩ := distance_eq_zero.mp h
  exact ⟨BitVec.le_trans hlow (BitVec.le_def.mpr h1), BitVec.le_trans (BitVec.le_def.mpr h2) hhigh⟩

/-- When one component is right, an update favours it, whichever one was used. -/
theorem favoured_of_only {correct : Fin 5 → Bool} (h : ∀ i, correct i = true ↔ i = j)
    (used : Fin 5) : favoured correct used = some j := by
  have hcorrect : correct = fun i => decide (i = j) := by
    funext i
    exact Bool.eq_iff_iff.mpr ((h i).trans (decide_eq_true_iff).symm)
  rw [favoured]
  by_cases hu : correct used = true
  · rw [if_pos hu, (h used).mp hu]
  · rw [if_neg hu, hcorrect]
    match j with
    | 0 | 1 | 2 | 3 | 4 => rfl

end Counter

/-! ### The runs -/

section Run

variable {p : MyPredictor} {e : BitVec 32} {j : Fin 5} {t : Trace} {ts : List Trace}

theorem Reachable.run (h : Reachable false p) (ts : List Trace) : Reachable false (p.run ts) := by
  induction ts generalizing p with
  | nil => exact h
  | cons t ts ih => exact ih ((h.predict t.bi).update t.taken t.target)

/-- A branch through `e` moves the entry towards the only component that is right. -/
theorem branch_choiceTab (hle : p.choiceTab e ≤ 7) (ht : p.through e t = true)
    (hj : OnlyRight j p t) :
    (p.branch t).choiceTab e = moveInto (restLow j) (restHigh j) (p.choiceTab e) := by
  obtain ⟨hc, he⟩ := Bool.and_eq_true_iff.mp ht
  have hb : (p.predict t.bi).bi.conditional = true := by rw [predict_bi, hc]
  have hframe : (p.predict t.bi).choiceTab = p.choiceTab := by
    obtain ⟨u, hu⟩ := predict_frame p t.bi
    rw [hu]
  rw [MyPredictor.branch, update_choiceTab _ hb, setEntry, if_pos (beq_iff_eq.mp he).symm, hframe,
    trainChoice_eq _ _ hle, favoured_of_only fun i => beq_iff_eq.trans (hj i), Option.elim_some]

/-- Any other branch leaves the entry alone. -/
theorem branch_choiceTab_of_not_through (ht : ¬ p.through e t = true) :
    (p.branch t).choiceTab e = p.choiceTab e := by
  obtain ⟨u, hu⟩ := predict_frame p t.bi
  by_cases hc : t.bi.conditional = true
  · have hb : (p.predict t.bi).bi.conditional = true := by rw [predict_bi, hc]
    have he : e ≠ (p.predict t.bi).u.choiceIndex := by
      rintro rfl
      exact ht (by rw [MyPredictor.through, hc, Bool.true_and, beq_self_eq_true])
    rw [MyPredictor.branch, update_choiceTab _ hb, setEntry, if_neg he, hu]
  · have hb : ¬ (p.predict t.bi).bi.conditional = true := by rwa [predict_bi]
    rw [MyPredictor.branch, update_of_unconditional _ hb, hu]

theorem favours_nil : Favours e j p [] := by
  intro pre t post hsplit
  simp at hsplit

theorem favours_cons : Favours e j p (t :: ts) ↔
    (p.through e t = true → OnlyRight j p t) ∧ Favours e j (p.branch t) ts := by
  constructor
  · intro h
    refine ⟨h [] t ts rfl, fun pre s post hsplit => ?_⟩
    exact h (t :: pre) s post (by rw [hsplit]; rfl)
  · rintro ⟨hhead, htail⟩ pre s post hsplit
    cases pre with
    | nil =>
      obtain ⟨rfl, rfl⟩ := List.cons.inj hsplit
      exact hhead
    | cons r pre =>
      obtain ⟨rfl, hts⟩ := List.cons.inj hsplit
      exact htail pre s post hts

instance : Decidable (OnlyRight j p t) := inferInstanceAs (Decidable (∀ _, _))

instance decidableFavours : ∀ (p : MyPredictor) (ts : List Trace), Decidable (Favours e j p ts)
  | _, [] => isTrue favours_nil
  | p, t :: ts =>
    have := decidableFavours (p.branch t) ts
    decidable_of_iff _ favours_cons.symm

theorem Favours.append {us : List Trace} (h : Favours e j p (ts ++ us)) :
    Favours e j p ts ∧ Favours e j (p.run ts) us := by
  induction ts generalizing p with
  | nil => exact ⟨favours_nil, h⟩
  | cons t ts ih =>
    obtain ⟨hhead, htail⟩ := favours_cons.mp h
    obtain ⟨hts, hus⟩ := ih htail
    exact ⟨favours_cons.mpr ⟨hhead, hts⟩, hus⟩

variable {l : List (BitVec 32 × Bool)}

/-- The distance to the component falls by one at every branch through `e`. -/
theorem Rep.restDistance_run (hrep : Rep l p) (h : Favours e j p ts) :
    restDistance j ((p.run ts).choiceTab e) = restDistance j (p.choiceTab e) - passes e p ts := by
  induction ts generalizing l p with
  | nil => rfl
  | cons t ts ih =>
    obtain ⟨hhead, htail⟩ := favours_cons.mp h
    have hrest := ih (hrep.branch t) htail
    by_cases ht : p.through e t = true
    · rw [branch_choiceTab (hrep.choiceTab e) ht (hhead ht), restDistance_moveInto,
        Nat.sub_sub] at hrest
      rw [passes, ht]
      exact hrest
    · rw [branch_choiceTab_of_not_through ht] at hrest
      rw [Bool.not_eq_true] at ht
      rw [passes, ht, Bool.toNat_false, Nat.zero_add]
      exact hrest

/-- And once the entry selects the component, it goes on selecting it. -/
theorem Rep.inRange_run (hrep : Rep l p) (h : Favours e j p ts) (hin : InRange j (p.choiceTab e)) :
    InRange j ((p.run ts).choiceTab e) := by
  induction ts generalizing l p with
  | nil => exact hin
  | cons t ts ih =>
    obtain ⟨hhead, htail⟩ := favours_cons.mp h
    refine ih (hrep.branch t) htail ?_
    by_cases ht : p.through e t = true
    · rw [branch_choiceTab (hrep.choiceTab e) ht (hhead ht)]
      exact hin.moveInto
    · rwa [branch_choiceTab_of_not_through ht]

/-- A component that the entry selects is the one used, so it is right when the others are not. -/
theorem Rep.direction_of_inRange (hrep : Rep l p) (ht : p.through e t = true)
    (hj : OnlyRight j p t) (hin : InRange j (p.choiceTab e)) :
    (p.predict t.bi).u.predictorUsed = j ∧
      (p.predict t.bi).u.directionPrediction = t.taken := by
  obtain ⟨hc, he⟩ := Bool.and_eq_true_iff.mp ht
  rw [beq_iff_eq, predict_u _ hc] at he
  have hright := (hj j).mpr rfl
  rw [predict_u _ hc] at hright ⊢
  have hused : (p.lookup t.bi).predictorUsed = j := by
    rw [← (selects_iff (hrep.choiceTab e)).mpr hin, ← he]
    rfl
  refine ⟨hused, ?_⟩
  rw [← hright, ← hused]
  rfl

end Run

/-- Convergence of the meta-predictor: in a continuation in which component `j` alone is right at
    every branch through `e`, the entry selects `j` after 7 of these branches at the latest and from
    then on, and every branch that goes through it while it does is predicted right. -/
theorem meta_predictor_converges {due : Bool} {p : MyPredictor} (hp : Reachable due p)
    (e : BitVec 32) (j : Fin 5) {ts : List Trace} (h : Favours e j p ts) :
    (∀ pre post, ts = pre ++ post → 7 ≤ passes e p pre → InRange j ((p.run pre).choiceTab e)) ∧
    (∀ pre mid post, ts = pre ++ mid ++ post → InRange j ((p.run pre).choiceTab e) →
      InRange j ((p.run (pre ++ mid)).choiceTab e)) ∧
    ∀ pre t post, ts = pre ++ t :: post → (p.run pre).through e t = true →
      InRange j ((p.run pre).choiceTab e) →
        ((p.run pre).predict t.bi).u.predictorUsed = j ∧
        ((p.run pre).predict t.bi).u.directionPrediction = t.taken := by
  obtain ⟨l, hrep, -⟩ := hp.rep
  refine ⟨?_, ?_, ?_⟩
  · rintro pre post rfl hn
    have hdist := hrep.restDistance_run h.append.1
    have hle : restDistance j (p.choiceTab e) ≤ 7 := restDistance_le (hrep.choiceTab e)
    exact inRange_of_restDistance (by omega)
  · rintro pre mid post rfl hin
    rw [MyPredictor.run, List.foldl_append]
    exact (hrep.run pre).inRange_run h.append.1.append.2 hin
  · rintro pre t post rfl ht hin
    exact (hrep.run pre).direction_of_inRange ht (h pre t post rfl ht) hin

/-- Two branches teach the local predictor, which is then alone right at branches not seen before;
    seven of them through one entry of `choice_tab`. -/
theorem meta_predictor_converges_local :
    let p := (MyPredictor.new ⟨⟨false, 0⟩, fun _ => 0, 0, 0, 0, fun _ => false, false, 0⟩
      ⟨0, 0, 0⟩).run [⟨true, 64, ⟨4, 0, 1⟩⟩, ⟨true, 64, ⟨8, 0, 1⟩⟩]
    let ts := ([3, 7, 15, 31, 63, 127, 255] : List (BitVec 32)).map fun h =>
      ⟨true, 64, ⟨(h ^^^ (h <<< 3)) <<< 2, 0, 1⟩⟩
    InRange 4 ((p.run ts).choiceTab 0) := by
  intro p ts
  have hp : Reachable false p := (Reachable.new _ _).run _
  have hfav : Favours 0 4 p ts := by decide
  have hn : 7 ≤ passes 0 p ts := by decide
  exact (meta_predictor_converges hp 0 4 hfav).1 ts [] (List.append_nil ts).symm hn

end Predict
