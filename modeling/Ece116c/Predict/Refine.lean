import Ece116c.Lib.Bits
import Ece116c.Lib.TwoLevel
import Ece116c.Predict.Choice

/-! Each component of the predictor is a two-level predictor of its own, whatever the meta-predictor
    makes of them: the global ones keep one register for all branches, the local one a register for
    every slot of its history table. -/

namespace Predict
open TwoLevel

/-! ### Words -/

theorem mask_toNat {n : ℕ} (hn : n < 32) (x : BitVec 32) :
    (x &&& mask n).toNat = x.toNat % 2 ^ n := Bits.toNat_mask x hn

theorem mask_lt {n : ℕ} (hn : n < 32) (x : BitVec 32) : (x &&& mask n).toNat < 2 ^ n := by
  rw [mask_toNat hn]
  exact Nat.mod_lt _ (Nat.two_pow_pos n)

theorem shiftHistory_toNat {n : ℕ} (hn : n < 32) (h : BitVec 32) (taken : Bool) :
    (shiftHistory n h taken).toNat = shiftIn n h.toNat taken := by
  rw [shiftHistory, mask_toNat hn, Bits.toNat_shift_or_bit, shiftIn,
    Nat.mod_mod_of_dvd _ (Nat.pow_dvd_pow 2 (Nat.le_of_lt hn))]

theorem train_toNat (taken : Bool) {t : BitVec 8} (h : t.toNat ≤ 7) :
    (train taken t).toNat = push 7 taken t.toNat := by
  rw [train, push]
  cases taken with
  | true =>
    rw [if_pos rfl, if_pos rfl]
    by_cases hlt : t < 7
    · have := BitVec.lt_def.mp hlt
      change t.toNat < 7 at this
      rw [if_pos hlt, BitVec.toNat_add]
      change (t.toNat + 1) % 2 ^ 8 = _
      omega
    · have := mt BitVec.lt_def.mpr hlt
      change ¬ t.toNat < 7 at this
      rw [if_neg hlt]
      omega
  | false =>
    rw [if_neg Bool.false_ne_true, if_neg Bool.false_ne_true]
    by_cases hpos : 0 < t
    · have := BitVec.lt_def.mp hpos
      change 0 < t.toNat at this
      rw [if_pos hpos, BitVec.toNat_sub]
      change (2 ^ 8 - 1 + t.toNat) % 2 ^ 8 = _
      omega
    · have := mt BitVec.lt_def.mpr hpos
      change ¬ 0 < t.toNat at this
      rw [if_neg hpos]
      omega

theorem predictsTaken_eq (t : BitVec 8) : predictsTaken t = decide (4 ≤ t.toNat) :=
  decide_eq_decide.mpr BitVec.le_def

/-! ### The components as two-level predictors -/

/-- Global predictor `i`: one register for all branches. -/
def globalScheme (i : Fin 4) : Scheme (BitVec 32) Unit (BitVec 32) where
  length := historyLength i
  top := 7
  threshold := 4
  init := 2
  key _ := ()
  index a h := globalIndex i (BitVec.ofNat 32 h) (a >>> 2)
  threshold_pos := by decide
  threshold_le := by decide
  init_le := by decide

/-- The local predictor: a register for every slot of the history table. -/
def localScheme : Scheme (BitVec 32) (BitVec 32) (BitVec 32) where
  length := localHistLength
  top := 7
  threshold := 4
  init := 2
  key a := localHistoryIndex (a >>> 2)
  index _ h := localIndex (BitVec.ofNat 32 h)
  threshold_pos := by decide
  threshold_le := by decide
  init_le := by decide

/-- The tables and histories of `p` are those of five two-level predictors after the conditional
    branches `l`. -/
structure Rep (l : List (BitVec 32 × Bool)) (p : MyPredictor) : Prop where
  history : ∀ i, (p.history i).toNat = ((globalScheme i).run l).hist ()
  tab : ∀ i e, (p.tab i e).toNat = ((globalScheme i).run l).count e
  localHistTab : ∀ e, (p.localHistTab e).toNat = (localScheme.run l).hist e
  localPredTab : ∀ e, (p.localPredTab e).toNat = (localScheme.run l).count e
  choiceTab : ∀ e, p.choiceTab e ≤ 7

/-- `u` holds what `predict` has looked up for the branch that is due. -/
def Primed (p : MyPredictor) : Prop := p.bi.conditional = true → p.u = p.lookup p.bi

theorem historyLength_lt : ∀ i, historyLength i < 32
  | 0 | 1 | 2 | 3 => by decide

theorem tableBits_lt : ∀ i, tableBits i < 32
  | 0 | 1 | 2 | 3 => by decide

section Steps

variable {l : List (BitVec 32 × Bool)} {p : MyPredictor}

theorem Rep.new (u : MyUpdate) (bi : BranchInfo) : Rep [] (MyPredictor.new u bi) where
  history | 0 | 1 | 2 | 3 => rfl
  tab | 0, _ | 1, _ | 2, _ | 3, _ => rfl
  localHistTab _ := rfl
  localPredTab _ := rfl
  choiceTab _ := (by decide : (2 : BitVec 8) ≤ 7)

/-! ### Prediction -/

theorem Rep.lookup_index (h : Rep l p) (b : BranchInfo) (i : Fin 4) :
    (p.lookup b).index i = ((globalScheme i).run l).slot b.address := by
  change globalIndex i (p.history i) (b.address >>> 2) =
    globalIndex i (BitVec.ofNat 32 (((globalScheme i).run l).hist ())) (b.address >>> 2)
  rw [← h.history i, BitVec.ofNat_toNat, BitVec.setWidth_eq]

theorem Rep.lookup_pred (h : Rep l p) (b : BranchInfo) (i : Fin 4) :
    (p.lookup b).pred i = ((globalScheme i).run l).predict b.address := by
  change predictsTaken (p.tab i ((p.lookup b).index i)) = _
  rw [predictsTaken_eq, h.tab, h.lookup_index]
  rfl

theorem lookup_localHistoryIndex (p : MyPredictor) (b : BranchInfo) :
    (p.lookup b).localHistoryIndex = localScheme.key b.address := rfl

theorem Rep.lookup_localIndex (h : Rep l p) (b : BranchInfo) :
    (p.lookup b).localIndex = (localScheme.run l).slot b.address := by
  change localIndex ((p.localHistTab (localHistoryIndex (b.address >>> 2))).setWidth 32) =
    localIndex (BitVec.ofNat 32 ((localScheme.run l).hist (localHistoryIndex (b.address >>> 2))))
  rw [← h.localHistTab, BitVec.ofNat_toNat]

theorem Rep.lookup_localPred (h : Rep l p) (b : BranchInfo) :
    (p.lookup b).localPred = (localScheme.run l).predict b.address := by
  change predictsTaken (p.localPredTab (p.lookup b).localIndex) = _
  rw [predictsTaken_eq, h.localPredTab, h.lookup_localIndex]
  rfl

/-- The direction is the prediction of one of the components. -/
theorem Rep.lookup_direction (h : Rep l p) (b : BranchInfo) :
    (∃ i, (p.lookup b).directionPrediction = ((globalScheme i).run l).predict b.address) ∨
      (p.lookup b).directionPrediction = (localScheme.run l).predict b.address := by
  have hdir : (p.lookup b).directionPrediction = componentPred (p.lookup b).pred
    (p.lookup b).localPred (p.lookup b).predictorUsed := rfl
  rw [hdir]
  match (p.lookup b).predictorUsed with
  | 0 => exact Or.inl ⟨0, h.lookup_pred b 0⟩
  | 1 => exact Or.inl ⟨1, h.lookup_pred b 1⟩
  | 2 => exact Or.inl ⟨2, h.lookup_pred b 2⟩
  | 3 => exact Or.inl ⟨3, h.lookup_pred b 3⟩
  | 4 => exact Or.inr (h.lookup_localPred b)

theorem predict_bi (p : MyPredictor) (b : BranchInfo) : (p.predict b).bi = b := by
  rw [MyPredictor.predict]
  split <;> rfl

theorem predict_u (p : MyPredictor) {b : BranchInfo} (hb : b.conditional = true) :
    (p.predict b).u = p.lookup b := by
  rw [MyPredictor.predict, if_pos hb]

/-- A prediction changes `u` and `bi` only. -/
theorem predict_frame (p : MyPredictor) (b : BranchInfo) :
    ∃ u, p.predict b = { p with bi := b, u := u } := by
  rw [MyPredictor.predict]
  split
  · exact ⟨_, rfl⟩
  · exact ⟨_, rfl⟩

theorem Rep.predict (h : Rep l p) (b : BranchInfo) : Rep l (p.predict b) := by
  obtain ⟨u, hu⟩ := predict_frame p b
  rw [hu]
  exact ⟨h.history, h.tab, h.localHistTab, h.localPredTab, h.choiceTab⟩

theorem primed_predict (p : MyPredictor) (b : BranchInfo) : Primed (p.predict b) := by
  intro hb
  rw [predict_bi] at hb
  obtain ⟨u, hu⟩ := predict_frame p b
  rw [predict_u p hb, hu]
  rfl

/-! ### Update -/

variable {taken : Bool} {target : BitVec 32}

theorem update_of_unconditional (mu : MyUpdate) (hc : ¬ p.bi.conditional = true) :
    p.update mu taken target = p := by
  rw [MyPredictor.update, if_neg hc]

section Conditional

variable (mu : MyUpdate) (hc : p.bi.conditional = true)

include hc

theorem update_history (i : Fin 4) : (p.update mu taken target).history i =
    shiftHistory (historyLength i) (p.history i) taken := by
  rw [MyPredictor.update, if_pos hc]
  match i with
  | 0 | 1 | 2 | 3 => rfl

theorem update_tab (i : Fin 4) : (p.update mu taken target).tab i =
    setEntry (p.tab i) (mu.index i) (train taken) := by
  rw [MyPredictor.update, if_pos hc]
  match i with
  | 0 | 1 | 2 | 3 => rfl

theorem update_localPredTab : (p.update mu taken target).localPredTab =
    setEntry p.localPredTab mu.localIndex (train taken) := by
  rw [MyPredictor.update, if_pos hc]

theorem update_localHistTab : (p.update mu taken target).localHistTab =
    setEntry p.localHistTab mu.localHistoryIndex fun lh =>
      (shiftHistory localHistLength (lh.setWidth 32) taken).setWidth 16 := by
  rw [MyPredictor.update, if_pos hc]

theorem update_choiceTab : (p.update mu taken target).choiceTab =
    setEntry p.choiceTab mu.choiceIndex (trainChoice
      (fun j => componentPred mu.pred mu.localPred j == taken) mu.predictorUsed) := by
  rw [MyPredictor.update, if_pos hc]

end Conditional

/-- Training an entry of a table trains the counter it stands for. -/
theorem setEntry_train {κ : Type*} [DecidableEq κ] {P : Scheme (BitVec 32) κ (BitVec 32)}
    {s : P.State} {t : BitVec 32 → BitVec 8} (htop : P.top = 7)
    (ht : ∀ e, (t e).toNat = s.count e) (a e : BitVec 32) :
    (setEntry t (s.slot a) (train taken) e).toNat = (s.update a taken).count e := by
  have hle : (t e).toNat ≤ 7 := by
    rw [ht, ← htop]
    exact s.count_le e
  rw [setEntry, Scheme.State.update_count]
  by_cases he : e = s.slot a
  · rw [if_pos he, if_pos he, train_toNat taken hle, ht, he, htop]
  · rw [if_neg he, if_neg he, ht]

/-- `update` after `predict` is the update of the five two-level predictors. -/
theorem Rep.update (h : Rep l p) (hu : Primed p) (hc : p.bi.conditional = true) :
    Rep (l ++ [(p.bi.address, taken)]) (p.update p.u taken target) := by
  have hlook := hu hc
  constructor
  · intro i
    rw [update_history _ hc, shiftHistory_toNat (historyLength_lt i), h.history,
      Scheme.run_concat, Scheme.State.update_hist, if_pos rfl]
    rfl
  · intro i e
    rw [update_tab _ hc, hlook, h.lookup_index, Scheme.run_concat]
    exact setEntry_train rfl (h.tab i) _ e
  · intro e
    rw [update_localHistTab _ hc, hlook, lookup_localHistoryIndex, Scheme.run_concat,
      Scheme.State.update_hist, setEntry]
    by_cases he : e = localScheme.key p.bi.address
    · have hlt := shiftIn_lt localHistLength ((localScheme.run l).hist e) taken
      have h16 : (2 : ℕ) ^ localHistLength ≤ 2 ^ 16 := by decide
      have hwide : (p.localHistTab e).toNat < 2 ^ 32 :=
        lt_of_lt_of_le (p.localHistTab e).isLt (by decide)
      rw [if_pos he, if_pos he, BitVec.toNat_setWidth, shiftHistory_toNat (by decide),
        BitVec.toNat_setWidth, Nat.mod_eq_of_lt hwide, h.localHistTab,
        Nat.mod_eq_of_lt (lt_of_lt_of_le hlt h16), he]
      rfl
    · rw [if_neg he, if_neg he, h.localHistTab]
  · intro e
    rw [update_localPredTab _ hc, hlook, h.lookup_localIndex, Scheme.run_concat]
    exact setEntry_train rfl h.localPredTab _ e
  · intro e
    rw [update_choiceTab _ hc]
    change (if e = _ then _ else _) ≤ 7
    split
    · exact trainChoice_le _ _ (h.choiceTab e)
    · exact h.choiceTab e

end Steps

end Predict
