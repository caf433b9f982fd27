import Ece116c.Predict.Refine

/-! The law of the predictor's state along the simulation: what its histories and tables hold after
    any branches, and that no index leaves its table. -/

namespace Predict
open TwoLevel

/-- The conditional branches with their outcomes, the oldest first. -/
def conditionals (ts : List Trace) : List (BitVec 32 × Bool) :=
  (ts.filter (·.bi.conditional)).map fun t => (t.bi.address, t.taken)

/-- Outcomes, the newest first. -/
def newest (l : List (BitVec 32 × Bool)) : List Bool := (l.map Prod.snd).reverse

section Run

variable {l : List (BitVec 32 × Bool)} {p : MyPredictor}

theorem Rep.branch (h : Rep l p) (t : Trace) : Rep (l ++ conditionals [t]) (p.branch t) := by
  by_cases hc : t.bi.conditional = true
  · have hb : (p.predict t.bi).bi.conditional = true := by rw [predict_bi, hc]
    have hstep : Rep _ ((p.predict t.bi).update (p.predict t.bi).u t.taken t.target) :=
      (h.predict t.bi).update (primed_predict p t.bi) hb
    rw [predict_bi] at hstep
    rw [conditionals, List.filter_cons, if_pos hc]
    exact hstep
  · rw [conditionals, List.filter_cons, if_neg hc, List.filter_nil, List.map_nil, List.append_nil]
    have hb : ¬ (p.predict t.bi).bi.conditional = true := by rwa [predict_bi]
    rw [MyPredictor.branch, update_of_unconditional _ hb]
    exact h.predict t.bi

theorem Rep.run (h : Rep l p) (ts : List Trace) : Rep (l ++ conditionals ts) (p.run ts) := by
  induction ts generalizing l p with
  | nil => rwa [conditionals, List.filter_nil, List.map_nil, List.append_nil]
  | cons t ts ih =>
    have hsplit : conditionals (t :: ts) = conditionals [t] ++ conditionals ts := by
      rw [conditionals, ← List.singleton_append, List.filter_append, List.map_append]
      rfl
    rw [hsplit, ← List.append_assoc]
    exact ih (h.branch t)

/-- The loop of `main` drives the predictor through `predict` and `update`. -/
theorem foldl_step_p (ts : List Trace) (s : Simulation) :
    (ts.foldl Simulation.step s).p = s.p.run ts := by
  induction ts generalizing s with
  | nil => rfl
  | cons t ts ih => exact ih (s.step t)

theorem main_rep (u : MyUpdate) (bi : BranchInfo) (ts : List Trace) :
    Rep (conditionals ts) (main u bi ts).p := by
  rw [main, foldl_step_p]
  exact (Rep.new u bi).run ts

end Run

/-! ### The law -/

/-- What holds of the predictor after the branches `ts`. -/
structure Law (ts : List Trace) (p : MyPredictor) : Prop where
  history : ∀ i, (p.history i).toNat = code ((newest (conditionals ts)).take (historyLength i))
  shorter : ∀ i, (p.history i).toNat = p.historyLong.toNat % 2 ^ historyLength i
  localHist : ∀ e : BitVec 32, e.toNat < 2 ^ localHistBits → (p.localHistTab e).toNat =
    code ((newest ((conditionals ts).filter fun x =>
      decide ((x.1 >>> 2).toNat % 2 ^ localHistBits = e.toNat))).take localHistLength)
  tab : ∀ i, ∀ e : BitVec 32, e.toNat < 2 ^ tableBits i → p.tab i e ≤ 7
  localPred : ∀ e : BitVec 32, e.toNat < 2 ^ localPredBits → p.localPredTab e ≤ 7
  choice : ∀ e : BitVec 32, e.toNat < 2 ^ choiceBits → p.choiceTab e ≤ 7
  untouched : ∀ e : BitVec 32, 4096 ≤ e.toNat → e.toNat < 2 ^ localPredBits →
    p.localPredTab e = 2

/-- What holds between `predict` and `update` of a conditional branch: the indices lie inside
    their tables, and the choice counter still selects the component that was used. -/
structure Consistent (p : MyPredictor) : Prop where
  index : ∀ i, (p.u.index i).toNat < 2 ^ tableBits i
  localHistoryIndex : p.u.localHistoryIndex.toNat < 2 ^ localHistBits
  localIndex : p.u.localIndex.toNat < 2 ^ localPredBits
  choiceIndex : p.u.choiceIndex.toNat < 2 ^ choiceBits
  predictorUsed : selects (p.choiceTab p.u.choiceIndex) = p.u.predictorUsed

section Law

variable {ts : List Trace} {p : MyPredictor}

theorem globalScheme_seen (i : Fin 4) (l : List (BitVec 32 × Bool)) :
    (globalScheme i).seen () l = newest l := by
  have hall : l.filter (fun x => decide ((globalScheme i).key x.1 = ())) = l :=
    List.filter_eq_self.mpr fun _ _ => decide_eq_true rfl
  rw [Scheme.seen, hall, newest]

/-- A history holds the latest outcomes. -/
theorem Rep.history_code {l : List (BitVec 32 × Bool)} (h : Rep l p) (i : Fin 4) :
    (p.history i).toNat = code ((newest l).take (historyLength i)) := by
  rw [h.history, Scheme.run_hist, globalScheme_seen]
  rfl

/-- So every history is the lower part of the long one. -/
theorem Rep.history_shorter {l : List (BitVec 32 × Bool)} (h : Rep l p) (i : Fin 4) :
    (p.history i).toNat = p.historyLong.toNat % 2 ^ historyLength i := by
  have hlong : p.historyLong.toNat = code ((newest l).take 18) := h.history_code 0
  have hle : historyLength i ≤ 18 := by
    match i with
    | 0 | 1 | 2 | 3 => decide
  rw [h.history_code, hlong, code_take, code_take, Nat.mod_mod_of_dvd _ (Nat.pow_dvd_pow 2 hle)]

theorem localScheme_seen {e : BitVec 32} (l : List (BitVec 32 × Bool)) :
    localScheme.seen e l = newest (l.filter fun x =>
      decide ((x.1 >>> 2).toNat % 2 ^ localHistBits = e.toNat)) := by
  rw [Scheme.seen, newest]
  congr 3
  funext x
  refine decide_eq_decide.mpr ?_
  rw [← mask_toNat (by decide : localHistBits < 32)]
  exact BitVec.toNat_inj.symm

/-- Local histories are too short for the upper entries of the prediction table. -/
theorem localScheme_unused {e : BitVec 32} (he : 4096 ≤ e.toNat) (a : BitVec 32) (h : ℕ)
    (hh : h < 2 ^ localScheme.length) : localScheme.index a h ≠ e := by
  rintro rfl
  have hlow := mask_toNat (by decide : localPredBits < 32) (BitVec.ofNat 32 h)
  change 4096 ≤ (BitVec.ofNat 32 h &&& mask localPredBits).toNat at he
  have h12 : h < 4096 := hh
  rw [hlow, BitVec.toNat_ofNat, Nat.mod_eq_of_lt (by omega : h < 2 ^ 32)] at he
  have hle := Nat.mod_le h (2 ^ localPredBits)
  omega

theorem Rep.law (h : Rep (conditionals ts) p) : Law ts p := by
  refine ⟨h.history_code, h.history_shorter, fun e _ => ?_, fun i e _ => ?_, fun e _ => ?_,
    fun e _ => h.choiceTab e, fun e he _ => ?_⟩
  · rw [h.localHistTab, Scheme.run_hist, localScheme_seen]
    rfl
  · rw [BitVec.le_def, h.tab]
    exact ((globalScheme i).run _).count_le e
  · rw [BitVec.le_def, h.localPredTab]
    exact (localScheme.run _).count_le e
  · apply BitVec.eq_of_toNat_eq
    rw [h.localPredTab, Scheme.run_count_of_unused (localScheme_unused he)]
    rfl

theorem Primed.consistent (h : Primed p) (hc : p.bi.conditional = true) : Consistent p := by
  have hu := h hc
  constructor
  · intro i
    rw [hu]
    exact mask_lt (tableBits_lt i) _
  · rw [hu]
    exact mask_lt (by decide) _
  · rw [hu]
    exact mask_lt (by decide) _
  · rw [hu]
    exact mask_lt (by decide) _
  · rw [hu]
    rfl

end Law

/-- The state law of the simulation: it holds after any branches, and between `predict` and
    `update` of any conditional branch after them. -/
theorem state_law (u : MyUpdate) (bi : BranchInfo) (ts : List Trace) :
    Law ts (main u bi ts).p ∧ ∀ t : Trace, t.bi.conditional = true →
      Consistent ((main u bi ts).p.predict t.bi) := by
  refine ⟨(main_rep u bi ts).law, fun t ht => ?_⟩
  refine (primed_predict _ t.bi).consistent ?_
  rw [predict_bi, ht]

end Predict
