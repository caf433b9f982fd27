import Ece116c.Procsim.Conservation
import Ece116c.Procsim.Dependence
import Ece116c.Window.Finish

/-! The run time that is reported: when the last instruction got its bus, and never less than the
    front end, the buses, the units and the dependences of the trace allow. -/

namespace Procsim
open Window

variable {cfg : Config} {tr : List TraceInst}

/-! ### The subtraction at the end of `run_proc` -/

theorem statCycleCount_stateAt {c : ℕ} (h2 : 2 ≤ c) (hc : c ≤ cycleLimit + 1) :
    statCycleCount (stateAt cfg tr c) = c - 2 := by
  have hlim : cycleLimit = 200000 := rfl
  rw [statCycleCount, stateAt_cycleCount]
  omega

section Drained

variable {c : ℕ}

/-- Some instruction of a nonempty trace got its bus two cycles before the exit. -/
theorem DrainsAt.last_granted (h : DrainsAt cfg tr c) (hf : 1 ≤ cfg.f) (hv : ValidTrace tr)
    (hne : tr ≠ []) : ∃ i ∈ (workload tr).ages, (timeline cfg tr c).state i + 2 = c := by
  refine Timeline.last_granted (m := machine cfg) hf (mt List.eq_nil_of_length_eq_zero hne)
    ((drained_iff hv c).mp h.done) fun c' h1 hlt hempty => ?_
  have hno := h.first c' h1 hlt
  rw [(drained_iff hv c').mpr hempty] at hno
  cases hno

/-- And none got it later. -/
theorem DrainsAt.state_le (h : DrainsAt cfg tr c) (hv : ValidTrace tr) :
    ∀ i ∈ (workload tr).ages, (timeline cfg tr c).state i ≠ 0 ∧
      (timeline cfg tr c).state i ≤ c - 2 := by
  intro i hi
  have hle := Timeline.state_le_of_empty ((drained_iff hv c).mp h.done) hi
  exact ⟨hle.1, Nat.le_sub_of_add_le hle.2⟩

/-- The five stages of an instruction and the two cycles behind it. -/
theorem DrainsAt.seven_le (h : DrainsAt cfg tr c) (hf : 1 ≤ cfg.f) (hv : ValidTrace tr)
    (hne : tr ≠ []) : 7 ≤ c := by
  obtain ⟨i, hi, hlast⟩ := h.last_granted hf hv hne
  have hs := (h.state_le hv i hi).1
  have := Timeline.fetch_add_le (m := machine cfg) hs
  rw [timeline] at hlast
  omega

/-- An empty trace drains in the first cycle. -/
theorem drainsAt_one (hf : 1 ≤ cfg.f) : DrainsAt cfg [] 1 where
  pos := le_refl 1
  done := (drained_iff (fun _ h => absurd h List.not_mem_nil) 1).mpr
    (Timeline.empty_of_announced (m := machine cfg) (c := 0) hf rfl)
  first c' h1 hlt := by omega

end Drained

/-- The reported cycle count is the largest state cycle of the completed instructions, which are
    those of the trace. -/
theorem cycle_count_eq_last_state (hf : 1 ≤ cfg.f) (hv : ValidTrace tr) (hne : tr ≠ [])
    (hd : drained (runProc cfg tr) = true) :
    ((runProc cfg tr).completedInstructions.map fun p => (p.toTraceInst, p.instNum)).Perm
        (tr.zipIdx 1) ∧
      IsGreatest {c | ∃ p ∈ (runProc cfg tr).completedInstructions, p.stateCycle = c}
        (statCycleCount (runProc cfg tr)) := by
  obtain ⟨c, hc, hdrain, heq⟩ := runProc_drainsAt hd
  have hempty := (drained_iff hv c).mp hdrain.done
  have hmem := mem_completed_of_empty cfg hv hempty
  have h7 := hdrain.seven_le hf hv hne
  rw [heq, statCycleCount_stateAt (by omega) hc]
  refine ⟨completed_of_empty hv hempty, ?_, ?_⟩
  · obtain ⟨i, hi, hlast⟩ := hdrain.last_granted hf hv hne
    refine ⟨_, (hmem _).mpr ⟨i, hi, rfl⟩, ?_⟩
    change (timeline cfg tr c).state i = c - 2
    omega
  · rintro _ ⟨p, hp, rfl⟩
    obtain ⟨i, hi, rfl⟩ := (hmem p).mp hp
    exact (hdrain.state_le hv i hi).2

set_option maxRecDepth 4000 in
/-- The third of three results on one bus leaves in cycle 7. -/
theorem cycle_count_eq_last_state_three :
    IsGreatest {c | ∃ p ∈ (runProc ⟨1, 1, 1, 1, 3⟩ [⟨4, 0, 5, -1, -1⟩, ⟨8, 1, 6, -1, -1⟩,
        ⟨12, 2, 7, -1, -1⟩]).completedInstructions, p.stateCycle = c} 7 := by
  have heq := drainsAt_three.runProc_eq (by decide)
  have hstat : statCycleCount (runProc ⟨1, 1, 1, 1, 3⟩
      [⟨4, 0, 5, -1, -1⟩, ⟨8, 1, 6, -1, -1⟩, ⟨12, 2, 7, -1, -1⟩]) = 7 := by
    rw [heq, statCycleCount_stateAt (by decide) (by decide)]
  rw [← hstat]
  exact (cycle_count_eq_last_state (by decide) (by decide) (List.cons_ne_nil _ _)
    (by rw [heq]; exact drainsAt_three.done)).2

/-- The statistics are safe exactly for nonempty traces: the cycle count that is reported has not
    wrapped around, and nothing is divided by zero. -/
theorem stat_safe_iff (hp : cfg.Pos) (hv : ValidTrace tr) :
    (2 ≤ (runProc cfg tr).cycleCount ∧ statCycleCount (runProc cfg tr) ≠ 0) ↔ tr ≠ [] := by
  constructor
  · rintro ⟨h2, -⟩ rfl
    rw [(drainsAt_one hp.f).runProc_eq (by decide), stateAt_cycleCount] at h2
    omega
  · intro hne
    obtain ⟨c, h1, hc, heq, hfirst, hstop⟩ := runProc_eq cfg tr
    have hlim : cycleLimit = 200000 := rfl
    have h7 : 7 ≤ c := by
      rcases hstop with hdone | hguard
      · exact DrainsAt.seven_le ⟨h1, hdone, hfirst⟩ hp.f hv hne
      · omega
    rw [heq, statCycleCount_stateAt (by omega) hc, stateAt_cycleCount]
    omega

/-- One instruction is enough. -/
theorem stat_safe_iff_one :
    2 ≤ (runProc ⟨1, 1, 1, 1, 1⟩ [⟨4, 0, 5, -1, -1⟩]).cycleCount ∧
      statCycleCount (runProc ⟨1, 1, 1, 1, 1⟩ [⟨4, 0, 5, -1, -1⟩]) ≠ 0 :=
  (stat_safe_iff ⟨by decide, by decide, by decide, by decide, by decide⟩ (by decide)).mpr
    (List.cons_ne_nil _ _)

/-- Without instructions the loop ends in its first cycle, and `1 - 2` is reported. -/
theorem stat_wraps_empty :
    Config.Pos ⟨1, 1, 1, 1, 1⟩ ∧ ValidTrace [] ∧
      ¬ (2 ≤ (runProc ⟨1, 1, 1, 1, 1⟩ []).cycleCount ∧
        statCycleCount (runProc ⟨1, 1, 1, 1, 1⟩ []) ≠ 0) ∧
      statCycleCount (runProc ⟨1, 1, 1, 1, 1⟩ []) = 2 ^ 64 - 1 := by
  have heq := (@drainsAt_one ⟨1, 1, 1, 1, 1⟩ (by decide)).runProc_eq (by decide)
  refine ⟨⟨by decide, by decide, by decide, by decide, by decide⟩, by decide, ?_, ?_⟩
  · rw [heq, stateAt_cycleCount]
    omega
  · rw [heq, statCycleCount, stateAt_cycleCount]
    rfl

/-! ### Lower bounds -/

/-- Instruction `i` reads a register whose nearest earlier writer is `p`. -/
def TrueDep (tr : List TraceInst) (p i : ℕ) : Prop :=
  ∃ s, (inst tr i).srcReg s ≠ -1 ∧ 1 ≤ p ∧ p < i ∧ (inst tr p).destReg = (inst tr i).srcReg s ∧
    ∀ q, p < q → q < i → (inst tr q).destReg ≠ (inst tr i).srcReg s

/-- A chain of true dependences, producers first. -/
def DepChain (tr : List TraceInst) (l : List ℕ) : Prop :=
  (∀ i ∈ l, 1 ≤ i ∧ i ≤ tr.length) ∧ l.IsChain (TrueDep tr)

theorem TrueDep.mem_deps {p i : ℕ} (h : TrueDep tr p i) : p ∈ (workload tr).deps i := by
  obtain ⟨s, hs, hp, hpi, hd, hlast⟩ := h
  exact (Procsim.mem_deps tr i p).mpr ⟨by omega, s, (producer_eq hs hp hpi hd hlast).symm⟩

/-- The reported cycle count is at least what the fetch width, the buses, the units of each kind
    and every chain of dependences ask for. -/
theorem cycle_count_bounds (hp : cfg.Pos) (hv : ValidTrace tr) (hne : tr ≠ [])
    (hd : drained (runProc cfg tr) = true) :
    4 + tr.length ⌈/⌉ cfg.f ≤ statCycleCount (runProc cfg tr) ∧
      4 + tr.length ⌈/⌉ cfg.r ≤ statCycleCount (runProc cfg tr) ∧
      (∀ t, 4 + tr.countP (fun x => decide (getFuUnits x.opCode = some t)) ⌈/⌉ cfg.k t ≤
        statCycleCount (runProc cfg tr)) ∧
      ∀ l, DepChain tr l → 3 + 2 * l.length ≤ statCycleCount (runProc cfg tr) := by
  obtain ⟨c, hc, hdrain, heq⟩ := runProc_drainsAt hd
  have h7 := hdrain.seven_le hp.f hv hne
  rw [heq, statCycleCount_stateAt (by omega) hc]
  have hn : (workload tr).size ≠ 0 := mt List.eq_nil_of_length_eq_zero hne
  have hs : ∀ i ∈ (workload tr).ages, (timeline cfg tr c).state i ≠ 0 :=
    fun i hi => (hdrain.state_le hv i hi).1
  have hM : ∀ i ∈ (workload tr).ages, (timeline cfg tr c).state i ≤ c - 2 :=
    fun i hi => (hdrain.state_le hv i hi).2
  refine ⟨?_, ?_, fun t => ?_, ?_⟩
  · have hlast : tr.length ∈ (workload tr).ages :=
      Timeline.mem_ages.mpr ⟨Nat.one_le_iff_ne_zero.mpr hn, le_refl _⟩
    exact Timeline.bound_width (m := machine cfg) hp.f hn (hs _ hlast) hM
  · exact Timeline.bound_buses (m := machine cfg) hp.r hn hs hM
  · rw [countP_eq_ages]
    have hbound := Timeline.bound_units (m := machine cfg) (hp.k_pos t) hn hs hM
    exact hbound
  · rintro (_ | ⟨p, l⟩) ⟨hmem, hchain⟩
    · change 3 ≤ c - 2
      omega
    · have hages : ∀ i ∈ p :: l, i ∈ (workload tr).ages :=
        fun i hi => Timeline.mem_ages.mpr (hmem i hi)
      have hbound := Timeline.bound_chain (m := machine cfg) hs l p hages
        (hchain.imp fun _ _ => TrueDep.mem_deps) fun i hi => hM i (hages i hi)
      have hfirst := Timeline.fetch_add_le (m := machine cfg)
        (hs p (hages p (List.mem_cons_self ..)))
      rw [List.length_cons]
      omega

set_option maxRecDepth 4000 in
/-- A chain of three through one register. -/
theorem cycle_count_bounds_chain :
    3 + 2 * 3 ≤ statCycleCount (runProc ⟨1, 1, 1, 1, 2⟩
      [⟨4, 0, 5, -1, -1⟩, ⟨8, 2, 5, 5, -1⟩, ⟨12, 0, 6, 5, 5⟩]) := by
  refine (cycle_count_bounds ⟨by decide, by decide, by decide, by decide, by decide⟩ (by decide)
    (List.cons_ne_nil _ _) (drained_of_length ⟨by decide, by decide, by decide, by decide,
      by decide⟩ (by decide) (by decide))).2.2.2 [1, 2, 3] ⟨by decide, ?_⟩
  refine .cons_cons ⟨0, by decide, by decide, by decide, by decide, ?_⟩
    (.cons_cons ⟨0, by decide, by decide, by decide, by decide, ?_⟩ (.singleton _))
  · intro q h1 h2
    omega
  · intro q h1 h2
    omega

end Procsim
