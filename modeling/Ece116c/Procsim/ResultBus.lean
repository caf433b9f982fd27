import Ece116c.Procsim.Liveness
import Ece116c.Window.History

/-! The result buses serve finished instructions in the order of `(exec_cycle, tag)`, `r` a cycle
    while anybody waits, and what has a bus is broadcast in the next cycle. -/

namespace Procsim
open Window

variable {cfg : Config} {tr : List TraceInst}

/-- The lexicographic order of `(exec_cycle, tag)`. -/
def ProcInst.ExecBefore (i j : ProcInst) : Prop :=
  i.execCycle < j.execCycle ∨ (i.execCycle = j.execCycle ∧ i.instNum < j.instNum)

instance (i j : ProcInst) : Decidable (i.ExecBefore j) := inferInstanceAs (Decidable (_ ∨ _))

/-- `completed_instructions` is in `(exec_cycle, tag)` order in every state. -/
theorem completed_sorted (hv : ValidTrace tr) (c : ℕ) :
    (stateAt cfg tr c).completedInstructions.Pairwise ProcInst.ExecBefore := by
  rw [(stateAt_rep cfg hv c).completedInstructions, List.pairwise_map]
  exact (List.pairwise_append.mp (timeline_inv cfg tr c).order).1

/-- Seen from cycle `c`, an instruction is completed and its dependents are woken when its state
    cycle is past. -/
theorem broadcast_after_state (hv : ValidTrace tr) {d n : ℕ}
    (hs : (timeline cfg tr d).state n ≠ 0) (c : ℕ) :
    ((∃ p ∈ (stateAt cfg tr c).completedInstructions, p.instNum = n) ↔
      (timeline cfg tr d).state n + 1 ≤ c) ∧
    ∀ e ∈ (stateAt cfg tr c).scheduleQueue, ∀ s, producer tr s e.tag = n →
      (e.srcReady s = true ↔ (timeline cfg tr d).state n + 1 ≤ c) := by
  have h := stateAt_rep cfg hv c
  have hann : n ∈ (timeline cfg tr c).announced ↔ (timeline cfg tr d).state n < c :=
    Timeline.announced_iff hs
  have hexec := (timeline_inv cfg tr d).state_exec n hs
  have hage := (timeline_inv cfg tr d).exec_sched n hexec.1
  constructor
  · rw [h.completedInstructions]
    refine Iff.trans ?_ hann
    constructor
    · rintro ⟨p, hp, rfl⟩
      obtain ⟨i, hi, rfl⟩ := List.mem_map.mp hp
      exact hi
    · intro hn
      exact ⟨_, List.mem_map_of_mem hn, rfl⟩
  · intro e he s hprod
    rw [h.scheduleQueue] at he
    obtain ⟨i, -, rfl⟩ := List.mem_map.mp he
    have hprod : producer tr s i = n := hprod
    rw [entry_srcReady, srcDone, hprod, decide_eq_true_eq]
    refine Iff.trans ?_ hann
    exact or_iff_right (by omega)

/-- The result-bus law. -/
theorem result_bus_law (hv : ValidTrace tr) (hd : drained (runProc cfg tr) = true) :
    (∀ i ∈ (runProc cfg tr).completedInstructions,
      ∀ j ∈ (runProc cfg tr).completedInstructions, i.ExecBefore j → i.stateCycle ≤ j.stateCycle) ∧
    (∀ c, (runProc cfg tr).completedInstructions.countP (fun i => decide (i.stateCycle = c)) ≤
      cfg.r) ∧
    (∀ i ∈ (runProc cfg tr).completedInstructions, ∀ c, i.execCycle + 1 ≤ c → c < i.stateCycle →
      (runProc cfg tr).completedInstructions.countP (fun j => decide (j.stateCycle = c)) = cfg.r) ∧
    (∀ i ∈ (runProc cfg tr).completedInstructions, ∀ c,
      ((∃ p ∈ (stateAt cfg tr c).completedInstructions, p.instNum = i.instNum) ↔
        i.stateCycle + 1 ≤ c) ∧
      ∀ e ∈ (stateAt cfg tr c).scheduleQueue, ∀ s, producer tr s e.tag = i.instNum →
        (e.srcReady s = true ↔ i.stateCycle + 1 ≤ c)) ∧
    (runProc cfg tr).completedInstructions.Pairwise ProcInst.ExecBefore := by
  obtain ⟨d, heq, hempty⟩ := runProc_drained hv hd
  rw [heq]
  have hinv := timeline_inv cfg tr d
  have hmem := mem_completed_of_empty cfg hv hempty
  have hdone := (hinv.empty_done hempty).2
  have hexec := fun n hn => hinv.state_exec n (hdone n hn).1
  -- the counts are those of the abstract machine
  have hcount : ∀ c, (stateAt cfg tr d).completedInstructions.countP
      (fun i => decide (i.stateCycle = c)) = (timeline cfg tr d).grantedIn (workload tr) c :=
    fun c => countP_completed_of_empty hv hempty _
  refine ⟨?_, fun c => ?_, ?_, ?_, completed_sorted hv d⟩
  · intro i hi j hj hij
    obtain ⟨n, hn, rfl⟩ := (hmem i).mp hi
    obtain ⟨k, hk, rfl⟩ := (hmem j).mp hj
    exact (Timeline.state_mono (hexec n hn).1 hij (hdone k hk).1).2
  · rw [hcount]
    by_cases hc : c = 0
    · have hz : (timeline cfg tr d).grantedIn (workload tr) c = 0 :=
        List.countP_eq_zero.mpr fun n hn h0 =>
          (hdone n hn).1 ((of_decide_eq_true h0).trans hc)
      rw [hz]
      exact Nat.zero_le _
    · exact Timeline.grantedIn_le hc
  · intro i hi c hc hlt
    obtain ⟨n, hn, rfl⟩ := (hmem i).mp hi
    have hle := hinv.state_le n
    change c < (timeline cfg tr d).state n at hlt
    rw [hcount]
    exact Timeline.grantedIn_full (by omega) (hexec n hn).1 hc (Or.inr hlt)
  · intro i hi c
    obtain ⟨n, hn, rfl⟩ := (hmem i).mp hi
    exact broadcast_after_state hv (hdone n hn).1 c

set_option maxRecDepth 4000 in
/-- Three results on one bus: the third waits a cycle, in which the bus is taken. -/
theorem result_bus_law_three :
    (runProc ⟨1, 1, 1, 1, 3⟩ [⟨4, 0, 5, -1, -1⟩, ⟨8, 1, 6, -1, -1⟩, ⟨12, 2, 7, -1, -1⟩]
      ).completedInstructions.countP (fun j => decide (j.stateCycle = 6)) = 1 := by
  have heq := drainsAt_three.runProc_eq (by decide)
  exact (result_bus_law (by decide) (by rw [heq]; exact drainsAt_three.done)).2.2.1
    ⟨⟨12, 2, 7, -1, -1⟩, 3, 1, 2, 3, 4, 7⟩ (by rw [heq]; decide) 6 (by decide) (by decide)

end Procsim
