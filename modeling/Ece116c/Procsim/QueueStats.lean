import Ece116c.Procsim.Conservation
import Ece116c.Window.Waiting

/-! The dispatch-queue statistics are those of the per-instruction timing table. -/

namespace Procsim
open Window

variable {cfg : Config} {tr : List TraceInst}

/-- The sizes of the dispatch queue sampled at the end of all cycles add up to the cycles every
    instruction spent between dispatch and schedule, and the largest is the largest number of
    instructions between the two in any cycle. -/
theorem dispatch_statistics (hv : ValidTrace tr) (hd : drained (runProc cfg tr) = true) :
    (runProc cfg tr).totalDispatchSize =
        ((runProc cfg tr).completedInstructions.map fun i => i.schedCycle - i.dispCycle).sum ∧
      (∀ i ∈ (runProc cfg tr).completedInstructions, i.dispCycle ≤ i.schedCycle) ∧
      IsGreatest (Set.range fun c => (runProc cfg tr).completedInstructions.countP
          fun i => decide (i.dispCycle ≤ c ∧ c < i.schedCycle))
        (runProc cfg tr).maxDispatchSize ∧
      ((runProc cfg tr).completedInstructions.map fun p => (p.toTraceInst, p.instNum)).Perm
        (tr.zipIdx 1) := by
  obtain ⟨d, heq, hempty⟩ := runProc_drained hv hd
  rw [heq]
  have hinv := timeline_inv cfg tr d
  have hrep := stateAt_rep cfg hv d
  have hsched : ∀ i ∈ (workload tr).ages, (timeline cfg tr d).sched i ≠ 0 :=
    fun i hi => (hinv.state_sched ((hinv.empty_done hempty).2 i hi).1).1
  refine ⟨?_, ?_, ?_, completed_of_empty hv hempty⟩
  · rw [hrep.totalDispatchSize, timeline, Timeline.waitSum_eq hsched, hrep.completedInstructions,
      List.map_map]
    exact ((hinv.empty_announced hempty).map _).sum_nat.symm
  · intro p hp
    obtain ⟨i, hi, rfl⟩ := (mem_completed_of_empty cfg hv hempty p).mp hp
    exact Nat.le_of_lt (Timeline.disp_lt_sched (m := machine cfg) (hsched i hi)).2
  · have hcount : (fun c => (stateAt cfg tr d).completedInstructions.countP
        fun i => decide (i.dispCycle ≤ c ∧ c < i.schedCycle)) =
          (timeline cfg tr d).waitingIn (workload tr) :=
      funext fun c => countP_completed_of_empty hv hempty _
    rw [hcount, hrep.maxDispatchSize]
    exact Timeline.waitMax_isGreatest (m := machine cfg) hsched

set_option maxRecDepth 4000 in
/-- Three instructions are dispatched together and scheduled in the next cycle. -/
theorem dispatch_statistics_three :
    IsGreatest (Set.range fun c => (runProc ⟨1, 1, 1, 1, 3⟩ [⟨4, 0, 5, -1, -1⟩,
        ⟨8, 1, 6, -1, -1⟩, ⟨12, 2, 7, -1, -1⟩]).completedInstructions.countP
          fun i => decide (i.dispCycle ≤ c ∧ c < i.schedCycle)) 3 := by
  have heq := drainsAt_three.runProc_eq (by decide)
  have hmax : (runProc ⟨1, 1, 1, 1, 3⟩
      [⟨4, 0, 5, -1, -1⟩, ⟨8, 1, 6, -1, -1⟩, ⟨12, 2, 7, -1, -1⟩]).maxDispatchSize = 3 := by
    rw [heq]
    decide
  have hv : ValidTrace [⟨4, 0, 5, -1, -1⟩, ⟨8, 1, 6, -1, -1⟩, ⟨12, 2, 7, -1, -1⟩] := by decide
  have h := (dispatch_statistics hv (by rw [heq]; exact drainsAt_three.done)).2.2.1
  rwa [hmax] at h

end Procsim
