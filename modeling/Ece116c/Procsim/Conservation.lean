import Ece116c.Procsim.Liveness

/-! No instruction is lost or duplicated on its way through the six containers. -/

namespace Procsim
open Window

variable {cfg : Config} {tr : List TraceInst}

/-- A broadcast entry has been copied to the completed instructions. -/
theorem Rep.broadcast_completed {c : ℕ} {T : Timeline} {s : Proc} (h : Rep tr cfg c T s) :
    ∀ e ∈ s.scheduleQueue, e.instruction.instNum = e.tag ∧
      (e.broadcast = true → e.instruction ∈ s.completedInstructions) := by
  intro e he
  rw [h.scheduleQueue] at he
  obtain ⟨i, -, rfl⟩ := List.mem_map.mp he
  refine ⟨rfl, fun hb => ?_⟩
  rw [h.completedInstructions]
  exact List.mem_map_of_mem (of_decide_eq_true hb)

/-- A drained machine has completed the whole trace. -/
theorem completed_of_empty (hv : ValidTrace tr) {c : ℕ} (he : (timeline cfg tr c).Empty) :
    ((stateAt cfg tr c).completedInstructions.map fun p => (p.toTraceInst, p.instNum)).Perm
      (tr.zipIdx 1) := by
  rw [(stateAt_rep cfg hv c).completedInstructions, zipIdx_eq, List.map_map]
  exact ((timeline_inv cfg tr c).empty_announced he).map _

theorem fired_of_empty (hv : ValidTrace tr) {c : ℕ} (he : (timeline cfg tr c).Empty) :
    (stateAt cfg tr c).totalInstFired = tr.length := by
  rw [(stateAt_rep cfg hv c).totalInstFired, timeline, Timeline.run_fired]
  exact (timeline_inv cfg tr c).empty_started he

/-- At the end of every cycle the tags handed out are exactly those in the fetch queue, the
    dispatch queue, the entries not yet broadcast and the completed instructions, each once; the
    broadcast entries are among the completed instructions. A drained run has completed every line
    of the trace once, under its own tag, and counted it. -/
theorem instructions_conserved (hv : ValidTrace tr) :
    (∀ c, (stateAt cfg tr c).tags.Perm (List.range' 1 ((stateAt cfg tr c).nextTag - 1)) ∧
      ∀ e ∈ (stateAt cfg tr c).scheduleQueue, e.instruction.instNum = e.tag ∧
        (e.broadcast = true → e.instruction ∈ (stateAt cfg tr c).completedInstructions)) ∧
    (drained (runProc cfg tr) = true →
      ((runProc cfg tr).completedInstructions.map fun p => (p.toTraceInst, p.instNum)).Perm
        (tr.zipIdx 1) ∧
      (runProc cfg tr).totalInstFired = tr.length ∧
      (runProc cfg tr).totalInstRetired = tr.length) := by
  constructor
  · intro c
    have h := stateAt_rep cfg hv c
    refine ⟨?_, h.broadcast_completed⟩
    rw [h.tags, h.nextTag, Nat.add_sub_cancel]
    exact (timeline_inv cfg tr c).located_perm
  · intro hd
    obtain ⟨c, heq, hempty⟩ := runProc_drained hv hd
    rw [heq]
    exact ⟨completed_of_empty hv hempty, fired_of_empty hv hempty,
      retired_of_drained hv ((drained_iff hv c).mpr hempty)⟩

/-- Two writers of one register and a reader, on one bus. -/
theorem instructions_conserved_writers :
    ((runProc ⟨1, 1, 1, 1, 2⟩ [⟨4, 0, 5, -1, -1⟩, ⟨8, 2, 5, 5, -1⟩, ⟨12, 0, 6, 5, 5⟩]
        ).completedInstructions.map fun p => (p.toTraceInst, p.instNum)).Perm
      [(⟨4, 0, 5, -1, -1⟩, 1), (⟨8, 2, 5, 5, -1⟩, 2), (⟨12, 0, 6, 5, 5⟩, 3)] :=
  ((instructions_conserved (by decide)).2
    (drained_of_length ⟨by decide, by decide, by decide, by decide, by decide⟩ (by decide)
      (by decide))).1

end Procsim
