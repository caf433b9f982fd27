import Ece116c.Procsim.Refine
import Ece116c.Window.Progress

/-! What the containers of the simulator hold, and the state it returns in. -/

namespace Procsim
open Window

/-- The instructions in the machine and those completed; a broadcast entry of the schedule queue
    only waits to be erased. -/
def Proc.instructions (s : Proc) : List ProcInst :=
  s.fetchQueue ++ s.dispatchQueue ++
    (s.scheduleQueue.filter (fun e => !e.broadcast)).map (·.instruction) ++
      s.completedInstructions

/-- Their tags, an entry being known by its own. -/
def Proc.tags (s : Proc) : List ℕ :=
  s.fetchQueue.map (·.instNum) ++ s.dispatchQueue.map (·.instNum) ++
    (s.scheduleQueue.filter (fun e => !e.broadcast)).map (·.tag) ++
      s.completedInstructions.map (·.instNum)

section Contents

variable {cfg : Config} {tr : List TraceInst} {c : ℕ} {T : Timeline} {s : Proc}

theorem filter_broadcast (W : List ℕ) :
    (W.map (entry tr T)).filter (fun e => !e.broadcast) =
      (W.filter (fun i => i ∉ T.announced)).map (entry tr T) := by
  rw [List.filter_map]
  congr 1
  refine List.filter_congr fun i _ => ?_
  simp [entry]

theorem Rep.instructions (h : Rep tr cfg c T s) :
    s.instructions = T.located.map (record tr T) := by
  rw [Proc.instructions, h.fetchQueue, h.dispatchQueue, h.scheduleQueue, filter_broadcast,
    h.completedInstructions, List.map_map, Timeline.located, List.map_append, List.map_append,
    List.map_append]
  rfl

theorem Rep.tags (h : Rep tr cfg c T s) : s.tags = T.located := by
  rw [Proc.tags, h.fetchQueue, h.dispatchQueue, h.scheduleQueue, filter_broadcast,
    h.completedInstructions, List.map_map, List.map_map, List.map_map, List.map_map,
    Timeline.located]
  simp only [Function.comp_def, record, entry, List.map_id']

theorem Rep.mem_instructions {m : Machine FuType} {w : Workload FuType} (h : Rep tr cfg c T s)
    (hi : T.Inv m w c) (p : ProcInst) :
    p ∈ s.instructions ↔ ∃ i, 1 ≤ i ∧ i ≤ T.fetched ∧ p = record tr T i := by
  rw [h.instructions, List.mem_map]
  constructor
  · rintro ⟨i, hl, rfl⟩
    have := List.mem_range'_1.mp (hi.located_perm.mem_iff.mp hl)
    exact ⟨i, by omega, by omega, rfl⟩
  · rintro ⟨i, h1, h2, rfl⟩
    exact ⟨i, hi.located_perm.mem_iff.mpr (List.mem_range'_1.mpr (by omega)), rfl⟩

theorem Rep.mem_completed {m : Machine FuType} {w : Workload FuType} (h : Rep tr cfg c T s)
    (hi : T.Inv m w c) (p : ProcInst) :
    p ∈ s.completedInstructions ↔ ∃ i, T.state i ≠ 0 ∧ T.state i < c ∧ p = record tr T i := by
  rw [h.completedInstructions, List.mem_map]
  constructor
  · rintro ⟨i, ha, rfl⟩
    have := (hi.announced_mem i).mp ha
    exact ⟨i, this.1, this.2, rfl⟩
  · rintro ⟨i, h1, h2, rfl⟩
    exact ⟨i, (hi.announced_mem i).mpr ⟨h1, h2⟩, rfl⟩

end Contents

/-! ### The state of return -/

section Return

variable {cfg : Config} {tr : List TraceInst}

/-- A drained run has returned at the end of a cycle with the abstract machine empty. -/
theorem runProc_drained (hv : ValidTrace tr) (hd : drained (runProc cfg tr) = true) :
    ∃ c, runProc cfg tr = stateAt cfg tr c ∧ (timeline cfg tr c).Empty := by
  obtain ⟨c, -, -, heq, -, -⟩ := runProc_eq cfg tr
  rw [heq, drained_iff hv] at hd
  exact ⟨c, heq, hd⟩

/-- A drained machine has completed the ages of the trace, in some order. -/
theorem mem_completed_of_empty (cfg : Config) (hv : ValidTrace tr) {c : ℕ}
    (he : (timeline cfg tr c).Empty) (p : ProcInst) : p ∈ (stateAt cfg tr c).completedInstructions ↔
      ∃ i ∈ (workload tr).ages, p = record tr (timeline cfg tr c) i := by
  rw [(stateAt_rep cfg hv c).completedInstructions, List.mem_map]
  simp only [((timeline_inv cfg tr c).empty_announced he).mem_iff, eq_comm]

theorem countP_completed_of_empty (hv : ValidTrace tr) {c : ℕ} (he : (timeline cfg tr c).Empty)
    (q : ProcInst → Bool) : (stateAt cfg tr c).completedInstructions.countP q =
      (workload tr).ages.countP fun i => q (record tr (timeline cfg tr c) i) := by
  rw [(stateAt_rep cfg hv c).completedInstructions, List.countP_map]
  exact ((timeline_inv cfg tr c).empty_announced he).countP_eq _

/-- The first drained cycle is where `run_proc` returns, unless the guard comes first. -/
theorem DrainsAt.runProc_eq {c : ℕ} (h : DrainsAt cfg tr c) (hc : c ≤ cycleLimit + 1) :
    runProc cfg tr = stateAt cfg tr c := by
  obtain ⟨e, h1, he, heq, hfirst, hstop⟩ := Procsim.runProc_eq cfg tr
  rcases Nat.lt_trichotomy e c with hlt | rfl | hlt
  · have hno := h.first e h1 hlt
    rcases hstop with hd | hd
    · rw [hno] at hd; cases hd
    · omega
  · exact heq
  · have hno := hfirst c h.pos hlt
    rw [h.done] at hno; cases hno

set_option maxRecDepth 4000 in
/-- Three results on one bus: the last is announced in cycle 8 and leaves in the next. -/
theorem drainsAt_three : DrainsAt ⟨1, 1, 1, 1, 3⟩
    [⟨4, 0, 5, -1, -1⟩, ⟨8, 1, 6, -1, -1⟩, ⟨12, 2, 7, -1, -1⟩] 9 := by decide

/-- A drained run has stopped at the first drained cycle, before the guard. -/
theorem runProc_drainsAt (hd : drained (runProc cfg tr) = true) :
    ∃ c, c ≤ cycleLimit + 1 ∧ DrainsAt cfg tr c ∧ runProc cfg tr = stateAt cfg tr c := by
  obtain ⟨c, h1, hc, heq, hfirst, -⟩ := runProc_eq cfg tr
  rw [heq] at hd
  exact ⟨c, hc, ⟨h1, hd, hfirst⟩, heq⟩

/-- The tags of a trace in order, with their lines. -/
theorem zipIdx_eq (tr : List TraceInst) :
    tr.zipIdx 1 = (List.range' 1 tr.length).map fun i => (inst tr i, i) := by
  refine List.ext_getElem (by simp) fun n h1 h2 => ?_
  have hn : n < tr.length := by simpa using h1
  have hinst : inst tr (1 + n) = tr[n] := by
    rw [inst, List.getD_eq_getElem?_getD, Nat.add_sub_cancel_left, List.getElem?_eq_getElem hn]
    rfl
  simp [hinst]

/-- Counting lines is counting tags. -/
theorem countP_eq_ages (tr : List TraceInst) (q : TraceInst → Bool) :
    tr.countP q = (workload tr).ages.countP fun i => q (inst tr i) := by
  have hfst : (tr.zipIdx 1).map Prod.fst = tr := List.zipIdx_map_fst 1 tr
  rw [zipIdx_eq, List.map_map] at hfst
  conv_lhs => rw [← hfst, List.countP_map]
  rfl

end Return

end Procsim
