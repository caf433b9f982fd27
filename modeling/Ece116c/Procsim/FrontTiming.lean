import Ece116c.Procsim.Contents
import Ece116c.Window.FrontEnd

/-! The timing of fetch, dispatch and schedule: the front end is in order, fetches and dispatches
    without waiting, and schedules as soon as the schedule queue has a slot. -/

namespace Procsim
open Window

variable {cfg : Config} {tr : List TraceInst}

theorem timelineAt_window_length_le (cfg : Config) (tr : List TraceInst) (c : ℕ) (p : Point) :
    (timelineAt cfg tr c p).window.length ≤ cfg.scheduleQueueSize := by
  have hnow := Timeline.window_length_le (machine cfg) (workload tr) c
  have hnext := Timeline.window_length_le (machine cfg) (workload tr) (c + 1)
  cases p with
  | ticked => exact hnow.1
  | updated => exact hnow.2
  | executed =>
    rw [timelineAt, Timeline.issuedAt_window]
    exact hnow.2
  | scheduled => exact hnext.1
  | dispatched => exact hnext.1
  | fetched => exact hnext.1

/-- The schedule queue never holds more entries than it has slots. -/
theorem scheduleQueue_length_le (hv : ValidTrace tr) (c : ℕ) (p : Point) :
    (boundary cfg tr c p).scheduleQueue.length ≤ cfg.scheduleQueueSize := by
  rw [(boundary_rep hv c p).scheduleQueue, List.length_map]
  exact timelineAt_window_length_le cfg tr c p

/-- What `schedule_phase` leaves in the dispatch queue has found the schedule queue full. -/
theorem scheduleQueue_full (hv : ValidTrace tr) (c : ℕ)
    (h : (scheduledAt cfg tr c).dispatchQueue ≠ []) :
    (scheduledAt cfg tr c).scheduleQueue.length = cfg.scheduleQueueSize := by
  have hrep := scheduledAt_rep hv (stateAt_rep cfg hv c)
  have hD : (timelineAt cfg tr c .scheduled).dispatched = (timeline cfg tr c).dispatched :=
    Timeline.issue_dispatched ..
  have hlt : (timelineAt cfg tr c .scheduled).scheduled < (timeline cfg tr c).dispatched := by
    rw [← hD]
    by_contra hge
    rw [hrep.dispatchQueue, Nat.sub_eq_zero_of_le (Nat.not_lt.mp hge)] at h
    exact h rfl
  rw [hrep.scheduleQueue, List.length_map]
  exact Timeline.full_of_waiting (machine cfg) (workload tr) c hlt

/-- Instruction `p` may be scheduled in cycle `c`: it was dispatched before, its predecessor is
    scheduled, and fewer older instructions than the queue has slots are between their schedule
    cycle and two cycles after their state cycle. -/
def MaySchedule (cfg : Config) (done : List ProcInst) (p : ProcInst) (c : ℕ) : Prop :=
  p.dispCycle + 1 ≤ c ∧ (∀ q ∈ done, q.instNum + 1 = p.instNum → q.schedCycle ≤ c) ∧
    done.countP (fun q => decide (q.instNum < p.instNum ∧ q.schedCycle ≤ c ∧
      c < q.stateCycle + 2)) < cfg.scheduleQueueSize

theorem maySchedule_iff (hv : ValidTrace tr) {d : ℕ} (hempty : (timeline cfg tr d).Empty)
    (i c : ℕ) : MaySchedule cfg (stateAt cfg tr d).completedInstructions
      (record tr (timeline cfg tr d) i) c ↔
    (timeline cfg tr d).disp i + 1 ≤ c ∧
      (∀ j ∈ (workload tr).ages, j + 1 = i → (timeline cfg tr d).sched j ≤ c) ∧
      (timeline cfg tr d).olderInWindow (workload tr) i c < cfg.scheduleQueueSize := by
  have hmem := mem_completed_of_empty cfg hv hempty
  rw [MaySchedule, countP_completed_of_empty hv hempty]
  refine and_congr_right fun _ => and_congr_left fun _ => ?_
  constructor
  · intro h j hj hji
    exact h _ ((hmem _).mpr ⟨j, hj, rfl⟩) hji
  · intro h q hq hqi
    obtain ⟨j, hj, rfl⟩ := (hmem q).mp hq
    exact h j hj hqi

section Completed

variable {d : ℕ} (hv : ValidTrace tr) (hempty : (timeline cfg tr d).Empty)

include hv hempty

/-- A completed instruction was fetched with its turn, dispatched a cycle later and scheduled in
    the first cycle in which it might be. -/
theorem completed_timing (hf : 1 ≤ cfg.f) {p : ProcInst}
    (hp : p ∈ (stateAt cfg tr d).completedInstructions) :
    p.fetchCycle = p.instNum ⌈/⌉ cfg.f ∧ p.dispCycle = p.fetchCycle + 1 ∧
      IsLeast {c | MaySchedule cfg (stateAt cfg tr d).completedInstructions p c}
        p.schedCycle := by
  have hinv := timeline_inv cfg tr d
  have hdone := fun i hi => ((hinv.empty_done hempty).2 i hi).1
  obtain ⟨i, hi, rfl⟩ := (mem_completed_of_empty cfg hv hempty p).mp hp
  have hdisp := (Timeline.disp_lt_sched (m := machine cfg) (hinv.state_sched (hdone i hi)).1).1
  refine ⟨Timeline.fetch_eq (m := machine cfg) hf (hinv.disp_fetch hdisp),
    Timeline.disp_eq hdisp, ?_⟩
  have hset : {c | MaySchedule cfg (stateAt cfg tr d).completedInstructions
      (record tr (timeline cfg tr d) i) c} = _ :=
    Set.ext fun c => maySchedule_iff hv hempty i c
  rw [hset]
  exact Timeline.sched_least (m := machine cfg) hdone hi

theorem completed_in_order {p q : ProcInst} (hp : p ∈ (stateAt cfg tr d).completedInstructions)
    (hq : q ∈ (stateAt cfg tr d).completedInstructions) (hpq : p.instNum < q.instNum) :
    p.schedCycle ≤ q.schedCycle := by
  have hinv := timeline_inv cfg tr d
  obtain ⟨i, hi, rfl⟩ := (mem_completed_of_empty cfg hv hempty p).mp hp
  obtain ⟨j, hj, rfl⟩ := (mem_completed_of_empty cfg hv hempty q).mp hq
  have hsched := (hinv.state_sched ((hinv.empty_done hempty).2 j hj).1).1
  have hage := (Timeline.mem_ages.mp hi).1
  exact (Timeline.sched_mono (m := machine cfg) hage (Nat.le_of_lt hpq) hsched).2

/-- The entry of a completed instruction kept its slot until two cycles after its state cycle. -/
theorem slot_iff {p : ProcInst} (hp : p ∈ (stateAt cfg tr d).completedInstructions) (c : ℕ) :
    (∃ e ∈ (stateAt cfg tr c).scheduleQueue, e.tag = p.instNum) ↔
      p.schedCycle ≤ c ∧ c < p.stateCycle + 2 := by
  obtain ⟨i, hi, rfl⟩ := (mem_completed_of_empty cfg hv hempty p).mp hp
  have hdone := (((timeline_inv cfg tr d).empty_done hempty).2 i hi).1
  refine Iff.trans ?_ (Timeline.window_iff (m := machine cfg) c hdone)
  rw [(stateAt_rep cfg hv c).scheduleQueue]
  constructor
  · rintro ⟨e, he, htag⟩
    obtain ⟨j, hj, rfl⟩ := List.mem_map.mp he
    obtain rfl : j = i := htag
    exact hj
  · intro hwin
    exact ⟨_, List.mem_map_of_mem hwin, rfl⟩

end Completed

/-- The timing of the front end. An instruction is fetched with its turn, dispatched a cycle later
    and scheduled in the first cycle in which it may be. So scheduling is in order and the queue
    bounded, an entry keeps its slot until two cycles after its state cycle, and the dispatch queue
    waits only for a full schedule queue. -/
theorem front_end_timing (hf : 1 ≤ cfg.f) (hv : ValidTrace tr)
    (hd : drained (runProc cfg tr) = true) :
    (∀ p ∈ (runProc cfg tr).completedInstructions,
      p.fetchCycle = p.instNum ⌈/⌉ cfg.f ∧ p.dispCycle = p.fetchCycle + 1 ∧
      IsLeast {c | MaySchedule cfg (runProc cfg tr).completedInstructions p c} p.schedCycle) ∧
    (∀ p ∈ (runProc cfg tr).completedInstructions,
      ∀ q ∈ (runProc cfg tr).completedInstructions,
        p.instNum < q.instNum → p.schedCycle ≤ q.schedCycle) ∧
    (∀ c p, (boundary cfg tr c p).scheduleQueue.length ≤ cfg.scheduleQueueSize) ∧
    (∀ p ∈ (runProc cfg tr).completedInstructions, ∀ c,
      (∃ e ∈ (stateAt cfg tr c).scheduleQueue, e.tag = p.instNum) ↔
        p.schedCycle ≤ c ∧ c < p.stateCycle + 2) ∧
    ∀ c, (scheduledAt cfg tr c).dispatchQueue ≠ [] →
      (scheduledAt cfg tr c).scheduleQueue.length = cfg.scheduleQueueSize := by
  obtain ⟨d, heq, hempty⟩ := runProc_drained hv hd
  rw [heq]
  refine ⟨fun p hp => completed_timing hv hempty hf hp,
    fun p hp q hq => completed_in_order hv hempty hp hq, scheduleQueue_length_le hv,
    fun p hp => slot_iff hv hempty hp, scheduleQueue_full hv⟩

set_option maxRecDepth 4000 in
/-- Fetched together, dispatched together, and scheduled as soon as dispatched. -/
theorem front_end_timing_three :
    IsLeast {c | MaySchedule ⟨1, 1, 1, 1, 3⟩ (runProc ⟨1, 1, 1, 1, 3⟩
      [⟨4, 0, 5, -1, -1⟩, ⟨8, 1, 6, -1, -1⟩, ⟨12, 2, 7, -1, -1⟩]).completedInstructions
        ⟨⟨12, 2, 7, -1, -1⟩, 3, 1, 2, 3, 4, 7⟩ c} 3 := by
  have heq := drainsAt_three.runProc_eq (by decide)
  exact ((front_end_timing (by decide) (by decide) (by rw [heq]; exact drainsAt_three.done)).1
    ⟨⟨12, 2, 7, -1, -1⟩, 3, 1, 2, 3, 4, 7⟩ (by rw [heq]; decide)).2.2

end Procsim
