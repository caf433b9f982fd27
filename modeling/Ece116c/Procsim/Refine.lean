import Ece116c.Procsim.RefineUpdate
import Ece116c.Procsim.RefineIssue
import Ece116c.Procsim.RefineFront
import Ece116c.Window.Run

/-! The code refines the abstract machine: along a run on a valid trace the globals are the views
    of the timeline, at the end of every cycle and at every point inside one. -/

namespace Procsim
open Window

variable (cfg : Config) (tr : List TraceInst)

/-- The abstract machine on a trace, at the end of cycle `c`. -/
def timeline (c : ℕ) : Timeline := Timeline.run (machine cfg) (workload tr) c

/-- The abstract machine at a point of cycle `c + 1`. -/
def timelineAt (c : ℕ) : Point → Timeline
  | .ticked => timeline cfg tr c
  | .updated => Timeline.updatedAt (machine cfg) (workload tr) c
  | .executed => Timeline.issuedAt (machine cfg) (workload tr) c
  | .scheduled => Timeline.enteredAt (machine cfg) (workload tr) c
  | .dispatched => Timeline.dispatchedAt (machine cfg) (workload tr) c
  | .fetched => Timeline.fetchedAt (machine cfg) (workload tr) c

/-- The cycle of the last state update before a point of cycle `c + 1`. -/
def updateCycle (c : ℕ) : Point → ℕ
  | .ticked => c
  | _ => c + 1

theorem timeline_inv (c : ℕ) : (timeline cfg tr c).Inv (machine cfg) (workload tr) c :=
  Timeline.run_inv (machine cfg) (workload tr) c

theorem timelineAt_inv (c : ℕ) (p : Point) :
    (timelineAt cfg tr c p).Inv (machine cfg) (workload tr) (updateCycle c p) := by
  cases p with
  | ticked => exact timeline_inv cfg tr c
  | updated => exact Timeline.updatedAt_inv _ _ c
  | executed => exact Timeline.issuedAt_inv _ _ c
  | scheduled => exact Timeline.enteredAt_inv _ _ c
  | dispatched => exact Timeline.dispatchedAt_inv _ _ c
  | fetched => exact Timeline.fetchedAt_inv _ _ c

theorem updatedAt_cycleCount (c : ℕ) : (updatedAt cfg tr c).cycleCount = c + 1 := by
  rw [updatedAt, stateUpdatePhase_cycleCount]
  exact congrArg (· + 1) (stateAt_cycleCount cfg tr c)

theorem scheduledAt_cycleCount (c : ℕ) : (scheduledAt cfg tr c).cycleCount = c + 1 :=
  (schedulePhase_cycleCount cfg _).trans (updatedAt_cycleCount cfg tr c)

variable {cfg tr}

theorem Rep.tick {c : ℕ} {T : Timeline} {s : Proc} (h : Rep tr cfg c T s) :
    Rep tr cfg c T (tick s) := { h with }

section Cycle

variable {c : ℕ}

theorem updatedAt_rep (hv : ValidTrace tr)
    (h : Rep tr cfg c (timeline cfg tr c) (stateAt cfg tr c)) :
    Rep tr cfg (c + 1) (timelineAt cfg tr c .updated) (updatedAt cfg tr c) :=
  stateUpdatePhase_rep (timeline_inv cfg tr c) hv h.tick
    (congrArg (· + 1) (stateAt_cycleCount cfg tr c))

theorem executedAt_rep (hv : ValidTrace tr)
    (h : Rep tr cfg c (timeline cfg tr c) (stateAt cfg tr c)) :
    Rep tr cfg (c + 1) (timelineAt cfg tr c .executed) (executedAt cfg tr c) :=
  executePhase_rep (timelineAt_inv cfg tr c .updated) (updatedAt_rep hv h)
    (updatedAt_cycleCount cfg tr c) (Nat.succ_ne_zero c)

theorem scheduledAt_rep (hv : ValidTrace tr)
    (h : Rep tr cfg c (timeline cfg tr c) (stateAt cfg tr c)) :
    Rep tr cfg (c + 1) (timelineAt cfg tr c .scheduled) (scheduledAt cfg tr c) :=
  schedulePhase_rep hv (executedAt_rep hv h) (updatedAt_cycleCount cfg tr c)
    (Untouched.of_inv (timelineAt_inv cfg tr c .executed))

theorem dispatchedAt_rep (hv : ValidTrace tr)
    (h : Rep tr cfg c (timeline cfg tr c) (stateAt cfg tr c)) :
    Rep tr cfg (c + 1) (timelineAt cfg tr c .dispatched) (dispatchedAt cfg tr c) :=
  dispatchPhase_rep (scheduledAt_rep hv h) (scheduledAt_cycleCount cfg tr c)
    (Untouched.of_inv (timelineAt_inv cfg tr c .scheduled))
    (timelineAt_inv cfg tr c .scheduled).dispatched_le

theorem fetchedAt_rep (hv : ValidTrace tr)
    (h : Rep tr cfg c (timeline cfg tr c) (stateAt cfg tr c)) :
    Rep tr cfg (c + 1) (timelineAt cfg tr c .fetched) (fetchedAt cfg tr c) :=
  fetchPhase_rep (timelineAt_inv cfg tr c .dispatched) (dispatchedAt_rep hv h)
    (scheduledAt_cycleCount cfg tr c)

end Cycle

/-- The refinement over whole runs. -/
theorem stateAt_rep (cfg : Config) (hv : ValidTrace tr) (c : ℕ) :
    Rep tr cfg c (timeline cfg tr c) (stateAt cfg tr c) := by
  induction c with
  | zero => exact setupProc_rep tr cfg
  | succ c ih => exact sample_rep (fetchedAt_rep hv ih)

/-- The refinement at the points inside a cycle. -/
theorem boundary_rep (hv : ValidTrace tr) (c : ℕ) (p : Point) :
    Rep tr cfg (updateCycle c p) (timelineAt cfg tr c p) (boundary cfg tr c p) := by
  have h := stateAt_rep cfg hv c
  cases p with
  | ticked => exact h.tick
  | updated => exact updatedAt_rep hv h
  | executed => exact executedAt_rep hv h
  | scheduled => exact scheduledAt_rep hv h
  | dispatched => exact dispatchedAt_rep hv h
  | fetched => exact fetchedAt_rep hv h

/-- The exit test of the loop says that the abstract machine is empty. -/
theorem drained_iff (hv : ValidTrace tr) (c : ℕ) :
    drained (stateAt cfg tr c) = true ↔ (timeline cfg tr c).Empty := by
  have h := stateAt_rep cfg hv c
  have hi := timeline_inv cfg tr c
  have hS := hi.scheduled_le
  have hD := hi.dispatched_le
  simp only [drained, h.fetchComplete, h.fetchQueue, h.dispatchQueue, h.scheduleQueue,
    h.resultBusQueue, Bool.and_eq_true, List.isEmpty_iff, List.map_eq_nil_iff,
    List.range'_eq_nil_iff, Timeline.Empty]
  constructor
  · rintro ⟨⟨⟨⟨h1, h2⟩, h3⟩, h4⟩, h5⟩
    exact ⟨h1, by omega, by omega, h4, h5⟩
  · rintro ⟨h1, h2, h3, h4, h5⟩
    exact ⟨⟨⟨⟨h1, by omega⟩, by omega⟩, h4⟩, h5⟩

end Procsim
