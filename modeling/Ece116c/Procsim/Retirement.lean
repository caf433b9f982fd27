import Ece116c.Procsim.Contents

/-! The bookkeeping of retirement at the start of `state_update_phase`: the retired queue lists the
    broadcast entries, the next ones on the bus are found and were stamped a cycle ago, and the
    sort has nothing to do. -/

namespace Procsim
open Window

/-- The containers as `state_update_phase` finds them. -/
structure Proc.Kept (s : Proc) : Prop where
  sorted : s.scheduleQueue.Pairwise fun a b => a.tag < b.tag
  retired_nodup : s.retiredQueue.Nodup
  mem_retired : ∀ tag, tag ∈ s.retiredQueue ↔
    ∃ e ∈ s.scheduleQueue, e.tag = tag ∧ e.broadcast = true

/-- The entry that retire phase 2 finds for a tag, stamped in cycle `c`, 0 for not stamped. -/
def Proc.Stamped (s : Proc) (tag c : ℕ) : Prop :=
  ∃ e, s.scheduleQueue.find? (fun e => e.tag == tag) = some e ∧ e.instruction.stateCycle = c

section Update

variable {cfg : Config} {tr : List TraceInst} {c : ℕ} {T : Timeline} {s : Proc}

theorem Rep.stamped (h : Rep tr cfg c T s) {i : ℕ} (hi : i ∈ T.window) :
    s.Stamped i (T.state i) :=
  ⟨_, h.find_tag hi, rfl⟩

variable (hinv : T.Inv (machine cfg) (workload tr) c)

include hinv

theorem Rep.kept (h : Rep tr cfg c T s) : s.Kept := by
  constructor
  · rw [h.scheduleQueue]
    exact List.pairwise_map.mpr hinv.window_sorted
  · rw [h.retiredQueue]
    exact hinv.leaving_nodup
  · intro tag
    rw [h.retiredQueue, hinv.mem_leaving, h.scheduleQueue]
    constructor
    · rintro ⟨hw, ha⟩
      exact ⟨entry tr T tag, List.mem_map_of_mem hw, rfl, decide_eq_true ha⟩
    · rintro ⟨e, he, rfl, hb⟩
      obtain ⟨i, hi, rfl⟩ := List.mem_map.mp he
      exact ⟨hi, of_decide_eq_true hb⟩

/-- `remove_if` erases the broadcast entries. -/
theorem Rep.retirePhase1_queue (h : Rep tr cfg c T s) :
    (retirePhase1 s).scheduleQueue = s.scheduleQueue.filter fun e => !e.broadcast := by
  have hsame : T.window.filter (fun i => i ∉ T.leaving) =
      T.window.filter (fun i => i ∉ T.announced) := by
    refine List.filter_congr fun i hi => ?_
    simp [hinv.mem_leaving, hi]
  rw [(evict_rep hinv h).scheduleQueue, h.scheduleQueue, filter_broadcast, ← hsame]
  rfl

/-- The tag that turn `i` of retire phase 2 pops was stamped by the last update. -/
theorem Rep.popped (hv : ValidTrace tr) (h : Rep tr cfg c T s) {i : ℕ}
    (hi : i < min cfg.r s.resultBusQueue.length) :
    ∃ tag rest, (broadcastLoop i (retirePhase1 s)).resultBusQueue = tag :: rest ∧
      (broadcastLoop i (retirePhase1 s)).Stamped tag c := by
  rw [h.resultBusQueue, lt_min_iff] at hi
  have hrep := broadcastLoop_rep hv i T.evict (retirePhase1 s) (evict_rep hinv h)
    (hinv.window_nodup.filter _)
    (fun a ha => granted_window hinv
      ((List.take_sublist_take_left (Nat.le_of_lt hi.1)).subset ha))
    hinv.line_nodup (Nat.le_of_lt hi.2)
  have hbus : (announceN i T.evict).bus = T.bus[i] :: T.bus.drop (i + 1) :=
    List.drop_eq_getElem_cons hi.2
  have hgrant : T.bus[i] ∈ T.bus.take cfg.r :=
    List.mem_take_iff_getElem.mpr ⟨i, lt_min_iff.mpr hi, rfl⟩
  have hstate : (announceN i T.evict).state T.bus[i] = c := ((hinv.granted_mem _).mp hgrant).2
  have hstamp := hrep.stamped (granted_window hinv hgrant).1
  rw [hstate] at hstamp
  exact ⟨T.bus[i], T.bus.drop (i + 1), hrep.resultBusQueue.trans hbus, hstamp⟩

/-- A tag that stays on the bus has no stamp. -/
theorem Rep.left_behind (hv : ValidTrace tr) (h : Rep tr cfg c T s) {tag : ℕ}
    (ht : tag ∈ (retirePhase2 cfg (retirePhase1 s)).resultBusQueue) :
    (retirePhase2 cfg (retirePhase1 s)).Stamped tag 0 := by
  have hrep := retire_rep hinv hv h
  rw [hrep.resultBusQueue] at ht
  obtain ⟨he, -, hs⟩ := (hinv.waiting_mem tag).mp ht
  have hstate : (T.evict.announce (machine cfg)).state tag = 0 := hs
  have hstamp := hrep.stamped (hinv.held_mem_evict ⟨he, hs⟩)
  rwa [hstate] at hstamp

theorem Rep.sort_idle (hv : ValidTrace tr) (h : Rep tr cfg c T s) :
    sortPhase (decrementPhase (retirePhase2 cfg (retirePhase1 s))) =
      decrementPhase (retirePhase2 cfg (retirePhase1 s)) :=
  sortPhase_eq (decrementPhase_rep (retire_rep hinv hv h) hinv.exec_le)
    (hinv.window_sorted.sublist List.filter_sublist)

end Update

/-- Retirement bookkeeping: whenever `state_update_phase` starts, the schedule queue is sorted by
    tag, so that the sort does nothing, and the retired queue lists the tags of its broadcast
    entries, which `remove_if` erases; every tag then popped from the bus is found and was stamped
    a cycle ago, and the ones that stay on the bus have no stamp. -/
theorem retirement_bookkeeping (cfg : Config) {tr : List TraceInst} (hv : ValidTrace tr) (c : ℕ) :
    let s := boundary cfg tr c .ticked
    s.Kept ∧
    (retirePhase1 s).scheduleQueue = s.scheduleQueue.filter (fun e => !e.broadcast) ∧
    (retirePhase1 s).retiredQueue = [] ∧
    (∀ i, i < min cfg.r s.resultBusQueue.length → ∃ tag rest,
      (broadcastLoop i (retirePhase1 s)).resultBusQueue = tag :: rest ∧
        (broadcastLoop i (retirePhase1 s)).Stamped tag (s.cycleCount - 1)) ∧
    (∀ tag ∈ (retirePhase2 cfg (retirePhase1 s)).resultBusQueue,
      (retirePhase2 cfg (retirePhase1 s)).Stamped tag 0) ∧
    sortPhase (decrementPhase (retirePhase2 cfg (retirePhase1 s))) =
      decrementPhase (retirePhase2 cfg (retirePhase1 s)) := by
  intro s
  have h : Rep tr cfg c (timeline cfg tr c) s := boundary_rep hv c .ticked
  have hinv := timeline_inv cfg tr c
  have hcyc : s.cycleCount - 1 = c := by
    have hs : s.cycleCount = (stateAt cfg tr c).cycleCount + 1 := rfl
    rw [hs, stateAt_cycleCount, Nat.add_sub_cancel]
  rw [hcyc]
  exact ⟨h.kept hinv, h.retirePhase1_queue hinv, (evict_rep hinv h).retiredQueue,
    fun i hi => h.popped hinv hv hi, fun tag ht => h.left_behind hinv hv ht, h.sort_idle hinv hv⟩

set_option maxRecDepth 4000 in
/-- Three results on one bus: in cycle 7 the first is erased, the second popped, and the third
    stays. -/
theorem retirement_bookkeeping_three :
    let cfg : Config := ⟨1, 1, 1, 1, 3⟩
    let s := boundary cfg [⟨4, 0, 5, -1, -1⟩, ⟨8, 1, 6, -1, -1⟩, ⟨12, 2, 7, -1, -1⟩] 6 .ticked
    1 ∈ s.retiredQueue ∧ (retirePhase2 cfg (retirePhase1 s)).Stamped 3 0 := by
  intro cfg s
  have hv : ValidTrace [⟨4, 0, 5, -1, -1⟩, ⟨8, 1, 6, -1, -1⟩, ⟨12, 2, 7, -1, -1⟩] := by decide
  obtain ⟨hkept, -, -, -, hleft, -⟩ := retirement_bookkeeping cfg hv 6
  exact ⟨(hkept.mem_retired 1).mpr (by decide), hleft 3 (by decide)⟩

end Procsim
