import Ece116c.Procsim.Refine

/-! The scoreboard and the wakeup, said of the globals alone: a register shows the youngest writer
    scheduled so far until that has been broadcast, and a source waits exactly for its nearest
    earlier writer, which is then in the schedule queue. -/

namespace Procsim
open Window

/-- The instructions scheduled so far. -/
def Proc.scheduled (s : Proc) : List ProcInst :=
  s.scheduleQueue.map (·.instruction) ++ s.completedInstructions

/-- The instruction with tag `i` has been broadcast. -/
def Proc.Broadcast (s : Proc) (i : ℕ) : Prop := ∃ p ∈ s.completedInstructions, p.instNum = i

instance (s : Proc) (i : ℕ) : Decidable (s.Broadcast i) :=
  inferInstanceAs (Decidable (∃ p ∈ _, _))

/-- `p` is the youngest instruction scheduled so far that writes register `x`. -/
structure Proc.Youngest (s : Proc) (x : ℤ) (p : ProcInst) : Prop where
  scheduled : p ∈ s.scheduled
  writes : p.destReg = x
  latest : ∀ q ∈ s.scheduled, q.destReg = x → q.instNum ≤ p.instNum

/-- What `register_tag` shows for register `x`. -/
structure Proc.Shows (s : Proc) (x : ℤ) : Prop where
  pending : ∀ p, s.Youngest x p → ¬ s.Broadcast p.instNum → regTag s.registerTag x = p.instNum
  broadcast : ∀ p, s.Youngest x p → s.Broadcast p.instNum → regTag s.registerTag x = 0
  unwritten : (∀ p ∈ s.scheduled, p.destReg ≠ x) → regTag s.registerTag x = 0

/-- What entry `e` knows of its source `k`. -/
structure Proc.Waits (tr : List TraceInst) (s : Proc) (e : ScheduleEntry) (k : Fin 2) : Prop where
  ready_iff : e.srcReady k = false ↔
    producer tr k e.tag ≠ 0 ∧ ¬ s.Broadcast (producer tr k e.tag)
  tag : e.srcReady k = false → e.srcTag k = producer tr k e.tag
  writer : e.srcReady k = false →
    ∃ w ∈ s.scheduleQueue, w.tag = producer tr k e.tag ∧ w.broadcast = false

section View

variable {cfg : Config} {tr : List TraceInst} {c : ℕ} {T : Timeline} {s : Proc}
  {m : Machine FuType} {w : Workload FuType} (h : Rep tr cfg c T s)

include h

theorem Rep.broadcast_iff (i : ℕ) : s.Broadcast i ↔ i ∈ T.announced := by
  rw [Proc.Broadcast, h.completedInstructions]
  constructor
  · rintro ⟨p, hp, rfl⟩
    obtain ⟨i, hi, rfl⟩ := List.mem_map.mp hp
    exact hi
  · intro hi
    exact ⟨record tr T i, List.mem_map_of_mem hi, rfl⟩

/-- The instructions scheduled so far are the first ones of the trace. -/
theorem Rep.mem_scheduled (hinv : T.Inv m w c) (p : ProcInst) :
    p ∈ s.scheduled ↔ ∃ i, 1 ≤ i ∧ i ≤ T.scheduled ∧ p = record tr T i := by
  rw [Proc.scheduled, h.scheduleQueue, h.completedInstructions, List.map_map, List.mem_append,
    List.mem_map, List.mem_map]
  constructor
  · rintro (⟨i, hi, rfl⟩ | ⟨i, hi, rfl⟩)
    · have hin := ((hinv.window_mem i).mp hi).1
      exact ⟨i, hin.1, hin.2, rfl⟩
    · have hexec := (hinv.state_exec i ((hinv.announced_mem i).mp hi).1).1
      have hin := hinv.exec_sched i hexec
      exact ⟨i, hin.1, hin.2.1, rfl⟩
  · rintro ⟨i, h1, hle, rfl⟩
    by_cases ha : i ∈ T.announced
    · exact .inr ⟨i, ha, rfl⟩
    · exact .inl ⟨i, hinv.mem_window h1 hle ha, rfl⟩

/-- The scoreboard finds the youngest writer as the abstract machine does. -/
theorem Rep.youngest_eq (hinv : T.Inv m w c) {x : ℤ} {p : ProcInst} (hp : s.Youngest x p) :
    lastWriter tr x T.scheduled = p.instNum := by
  obtain ⟨i, h1, hi, rfl⟩ := (h.mem_scheduled hinv p).mp hp.scheduled
  refine lastWriter_eq h1 hi hp.writes fun j hij hj hd => ?_
  have hlate := hp.latest (record tr T j) ((h.mem_scheduled hinv _).mpr ⟨j, by omega, hj, rfl⟩) hd
  exact absurd hlate (Nat.not_le.mpr hij)

theorem Rep.shows (hinv : T.Inv m w c) {x : ℤ} (h0 : 0 ≤ x) (h1 : x < 128) : s.Shows x := by
  have htag := h.registerTag.tag x h0 h1
  rw [pendingWriter] at htag
  constructor
  · intro p hp hb
    rw [h.broadcast_iff] at hb
    rw [htag, h.youngest_eq hinv hp, if_neg hb]
  · intro p hp hb
    rw [h.broadcast_iff] at hb
    rw [htag, h.youngest_eq hinv hp, if_pos hb]
  · intro hno
    have hzero : lastWriter tr x T.scheduled = 0 := by
      by_contra hne
      have hle : lastWriter tr x T.scheduled ≤ T.scheduled := lastWriter_le T.scheduled
      refine hno (record tr T (lastWriter tr x T.scheduled)) ?_ (lastWriter_dest _ hne)
      exact (h.mem_scheduled hinv _).mpr ⟨_, Nat.one_le_iff_ne_zero.mpr hne, hle, rfl⟩
    rw [htag, hzero, ite_self]

theorem Rep.waits (hinv : T.Inv m w c) {e : ScheduleEntry} (he : e ∈ s.scheduleQueue)
    (k : Fin 2) : s.Waits tr e k := by
  rw [h.scheduleQueue] at he
  obtain ⟨i, hi, rfl⟩ := List.mem_map.mp he
  have hready : (entry tr T i).srcReady k = false ↔
      producer tr k i ≠ 0 ∧ producer tr k i ∉ T.announced := by
    rw [entry_srcReady, srcDone, decide_eq_false_iff_not, not_or]
  constructor
  · rw [hready, h.broadcast_iff]
    rfl
  · intro hno
    rw [entry_srcReady] at hno
    rw [entry_srcTag, srcWait, hno]
    rfl
  · intro hno
    obtain ⟨hne, ha⟩ := hready.mp hno
    have hlt := producer_lt tr k i hne
    have hle := le_trans (Nat.le_of_lt hlt) ((hinv.window_mem i).mp hi).1.2
    have hwin := hinv.mem_window (Nat.one_le_iff_ne_zero.mpr hne) hle ha
    rw [h.scheduleQueue]
    exact ⟨entry tr T (producer tr k i), List.mem_map_of_mem hwin, rfl, decide_eq_false ha⟩

end View

/-- The scoreboard and wakeup invariant: at every phase boundary each of the 128 registers shows
    the youngest writer scheduled so far while that has not been broadcast, and 0 otherwise; and an
    entry waits for a source exactly while its nearest earlier writer is in the schedule queue and
    not broadcast, under the tag of that writer. -/
theorem scoreboard_and_wakeup (cfg : Config) {tr : List TraceInst} (hv : ValidTrace tr) (c : ℕ)
    (p : Point) :
    (∀ x : ℤ, 0 ≤ x → x < 128 → (boundary cfg tr c p).Shows x) ∧
    ∀ e ∈ (boundary cfg tr c p).scheduleQueue, ∀ k, (boundary cfg tr c p).Waits tr e k := by
  have h : Rep tr cfg _ _ (boundary cfg tr c p) := boundary_rep hv c p
  have hinv := timelineAt_inv cfg tr c p
  exact ⟨fun x h0 h1 => h.shows hinv h0 h1, fun e he k => h.waits hinv he k⟩

set_option maxRecDepth 8000 in
/-- A writer and a reader of one register. Before the writer is broadcast the register shows it and
    the reader waits for it; the broadcast clears the register and wakes the reader. -/
theorem scoreboard_and_wakeup_broadcast :
    let s := boundary ⟨1, 1, 1, 1, 3⟩ [⟨4, 0, 5, -1, -1⟩, ⟨8, 1, 6, 5, -1⟩]
    (regTag (s 4 .updated).registerTag 5 = 1 ∧
      ∃ e ∈ (s 4 .updated).scheduleQueue, e.tag = 2 ∧ e.srcReady 0 = false) ∧
    regTag (s 5 .updated).registerTag 5 = 0 ∧
      ∃ e ∈ (s 5 .updated).scheduleQueue, e.tag = 2 ∧ e.srcReady 0 = true := by
  intro s
  have hv : ValidTrace [⟨4, 0, 5, -1, -1⟩, ⟨8, 1, 6, 5, -1⟩] := by decide
  obtain ⟨hregs, hentries⟩ := scoreboard_and_wakeup ⟨1, 1, 1, 1, 3⟩ hv 4 .updated
  obtain ⟨hregs', hentries'⟩ := scoreboard_and_wakeup ⟨1, 1, 1, 1, 3⟩ hv 5 .updated
  have hwait : ⟨⟨⟨8, 1, 6, 5, -1⟩, 2, 1, 2, 3, 0, 0⟩, 2, false, none, none, false, false, false, 1,
      true, 0⟩ ∈ (s 4 .updated).scheduleQueue := by decide
  have hwoken : ⟨⟨⟨8, 1, 6, 5, -1⟩, 2, 1, 2, 3, 0, 0⟩, 2, false, none, none, false, false, true, 0,
      true, 0⟩ ∈ (s 5 .updated).scheduleQueue := by decide
  refine ⟨⟨?_, _, hwait, rfl, ?_⟩, ?_, _, hwoken, rfl, ?_⟩
  · exact (hregs 5 (by decide) (by decide)).pending ⟨⟨4, 0, 5, -1, -1⟩, 1, 1, 2, 3, 4, 5⟩
      ⟨by decide, by decide, by decide⟩ (by decide)
  · exact (hentries _ hwait 0).ready_iff.mpr ⟨by decide, by decide⟩
  · exact (hregs' 5 (by decide) (by decide)).broadcast ⟨⟨4, 0, 5, -1, -1⟩, 1, 1, 2, 3, 4, 5⟩
      ⟨by decide, by decide, by decide⟩ (by decide)
  · refine Bool.eq_true_of_not_eq_false fun hno => ?_
    exact ((hentries' _ hwoken 0).ready_iff.mp hno).2 (by decide)

end Procsim
