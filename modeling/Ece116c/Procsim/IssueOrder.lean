import Ece116c.Procsim.Liveness
import Ece116c.Window.History

/-! Oldest first and without needless stalls: once an instruction is ready, every cycle it waits
    finds all units of its type taken, and no younger one of its type starts. -/

namespace Procsim
open Window

variable {cfg : Config} {tr : List TraceInst}

/-- `ready(i)`: one past its schedule cycle and the state cycles of its producers. -/
def readyCycle (tr : List TraceInst) (done : List ProcInst) (i : ProcInst) : ℕ :=
  ((done.filter fun p => decide (∃ s, p.instNum = producer tr s i.instNum)).map
    (·.stateCycle + 1)).foldr max (i.schedCycle + 1)

theorem foldr_max_le {b c : ℕ} (l : List ℕ) : l.foldr max b ≤ c ↔ b ≤ c ∧ ∀ x ∈ l, x ≤ c := by
  induction l with
  | nil => simp
  | cons a l ih =>
    rw [List.foldr_cons, Nat.max_le, ih, List.forall_mem_cons]
    exact and_left_comm

theorem readyCycle_le {done : List ProcInst} {i : ProcInst} {c : ℕ} :
    readyCycle tr done i ≤ c ↔ i.schedCycle + 1 ≤ c ∧
      ∀ p ∈ done, ∀ s, p.instNum = producer tr s i.instNum → p.stateCycle + 1 ≤ c := by
  rw [readyCycle, foldr_max_le]
  simp only [List.mem_map, List.mem_filter, decide_eq_true_eq, forall_exists_index, and_imp]
  refine and_congr_right fun _ => ⟨fun h p hp s hs => h _ p hp s hs rfl, ?_⟩
  rintro h _ p hp s hs rfl
  exact h p hp s hs

/-- Every unit of a type is busy when the abstract machine is full. -/
theorem BankRep.busy_of_full {c : ℕ} {T : Timeline} {b : FuBank} {t : FuType}
    (h : BankRep tr cfg c T b) (hf : T.Full (machine cfg) (workload tr) t) :
    (b.get t).length = cfg.k t ∧ ∀ u ∈ b.get t, u.busy = true := by
  refine ⟨h.length t, fun u hu => ?_⟩
  obtain ⟨j, hj, rfl⟩ := List.getElem_of_mem hu
  obtain ⟨i, -, hh, hk, rfl⟩ := hf j (by rw [h.length] at hj; exact hj)
  have hheld := h.held i t hh hk
  rw [List.getElem?_eq_getElem hj, Option.some.injEq] at hheld
  rw [hheld]

section Completed

variable {d : ℕ} (hv : ValidTrace tr) (hempty : (timeline cfg tr d).Empty)

include hv hempty

/-- The completed instructions that were executing in a cycle, told by the timeline. -/
theorem countP_executing (t : FuType) (c : ℕ) :
    (stateAt cfg tr d).completedInstructions.countP (fun j =>
        decide (getFuUnits j.opCode = some t ∧ j.execCycle ≤ c ∧ c < j.stateCycle)) =
      (timeline cfg tr d).executing (workload tr) t c := by
  rw [countP_completed_of_empty hv hempty]
  refine List.countP_congr fun j hj => ?_
  have hinv := timeline_inv cfg tr d
  have hst := ((hinv.empty_done hempty).2 j hj).1
  have hex := (hinv.state_exec j hst).1
  rw [decide_eq_true_eq, decide_eq_true_eq]
  change (workload tr).kind j = some t ∧ (timeline cfg tr d).exec j ≤ c ∧
    c < (timeline cfg tr d).state j ↔ (workload tr).kind j = some t ∧
      (timeline cfg tr d).exec j ≠ 0 ∧ (timeline cfg tr d).exec j ≤ c ∧
        ((timeline cfg tr d).state j = 0 ∨ c < (timeline cfg tr d).state j)
  tauto

/-- The producers of an instruction are completed, so `ready` bounds their bus cycles. -/
theorem producers_before {n c : ℕ} (hn : n ∈ (workload tr).ages)
    (hprod : ∀ p ∈ (stateAt cfg tr d).completedInstructions, ∀ s,
      p.instNum = producer tr s n → p.stateCycle + 1 ≤ c) :
    ∀ p ∈ (workload tr).deps n, (timeline cfg tr d).state p ≠ 0 ∧
      (timeline cfg tr d).state p < c := by
  intro p hp
  obtain ⟨hp0, s, hps⟩ := (mem_deps tr n p).mp hp
  have hpn := workload_ordered tr n p hp
  have hage : p ∈ (workload tr).ages := by
    have := Timeline.mem_ages.mp hn
    exact Timeline.mem_ages.mpr (by omega)
  have hmem := (mem_completed_of_empty cfg hv hempty _).mpr ⟨p, hage, rfl⟩
  exact ⟨(((timeline_inv cfg tr d).empty_done hempty).2 p hage).1, hprod _ hmem s hps⟩

end Completed

/-- In every cycle from `ready(i)` until it fires, all `k_t` units of its type are held after the
    execute phase, exactly `k_t` instructions of the type are executing, and those of the type that
    fire have smaller tags. -/
theorem oldest_ready_first (hv : ValidTrace tr) (hd : drained (runProc cfg tr) = true) :
    ∀ i ∈ (runProc cfg tr).completedInstructions, ∀ t, getFuUnits i.opCode = some t →
      ∀ c, readyCycle tr (runProc cfg tr).completedInstructions i ≤ c → c < i.execCycle →
        (((executedAt cfg tr (c - 1)).units.get t).length = cfg.k t ∧
          ∀ u ∈ (executedAt cfg tr (c - 1)).units.get t, u.busy = true) ∧
        (runProc cfg tr).completedInstructions.countP (fun j =>
          decide (getFuUnits j.opCode = some t ∧ j.execCycle ≤ c ∧ c < j.stateCycle)) = cfg.k t ∧
        ∀ j ∈ (runProc cfg tr).completedInstructions,
          getFuUnits j.opCode = some t → j.execCycle = c → j.instNum < i.instNum := by
  intro i hi t ht c hready hlt
  obtain ⟨d, heq, hempty⟩ := runProc_drained hv hd
  rw [heq] at hi hready ⊢
  have hinv := timeline_inv cfg tr d
  have hmem := mem_completed_of_empty cfg hv hempty
  obtain ⟨n, hn, rfl⟩ := (hmem i).mp hi
  obtain ⟨hsched, hprod⟩ := readyCycle_le.mp hready
  obtain ⟨hn0, -⟩ := hinv.state_sched ((hinv.empty_done hempty).2 n hn).1
  have hle := hinv.exec_le n
  change (timeline cfg tr d).sched n + 1 ≤ c at hsched
  change c < (timeline cfg tr d).exec n at hlt
  obtain ⟨b, rfl⟩ : ∃ b, c = b + 1 := ⟨c - 1, by omega⟩
  obtain ⟨hfull, hcount, hold⟩ := Timeline.passed_over_back (m := machine cfg) (by omega) ht hn0
    hsched (producers_before hv hempty hn hprod) (Or.inr hlt)
  refine ⟨(executedAt_rep hv (stateAt_rep cfg hv b)).units.busy_of_full hfull, ?_, ?_⟩
  · rw [countP_executing hv hempty]
    exact hcount
  · rintro j hj hjt hjc
    obtain ⟨a, -, rfl⟩ := (hmem j).mp hj
    exact hold a hjt hjc

set_option maxRecDepth 4000 in
/-- Three instructions on one `k0` unit: the second is ready in cycle 4, where the first holds the
    unit. -/
theorem oldest_ready_first_second :
    (runProc ⟨1, 1, 1, 1, 3⟩ [⟨4, 0, 5, -1, -1⟩, ⟨8, 0, 6, -1, -1⟩, ⟨12, 0, 7, 5, -1⟩]
      ).completedInstructions.countP (fun j =>
        decide (getFuUnits j.opCode = some .k0 ∧ j.execCycle ≤ 4 ∧ 4 < j.stateCycle)) = 1 := by
  have hd : DrainsAt ⟨1, 1, 1, 1, 3⟩
      [⟨4, 0, 5, -1, -1⟩, ⟨8, 0, 6, -1, -1⟩, ⟨12, 0, 7, 5, -1⟩] 9 := by decide
  have heq := hd.runProc_eq (by decide)
  exact (oldest_ready_first (by decide) (by rw [heq]; exact hd.done)
    ⟨⟨8, 0, 6, -1, -1⟩, 2, 1, 2, 3, 5, 6⟩ (by rw [heq]; decide) .k0 rfl 4 (by rw [heq]; decide)
    (by decide)).2.1

end Procsim
