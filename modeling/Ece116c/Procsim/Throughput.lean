import Ece116c.Procsim.RunTime
import Ece116c.Window.Throughput

/-! How good the schedule is: the run time is that of a chain of true dependences, but for the
    cycles that the buses and the units would cost the trace in any case; with buses and units for
    the whole trace it is the critical path, which no machine beats. -/

namespace Procsim
open Window Timeline

variable {cfg : Config} {tr : List TraceInst}

/-! ### Chains -/

theorem trueDep_iff {p i : ℕ} : TrueDep tr p i ↔ p ∈ (workload tr).deps i := by
  refine ⟨TrueDep.mem_deps, fun h => ?_⟩
  obtain ⟨h0, s, rfl⟩ := (mem_deps tr i p).mp h
  have hlt := producer_lt tr s i h0
  have hsrc : (inst tr i).srcReg s ≠ -1 := by
    intro hsrc
    rw [producer, if_pos hsrc] at h0
    exact h0 rfl
  rw [producer, if_neg hsrc] at h0 hlt ⊢
  exact ⟨s, hsrc, Nat.one_le_iff_ne_zero.mpr h0, hlt, lastWriter_dest _ h0,
    fun q hq hqi => lastWriter_latest _ q hq (Nat.le_sub_one_of_lt hqi)⟩

theorem depChain_iff {l : List ℕ} : DepChain tr l ↔ (∀ i ∈ l, i ∈ (workload tr).ages) ∧
    l.IsChain fun p i => p ∈ (workload tr).deps i := by
  have hrel : TrueDep tr = fun p i => p ∈ (workload tr).deps i :=
    funext fun p => funext fun i => propext trueDep_iff
  rw [DepChain, hrel]
  simp only [mem_ages]
  rfl

/-- How many lines need a unit of array `t`. -/
def opsOf (tr : List TraceInst) (t : FuType) : ℕ :=
  tr.countP fun x => decide (getFuUnits x.opCode = some t)

theorem length_agesOf (t : FuType) : (agesOf (workload tr) t).length = opsOf tr t := by
  rw [opsOf, countP_eq_ages, agesOf, ← List.countP_eq_length_filter]
  rfl

/-! ### The run time -/

/-- A machine that drains a trace fetches. -/
theorem DrainsAt.width_pos {c : ℕ} (h : DrainsAt cfg tr c) (hv : ValidTrace tr) (hne : tr ≠ []) :
    1 ≤ cfg.f := by
  have hempty := (drained_iff hv c).mp h.done
  have hall := ((timeline_inv cfg tr c).empty_done hempty).1
  rw [timeline, run_fetched] at hall
  rcases Nat.eq_zero_or_pos cfg.f with hf | hf
  · have hsize : (workload tr).size = 0 := by
      rw [← hall]
      simp [machine, hf]
    exact absurd (List.eq_nil_of_length_eq_zero hsize) hne
  · exact hf

section Drained

variable {c : ℕ} (h : DrainsAt cfg tr c) (hv : ValidTrace tr)

include h hv

/-- Some chain takes all but the cycles lost to buses and units. -/
theorem DrainsAt.le_chain {i : ℕ} (hi : i ∈ (workload tr).ages) :
    ∃ j l, DepChain tr (j :: l) ∧ (j :: l).getLast? = some i ∧
      (timeline cfg tr c).state i ≤ (timeline cfg tr c).sched j + 2 * (l.length + 1) +
        ((tr.length - 1) / cfg.r + ∑ t, (opsOf tr t - 1) / cfg.k t) := by
  obtain ⟨j, l, hmem, hl, hlast, hle⟩ := exists_critical_chain (m := machine cfg)
    (workload_ordered tr) (fun i hi => (h.state_le hv i hi).1) hi
  simp only [length_agesOf] at hle
  exact ⟨j, l, depChain_iff.mpr ⟨hmem, hl⟩, hlast, hle⟩

variable (hne : tr ≠ [])

include hne

/-- Every chain takes two cycles a member, behind the front end. -/
theorem DrainsAt.chain_le {i j : ℕ} {l : List ℕ} (hl : DepChain tr (j :: l))
    (hlast : (j :: l).getLast? = some i) :
    j ⌈/⌉ cfg.f + 2 + 2 * (l.length + 1) ≤ (timeline cfg tr c).state i := by
  obtain ⟨hmem, hchain⟩ := depChain_iff.mp hl
  have hall := fun i hi => (h.state_le hv i hi).1
  have hle := chain_state_le (m := machine cfg) hall l j hmem hchain hlast
  obtain ⟨hfetch, -, hstate⟩ := fetch_add_le (m := machine cfg)
    (hall j (hmem j (List.mem_cons_self ..)))
  rw [fetch_eq (h.width_pos hv hne) hfetch] at hstate
  change j ⌈/⌉ cfg.f + 4 ≤ _ at hstate
  change _ ≤ (timeline cfg tr c).state i at hle
  rw [← timeline] at hstate hle
  omega

/-- With a slot for every line nobody waits for one. -/
theorem DrainsAt.sched_eq (hslots : tr.length ≤ cfg.scheduleQueueSize) {j : ℕ}
    (hj : j ∈ (workload tr).ages) : (timeline cfg tr c).sched j = j ⌈/⌉ cfg.f + 2 := by
  have hall := fun i hi => (h.state_le hv i hi).1
  have hdisp := (disp_lt_sched ((timeline_inv cfg tr c).state_sched (hall j hj)).1).1
  have hfetch := (timeline_inv cfg tr c).disp_fetch hdisp
  have hsched := Timeline.sched_eq (m := machine cfg) hslots hall hj
  rw [disp_eq hdisp, fetch_eq (h.width_pos hv hne) hfetch] at hsched
  exact hsched

end Drained

/-- **Oldest ready first is good.** Of a nonempty trace some chain of true dependences is to blame
    for the reported cycle count: two cycles for each of its members from the schedule cycle of the
    first one on, and else no more than the buses take for all lines and the units of each array
    for theirs. With a slot for every line the schedule cycle is the turn of the front end. -/
theorem run_time_le (hv : ValidTrace tr) (hne : tr ≠ []) (hd : drained (runProc cfg tr) = true) :
    ∃ j l, DepChain tr (j :: l) ∧ ∃ q ∈ (runProc cfg tr).completedInstructions, q.instNum = j ∧
      statCycleCount (runProc cfg tr) ≤ q.schedCycle + 2 * (l.length + 1) +
        ((tr.length - 1) / cfg.r + ∑ t, (opsOf tr t - 1) / cfg.k t) ∧
      (tr.length ≤ cfg.scheduleQueueSize → q.schedCycle = j ⌈/⌉ cfg.f + 2) := by
  obtain ⟨c, hc, hdrain, heq⟩ := runProc_drainsAt hd
  have h7 := hdrain.seven_le (hdrain.width_pos hv hne) hv hne
  obtain ⟨i, hi, hlast⟩ := hdrain.last_granted (hdrain.width_pos hv hne) hv hne
  obtain ⟨j, l, hl, -, hle⟩ := hdrain.le_chain hv hi
  have hj := (depChain_iff.mp hl).1 j (List.mem_cons_self ..)
  rw [heq, statCycleCount_stateAt (by omega) hc]
  refine ⟨j, l, hl, record tr (timeline cfg tr c) j, ?_, rfl, le_trans (by omega) hle,
    fun hslots => ?_⟩
  · exact (mem_completed_of_empty cfg hv ((drained_iff hv c).mp hdrain.done) _).mpr ⟨j, hj, rfl⟩
  · exact hdrain.sched_eq hv hne hslots hj

set_option maxRecDepth 4000 in
/-- Three lines fetched together share one bus. -/
theorem run_time_le_three : ∃ j l,
    DepChain [⟨4, 0, 5, -1, -1⟩, ⟨8, 1, 6, -1, -1⟩, ⟨12, 2, 7, -1, -1⟩] (j :: l) ∧
      ∃ q ∈ (runProc ⟨1, 1, 1, 1, 3⟩
        [⟨4, 0, 5, -1, -1⟩, ⟨8, 1, 6, -1, -1⟩, ⟨12, 2, 7, -1, -1⟩]).completedInstructions,
        q.instNum = j ∧ statCycleCount (runProc ⟨1, 1, 1, 1, 3⟩
          [⟨4, 0, 5, -1, -1⟩, ⟨8, 1, 6, -1, -1⟩, ⟨12, 2, 7, -1, -1⟩]) ≤
            q.schedCycle + 2 * (l.length + 1) + 2 := by
  obtain ⟨j, l, hl, q, hq, hj, hle, -⟩ := @run_time_le ⟨1, 1, 1, 1, 3⟩
    [⟨4, 0, 5, -1, -1⟩, ⟨8, 1, 6, -1, -1⟩, ⟨12, 2, 7, -1, -1⟩] (by decide) (List.cons_ne_nil _ _)
    (drained_of_length ⟨by decide, by decide, by decide, by decide, by decide⟩ (by decide)
      (by decide))
  exact ⟨j, l, hl, q, hq, hj, hle⟩

/-! ### Resources for the whole trace -/

/-- A bus for every line, and a unit of its array. -/
structure Ample (cfg : Config) (tr : List TraceInst) : Prop where
  buses : tr.length ≤ cfg.r
  units : ∀ t, opsOf tr t ≤ cfg.k t

/-- Every line of a valid trace runs on one array. -/
theorem length_eq_sum (hv : ValidTrace tr) : tr.length = ∑ t, opsOf tr t := by
  induction tr with
  | nil => rfl
  | cons x tr ih =>
    obtain ⟨hx, htr⟩ := List.forall_mem_cons.mp hv
    obtain ⟨k, hk⟩ := hx.kind
    simp only [opsOf] at ih ⊢
    simp only [List.length_cons, ih htr, List.countP_cons, Finset.sum_add_distrib, hk,
      Option.some.injEq, decide_eq_true_eq, Finset.sum_ite_eq, Finset.mem_univ, if_true]

theorem Ample.slots (ha : Ample cfg tr) (hv : ValidTrace tr) :
    tr.length ≤ cfg.scheduleQueueSize := by
  have hsum : ∑ t, cfg.k t = cfg.k0 + (cfg.k1 + cfg.k2) := rfl
  have hle := Finset.sum_le_sum fun t (_ : t ∈ Finset.univ) => ha.units t
  rw [← length_eq_sum hv, hsum] at hle
  rw [Config.scheduleQueueSize]
  omega

/-- Nothing is lost then. -/
theorem Ample.lost (ha : Ample cfg tr) (hne : tr ≠ []) :
    (tr.length - 1) / cfg.r + ∑ t, (opsOf tr t - 1) / cfg.k t = 0 := by
  have hpos := List.length_pos_of_ne_nil hne
  have hbuses := ha.buses
  rw [Nat.div_eq_of_lt (by omega), Nat.zero_add]
  refine Finset.sum_eq_zero fun t _ => ?_
  have hunits := ha.units t
  rcases Nat.eq_zero_or_pos (opsOf tr t) with h0 | h0
  · rw [h0, Nat.zero_sub, Nat.zero_div]
  · rw [Nat.div_eq_of_lt (by omega)]

/-- The times of the chains that end in line `i`, fetched `f` lines a cycle. -/
def chainTimes (f : ℕ) (tr : List TraceInst) (i : ℕ) : Set ℕ :=
  {n | ∃ j l, DepChain tr (j :: l) ∧ (j :: l).getLast? = some i ∧
    j ⌈/⌉ f + 2 + 2 * (l.length + 1) = n}

theorem DrainsAt.longest {c i : ℕ} (h : DrainsAt cfg tr c) (hv : ValidTrace tr) (hne : tr ≠ [])
    (ha : Ample cfg tr) (hi : i ∈ (workload tr).ages) :
    IsGreatest (chainTimes cfg.f tr i) ((timeline cfg tr c).state i) := by
  constructor
  · obtain ⟨j, l, hl, hlast, hle⟩ := h.le_chain hv hi
    have hj := (depChain_iff.mp hl).1 j (List.mem_cons_self ..)
    rw [ha.lost hne, Nat.add_zero, h.sched_eq hv hne (ha.slots hv) hj] at hle
    exact ⟨j, l, hl, hlast, le_antisymm (h.chain_le hv hne hl hlast) hle⟩
  · rintro n ⟨j, l, hl, hlast, rfl⟩
    exact h.chain_le hv hne hl hlast

/-- **The critical path.** With buses and units for the whole of a nonempty valid trace every
    instruction gets its bus when the longest of the chains that end in it allows, two cycles a
    member behind the fetch of the first one; and the reported cycle count is the longest of all. -/
theorem critical_path (hv : ValidTrace tr) (hne : tr ≠ []) (ha : Ample cfg tr)
    (hd : drained (runProc cfg tr) = true) :
    (∀ p ∈ (runProc cfg tr).completedInstructions,
      IsGreatest (chainTimes cfg.f tr p.instNum) p.stateCycle) ∧
    IsGreatest {n | ∃ i, n ∈ chainTimes cfg.f tr i} (statCycleCount (runProc cfg tr)) := by
  obtain ⟨c, hc, hdrain, heq⟩ := runProc_drainsAt hd
  have hmem := mem_completed_of_empty cfg hv ((drained_iff hv c).mp hdrain.done)
  have h7 := hdrain.seven_le (hdrain.width_pos hv hne) hv hne
  rw [heq, statCycleCount_stateAt (by omega) hc]
  refine ⟨fun p hp => ?_, ?_, ?_⟩
  · obtain ⟨i, hi, rfl⟩ := (hmem p).mp hp
    exact hdrain.longest hv hne ha hi
  · obtain ⟨i, hi, hlast⟩ := hdrain.last_granted (hdrain.width_pos hv hne) hv hne
    have hstate : c - 2 = (timeline cfg tr c).state i := by omega
    rw [hstate]
    exact ⟨i, (hdrain.longest hv hne ha hi).1⟩
  · rintro n ⟨i, j, l, hl, hlast, rfl⟩
    have hi := (depChain_iff.mp hl).1 i (List.mem_of_getLast? hlast)
    exact (hdrain.chain_le hv hne hl hlast).trans (hdrain.state_le hv i hi).2

set_option maxRecDepth 4000 in
/-- A chain of three through one register. -/
theorem critical_path_chain : IsGreatest
    {n | ∃ i, n ∈ chainTimes 2 [⟨4, 0, 5, -1, -1⟩, ⟨8, 2, 5, 5, -1⟩, ⟨12, 0, 6, 5, 5⟩] i}
    (statCycleCount (runProc ⟨3, 2, 1, 1, 2⟩
      [⟨4, 0, 5, -1, -1⟩, ⟨8, 2, 5, 5, -1⟩, ⟨12, 0, 6, 5, 5⟩])) :=
  (@critical_path ⟨3, 2, 1, 1, 2⟩ [⟨4, 0, 5, -1, -1⟩, ⟨8, 2, 5, 5, -1⟩, ⟨12, 0, 6, 5, 5⟩]
    (by decide) (List.cons_ne_nil _ _) ⟨by decide, by decide⟩
    (drained_of_length ⟨by decide, by decide, by decide, by decide, by decide⟩ (by decide)
      (by decide))).2

/-- **No machine is faster.** If the trace drains on any machine, then on one that fetches as many
    lines a cycle or more and has buses and units for all; no instruction gets its bus later there,
    and no more cycles are reported. -/
theorem ample_fastest (hv : ValidTrace tr) (hne : tr ≠ []) (ha : Ample cfg tr) {cfg' : Config}
    (hf : cfg'.f ≤ cfg.f) (hd : drained (runProc cfg' tr) = true) :
    drained (runProc cfg tr) = true ∧
    (∀ p ∈ (runProc cfg tr).completedInstructions,
      ∀ q ∈ (runProc cfg' tr).completedInstructions, p.instNum = q.instNum →
        p.stateCycle ≤ q.stateCycle) ∧
    statCycleCount (runProc cfg tr) ≤ statCycleCount (runProc cfg' tr) := by
  obtain ⟨c', hc', hdrain', heq'⟩ := runProc_drainsAt hd
  have hwidth := hdrain'.width_pos hv hne
  have hpos := List.length_pos_of_ne_nil hne
  have hunits : UnitsFor cfg tr := fun x hx t ht =>
    (List.countP_pos_iff.mpr ⟨x, hx, decide_eq_true ht⟩).trans_le (ha.units t)
  obtain ⟨c, hdrain, -⟩ := exists_drainsAt (hpos.trans_le ha.buses) (hwidth.trans hf) hv hunits
  have hchain : ∀ i ∈ (workload tr).ages,
      (timeline cfg tr c).state i ≤ (timeline cfg' tr c').state i := by
    intro i hi
    obtain ⟨j, l, hl, hlast, hn⟩ := (hdrain.longest hv hne ha hi).1
    have hle := hdrain'.chain_le hv hne hl hlast
    have hturn : j ⌈/⌉ cfg.f ≤ j ⌈/⌉ cfg'.f := by
      rw [ceilDiv_le_iff_le_mul (hwidth.trans hf)]
      exact ((ceilDiv_le_iff_le_mul hwidth).mp (le_refl _)).trans (Nat.mul_le_mul_right _ hf)
    omega
  obtain ⟨i, hi, hlast⟩ := hdrain.last_granted (hwidth.trans hf) hv hne
  have hi' := (hdrain'.state_le hv i hi).2
  have h7 := hdrain.seven_le (hwidth.trans hf) hv hne
  have h7' := hdrain'.seven_le hwidth hv hne
  have hle := hchain i hi
  have heq := hdrain.runProc_eq (by omega)
  rw [heq, heq', statCycleCount_stateAt (by omega) (by omega),
    statCycleCount_stateAt (by omega) hc']
  refine ⟨hdrain.done, fun p hp q hq hpq => ?_, by omega⟩
  obtain ⟨i, hi, rfl⟩ :=
    (mem_completed_of_empty cfg hv ((drained_iff hv c).mp hdrain.done) p).mp hp
  obtain ⟨i', -, rfl⟩ :=
    (mem_completed_of_empty cfg' hv ((drained_iff hv c').mp hdrain'.done) q).mp hq
  obtain rfl : i = i' := hpq
  exact hchain i hi

set_option maxRecDepth 4000 in
/-- Units that no line asks for are not missed. -/
theorem ample_fastest_chain :
    statCycleCount (runProc ⟨3, 2, 0, 1, 2⟩
        [⟨4, 0, 5, -1, -1⟩, ⟨8, 2, 5, 5, -1⟩, ⟨12, 0, 6, 5, 5⟩]) ≤
      statCycleCount (runProc ⟨1, 1, 1, 1, 1⟩
        [⟨4, 0, 5, -1, -1⟩, ⟨8, 2, 5, 5, -1⟩, ⟨12, 0, 6, 5, 5⟩]) :=
  (ample_fastest (by decide) (List.cons_ne_nil _ _) ⟨by decide, by decide⟩ (by decide)
    (drained_of_length ⟨by decide, by decide, by decide, by decide, by decide⟩ (by decide)
      (by decide))).2.2

end Procsim
