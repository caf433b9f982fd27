import Ece116c.Procsim.Contents
import Ece116c.Window.Finish

/-! The loop of `run_proc` without its guard always drains, and what the guard does to long runs. -/

namespace Procsim
open Window

variable {cfg : Config} {tr : List TraceInst}

/-- In cycle `c`, from `s` to `s'`, some instruction is fetched, dispatched, scheduled, fired or
    given a bus (it carries the stamp), or some instruction is broadcast. -/
def Active (c : ℕ) (s s' : Proc) : Prop :=
  (∃ p ∈ s'.instructions, p.fetchCycle = c ∨ p.dispCycle = c ∨ p.schedCycle = c ∨
      p.execCycle = c ∨ p.stateCycle = c) ∨
    s.totalInstRetired < s'.totalInstRetired

/-- Every unit kind the trace uses has a unit. -/
def UnitsFor (cfg : Config) (tr : List TraceInst) : Prop :=
  ∀ t ∈ tr, ∀ k, getFuUnits t.opCode = some k → 1 ≤ cfg.k k

theorem Config.Pos.unitsFor (h : cfg.Pos) : UnitsFor cfg tr := fun _ _ k _ => h.k_pos k

theorem Config.k_le_slots (cfg : Config) : ∀ t, cfg.k t ≤ cfg.scheduleQueueSize := by
  rintro (_ | _ | _) <;> simp only [Config.k, Config.scheduleQueueSize] <;> omega

theorem machine_serves (hr : 1 ≤ cfg.r) (hf : 1 ≤ cfg.f) (hv : ValidTrace tr)
    (hk : UnitsFor cfg tr) : Timeline.Serves (machine cfg) (workload tr) := by
  have hunits : ∀ i, 1 ≤ i → i ≤ tr.length → ∃ t, (workload tr).kind i = some t ∧ 1 ≤ cfg.k t := by
    intro i h1 hi
    obtain ⟨t, ht⟩ := hv.kind i
    exact ⟨t, ht, hk _ (inst_mem h1 hi) t ht⟩
  refine ⟨hr, hf, fun hn => ?_, hunits, workload_ordered tr⟩
  obtain ⟨t, -, ht⟩ := hunits 1 (le_refl 1) (Nat.one_le_iff_ne_zero.mpr hn)
  exact ht.trans (cfg.k_le_slots t)

/-- A move of the abstract machine shows in the globals. -/
theorem active_of_moves (hv : ValidTrace tr) {c : ℕ}
    (h : Timeline.Moves (machine cfg) (workload tr) c) :
    Active (c + 1) (stateAt cfg tr c) (stateAt cfg tr (c + 1)) := by
  have hrep := stateAt_rep cfg hv (c + 1)
  have hinv := timeline_inv cfg tr (c + 1)
  have hS := hinv.scheduled_le
  have hD := hinv.dispatched_le
  have hmem : ∀ i, 1 ≤ i → i ≤ (timeline cfg tr (c + 1)).fetched →
      record tr (timeline cfg tr (c + 1)) i ∈ (stateAt cfg tr (c + 1)).instructions :=
    fun i h1 hi => (hrep.mem_instructions hinv _).mpr ⟨i, h1, hi, rfl⟩
  rcases h with h | h | h | ⟨i, h⟩ | ⟨i, h⟩ | h
  · exact Or.inl ⟨_, hmem _ (Nat.le_add_left 1 _) h,
      Or.inl ((Timeline.run_succ_fetch _ _ c _).trans (if_pos ⟨Nat.lt_succ_self _, h⟩))⟩
  · exact Or.inl ⟨_, hmem _ (Nat.le_add_left 1 _) (Nat.le_trans h hD),
      Or.inr (Or.inl ((Timeline.run_succ_disp _ _ c _).trans (if_pos ⟨Nat.lt_succ_self _, h⟩)))⟩
  · refine Or.inl ⟨_, hmem _ (Nat.le_add_left 1 _) (Nat.le_trans h (hS.trans hD)),
      Or.inr (Or.inr (Or.inl ?_))⟩
    exact (Timeline.run_succ_sched _ _ c _).trans (if_pos ⟨Nat.lt_succ_self _, h⟩)
  · have hx := hinv.exec_sched i (by rw [timeline, h]; exact Nat.succ_ne_zero c)
    exact Or.inl ⟨_, hmem i hx.1 (by omega), Or.inr (Or.inr (Or.inr (Or.inl h)))⟩
  · have hx := hinv.exec_sched i
      (hinv.state_exec i (by rw [timeline, h]; exact Nat.succ_ne_zero c)).1
    exact Or.inl ⟨_, hmem i hx.1 (by omega), Or.inr (Or.inr (Or.inr (Or.inr h)))⟩
  · refine Or.inr ?_
    rw [hrep.totalInstRetired, (stateAt_rep cfg hv c).totalInstRetired]
    exact h

/-- The guardless loop drains within six cycles an instruction and one more. -/
theorem exists_drainsAt (hr : 1 ≤ cfg.r) (hf : 1 ≤ cfg.f) (hv : ValidTrace tr)
    (hk : UnitsFor cfg tr) : ∃ c, DrainsAt cfg tr c ∧ c ≤ 6 * tr.length + 1 := by
  have hm := machine_serves hr hf hv hk
  obtain ⟨c, h1, hle, hd, hfirst⟩ := Runs.exists_first
    (P := fun c => drained (stateAt cfg tr c) = true)
    (f := fun c => (timeline cfg tr c).stages (workload tr)) (B := 6 * tr.length)
    (fun c => (timeline_inv cfg tr c).stages_le)
    (fun c => (Timeline.moves_or_empty hm c).imp Timeline.Moves.stages_lt (drained_iff hv _).mpr)
  exact ⟨c, ⟨h1, hd, fun c' h h' => Bool.eq_false_iff.mpr (hfirst c' h h')⟩, hle⟩

/-- Before the exit every cycle is active. -/
theorem DrainsAt.active (hr : 1 ≤ cfg.r) (hf : 1 ≤ cfg.f) (hv : ValidTrace tr)
    (hk : UnitsFor cfg tr) {c : ℕ} (h : DrainsAt cfg tr c) {c' : ℕ} (hc : c' + 1 < c) :
    Active (c' + 1) (stateAt cfg tr c') (stateAt cfg tr (c' + 1)) := by
  rcases Timeline.moves_or_empty (machine_serves hr hf hv hk) c' with hmoves | hempty
  · exact active_of_moves hv hmoves
  · have hno := h.first (c' + 1) (Nat.le_add_left 1 c') hc
    rw [(drained_iff hv (c' + 1)).mpr hempty] at hno
    cases hno

/-- A trace that is not too long drains before the guard. -/
theorem drained_of_length (hp : cfg.Pos) (hv : ValidTrace tr)
    (hn : 6 * tr.length + 1 ≤ cycleLimit + 1) : drained (runProc cfg tr) = true := by
  obtain ⟨c, hd, hle⟩ := exists_drainsAt hp.r hp.f hv hp.unitsFor
  rw [hd.runProc_eq (hle.trans hn)]
  exact hd.done

/-- Deadlock freedom with a bound: the loop without the guard drains after at most `6 * n + 1`
    cycles, every earlier cycle is active, and for `6 * n + 1 ≤ 200001` it is the drained exit that
    ends `run_proc`. -/
theorem runProc_deadlock_free (hr : 1 ≤ cfg.r) (hf : 1 ≤ cfg.f) (hv : ValidTrace tr)
    (hk : UnitsFor cfg tr) :
    ∃ c, DrainsAt cfg tr c ∧ c ≤ 6 * tr.length + 1 ∧
      (∀ c', c' + 1 < c → Active (c' + 1) (stateAt cfg tr c') (stateAt cfg tr (c' + 1))) ∧
      (6 * tr.length + 1 ≤ 200001 →
        runProc cfg tr = stateAt cfg tr c ∧ drained (runProc cfg tr) = true) := by
  obtain ⟨c, hd, hle⟩ := exists_drainsAt hr hf hv hk
  refine ⟨c, hd, hle, fun c' hc => hd.active hr hf hv hk hc, fun hn => ?_⟩
  have heq := hd.runProc_eq (hle.trans hn)
  exact ⟨heq, by rw [heq]; exact hd.done⟩

/-- A chain through one register on a machine without `k0` and `k2` units. -/
theorem runProc_deadlock_free_chain :
    ∃ c, DrainsAt ⟨1, 0, 1, 0, 1⟩ [⟨4, 1, 5, -1, -1⟩, ⟨8, -1, 5, 5, -1⟩] c ∧ c ≤ 13 ∧
      (∀ c', c' + 1 < c → Active (c' + 1)
        (stateAt ⟨1, 0, 1, 0, 1⟩ [⟨4, 1, 5, -1, -1⟩, ⟨8, -1, 5, 5, -1⟩] c')
        (stateAt ⟨1, 0, 1, 0, 1⟩ [⟨4, 1, 5, -1, -1⟩, ⟨8, -1, 5, 5, -1⟩] (c' + 1))) ∧
      runProc ⟨1, 0, 1, 0, 1⟩ [⟨4, 1, 5, -1, -1⟩, ⟨8, -1, 5, 5, -1⟩] =
        stateAt ⟨1, 0, 1, 0, 1⟩ [⟨4, 1, 5, -1, -1⟩, ⟨8, -1, 5, 5, -1⟩] c ∧
      drained (runProc ⟨1, 0, 1, 0, 1⟩ [⟨4, 1, 5, -1, -1⟩, ⟨8, -1, 5, 5, -1⟩]) = true := by
  have hk : UnitsFor ⟨1, 0, 1, 0, 1⟩ [⟨4, 1, 5, -1, -1⟩, ⟨8, -1, 5, 5, -1⟩] := by
    unfold UnitsFor; decide
  obtain ⟨c, hd, hle, hact, hend⟩ := runProc_deadlock_free (by decide) (by decide) (by decide) hk
  exact ⟨c, hd, hle, hact, hend (by decide)⟩

/-! ### The guard -/

/-- Nothing is left to broadcast once the loop has drained. -/
theorem retired_of_drained (hv : ValidTrace tr) {c : ℕ}
    (hd : drained (stateAt cfg tr c) = true) :
    (stateAt cfg tr c).totalInstRetired = tr.length := by
  have hempty := (drained_iff hv c).mp hd
  rw [(stateAt_rep cfg hv c).totalInstRetired,
    ((timeline_inv cfg tr c).empty_announced hempty).length_eq]
  exact Timeline.length_ages

/-- Instructions behind the front end cannot have retired. -/
theorem retired_le (cfg : Config) (hv : ValidTrace tr) (c : ℕ) :
    (stateAt cfg tr c).totalInstRetired ≤ (c - 2) * cfg.f := by
  rw [(stateAt_rep cfg hv c).totalInstRetired]
  exact (timeline_inv cfg tr c).announced_length_le_scheduled.trans
    (Timeline.run_scheduled_le _ _ c)

/-- What the front end lets through before the guard. -/
theorem runProc_retired_le (cfg : Config) (hv : ValidTrace tr) :
    (runProc cfg tr).totalInstRetired ≤ (cycleLimit - 1) * cfg.f := by
  obtain ⟨e, -, he, heq, -⟩ := runProc_eq cfg tr
  rw [heq]
  exact (retired_le cfg hv e).trans (Nat.mul_le_mul_right cfg.f (by omega))

theorem runProc_retired_iff (hp : cfg.Pos) (hv : ValidTrace tr) :
    (runProc cfg tr).totalInstRetired = tr.length ↔
      ∃ d, d ≤ cycleLimit + 2 ∧ DrainsAt cfg tr d := by
  obtain ⟨e, h1, he, heq, hfirst, hstop⟩ := runProc_eq cfg tr
  have hrep := stateAt_rep cfg hv
  constructor
  · intro hret
    by_cases hd : drained (stateAt cfg tr e) = true
    · exact ⟨e, by omega, h1, hd, hfirst⟩
    · -- the guard fires right behind the last broadcast
      obtain rfl := hstop.resolve_left hd
      rw [heq, (hrep _).totalInstRetired] at hret
      have hempty := Timeline.empty_of_announced (m := machine cfg) (w := workload tr) hp.f hret
      refine ⟨cycleLimit + 2, le_refl _, Nat.le_add_left 1 _, (drained_iff hv _).mpr hempty,
        fun c' h h' => ?_⟩
      rcases Nat.lt_or_eq_of_le (Nat.le_of_lt_succ h') with hlt | hlast
      · exact hfirst c' h hlt
      · rw [hlast]; exact Bool.eq_false_iff.mpr hd
  · rintro ⟨d, hle, hd⟩
    rcases Nat.lt_or_eq_of_le hle with hlt | rfl
    · rw [hd.runProc_eq (Nat.le_of_lt_succ hlt)]
      exact retired_of_drained hv hd.done
    · have hlast : e = cycleLimit + 1 := by
        rcases hstop with hdone | hdone
        · rw [hd.first e h1 (Nat.lt_succ_of_le he)] at hdone; cases hdone
        · exact hdone
      rw [heq, hlast, (hrep _).totalInstRetired]
      exact Timeline.announced_of_empty ((drained_iff hv _).mp hd.done)

/-- The guard ends the run, and the next cycle would have moved something. -/
def GuardStops (cfg : Config) (tr : List TraceInst) : Prop :=
  drained (runProc cfg tr) = false ∧
    Active (cycleLimit + 2) (runProc cfg tr) (cycle cfg (runProc cfg tr))

/-- In the cycle in which the machine drains nothing moves. -/
theorem not_active_of_empty (hv : ValidTrace tr) {c : ℕ} (he : (timeline cfg tr (c + 1)).Empty) :
    ¬Active (c + 1) (stateAt cfg tr c) (stateAt cfg tr (c + 1)) := by
  have hrep := stateAt_rep cfg hv (c + 1)
  have hinv := timeline_inv cfg tr (c + 1)
  rintro (⟨p, hp, hstamp⟩ | hret)
  · obtain ⟨i, h1, hi, rfl⟩ := (hrep.mem_instructions hinv p).mp hp
    have hage : i ∈ (workload tr).ages := Timeline.mem_ages.mpr ⟨h1, hi.trans hinv.fetched_le⟩
    obtain ⟨hs, hlast⟩ := Timeline.state_le_of_empty he hage
    have hstages := Timeline.stages_lt (m := machine cfg) hs
    simp only [record, timeline] at hstamp hlast hstages
    omega
  · rw [retired_of_drained hv ((drained_iff hv _).mpr he), (stateAt_rep cfg hv c).totalInstRetired]
      at hret
    have hall := Timeline.announced_of_empty he
    change (timeline cfg tr c).announced.length = tr.length at hall
    omega

theorem guardStops_iff (hp : cfg.Pos) (hv : ValidTrace tr) :
    GuardStops cfg tr ↔ ¬∃ d, d ≤ cycleLimit + 2 ∧ DrainsAt cfg tr d := by
  obtain ⟨e, h1, he, heq, hfirst, hstop⟩ := runProc_eq cfg tr
  constructor
  · rintro ⟨hno, hactive⟩ ⟨d, hle, hd⟩
    rcases Nat.lt_or_eq_of_le hle with hlt | rfl
    · rw [hd.runProc_eq (Nat.le_of_lt_succ hlt), hd.done] at hno
      cases hno
    · rw [heq] at hno hactive
      obtain rfl := hstop.resolve_left (Bool.eq_false_iff.mp hno)
      exact not_active_of_empty hv ((drained_iff hv _).mp hd.done) hactive
  · intro hlate
    obtain ⟨d, hd, -⟩ := exists_drainsAt hp.r hp.f hv hp.unitsFor
    have hlt : cycleLimit + 2 < d := Nat.lt_of_not_le fun hle => hlate ⟨d, hle, hd⟩
    have hno := hd.first e h1 (by omega)
    obtain rfl := hstop.resolve_left (Bool.eq_false_iff.mp hno)
    rw [GuardStops, heq]
    exact ⟨hno, hd.active hp.r hp.f hv hp.unitsFor hlt⟩

/-- The condition on the abstract machine, which stays empty once it is. -/
theorem exists_drainsAt_iff (hf : 1 ≤ cfg.f) (hv : ValidTrace tr) {c : ℕ} (hc : 1 ≤ c) :
    (∃ d, d ≤ c ∧ DrainsAt cfg tr d) ↔ (timeline cfg tr c).Empty := by
  constructor
  · rintro ⟨d, hle, hd⟩
    exact Timeline.empty_mono (m := machine cfg) hf ((drained_iff hv d).mp hd.done) hle
  · intro he
    have hex : ∃ d, 1 ≤ d ∧ drained (stateAt cfg tr d) = true := ⟨c, hc, (drained_iff hv c).mpr he⟩
    classical
    obtain ⟨h1, hd⟩ := Nat.find_spec hex
    refine ⟨Nat.find hex, Nat.find_min' hex ⟨hc, (drained_iff hv c).mpr he⟩, h1, hd,
      fun c' h h' => ?_⟩
    exact Bool.eq_false_iff.mpr fun hdone => Nat.find_min hex h' ⟨h, hdone⟩

/-- `run_proc` returns with everything retired exactly when the loop without the guard drains by
    cycle 200002, that is, when the machine of the timeline is empty then; and otherwise, and only
    then, the guard ends the run while something still moves. So it is for every trace whose bound
    in `exists_drainsAt` is below the guard's, and for none that the front end cannot let through
    in time. -/
theorem retired_all_iff_drains (hp : cfg.Pos) (hv : ValidTrace tr) :
    ((runProc cfg tr).totalInstRetired = tr.length ↔
      ∃ d, d ≤ cycleLimit + 2 ∧ DrainsAt cfg tr d) ∧
    (¬GuardStops cfg tr ↔ ∃ d, d ≤ cycleLimit + 2 ∧ DrainsAt cfg tr d) ∧
    ((∃ d, d ≤ cycleLimit + 2 ∧ DrainsAt cfg tr d) ↔ (timeline cfg tr (cycleLimit + 2)).Empty) ∧
    (6 * tr.length + 1 ≤ cycleLimit + 1 → (runProc cfg tr).totalInstRetired = tr.length) ∧
    ((cycleLimit - 1) * cfg.f < tr.length → (runProc cfg tr).totalInstRetired ≠ tr.length) := by
  refine ⟨runProc_retired_iff hp hv, not_iff_comm.mp (guardStops_iff hp hv).symm,
    exists_drainsAt_iff hp.f hv (Nat.le_add_left 1 _), fun hn => ?_, fun hn => ?_⟩
  · obtain ⟨d, hd, hle⟩ := exists_drainsAt hp.r hp.f hv hp.unitsFor
    exact (runProc_retired_iff hp hv).mpr ⟨d, by omega, hd⟩
  · have hle := runProc_retired_le cfg hv
    omega

/-- Two instructions are far below the guard. -/
theorem retired_all_iff_drains_pair :
    (runProc ⟨1, 1, 1, 1, 1⟩ [⟨4, 0, 5, -1, -1⟩, ⟨8, 2, 6, 5, 5⟩]).totalInstRetired = 2 ∧
      ¬GuardStops ⟨1, 1, 1, 1, 1⟩ [⟨4, 0, 5, -1, -1⟩, ⟨8, 2, 6, 5, 5⟩] ∧
      ∃ d, d ≤ cycleLimit + 2 ∧
        DrainsAt ⟨1, 1, 1, 1, 1⟩ [⟨4, 0, 5, -1, -1⟩, ⟨8, 2, 6, 5, 5⟩] d := by
  obtain ⟨hiff, hguard, -, hshort, -⟩ := @retired_all_iff_drains ⟨1, 1, 1, 1, 1⟩
    [⟨4, 0, 5, -1, -1⟩, ⟨8, 2, 6, 5, 5⟩] ⟨by decide, by decide, by decide, by decide, by decide⟩
    (by decide)
  have hret := hshort (by decide)
  exact ⟨hret, hguard.mpr (hiff.mp hret), hiff.mp hret⟩

/-- 200001 independent instructions on the smallest machine: the guard ends the run while something
    moves, not everything has retired, and the loop would drain. -/
theorem guard_cuts_long_trace :
    Config.Pos ⟨1, 1, 1, 1, 1⟩ ∧ ValidTrace (List.replicate 200001 ⟨0, 0, -1, -1, -1⟩) ∧
      (runProc ⟨1, 1, 1, 1, 1⟩ (List.replicate 200001 ⟨0, 0, -1, -1, -1⟩)).totalInstRetired ≠
        (List.replicate 200001 (⟨0, 0, -1, -1, -1⟩ : TraceInst)).length ∧
      GuardStops ⟨1, 1, 1, 1, 1⟩ (List.replicate 200001 ⟨0, 0, -1, -1, -1⟩) ∧
      ∃ d, DrainsAt ⟨1, 1, 1, 1, 1⟩ (List.replicate 200001 ⟨0, 0, -1, -1, -1⟩) d := by
  have hp : Config.Pos ⟨1, 1, 1, 1, 1⟩ := ⟨by decide, by decide, by decide, by decide, by decide⟩
  have hv : ValidTrace (List.replicate 200001 ⟨0, 0, -1, -1, -1⟩) := by
    intro t ht
    rw [List.eq_of_mem_replicate ht]
    decide
  obtain ⟨d, hd, -⟩ := exists_drainsAt hp.r hp.f hv hp.unitsFor
  have hret :
      (runProc ⟨1, 1, 1, 1, 1⟩ (List.replicate 200001 ⟨0, 0, -1, -1, -1⟩)).totalInstRetired ≠
        (List.replicate 200001 (⟨0, 0, -1, -1, -1⟩ : TraceInst)).length := by
    have hle : _ ≤ (cycleLimit - 1) * 1 := runProc_retired_le ⟨1, 1, 1, 1, 1⟩ hv
    have hlim : cycleLimit = 200000 := rfl
    rw [List.length_replicate]
    omega
  exact ⟨hp, hv, hret, (guardStops_iff hp hv).mpr (mt (runProc_retired_iff hp hv).mpr hret), d, hd⟩

end Procsim
