import Ece116c.Procsim.Liveness

/-! Of the registers only the true dependences matter: a reader waits for its nearest earlier
    writer, and for nothing else. -/

namespace Procsim
open Window

variable {cfg : Config} {tr : List TraceInst}

/-! ### True dependences are kept -/

theorem producer_eq {i p : ℕ} {s : Fin 2} (hs : (inst tr i).srcReg s ≠ -1) (hp : 1 ≤ p)
    (hpi : p < i) (hd : (inst tr p).destReg = (inst tr i).srcReg s)
    (hlast : ∀ q, p < q → q < i → (inst tr q).destReg ≠ (inst tr i).srcReg s) :
    producer tr s i = p := by
  rw [producer, if_neg hs]
  exact lastWriter_eq hp (by omega) hd fun q hq hqi => hlast q hq (by omega)

/-- A completed instruction fired after the nearest earlier writer of each of its sources had got
    its bus, whoever else writes the register. -/
theorem source_writer_first (hv : ValidTrace tr) (c : ℕ) :
    ∀ i ∈ (stateAt cfg tr c).completedInstructions, ∀ s : Fin 2, i.srcReg s ≠ -1 →
      ∀ p, 1 ≤ p → p < i.instNum → (inst tr p).destReg = i.srcReg s →
        (∀ q, p < q → q < i.instNum → (inst tr q).destReg ≠ i.srcReg s) →
          ∃ pi ∈ (stateAt cfg tr c).completedInstructions, pi.instNum = p ∧
            pi.toTraceInst = inst tr p ∧ pi.stateCycle ≠ 0 ∧ pi.stateCycle + 1 ≤ i.execCycle := by
  intro i hi s hs p hp hpi hd hlast
  have h := stateAt_rep cfg hv c
  have hinv := timeline_inv cfg tr c
  obtain ⟨n, hst, hlt, rfl⟩ := (h.mem_completed hinv i).mp hi
  have hprod : producer tr s n = p := producer_eq hs hp hpi hd hlast
  have hexec := (hinv.state_exec n hst).1
  have hdep := hinv.deps n hexec p ((mem_deps tr n p).mpr ⟨by omega, s, hprod.symm⟩)
  have hle := hinv.exec_le n
  refine ⟨record tr (timeline cfg tr c) p, ?_, rfl, rfl, hdep.1, hdep.2⟩
  exact (h.mem_completed hinv _).mpr ⟨p, hdep.1, by omega, rfl⟩

set_option maxRecDepth 4000 in
/-- The third instruction reads what the second wrote, on top of the first. -/
theorem source_writer_first_writers :
    ∃ pi ∈ (stateAt ⟨1, 1, 1, 1, 2⟩
        [⟨4, 0, 5, -1, -1⟩, ⟨8, 2, 5, 5, -1⟩, ⟨12, 0, 6, 5, 5⟩] 10).completedInstructions,
      pi.instNum = 2 ∧ pi.toTraceInst = ⟨8, 2, 5, 5, -1⟩ ∧ pi.stateCycle ≠ 0 ∧
        pi.stateCycle + 1 ≤ 8 :=
  source_writer_first (by decide) 10 ⟨⟨12, 0, 6, 5, 5⟩, 3, 2, 3, 4, 8, 9⟩ (by decide) 0 (by decide)
    2 (by decide) (by decide) (by decide) fun q h1 h2 => absurd (show q < 3 from h2) (by omega)

/-! ### There are no other dependences -/

/-- The number of an instruction and its five cycles. -/
def ProcInst.timing (p : ProcInst) : ℕ × ℕ × ℕ × ℕ × ℕ × ℕ :=
  (p.instNum, p.fetchCycle, p.dispCycle, p.schedCycle, p.execCycle, p.stateCycle)

theorem inst_of_gt {i : ℕ} (h : tr.length < i) : inst tr i = default := by
  rw [inst, List.getD_eq_getElem?_getD, List.getElem?_eq_none (by omega)]
  rfl

theorem producer_of_gt {i : ℕ} (h : tr.length < i) : ∀ s, producer tr s i = 0
  | 0 => by rw [producer, inst_of_gt h]; rfl
  | 1 => by rw [producer, inst_of_gt h]; rfl

theorem producer_at_zero (s : Fin 2) : producer tr s 0 = 0 := by
  rw [producer]
  split <;> rfl

/-- Two traces with the same unit kinds and producers are the same workload. -/
theorem workload_congr {tr' : List TraceInst} (hlen : tr.length = tr'.length)
    (hkind : ∀ i, 1 ≤ i → i ≤ tr.length →
      getFuUnits (inst tr i).opCode = getFuUnits (inst tr' i).opCode)
    (hprod : ∀ i, 1 ≤ i → i ≤ tr.length → ∀ s, producer tr s i = producer tr' s i) :
    workload tr = workload tr' := by
  have hk : ∀ i, getFuUnits (inst tr i).opCode = getFuUnits (inst tr' i).opCode := by
    intro i
    rcases Nat.lt_or_ge tr.length i with hgt | hle
    · rw [inst_of_gt hgt, inst_of_gt (hlen ▸ hgt)]
    · cases i with
      | zero =>
        -- tag 0 reads the first line as well
        change getFuUnits (inst tr 1).opCode = getFuUnits (inst tr' 1).opCode
        rcases Nat.lt_or_ge tr.length 1 with hgt | hle
        · rw [inst_of_gt hgt, inst_of_gt (hlen ▸ hgt)]
        · exact hkind 1 (le_refl 1) hle
      | succ i => exact hkind (i + 1) (Nat.le_add_left 1 i) hle
  have hp : ∀ i s, producer tr s i = producer tr' s i := by
    intro i s
    rcases Nat.lt_or_ge tr.length i with hgt | hle
    · rw [producer_of_gt hgt, producer_of_gt (hlen ▸ hgt)]
    · cases i with
      | zero => rw [producer_at_zero, producer_at_zero]
      | succ i => exact hprod (i + 1) (Nat.le_add_left 1 i) hle s
  simp only [workload, hlen, hk, hp]

/-- Runs of the same workload return at the same cycle. -/
theorem runProc_same_cycle (cfg : Config) {tr' : List TraceInst} (hv : ValidTrace tr)
    (hv' : ValidTrace tr') (hw : workload tr = workload tr') :
    ∃ e, runProc cfg tr = stateAt cfg tr e ∧ runProc cfg tr' = stateAt cfg tr' e := by
  obtain ⟨e, h1, he, heq, hfirst, hstop⟩ := runProc_eq cfg tr
  obtain ⟨e', h1', he', heq', hfirst', hstop'⟩ := runProc_eq cfg tr'
  have hsame : ∀ c, drained (stateAt cfg tr c) = drained (stateAt cfg tr' c) := by
    intro c
    rw [Bool.eq_iff_iff, drained_iff hv, drained_iff hv', timeline, timeline, hw]
  refine ⟨e, heq, ?_⟩
  rcases Nat.lt_trichotomy e e' with hlt | rfl | hlt
  · have hno := hfirst' e h1 hlt
    rcases hstop with hd | hd
    · rw [hsame, hno] at hd; cases hd
    · omega
  · exact heq'
  · have hno := hfirst e' h1' hlt
    rcases hstop' with hd | hd
    · rw [← hsame, hno] at hd; cases hd
    · omega

/-- Unit kinds and producers decide the timing: register numbers, results nobody reads and
    addresses have no influence. -/
theorem timing_of_dependences {tr' : List TraceInst} (hv : ValidTrace tr) (hv' : ValidTrace tr')
    (hlen : tr.length = tr'.length)
    (hkind : ∀ i, 1 ≤ i → i ≤ tr.length →
      getFuUnits (inst tr i).opCode = getFuUnits (inst tr' i).opCode)
    (hprod : ∀ i, 1 ≤ i → i ≤ tr.length → ∀ s, producer tr s i = producer tr' s i) :
    (runProc cfg tr).instructions.map ProcInst.timing =
        (runProc cfg tr').instructions.map ProcInst.timing ∧
      (runProc cfg tr).completedInstructions.map ProcInst.timing =
        (runProc cfg tr').completedInstructions.map ProcInst.timing ∧
      (runProc cfg tr).cycleCount = (runProc cfg tr').cycleCount ∧
      (runProc cfg tr).totalInstFired = (runProc cfg tr').totalInstFired ∧
      (runProc cfg tr).totalInstRetired = (runProc cfg tr').totalInstRetired ∧
      (runProc cfg tr).totalDispatchSize = (runProc cfg tr').totalDispatchSize ∧
      (runProc cfg tr).maxDispatchSize = (runProc cfg tr').maxDispatchSize := by
  have hw := workload_congr hlen hkind hprod
  obtain ⟨e, heq, heq'⟩ := runProc_same_cycle cfg hv hv' hw
  have h := stateAt_rep cfg hv e
  have h' := stateAt_rep cfg hv' e
  have hT : timeline cfg tr' e = timeline cfg tr e := by rw [timeline, timeline, hw]
  rw [hT] at h'
  rw [heq, heq', h.instructions, h'.instructions, h.completedInstructions,
    h'.completedInstructions, h.totalInstFired, h'.totalInstFired, h.totalInstRetired,
    h'.totalInstRetired, h.totalDispatchSize, h'.totalDispatchSize, h.maxDispatchSize,
    h'.maxDispatchSize, stateAt_cycleCount, stateAt_cycleCount, List.map_map, List.map_map,
    List.map_map, List.map_map]
  exact ⟨rfl, rfl, rfl, rfl, rfl, rfl, rfl⟩

/-- A second writer of the register and a source nobody wrote change nothing. -/
theorem timing_of_dependences_pair :
    (runProc ⟨1, 1, 1, 1, 1⟩ [⟨4, 0, 5, -1, -1⟩, ⟨8, 1, 6, 5, -1⟩]).instructions.map
        ProcInst.timing =
      (runProc ⟨1, 1, 1, 1, 1⟩ [⟨100, 0, 7, -1, 3⟩, ⟨104, -1, 7, 7, 9⟩]).instructions.map
        ProcInst.timing := by
  have hv : ValidTrace [⟨4, 0, 5, -1, -1⟩, ⟨8, 1, 6, 5, -1⟩] := by decide
  have hv' : ValidTrace [⟨100, 0, 7, -1, 3⟩, ⟨104, -1, 7, 7, 9⟩] := by decide
  have hkind : ∀ i, 1 ≤ i → i ≤ 2 →
      getFuUnits (inst [⟨4, 0, 5, -1, -1⟩, ⟨8, 1, 6, 5, -1⟩] i).opCode =
        getFuUnits (inst [⟨100, 0, 7, -1, 3⟩, ⟨104, -1, 7, 7, 9⟩] i).opCode := by
    intro i h1 h2
    obtain rfl | rfl : i = 1 ∨ i = 2 := by omega
    · decide
    · decide
  have hprod : ∀ i, 1 ≤ i → i ≤ 2 → ∀ s,
      producer [⟨4, 0, 5, -1, -1⟩, ⟨8, 1, 6, 5, -1⟩] s i =
        producer [⟨100, 0, 7, -1, 3⟩, ⟨104, -1, 7, 7, 9⟩] s i := by
    intro i h1 h2
    obtain rfl | rfl : i = 1 ∨ i = 2 := by omega
    · decide
    · decide
  exact (timing_of_dependences hv hv' rfl hkind hprod).1

end Procsim
