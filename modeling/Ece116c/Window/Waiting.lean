import Ece116c.Window.FrontEnd

/-! Who waits between dispatch and window, told by the stamps of a later cycle: the samples of all
    cycles add up to the waiting times of all instructions. -/

namespace Window
open Lists

namespace Timeline

variable {κ : Type*} [DecidableEq κ] {m : Machine κ} {w : Workload κ} {c d : ℕ}

/-- How many instructions waited in cycle `c`. -/
def waitingIn (w : Workload κ) (T : Timeline) (c : ℕ) : ℕ :=
  w.ages.countP fun i => decide (T.disp i ≤ c ∧ c < T.sched i)

/-- It is the number that is sampled. -/
theorem waitingIn_eq (hall : ∀ i ∈ w.ages, (run m w d).sched i ≠ 0) (hd : c ≤ d) :
    (run m w d).waitingIn w c = (run m w c).dispatched - (run m w c).scheduled := by
  have hinv := run_inv m w c
  have hD := hinv.dispatched_le
  have hF := hinv.fetched_le
  have hlen := countP_eq_length (ages_nodup (w := w))
    (List.nodup_range' (s := (run m w c).scheduled + 1)
      (n := (run m w c).dispatched - (run m w c).scheduled))
    (p := fun i => decide ((run m w d).disp i ≤ c ∧ c < (run m w d).sched i)) ?_
  · rw [waitingIn, hlen, List.length_range']
  intro i
  rw [List.mem_range'_1, mem_ages, decide_eq_true_eq]
  have hdisp := dispatched_by m w (i := i) hd
  have hsched := scheduled_by m w (i := i) hd
  constructor
  · intro hi
    have hs := hall i (mem_ages.mpr (by omega))
    omega
  · rintro ⟨hage, hdc, hcs⟩
    have hd0 := (disp_lt_sched (hall i (mem_ages.mpr hage))).1
    omega

/-- Once everybody is in the window nobody waits. -/
theorem waitingIn_of_gt (hd : d ≤ c) : (run m w d).waitingIn w c = 0 := by
  refine List.countP_eq_zero.mpr fun i _ hi => ?_
  rw [decide_eq_true_eq] at hi
  have := (run_inv m w d).sched_le i
  omega

/-- The sum of the samples up to cycle `c` is the time waited up to its end. -/
theorem run_waitSum (hall : ∀ i ∈ w.ages, (run m w d).sched i ≠ 0) (hd : c ≤ d) :
    (run m w c).waitSum =
      (w.ages.map fun i => min (c + 1) ((run m w d).sched i) - (run m w d).disp i).sum := by
  induction c with
  | zero =>
    refine (List.sum_eq_zero_iff_forall_eq_nat.mpr fun n hn => ?_).symm
    obtain ⟨i, hi, rfl⟩ := List.mem_map.mp hn
    have := disp_lt_sched (hall i hi)
    omega
  | succ c ih =>
    have hw : (issuedAt m w c).waitSum = (run m w c).waitSum := issue_waitSum ..
    have hc := waitingIn_eq hall hd
    rw [waitingIn] at hc
    rw [sum_spans_succ, ← ih (by omega), hc, ← hw]
    rfl

/-- The largest sample up to cycle `c`. -/
theorem run_waitMax (c : ℕ) :
    IsGreatest {n | ∃ b ≤ c, (run m w b).dispatched - (run m w b).scheduled = n}
      (run m w c).waitMax := by
  induction c with
  | zero =>
    refine ⟨⟨0, le_refl 0, rfl⟩, ?_⟩
    rintro n ⟨b, hb, rfl⟩
    rw [Nat.le_zero.mp hb]
    exact le_refl _
  | succ c ih =>
    obtain ⟨⟨b, hb, hmax⟩, hle⟩ := ih
    have hstep : (run m w (c + 1)).waitMax =
        if (run m w c).waitMax < (run m w (c + 1)).dispatched - (run m w (c + 1)).scheduled
        then (run m w (c + 1)).dispatched - (run m w (c + 1)).scheduled
        else (run m w c).waitMax := by
      have hw : (issuedAt m w c).waitMax = (run m w c).waitMax := issue_waitMax ..
      rw [← hw]
      rfl
    rw [hstep]
    constructor
    · split
      · exact ⟨c + 1, le_refl _, rfl⟩
      · exact ⟨b, Nat.le_succ_of_le hb, hmax⟩
    · rintro n ⟨b', hb', rfl⟩
      rcases Nat.lt_or_eq_of_le hb' with hlt | rfl
      · have := hle ⟨b', Nat.le_of_lt_succ hlt, rfl⟩
        split <;> omega
      · split <;> omega

/-- The largest sample of a run that has ended is the largest number that ever waited. -/
theorem waitMax_isGreatest (hall : ∀ i ∈ w.ages, (run m w d).sched i ≠ 0) :
    IsGreatest (Set.range ((run m w d).waitingIn w)) (run m w d).waitMax := by
  obtain ⟨⟨b, hb, hmax⟩, hle⟩ := run_waitMax (m := m) (w := w) d
  constructor
  · exact ⟨b, (waitingIn_eq hall hb).trans hmax⟩
  · rintro _ ⟨c, rfl⟩
    rcases Nat.le_total c d with hc | hc
    · exact hle ⟨c, hc, (waitingIn_eq hall hc).symm⟩
    · rw [waitingIn_of_gt hc]
      exact Nat.zero_le _

/-- Its samples add up to the time everybody has waited. -/
theorem waitSum_eq (hall : ∀ i ∈ w.ages, (run m w d).sched i ≠ 0) :
    (run m w d).waitSum = (w.ages.map fun i => (run m w d).sched i - (run m w d).disp i).sum := by
  rw [run_waitSum hall (le_refl d)]
  refine congrArg List.sum (List.map_congr_left fun i _ => ?_)
  rw [Nat.min_eq_right (Nat.le_succ_of_le ((run_inv m w d).sched_le i))]

end Timeline

end Window
