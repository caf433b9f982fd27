import Ece116c.Window.Progress
import Mathlib.Algebra.Order.Floor.Div

/-! The in-order front end in the stamps of a later cycle: when an instruction is fetched and
    dispatched, and that it enters the window as early as order and slots allow. -/

namespace Window
open Lists

namespace Timeline

variable {κ : Type*} [DecidableEq κ] {m : Machine κ} {w : Workload κ} {c d i : ℕ}

/-! ### Stamps and counters -/

section Counters

variable (m w)

theorem fetched_by (hd : c ≤ d) : (run m w d).fetch i ≠ 0 ∧ (run m w d).fetch i ≤ c ↔
    1 ≤ i ∧ i ≤ (run m w c).fetched := by
  rw [← (run_inv m w c).fetch_iff i]
  exact ((fetch_stamp m w i).set_by hd).symm

theorem dispatched_by (hd : c ≤ d) : (run m w d).disp i ≠ 0 ∧ (run m w d).disp i ≤ c ↔
    1 ≤ i ∧ i ≤ (run m w c).dispatched := by
  rw [← (run_inv m w c).disp_iff i]
  exact ((disp_stamp m w i).set_by hd).symm

theorem scheduled_by (hd : c ≤ d) : (run m w d).sched i ≠ 0 ∧ (run m w d).sched i ≤ c ↔
    1 ≤ i ∧ i ≤ (run m w c).scheduled := by
  rw [← (run_inv m w c).sched_iff i]
  exact ((sched_stamp m w i).set_by hd).symm

end Counters

/-! ### Fetch and dispatch -/

/-- Instruction `i` is fetched with the `i`-th turn of the front end. -/
theorem fetch_eq (hw : 1 ≤ m.width) (hi : (run m w d).fetch i ≠ 0) :
    (run m w d).fetch i = i ⌈/⌉ m.width := by
  have hrange := ((run_inv m w d).fetch_iff i).mp hi
  have hsize := (run_inv m w d).fetched_le
  have hle := (run_inv m w d).fetch_le i
  rw [run_fetched] at hrange
  refine eq_of_forall_ge_iff fun c => ?_
  rw [ceilDiv_le_iff_le_mul hw, Nat.mul_comm]
  rcases Nat.le_total c d with hc | hc
  · have hby := fetched_by m w (i := i) hc
    rw [run_fetched] at hby
    omega
  · have hmul : d * m.width ≤ c * m.width := Nat.mul_le_mul_right _ hc
    omega

/-- And dispatched in the cycle after. -/
theorem disp_eq (hi : (run m w d).disp i ≠ 0) :
    (run m w d).disp i = (run m w d).fetch i + 1 := by
  have hle := (run_inv m w d).disp_le i
  obtain ⟨b, hb⟩ : ∃ b, (run m w d).disp i = b + 1 := ⟨_, (Nat.succ_pred hi).symm⟩
  have hby := (dispatched_by m w hle).mp ⟨hi, le_refl _⟩
  rw [hb, run_succ_dispatched] at hby
  obtain ⟨h0, hfb⟩ := (fetched_by m w (show b ≤ d by omega)).mpr hby
  refine le_antisymm ?_ (by omega)
  -- whoever is fetched earlier is dispatched earlier
  have hfetch := (fetched_by m w (show (run m w d).fetch i ≤ d by omega)).mp ⟨h0, le_refl _⟩
  rw [← run_succ_dispatched] at hfetch
  exact ((dispatched_by m w (by omega)).mpr hfetch).2

/-- Instructions enter the window in order. -/
theorem sched_mono {j : ℕ} (hj : 1 ≤ j) (hji : j ≤ i) (hi : (run m w d).sched i ≠ 0) :
    (run m w d).sched j ≠ 0 ∧ (run m w d).sched j ≤ (run m w d).sched i := by
  have hle := (run_inv m w d).sched_le i
  have hby := (scheduled_by m w hle).mp ⟨hi, le_refl _⟩
  exact (scheduled_by m w hle).mpr ⟨hj, by omega⟩

theorem disp_lt_sched (hi : (run m w d).sched i ≠ 0) :
    (run m w d).disp i ≠ 0 ∧ (run m w d).disp i < (run m w d).sched i := by
  have hle := (run_inv m w d).sched_le i
  obtain ⟨h1, hby⟩ := (scheduled_by m w hle).mp ⟨hi, le_refl _⟩
  obtain ⟨b, hb⟩ : ∃ b, (run m w d).sched i = b + 1 := ⟨_, (Nat.succ_pred hi).symm⟩
  rw [hb] at hby hle ⊢
  have hs := run_succ_scheduled_le m w b
  have hdisp := (dispatched_by m w (i := i) (Nat.le_of_succ_le hle)).mpr ⟨h1, by omega⟩
  omega

/-! ### Slots -/

section Slots

variable (m w)

/-- The window never outgrows its slots. -/
theorem window_length_le (c : ℕ) : (run m w c).window.length ≤ m.slots ∧
    (updatedAt m w c).window.length ≤ m.slots := by
  have hshrink : ∀ c, (updatedAt m w c).window.length ≤ (run m w c).window.length :=
    fun c => List.length_filter_le _ _
  have hrun : (run m w c).window.length ≤ m.slots := by
    induction c with
    | zero => exact Nat.zero_le _
    | succ c ih =>
      have hu := (hshrink c).trans ih
      change ((issuedAt m w c).window ++ List.range' _ ((issuedAt m w c).room m)).length ≤ _
      rw [List.length_append, List.length_range', room, issuedAt_window]
      omega
  exact ⟨hrun, (hshrink c).trans hrun⟩

/-- Whoever stays dispatched outside the window found no slot. -/
theorem full_of_waiting (c : ℕ) (h : (run m w (c + 1)).scheduled < (run m w c).dispatched) :
    (run m w (c + 1)).window.length = m.slots := by
  have hle := (window_length_le m w c).2
  have hS : (issuedAt m w c).scheduled = (run m w c).scheduled := issue_scheduled ..
  have hD : (issuedAt m w c).dispatched = (run m w c).dispatched := issue_dispatched ..
  rw [run_succ_scheduled, room, hS, hD, issuedAt_window] at h
  change ((issuedAt m w c).window ++ List.range' _ ((issuedAt m w c).room m)).length = _
  rw [List.length_append, List.length_range', room, hS, hD, issuedAt_window]
  omega

variable {m w}

/-- The window of an earlier cycle: from the schedule cycle to two cycles after the bus. -/
theorem window_back (hd : c ≤ d) (hs : (run m w d).state i ≠ 0) : i ∈ (run m w c).window ↔
    (run m w d).sched i ≤ c ∧ c < (run m w d).state i + 2 := by
  have hinv := run_inv m w d
  obtain ⟨hsched, hx⟩ := hinv.state_sched hs
  have hby := scheduled_by m w (i := i) hd
  have hstate := (state_stamp m w i).early_or_late hd
  rw [(run_inv m w c).window_mem]
  omega

/-- The same of any cycle. -/
theorem window_iff (c : ℕ) (hs : (run m w d).state i ≠ 0) : i ∈ (run m w c).window ↔
    (run m w d).sched i ≤ c ∧ c < (run m w d).state i + 2 := by
  rcases Nat.le_total c d with hd | hd
  · exact window_back hd hs
  · have hinv := run_inv m w d
    have hsched := (hinv.state_sched hs).1
    have hstate := run_state_stable m w hs hd
    have hstable : (run m w c).sched i = (run m w d).sched i :=
      (sched_stamp m w i).stable hsched hd
    rw [window_back (le_refl c) (by rwa [hstate]), hstate, hstable]

/-- How many older instructions sit in the window in cycle `c`, told by the stamps of `T`. -/
def olderInWindow (w : Workload κ) (T : Timeline) (i c : ℕ) : ℕ :=
  w.ages.countP fun j => decide (j < i ∧ T.sched j ≤ c ∧ c < T.state j + 2)

theorem olderInWindow_eq (hd : c ≤ d) (hall : ∀ j ∈ w.ages, (run m w d).state j ≠ 0) :
    (run m w d).olderInWindow w i c =
      ((run m w c).window.filter fun j => decide (j < i)).length := by
  have hinv := run_inv m w c
  refine countP_eq_length ages_nodup (hinv.window_nodup.filter _) fun j => ?_
  rw [List.mem_filter, decide_eq_true_eq, decide_eq_true_eq]
  constructor
  · rintro ⟨hj, hji⟩
    have hage := hinv.window_ages hj
    exact ⟨hage, hji, (window_back hd (hall j hage)).mp hj⟩
  · rintro ⟨hage, hji, hin⟩
    exact ⟨(window_back hd (hall j hage)).mpr hin, hji⟩

/-- The schedule cycle is the first one behind the dispatch, in order and with a slot. -/
theorem sched_least (hall : ∀ j ∈ w.ages, (run m w d).state j ≠ 0) (hi : i ∈ w.ages) :
    IsLeast {c | (run m w d).disp i + 1 ≤ c ∧
      (∀ j ∈ w.ages, j + 1 = i → (run m w d).sched j ≤ c) ∧
      (run m w d).olderInWindow w i c < m.slots} ((run m w d).sched i) := by
  have hinv := run_inv m w d
  obtain ⟨hs, hx⟩ := hinv.state_sched (hall i hi)
  constructor
  · refine ⟨(disp_lt_sched hs).2, fun j hj hji => ?_, ?_⟩
    · exact (sched_mono (mem_ages.mp hj).1 (by omega) hs).2
    · -- `i` is in the window as well, and is not older than itself
      have hle := hinv.sched_le i
      rw [olderInWindow_eq hle hall]
      have hmem : i ∈ (run m w ((run m w d).sched i)).window := by
        rw [window_back hle (hall i hi)]
        omega
      refine lt_of_lt_of_le ?_ (window_length_le m w ((run m w d).sched i)).1
      refine lt_of_le_of_ne (List.length_filter_le _ _) fun heq => ?_
      have := List.length_filter_eq_length_iff.mp heq i hmem
      rw [decide_eq_true_eq] at this
      exact absurd this (lt_irrefl i)
  · rintro c ⟨hdisp, -, hroom⟩
    by_contra hlt
    obtain ⟨b, rfl⟩ : ∃ b, c = b + 1 := ⟨c - 1, by omega⟩
    have hle := hinv.sched_le i
    have hage := mem_ages.mp hi
    -- dispatched by `b`, not scheduled by `b + 1`, so the window was full
    have hd0 := (disp_lt_sched hs).1
    have hD := (dispatched_by m w (i := i) (show b ≤ d by omega)).mp (by omega)
    have hS : (run m w (b + 1)).scheduled < i := by
      by_contra hge
      have := (scheduled_by m w (i := i) (show b + 1 ≤ d by omega)).mpr (by omega)
      omega
    have hfull := full_of_waiting m w b (by omega)
    rw [olderInWindow_eq (by omega) hall, List.filter_eq_self.mpr, hfull] at hroom
    · exact absurd hroom (lt_irrefl _)
    · intro j hj
      have := ((run_inv m w (b + 1)).window_mem j).mp hj
      rw [decide_eq_true_eq]
      omega

end Slots

end Timeline

end Window
