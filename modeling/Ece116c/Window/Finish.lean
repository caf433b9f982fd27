import Ece116c.Window.FrontEnd
import Ece116c.Window.History

/-! When the last instruction gets its bus: two cycles before the machine is empty, and not before
    the front end, the buses, the units and the longest chain allow. -/

namespace Window
open Lists

namespace Timeline

variable {κ : Type*} [DecidableEq κ] {m : Machine κ} {w : Workload κ} {c d i : ℕ}

/-! ### The last bus cycle -/

/-- A machine that is empty for the first time gave a bus two cycles ago. -/
theorem last_granted (hw : 1 ≤ m.width) (hn : w.size ≠ 0) (he : (run m w d).Empty)
    (hfirst : ∀ c, 1 ≤ c → c < d → ¬ (run m w c).Empty) :
    ∃ i ∈ w.ages, (run m w d).state i + 2 = d := by
  cases d with
  | zero => exact absurd he.1 nofun
  | succ c =>
    have hlen := announced_of_empty he
    cases c with
    | zero => exact absurd hlen.symm hn
    | succ b =>
      -- a cycle earlier somebody was not announced yet
      have hnot : (run m w b).announced.length ≠ w.size := fun h =>
        hfirst (b + 1) (Nat.le_add_left 1 b) (Nat.lt_succ_self _) (empty_of_announced hw h)
      have hinv := run_inv m w b
      obtain ⟨i, hi, hlate⟩ : ∃ i ∈ w.ages, i ∉ (run m w b).announced := by
        by_contra hall
        push Not at hall
        have hsub := (List.subperm_of_subset ages_nodup hall).length_le
        rw [length_ages] at hsub
        exact hnot (Nat.le_antisymm hinv.announced_length_le hsub)
      refine ⟨i, hi, ?_⟩
      have hdone := ((run_inv m w (b + 1 + 1)).empty_done he).2 i hi
      rw [announced_iff hdone.1] at hlate
      omega

/-- And no bus later. -/
theorem state_le_of_empty (he : (run m w d).Empty) (hi : i ∈ w.ages) :
    (run m w d).state i ≠ 0 ∧ (run m w d).state i + 2 ≤ d :=
  ((run_inv m w d).empty_done he).2 i hi

/-- The stages in turn. -/
theorem stages_lt (hs : (run m w d).state i ≠ 0) :
    (run m w d).fetch i < (run m w d).disp i ∧ (run m w d).disp i < (run m w d).sched i ∧
      (run m w d).sched i < (run m w d).exec i ∧ (run m w d).exec i < (run m w d).state i := by
  have hinv := run_inv m w d
  obtain ⟨hsched, hexec, hstate⟩ := hinv.state_sched hs
  obtain ⟨hdisp, hlt⟩ := disp_lt_sched hsched
  have := disp_eq hdisp
  exact ⟨by omega, hlt, hexec, hstate⟩

/-- A machine that is empty stays so. -/
theorem empty_mono (hw : 1 ≤ m.width) (he : (run m w c).Empty) (hcd : c ≤ d) :
    (run m w d).Empty := by
  induction d, hcd using Nat.le_induction with
  | base => exact he
  | succ d _ ih =>
    have hall := ((run_inv m w d).empty_announced ih).length_eq
    exact empty_of_announced hw (hall.trans length_ages)

/-! ### Lower bounds -/

section Bounds

variable {M : ℕ}

/-- The five stages take a cycle each. -/
theorem fetch_add_le (hs : (run m w d).state i ≠ 0) : (run m w d).fetch i ≠ 0 ∧
    (run m w d).fetch i + 3 ≤ (run m w d).exec i ∧
      (run m w d).fetch i + 4 ≤ (run m w d).state i := by
  have hinv := run_inv m w d
  have hsched := hinv.state_sched hs
  have hdisp := disp_lt_sched hsched.1
  have hfetch := hinv.disp_fetch hdisp.1
  have := disp_eq hdisp.1
  omega

/-- The width of the front end. -/
theorem bound_width (hw : 1 ≤ m.width) (hn : w.size ≠ 0) (hs : (run m w d).state w.size ≠ 0)
    (hM : ∀ i ∈ w.ages, (run m w d).state i ≤ M) : 4 + w.size ⌈/⌉ m.width ≤ M := by
  have hlast := hM w.size (mem_ages.mpr ⟨Nat.one_le_iff_ne_zero.mpr hn, le_refl _⟩)
  have hstages := fetch_add_le hs
  rw [← fetch_eq hw hstages.1]
  omega

/-- The buses. -/
theorem bound_buses (hr : 1 ≤ m.buses) (hn : w.size ≠ 0)
    (hs : ∀ i ∈ w.ages, (run m w d).state i ≠ 0)
    (hM : ∀ i ∈ w.ages, (run m w d).state i ≤ M) : 4 + w.size ⌈/⌉ m.buses ≤ M := by
  have hrange : ∀ i ∈ w.ages, 5 ≤ (run m w d).state i ∧ (run m w d).state i < 5 + (M - 4) := by
    intro i hi
    have := fetch_add_le (hs i hi)
    have := hM i hi
    omega
  have hcount := length_le_of_slots (B := m.buses) hrange fun c hc => grantedIn_le (by omega)
  rw [length_ages, ← Nat.mul_comm m.buses] at hcount
  have hceil := (ceilDiv_le_iff_le_mul hr).mpr hcount
  have := hrange w.size (mem_ages.mpr ⟨Nat.one_le_iff_ne_zero.mpr hn, le_refl _⟩)
  omega

/-- The units of one kind. -/
theorem bound_units {t : κ} (hk : 1 ≤ m.units t) (hn : w.size ≠ 0)
    (hs : ∀ i ∈ w.ages, (run m w d).state i ≠ 0) (hM : ∀ i ∈ w.ages, (run m w d).state i ≤ M) :
    4 + w.ages.countP (fun i => decide (w.kind i = some t)) ⌈/⌉ m.units t ≤ M := by
  have hinv := run_inv m w d
  have hrange : ∀ i ∈ w.ages.filter (fun i => decide (w.kind i = some t)),
      4 ≤ (run m w d).exec i ∧ (run m w d).exec i < 4 + (M - 4) := by
    intro i hi
    have hage := List.mem_of_mem_filter hi
    have := fetch_add_le (hs i hage)
    have := hinv.state_exec i (hs i hage)
    have := hM i hage
    omega
  have hcount := length_le_of_slots (B := m.units t) hrange fun c hc => by
    -- who starts in a cycle executes in it
    refine le_trans ?_ (executing_le (c := c) (d := d) m w t)
    rw [List.countP_filter, executing]
    refine List.countP_mono_left fun i hi h => ?_
    simp only [Bool.and_eq_true, decide_eq_true_eq] at h ⊢
    have := hinv.state_exec i (hs i hi)
    exact ⟨h.2, by omega, by omega, by omega⟩
  rw [← List.countP_eq_length_filter, ← Nat.mul_comm (m.units t)] at hcount
  have hceil := (ceilDiv_le_iff_le_mul hk).mpr hcount
  have hlast : w.size ∈ w.ages := mem_ages.mpr ⟨Nat.one_le_iff_ne_zero.mpr hn, le_refl _⟩
  have := fetch_add_le (hs _ hlast)
  have := hM _ hlast
  omega

/-- A consumer gets its bus two cycles after its producer. -/
theorem state_add_two_le {p : ℕ} (hs : (run m w d).state i ≠ 0) (hp : p ∈ w.deps i) :
    (run m w d).state p + 2 ≤ (run m w d).state i := by
  have hinv := run_inv m w d
  have hstate := hinv.state_exec i hs
  have := hinv.deps i hstate.1 p hp
  omega

/-- So a chain of dependences takes two cycles a member. -/
theorem bound_chain (hs : ∀ i ∈ w.ages, (run m w d).state i ≠ 0) :
    ∀ (l : List ℕ) (p : ℕ), (∀ i ∈ p :: l, i ∈ w.ages) →
      (p :: l).IsChain (fun p i => p ∈ w.deps i) → (∀ i ∈ p :: l, (run m w d).state i ≤ M) →
        (run m w d).state p + 2 * l.length ≤ M
  | [], p, _, _, hM => hM p (List.mem_cons_self ..)
  | i :: l, p, hmem, hchain, hM => by
    rw [List.isChain_cons_cons] at hchain
    have htail := bound_chain hs l i (fun j hj => hmem j (List.mem_cons_of_mem _ hj)) hchain.2
      fun j hj => hM j (List.mem_cons_of_mem _ hj)
    have hi := hs i (hmem i (List.mem_cons_of_mem _ (List.mem_cons_self ..)))
    have hstep := state_add_two_le hi hchain.1
    rw [List.length_cons]
    omega

end Bounds

end Timeline

end Window
