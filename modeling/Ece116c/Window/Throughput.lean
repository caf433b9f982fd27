import Ece116c.Lib.ListScheduling
import Ece116c.Window.Finish
import Mathlib.Data.Fintype.BigOperators

/-! How much later than its critical path an instruction is done: whoever waits for neither order,
    slots nor producers waits in cycles in which a bus or a unit is the bottleneck, and the oldest
    first rule leaves few of these. -/

namespace Window
open Lists ListScheduling

namespace Timeline

variable {κ : Type*} [DecidableEq κ] {m : Machine κ} {w : Workload κ} {c d i : ℕ}

/-- The instructions of kind `t`. -/
def agesOf (w : Workload κ) (t : κ) : List ℕ := w.ages.filter fun i => decide (w.kind i = some t)

theorem mem_agesOf {t : κ} : i ∈ agesOf w t ↔ i ∈ w.ages ∧ w.kind i = some t := by
  rw [agesOf, List.mem_filter, decide_eq_true_eq]

/-- In cycle `c` all buses are granted, or all units of a kind taken, with somebody left. -/
def Stalled (m : Machine κ) (w : Workload κ) (T : Timeline) (c : ℕ) : Prop :=
  Crowded w.ages T.state m.buses c ∨ ∃ t, Crowded (agesOf w t) T.exec (m.units t) c

instance [Fintype κ] (T : Timeline) : DecidablePred (T.Stalled m w) :=
  fun _ => inferInstanceAs (Decidable (_ ∨ ∃ t, Crowded (agesOf w t) T.exec (m.units t) _))

section Waits

variable (hall : ∀ i ∈ w.ages, (run m w d).state i ≠ 0) (hi : i ∈ w.ages)

include hall hi

/-- Who waits for a bus. -/
theorem crowded_of_finished (hx : (run m w d).exec i < c) (hs : c < (run m w d).state i) :
    Crowded w.ages (run m w d).state m.buses c := by
  have hinv := run_inv m w d
  have hle := hinv.state_le i
  exact ⟨grantedIn_full (by omega) (hinv.state_exec i (hall i hi)).1 hx (.inr hs), i, hi, hs⟩

/-- Who waits for a unit. -/
theorem stalled_of_ready (hsched : (run m w d).sched i < c)
    (hdeps : ∀ p ∈ w.deps i, (run m w d).state p < c) (hx : c < (run m w d).exec i) :
    Stalled m w (run m w d) c := by
  have hinv := run_inv m w d
  have hexec := (hinv.state_exec i (hall i hi)).1
  by_cases hbus : Crowded w.ages (run m w d).state m.buses c
  · exact .inl hbus
  obtain ⟨t, hk, -⟩ := hinv.kind_unit i hexec
  obtain ⟨b, rfl⟩ : ∃ b, c = b + 1 := ⟨c - 1, by omega⟩
  have hle := hinv.exec_le i
  obtain ⟨-, hfull, -⟩ := passed_over_back (show b + 1 ≤ d by omega) hk
    (hinv.state_sched (hall i hi)).1 hsched
    (fun p hp => ⟨(hinv.deps i hexec p hp).1, hdeps p hp⟩) (.inr hx)
  refine .inr ⟨t, ?_, i, mem_agesOf.mpr ⟨hi, hk⟩, hx⟩
  -- nobody waits for a bus, so whoever holds a unit has just taken it
  rw [← hfull, agesOf, List.countP_filter, executing]
  refine List.countP_congr fun j hj => ?_
  have hstate := hinv.state_exec j (hall j hj)
  have hnow : (run m w d).exec j < b + 1 → (run m w d).state j ≤ b + 1 := by
    intro hlt
    by_contra hgt
    exact hbus (crowded_of_finished hall hj hlt (by omega))
  simp only [Bool.and_eq_true, decide_eq_true_eq]
  constructor
  · rintro ⟨hx, hkj⟩
    exact ⟨hkj, by omega, by omega, by omega⟩
  · rintro ⟨hkj, h0, hxj, hsj⟩
    exact ⟨by omega, hkj⟩

variable [Fintype κ]

/-- From the cycle `c` in which it might have started on, an instruction waits in stalled cycles
    only. -/
theorem waits (hc : c ≤ (run m w d).exec i) (hsched : (run m w d).sched i < c)
    (hdeps : ∀ p ∈ w.deps i, (run m w d).state p < c) :
    (run m w d).state i + Nat.count (Stalled m w (run m w d)) c ≤
      c + 1 + Nat.count (Stalled m w (run m w d)) ((run m w d).state i) := by
  have hstate := (run_inv m w d).state_exec i (hall i hi)
  have hunit : ∀ b, c ≤ b → b < (run m w d).exec i → Stalled m w (run m w d) b :=
    fun b hcb hb => stalled_of_ready hall hi (by omega) (fun p hp => (hdeps p hp).trans_le hcb) hb
  have hbus : ∀ b, (run m w d).exec i + 1 ≤ b → b < (run m w d).state i →
      Stalled m w (run m w d) b :=
    fun b hxb hb => .inl (crowded_of_finished hall hi hxb hb)
  have hstart := count_of_stalled hc hunit
  have hdone := count_of_stalled hstate.2 hbus
  have hmono := Nat.count_monotone (Stalled m w (run m w d)) (Nat.le_succ ((run m w d).exec i))
  rw [Nat.succ_eq_add_one] at hmono hdone
  omega

/-- The last thing an instruction waited for is its entry or a producer. -/
theorem waits_for : (run m w d).state i ≤ (run m w d).sched i + 2 +
      Nat.count (Stalled m w (run m w d)) ((run m w d).state i) ∨
    ∃ p ∈ w.deps i, (run m w d).state i +
      Nat.count (Stalled m w (run m w d)) ((run m w d).state p) ≤ (run m w d).state p + 2 +
        Nat.count (Stalled m w (run m w d)) ((run m w d).state i) := by
  have hinv := run_inv m w d
  obtain ⟨-, hsx, hxs⟩ := hinv.state_sched (hall i hi)
  by_cases hlate : ∃ p ∈ w.deps i, (run m w d).sched i < (run m w d).state p
  · obtain ⟨q, hq, hql⟩ := hlate
    obtain ⟨p, hp, hmax⟩ := Finset.exists_max_image (w.deps i).toFinset (run m w d).state
      ⟨q, List.mem_toFinset.mpr hq⟩
    have hpi := List.mem_toFinset.mp hp
    have hpq := hmax q (List.mem_toFinset.mpr hq)
    have hdep := hinv.deps i (hinv.state_exec i (hall i hi)).1 p hpi
    have hwait := waits hall hi (c := (run m w d).state p + 1) hdep.2 (by omega)
      fun a ha => Nat.lt_succ_of_le (hmax a (List.mem_toFinset.mpr ha))
    have hmono := Nat.count_monotone (Stalled m w (run m w d)) (Nat.le_succ ((run m w d).state p))
    rw [Nat.succ_eq_add_one] at hmono
    exact .inr ⟨p, hpi, by omega⟩
  · push Not at hlate
    have hwait := waits hall hi (c := (run m w d).sched i + 1) hsx (Nat.lt_succ_self _)
      fun p hp => Nat.lt_succ_of_le (hlate p hp)
    exact .inl (by omega)

end Waits

variable [Fintype κ]

/-- The stalled cycles are few: fewer than the buses need for all instructions, and than the units
    of each kind for theirs. -/
theorem stalled_le (hall : ∀ i ∈ w.ages, (run m w d).state i ≠ 0) (M : ℕ) :
    Nat.count (Stalled m w (run m w d)) M ≤
      (w.size - 1) / m.buses + ∑ t, ((agesOf w t).length - 1) / m.units t := by
  have hinv := run_inv m w d
  have hbuses : w.ages ≠ [] → 1 ≤ m.buses := by
    intro hne
    obtain ⟨i, rest, hages⟩ := List.exists_cons_of_ne_nil hne
    have hi : i ∈ w.ages := by
      rw [hages]
      exact List.mem_cons_self ..
    have hpos : 1 ≤ (run m w d).grantedIn w ((run m w d).state i) :=
      List.countP_pos_iff.mpr ⟨i, hi, decide_eq_true rfl⟩
    exact hpos.trans (grantedIn_le (hall i hi))
  have hunits : ∀ t, agesOf w t ≠ [] → 1 ≤ m.units t := by
    intro t hne
    obtain ⟨i, rest, hages⟩ := List.exists_cons_of_ne_nil hne
    have hi : i ∈ agesOf w t := by
      rw [hages]
      exact List.mem_cons_self ..
    obtain ⟨hi, hk⟩ := mem_agesOf.mp hi
    obtain ⟨t', hk', hlt⟩ := hinv.kind_unit i (hinv.state_exec i (hall i hi)).1
    obtain rfl : t = t' := Option.some.inj (hk.symm.trans hk')
    omega
  refine (count_le_sum (fun c hc => hc) M).trans (Nat.add_le_add ?_ ?_)
  · rw [← length_ages (w := w)]
    exact count_crowded_le hbuses M
  · exact Finset.sum_le_sum fun t _ => count_crowded_le (hunits t) M

/-- An instruction is done two cycles a member after the entry of some chain that ends in it, and
    the stalled cycles. -/
theorem exists_critical_chain (ho : w.Ordered) (hall : ∀ i ∈ w.ages, (run m w d).state i ≠ 0)
    (hi : i ∈ w.ages) : ∃ j l, (∀ k ∈ j :: l, k ∈ w.ages) ∧
      (j :: l).IsChain (fun p i => p ∈ w.deps i) ∧ (j :: l).getLast? = some i ∧
        (run m w d).state i ≤ (run m w d).sched j + 2 * (l.length + 1) +
          ((w.size - 1) / m.buses + ∑ t, ((agesOf w t).length - 1) / m.units t) := by
  have hback : ∀ i ∈ w.ages, (run m w d).state i ≤ (run m w d).sched i + 2 +
      Nat.count (Stalled m w (run m w d)) ((run m w d).state i) ∨
      ∃ p, p ∈ w.ages ∧ p < i ∧ p ∈ w.deps i ∧ (run m w d).state i +
        Nat.count (Stalled m w (run m w d)) ((run m w d).state p) ≤ (run m w d).state p + 2 +
          Nat.count (Stalled m w (run m w d)) ((run m w d).state i) := by
    intro i hi
    refine (waits_for hall hi).imp id ?_
    rintro ⟨p, hp, hle⟩
    have hlt := ho i p hp
    have hage := mem_ages.mp hi
    exact ⟨p, mem_ages.mpr (by omega), hlt.2, hp, hle⟩
  obtain ⟨j, l, hl, hmem, hlast, hle⟩ := exists_chain hback i hi
  exact ⟨j, l, hmem, hl, hlast, hle.trans (Nat.add_le_add_left (stalled_le hall _) _)⟩

omit [Fintype κ] in
/-- The last of a chain is done two cycles a member after the first. -/
theorem chain_state_le (hall : ∀ i ∈ w.ages, (run m w d).state i ≠ 0) : ∀ (l : List ℕ) (j : ℕ),
    (∀ k ∈ j :: l, k ∈ w.ages) → (j :: l).IsChain (fun p i => p ∈ w.deps i) →
      (j :: l).getLast? = some i → (run m w d).state j + 2 * l.length ≤ (run m w d).state i
  | [], j, _, _, hlast => by
    obtain rfl := Option.some.inj hlast
    exact le_refl _
  | k :: l, j, hmem, hchain, hlast => by
    rw [List.isChain_cons_cons] at hchain
    rw [List.getLast?_cons_cons] at hlast
    have hk := hmem k (List.mem_cons_of_mem _ (List.mem_cons_self ..))
    have hstep := state_add_two_le (hall k hk) hchain.1
    have hrest := chain_state_le hall l k (fun a ha => hmem a (List.mem_cons_of_mem _ ha)) hchain.2
      hlast
    rw [List.length_cons]
    omega

/-! ### Slots for everybody -/

omit [Fintype κ] in
theorem disp_mono {j : ℕ} (hj : 1 ≤ j) (hji : j ≤ i) (hi : (run m w d).disp i ≠ 0) :
    (run m w d).disp j ≤ (run m w d).disp i := by
  have hle := (run_inv m w d).disp_le i
  have hby := (dispatched_by m w hle).mp ⟨hi, le_refl _⟩
  exact ((dispatched_by m w hle).mpr ⟨hj, by omega⟩).2

omit [Fintype κ] in
/-- In a window for the whole workload nobody waits for a slot. -/
theorem sched_eq (hslots : w.size ≤ m.slots) (hall : ∀ i ∈ w.ages, (run m w d).state i ≠ 0)
    (hi : i ∈ w.ages) : (run m w d).sched i = (run m w d).disp i + 1 := by
  induction i with
  | zero => exact absurd (mem_ages.mp hi).1 (by decide)
  | succ i ih =>
    obtain ⟨hdisp, hlt⟩ := disp_lt_sched ((run_inv m w d).state_sched (hall _ hi)).1
    refine le_antisymm ((sched_least hall hi).2 ⟨le_refl _, fun j hj hji => ?_, ?_⟩) hlt
    · obtain rfl : j = i := Nat.succ_inj.mp hji
      rw [ih hj]
      exact Nat.succ_le_succ (disp_mono (mem_ages.mp hj).1 (Nat.le_succ j) hdisp)
    · -- the instruction itself is not older than itself
      rw [olderInWindow]
      refine lt_of_lt_of_le ?_ (length_ages.trans_le hslots)
      refine lt_of_le_of_ne List.countP_le_length fun heq => ?_
      have hself := of_decide_eq_true (List.countP_eq_length.mp heq (i + 1) hi)
      exact absurd hself.1 (lt_irrefl _)

end Timeline

end Window
