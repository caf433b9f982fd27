import Ece116c.Window.Progress

/-! What the stamps at the end of a run say about an earlier cycle: who held the units, who had
    the buses, and who was passed over.

    A stamp tells its own past (`IsStamp.back`), so each law is the invariant at the cycle it
    speaks of. -/

namespace Window
open Lists

namespace Timeline

variable {κ : Type*} [DecidableEq κ] {m : Machine κ} {w : Workload κ} {c d : ℕ} {T : Timeline}

/-! ### Holders of units -/

/-- The instructions of kind `t` that hold a unit. -/
def holders (w : Workload κ) (T : Timeline) (t : κ) : List ℕ :=
  w.ages.filter fun i => decide (T.Held i ∧ w.kind i = some t)

theorem Inv.mem_holders (h : Inv m w c T) {t : κ} {i : ℕ} :
    i ∈ T.holders w t ↔ T.Held i ∧ w.kind i = some t := by
  rw [holders, List.mem_filter, decide_eq_true_eq]
  exact ⟨fun hi => hi.2, fun hi => ⟨h.mem_ages hi.1.1, hi⟩⟩

/-- Their units are distinct units of the kind. -/
theorem Inv.holders_units (h : Inv m w c T) (t : κ) :
    ((T.holders w t).map T.unit).Nodup ∧
      ∀ j ∈ (T.holders w t).map T.unit, j ∈ List.range (m.units t) := by
  constructor
  · refine (List.nodup_map_iff_inj_on (ages_nodup.filter _)).mpr fun i hi j hj hu => ?_
    have hi := h.mem_holders.mp hi
    have hj := h.mem_holders.mp hj
    by_contra hij
    rcases h.exclusive i j hij hi.1.1 hj.1.1 (hi.2.trans hj.2.symm) hu with hs | hs
    · exact hs.1 hi.1.2
    · exact hs.1 hj.1.2
  · intro j hj
    obtain ⟨i, hi, rfl⟩ := List.mem_map.mp hj
    have hi := h.mem_holders.mp hi
    obtain ⟨t', hk, hu⟩ := h.kind_unit i hi.1.1
    obtain rfl : t = t' := Option.some.inj (hi.2.symm.trans hk)
    exact List.mem_range.mpr hu

theorem Inv.holders_length_le (h : Inv m w c T) (t : κ) : (T.holders w t).length ≤ m.units t := by
  obtain ⟨hnd, hsub⟩ := h.holders_units t
  have hle := (List.subperm_of_subset hnd hsub).length_le
  rwa [List.length_map, List.length_range] at hle

theorem Inv.holders_length_of_full (h : Inv m w c T) {t : κ} (hf : T.Full m w t) :
    (T.holders w t).length = m.units t := by
  refine Nat.le_antisymm (h.holders_length_le t) ?_
  have hsub : List.range (m.units t) ⊆ (T.holders w t).map T.unit := by
    intro j hj
    obtain ⟨i, -, hh, hk, hu⟩ := hf j (List.mem_range.mp hj)
    exact List.mem_map.mpr ⟨i, h.mem_holders.mpr ⟨hh, hk⟩, hu⟩
  have hle := (List.subperm_of_subset List.nodup_range hsub).length_le
  rwa [List.length_map, List.length_range] at hle

/-! ### A past cycle -/

section Past

variable (m w)

theorem held_back (hd : c ≤ d) (i : ℕ) : (run m w c).Held i ↔
    (run m w d).exec i ≠ 0 ∧ (run m w d).exec i ≤ c ∧
      ((run m w d).state i = 0 ∨ c < (run m w d).state i) := by
  rw [Held, (exec_stamp m w i).back hd, (state_stamp m w i).back hd]
  split <;> split <;> omega

/-- How many instructions of kind `t` were executing in cycle `c`, told by the stamps of `T`. -/
def executing (w : Workload κ) (T : Timeline) (t : κ) (c : ℕ) : ℕ :=
  w.ages.countP fun i => decide (w.kind i = some t ∧ T.exec i ≠ 0 ∧ T.exec i ≤ c ∧
    (T.state i = 0 ∨ c < T.state i))

theorem executing_eq (hd : c ≤ d) (t : κ) :
    (run m w d).executing w t c = ((run m w c).holders w t).length := by
  rw [executing, holders, ← List.countP_eq_length_filter]
  refine List.countP_congr fun i _ => ?_
  rw [decide_eq_true_eq, decide_eq_true_eq, held_back m w hd]
  exact and_comm

/-- At most `units t` instructions of a kind execute in one cycle. -/
theorem executing_le (t : κ) : (run m w d).executing w t c ≤ m.units t := by
  rcases Nat.le_total c d with hd | hd
  · rw [executing_eq m w hd]
    exact (run_inv m w c).holders_length_le t
  · have hinv := run_inv m w d
    have hmono : (run m w d).executing w t c ≤ (run m w d).executing w t d := by
      refine List.countP_mono_left fun i _ hi => ?_
      rw [decide_eq_true_eq] at hi ⊢
      have := hinv.exec_le i
      have := hinv.state_le i
      exact ⟨hi.1, hi.2.1, by omega, by omega⟩
    rw [executing_eq m w (le_refl d)] at hmono
    exact hmono.trans (hinv.holders_length_le t)

variable {m w}

/-- A ready instruction that is passed over: every unit of its kind is taken, and who of its kind
    starts now is older. -/
theorem passed_over {t : κ} {i : ℕ} (hk : w.kind i = some t)
    (hi : i ∈ (updatedAt m w c).window) (hr : (updatedAt m w c).Ready w i)
    (h0 : (run m w (c + 1)).exec i = 0) :
    (issuedAt m w c).Full m w t ∧
      ∀ j, w.kind j = some t → (run m w (c + 1)).exec j = c + 1 → j < i := by
  have hU := updatedAt_inv m w c
  obtain ⟨hfull, hold⟩ := foldl_issueOne_waiting (m := m) (Nat.succ_ne_zero c) hk
    (updatedAt m w c).window (updatedAt m w c) hU.window_sorted hi hr h0
  refine ⟨hfull, fun j hj hx => hold j hj ?_ ?_⟩
  · by_contra hne
    have hsame := run_exec_stable m w (i := j) (c := c) hne (Nat.le_add_right c 1)
    have hle := (run_inv m w c).exec_le j
    omega
  · rw [run_succ_exec] at hx
    exact hx ▸ Nat.succ_ne_zero c

/-- The issue law in the stamps of a later cycle `d`: scheduled before `c + 1`, producers granted
    before `c + 1`, not started by then. -/
theorem passed_over_back {t : κ} {i : ℕ} (hd : c + 1 ≤ d) (hk : w.kind i = some t)
    (hs : (run m w d).sched i ≠ 0) (hsc : (run m w d).sched i < c + 1)
    (hr : ∀ p ∈ w.deps i, (run m w d).state p ≠ 0 ∧ (run m w d).state p < c + 1)
    (hx : (run m w d).exec i = 0 ∨ c + 1 < (run m w d).exec i) :
    (issuedAt m w c).Full m w t ∧ (run m w d).executing w t (c + 1) = m.units t ∧
      ∀ j, w.kind j = some t → (run m w d).exec j = c + 1 → j < i := by
  have hU := updatedAt_inv m w c
  have h0 : (run m w (c + 1)).exec i = 0 := by
    rw [(exec_stamp m w i).back hd]
    split <;> omega
  have hsched : (updatedAt m w c).sched i ≠ 0 := by
    change (run m w c).sched i ≠ 0
    rw [(sched_stamp m w i).back (show c ≤ d by omega), if_pos (by omega)]
    exact hs
  have hU0 : (updatedAt m w c).exec i = 0 := by
    change (run m w c).exec i = 0
    rw [(exec_stamp m w i).back (show c ≤ d by omega)]
    split <;> omega
  have hstate : (updatedAt m w c).state i = 0 := by
    by_contra hst
    exact (hU.state_exec i hst).1 hU0
  have hwin : i ∈ (updatedAt m w c).window :=
    (hU.window_mem i).mpr ⟨(hU.sched_iff i).mp hsched, Or.inl hstate⟩
  have hready : (updatedAt m w c).Ready w i := by
    intro p hp
    refine (hU.announced_mem p).mpr ?_
    rw [← run_succ_state, (state_stamp m w p).back hd, if_pos (by have := (hr p hp).2; omega)]
    exact hr p hp
  obtain ⟨hfull, hold⟩ := passed_over hk hwin hready h0
  refine ⟨hfull, ?_, fun j hj hxj => hold j hj ?_⟩
  · rw [executing_eq m w hd]
    exact (issuedAt_inv m w c).holders_length_of_full hfull
  · rw [(exec_stamp m w j).back hd, if_pos (by omega)]
    exact hxj

/-! ### The buses of a past cycle -/

variable (m w)

/-- How many instructions got their bus in cycle `c`. -/
def grantedIn (w : Workload κ) (T : Timeline) (c : ℕ) : ℕ :=
  w.ages.countP fun i => decide (T.state i = c)

variable {m w}

theorem grantedIn_eq (hc : c ≠ 0) (hd : c ≤ d) :
    (run m w d).grantedIn w c = min m.buses (run m w c).bus.length := by
  have hinv := run_inv m w c
  rw [grantedIn, ← List.length_take]
  refine countP_eq_length ages_nodup (hinv.bus_nodup.sublist (List.take_sublist _ _)) fun i => ?_
  rw [hinv.granted_mem, (state_stamp m w i).back hd, decide_eq_true_eq]
  constructor
  · intro hi
    have hst : (run m w d).state i = c := by split at hi <;> omega
    exact ⟨(run_inv m w d).mem_ages ((run_inv m w d).state_exec i (by omega)).1, hst⟩
  · rintro ⟨-, hi⟩
    rw [if_pos (by omega)]
    omega

/-- At most `buses` instructions get their bus in one cycle. -/
theorem grantedIn_le (hc : c ≠ 0) : (run m w d).grantedIn w c ≤ m.buses := by
  rcases Nat.le_total c d with hd | hd
  · rw [grantedIn_eq hc hd]; exact Nat.min_le_left _ _
  · rcases Nat.lt_or_eq_of_le hd with hlt | rfl
    · have hz : (run m w d).grantedIn w c = 0 := by
        refine List.countP_eq_zero.mpr fun i _ hi => ?_
        have := (run_inv m w d).state_le i
        rw [decide_eq_true_eq] at hi
        omega
      rw [hz]; exact Nat.zero_le _
    · rw [grantedIn_eq hc hd]; exact Nat.min_le_left _ _

/-- While a finished instruction waits, no bus idles. -/
theorem grantedIn_full {i : ℕ} (hd : c ≤ d) (he : (run m w d).exec i ≠ 0)
    (hc : (run m w d).exec i < c) (hs : (run m w d).state i = 0 ∨ c < (run m w d).state i) :
    (run m w d).grantedIn w c = m.buses := by
  have hinv := run_inv m w c
  have hheld := (held_back m w hd i).mpr ⟨he, by omega, hs⟩
  have hexec : (run m w c).exec i = (run m w d).exec i := by
    rw [(exec_stamp m w i).back hd, if_pos (by omega)]
  have hwait : i ∈ (run m w c).bus.drop m.buses :=
    (hinv.waiting_mem i).mpr ⟨hheld.1, by omega, hheld.2⟩
  rw [grantedIn_eq (by omega) hd]
  have hlen := List.length_pos_of_mem hwait
  rw [List.length_drop] at hlen
  omega

/-- Whoever has a bus is announced from the next cycle on. -/
theorem announced_iff {i : ℕ} (hs : (run m w d).state i ≠ 0) :
    i ∈ (run m w c).announced ↔ (run m w d).state i < c := by
  rw [(run_inv m w c).announced_mem]
  rcases Nat.le_total c d with hd | hd
  · rw [(state_stamp m w i).back hd]
    split <;> omega
  · rw [run_state_stable m w hs hd]
    exact and_iff_right hs

/-- Buses are granted in the order of the line. -/
theorem state_mono {i j : ℕ} (hi : (run m w d).exec i ≠ 0) (hb : (run m w d).Before i j)
    (hj : (run m w d).state j ≠ 0) :
    (run m w d).state i ≠ 0 ∧ (run m w d).state i ≤ (run m w d).state j := by
  by_contra hno
  have hdinv := run_inv m w d
  have hexj := hdinv.state_exec j hj
  have hle : (run m w d).exec i ≤ (run m w d).exec j := by
    rcases hb with h | ⟨h, -⟩ <;> omega
  -- in the cycle `j` got its bus, `i` was in line as well
  obtain ⟨c, hc⟩ : ∃ c, (run m w d).state j = c := ⟨_, rfl⟩
  have hcd : c ≤ d := hc ▸ hdinv.state_le j
  have hinv := run_inv m w c
  have hback : ∀ a, (run m w d).exec a ≤ c → (run m w c).exec a = (run m w d).exec a :=
    fun a ha => by rw [(exec_stamp m w a).back hcd, if_pos ha]
  have hxi := hback i (by omega)
  have hxj := hback j (by omega)
  have hsj : (run m w c).state j = c := by
    rw [(state_stamp m w j).back hcd, hc, if_pos (le_refl c)]
  have hsi : (run m w c).state i = 0 := by
    rw [(state_stamp m w i).back hcd]
    split <;> omega
  have hgranted : j ∈ (run m w c).bus.take m.buses := (hinv.granted_mem j).mpr (by omega)
  have hwait : i ∈ (run m w c).bus.drop m.buses := (hinv.waiting_mem i).mpr (by omega)
  have hsorted : (run m w c).bus.Pairwise (run m w c).Before :=
    (List.pairwise_append.mp hinv.order).2.1
  rw [← List.take_append_drop m.buses (run m w c).bus, List.pairwise_append] at hsorted
  have hji := hsorted.2.2 j hgranted i hwait
  have hij : (run m w c).Before i j := by
    rw [Before, hxi, hxj]; exact hb
  exact hij.asymm hji

end Past

end Timeline

end Window
