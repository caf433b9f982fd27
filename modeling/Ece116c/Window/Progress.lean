import Ece116c.Window.Run

/-! Deadlock freedom of the abstract machine.

    Every instruction has six stages to go through, and a cycle in which nobody moves leaves the
    machine empty: with nothing on the bus every started instruction is announced, so the oldest
    of the window is ready and finds a unit; if the window is empty too, the front end moves. -/

namespace Window
open Lists

namespace Timeline

variable {κ : Type*} {m : Machine κ} {w : Workload κ} {c : ℕ} {T : Timeline}

/-- The machine has what the workload needs. -/
structure Serves (m : Machine κ) (w : Workload κ) : Prop where
  buses : 1 ≤ m.buses
  width : 1 ≤ m.width
  slots : w.size ≠ 0 → 1 ≤ m.slots
  units : ∀ i, 1 ≤ i → i ≤ w.size → ∃ t, w.kind i = some t ∧ 1 ≤ m.units t
  ordered : w.Ordered

theorem Serves.take_eq_nil (h : Serves m w) {l : List ℕ} (hl : l.take m.buses = []) : l = [] := by
  have hb := h.buses
  rcases List.take_eq_nil_iff.mp hl with h0 | h0
  · omega
  · exact h0

/-! ### Counting stages -/

theorem mem_ages {i : ℕ} : i ∈ w.ages ↔ 1 ≤ i ∧ i ≤ w.size := by
  rw [Workload.ages, List.mem_range'_1]; omega

theorem ages_nodup : w.ages.Nodup := List.nodup_range'

@[simp] theorem length_ages : w.ages.length = w.size := List.length_range'

/-- How many instructions have started, and how many have got a bus. -/
def started (w : Workload κ) (T : Timeline) : ℕ := w.ages.countP fun i => decide (T.exec i ≠ 0)
def granted (w : Workload κ) (T : Timeline) : ℕ := w.ages.countP fun i => decide (T.state i ≠ 0)

/-- How many stages have been passed, over all instructions. -/
def stages (w : Workload κ) (T : Timeline) : ℕ :=
  T.fetched + T.dispatched + T.scheduled + T.started w + T.granted w + T.announced.length

theorem Inv.scheduled_le_size (h : Inv m w c T) : T.scheduled ≤ w.size :=
  (h.scheduled_le.trans h.dispatched_le).trans h.fetched_le

theorem Inv.mem_ages (h : Inv m w c T) {i : ℕ} (hi : T.exec i ≠ 0) : i ∈ w.ages := by
  have hx := h.exec_sched i hi
  exact Timeline.mem_ages.mpr ⟨hx.1, hx.2.1.trans h.scheduled_le_size⟩

theorem Inv.window_ages (h : Inv m w c T) {i : ℕ} (hi : i ∈ T.window) : i ∈ w.ages := by
  have hr := ((h.window_mem i).mp hi).1
  exact Timeline.mem_ages.mpr ⟨hr.1, hr.2.trans h.scheduled_le_size⟩

theorem Inv.announced_length_le_scheduled (h : Inv m w c T) :
    T.announced.length ≤ T.scheduled := by
  have hsub : T.announced ⊆ List.range' 1 T.scheduled := fun i hi => by
    have := h.exec_sched i (h.state_exec i ((h.announced_mem i).mp hi).1).1
    exact List.mem_range'_1.mpr (by omega)
  calc T.announced.length ≤ (List.range' 1 T.scheduled).length :=
        (List.subperm_of_subset h.announced_nodup hsub).length_le
    _ = T.scheduled := List.length_range'

theorem Inv.announced_length_le (h : Inv m w c T) : T.announced.length ≤ w.size :=
  h.announced_length_le_scheduled.trans h.scheduled_le_size

theorem Inv.mem_announced_of_length (h : Inv m w c T) (hl : T.announced.length = w.size) :
    ∀ i ∈ w.ages, i ∈ T.announced := by
  intro i hi
  have hsub : T.announced ⊆ w.ages := fun j hj =>
    h.mem_ages (h.state_exec j ((h.announced_mem j).mp hj).1).1
  have hperm := (List.subperm_of_subset h.announced_nodup hsub).perm_of_length_le
    (le_of_eq (length_ages.trans hl.symm))
  exact hperm.mem_iff.mpr hi

theorem Inv.stages_le (h : Inv m w c T) : T.stages w ≤ 6 * w.size := by
  have hS := h.scheduled_le
  have hD := h.dispatched_le
  have hF := h.fetched_le
  have hA := h.announced_length_le
  have hE : T.started w ≤ w.size := List.countP_le_length.trans (le_of_eq length_ages)
  have hG : T.granted w ≤ w.size := List.countP_le_length.trans (le_of_eq length_ages)
  rw [stages]
  omega

/-! ### The empty machine -/

/-- When the machine is empty, every instruction got its bus at least two cycles ago. -/
theorem Inv.empty_done (h : Inv m w c T) (he : T.Empty) :
    T.fetched = w.size ∧ ∀ i ∈ w.ages, T.state i ≠ 0 ∧ T.state i + 2 ≤ c := by
  obtain ⟨heof, hd, hs, hw, -⟩ := he
  have hF := h.eof_all heof
  refine ⟨hF, fun i hi => ?_⟩
  have hage := Timeline.mem_ages.mp hi
  have hout := (h.window_mem i).not.mp (by rw [hw]; exact List.not_mem_nil)
  omega

theorem Inv.empty_announced (h : Inv m w c T) (he : T.Empty) : T.announced.Perm w.ages := by
  refine (List.perm_ext_iff_of_nodup h.announced_nodup ages_nodup).mpr fun i => ?_
  constructor
  · intro hi
    exact h.mem_ages (h.state_exec i ((h.announced_mem i).mp hi).1).1
  · intro hi
    have := (h.empty_done he).2 i hi
    exact (h.announced_mem i).mpr (by omega)

theorem Inv.empty_started (h : Inv m w c T) (he : T.Empty) : T.started w = w.size := by
  rw [started, ← length_ages (w := w), List.countP_eq_length]
  intro i hi
  rw [decide_eq_true_eq]
  exact (h.state_exec i ((h.empty_done he).2 i hi).1).1

section Cycle

variable [DecidableEq κ] (m w c)

/-! ### The counters over one cycle -/

theorem run_succ_eof : (run m w (c + 1)).eof =
    ((run m w c).eof || decide (w.size < (run m w c).fetched + m.width)) := by
  have hE : (dispatchedAt m w c).eof = (run m w c).eof := issue_eof ..
  have hF : (dispatchedAt m w c).fetched = (run m w c).fetched := issue_fetched ..
  have hstep : (run m w (c + 1)).eof = ((dispatchedAt m w c).eof ||
      decide (w.size < (dispatchedAt m w c).fetched + m.width)) := rfl
  rw [hstep, hE, hF]

/-- Fetching never waits. -/
theorem run_fetched (c : ℕ) : (run m w c).fetched = min (c * m.width) w.size := by
  induction c with
  | zero => simp [run, start]
  | succ c ih =>
    have hF : (dispatchedAt m w c).fetched = (run m w c).fetched := issue_fetched ..
    have hE : (dispatchedAt m w c).eof = (run m w c).eof := issue_eof ..
    rw [run_succ_fetched, fetchCount, hE, hF, Nat.succ_mul]
    cases he : (run m w c).eof with
    | true =>
      have hall := (run_inv m w c).eof_all he
      rw [if_pos rfl]
      omega
    | false =>
      rw [if_neg (by decide)]
      omega

theorem run_dispatched (c : ℕ) : (run m w c).dispatched = min ((c - 1) * m.width) w.size := by
  cases c with
  | zero => simp [run, start]
  | succ c => rw [run_succ_dispatched, run_fetched, Nat.add_sub_cancel]

theorem run_succ_scheduled_le : (run m w (c + 1)).scheduled ≤ (run m w c).dispatched := by
  have hroom := (issuedAt m w c).room_le m
  have hS : (issuedAt m w c).scheduled = (run m w c).scheduled := issue_scheduled ..
  have hD : (issuedAt m w c).dispatched = (run m w c).dispatched := issue_dispatched ..
  have hle := (run_inv m w c).scheduled_le
  rw [run_succ_scheduled]
  omega

/-- Nobody is in the window before the cycle after the next. -/
theorem run_scheduled_le (c : ℕ) : (run m w c).scheduled ≤ (c - 2) * m.width := by
  cases c with
  | zero => exact Nat.zero_le _
  | succ c =>
    refine (run_succ_scheduled_le m w c).trans ?_
    rw [run_dispatched]
    exact Nat.min_le_left _ _

theorem issuedAt_window : (issuedAt m w c).window = (updatedAt m w c).window :=
  issue_window m w (c + 1) (updatedAt m w c)

/-- In cycle `c + 1` some instruction is fetched, dispatched or scheduled, starts, gets a bus or
    is announced. -/
def Moves : Prop :=
  (run m w c).fetched < (run m w (c + 1)).fetched ∨
    (run m w c).dispatched < (run m w (c + 1)).dispatched ∨
    (run m w c).scheduled < (run m w (c + 1)).scheduled ∨
    (∃ i, (run m w (c + 1)).exec i = c + 1) ∨
    (∃ i, (run m w (c + 1)).state i = c + 1) ∨
    (run m w c).announced.length < (run m w (c + 1)).announced.length

variable {m w c}

theorem started_le : (run m w c).started w ≤ (run m w (c + 1)).started w :=
  List.countP_mono_left fun i _ hi => by
    rw [decide_eq_true_eq] at hi ⊢
    rw [run_exec_stable m w hi (Nat.le_succ c)]
    exact hi

theorem granted_le : (run m w c).granted w ≤ (run m w (c + 1)).granted w :=
  List.countP_mono_left fun i _ hi => by
    rw [decide_eq_true_eq] at hi ⊢
    rw [run_state_stable m w hi (Nat.le_succ c)]
    exact hi

theorem started_lt {i : ℕ} (hi : (run m w (c + 1)).exec i = c + 1) :
    (run m w c).started w < (run m w (c + 1)).started w := by
  have hpos : (run m w (c + 1)).exec i ≠ 0 := by omega
  have hzero : (run m w c).exec i = 0 := by
    by_contra h0
    have hsame := run_exec_stable m w h0 (Nat.le_add_right c 1)
    have hle := (run_inv m w c).exec_le i
    omega
  refine countP_lt (a := i) (decide_eq_false (not_not.mpr hzero)) (decide_eq_true hpos) _
    ((run_inv m w (c + 1)).mem_ages hpos) fun j _ hj => ?_
  rw [decide_eq_true_eq] at hj ⊢
  rw [run_exec_stable m w hj (Nat.le_succ c)]
  exact hj

theorem granted_lt {i : ℕ} (hi : (run m w (c + 1)).state i = c + 1) :
    (run m w c).granted w < (run m w (c + 1)).granted w := by
  have hpos : (run m w (c + 1)).state i ≠ 0 := by omega
  have hzero : (run m w c).state i = 0 := by
    by_contra h0
    have hsame := run_state_stable m w h0 (Nat.le_add_right c 1)
    have hle := (run_inv m w c).state_le i
    omega
  have hexec := ((run_inv m w (c + 1)).state_exec i hpos).1
  refine countP_lt (a := i) (decide_eq_false (not_not.mpr hzero)) (decide_eq_true hpos) _
    ((run_inv m w (c + 1)).mem_ages hexec) fun j _ hj => ?_
  rw [decide_eq_true_eq] at hj ⊢
  rw [run_state_stable m w hj (Nat.le_succ c)]
  exact hj

/-- A move passes a stage. -/
theorem Moves.stages_lt (h : Moves m w c) :
    (run m w c).stages w < (run m w (c + 1)).stages w := by
  have hF : (run m w c).fetched ≤ (run m w (c + 1)).fetched := by
    rw [run_succ_fetched]; exact Nat.le_add_right _ _
  have hD : (run m w c).dispatched ≤ (run m w (c + 1)).dispatched := by
    rw [run_succ_dispatched]; exact (run_inv m w c).dispatched_le
  have hS : (run m w c).scheduled ≤ (run m w (c + 1)).scheduled := by
    rw [run_succ_scheduled]; exact Nat.le_add_right _ _
  have hE := started_le (m := m) (w := w) (c := c)
  have hG := granted_le (m := m) (w := w) (c := c)
  have hA : (run m w c).announced.length ≤ (run m w (c + 1)).announced.length := by
    rw [run_succ_announced, List.length_append]; exact Nat.le_add_right _ _
  rw [stages, stages]
  rcases h with h | h | h | ⟨i, h⟩ | ⟨i, h⟩ | h
  · omega
  · omega
  · omega
  · have := started_lt h; omega
  · have := granted_lt h; omega
  · omega

omit [DecidableEq κ] in
theorem fire_started {i j : ℕ} (hc : c ≠ 0) (he : T.exec i = 0) (hi : i ∈ w.ages) :
    (T.fire c i j).started w = T.started w + 1 := by
  have hself : (T.fire c i j).exec i ≠ 0 := by rw [fire_exec_self]; exact hc
  exact countP_succ (p := fun x => decide (T.exec x ≠ 0))
    (q := fun x => decide ((T.fire c i j).exec x ≠ 0)) (decide_eq_false (not_not.mpr he))
    (decide_eq_true hself) w.ages ages_nodup hi fun b _ hb => by rw [fire_exec_of_ne hb]

/-- `fired` counts the started instructions. -/
theorem foldl_issueOne_fired (hc : c ≠ 0) (l : List ℕ) (T : Timeline) (hl : ∀ i ∈ l, i ∈ w.ages)
    (h : T.fired = T.started w) :
    (l.foldl (issueOne m w c) T).fired = (l.foldl (issueOne m w c) T).started w := by
  induction l generalizing T with
  | nil => exact h
  | cons i l ih =>
    rw [List.foldl_cons]
    refine ih _ (fun a ha => hl a (List.mem_cons_of_mem _ ha)) ?_
    rcases issueOne_cases m w c T i with ⟨hT, -⟩ | ⟨t, j, he, -, -, -, hT⟩
    · rw [hT]
      exact h
    · rw [hT, fire_started hc he (hl i (List.mem_cons_self ..)), ← h]
      rfl

theorem run_fired (c : ℕ) : (run m w c).fired = (run m w c).started w := by
  induction c with
  | zero => exact (List.countP_eq_zero.mpr fun _ _ => by simp [run, start]).symm
  | succ c ih =>
    exact foldl_issueOne_fired (m := m) (Nat.succ_ne_zero c) (updatedAt m w c).window
      (updatedAt m w c) (fun i hi => (updatedAt_inv m w c).window_ages hi) ih

/-! ### A cycle without a move -/

/-- Cycle `c + 1` moves nobody. -/
structure Still (m : Machine κ) (w : Workload κ) (c : ℕ) : Prop where
  fetched : (run m w (c + 1)).fetched ≤ (run m w c).fetched
  dispatched : (run m w (c + 1)).dispatched ≤ (run m w c).dispatched
  scheduled : (run m w (c + 1)).scheduled ≤ (run m w c).scheduled
  exec : ∀ i, (run m w (c + 1)).exec i ≠ c + 1
  state : ∀ i, (run m w (c + 1)).state i ≠ c + 1
  announced : (run m w (c + 1)).announced.length ≤ (run m w c).announced.length

theorem still_of_not_moves (h : ¬ Moves m w c) : Still m w c := by
  simp only [Moves, not_or, not_exists, not_lt] at h
  obtain ⟨hf, hd, hs, he, hg, ha⟩ := h
  exact ⟨hf, hd, hs, he, hg, ha⟩

section Still

variable (hm : Serves m w) (h : Still m w c)

include h

theorem Still.exec_eq (i : ℕ) : (run m w (c + 1)).exec i = (run m w c).exec i := by
  rcases run_succ_exec_cases m w c i with hx | ⟨-, -, -, hx⟩
  · exact hx
  · exact absurd hx (h.exec i)

theorem Still.dispatched_all : (run m w c).dispatched = (run m w c).fetched := by
  have hd := h.dispatched
  rw [run_succ_dispatched] at hd
  exact Nat.le_antisymm (run_inv m w c).dispatched_le hd

theorem Still.room : (issuedAt m w c).room m = 0 := by
  have hs := h.scheduled
  rw [run_succ_scheduled] at hs
  omega

include hm

/-- With a width nobody is left to fetch. -/
theorem Still.fetched_all : (run m w c).fetched = w.size := by
  have hwidth := hm.width
  have hf := h.fetched
  rw [run_fetched, run_fetched, Nat.succ_mul] at hf
  rw [run_fetched]
  omega

theorem Still.bus : (run m w c).bus = [] := by
  refine hm.take_eq_nil (List.eq_nil_of_length_eq_zero ?_)
  have ha := h.announced
  rw [run_succ_announced, List.length_append] at ha
  omega

/-- Nobody gets a bus, so nobody holds a unit. -/
theorem Still.nextBus : (run m w c).nextBus m = [] := by
  refine hm.take_eq_nil (List.eq_nil_iff_forall_not_mem.mpr fun i hi => ?_)
  rcases run_succ_state_cases m w c i with ⟨-, hno⟩ | ⟨-, -, -, hs⟩
  · exact hno hi
  · exact h.state i hs

/-- Whoever is in the window after the update has not started. -/
theorem Still.waiting {i : ℕ} (hi : i ∈ (updatedAt m w c).window) : (run m w c).exec i = 0 := by
  have hinv := run_inv m w c
  obtain ⟨-, hstate⟩ := ((updatedAt_inv m w c).window_mem i).mp hi
  have hnot : ¬ (run m w c).Held i := by
    rw [← hinv.mem_nextBus, h.nextBus hm]
    exact List.not_mem_nil
  by_contra he
  have hs : (run m w c).state i ≠ 0 := fun hs => hnot ⟨he, hs⟩
  have hsame : (updatedAt m w c).state i = (run m w c).state i := update_state_of_ne hs
  have hgranted := (hinv.granted_mem i).not.mp (by rw [h.bus hm]; simp)
  have hle := hinv.state_le i
  omega

/-- The oldest of the window would have started. -/
theorem Still.window : (updatedAt m w c).window = [] := by
  have hU := updatedAt_inv m w c
  cases hw : (updatedAt m w c).window with
  | nil => rfl
  | cons i rest =>
    exfalso
    have hi : i ∈ (updatedAt m w c).window := by
      rw [hw]
      exact List.mem_cons_self ..
    have hready := hU.oldest_ready hm.ordered hw
    obtain ⟨h1, hsize⟩ := Timeline.mem_ages.mp (hU.window_ages hi)
    obtain ⟨t, hk, hunits⟩ := hm.units i h1 hsize
    obtain ⟨hfull, -⟩ := foldl_issueOne_waiting (m := m) (Nat.succ_ne_zero c) hk
      (updatedAt m w c).window (updatedAt m w c) hU.window_sorted hi hready
      ((h.exec_eq i).trans (h.waiting hm hi))
    -- unit 0 is free: its holder would have started in this cycle
    obtain ⟨j, hj, ⟨hje, -⟩, -, -⟩ := hfull 0 hunits
    have hjwin : j ∈ (updatedAt m w c).window := by
      rw [← issuedAt_window]
      exact hj
    exact hje ((h.exec_eq j).trans (h.waiting hm hjwin))

theorem Still.issued_window : (issuedAt m w c).window = [] := by
  rw [issuedAt_window]
  exact h.window hm

/-- There is room in the empty window, so everybody dispatched is scheduled. -/
theorem Still.scheduled_all : (run m w c).scheduled = (run m w c).dispatched := by
  have hinv := run_inv m w c
  have hle := hinv.scheduled_le
  have hlast := hinv.dispatched_le.trans hinv.fetched_le
  have hslots := hm.slots
  have hroom := h.room
  have hs : (issuedAt m w c).scheduled = (run m w c).scheduled := issue_scheduled ..
  have hd : (issuedAt m w c).dispatched = (run m w c).dispatched := issue_dispatched ..
  rw [Timeline.room, h.issued_window hm, hs, hd, List.length_nil] at hroom
  omega

theorem Still.empty : (run m w (c + 1)).Empty := by
  have hall := h.fetched_all hm
  refine ⟨?_, ?_, ?_, ?_, ?_⟩
  · have hwidth := hm.width
    rw [run_succ_eof, Bool.or_eq_true, decide_eq_true_eq, hall]
    right
    omega
  · have hF := (run_inv m w (c + 1)).fetched_le
    have hmono : (run m w c).fetched ≤ (run m w (c + 1)).fetched := by
      rw [run_succ_fetched]
      exact Nat.le_add_right _ _
    rw [run_succ_dispatched]
    omega
  · rw [run_succ_scheduled, run_succ_dispatched, h.room, h.scheduled_all hm, h.dispatched_all,
      Nat.add_zero]
  · change (issuedAt m w c).window ++ List.range' _ ((issuedAt m w c).room m) = []
    rw [h.issued_window hm, h.room]
    rfl
  · rw [run_succ_bus, h.nextBus hm]

end Still

theorem moves_or_empty (hm : Serves m w) (c : ℕ) : Moves m w c ∨ (run m w (c + 1)).Empty := by
  by_cases h : Moves m w c
  · exact Or.inl h
  · exact Or.inr ((still_of_not_moves h).empty hm)

/-- One cycle after the last announcement the machine is empty. -/
theorem empty_of_announced (hw : 1 ≤ m.width) (h : (run m w c).announced.length = w.size) :
    (run m w (c + 1)).Empty := by
  have hinv := run_inv m w c
  have hnext := run_inv m w (c + 1)
  have hall := hinv.mem_announced_of_length h
  have hA := hinv.announced_length_le_scheduled
  have hS := hinv.scheduled_le
  have hD := hinv.dispatched_le
  have hF := hinv.fetched_le
  have hS' := hnext.scheduled_le
  have hD' := hnext.dispatched_le
  have hF' := hnext.fetched_le
  have hd := run_succ_dispatched m w c
  have hs := run_succ_scheduled m w c
  -- everybody got its bus before cycle `c`, and keeps the stamp
  have hout : ∀ i ∈ w.ages, (run m w (c + 1)).state i ≠ 0 ∧ (run m w (c + 1)).state i < c := by
    intro i hi
    have ha := (hinv.announced_mem i).mp (hall i hi)
    rw [run_state_stable m w ha.1 (Nat.le_add_right c 1)]
    exact ha
  refine ⟨?_, by omega, by omega, ?_, ?_⟩
  · rw [run_succ_eof, Bool.or_eq_true, decide_eq_true_eq]
    right; omega
  · refine List.eq_nil_iff_forall_not_mem.mpr fun i hi => ?_
    obtain ⟨hr, hst⟩ := (hnext.window_mem i).mp hi
    have := hout i (Timeline.mem_ages.mpr (by omega))
    omega
  · refine List.eq_nil_iff_forall_not_mem.mpr fun i hi => ?_
    obtain ⟨he, -, hst⟩ := (hnext.bus_mem i).mp hi
    have := hout i (hnext.mem_ages he)
    omega

/-- One cycle before the machine is empty, everybody has been announced. -/
theorem announced_of_empty (h : (run m w (c + 1)).Empty) :
    (run m w c).announced.length = w.size := by
  have hinv := run_inv m w c
  refine Nat.le_antisymm hinv.announced_length_le ?_
  have hsub : w.ages ⊆ (run m w c).announced := fun i hi => by
    have hdone := ((run_inv m w (c + 1)).empty_done h).2 i hi
    refine (hinv.announced_mem i).mpr ?_
    rcases run_succ_state_cases m w c i with ⟨hs, -⟩ | ⟨-, -, -, hs⟩ <;> omega
  calc w.size = w.ages.length := length_ages.symm
    _ ≤ (run m w c).announced.length := (List.subperm_of_subset ages_nodup hsub).length_le

end Cycle

end Timeline

end Window
