import Ece116c.Window.Invariant

/-! The `update` step keeps the invariant and moves it to the next cycle.

    The instructions that finish in `update` are exactly those that started in the cycle before;
    they join the line behind everybody who started earlier, so the line stays in `Before` order
    and the granted prefix of one cycle is what the next cycle announces. -/

namespace Window
open Lists

namespace Timeline

variable {κ : Type*} {m : Machine κ} {w : Workload κ} {c : ℕ} {T : Timeline}

/-- The line for the buses once the announced instructions are off it. -/
def nextBus (m : Machine κ) (T : Timeline) : List ℕ :=
  T.bus.drop m.buses ++ (T.evict.announce m).finishing

section Fields

variable (m) (c) (T)

@[simp] theorem update_fetched : (T.update m c).fetched = T.fetched := rfl
@[simp] theorem update_dispatched : (T.update m c).dispatched = T.dispatched := rfl
@[simp] theorem update_scheduled : (T.update m c).scheduled = T.scheduled := rfl
@[simp] theorem update_eof : (T.update m c).eof = T.eof := rfl
@[simp] theorem update_fetch : (T.update m c).fetch = T.fetch := rfl
@[simp] theorem update_disp : (T.update m c).disp = T.disp := rfl
@[simp] theorem update_sched : (T.update m c).sched = T.sched := rfl
@[simp] theorem update_exec : (T.update m c).exec = T.exec := rfl
@[simp] theorem update_unit : (T.update m c).unit = T.unit := rfl
@[simp] theorem update_fired : (T.update m c).fired = T.fired := rfl
@[simp] theorem update_waitSum : (T.update m c).waitSum = T.waitSum := rfl
@[simp] theorem update_waitMax : (T.update m c).waitMax = T.waitMax := rfl
@[simp] theorem update_bus : (T.update m c).bus = T.nextBus m := rfl
@[simp] theorem update_window :
    (T.update m c).window = T.window.filter (fun i => i ∉ T.leaving) := rfl
@[simp] theorem update_leaving : (T.update m c).leaving = T.bus.take m.buses := rfl
@[simp] theorem update_announced :
    (T.update m c).announced = T.announced ++ T.bus.take m.buses := rfl

theorem update_state (i : ℕ) : (T.update m c).state i =
    if i ∈ (T.nextBus m).take m.buses ∧ T.state i = 0 then c else T.state i := rfl

end Fields

/-- What finishes is what started in the last cycle. -/
theorem Inv.mem_finishing (h : Inv m w c T) (i : ℕ) :
    i ∈ (T.evict.announce m).finishing ↔ T.exec i ≠ 0 ∧ T.exec i = c := by
  have hann : i ∈ T.announced ++ T.bus.take m.buses ↔ T.state i ≠ 0 := by
    rw [List.mem_append, h.announced_mem, h.granted_mem]
    have := h.state_le i
    omega
  have hwait := h.waiting_mem i
  have hmem : i ∈ (T.evict.announce m).finishing ↔ (i ∈ T.window ∧ i ∉ T.leaving) ∧
      T.exec i ≠ 0 ∧ i ∉ T.announced ++ T.bus.take m.buses ∧ i ∉ T.bus.drop m.buses := by
    rw [finishing, List.mem_filter, decide_eq_true_eq]
    simp only [evict, announce, List.mem_filter, decide_eq_true_eq]
  rw [hmem, hann, hwait, h.window_mem, h.leaving_mem]
  have hexec := h.exec_sched i
  have hle := h.exec_le i
  have hst := h.state_exec i
  have hsle := h.state_le i
  constructor
  · rintro ⟨-, he, hs, hb⟩
    exact ⟨he, by omega⟩
  · rintro ⟨he, hc⟩
    have hs : T.state i = 0 := by omega
    have := hexec he
    exact ⟨⟨⟨⟨this.1, this.2.1⟩, Or.inl hs⟩, by omega⟩, he, by omega, by omega⟩

/-- The line consists of the started instructions without a bus. -/
theorem Inv.mem_nextBus (h : Inv m w c T) (i : ℕ) : i ∈ T.nextBus m ↔ T.Held i := by
  rw [nextBus, List.mem_append, h.waiting_mem, h.mem_finishing, Held]
  have hle := h.exec_le i
  have hst := h.state_exec i
  have hsle := h.state_le i
  omega

/-- The stamps after `update`: the granted prefix gets the new cycle, nothing else changes. -/
theorem Inv.update_state_eq (h : Inv m w c T) (i : ℕ) : (T.update m (c + 1)).state i =
    if i ∈ (T.nextBus m).take m.buses then c + 1 else T.state i := by
  rw [update_state]
  by_cases hi : i ∈ (T.nextBus m).take m.buses
  · have hs := ((h.mem_nextBus i).mp (List.mem_of_mem_take hi)).2
    rw [if_pos ⟨hi, hs⟩, if_pos hi]
  · rw [if_neg (fun hh => hi hh.1), if_neg hi]

/-- A stamp, once given, stays. -/
theorem update_state_of_ne {i : ℕ} (hs : T.state i ≠ 0) :
    (T.update m c).state i = T.state i := by
  rw [update_state, if_neg fun hh => hs hh.2]

/-- A stamp that `update` sees as 0 was 0; else it is an old one or the new cycle. -/
theorem Inv.update_state_cases (h : Inv m w c T) (i : ℕ) :
    (i ∈ (T.nextBus m).take m.buses ∧ T.state i = 0 ∧ T.exec i ≠ 0 ∧
        (T.update m (c + 1)).state i = c + 1) ∨
      (i ∉ (T.nextBus m).take m.buses ∧ (T.update m (c + 1)).state i = T.state i) := by
  rw [h.update_state_eq]
  by_cases hi : i ∈ (T.nextBus m).take m.buses
  · have hh := (h.mem_nextBus i).mp (List.mem_of_mem_take hi)
    exact Or.inl ⟨hi, hh.2, hh.1, if_pos hi⟩
  · exact Or.inr ⟨hi, if_neg hi⟩

theorem Inv.update_front (h : Inv m w c T) : Front w (c + 1) (T.update m (c + 1)) where
  scheduled_le := h.scheduled_le
  dispatched_le := h.dispatched_le
  fetched_le := h.fetched_le
  eof_all := h.eof_all
  fetch_iff := h.fetch_iff
  disp_iff := h.disp_iff
  sched_iff := h.sched_iff
  fetch_le i := Nat.le_succ_of_le (h.fetch_le i)
  disp_le i := Nat.le_succ_of_le (h.disp_le i)
  sched_le i := Nat.le_succ_of_le (h.sched_le i)

theorem Inv.update_stages (h : Inv m w c T) : Stages w (c + 1) (T.update m (c + 1)) where
  exec_sched := h.exec_sched
  exec_le i := Nat.le_succ_of_le (h.exec_le i)
  state_exec i hi := by
    rw [update_exec]
    have hle := h.exec_le i
    rcases h.update_state_cases i with ⟨-, -, he, hs⟩ | ⟨-, hs⟩
    · exact ⟨he, by omega⟩
    · rw [hs] at hi ⊢; exact h.state_exec i hi
  state_le i := by
    have := h.state_le i
    rcases h.update_state_cases i with ⟨-, -, -, hs⟩ | ⟨-, hs⟩ <;> omega
  deps i hi p hp := by
    have hd := h.deps i hi p hp
    rw [update_state_of_ne hd.1]
    exact hd

/-- The whole line, announced or not, in order: what was there, then what finishes now. -/
theorem Inv.update_order (h : Inv m w c T) :
    ((T.announced ++ T.bus.take m.buses) ++ T.nextBus m).Pairwise T.Before := by
  have hline : (T.announced ++ T.bus.take m.buses) ++ T.nextBus m =
      (T.announced ++ T.bus) ++ (T.evict.announce m).finishing := by
    rw [nextBus, List.append_assoc, ← List.append_assoc (T.bus.take m.buses),
      List.take_append_drop, List.append_assoc]
  rw [hline, List.pairwise_append]
  refine ⟨h.order, ?_, ?_⟩
  · -- the finishing ones all started in cycle `c`, and the window is sorted by age
    have hsub : (T.evict.announce m).finishing.Sublist T.window :=
      List.Sublist.trans List.filter_sublist List.filter_sublist
    refine (h.window_sorted.sublist hsub).imp_of_mem fun {i j} hi hj hij => Or.inr ⟨?_, hij⟩
    rw [((h.mem_finishing i).mp hi).2, ((h.mem_finishing j).mp hj).2]
  · intro i hi j hj
    have hj' := ((h.mem_finishing j).mp hj).2
    refine Or.inl ?_
    rcases List.mem_append.mp hi with hi | hi
    · have hs := (h.announced_mem i).mp hi
      have := h.state_exec i hs.1
      omega
    · have := (h.bus_mem i).mp hi
      omega

theorem Inv.update_places (h : Inv m w c T) : Places m (c + 1) (T.update m (c + 1)) where
  window_mem i := by
    simp only [update_window, List.mem_filter, h.window_mem, h.leaving_mem, decide_eq_true_eq,
      update_scheduled]
    have := h.state_le i
    rcases h.update_state_cases i with ⟨-, hz, -, hs⟩ | ⟨-, hs⟩ <;> omega
  window_sorted := h.window_sorted.sublist List.filter_sublist
  bus_mem i := by
    rw [update_bus, h.mem_nextBus, Held, update_exec]
    have hsle := h.state_le i
    have hle := h.exec_le i
    rcases h.update_state_cases i with ⟨-, hz, -, hs⟩ | ⟨-, hs⟩ <;> omega
  granted_mem i := by
    rw [update_bus]
    have hsle := h.state_le i
    rcases h.update_state_cases i with ⟨hi, hz, -, hs⟩ | ⟨hi, hs⟩
    · rw [hs]; exact iff_of_true hi ⟨by omega, rfl⟩
    · rw [hs]; exact iff_of_false hi (by omega)
  announced_mem i := by
    rw [update_announced, List.mem_append, h.announced_mem, h.granted_mem]
    have hsle := h.state_le i
    rcases h.update_state_cases i with ⟨-, hz, -, hs⟩ | ⟨-, hs⟩ <;> omega
  leaving_mem i := by
    rw [update_leaving, h.granted_mem]
    have hsle := h.state_le i
    rcases h.update_state_cases i with ⟨-, hz, -, hs⟩ | ⟨-, hs⟩ <;> omega
  leaving_nodup := h.bus_nodup.sublist (List.take_sublist _ _)
  order := h.update_order

theorem Inv.update_units (h : Inv m w c T) : Units m w (T.update m (c + 1)) where
  kind_unit := h.kind_unit
  exclusive i j hij hi hj hk hu := by
    rcases h.exclusive i j hij hi hj hk hu with hs | hs
    · exact Or.inl (by rw [update_state_of_ne hs.1]; exact hs)
    · exact Or.inr (by rw [update_state_of_ne hs.1]; exact hs)

theorem Inv.update (h : Inv m w c T) : Inv m w (c + 1) (T.update m (c + 1)) :=
  ⟨h.update_front, h.update_stages, h.update_places, h.update_units⟩

end Timeline

end Window
