import Ece116c.Window.Model
import Ece116c.Lib.Lists

/-! What holds of a timeline at every point of a cycle after its `update`.

    `c` is the cycle of the last `update`. Everything about the containers is said through the
    stage stamps: an instruction is on the bus from the cycle after it started to the cycle it is
    granted one, announced a cycle later, and out of the window after two. -/

namespace Window
open Lists

variable {κ : Type*} {m : Machine κ} {w : Workload κ} {c : ℕ} {T : Timeline}

namespace Timeline

/-- The order of the bus: by start cycle, then by age. -/
def Before (T : Timeline) (i j : ℕ) : Prop :=
  T.exec i < T.exec j ∨ (T.exec i = T.exec j ∧ i < j)

/-- The in-order front end. -/
structure Front (w : Workload κ) (c : ℕ) (T : Timeline) : Prop where
  scheduled_le : T.scheduled ≤ T.dispatched
  dispatched_le : T.dispatched ≤ T.fetched
  fetched_le : T.fetched ≤ w.size
  eof_all : T.eof = true → T.fetched = w.size
  fetch_iff : ∀ i, T.fetch i ≠ 0 ↔ 1 ≤ i ∧ i ≤ T.fetched
  disp_iff : ∀ i, T.disp i ≠ 0 ↔ 1 ≤ i ∧ i ≤ T.dispatched
  sched_iff : ∀ i, T.sched i ≠ 0 ↔ 1 ≤ i ∧ i ≤ T.scheduled
  fetch_le : ∀ i, T.fetch i ≤ c
  disp_le : ∀ i, T.disp i ≤ c
  sched_le : ∀ i, T.sched i ≤ c

/-- The order of the stages of one instruction, and of a producer and its consumer. -/
structure Stages (w : Workload κ) (c : ℕ) (T : Timeline) : Prop where
  exec_sched : ∀ i, T.exec i ≠ 0 → 1 ≤ i ∧ i ≤ T.scheduled ∧ T.sched i < T.exec i
  exec_le : ∀ i, T.exec i ≤ c
  state_exec : ∀ i, T.state i ≠ 0 → T.exec i ≠ 0 ∧ T.exec i < T.state i
  state_le : ∀ i, T.state i ≤ c
  deps : ∀ i, T.exec i ≠ 0 → ∀ p ∈ w.deps i, T.state p ≠ 0 ∧ T.state p < T.exec i

/-- Who is in which container. -/
structure Places (m : Machine κ) (c : ℕ) (T : Timeline) : Prop where
  window_mem : ∀ i, i ∈ T.window ↔
    (1 ≤ i ∧ i ≤ T.scheduled) ∧ (T.state i = 0 ∨ c < T.state i + 2)
  window_sorted : T.window.Pairwise (· < ·)
  bus_mem : ∀ i, i ∈ T.bus ↔
    T.exec i ≠ 0 ∧ T.exec i < c ∧ (T.state i = 0 ∨ T.state i = c)
  granted_mem : ∀ i, i ∈ T.bus.take m.buses ↔ T.state i ≠ 0 ∧ T.state i = c
  announced_mem : ∀ i, i ∈ T.announced ↔ T.state i ≠ 0 ∧ T.state i < c
  leaving_mem : ∀ i, i ∈ T.leaving ↔ T.state i ≠ 0 ∧ T.state i + 1 = c
  leaving_nodup : T.leaving.Nodup
  order : (T.announced ++ T.bus).Pairwise T.Before

/-- Who holds which unit, and that nobody else does meanwhile. -/
structure Units (m : Machine κ) (w : Workload κ) (T : Timeline) : Prop where
  kind_unit : ∀ i, T.exec i ≠ 0 → ∃ t, w.kind i = some t ∧ T.unit i < m.units t
  exclusive : ∀ i j, i ≠ j → T.exec i ≠ 0 → T.exec j ≠ 0 → w.kind i = w.kind j →
    T.unit i = T.unit j →
      (T.state i ≠ 0 ∧ T.state i ≤ T.exec j) ∨ (T.state j ≠ 0 ∧ T.state j ≤ T.exec i)

structure Inv (m : Machine κ) (w : Workload κ) (c : ℕ) (T : Timeline) : Prop extends
  Front w c T, Stages w c T, Places m c T, Units m w T

/-! ### Consequences at one point -/

theorem Before.irrefl (i : ℕ) : ¬ T.Before i i := by
  rintro (h | ⟨-, h⟩) <;> exact absurd h (lt_irrefl _)

theorem Before.asymm {i j : ℕ} (h : T.Before i j) : ¬ T.Before j i := by
  simp only [Before] at h ⊢; omega

theorem Places.line_nodup (h : Places m c T) : (T.announced ++ T.bus).Nodup :=
  h.order.imp fun {i j} hij e => by subst e; exact Before.irrefl _ hij

theorem Places.announced_nodup (h : Places m c T) : T.announced.Nodup :=
  (List.nodup_append.mp h.line_nodup).1

theorem Places.bus_nodup (h : Places m c T) : T.bus.Nodup :=
  (List.nodup_append.mp h.line_nodup).2.1

theorem Places.window_nodup (h : Places m c T) : T.window.Nodup :=
  h.window_sorted.imp fun {_ _} hij => Nat.ne_of_lt hij

/-- The instructions about to leave are the announced ones of the window. -/
theorem Inv.mem_leaving (h : Inv m w c T) (i : ℕ) :
    i ∈ T.leaving ↔ i ∈ T.window ∧ i ∈ T.announced := by
  have hst := h.state_exec i
  have hex := h.exec_sched i
  rw [h.leaving_mem, h.window_mem, h.announced_mem]
  constructor
  · rintro ⟨hs, hc⟩
    have hin := hex (hst hs).1
    exact ⟨⟨⟨hin.1, hin.2.1⟩, by omega⟩, hs, by omega⟩
  · rintro ⟨⟨-, hw⟩, hs, hc⟩
    exact ⟨hs, by omega⟩

/-- A holder of a unit does not leave. -/
theorem Inv.held_mem_evict (h : Inv m w c T) {i : ℕ} (hi : T.Held i) : i ∈ T.evict.window := by
  have hin := h.exec_sched i hi.1
  refine List.mem_filter.mpr ⟨(h.window_mem i).mpr ⟨⟨hin.1, hin.2.1⟩, Or.inl hi.2⟩, ?_⟩
  rw [decide_eq_true_eq, h.leaving_mem]
  exact fun hl => hl.1 hi.2

/-- An instruction with a state cycle was scheduled and executed before. -/
theorem Inv.state_sched (h : Inv m w c T) {i : ℕ} (hs : T.state i ≠ 0) :
    T.sched i ≠ 0 ∧ T.sched i < T.exec i ∧ T.exec i < T.state i := by
  have hstate := h.state_exec i hs
  have hx := h.exec_sched i hstate.1
  exact ⟨(h.sched_iff i).mpr ⟨hx.1, hx.2.1⟩, hx.2.2, hstate.2⟩

theorem Inv.disp_fetch (h : Inv m w c T) {i : ℕ} (hd : T.disp i ≠ 0) : T.fetch i ≠ 0 := by
  have hi := (h.disp_iff i).mp hd
  exact (h.fetch_iff i).mpr ⟨hi.1, le_trans hi.2 h.dispatched_le⟩

/-- Past the granted prefix, nobody on the bus has a stamp. -/
theorem Places.waiting_mem (h : Places m c T) (i : ℕ) :
    i ∈ T.bus.drop m.buses ↔ T.exec i ≠ 0 ∧ T.exec i < c ∧ T.state i = 0 := by
  rw [mem_drop_iff h.bus_nodup, h.bus_mem, h.granted_mem]
  by_cases hs : T.state i = 0
  · simp [hs]
  · simp [hs]

/-- Until it is announced, a scheduled instruction is in the window. -/
theorem Places.mem_window (h : Places m c T) {i : ℕ} (h1 : 1 ≤ i) (hi : i ≤ T.scheduled)
    (ha : i ∉ T.announced) : i ∈ T.window := by
  rw [h.announced_mem] at ha
  exact (h.window_mem i).mpr ⟨⟨h1, hi⟩, by omega⟩

/-- What the oldest of the window depends on has left it. -/
theorem Places.oldest_ready (h : Places m c T) (ho : w.Ordered) {i : ℕ} {rest : List ℕ}
    (hw : T.window = i :: rest) : T.Ready w i := by
  intro p hp
  obtain ⟨h1, hpi⟩ := ho i p hp
  have hi : i ∈ T.window := by
    rw [hw]
    exact List.mem_cons_self ..
  have hrange := ((h.window_mem i).mp hi).1
  by_contra ha
  have hmem := h.mem_window h1 (by omega) ha
  rw [hw] at hmem
  rcases List.mem_cons.mp hmem with rfl | hmem
  · omega
  · have hlt := (List.pairwise_cons.mp (hw ▸ h.window_sorted)).1 p hmem
    omega

/-- The ages of the fetched instructions, container by container. -/
def located (T : Timeline) : List ℕ :=
  List.range' (T.dispatched + 1) (T.fetched - T.dispatched) ++
    List.range' (T.scheduled + 1) (T.dispatched - T.scheduled) ++
      T.window.filter (fun i => i ∉ T.announced) ++ T.announced

/-- The scheduled ages are in the window or announced, and not both. -/
theorem Inv.scheduled_perm (h : Inv m w c T) :
    (T.window.filter (fun i => i ∉ T.announced) ++ T.announced).Perm
      (List.range' 1 T.scheduled) := by
  have hnd : (T.window.filter (fun i => i ∉ T.announced) ++ T.announced).Nodup := by
    refine List.nodup_append.mpr ⟨h.window_nodup.filter _, h.announced_nodup, fun i hi j hj => ?_⟩
    rintro rfl
    simp [hj] at hi
  refine (List.perm_ext_iff_of_nodup hnd List.nodup_range').mpr fun i => ?_
  rw [List.mem_append, List.mem_filter, decide_eq_true_eq, h.window_mem, h.announced_mem,
    List.mem_range'_1]
  have hst := h.state_exec i
  have hex := h.exec_sched i
  have hle := h.state_le i
  constructor
  · rintro (⟨hi, -⟩ | ⟨hi, -⟩)
    · omega
    · have := hex (hst hi).1; omega
  · intro hi; omega

/-- Every fetched age is in exactly one container. -/
theorem Inv.located_perm (h : Inv m w c T) : T.located.Perm (List.range' 1 T.fetched) := by
  have hS := h.scheduled_le
  have hD := h.dispatched_le
  have hsplit : List.range' 1 T.fetched = List.range' 1 T.scheduled ++
      (List.range' (T.scheduled + 1) (T.dispatched - T.scheduled) ++
        List.range' (T.dispatched + 1) (T.fetched - T.dispatched)) := by
    have h1 : T.dispatched + 1 = T.scheduled + 1 + (T.dispatched - T.scheduled) := by omega
    rw [h1, List.range'_append_1, Nat.add_comm T.scheduled 1, List.range'_append_1]
    congr 1
    omega
  rw [hsplit, located, List.append_assoc]
  exact (h.scheduled_perm.append_left _).trans
    (List.perm_append_comm.trans (List.perm_append_comm.append_left _))

end Timeline

end Window
